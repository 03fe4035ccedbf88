import Xv6.Kernel.Kalloc

/-! User page tables (`kernel/vm.c`), the lazy-allocation and copy-on-write fault handlers
(`kernel/trap.c`), and `sys_sbrk` (`kernel/sysproc.c`). Page tables are Sv39 trees of
page-table pages in physical memory, read and written as 64-bit words; new pages come
from `kalloc` on the CPU `id` the code runs on. -/
namespace Xv6
open ByteMem

/-- `&pagetable[PX(level, va)]`. -/
def pteAddr (pagetable level va : Nat) : Nat := pagetable + 8 * PX level va

/-- One pass of `walk`'s loop at `level`: the page-table page one level down. When its PTE
is not valid and `alloc` is set, a new zeroed page is linked in with `PTE_V`. `none` is
where `walk` returns 0. -/
def walkLevel (id : Fin NCPU) (va : Nat) (alloc : Bool) (pagetable level : Nat) :
    KM (Option Nat) := do
  let pte := pteAddr pagetable level va
  let e := read64 (← get).mem pte
  if hasFlag e PTE_V then return some (PTE2PA e)
  if !alloc then return none
  let p ← kalloc id
  if p = 0 then return none
  modify fun s => { s with mem := memset s.mem p 0 PGSIZE }
  modify fun s => { s with mem := write64 s.mem pte (PA2PTE p ||| PTE_V) }
  return some p

/-- `walk(pagetable, va, alloc)`: the address of the level-0 PTE for `va`, or 0. -/
def walk (id : Fin NCPU) (pagetable va : Nat) (alloc : Bool) : KM Nat := do
  if va ≥ MAXVA then throw "walk"
  match ← walkLevel id va alloc pagetable 2 with
  | none => return 0
  | some p1 =>
    match ← walkLevel id va alloc p1 1 with
    | none => return 0
    | some p0 => return pteAddr p0 0 va

/-- `walkaddr(pagetable, va)`: the physical page of a valid user mapping, or 0. -/
def walkaddr (id : Fin NCPU) (pagetable va : Nat) : KM Nat := do
  if va ≥ MAXVA then return 0
  let pte ← walk id pagetable va false
  if pte = 0 then return 0
  let e := read64 (← get).mem pte
  if !hasFlag e PTE_V then return 0
  if !hasFlag e PTE_U then return 0
  return PTE2PA e

/-- One page of `mappages`' loop: `false` when `walk` could not allocate. -/
def mappagesPage (id : Fin NCPU) (pagetable perm a pa : Nat) : KM Bool := do
  let pte ← walk id pagetable a true
  if pte = 0 then return false
  let e := read64 (← get).mem pte
  if hasFlag e PTE_V && !hasFlag e PTE_COW then throw "mappages: remap"
  modify fun s => { s with mem := write64 s.mem pte (PA2PTE pa ||| perm ||| PTE_V) }
  return true

/-- The loop of `mappages` from the page `a`, mapped to `pa`, with `n` pages after it up to
`last`; the two addresses advance in `uint64`. -/
def mappagesLoop (id : Fin NCPU) (pagetable perm : Nat) : Nat → Nat → Nat → KM Int
  | a, pa, 0 => do
    if ← mappagesPage id pagetable perm a pa then return 0
    return -1
  | a, pa, n + 1 => do
    if ← mappagesPage id pagetable perm a pa then
      mappagesLoop id pagetable perm ((a + PGSIZE) % 2 ^ 64) ((pa + PGSIZE) % 2 ^ 64) n
    else return -1

/-- `mappages(pagetable, va, size, pa, perm)`: the loop stops when `a` reaches
`last = PGROUNDDOWN(va + size - 1)`, after `(last - a) / PGSIZE` steps in `uint64`. -/
def mappages (id : Fin NCPU) (pagetable va size pa perm : Nat) : KM Int := do
  if size = 0 then throw "mappages: size"
  let a := PGROUNDDOWN va
  let last := PGROUNDDOWN ((va + size - 1) % 2 ^ 64)
  mappagesLoop id pagetable perm a pa ((last + 2 ^ 64 - a) % 2 ^ 64 / PGSIZE)

/-- The body of `uvmunmap`'s loop at the page `a`: unmapped pages are skipped. -/
def uvmunmapPage (id : Fin NCPU) (pagetable : Nat) (doFree : Bool) (a : Nat) : KM Unit := do
  let pte ← walk id pagetable a false
  if pte = 0 then return
  let e := read64 (← get).mem pte
  if !hasFlag e PTE_V then return
  if PTE_FLAGS e = PTE_V then throw "uvmunmap: not a leaf"
  if doFree then kfree id (PTE2PA e)
  modify fun s => { s with mem := write64 s.mem pte 0 }

def uvmunmapLoop (id : Fin NCPU) (pagetable : Nat) (doFree : Bool) : Nat → Nat → KM Unit
  | _, 0 => pure ()
  | a, k + 1 => do
    uvmunmapPage id pagetable doFree a
    uvmunmapLoop id pagetable doFree (a + PGSIZE) k

/-- `uvmunmap(pagetable, va, npages, do_free)`: the loop runs while
`a < va + npages*PGSIZE`, that bound taken in `uint64`. -/
def uvmunmap (id : Fin NCPU) (pagetable va npages : Nat) (doFree : Bool) : KM Unit := do
  if va % PGSIZE ≠ 0 then throw "uvmunmap: not aligned"
  uvmunmapLoop id pagetable doFree va (((va + npages * PGSIZE) % 2 ^ 64 - va) / PGSIZE)

/-- `uvmcreate()`: an empty page table, or 0. -/
def uvmcreate (id : Fin NCPU) : KM Nat := do
  let pagetable ← kalloc id
  if pagetable = 0 then return 0
  modify fun s => { s with mem := memset s.mem pagetable 0 PGSIZE }
  return pagetable

/-- `uvmdealloc(pagetable, oldsz, newsz)`; the page count passes through an `int`. -/
def uvmdealloc (id : Fin NCPU) (pagetable oldsz newsz : Nat) : KM Nat := do
  if newsz ≥ oldsz then return oldsz
  if PGROUNDUP newsz < PGROUNDUP oldsz then
    let npages := int32 ((PGROUNDUP oldsz - PGROUNDUP newsz) / PGSIZE)
    uvmunmap id pagetable (PGROUNDUP newsz) (u64 npages) true
  return newsz

/-- The loop of `uvmalloc` from the page `a`; `oldsz` is already rounded up. -/
def uvmallocLoop (id : Fin NCPU) (pagetable oldsz newsz xperm : Nat) (a : Nat) : KM Nat :=
  if a < newsz then do
    let mem ← kalloc id
    if mem = 0 then
      discard <| uvmdealloc id pagetable a oldsz
      return 0
    modify fun s => { s with mem := memset s.mem mem 0 PGSIZE }
    if (← mappages id pagetable a PGSIZE mem (PTE_R ||| PTE_U ||| xperm)) ≠ 0 then
      kfree id mem
      discard <| uvmdealloc id pagetable a oldsz
      return 0
    uvmallocLoop id pagetable oldsz newsz xperm (a + PGSIZE)
  else return newsz
termination_by newsz - a
decreasing_by
  have : 0 < PGSIZE := by decide
  omega

/-- `uvmalloc(pagetable, oldsz, newsz, xperm)`: the new size, or 0. -/
def uvmalloc (id : Fin NCPU) (pagetable oldsz newsz xperm : Nat) : KM Nat := do
  if newsz < oldsz then return oldsz
  uvmallocLoop id pagetable (PGROUNDUP oldsz) newsz xperm (PGROUNDUP oldsz)

/-- The loop of `freewalk` over the entries `is` of `pagetable`; `sub` frees a
page-table page one level down. -/
def freewalkEntries (sub : Nat → KM Unit) (pagetable : Nat) : List Nat → KM Unit
  | [] => pure ()
  | i :: is => do
    let e := read64 (← get).mem (pagetable + 8 * i)
    if hasFlag e PTE_V && e &&& (PTE_R ||| PTE_W ||| PTE_X) == 0 then
      sub (PTE2PA e)
      modify fun s => { s with mem := write64 s.mem (pagetable + 8 * i) 0 }
    freewalkEntries sub pagetable is

/-- The deepest nesting of calls a kernel stack holds: `KSTACK` maps one page, with an unmapped
guard page below it, and a RISC-V call frame takes at least 16 bytes. -/
def KSTACKDEPTH : Nat := PGSIZE / 16

/-- `freewalk(pagetable)` with at most `depth` nested calls left. It follows every valid entry
with none of `PTE_R`, `PTE_W`, `PTE_X`, at every level, leaves included. A call nested deeper
than the stack holds faults on the guard page, and `kerneltrap` panics. -/
def freewalk (id : Fin NCPU) : Nat → Nat → KM Unit
  | 0, _ => throw "kerneltrap"
  | depth + 1, pagetable => do
    freewalkEntries (freewalk id depth) pagetable (List.range 512)
    kfree id pagetable

/-- `uvmfree(pagetable, sz)`. -/
def uvmfree (id : Fin NCPU) (pagetable sz : Nat) : KM Unit := do
  if sz > 0 then uvmunmap id pagetable 0 (PGROUNDUP sz / PGSIZE) true
  freewalk id KSTACKDEPTH pagetable

/-- `proc_freepagetable(pagetable, sz)`. -/
def procFreepagetable (id : Fin NCPU) (pagetable sz : Nat) : KM Unit := do
  uvmunmap id pagetable TRAMPOLINE 1 false
  uvmunmap id pagetable TRAPFRAME 1 false
  uvmfree id pagetable sz

/-- The body of `uvmcopy`'s loop at the page `i`: a writable page is shared copy-on-write,
any other valid page is shared as it is. `false` when `mappages` failed, after the
cleanup at `err`. -/
def uvmcopyPage (id : Fin NCPU) (old new i : Nat) : KM Bool := do
  let pte ← walk id old i false
  if pte = 0 then return true
  let e := read64 (← get).mem pte
  if !hasFlag e PTE_V then return true
  let pa := PTE2PA e
  let flags := PTE_FLAGS e
  let flags := if hasFlag flags PTE_W then flags &&& bnot64 PTE_W ||| PTE_COW else flags
  if (← mappages id new i PGSIZE pa flags) ≠ 0 then
    uvmunmap id new 0 (i / PGSIZE) true
    return false
  if (← incPageRef pa) = -1 then throw "uvmcopy: failed to increase page reference count"
  if hasFlag flags PTE_COW then
    modify fun s => { s with
      mem := write64 s.mem pte (read64 s.mem pte &&& bnot64 PTE_W ||| PTE_COW) }
  return true

/-- The loop of `uvmcopy` from the page `i`, with `k` pages left below `sz`. -/
def uvmcopyLoop (id : Fin NCPU) (old new : Nat) : Nat → Nat → KM Int
  | _, 0 => return 0
  | i, k + 1 => do
    if ← uvmcopyPage id old new i then uvmcopyLoop id old new (i + PGSIZE) k
    else return -1

/-- `uvmcopy(old, new, sz)`: the loop visits the pages below `sz`. -/
def uvmcopy (id : Fin NCPU) (old new sz : Nat) : KM Int :=
  uvmcopyLoop id old new 0 ((sz + PGSIZE - 1) / PGSIZE)

/-- What the fault handlers read of the running process (`myproc()`): its page table, its
size and its trapframe page. -/
structure UProc where
  pagetable : Nat
  sz : Nat
  trapframe : Nat
  deriving DecidableEq, Repr

/-- `p->trapframe->sp`, the saved user stack pointer: offset 48 of the trapframe. -/
def UProc.sp (p : UProc) (m : Memory) : Nat := read64 m (p.trapframe + 48)

/-- `lazyalloc_pagefault_handler(p, va)`. -/
def lazyallocPagefaultHandler (id : Fin NCPU) (p : UProc) (va : Nat) : KM Int := do
  if va ≥ p.sz ∨ va < PGROUNDDOWN (p.sp (← get).mem) then return -1
  let mem ← kalloc id
  if mem = 0 then return -1
  modify fun s => { s with mem := memset s.mem mem 0 PGSIZE }
  if (← mappages id p.pagetable (PGROUNDDOWN va) PGSIZE mem (PTE_U ||| PTE_W ||| PTE_R)) ≠ 0 then
    return -1
  return 0

/-- `cow_pagefault_handler(pagetable, va)`: `-2` when no page is mapped, `1` when the page
is not copy-on-write, `0` when the page is now private and writable. -/
def cowPagefaultHandler (id : Fin NCPU) (pagetable va : Nat) : KM Int := do
  let pte ← walk id pagetable va false
  if pte = 0 then return -1
  let e := read64 (← get).mem pte
  let pa := PTE2PA e
  let flags := PTE_FLAGS e
  if pa = 0 then return -2
  if !hasFlag e PTE_COW then return 1
  if (← getPageRef pa) > 1 then
    let mem ← kalloc id
    if mem = 0 then return -1
    modify fun s => { s with mem := memmove s.mem mem pa PGSIZE }
    uvmunmap id pagetable (PGROUNDDOWN va) 1 true
    if (← mappages id pagetable (PGROUNDDOWN va) PGSIZE mem
        (flags &&& bnot64 PTE_COW ||| PTE_W)) ≠ 0 then
      kfree id mem
      return -1
    return 0
  modify fun s => { s with
    mem := write64 s.mem pte (read64 s.mem pte &&& bnot64 PTE_COW ||| PTE_W) }
  return 0

/-- `usertrap`'s load (`store = false`, `scause` 13) and store (`scause` 15) page-fault
branches at the faulting address `va`: whether the process goes on running, rather than
being killed or exiting. -/
def usertrapPagefault (id : Fin NCPU) (p : UProc) (store : Bool) (va : Nat) : KM Bool := do
  if va ≥ MAXVA then return false
  let pte ← walk id p.pagetable va false
  let unmapped := pte = 0 ∨ !hasFlag (read64 (← get).mem pte) PTE_V
  if !store then
    if unmapped then return (← lazyallocPagefaultHandler id p va) = 0
    return false
  if unmapped then
    if (← lazyallocPagefaultHandler id p va) ≠ 0 then return false
    -- `is_handled`: the copy-on-write handler still runs, but cannot kill
    discard <| cowPagefaultHandler id p.pagetable va
    return true
  return (← cowPagefaultHandler id p.pagetable va) = 0

/-- The start of each pass of `copyout`'s loop: break copy-on-write sharing of the page at
`va0`, or allocate it if it was never touched; `false` when `copyout` fails. -/
def copyoutPrepare (id : Fin NCPU) (p : UProc) (pagetable va0 : Nat) : KM Bool := do
  let st ← cowPagefaultHandler id pagetable va0
  if st < 0 then
    if st = -2 then return (← lazyallocPagefaultHandler id p va0) = 0
    return false
  return true

/-- `copyout(pagetable, dstva, src, len)` run by `p`: `src` is a kernel address. -/
def copyout (id : Fin NCPU) (p : UProc) (pagetable dstva src len : Nat) : KM Int :=
  if len = 0 then return 0
  else do
    let va0 := PGROUNDDOWN dstva
    if va0 ≥ MAXVA then return -1
    if !(← copyoutPrepare id p pagetable va0) then return -1
    let pa0 ← walkaddr id pagetable va0
    if pa0 = 0 then return -1
    let n := min (PGSIZE - (dstva - va0)) len
    modify fun s => { s with mem := memmove s.mem (pa0 + (dstva - va0)) src n }
    copyout id p pagetable (va0 + PGSIZE) (src + n) (len - n)
termination_by len
decreasing_by
  have h₁ := lt_PGROUNDDOWN_add dstva
  have h₂ := PGROUNDDOWN_le dstva
  omega

/-- `copyin`'s translation of `va0`: through `walkaddr`, or, when there is no user mapping,
again after a lazy allocation; `none` when the handler fails. -/
def copyinAddr (id : Fin NCPU) (p : UProc) (pagetable va0 : Nat) : KM (Option Nat) := do
  let pa0 ← walkaddr id pagetable va0
  if pa0 ≠ 0 then return some pa0
  if (← lazyallocPagefaultHandler id p va0) = -1 then return none
  return some (← walkaddr id pagetable va0)

/-- `copyin(pagetable, dst, srcva, len)` run by `p`: `dst` is a kernel address. -/
def copyin (id : Fin NCPU) (p : UProc) (pagetable dst srcva len : Nat) : KM Int :=
  if len = 0 then return 0
  else do
    let va0 := PGROUNDDOWN srcva
    match ← copyinAddr id p pagetable va0 with
    | none => return -1
    | some pa0 =>
      let n := min (PGSIZE - (srcva - va0)) len
      modify fun s => { s with mem := memmove s.mem dst (pa0 + (srcva - va0)) n }
      copyin id p pagetable (dst + n) (va0 + PGSIZE) (len - n)
termination_by len
decreasing_by
  have h₁ := lt_PGROUNDDOWN_add srcva
  have h₂ := PGROUNDDOWN_le srcva
  omega

/-- The inner loop of `copyinstr`: copy bytes from `src` to `dst` up to and including a
NUL, at most `n` of them; whether the NUL was reached. -/
def copyinstrCopy : Memory → Nat → Nat → Nat → Memory × Bool
  | m, _, _, 0 => (m, false)
  | m, src, dst, n + 1 =>
    if m src = 0 then (setByte m dst 0, true)
    else copyinstrCopy (setByte m dst (m src)) (src + 1) (dst + 1) n

/-- `copyinstr(pagetable, dst, srcva, max)`. A pass that finds no NUL copies all its `n`
bytes, so `dst` and `max` move on by `n`. -/
def copyinstr (id : Fin NCPU) (pagetable dst srcva max : Nat) : KM Int :=
  if hmax : max = 0 then return -1
  else do
    let va0 := PGROUNDDOWN srcva
    let pa0 ← walkaddr id pagetable va0
    if pa0 = 0 then return -1
    let n := min (PGSIZE - (srcva - va0)) max
    let r := copyinstrCopy (← get).mem (pa0 + (srcva - va0)) dst n
    modify fun s => { s with mem := r.1 }
    if r.2 then return 0
    copyinstr id pagetable (dst + n) (va0 + PGSIZE) (max - n)
termination_by max
decreasing_by
  have h₁ := lt_PGROUNDDOWN_add srcva
  have h₂ := PGROUNDDOWN_le srcva
  omega

/-- `sys_sbrk()` with the argument `n` run by `p`: the old size, and `p` with its new size.
`-n` and `addr + n` are computed as C computes them, in `int` and in `uint64`. -/
def sysSbrk (id : Fin NCPU) (p : UProc) (n : Int32) : KM (UProc × Nat) := do
  let addr := p.sz
  if n < 0 ∧ u64 (-n).toInt ≤ addr then
    discard <| uvmdealloc id p.pagetable addr ((addr + u64 n.toInt) % 2 ^ 64)
  if (n ≥ 0 ∧ (addr + u64 n.toInt) % 2 ^ 64 ≥ addr) ∨ (n < 0 ∧ u64 (-n).toInt ≤ addr) then
    return ({ p with sz := (addr + u64 n.toInt) % 2 ^ 64 }, addr)
  return (p, addr)

end Xv6
