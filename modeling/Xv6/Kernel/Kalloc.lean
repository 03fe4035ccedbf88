import Mathlib.Data.List.FinRange
import Xv6.Lib.Chain
import Xv6.Lib.StateExcept
import Xv6.Kernel.Param
import Xv6.Kernel.String
/-! The physical page allocator of `kernel/kalloc.c`: one free list per CPU, threaded
through the first word of each free page, and a reference count per page. A kernel
`panic` is an `Except` error carrying its message; a dereference of a null pointer
traps in the kernel and is the error `"kerneltrap"`. Each call runs atomically, on
the CPU whose id it is given (the value of `safe_cpuid()`). -/
namespace Xv6
open ByteMem StateExcept

/-- Pages a CPU borrows from another when its own list is empty. -/
def NPGTOMOVE : Int := 10

/-- `kmems[id]`: the head of one CPU's free list (`0` is null) and its counted size. -/
structure Kmem where
  freelist : Nat
  size : Int
  deriving DecidableEq, Repr

/-- Physical memory, the allocator's globals, and the address `end` that `kernel.ld`
places after the kernel image. -/
structure KState where
  mem : Memory
  kmems : Fin NCPU → Kmem
  pageRefCount : Nat → Int
  isInitializing : Bool
  kend : Nat

/-- Kernel code: a state transformer that may panic. -/
abbrev KM := StateT KState (Except String)

/-- `PA2INDEX(pa)`: the index of `pa`'s reference count. -/
def PA2INDEX (kend pa : Nat) : Nat := (pa - PGROUNDUP kend) / PGSIZE

/-- `is_pa_valid(uint pa)`: `-1` outside `[end, PHYSTOP]`. -/
def isPaValid (kend pa : Nat) : Int :=
  if pa < kend ∨ pa > PHYSTOP then -1 else 0

/-- The successor of a free page: the `next` field of its `struct run`. -/
def KState.next (s : KState) (p : Nat) : Nat := read64 s.mem p

/-- The reference count of the page at `pa`. -/
def KState.refCount (s : KState) (pa : Nat) : Int := s.pageRefCount (PA2INDEX s.kend pa)

def getPageRef (pa : Nat) : KM Int := do
  let s ← get
  if isPaValid s.kend (pa % 2 ^ 32) = -1 then return -1
  return s.refCount pa

/-- `__sync_fetch_and_add(&page_ref_count[PA2INDEX(pa)], d)`: returns the old count. -/
def addPageRef (pa : Nat) (d : Int) : KM Int := do
  let s ← get
  if isPaValid s.kend (pa % 2 ^ 32) = -1 then return -1
  let i := PA2INDEX s.kend pa
  set { s with pageRefCount := Function.update s.pageRefCount i (s.pageRefCount i + d) }
  return s.pageRefCount i

def incPageRef (pa : Nat) : KM Int := addPageRef pa 1

def decPageRef (pa : Nat) : KM Int := addPageRef pa (-1)

/-- The pointer walk of `move_freelist`: `prev = current; current = current->next;`
repeated `k` times. -/
def moveLoop (mem : Memory) : Nat → Nat → Nat → Except String (Nat × Nat)
  | prev, current, 0 => pure (prev, current)
  | _, current, k + 1 =>
    if current = 0 then throw "kerneltrap" else moveLoop mem current (read64 mem current) k

/-- `move_freelist(dst, src)`: detach the first `MIN(size, NPGTOMOVE)` pages of `src`'s
list and make them `dst`'s list. -/
def moveFreelist (dst src : Fin NCPU) : KM Int := do
  let s ← get
  let pagesToMove : Int :=
    if (s.kmems src).size < NPGTOMOVE then (s.kmems src).size else NPGTOMOVE
  let (prev, current) ← moveLoop s.mem 0 (s.kmems src).freelist pagesToMove.toNat
  if prev = 0 ∨ current = 0 then return -1
  let k₁ := Function.update s.kmems dst { s.kmems dst with freelist := (s.kmems src).freelist }
  let k₂ := Function.update k₁ src { k₁ src with freelist := current }
  let k₃ := Function.update k₂ dst { k₂ dst with size := (k₂ dst).size + pagesToMove }
  let k₄ := Function.update k₃ src { k₃ src with size := (k₃ src).size - pagesToMove }
  set { s with mem := write64 s.mem prev 0, kmems := k₄ }
  return 0

/-- `kfree(pa)`: drop one reference; push the page on this CPU's list when it was the
last one, or unconditionally while `kinit` is running. -/
def kfree (id : Fin NCPU) (pa : Nat) : KM Unit := do
  let s ← get
  if pa % PGSIZE ≠ 0 ∨ pa < s.kend ∨ pa ≥ PHYSTOP then throw "kfree"
  if !s.isInitializing then
    if (← decPageRef pa) > 1 then return
  modify fun s => { s with mem := memset s.mem pa 1 PGSIZE }
  modify fun s => { s with
    mem := write64 s.mem pa (s.kmems id).freelist
    kmems := Function.update s.kmems id ⟨pa, (s.kmems id).size + 1⟩ }

/-- The loop of `kalloc` that borrows pages from the other CPUs, over the ids left. -/
def stealFrom (id : Fin NCPU) : List (Fin NCPU) → KM Unit
  | [] => pure ()
  | i :: rest => do
    if i ≠ id ∧ ((← get).kmems i).freelist ≠ 0 then
      if (← moveFreelist id i) = 0 then return
    stealFrom id rest

/-- The second half of `kalloc`: pop the head `r` of this CPU's list, if there is one,
fill it with junk and count its first reference. -/
def kallocPop (id : Fin NCPU) : KM Nat := do
  let s ← get
  let r := (s.kmems id).freelist
  if r ≠ 0 then
    set { s with kmems := Function.update s.kmems id ⟨s.next r, (s.kmems id).size - 1⟩ }
    modify fun s => { s with mem := memset s.mem r 5 PGSIZE }
    discard <| incPageRef r
  return r

/-- `kalloc()`: borrow pages first if this CPU's list is empty. Returns `0` when no page
is found. -/
def kalloc (id : Fin NCPU) : KM Nat := do
  if ((← get).kmems id).size = 0 then
    stealFrom id (List.finRange NCPU)
  kallocPop id

/-- `freerange(p, pa_end)` from the first page boundary: `kfree` every whole page. -/
def freerange (id : Fin NCPU) (p paEnd : Nat) : KM Unit :=
  if _hp : p + PGSIZE ≤ paEnd then do
    kfree id p
    freerange id (p + PGSIZE) paEnd
  else pure ()
termination_by paEnd - p
decreasing_by
  have : 0 < PGSIZE := by decide
  omega

/-- `kinit()` on the booting CPU 0: free all memory after the kernel, then clear every
reference count. -/
def kinit : KM Unit := do
  freerange 0 (PGROUNDUP (← get).kend) PHYSTOP
  modify fun s => { s with pageRefCount := fun _ => 0, isInitializing := false }

/-- The allocator's state at boot: every list empty, `is_initializing` set. -/
def bootState (mem : Memory) (refs : Nat → Int) (kend : Nat) : KState :=
  { mem := mem, kmems := fun _ => ⟨0, 0⟩, pageRefCount := refs, isInitializing := true,
    kend := kend }

/-- The reference count of `pa` moved by `d`. -/
def KState.addRef (s : KState) (pa : Nat) (d : Int) : KState :=
  { s with pageRefCount :=
      Function.update s.pageRefCount (PA2INDEX s.kend pa) (s.refCount pa + d) }

/-- `pa` filled with junk and pushed on CPU `id`'s list. -/
def KState.pushFree (s : KState) (id : Fin NCPU) (pa : Nat) : KState :=
  { s with
    mem := write64 (fill s.mem pa PGSIZE (UInt8.ofInt 1)) pa (s.kmems id).freelist
    kmems := Function.update s.kmems id ⟨pa, (s.kmems id).size + 1⟩ }

/-- The head of CPU `id`'s list popped and filled with junk. -/
def KState.popFree (s : KState) (id : Fin NCPU) : KState :=
  { s with
    kmems := Function.update s.kmems id ⟨s.next (s.kmems id).freelist, (s.kmems id).size - 1⟩
    mem := fill s.mem (s.kmems id).freelist PGSIZE (UInt8.ofInt 5) }

/-- The first ten pages of `src`'s list `L` detached and handed to `dst`. -/
def KState.moveTen (s : KState) (dst src : Fin NCPU) (L : List Nat) : KState :=
  { s with
    mem := write64 s.mem (L.getD 9 0) 0
    kmems := Function.update (Function.update s.kmems dst
      ⟨(s.kmems src).freelist, (s.kmems dst).size + NPGTOMOVE⟩) src
      ⟨L.getD 10 0, (s.kmems src).size - NPGTOMOVE⟩ }

section Fields

variable (s : KState) (id dst src : Fin NCPU) (pa : Nat) (d : Int) (L : List Nat)

@[simp] theorem KState.pushFree_kmems :
    (s.pushFree id pa).kmems = Function.update s.kmems id ⟨pa, (s.kmems id).size + 1⟩ := rfl
@[simp] theorem KState.pushFree_pageRefCount :
    (s.pushFree id pa).pageRefCount = s.pageRefCount := rfl
@[simp] theorem KState.pushFree_kend : (s.pushFree id pa).kend = s.kend := rfl
@[simp] theorem KState.pushFree_isInitializing :
    (s.pushFree id pa).isInitializing = s.isInitializing := rfl

@[simp] theorem KState.popFree_kmems :
    (s.popFree id).kmems =
      Function.update s.kmems id ⟨s.next (s.kmems id).freelist, (s.kmems id).size - 1⟩ := rfl
@[simp] theorem KState.popFree_pageRefCount : (s.popFree id).pageRefCount = s.pageRefCount := rfl
@[simp] theorem KState.popFree_kend : (s.popFree id).kend = s.kend := rfl
@[simp] theorem KState.popFree_isInitializing :
    (s.popFree id).isInitializing = s.isInitializing := rfl

@[simp] theorem KState.moveTen_pageRefCount :
    (s.moveTen dst src L).pageRefCount = s.pageRefCount := rfl
@[simp] theorem KState.moveTen_kend : (s.moveTen dst src L).kend = s.kend := rfl
@[simp] theorem KState.moveTen_kmems :
    (s.moveTen dst src L).kmems = Function.update (Function.update s.kmems dst
      ⟨(s.kmems src).freelist, (s.kmems dst).size + NPGTOMOVE⟩) src
      ⟨L.getD 10 0, (s.kmems src).size - NPGTOMOVE⟩ := rfl

@[simp] theorem KState.addRef_kend : (s.addRef pa d).kend = s.kend := rfl
@[simp] theorem KState.addRef_isInitializing :
    (s.addRef pa d).isInitializing = s.isInitializing := rfl

@[simp] theorem KState.refCount_of_pageRefCount {s t : KState} (h1 : t.pageRefCount = s.pageRefCount)
    (h2 : t.kend = s.kend) (pa : Nat) : t.refCount pa = s.refCount pa := by
  simp only [KState.refCount, h1, h2]

end Fields

@[simp] theorem bootState_kend (mem : Memory) (refs : Nat → Int) (kend : Nat) :
    (bootState mem refs kend).kend = kend := rfl
@[simp] theorem bootState_isInitializing (mem : Memory) (refs : Nat → Int) (kend : Nat) :
    (bootState mem refs kend).isInitializing = true := rfl

/-! ### Specification lemmas

One lemma per function: callers rewrite with it and never unfold the function. -/

/-- `is_pa_valid` takes a `uint`: an address in `[end, PHYSTOP)` fits, since
`PHYSTOP < 2 ^ 32`, and is valid. -/
theorem isPaValid_ne {kend pa : Nat} (h1 : kend ≤ pa) (h2 : pa < PHYSTOP) :
    isPaValid kend (pa % 2 ^ 32) ≠ -1 := by
  have : pa % 2 ^ 32 = pa := Nat.mod_eq_of_lt (by unfold PHYSTOP KERNBASE at h2; omega)
  rw [this, isPaValid, if_neg (by omega)]
  decide

/-- Inside `[end, PHYSTOP)` the reference count is there to be changed. -/
theorem addPageRef_run {s : KState} {pa : Nat} (d : Int) (h1 : s.kend ≤ pa) (h2 : pa < PHYSTOP) :
    (addPageRef pa d).run s = .ok (s.refCount pa, s.addRef pa d) := by
  simp only [addPageRef, StateT.run_bind, StateT.run_get, pure_bind, run_ite,
    if_neg (isPaValid_ne h1 h2)]
  rfl

theorem kfree_run (s : KState) (id : Fin NCPU) (pa : Nat) :
    (kfree id pa).run s =
      if pa % PGSIZE ≠ 0 ∨ pa < s.kend ∨ PHYSTOP ≤ pa then .error "kfree"
      else if s.isInitializing then .ok ((), s.pushFree id pa)
      else if 1 < s.refCount pa then .ok ((), s.addRef pa (-1))
      else .ok ((), (s.addRef pa (-1)).pushFree id pa) := by
  -- `memset` is read as the `fill` it computes before anything else: the kernel would
  -- otherwise run its byte loop to compare the states
  simp only [kfree, memset_eq_fill, StateT.run_bind, StateT.run_get, pure_bind, run_ite]
  by_cases hbad : pa % PGSIZE ≠ 0 ∨ pa < s.kend ∨ PHYSTOP ≤ pa
  · simp only [if_pos hbad, ge_iff_le, run_throw, error_bind]
  · have h1 : s.kend ≤ pa := by omega
    have h2 : pa < PHYSTOP := by omega
    simp only [ge_iff_le, if_neg hbad]
    cases hi : s.isInitializing
    · -- running: the count is dropped first, and the page is freed only from one or less
      simp only [Bool.not_false, if_true, Bool.false_eq_true, if_false, decPageRef,
        addPageRef_run (-1) h1 h2, ok_bind]
      by_cases hr : 1 < s.refCount pa
      · simp only [gt_iff_lt, if_pos hr]; rfl
      · simp only [gt_iff_lt, if_neg hr, StateT.run_modify, pure_bind]; rfl
    · simp only [Bool.not_true, Bool.false_eq_true, if_false, if_true, StateT.run_modify,
        pure_bind]
      rfl

/-- Along a whole list the walk of `move_freelist` stands, after `k` steps, on the `k`-th
node with the one before it in `prev`. -/
theorem moveLoop_eq {mem : Memory} {a : Nat} {L : List Nat}
    (h : Chain.Seg (read64 mem) 0 a L 0) (prev : Nat) {k : Nat} (hk : k ≤ L.length) :
    moveLoop mem prev a k = .ok ((prev :: L).getD k 0, (L.drop k).headD 0) := by
  induction k generalizing prev a L with
  | zero =>
    cases h with
    | nil => rfl
    | cons _ _ => rfl
  | succ k ih =>
    cases L with
    | nil => simp at hk
    | cons q L =>
      obtain ⟨rfl, hq, h'⟩ := h.cons_inv
      simp only [moveLoop, if_neg hq]
      rw [ih h' a (by simp at hk; omega)]
      rfl

/-- When `src`'s size is the length of its list, `move_freelist` fails without a change on
a list of ten pages or fewer, and otherwise moves ten. -/
theorem moveFreelist_run {s : KState} {dst src : Fin NCPU} {L : List Nat} (hne : dst ≠ src)
    (hL : Chain.Seg s.next 0 (s.kmems src).freelist L 0) (hsize : (s.kmems src).size = L.length)
    (hpos : L ≠ []) :
    (moveFreelist dst src).run s =
      if L.length ≤ 10 then .ok (-1, s) else .ok (0, s.moveTen dst src L) := by
  have hlen : 0 < L.length := List.length_pos_iff.mpr hpos
  have hk : (if (s.kmems src).size < NPGTOMOVE then (s.kmems src).size else NPGTOMOVE).toNat
      = min L.length 10 := by
    rw [hsize]; unfold NPGTOMOVE; split_ifs <;> omega
  simp only [moveFreelist, StateT.run_bind, StateT.run_get, pure_bind]
  rw [hk, moveLoop_eq hL 0 (Nat.min_le_left _ _)]
  have hlift : ∀ (x : Except String (Nat × Nat)),
      (liftM x : StateT KState (Except String) (Nat × Nat)).run s = x >>= fun a => .ok (a, s) :=
    fun x => rfl
  simp only [hlift, ok_bind, run_ite]
  by_cases hs : L.length ≤ 10
  · -- the walk runs off the end of the list: `current` is null
    have hd : (L.drop (min L.length 10)).headD 0 = 0 := by
      rw [Nat.min_eq_left hs, List.drop_length]; rfl
    simp only [hd, or_true, if_true, if_pos hs]
    rfl
  · have hm : min L.length 10 = 10 := by omega
    have hmem9 : L.getD 9 0 ∈ L := by
      rw [List.getD_eq_getElem?_getD, List.getElem?_eq_getElem (by omega)]
      exact List.getElem_mem _
    have hmem10 : L.getD 10 0 ∈ L := by
      rw [List.getD_eq_getElem?_getD, List.getElem?_eq_getElem (by omega)]
      exact List.getElem_mem _
    have hprev : (0 :: L).getD 10 0 = L.getD 9 0 := rfl
    have hcur : (L.drop 10).headD 0 = L.getD 10 0 := by
      rw [List.headD_eq_head?_getD, List.head?_drop, List.getD_eq_getElem?_getD]
    simp only [hm, hprev, hcur, if_neg hs, hL.ne_null hmem9, hL.ne_null hmem10, or_self,
      if_false, StateT.run_bind, StateT.run_set, pure_bind, StateT.run_pure]
    have hptm : (if (s.kmems src).size < NPGTOMOVE then (s.kmems src).size else NPGTOMOVE)
        = NPGTOMOVE := by
      rw [hsize]; unfold NPGTOMOVE; split_ifs <;> omega
    simp only [hptm, Function.update_self, Function.update_of_ne hne,
      Function.update_of_ne hne.symm]
    rw [Function.update_comm hne _ _ s.kmems, Function.update_idem,
      Function.update_comm hne.symm, Function.update_idem]
    rfl

theorem stealFrom_cons_run (s : KState) (id i : Fin NCPU) (rest : List (Fin NCPU)) :
    (stealFrom id (i :: rest)).run s =
      if i ≠ id ∧ (s.kmems i).freelist ≠ 0 then
        match (moveFreelist id i).run s with
        | .error e => .error e
        | .ok (r, s') => if r = 0 then .ok ((), s') else (stealFrom id rest).run s'
      else (stealFrom id rest).run s := by
  simp only [stealFrom, StateT.run_bind, StateT.run_get, pure_bind, run_ite]
  split_ifs with h
  · cases hm : (moveFreelist id i).run s with
    | error e => simp
    | ok p =>
      obtain ⟨r, s'⟩ := p
      simp only [ok_bind]
      split_ifs <;> rfl
  · rfl

theorem kallocPop_run {s : KState} {id : Fin NCPU}
    (hr : (s.kmems id).freelist ≠ 0 →
      s.kend ≤ (s.kmems id).freelist ∧ (s.kmems id).freelist < PHYSTOP) :
    (kallocPop id).run s =
      if (s.kmems id).freelist = 0 then .ok (0, s)
      else .ok ((s.kmems id).freelist, (s.popFree id).addRef (s.kmems id).freelist 1) := by
  simp only [kallocPop, memset_eq_fill, StateT.run_bind, StateT.run_get, pure_bind, run_ite]
  by_cases h0 : (s.kmems id).freelist = 0
  · rw [if_neg (not_not.mpr h0), if_pos h0, StateT.run_pure, h0]
    rfl
  · obtain ⟨h1, h2⟩ := hr h0
    rw [if_pos h0, if_neg h0]
    have hinc := @addPageRef_run (s.popFree id) _ 1 ((KState.popFree_kend s id).symm ▸ h1) h2
    simp only [KState.popFree] at hinc
    simp only [StateT.run_set, StateT.run_modify, pure_bind, incPageRef, run_discard, hinc,
      ok_bind, StateT.run_pure]
    rfl

/-- `kalloc` pops from whatever state the borrowing left. -/
theorem kalloc_run {s s₁ : KState} {id : Fin NCPU}
    (hsteal : (if (s.kmems id).size = 0 then stealFrom id (List.finRange NCPU)
      else pure ()).run s = .ok ((), s₁)) :
    (kalloc id).run s = (kallocPop id).run s₁ := by
  simp only [kalloc, StateT.run_bind, StateT.run_get, pure_bind, run_ite]
  by_cases hz : (s.kmems id).size = 0
  · rw [if_pos hz] at hsteal ⊢
    simp only [hsteal, ok_bind]
  · rw [if_neg hz] at hsteal ⊢
    cases hsteal
    rfl

/-- A CPU with pages of its own pops the head of its list. -/
theorem kalloc_run_head {s : KState} {id : Fin NCPU} (hsz : (s.kmems id).size ≠ 0)
    (h0 : (s.kmems id).freelist ≠ 0) (h1 : s.kend ≤ (s.kmems id).freelist)
    (h2 : (s.kmems id).freelist < PHYSTOP) :
    (kalloc id).run s =
      .ok ((s.kmems id).freelist, (s.popFree id).addRef (s.kmems id).freelist 1) := by
  have hsteal : (if (s.kmems id).size = 0 then stealFrom id (List.finRange NCPU)
      else pure ()).run s = .ok ((), s) := by
    rw [if_neg hsz]
    rfl
  rw [kalloc_run hsteal, kallocPop_run (fun _ => ⟨h1, h2⟩), if_neg h0]

/-- With every list empty there is nothing to borrow. -/
theorem stealFrom_run_empty {s : KState} {id : Fin NCPU} (h : ∀ i, (s.kmems i).freelist = 0) :
    ∀ ids, (stealFrom id ids).run s = .ok ((), s)
  | [] => rfl
  | i :: rest => by
    rw [stealFrom_cons_run, if_neg (fun hc => hc.2 (h i))]
    exact stealFrom_run_empty h rest

/-- With every list empty `kalloc` returns 0 and changes nothing. -/
theorem kalloc_run_empty {s : KState} {id : Fin NCPU} (h : ∀ i, (s.kmems i).freelist = 0) :
    (kalloc id).run s = .ok (0, s) := by
  have hsteal : (if (s.kmems id).size = 0 then stealFrom id (List.finRange NCPU)
      else pure ()).run s = .ok ((), s) := by
    split_ifs
    · exact stealFrom_run_empty h _
    · rfl
  rw [kalloc_run hsteal, kallocPop_run (fun h0 => absurd (h id) h0), if_pos (h id)]

/-- The `k` pages from `p` on freed in turn onto CPU `id`'s list, as `kinit` frees them. -/
def KState.pushRange (s : KState) (id : Fin NCPU) (p : Nat) : Nat → KState
  | 0 => s
  | k + 1 => (s.pushFree id p).pushRange id (p + PGSIZE) k

/-- While the kernel is initializing, `freerange` over `k` whole pages pushes each of them. -/
theorem freerange_run_pushRange {id : Fin NCPU} {paEnd : Nat} (hend : paEnd ≤ PHYSTOP) (k : Nat) :
    ∀ {s : KState} {p : Nat}, s.isInitializing = true → p % PGSIZE = 0 → s.kend ≤ p →
      p + k * PGSIZE = paEnd → (freerange id p paEnd).run s = .ok ((), s.pushRange id p k) := by
  have hpg : 0 < PGSIZE := by decide
  induction k with
  | zero =>
    intro s p _ _ _ hp
    rw [freerange, dif_neg (by omega)]
    rfl
  | succ k ih =>
    intro s p hi ha hk hp
    rw [Nat.succ_mul] at hp
    have hfree : (kfree id p).run s = .ok ((), s.pushFree id p) := by
      rw [kfree_run, if_neg (by omega), if_pos hi]
    have hnext := @ih (s.pushFree id p) (p + PGSIZE)
      (by rw [KState.pushFree_isInitializing]; exact hi) (by rw [Nat.add_mod_right]; exact ha)
      (by rw [KState.pushFree_kend]; omega) (by omega)
    rw [freerange, dif_pos (by omega), run_bind_of_ok hfree, hnext]
    rfl

end Xv6

