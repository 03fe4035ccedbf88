import Xv6.Kernel.Vm

/-! What the page-table code computes. A walk that does not allocate is a pure reading of
memory (`walkPte`), and a user access goes through `translate`; the lemmas below say, one
function at a time, how each call of `vm.c` and `trap.c` changes the kernel state, so that
longer runs are taken apart without unfolding the functions again. -/
namespace Xv6
open ByteMem StateExcept

/-- The level-0 PTE address a walk reaches without allocating, or 0. -/
def walkPte (m : Memory) (pagetable va : Nat) : Nat :=
  if hasFlag (read64 m (pteAddr pagetable 2 va)) PTE_V then
    if hasFlag (read64 m (pteAddr (PTE2PA (read64 m (pteAddr pagetable 2 va))) 1 va)) PTE_V then
      pteAddr (PTE2PA (read64 m (pteAddr (PTE2PA (read64 m (pteAddr pagetable 2 va))) 1 va))) 0 va
    else 0
  else 0

/-- The physical page that a user access to `va` reaches: a valid leaf with `PTE_U`. -/
def translate (m : Memory) (pagetable va : Nat) : Option Nat :=
  if MAXVA ≤ va ∨ walkPte m pagetable va = 0 then none
  else if hasFlag (read64 m (walkPte m pagetable va)) PTE_V &&
      hasFlag (read64 m (walkPte m pagetable va)) PTE_U then
    some (PTE2PA (read64 m (walkPte m pagetable va)))
  else none

/-- The byte a user load from `va` reads. -/
def userByte (m : Memory) (pagetable va : Nat) : Option UInt8 :=
  (translate m pagetable (PGROUNDDOWN va)).map fun pa => m (pa + (va - PGROUNDDOWN va))

section Spec

variable {id : Fin NCPU} {s s₁ : KState} {pagetable va : Nat}

theorem walkLevel_run_valid {alloc : Bool} {level : Nat}
    (h : hasFlag (read64 s.mem (pteAddr pagetable level va)) PTE_V) :
    (walkLevel id va alloc pagetable level).run s =
      .ok (some (PTE2PA (read64 s.mem (pteAddr pagetable level va))), s) := by
  simp only [walkLevel, StateT.run_bind, StateT.run_get, pure_bind, run_ite, if_pos h]
  rfl

theorem walkLevel_run_absent {level : Nat}
    (h : hasFlag (read64 s.mem (pteAddr pagetable level va)) PTE_V = false) :
    (walkLevel id va false pagetable level).run s = .ok (none, s) := by
  simp only [walkLevel, StateT.run_bind, StateT.run_get, pure_bind, run_ite, h,
    Bool.false_eq_true, if_false, Bool.not_false, if_true]
  rfl

/-- An absent level is made from a page of `kalloc`: zeroed, and linked in with `PTE_V`. -/
theorem walkLevel_run_alloc {level p : Nat}
    (h : hasFlag (read64 s.mem (pteAddr pagetable level va)) PTE_V = false)
    (hk : (kalloc id).run s = .ok (p, s₁)) :
    (walkLevel id va true pagetable level).run s =
      if p = 0 then .ok (none, s₁)
      else .ok (some p, { s₁ with
        mem := write64 (fill s₁.mem p PGSIZE (UInt8.ofInt 0)) (pteAddr pagetable level va)
          (PA2PTE p ||| PTE_V) }) := by
  simp only [walkLevel, memset_eq_fill, StateT.run_bind, StateT.run_get, pure_bind, run_ite, h,
    Bool.false_eq_true, if_false, Bool.not_true, hk, ok_bind]
  split_ifs <;> rfl

theorem walkLevel_run_new {level p : Nat}
    (h : hasFlag (read64 s.mem (pteAddr pagetable level va)) PTE_V = false)
    (hk : (kalloc id).run s = .ok (p, s₁)) (hp : p ≠ 0) :
    (walkLevel id va true pagetable level).run s =
      .ok (some p, { s₁ with
        mem := write64 (fill s₁.mem p PGSIZE (UInt8.ofInt 0)) (pteAddr pagetable level va)
          (PA2PTE p ||| PTE_V) }) := by
  rw [walkLevel_run_alloc h hk, if_neg hp]

theorem walk_run_of_ge {alloc : Bool} (h : MAXVA ≤ va) :
    (walk id pagetable va alloc).run s = .error "walk" := by
  simp only [walk, StateT.run_bind, if_pos h, run_throw, error_bind]

/-- Below `MAXVA` a walk that does not allocate reads the page table and changes nothing. -/
theorem walk_run_false (h : va < MAXVA) :
    (walk id pagetable va false).run s = .ok (walkPte s.mem pagetable va, s) := by
  simp only [walk, StateT.run_bind, if_neg (Nat.not_le.mpr h)]
  unfold walkPte
  by_cases h2 : hasFlag (read64 s.mem (pteAddr pagetable 2 va)) PTE_V
  · rw [walkLevel_run_valid h2, ok_bind, if_pos h2]
    by_cases h1 : hasFlag (read64 s.mem (pteAddr (PTE2PA (read64 s.mem
        (pteAddr pagetable 2 va))) 1 va)) PTE_V
    · simp only [StateT.run_bind, walkLevel_run_valid h1, ok_bind, if_pos h1]
      rfl
    · simp only [StateT.run_bind, walkLevel_run_absent (Bool.eq_false_iff.mpr h1), ok_bind,
        if_neg h1]
      rfl
  · simp only [walkLevel_run_absent (Bool.eq_false_iff.mpr h2), ok_bind, if_neg h2]
    rfl

/-- An absent top level that `kalloc` cannot supply: the walk returns 0 and changes nothing. -/
theorem walk_run_alloc_empty (h : va < MAXVA)
    (hv : hasFlag (read64 s.mem (pteAddr pagetable 2 va)) PTE_V = false)
    (hk : (kalloc id).run s = .ok (0, s)) :
    (walk id pagetable va true).run s = .ok (0, s) := by
  rw [walk, run_ite, if_neg (Nat.not_le.mpr h)]
  dsimp only
  rw [StateT.run_bind, walkLevel_run_alloc hv hk, if_pos rfl, ok_bind]
  rfl

/-- A walk is its two levels in turn. -/
theorem walk_run_of_levels {alloc : Bool} {p1 p0 : Nat} {s₂ : KState} (h : va < MAXVA)
    (h2 : (walkLevel id va alloc pagetable 2).run s = .ok (some p1, s₁))
    (h1 : (walkLevel id va alloc p1 1).run s₁ = .ok (some p0, s₂)) :
    (walk id pagetable va alloc).run s = .ok (pteAddr p0 0 va, s₂) := by
  rw [walk, run_ite, if_neg (Nat.not_le.mpr h)]
  dsimp only
  rw [run_bind_of_ok h2]
  dsimp only
  rw [run_bind_of_ok h1]
  rfl

/-- Where both levels exist, allocating or not makes no difference. -/
theorem walk_run_of_walkPte {alloc : Bool} (h : va < MAXVA) (hw : walkPte s.mem pagetable va ≠ 0) :
    (walk id pagetable va alloc).run s = .ok (walkPte s.mem pagetable va, s) := by
  unfold walkPte at hw ⊢
  by_cases h2 : hasFlag (read64 s.mem (pteAddr pagetable 2 va)) PTE_V
  · by_cases h1 : hasFlag (read64 s.mem (pteAddr (PTE2PA (read64 s.mem
        (pteAddr pagetable 2 va))) 1 va)) PTE_V
    · simp only [walk, StateT.run_bind, if_neg (Nat.not_le.mpr h), StateT.run_pure,
        ok_bind, walkLevel_run_valid h2, walkLevel_run_valid h1, if_pos h2, if_pos h1]
      rfl
    · rw [if_pos h2, if_neg h1] at hw
      exact absurd rfl hw
  · rw [if_neg h2] at hw
    exact absurd rfl hw

theorem walkaddr_run_of_ge (h : MAXVA ≤ va) : (walkaddr id pagetable va).run s = .ok (0, s) := by
  simp only [walkaddr, if_pos h]
  rfl

/-- `walkaddr` is `translate`, with 0 for no mapping. -/
theorem walkaddr_run : (walkaddr id pagetable va).run s =
    .ok ((translate s.mem pagetable va).getD 0, s) := by
  by_cases h : MAXVA ≤ va
  · rw [walkaddr_run_of_ge h, translate, if_pos (.inl h)]
    rfl
  · simp only [walkaddr, StateT.run_bind, run_ite, if_neg h, StateT.run_pure, ok_bind,
      walk_run_false (Nat.not_le.mp h), StateT.run_get, pure_bind]
    unfold translate
    by_cases h0 : walkPte s.mem pagetable va = 0
    · rw [if_pos h0, if_pos (.inr h0)]
      rfl
    · rw [if_neg h0, if_neg (not_or.mpr ⟨h, h0⟩)]
      cases hv : hasFlag (read64 s.mem (walkPte s.mem pagetable va)) PTE_V <;>
        cases hu : hasFlag (read64 s.mem (walkPte s.mem pagetable va)) PTE_U <;> rfl

theorem mappagesPage_run {a pa perm pte : Nat}
    (hw : (walk id pagetable a true).run s = .ok (pte, s₁)) :
    (mappagesPage id pagetable perm a pa).run s =
      if pte = 0 then .ok (false, s₁)
      else if hasFlag (read64 s₁.mem pte) PTE_V && !hasFlag (read64 s₁.mem pte) PTE_COW then
        .error "mappages: remap"
      else .ok (true, { s₁ with mem := write64 s₁.mem pte (PA2PTE pa ||| perm ||| PTE_V) }) := by
  simp only [mappagesPage, StateT.run_bind, hw, ok_bind, run_ite, StateT.run_get, pure_bind]
  split_ifs <;> rfl

/-- One aligned page is one pass of the loop. -/
theorem mappages_page {a pa perm : Nat} (ha : a % PGSIZE = 0) (hlt : a < MAXVA) :
    mappages id pagetable a PGSIZE pa perm = (do
      if ← mappagesPage id pagetable perm a pa then return 0
      return -1) := by
  have hdown : PGROUNDDOWN a = a := PGROUNDDOWN_of_mod ha
  have hlast : PGROUNDDOWN ((a + PGSIZE - 1) % 2 ^ 64) = a := by
    have hb : MAXVA + PGSIZE < 2 ^ 64 := by decide
    rw [Nat.mod_eq_of_lt (by omega)]
    unfold PGROUNDDOWN
    unfold PGSIZE at *
    omega
  have hcount : (a + 2 ^ 64 - a) % 2 ^ 64 / PGSIZE = 0 := by
    rw [Nat.add_sub_cancel_left, Nat.mod_self]
    rfl
  simp only [mappages, if_neg (show PGSIZE ≠ 0 by decide), hdown, hlast, hcount, mappagesLoop]

theorem mappagesLoop_run_of_ge {perm a pa : Nat} (h : MAXVA ≤ a) (n : Nat) :
    (mappagesLoop id pagetable perm a pa n).run s = .error "walk" := by
  cases n <;>
    simp only [mappagesLoop, mappagesPage, StateT.run_bind, walk_run_of_ge h, error_bind]

theorem mappages_run_of_ge {size pa perm : Nat} (hs : size ≠ 0) (h : MAXVA ≤ PGROUNDDOWN va) :
    (mappages id pagetable va size pa perm).run s = .error "walk" := by
  simp only [mappages, if_neg hs]
  exact mappagesLoop_run_of_ge h _

theorem lazyalloc_run_reject {p : UProc} (h : p.sz ≤ va ∨ va < PGROUNDDOWN (p.sp s.mem)) :
    (lazyallocPagefaultHandler id p va).run s = .ok (-1, s) := by
  -- `rw`, not `simp`: simp would also work its way into the branch not taken
  rw [lazyallocPagefaultHandler, StateT.run_bind, StateT.run_get, pure_bind, run_ite, if_pos h]
  rfl

/-- An accepted fault maps a fresh zeroed page; the handler fails if `mappages` does. -/
theorem lazyalloc_run {p : UProc} {mem : Nat} (h1 : va < p.sz)
    (h2 : PGROUNDDOWN (p.sp s.mem) ≤ va) (hk : (kalloc id).run s = .ok (mem, s₁)) :
    (lazyallocPagefaultHandler id p va).run s =
      if mem = 0 then .ok (-1, s₁)
      else (mappages id p.pagetable (PGROUNDDOWN va) PGSIZE mem (PTE_U ||| PTE_W ||| PTE_R)).run
          { s₁ with mem := fill s₁.mem mem PGSIZE (UInt8.ofInt 0) } >>=
        fun r => .ok (if r.1 ≠ 0 then -1 else 0, r.2) := by
  have hacc : ¬ (va ≥ p.sz ∨ va < PGROUNDDOWN (p.sp s.mem)) := by omega
  rw [lazyallocPagefaultHandler, StateT.run_bind, StateT.run_get, pure_bind, run_ite,
    if_neg hacc, StateT.run_bind, hk, ok_bind, run_ite]
  split_ifs
  · rfl
  · rw [StateT.run_bind, StateT.run_modify, pure_bind, memset_eq_fill, StateT.run_bind]
    cases (mappages id p.pagetable (PGROUNDDOWN va) PGSIZE mem
      (PTE_U ||| PTE_W ||| PTE_R)).run { s₁ with mem := fill s₁.mem mem PGSIZE (UInt8.ofInt 0) }
    · rfl
    · rw [ok_bind, ok_bind, run_ite]
      split_ifs <;> rfl

/-- The count `get_page_ref` reads: -1 for an address outside `[end, PHYSTOP]`. -/
theorem getPageRef_run (pa : Nat) :
    (getPageRef pa).run s =
      .ok (if isPaValid s.kend (pa % 2 ^ 32) = -1 then -1 else s.refCount pa, s) := by
  simp only [getPageRef, StateT.run_bind, StateT.run_get, pure_bind, run_ite]
  split_ifs <;> rfl

section Cow

variable (h : va < MAXVA)
include h

theorem cowPagefaultHandler_run_noPte (hw : walkPte s.mem pagetable va = 0) :
    (cowPagefaultHandler id pagetable va).run s = .ok (-1, s) := by
  rw [cowPagefaultHandler, StateT.run_bind, walk_run_false h, ok_bind]
  dsimp only
  rw [run_ite, if_pos hw]
  rfl

variable (hw : walkPte s.mem pagetable va ≠ 0)
include hw

/-- A PTE whose page address is 0: nothing was ever mapped there. -/
theorem cowPagefaultHandler_run_noPage
    (hpa : PTE2PA (read64 s.mem (walkPte s.mem pagetable va)) = 0) :
    (cowPagefaultHandler id pagetable va).run s = .ok (-2, s) := by
  rw [cowPagefaultHandler, StateT.run_bind, walk_run_false h, ok_bind]
  dsimp only
  rw [run_ite, if_neg hw, StateT.run_bind, StateT.run_get, pure_bind]
  dsimp only
  rw [run_ite, if_pos hpa]
  rfl

/-- A page without `PTE_COW` is left as it is, writable or not. -/
theorem cowPagefaultHandler_run_notCow
    (hpa : PTE2PA (read64 s.mem (walkPte s.mem pagetable va)) ≠ 0)
    (hc : hasFlag (read64 s.mem (walkPte s.mem pagetable va)) PTE_COW = false) :
    (cowPagefaultHandler id pagetable va).run s = .ok (1, s) := by
  rw [cowPagefaultHandler, StateT.run_bind, walk_run_false h, ok_bind]
  dsimp only
  rw [run_ite, if_neg hw, StateT.run_bind, StateT.run_get, pure_bind]
  dsimp only
  rw [run_ite, if_neg hpa, run_ite, hc]
  rfl

variable {c : Int} (hpa : PTE2PA (read64 s.mem (walkPte s.mem pagetable va)) ≠ 0)
  (hc : hasFlag (read64 s.mem (walkPte s.mem pagetable va)) PTE_COW)
  (hr : (getPageRef (PTE2PA (read64 s.mem (walkPte s.mem pagetable va)))).run s = .ok (c, s))
include hpa hc hr

/-- A copy-on-write page that no other page table holds is made writable in place. -/
theorem cowPagefaultHandler_run_inPlace (hc1 : ¬ 1 < c) :
    (cowPagefaultHandler id pagetable va).run s =
      .ok (0, { s with
        mem := write64 s.mem (walkPte s.mem pagetable va)
          (read64 s.mem (walkPte s.mem pagetable va) &&& bnot64 PTE_COW ||| PTE_W) }) := by
  rw [cowPagefaultHandler, StateT.run_bind, walk_run_false h, ok_bind]
  dsimp only
  rw [run_ite, if_neg hw, StateT.run_bind, StateT.run_get, pure_bind]
  dsimp only
  rw [run_ite, if_neg hpa, run_ite, if_neg (by simp [hc]), StateT.run_bind, hr, ok_bind]
  dsimp only
  rw [run_ite, if_neg hc1]
  rfl

/-- A shared copy-on-write page when `kalloc` finds no free page: -1. -/
theorem cowPagefaultHandler_run_noMem (hc1 : 1 < c) (hk : (kalloc id).run s = .ok (0, s₁)) :
    (cowPagefaultHandler id pagetable va).run s = .ok (-1, s₁) := by
  rw [cowPagefaultHandler, StateT.run_bind, walk_run_false h, ok_bind]
  dsimp only
  rw [run_ite, if_neg hw, StateT.run_bind, StateT.run_get, pure_bind]
  dsimp only
  rw [run_ite, if_neg hpa, run_ite, if_neg (by simp [hc]), StateT.run_bind, hr, ok_bind]
  dsimp only
  rw [run_ite, if_pos hc1, StateT.run_bind, hk, ok_bind]
  rfl

/-- A shared copy-on-write page with a page from `kalloc`: the page is copied into it, the
old mapping is removed with `do_free`, and the new page is mapped with the old flags, made
writable and no longer copy-on-write. -/
theorem cowPagefaultHandler_run_copy {mem : Nat} {s₂ s₃ : KState} (hc1 : 1 < c)
    (hk : (kalloc id).run s = .ok (mem, s₁)) (hm : mem ≠ 0)
    (hu : (uvmunmap id pagetable (PGROUNDDOWN va) 1 true).run
      { s₁ with
        mem := copy s₁.mem mem (PTE2PA (read64 s.mem (walkPte s.mem pagetable va))) PGSIZE } =
        .ok ((), s₂))
    (hmp : (mappages id pagetable (PGROUNDDOWN va) PGSIZE mem
      (PTE_FLAGS (read64 s.mem (walkPte s.mem pagetable va)) &&& bnot64 PTE_COW ||| PTE_W)).run
        s₂ = .ok (0, s₃)) :
    (cowPagefaultHandler id pagetable va).run s = .ok (0, s₃) := by
  have h0 : ¬ ((0 : Int) ≠ 0) := fun h => h rfl
  rw [cowPagefaultHandler, StateT.run_bind, walk_run_false h, ok_bind]
  dsimp only
  rw [run_ite, if_neg hw, StateT.run_bind, StateT.run_get, pure_bind]
  dsimp only
  rw [run_ite, if_neg hpa, run_ite, if_neg (by simp [hc]), StateT.run_bind, hr, ok_bind]
  dsimp only
  rw [run_ite, if_pos hc1, StateT.run_bind, hk, ok_bind]
  dsimp only
  -- `memmove` is read as the `copy` it computes before the states are compared
  rw [run_ite, if_neg hm, StateT.run_bind, StateT.run_modify, pure_bind]
  dsimp only
  rw [memmove_eq_copy, StateT.run_bind, hu, ok_bind, StateT.run_bind, hmp, ok_bind]
  dsimp only
  rw [run_ite, if_neg h0]
  rfl

end Cow

theorem copyoutPrepare_run_of_cow {p : UProc} {va0 : Nat} {st : Int}
    (hc : (cowPagefaultHandler id pagetable va0).run s = .ok (st, s₁)) (hst : 0 ≤ st) :
    (copyoutPrepare id p pagetable va0).run s = .ok (true, s₁) := by
  simp only [copyoutPrepare, StateT.run_bind, hc, ok_bind, run_ite, if_neg (Int.not_lt.mpr hst)]
  rfl

theorem copyout_run_zero {p : UProc} {dstva src : Nat} :
    (copyout id p pagetable dstva src 0).run s = .ok (0, s) := by
  rw [copyout]
  rfl

/-- One pass of `copyout`'s loop: after the page is prepared and found, the bytes that fit
in it are copied, and the loop goes on with the next page. -/
theorem copyout_run_step {p : UProc} {dstva src len pa0 : Nat} (hlen : len ≠ 0)
    (hva : PGROUNDDOWN dstva < MAXVA)
    (hp : (copyoutPrepare id p pagetable (PGROUNDDOWN dstva)).run s = .ok (true, s₁))
    (hpa : translate s₁.mem pagetable (PGROUNDDOWN dstva) = some pa0) (h0 : pa0 ≠ 0) :
    (copyout id p pagetable dstva src len).run s =
      (copyout id p pagetable (PGROUNDDOWN dstva + PGSIZE)
        (src + min (PGSIZE - (dstva - PGROUNDDOWN dstva)) len)
        (len - min (PGSIZE - (dstva - PGROUNDDOWN dstva)) len)).run
        { s₁ with
          mem := copy s₁.mem (pa0 + (dstva - PGROUNDDOWN dstva)) src
            (min (PGSIZE - (dstva - PGROUNDDOWN dstva)) len) } := by
  rw [copyout, if_neg hlen]
  simp only [StateT.run_bind, run_ite, if_neg (Nat.not_le.mpr hva), hp, ok_bind, Bool.not_true,
    Bool.false_eq_true, if_false, walkaddr_run, hpa, Option.getD_some, if_neg h0,
    StateT.run_modify, pure_bind, memmove_eq_copy]

/-- A handler that fails with anything but -2 makes `copyout` give up. -/
theorem copyoutPrepare_run_of_fail {p : UProc} {va0 : Nat} {st : Int}
    (hc : (cowPagefaultHandler id pagetable va0).run s = .ok (st, s₁)) (hst : st < 0)
    (h2 : st ≠ -2) : (copyoutPrepare id p pagetable va0).run s = .ok (false, s₁) := by
  simp only [copyoutPrepare, StateT.run_bind, hc, ok_bind, run_ite, if_pos hst, if_neg h2]
  rfl

theorem copyout_run_unprepared {p : UProc} {dstva src len : Nat} (hlen : len ≠ 0)
    (hva : PGROUNDDOWN dstva < MAXVA)
    (hp : (copyoutPrepare id p pagetable (PGROUNDDOWN dstva)).run s = .ok (false, s₁)) :
    (copyout id p pagetable dstva src len).run s = .ok (-1, s₁) := by
  rw [copyout, if_neg hlen]
  simp only [StateT.run_bind, run_ite, if_neg (Nat.not_le.mpr hva), hp, ok_bind, Bool.not_false,
    if_true]
  rfl

/-- Where no page-table page leads to `va0` the copy-on-write handler answers -1, and
`copyout` gives up: it asks the lazy handler only about a PTE that is there and zero. -/
theorem copyoutPrepare_run_noPte {p : UProc} {va0 : Nat} (h : va0 < MAXVA)
    (hw : walkPte s.mem pagetable va0 = 0) :
    (copyoutPrepare id p pagetable va0).run s = .ok (false, s) := by
  rw [copyoutPrepare, StateT.run_bind, cowPagefaultHandler_run_noPte h hw, ok_bind]
  dsimp only
  rw [run_ite, if_pos (by decide), run_ite, if_neg (by decide)]
  rfl

theorem copyout_run_noPte {p : UProc} {dstva src len : Nat} (hlen : len ≠ 0)
    (hva : PGROUNDDOWN dstva < MAXVA) (hw : walkPte s.mem pagetable (PGROUNDDOWN dstva) = 0) :
    (copyout id p pagetable dstva src len).run s = .ok (-1, s) := by
  rw [copyout, if_neg hlen]
  simp only [StateT.run_bind, run_ite, if_neg (Nat.not_le.mpr hva), copyoutPrepare_run_noPte hva hw,
    ok_bind, Bool.not_false, if_true]
  rfl

/-- `copyinstr` has no lazy fallback: a page without a user mapping ends it with -1. -/
theorem copyinstr_run_unmapped {dst srcva max : Nat} (hmax : max ≠ 0)
    (ht : translate s.mem pagetable (PGROUNDDOWN srcva) = none) :
    (copyinstr id pagetable dst srcva max).run s = .ok (-1, s) := by
  rw [copyinstr, dif_neg hmax]
  simp only [StateT.run_bind, walkaddr_run, ht, Option.getD_none, ok_bind, run_ite]
  rfl

/-- One pass of `copyinstr`'s loop over a mapped page: the inner loop's bytes are written,
and the outer loop stops on a NUL or goes on with the next page. -/
theorem copyinstr_run_step {dst srcva max pa0 : Nat} {m' : Memory} {found : Bool}
    (hmax : max ≠ 0) (ht : translate s.mem pagetable (PGROUNDDOWN srcva) = some pa0)
    (h0 : pa0 ≠ 0)
    (hc : copyinstrCopy s.mem (pa0 + (srcva - PGROUNDDOWN srcva)) dst
      (min (PGSIZE - (srcva - PGROUNDDOWN srcva)) max) = (m', found)) :
    (copyinstr id pagetable dst srcva max).run s =
      if found then .ok (0, { s with mem := m' })
      else (copyinstr id pagetable (dst + min (PGSIZE - (srcva - PGROUNDDOWN srcva)) max)
        (PGROUNDDOWN srcva + PGSIZE) (max - min (PGSIZE - (srcva - PGROUNDDOWN srcva)) max)).run
          { s with mem := m' } := by
  rw [copyinstr, dif_neg hmax]
  simp only [StateT.run_bind, walkaddr_run, ht, Option.getD_some, ok_bind, run_ite, if_neg h0,
    StateT.run_get, pure_bind, StateT.run_modify, hc]
  cases found <;> rfl

theorem copyin_run_zero {p : UProc} {dst srcva : Nat} :
    (copyin id p pagetable dst srcva 0).run s = .ok (0, s) := by
  rw [copyin]
  rfl

/-- One pass of `copyin`'s loop: the bytes of the page that fit are copied to `dst` from the
page `copyinAddr` found, and the loop goes on with the next page. -/
theorem copyin_run_step {p : UProc} {dst srcva len pa0 : Nat} (hlen : len ≠ 0)
    (ha : (copyinAddr id p pagetable (PGROUNDDOWN srcva)).run s = .ok (some pa0, s₁)) :
    (copyin id p pagetable dst srcva len).run s =
      (copyin id p pagetable (dst + min (PGSIZE - (srcva - PGROUNDDOWN srcva)) len)
        (PGROUNDDOWN srcva + PGSIZE) (len - min (PGSIZE - (srcva - PGROUNDDOWN srcva)) len)).run
        { s₁ with
          mem := copy s₁.mem dst (pa0 + (srcva - PGROUNDDOWN srcva))
            (min (PGSIZE - (srcva - PGROUNDDOWN srcva)) len) } := by
  rw [copyin, if_neg hlen]
  simp only [StateT.run_bind, ha, ok_bind, StateT.run_modify, pure_bind, memmove_eq_copy]

/-- A page with a user mapping needs no fault. -/
theorem copyinAddr_run_mapped {p : UProc} {va0 pa0 : Nat}
    (ht : translate s.mem pagetable va0 = some pa0) (h0 : pa0 ≠ 0) :
    (copyinAddr id p pagetable va0).run s = .ok (some pa0, s) := by
  rw [copyinAddr, StateT.run_bind, walkaddr_run, ht, ok_bind]
  dsimp only
  rw [Option.getD_some, run_ite, if_pos h0]
  rfl

/-- A page without a user mapping that the lazy handler accepts and maps: `copyin` reads
through the new mapping. -/
theorem copyinAddr_run_lazy {p : UProc} {va0 mem : Nat} {s₂ : KState} (ha : va0 % PGSIZE = 0)
    (ht : translate s.mem pagetable va0 = none) (h1 : va0 < p.sz)
    (h2 : PGROUNDDOWN (p.sp s.mem) ≤ va0) (hk : (kalloc id).run s = .ok (mem, s₁)) (hm : mem ≠ 0)
    (hmap : (mappages id p.pagetable va0 PGSIZE mem (PTE_U ||| PTE_W ||| PTE_R)).run
      { s₁ with mem := fill s₁.mem mem PGSIZE (UInt8.ofInt 0) } = .ok (0, s₂)) :
    (copyinAddr id p pagetable va0).run s =
      .ok (some ((translate s₂.mem pagetable va0).getD 0), s₂) := by
  have hdown : PGROUNDDOWN va0 = va0 := PGROUNDDOWN_of_mod ha
  rw [copyinAddr, StateT.run_bind, walkaddr_run, ht, ok_bind]
  dsimp only
  rw [Option.getD_none, run_ite, if_neg (not_not.mpr rfl), StateT.run_bind,
    lazyalloc_run h1 h2 hk, if_neg hm, hdown, hmap]
  simp only [ok_bind, ne_eq, not_true_eq_false, if_false, run_ite, if_neg (by decide : (0 : Int) ≠ -1),
    StateT.run_bind, walkaddr_run]
  rfl

/-- At or above `MAXVA` there is no user mapping; when the size check lets the lazy
handler through, its `mappages` walks past `MAXVA`. -/
theorem copyinAddr_run_of_ge {p : UProc} {va0 mem : Nat} (hva : MAXVA ≤ va0) (ha : va0 % PGSIZE = 0)
    (h1 : va0 < p.sz) (h2 : PGROUNDDOWN (p.sp s.mem) ≤ va0)
    (hk : (kalloc id).run s = .ok (mem, s₁)) (hm : mem ≠ 0) :
    (copyinAddr id p pagetable va0).run s = .error "walk" := by
  have hdown : MAXVA ≤ PGROUNDDOWN (PGROUNDDOWN va0) := by
    rw [PGROUNDDOWN_of_mod ha, PGROUNDDOWN_of_mod ha]
    exact hva
  rw [copyinAddr, StateT.run_bind, walkaddr_run_of_ge hva, ok_bind]
  dsimp only
  rw [run_ite, if_neg (not_not.mpr rfl), StateT.run_bind, lazyalloc_run h1 h2 hk, if_neg hm,
    mappages_run_of_ge (show PGSIZE ≠ 0 by decide) hdown]
  rfl

theorem copyin_run_of_ge {p : UProc} {dst srcva len mem : Nat} (hlen : len ≠ 0)
    (hva : MAXVA ≤ PGROUNDDOWN srcva) (h1 : PGROUNDDOWN srcva < p.sz)
    (h2 : PGROUNDDOWN (p.sp s.mem) ≤ PGROUNDDOWN srcva)
    (hk : (kalloc id).run s = .ok (mem, s₁)) (hm : mem ≠ 0) :
    (copyin id p pagetable dst srcva len).run s = .error "walk" := by
  rw [copyin, if_neg hlen]
  dsimp only
  rw [StateT.run_bind, copyinAddr_run_of_ge hva (PGROUNDDOWN_mod srcva) h1 h2 hk hm]
  rfl

/-- A valid page that is not writable is mapped into the child with the same flags and gets
one more reference; the parent's PTE is left alone. -/
theorem uvmcopyPage_run_share {old new i pa flags : Nat} {c : Int} {s₂ : KState} (h : i < MAXVA)
    (hw : walkPte s.mem old i ≠ 0)
    (hv : hasFlag (read64 s.mem (walkPte s.mem old i)) PTE_V)
    (hpa : PTE2PA (read64 s.mem (walkPte s.mem old i)) = pa)
    (hfl : PTE_FLAGS (read64 s.mem (walkPte s.mem old i)) = flags)
    (hW : hasFlag flags PTE_W = false) (hC : hasFlag flags PTE_COW = false)
    (hm : (mappages id new i PGSIZE pa flags).run s = .ok (0, s₁))
    (hinc : (incPageRef pa).run s₁ = .ok (c, s₂)) (hc : c ≠ -1) :
    (uvmcopyPage id old new i).run s = .ok (true, s₂) := by
  subst hpa hfl
  have hv' : (!hasFlag (read64 s.mem (walkPte s.mem old i)) PTE_V) ≠ true := by simp [hv]
  have h0 : ¬ ((0 : Int) ≠ 0) := fun h => h rfl
  have hC' : hasFlag (PTE_FLAGS (read64 s.mem (walkPte s.mem old i))) PTE_COW ≠ true := by
    rw [hC]
    exact Bool.false_ne_true
  rw [uvmcopyPage, run_bind_of_ok (walk_run_false h)]
  dsimp only
  rw [run_ite, if_neg hw, StateT.run_bind, StateT.run_get, pure_bind]
  dsimp only
  rw [run_ite, if_neg hv', hW, if_neg Bool.false_ne_true, run_bind_of_ok hm]
  rw [run_ite, if_neg h0, run_bind_of_ok hinc]
  rw [run_ite, if_neg hc, run_ite, if_neg hC']
  rfl

theorem hasFlag_or_COW (x : Nat) : hasFlag (x ||| PTE_COW) PTE_COW = true := by
  have h : ((x ||| PTE_COW) &&& PTE_COW).testBit 8 = true := by
    rw [Nat.testBit_and, Nat.testBit_or, PTE_COW, Nat.testBit_two_pow_self, Bool.or_true,
      Bool.and_true]
  unfold hasFlag
  rw [bne_iff_ne]
  intro h0
  rw [h0, Nat.zero_testBit] at h
  exact Bool.false_ne_true h

/-- A valid writable page is mapped into the child with `PTE_W` traded for `PTE_COW` and gets
one more reference; the parent's PTE, read again after `mappages`, is marked the same way. -/
theorem uvmcopyPage_run_cow {old new i pa flags : Nat} {c : Int} {s₂ : KState} (h : i < MAXVA)
    (hw : walkPte s.mem old i ≠ 0)
    (hv : hasFlag (read64 s.mem (walkPte s.mem old i)) PTE_V)
    (hpa : PTE2PA (read64 s.mem (walkPte s.mem old i)) = pa)
    (hfl : PTE_FLAGS (read64 s.mem (walkPte s.mem old i)) = flags)
    (hW : hasFlag flags PTE_W = true)
    (hm : (mappages id new i PGSIZE pa (flags &&& bnot64 PTE_W ||| PTE_COW)).run s =
      .ok (0, s₁))
    (hinc : (incPageRef pa).run s₁ = .ok (c, s₂)) (hc : c ≠ -1) :
    (uvmcopyPage id old new i).run s = .ok (true, { s₂ with
      mem := write64 s₂.mem (walkPte s.mem old i)
        (read64 s₂.mem (walkPte s.mem old i) &&& bnot64 PTE_W ||| PTE_COW) }) := by
  subst hpa hfl
  have hv' : (!hasFlag (read64 s.mem (walkPte s.mem old i)) PTE_V) ≠ true := by simp [hv]
  have h0 : ¬ ((0 : Int) ≠ 0) := fun h => h rfl
  rw [uvmcopyPage, run_bind_of_ok (walk_run_false h)]
  dsimp only
  rw [run_ite, if_neg hw, StateT.run_bind, StateT.run_get, pure_bind]
  dsimp only
  rw [run_ite, if_neg hv', hW, if_pos rfl, run_bind_of_ok hm]
  rw [run_ite, if_neg h0, run_bind_of_ok hinc]
  rw [run_ite, if_neg hc, run_ite, if_pos (hasFlag_or_COW _)]
  rfl

theorem uvmcreate_run {p : Nat} (hk : (kalloc id).run s = .ok (p, s₁)) (hp : p ≠ 0) :
    (uvmcreate id).run s = .ok (p, { s₁ with mem := fill s₁.mem p PGSIZE (UInt8.ofInt 0) }) := by
  rw [uvmcreate, run_bind_of_ok hk, run_ite, if_neg hp, StateT.run_bind, StateT.run_modify,
    pure_bind, memset_eq_fill]
  rfl

theorem uvmalloc_run {oldsz newsz xperm : Nat} (h : oldsz ≤ newsz) :
    (uvmalloc id pagetable oldsz newsz xperm).run s =
      (uvmallocLoop id pagetable (PGROUNDUP oldsz) newsz xperm (PGROUNDUP oldsz)).run s := by
  rw [uvmalloc, run_ite, if_neg (Nat.not_lt.mpr h)]

/-- A pass of `uvmalloc`'s loop that gets a page and maps it goes on at the next page. -/
theorem uvmallocLoop_run_step {oldsz newsz xperm a mem : Nat} {s₂ : KState} (ha : a < newsz)
    (hk : (kalloc id).run s = .ok (mem, s₁)) (hm : mem ≠ 0)
    (hmap : (mappages id pagetable a PGSIZE mem (PTE_R ||| PTE_U ||| xperm)).run
      { s₁ with mem := fill s₁.mem mem PGSIZE (UInt8.ofInt 0) } = .ok (0, s₂)) :
    (uvmallocLoop id pagetable oldsz newsz xperm a).run s =
      (uvmallocLoop id pagetable oldsz newsz xperm (a + PGSIZE)).run s₂ := by
  have h0 : ¬ ((0 : Int) ≠ 0) := fun h => h rfl
  rw [uvmallocLoop, run_ite, if_pos ha, run_bind_of_ok hk, run_ite, if_neg hm, StateT.run_bind,
    StateT.run_modify, pure_bind, memset_eq_fill, run_bind_of_ok hmap, run_ite, if_neg h0]

theorem uvmallocLoop_run_done {oldsz newsz xperm a : Nat} (ha : ¬ a < newsz) :
    (uvmallocLoop id pagetable oldsz newsz xperm a).run s = .ok (newsz, s) := by
  rw [uvmallocLoop, run_ite, if_neg ha]
  rfl

theorem uvmcopyLoop_run_succ {old new i k : Nat}
    (hp : (uvmcopyPage id old new i).run s = .ok (true, s₁)) :
    (uvmcopyLoop id old new i (k + 1)).run s = (uvmcopyLoop id old new (i + PGSIZE) k).run s₁ := by
  rw [uvmcopyLoop, run_bind_of_ok hp]
  rfl

/-! ### Loops that reach `MAXVA`

Every pass of the loops of `uvmunmap` and `uvmcopy` starts with a `walk`, which panics at
`MAXVA`: a run that ends normally visited only addresses below it. -/

theorem uvmunmapPage_lt_of_ok {doFree : Bool} {a : Nat} {r : Unit × KState}
    (h : (uvmunmapPage id pagetable doFree a).run s = .ok r) : a < MAXVA := by
  by_contra hge
  rw [uvmunmapPage, StateT.run_bind, walk_run_of_ge (Nat.le_of_not_lt hge), error_bind] at h
  cases h

theorem uvmunmapLoop_lt_of_ok {doFree : Bool} {r : Unit × KState} (k : Nat) :
    ∀ {a : Nat} {s : KState}, (uvmunmapLoop id pagetable doFree a k).run s = .ok r →
      ∀ j < k, a + j * PGSIZE < MAXVA := by
  induction k with
  | zero => exact fun _ j hj => absurd hj (Nat.not_lt_zero j)
  | succ k ih =>
    intro a s h j hj
    rw [uvmunmapLoop] at h
    obtain ⟨u, s', hpage, hrest⟩ := run_bind_eq_ok h
    have ha := uvmunmapPage_lt_of_ok hpage
    cases j with
    | zero => simpa using ha
    | succ j =>
      have := ih hrest j (by omega)
      rw [Nat.succ_mul]
      omega

/-- A run of `uvmunmap` that returns visited every page of its count below `MAXVA`. -/
theorem uvmunmap_lt_of_ok {va npages : Nat} {doFree : Bool} {r : Unit × KState}
    (h : (uvmunmap id pagetable va npages doFree).run s = .ok r) :
    ∀ j < ((va + npages * PGSIZE) % 2 ^ 64 - va) / PGSIZE, va + j * PGSIZE < MAXVA := by
  rw [uvmunmap, run_ite] at h
  split_ifs at h
  · rw [StateT.run_bind, run_throw, error_bind] at h
    cases h
  · exact uvmunmapLoop_lt_of_ok _ h

theorem uvmcopyPage_lt_of_ok {old new i : Nat} {r : Bool × KState}
    (h : (uvmcopyPage id old new i).run s = .ok r) : i < MAXVA := by
  by_contra hge
  rw [uvmcopyPage, StateT.run_bind, walk_run_of_ge (Nat.le_of_not_lt hge), error_bind] at h
  cases h

/-- `uvmcopy`'s loop returns 0 only after a pass for every page, each below `MAXVA`. -/
theorem uvmcopyLoop_lt_of_ok {old new : Nat} {s' : KState} (k : Nat) :
    ∀ {i : Nat} {s : KState}, (uvmcopyLoop id old new i k).run s = .ok (0, s') →
      ∀ j < k, i + j * PGSIZE < MAXVA := by
  induction k with
  | zero => exact fun _ j hj => absurd hj (Nat.not_lt_zero j)
  | succ k ih =>
    intro i s h j hj
    rw [uvmcopyLoop] at h
    obtain ⟨b, s₁, hpage, hrest⟩ := run_bind_eq_ok h
    have hi := uvmcopyPage_lt_of_ok hpage
    cases b with
    | false => cases hrest
    | true =>
      cases j with
      | zero => simpa using hi
      | succ j =>
        have := ih hrest j (by omega)
        rw [Nat.succ_mul]
        omega

theorem uvmcopy_lt_of_ok {old new sz : Nat} {s' : KState}
    (h : (uvmcopy id old new sz).run s = .ok (0, s')) :
    ∀ j < (sz + PGSIZE - 1) / PGSIZE, j * PGSIZE < MAXVA := by
  intro j hj
  simpa using uvmcopyLoop_lt_of_ok _ h j hj

/-! ### Runs that return

What a run that returns a given result went through, for the proofs that follow a run
without knowing the state in advance. -/

/-- A `walk` that returns a PTE address went through both levels. -/
theorem walk_run_ne_zero {alloc : Bool} {pte : Nat} {s' : KState}
    (h : (walk id pagetable va alloc).run s = .ok (pte, s')) (hpte : pte ≠ 0) :
    va < MAXVA ∧ ∃ p1 s₁ p0, (walkLevel id va alloc pagetable 2).run s = .ok (some p1, s₁) ∧
      (walkLevel id va alloc p1 1).run s₁ = .ok (some p0, s') ∧ pte = pteAddr p0 0 va := by
  by_cases hva : MAXVA ≤ va
  · rw [walk_run_of_ge hva] at h
    cases h
  refine ⟨Nat.not_le.mp hva, ?_⟩
  rw [walk, run_ite, if_neg hva] at h
  obtain ⟨o2, s₁, h2, hrest⟩ := run_bind_eq_ok h
  cases o2 with
  | none =>
    cases hrest
    exact absurd rfl hpte
  | some p1 =>
    obtain ⟨o1, s₂, h1, hlast⟩ := run_bind_eq_ok hrest
    cases o1 with
    | none =>
      cases hlast
      exact absurd rfl hpte
    | some p0 =>
      cases hlast
      exact ⟨p1, s₁, p0, h2, h1, rfl⟩

/-- A page of `mappages` that was mapped: the walk found a PTE and the leaf was stored. -/
theorem mappagesPage_run_true {perm a pa : Nat} {s' : KState}
    (h : (mappagesPage id pagetable perm a pa).run s = .ok (true, s')) :
    ∃ pte s₁, (walk id pagetable a true).run s = .ok (pte, s₁) ∧ pte ≠ 0 ∧
      s' = { s₁ with mem := write64 s₁.mem pte (PA2PTE pa ||| perm ||| PTE_V) } := by
  cases hw : (walk id pagetable a true).run s with
  | error e =>
    rw [mappagesPage, StateT.run_bind, hw, error_bind] at h
    cases h
  | ok r =>
    obtain ⟨pte, s₁⟩ := r
    rw [mappagesPage_run hw] at h
    split_ifs at h with h0 <;> cases h
    exact ⟨pte, s₁, rfl, h0, rfl⟩

/-- The last page of `mappages`' loop returns 0 only when it was mapped. -/
theorem mappagesLoop_run_zero {perm a pa : Nat} {s' : KState}
    (h : (mappagesLoop id pagetable perm a pa 0).run s = .ok (0, s')) :
    (mappagesPage id pagetable perm a pa).run s = .ok (true, s') := by
  rw [mappagesLoop] at h
  obtain ⟨b, s₁, hp, hrest⟩ := run_bind_eq_ok h
  cases b
  · cases hrest
  · cases hrest
    exact hp

/-- A loop with pages left returns 0 only when this page was mapped and the rest returned 0. -/
theorem mappagesLoop_run_succ_zero {perm a pa n : Nat} {s' : KState}
    (h : (mappagesLoop id pagetable perm a pa (n + 1)).run s = .ok (0, s')) :
    ∃ s₁, (mappagesPage id pagetable perm a pa).run s = .ok (true, s₁) ∧
      (mappagesLoop id pagetable perm ((a + PGSIZE) % 2 ^ 64) ((pa + PGSIZE) % 2 ^ 64) n).run s₁ =
        .ok (0, s') := by
  rw [mappagesLoop] at h
  obtain ⟨b, s₁, hp, hrest⟩ := run_bind_eq_ok h
  cases b
  · cases hrest
  · exact ⟨s₁, hp, hrest⟩

/-- `mappages` with the last page computed without wrapping: the loop over its pages. -/
theorem mappages_run_loop {size pa perm : Nat} (hs : size ≠ 0) (hlt : va + size - 1 < 2 ^ 64) :
    (mappages id pagetable va size pa perm).run s =
      (mappagesLoop id pagetable perm (PGROUNDDOWN va) pa
        ((PGROUNDDOWN (va + size - 1) - PGROUNDDOWN va) / PGSIZE)).run s := by
  have hle : PGROUNDDOWN va ≤ PGROUNDDOWN (va + size - 1) := by
    unfold PGROUNDDOWN PGSIZE
    exact Nat.mul_le_mul_right _ (Nat.div_le_div_right (by omega))
  have hlast : PGROUNDDOWN (va + size - 1) < 2 ^ 64 :=
    lt_of_le_of_lt (PGROUNDDOWN_le _) hlt
  have hn : (PGROUNDDOWN (va + size - 1) + 2 ^ 64 - PGROUNDDOWN va) % 2 ^ 64 =
      PGROUNDDOWN (va + size - 1) - PGROUNDDOWN va := by omega
  rw [mappages, if_neg hs]
  dsimp only
  rw [Nat.mod_eq_of_lt hlt, hn]

/-- One page of `uvmunmap`: nothing to do where there is no valid leaf, a panic at an entry
that is only `PTE_V`, and otherwise the page freed if asked and the leaf cleared. -/
theorem uvmunmapPage_run {doFree : Bool} {a : Nat} (ha : a < MAXVA) :
    (uvmunmapPage id pagetable doFree a).run s =
      if walkPte s.mem pagetable a = 0 then .ok ((), s)
      else if !hasFlag (read64 s.mem (walkPte s.mem pagetable a)) PTE_V then .ok ((), s)
      else if PTE_FLAGS (read64 s.mem (walkPte s.mem pagetable a)) = PTE_V then
        .error "uvmunmap: not a leaf"
      else (if doFree then kfree id (PTE2PA (read64 s.mem (walkPte s.mem pagetable a)))
          else pure ()).run s >>= fun r =>
        .ok ((), { r.2 with mem := write64 r.2.mem (walkPte s.mem pagetable a) 0 }) := by
  simp only [uvmunmapPage, StateT.run_bind, run_bind_of_ok (walk_run_false ha), run_ite,
    StateT.run_get, pure_bind]
  by_cases h0 : walkPte s.mem pagetable a = 0
  · rw [if_pos h0, if_pos h0]
    rfl
  rw [if_neg h0, if_neg h0]
  by_cases hv : (!hasFlag (read64 s.mem (walkPte s.mem pagetable a)) PTE_V) = true
  · rw [if_pos hv, if_pos hv]
    rfl
  rw [if_neg hv, if_neg hv]
  by_cases hf : PTE_FLAGS (read64 s.mem (walkPte s.mem pagetable a)) = PTE_V
  · rw [if_pos hf, if_pos hf, run_throw, error_bind]
  rw [if_neg hf, if_neg hf]
  cases doFree with
  | false => rfl
  | true =>
    rw [if_pos rfl, if_pos rfl]
    cases (kfree id (PTE2PA (read64 s.mem (walkPte s.mem pagetable a)))).run s with
    | error e => rfl
    | ok r => rfl

theorem uvmunmapLoop_run_succ {doFree : Bool} {a k : Nat}
    (hp : (uvmunmapPage id pagetable doFree a).run s = .ok ((), s₁)) :
    (uvmunmapLoop id pagetable doFree a (k + 1)).run s =
      (uvmunmapLoop id pagetable doFree (a + PGSIZE) k).run s₁ := by
  rw [uvmunmapLoop, run_bind_of_ok hp]

/-- `uvmunmap` of an aligned range that does not reach past `2 ^ 64`: a pass per page. -/
theorem uvmunmap_run_loop {doFree : Bool} {n : Nat} (ha : va % PGSIZE = 0)
    (hlt : va + n * PGSIZE < 2 ^ 64) :
    (uvmunmap id pagetable va n doFree).run s = (uvmunmapLoop id pagetable doFree va n).run s := by
  have hn : ((va + n * PGSIZE) % 2 ^ 64 - va) / PGSIZE = n := by
    rw [Nat.mod_eq_of_lt hlt, Nat.add_sub_cancel_left]
    exact Nat.mul_div_cancel _ (by decide)
  rw [uvmunmap, run_ite, if_neg (not_not.mpr ha)]
  dsimp only
  rw [hn]

end Spec

end Xv6
