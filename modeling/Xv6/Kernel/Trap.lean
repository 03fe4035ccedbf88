import Xv6.Kernel.CopyUser

/-! The page-fault branches of `usertrap` (`kernel/trap.c`): a load fault (`scause` 13) and a
store fault (`scause` 15) at the faulting address `va`. A fault past `MAXVA` ends the
process. An unmapped page goes to the lazy-allocation handler, a mapped one to the
copy-on-write handler for a store and to `setkilled` for a load. In a state whose page table
and free lists keep `PTInv`, the process goes on after a store fault on a shared
copy-on-write page, which is then a private writable copy, and is killed on a load fault at
a mapped page, on a fault outside its stack and heap, and on a store to a mapped page that
is not copy-on-write, such as its text. -/
namespace Xv6
open ByteMem StateExcept ListFamily

theorem pteAddr_PGROUNDDOWN (p level va : Nat) :
    pteAddr p level (PGROUNDDOWN va) = pteAddr p level va := by
  unfold pteAddr
  rw [PX_PGROUNDDOWN]

theorem PGROUNDDOWN_lt_MAXVA_iff {va : Nat} : PGROUNDDOWN va < MAXVA ↔ va < MAXVA := by
  unfold PGROUNDDOWN PGSIZE MAXVA
  omega

/-- `walk` reads only the page of `va`. -/
theorem walk_PGROUNDDOWN (id : Fin NCPU) (pagetable va : Nat) (alloc : Bool) :
    walk id pagetable (PGROUNDDOWN va) alloc = walk id pagetable va alloc := by
  have hl : ∀ p level, walkLevel id (PGROUNDDOWN va) alloc p level =
      walkLevel id va alloc p level := by
    intro p level
    simp only [walkLevel, pteAddr_PGROUNDDOWN]
  have hge : (PGROUNDDOWN va ≥ MAXVA) = (va ≥ MAXVA) := by
    rw [ge_iff_le, ge_iff_le, ← Nat.not_lt, ← Nat.not_lt, PGROUNDDOWN_lt_MAXVA_iff]
  simp only [walk, hl, pteAddr_PGROUNDDOWN, hge]

/-- The copy-on-write handler at a faulting address is the handler at its page. -/
theorem cowPagefaultHandler_PGROUNDDOWN (id : Fin NCPU) (pagetable va : Nat) :
    cowPagefaultHandler id pagetable (PGROUNDDOWN va) = cowPagefaultHandler id pagetable va := by
  simp only [cowPagefaultHandler, walk_PGROUNDDOWN, PGROUNDDOWN_of_mod (PGROUNDDOWN_mod va)]

/-- The entry `walk` finds, when it finds one, is the leaf. -/
theorem read64_walkPte {m : Memory} {pagetable va : Nat} (hw : walkPte m pagetable va ≠ 0) :
    read64 m (walkPte m pagetable va) = leafPte m pagetable va := by
  rw [walkPte_eq] at hw ⊢
  cases h0 : l0Page m pagetable va with
  | none =>
    rw [h0] at hw
    exact absurd rfl hw
  | some p0 => rw [leafPte_of_l0 h0]

/-- In a tree, `usertrap`'s test for an unmapped page, no entry or an invalid one, is a leaf
without `PTE_V`. -/
theorem PTree.unmapped_iff {m : Memory} {kend pagetable va : Nat} (ht : PTree m kend pagetable)
    (hk : Layout kend) (hva : va < MAXVA) :
    (walkPte m pagetable va = 0 ∨ (!hasFlag (read64 m (walkPte m pagetable va)) PTE_V) = true) ↔
      hasFlag (leafPte m pagetable va) PTE_V = false := by
  cases h0 : l0Page m pagetable va with
  | none =>
    have hw : walkPte m pagetable va = 0 := by rw [walkPte_eq, h0]
    rw [leafPte_of_l0_none h0]
    exact iff_of_true (.inl hw) (by decide)
  | some p0 =>
    have hwp : walkPte m pagetable va = pteAddr p0 0 va := by rw [walkPte_eq, h0]
    have hw : walkPte m pagetable va ≠ 0 := by
      have := (ht.managed p0 (isTable_of_l0 hva h0)).ne_zero hk
      rw [hwp]
      unfold pteAddr
      omega
    rw [read64_walkPte hw]
    simp [hw]

section Trap

variable {id : Fin NCPU} {p : UProc} {s : KState} {va : Nat}

theorem usertrapPagefault_run_of_ge (store : Bool) (h : MAXVA ≤ va) :
    (usertrapPagefault id p store va).run s = .ok (false, s) := by
  rw [usertrapPagefault, run_ite, if_pos h]
  rfl

/-- Past the `MAXVA` test the handler decides on the entry `walk` finds, read as the source
reads it: unmapped when there is none or it is not valid. -/
theorem usertrapPagefault_run (h : va < MAXVA) (store : Bool) :
    (usertrapPagefault id p store va).run s =
      let pte := walkPte s.mem p.pagetable va
      if (!store) = true then
        if pte = 0 ∨ (!hasFlag (read64 s.mem pte) PTE_V) = true then
          (lazyallocPagefaultHandler id p va).run s >>= fun r => .ok (decide (r.1 = 0), r.2)
        else .ok (false, s)
      else
        if pte = 0 ∨ (!hasFlag (read64 s.mem pte) PTE_V) = true then
          (lazyallocPagefaultHandler id p va).run s >>= fun r =>
            if r.1 ≠ 0 then .ok (false, r.2)
            else (cowPagefaultHandler id p.pagetable va).run r.2 >>= fun r' => .ok (true, r'.2)
        else
          (cowPagefaultHandler id p.pagetable va).run s >>= fun r => .ok (decide (r.1 = 0), r.2) := by
  have hw : (walk id p.pagetable va false).run s = .ok (walkPte s.mem p.pagetable va, s) :=
    walk_run_false h
  rw [usertrapPagefault, run_ite, if_neg (Nat.not_le.mpr h), StateT.run_bind, hw]
  simp only [ok_bind, StateT.run_bind, StateT.run_get, pure_bind]
  split_ifs
  · rfl
  · rfl
  · rw [StateT.run_bind]
    congr 1
    funext r
    rw [run_ite]
    split_ifs
    · rfl
    · -- `is_handled`: what the copy-on-write handler answers is dropped
      have hd : (discard (cowPagefaultHandler id p.pagetable va)).run r.2 =
          (cowPagefaultHandler id p.pagetable va).run r.2 >>= fun a => .ok ((), a.2) := rfl
      rw [StateT.run_bind, hd]
      cases (cowPagefaultHandler id p.pagetable va).run r.2 <;> rfl
  · rfl

end Trap

/-- `usertrap` on a page fault at `va` by a process whose page table keeps `PTInv` with the
free lists `L`. The process is ended or killed, with nothing changed, on a fault past
`MAXVA`, on a load fault at a valid page, on a fault at an unmapped page outside its stack
and heap, and on a store fault at a valid page that is not copy-on-write. On a store fault
at a copy-on-write page that another page table shares, with a page on this CPU's free list,
it goes on: the page now maps that free page, writable, holding the shared page's bytes, and
no other page of the table changes. -/
theorem usertrap_pagefault (id : Fin NCPU) (p : UProc) {s : KState} {L : Fin NCPU → List Nat}
    (h : PTInv s L p.pagetable) (va : Nat) :
    (MAXVA ≤ va → ∀ store, (usertrapPagefault id p store va).run s = .ok (false, s)) ∧
    (va < MAXVA → hasFlag (leafPte s.mem p.pagetable va) PTE_V →
      (usertrapPagefault id p false va).run s = .ok (false, s)) ∧
    (va < MAXVA → hasFlag (leafPte s.mem p.pagetable va) PTE_V = false →
      (p.sz ≤ va ∨ va < PGROUNDDOWN (p.sp s.mem)) →
      ∀ store, (usertrapPagefault id p store va).run s = .ok (false, s)) ∧
    (va < MAXVA → hasFlag (leafPte s.mem p.pagetable va) PTE_V →
      hasFlag (leafPte s.mem p.pagetable va) PTE_COW = false →
      (usertrapPagefault id p true va).run s = .ok (false, s)) ∧
    (va < MAXVA → ∀ pa r rest, leafTarget (leafPte s.mem p.pagetable va) = some pa →
      hasFlag (leafPte s.mem p.pagetable va) PTE_COW → Managed s.kend pa →
      1 < s.refCount pa → L id = r :: rest →
      ∃ s₁ L₁, (usertrapPagefault id p true va).run s = .ok (true, s₁) ∧
        PTInv s₁ L₁ p.pagetable ∧ (∀ q, Mem L₁ q ↔ Mem L q ∧ q ≠ r) ∧
        translate s₁.mem p.pagetable va = some r ∧
        hasFlag (leafPte s₁.mem p.pagetable va) PTE_W ∧
        (∀ i < PGSIZE, s₁.mem (r + i) = s.mem (pa + i)) ∧
        ∀ v < MAXVA, PGROUNDDOWN v ≠ PGROUNDDOWN va →
          leafPte s₁.mem p.pagetable v = leafPte s.mem p.pagetable v) := by
  have hmapped : ∀ {va}, va < MAXVA → hasFlag (leafPte s.mem p.pagetable va) PTE_V →
      ¬ (walkPte s.mem p.pagetable va = 0 ∨
        (!hasFlag (read64 s.mem (walkPte s.mem p.pagetable va)) PTE_V) = true) :=
    fun hva hv hu => by
      rw [h.tree.unmapped_iff h.alloc.layout hva, hv] at hu
      exact absurd hu (by decide)
  refine ⟨fun hva store => usertrapPagefault_run_of_ge store hva, fun hva hv => ?_,
    fun hva hv hr store => ?_, fun hva hv hc => ?_,
    fun hva pa r rest htr hc hm hc1 hL => ?_⟩
  · rw [usertrapPagefault_run hva]
    dsimp only
    rw [Bool.not_false, if_pos rfl, if_neg (hmapped hva hv)]
  · -- the lazy-allocation handler refuses the page
    have hu := (h.tree.unmapped_iff h.alloc.layout hva).mpr hv
    rw [usertrapPagefault_run hva]
    dsimp only
    cases store
    · rw [Bool.not_false, if_pos rfl, if_pos hu, lazyalloc_run_reject hr]
      rfl
    · rw [Bool.not_true, if_neg Bool.false_ne_true, if_pos hu, lazyalloc_run_reject hr]
      rfl
  · -- the copy-on-write handler answers -2 or 1, and `usertrap` kills
    have hw : walkPte s.mem p.pagetable va ≠ 0 := fun h0 => hmapped hva hv (.inl h0)
    rw [usertrapPagefault_run hva]
    dsimp only
    rw [Bool.not_true, if_neg Bool.false_ne_true, if_neg (hmapped hva hv)]
    by_cases hpa : PTE2PA (leafPte s.mem p.pagetable va) = 0
    · rw [cowPagefaultHandler_run_noPage hva hw (by rw [read64_walkPte hw]; exact hpa)]
      rfl
    · rw [cowPagefaultHandler_run_notCow hva hw (by rw [read64_walkPte hw]; exact hpa)
        (by rw [read64_walkPte hw]; exact hc)]
      rfl
  · -- the handler runs at the page of `va`, where `PTInv.cowCopy` follows it
    have hv := (leafTarget_eq_some htr).1
    have hva₀ : PGROUNDDOWN va < MAXVA := PGROUNDDOWN_lt_MAXVA_iff.mpr hva
    have hleaf₀ := leafPte_PGROUNDDOWN s.mem p.pagetable va
    obtain ⟨p0, h0⟩ : ∃ p0, l0Page s.mem p.pagetable (PGROUNDDOWN va) = some p0 := by
      cases h0 : l0Page s.mem p.pagetable (PGROUNDDOWN va) with
      | none =>
        rw [← hleaf₀, leafPte_of_l0_none h0] at hv
        exact absurd hv (by decide)
      | some p0 => exact ⟨p0, rfl⟩
    obtain ⟨s₁, L₁, hrun, h₁, -, -, hmem, htr₁, hW, hleaf, -, hbytes, -⟩ :=
      h.cowCopy hva₀ (PGROUNDDOWN_mod va) h0 hL (hleaf₀ ▸ htr) (hleaf₀ ▸ hc) hm hc1
    refine ⟨s₁, L₁, ?_, h₁, hmem, ?_, ?_, hbytes, hleaf⟩
    · rw [usertrapPagefault_run hva]
      dsimp only
      rw [Bool.not_true, if_neg Bool.false_ne_true, if_neg (hmapped hva hv),
        ← cowPagefaultHandler_PGROUNDDOWN, hrun]
      rfl
    · rw [h₁.tree.translate_leaf h₁.alloc.layout hva, ← leafPte_PGROUNDDOWN,
        ← h₁.tree.translate_leaf h₁.alloc.layout hva₀]
      exact htr₁
    · rw [← leafPte_PGROUNDDOWN]
      exact hW

/-- The parent's text page, mapped at 0 readable, executable and not copy-on-write: a load
fault there kills the process, and so does a store. -/
theorem usertrap_pagefault_text_page :
    (usertrapPagefault 0 ⟨page 1, PGSIZE, 0⟩ false 0).run parentState = .ok (false, parentState) ∧
    (usertrapPagefault 0 ⟨page 1, PGSIZE, 0⟩ true 0).run parentState = .ok (false, parentState) := by
  obtain ⟨L, h, -, -⟩ := parentState_inv
  have hv : hasFlag (leafPte parentState.mem (page 1) 0) PTE_V := by decide
  have hc : hasFlag (leafPte parentState.mem (page 1) 0) PTE_COW = false := by decide
  obtain ⟨-, hload, -, hstore, -⟩ := usertrap_pagefault 0 ⟨page 1, PGSIZE, 0⟩ h 0
  exact ⟨hload (by decide) hv, hstore (by decide) hv hc⟩

end Xv6
