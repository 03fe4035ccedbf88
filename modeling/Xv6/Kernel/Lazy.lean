import Xv6.Kernel.Sbrk
import Xv6.Kernel.KallocInv
import Xv6.Kernel.CowFork

/-! The lazy-allocation handler on two inputs its guards let through, both from the state
`onePageBoot` in which `kinit` left one free page. Past `MAXVA`, where `sbrk` lets a process
grow, the handler's `mappages` panics in `walk`. Below it, when `walk` finds no page for a
page-table page, the handler returns -1 and keeps the page it has just taken: a page with one
reference that no free list, page table or other memory word holds.

Lazy allocation seen through the copy routines, on the parent's empty page table of the
fork run. The address 0 is below the process's size and above its stack pointer, and
`kalloc` has pages to give. `copyin` finds no mapping, calls the lazy handler and reads the
zeroed page. `copyout` asks the copy-on-write handler first, which answers -1, not -2,
because no page-table page leads to the PTE of 0, so `copyout` fails. `copyinstr` has no
lazy path at all. -/
namespace Xv6
open ByteMem StateExcept

/-- The page `onePageBoot` has free, at the top of memory. -/
def onePage : Nat := PHYSTOP - PGSIZE

theorem onePageBoot_kalloc :
    (kalloc 0).run onePageBoot = .ok (onePage, (onePageBoot.popFree 0).addRef onePage 1) :=
  kalloc_run_head (by decide) (by decide) (by decide) (by decide)

/-- A user stack pointer of 0, read from a trapframe at address 0. -/
theorem onePageBoot_sp (pagetable sz : Nat) : UProc.sp ⟨pagetable, sz, 0⟩ onePageBoot.mem = 0 := by
  show read64 onePageBoot.mem 48 = 0
  decide

/-- A process grown past `MAXVA` by `sbrk` passes `MAXVA` to a call that copies in from user
memory (`write(fd, MAXVA, 1)`). There is no mapping, the handler accepts the address, and
its `mappages` panics in `walk`. -/
theorem copyin_past_maxva_panics (pagetable : Nat) :
    KReachable onePageBoot ∧
      (do
        let p ← sbrkCalls 0 2147483647 128 ⟨pagetable, PGSIZE, 0⟩
        copyin 0 p p.pagetable 0 MAXVA 1).run onePageBoot = .error "walk" := by
  have hsz : PGSIZE + 128 * (2147483647 : Int32).toInt.toNat = MAXVA + 3968 := rfl
  have hdown : PGROUNDDOWN MAXVA = MAXVA := rfl
  refine ⟨onePageBoot_reachable, ?_⟩
  rw [run_bind_of_ok (sbrkCalls_run_grow (by decide) 128 (by rw [hsz]; decide))]
  dsimp only
  rw [hsz]
  refine copyin_run_of_ge (by decide) (by rw [hdown]) (by rw [hdown]; show MAXVA < MAXVA + 3968; omega) ?_
    onePageBoot_kalloc (by decide)
  rw [onePageBoot_sp, hdown]
  exact Nat.zero_le _

/-- The state the handler leaves: the page taken, counted once, and zeroed. -/
def leakState : KState :=
  { (onePageBoot.popFree 0).addRef onePage 1 with
    mem := fill ((onePageBoot.popFree 0).addRef onePage 1).mem onePage PGSIZE (UInt8.ofInt 0) }

/-- Every byte of memory is zero: the one page that held anything is the one zeroed. -/
theorem leakState_mem (a : Nat) : leakState.mem a = 0 := by
  show fill (fill onePageBoot.mem onePage PGSIZE (UInt8.ofInt 5)) onePage PGSIZE
    (UInt8.ofInt 0) a = 0
  rw [fill_apply]
  split_ifs with h
  · rfl
  · have hout : a < onePage ∨ onePage + PGSIZE ≤ a := by omega
    rw [fill_of_outside _ hout]
    show writeLE (fill (fun _ => 0) onePage PGSIZE (UInt8.ofInt 1)) onePage 0 8 a = 0
    have h8 : 8 ≤ PGSIZE := by decide
    rw [writeLE_of_outside (by omega), fill_of_outside _ hout]

theorem leakState_freelists (i : Fin NCPU) : (leakState.kmems i).freelist = 0 := by
  show ((onePageBoot.popFree 0).kmems i).freelist = 0
  rw [KState.popFree_kmems]
  by_cases hi : i = 0
  · -- the page's link, written when it was freed onto an empty list
    subst hi
    rw [Function.update_self]
    exact read64_write64_self _ _ _ (by decide)
  · rw [Function.update_of_ne hi]
    show (((bootState _ _ _).pushFree 0 onePage).kmems i).freelist = 0
    rw [KState.pushFree_kmems, Function.update_of_ne hi]
    rfl

theorem leakState_kalloc : (kalloc 0).run leakState = .ok (0, leakState) :=
  kalloc_run_empty leakState_freelists

/-- The root page table reads as zeros, so the walk needs a page and gets none. -/
theorem leakState_walk (pagetable : Nat) :
    (walk 0 pagetable 0 true).run leakState = .ok (0, leakState) := by
  have hv : read64 leakState.mem (pteAddr pagetable 2 0) = 0 := by
    rw [show leakState.mem = fun _ => 0 from funext leakState_mem, read64, readLE_zero]
  exact walk_run_alloc_empty (by decide) (by rw [hv]; rfl) leakState_kalloc

/-- A fault at address 0 of a one-page process on `onePageBoot`. The handler takes the one
free page and then fails, in `walk`, to get a page for the page table. It returns -1, and
the page it took is left counted once, on no free list, and named by no word of memory. -/
theorem lazyalloc_fail_leaks_page (pagetable : Nat) :
    KReachable onePageBoot ∧ (onePageBoot.kmems 0).freelist = onePage ∧
      onePageBoot.refCount onePage = 0 ∧
      ∃ s', (lazyallocPagefaultHandler 0 ⟨pagetable, PGSIZE, 0⟩ 0).run onePageBoot = .ok (-1, s') ∧
        s'.refCount onePage = 1 ∧ (∀ i, (s'.kmems i).freelist = 0) ∧ ∀ a, s'.mem a = 0 := by
  refine ⟨onePageBoot_reachable, rfl, by decide, leakState, ?_, by decide, leakState_freelists,
    leakState_mem⟩
  have hsp : PGROUNDDOWN (UProc.sp ⟨pagetable, PGSIZE, 0⟩ onePageBoot.mem) ≤ 0 := by
    rw [onePageBoot_sp]
    rfl
  have hm : (mappages 0 pagetable (PGROUNDDOWN 0) PGSIZE onePage (PTE_U ||| PTE_W ||| PTE_R)).run
      leakState = .ok (-1, leakState) := by
    rw [show PGROUNDDOWN 0 = 0 from rfl, mappages_page (by decide) (by decide), StateT.run_bind,
      mappagesPage_run (leakState_walk pagetable), if_pos rfl, ok_bind]
    rfl
  rw [lazyalloc_run (show 0 < PGSIZE by decide) hsp onePageBoot_kalloc, if_neg (by decide)]
  exact (congrArg (· >>= fun r => Except.ok (if r.1 ≠ 0 then -1 else 0, r.2)) hm).trans rfl

/-- A process of one page on the parent's empty page table. Its trapframe at 0 holds a
saved stack pointer of 0. -/
def lazyProc : UProc := ⟨page 1, PGSIZE, 0⟩

/-- The page at 0 as the lazy handler maps it: user, readable and writable. -/
def lazyState : KState :=
  walkedState.store (pteAddr (page 4) 0 0) (PA2PTE (page 2) ||| (PTE_U ||| PTE_W ||| PTE_R) ||| PTE_V)

theorem lazyProc_sp : lazyProc.sp parentRootState.mem = 0 := by decide

theorem copyin_lazy_run :
    (copyin 0 lazyProc (page 1) KERNBASE 0 1).run parentRootState =
      .ok (0, { lazyState with mem := copy lazyState.mem KERNBASE (page 2) 1 }) := by
  have ht : translate parentRootState.mem (page 1) 0 = none := by decide
  have hsp : PGROUNDDOWN (lazyProc.sp parentRootState.mem) ≤ 0 := by
    rw [lazyProc_sp]
    exact Nat.le_refl _
  have hmapped : (translate lazyState.mem (page 1) 0).getD 0 = page 2 := by decide
  have ha : (copyinAddr 0 lazyProc (page 1) (PGROUNDDOWN 0)).run parentRootState =
      .ok (some (page 2), lazyState) := by
    have h := copyinAddr_run_lazy (by decide) ht (by decide) hsp
      (kalloc_run_at (r := page 2) (by decide) (by decide) (by decide)
        (by decide) (by decide)) (by decide) (mappages_first_page _ _)
    rw [show walkedState.store (pteAddr (page 4) 0 0)
        (PA2PTE (page 2) ||| (PTE_U ||| PTE_W ||| PTE_R) ||| PTE_V) = lazyState from rfl,
      hmapped] at h
    exact h
  rw [copyin_run_step (by decide) ha, show 1 - min (PGSIZE - (0 - PGROUNDDOWN 0)) 1 = 0 from rfl,
    copyin_run_zero]
  rfl

/-- From the state after the parent's `uvmcreate`, with the free pages `kalloc` hands out:
`copyin` of one byte at 0 succeeds and reads the zero of a fresh page, while `copyout` and
`copyinstr` of one byte at 0 fail without a change. -/
theorem lazy_copyout_fails_where_copyin_succeeds :
    KReachable sevenPageBoot ∧ (uvmcreate 0).run sevenPageBoot = .ok (page 1, parentRootState) ∧
      PGROUNDDOWN (lazyProc.sp parentRootState.mem) ≤ 0 ∧ 0 < lazyProc.sz ∧
      translate parentRootState.mem (page 1) 0 = none ∧
      (kalloc 0).run parentRootState = .ok (page 2, parentRootState.take (page 2)) ∧
      (copyout 0 lazyProc (page 1) 0 KERNBASE 1).run parentRootState = .ok (-1, parentRootState) ∧
      (copyinstr 0 (page 1) KERNBASE 0 1).run parentRootState = .ok (-1, parentRootState) ∧
      ∃ s', (copyin 0 lazyProc (page 1) KERNBASE 0 1).run parentRootState = .ok (0, s') ∧
        translate s'.mem (page 1) 0 = some (page 2) ∧ s'.mem KERNBASE = 0 := by
  have ht : translate parentRootState.mem (page 1) 0 = none := by decide
  have hw : walkPte parentRootState.mem (page 1) (PGROUNDDOWN 0) = 0 := by decide
  refine ⟨sevenPageBoot_reachable, parentRoot_run, by rw [lazyProc_sp]; exact Nat.le_refl _,
    by decide, ht, kalloc_run_at (by decide) (by decide) (by decide)
      (by decide) (by decide), copyout_run_noPte (by decide) (by decide) hw,
    copyinstr_run_unmapped (by decide) ht, _, copyin_lazy_run, by decide,
    by decide⟩

end Xv6
