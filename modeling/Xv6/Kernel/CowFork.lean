import Xv6.Kernel.VmSpec
import Xv6.Kernel.KallocInv

/-! A fork whose child writes through `copyout` into a page it shares with its parent.
`uvmcopy` marks only writable pages copy-on-write: a text page, which `exec` maps with
`uvmalloc(..., PTE_X)` as readable and executable, is shared as it is. `copyout` asks
`cow_pagefault_handler` to break sharing, which answers 1 for a page without `PTE_COW`, and
then writes into the frame `walkaddr` gives, which checks `PTE_U` but not `PTE_W`.

The run starts from `sevenPageBoot`, the state `kinit` leaves with seven free pages, and
uses all seven: the parent's page table (three pages) and text page, and the child's page
table (three pages). Each step is one lemma, and the side conditions on the concrete
memory are closed by evaluation. -/
namespace Xv6
open ByteMem StateExcept

/-- The state `kinit` leaves when the kernel's image ends seven pages below `PHYSTOP`. -/
def sevenPageBoot : KState :=
  { (bootState (fun _ => 0) (fun _ => 0) (PHYSTOP - 7 * PGSIZE)).pushRange 0
      (PHYSTOP - 7 * PGSIZE) 7 with
    pageRefCount := fun _ => 0, isInitializing := false }

theorem sevenPageBoot_reachable : KReachable sevenPageBoot := by
  refine @KReachable.kinit (fun _ => 0) (fun _ => 0) (PHYSTOP - 7 * PGSIZE) _ (by decide) ?_
  have hup : PGROUNDUP (PHYSTOP - 7 * PGSIZE) = PHYSTOP - 7 * PGSIZE := by decide
  rw [kinit, StateT.run_bind, StateT.run_get, pure_bind]
  dsimp only
  rw [bootState_kend, hup, StateT.run_bind,
    freerange_run_pushRange (le_refl _) 7 rfl (by decide) (by decide) (by decide)]
  rfl

/-- The `k`-th page from the top: `kalloc` hands out the pages of `sevenPageBoot` in order. -/
def page (k : Nat) : Nat := PHYSTOP - k * PGSIZE

/-- `kalloc`'s result on a CPU whose list starts at `r`, with `r` named. -/
theorem kalloc_run_at {s : KState} {id : Fin NCPU} {r : Nat} (hr : (s.kmems id).freelist = r)
    (hsz : (s.kmems id).size ≠ 0) (h0 : r ≠ 0) (h1 : s.kend ≤ r) (h2 : r < PHYSTOP) :
    (kalloc id).run s = .ok (r, (s.popFree id).addRef r 1) := by
  subst hr
  exact kalloc_run_head hsz h0 h1 h2

/-- `kalloc` on CPU 0 handing out `r`. -/
def KState.take (s : KState) (r : Nat) : KState := (s.popFree 0).addRef r 1

def KState.zeroed (s : KState) (p : Nat) : KState :=
  { s with mem := fill s.mem p PGSIZE (UInt8.ofInt 0) }

def KState.store (s : KState) (a v : Nat) : KState := { s with mem := write64 s.mem a v }

/-- The flags `exec` asks for a text segment: `uvmalloc`'s `PTE_R | PTE_U` with `PTE_X`. -/
def textPerm : Nat := PTE_R ||| PTE_U ||| PTE_X

/-- The parent's empty page table. -/
def parentRootState : KState := (sevenPageBoot.take (page 1)).zeroed (page 1)

/-- The text page (`page 2`) mapped at 0, through two new page-table pages. -/
def parentState : KState :=
  let s₂ := (parentRootState.take (page 2)).zeroed (page 2)
  let s₃ := ((s₂.take (page 3)).zeroed (page 3)).store (pteAddr (page 1) 2 0)
    (PA2PTE (page 3) ||| PTE_V)
  let s₄ := ((s₃.take (page 4)).zeroed (page 4)).store (pteAddr (page 3) 1 0)
    (PA2PTE (page 4) ||| PTE_V)
  s₄.store (pteAddr (page 4) 0 0) (PA2PTE (page 2) ||| textPerm ||| PTE_V)

/-- The child's empty page table. -/
def childRootState : KState := (parentState.take (page 5)).zeroed (page 5)

/-- The text page mapped at 0 in the child too, with the parent's flags. -/
def childMapState : KState :=
  let s₆ := ((childRootState.take (page 6)).zeroed (page 6)).store (pteAddr (page 5) 2 0)
    (PA2PTE (page 6) ||| PTE_V)
  let s₇ := ((s₆.take (page 7)).zeroed (page 7)).store (pteAddr (page 6) 1 0)
    (PA2PTE (page 7) ||| PTE_V)
  s₇.store (pteAddr (page 7) 0 0) (PA2PTE (page 2) ||| (textPerm ||| PTE_V) ||| PTE_V)

/-- After `uvmcopy`: the shared page counts two references. -/
def forkState : KState := childMapState.addRef (page 2) 1

theorem parentRoot_run : (uvmcreate 0).run sevenPageBoot = .ok (page 1, parentRootState) :=
  uvmcreate_run (kalloc_run_at (by decide) (by decide) (by decide)
    (by decide) (by decide)) (by decide)

/-- The frame for address 0 taken and zeroed, and then the two page-table pages that a walk
from the parent's root to the PTE of 0 links in. -/
def frameState : KState := (parentRootState.take (page 2)).zeroed (page 2)

def walkedState : KState :=
  let s₃ := ((frameState.take (page 3)).zeroed (page 3)).store (pteAddr (page 1) 2 0)
    (PA2PTE (page 3) ||| PTE_V)
  ((s₃.take (page 4)).zeroed (page 4)).store (pteAddr (page 3) 1 0) (PA2PTE (page 4) ||| PTE_V)

/-- The walk to the PTE of 0 finds no level below the root and takes a page for each of
the two. -/
theorem walk_first_page :
    (walk 0 (page 1) 0 true).run frameState = .ok (pteAddr (page 4) 0 0, walkedState) :=
  walk_run_of_levels (by decide)
    (walkLevel_run_new (by decide) (kalloc_run_at (r := page 3) (by decide)
      (by decide) (by decide) (by decide) (by decide)) (by decide))
    (walkLevel_run_new (by decide) (kalloc_run_at (r := page 4) (by decide)
      (by decide) (by decide) (by decide) (by decide)) (by decide))

/-- Any page mapped at 0 with any flags. -/
theorem mappages_first_page (pa perm : Nat) :
    (mappages 0 (page 1) 0 PGSIZE pa perm).run frameState =
      .ok (0, walkedState.store (pteAddr (page 4) 0 0) (PA2PTE pa ||| perm ||| PTE_V)) := by
  rw [mappages_page (by decide) (by decide), StateT.run_bind, mappagesPage_run walk_first_page,
    if_neg (by decide), if_neg (by decide), ok_bind]
  rfl

theorem parent_run :
    (uvmalloc 0 (page 1) 0 PGSIZE PTE_X).run parentRootState = .ok (PGSIZE, parentState) := by
  rw [uvmalloc_run (by decide), show PGROUNDUP 0 = 0 from rfl,
    uvmallocLoop_run_step (by decide) (kalloc_run_at (r := page 2) (by decide)
      (by decide) (by decide) (by decide) (by decide)) (by decide)
      (mappages_first_page (page 2) textPerm),
    uvmallocLoop_run_done (by decide)]
  rfl

theorem childRoot_run : (uvmcreate 0).run parentState = .ok (page 5, childRootState) :=
  uvmcreate_run (kalloc_run_at (by decide) (by decide) (by decide)
    (by decide) (by decide)) (by decide)

theorem fork_run :
    (uvmcopy 0 (page 1) (page 5) PGSIZE).run childRootState = .ok (0, forkState) := by
  have hwalk : (walk 0 (page 5) 0 true).run childRootState = .ok (pteAddr (page 7) 0 0, _) :=
    walk_run_of_levels (by decide)
    (walkLevel_run_new (by decide) (kalloc_run_at (r := page 6) (by decide)
      (by decide) (by decide) (by decide) (by decide)) (by decide))
    (walkLevel_run_new (by decide) (kalloc_run_at (r := page 7) (by decide)
      (by decide) (by decide) (by decide) (by decide)) (by decide))
  have hmap : (mappages 0 (page 5) 0 PGSIZE (page 2) (textPerm ||| PTE_V)).run childRootState =
      .ok (0, childMapState) := by
    rw [mappages_page (by decide) (by decide), StateT.run_bind, mappagesPage_run hwalk,
      if_neg (by decide), if_neg (by decide), ok_bind]
    rfl
  have hpage : (uvmcopyPage 0 (page 1) (page 5) 0).run childRootState = .ok (true, forkState) :=
    uvmcopyPage_run_share (by decide) (by decide) (by decide) (by decide)
      (by decide) (by decide) (by decide) hmap
      (addPageRef_run 1 (by decide) (by decide)) (by decide)
  rw [uvmcopy, show (PGSIZE + PGSIZE - 1) / PGSIZE = 0 + 1 from rfl, uvmcopyLoop_run_succ hpage]
  rfl

/-- The child's kernel holds the byte 42 in a buffer at `KERNBASE`, as `read` would. -/
def kbufState : KState := { forkState with mem := setByte forkState.mem KERNBASE 42 }

def writeState : KState := { kbufState with mem := copy kbufState.mem (page 2) KERNBASE 1 }

/-- `copyout` of one byte to the child's address 0 writes it into the shared frame. -/
theorem child_write_run :
    (copyout 0 ⟨page 5, PGSIZE, 0⟩ (page 5) 0 KERNBASE 1).run kbufState = .ok (0, writeState) := by
  have hcow : (cowPagefaultHandler 0 (page 5) (PGROUNDDOWN 0)).run kbufState =
      .ok (1, kbufState) :=
    cowPagefaultHandler_run_notCow (by decide) (by decide) (by decide)
      (by decide)
  have hpa : translate kbufState.mem (page 5) (PGROUNDDOWN 0) = some (page 2) := by
    decide
  rw [copyout_run_step (by decide) (by decide) (copyoutPrepare_run_of_cow hcow (by decide)) hpa
    (by decide)]
  rw [show 1 - min (PGSIZE - (0 - PGROUNDDOWN 0)) 1 = 0 from rfl, copyout_run_zero]
  rfl

/-- From seven free pages: the parent's page table and its text page at 0, mapped as `exec`
maps text; `fork`'s new page table and `uvmcopy`. Both processes read 0 at address 0, from
the same frame. The child's kernel then copies the byte 42 out to the child's address 0,
and `copyout` succeeds: the parent now reads 42 there. -/
theorem fork_child_write_reaches_parent :
    KReachable sevenPageBoot ∧
      ∃ s₁ s₂ s₃ s₄ s₅,
        (uvmcreate 0).run sevenPageBoot = .ok (page 1, s₁) ∧
        (uvmalloc 0 (page 1) 0 PGSIZE PTE_X).run s₁ = .ok (PGSIZE, s₂) ∧
        (uvmcreate 0).run s₂ = .ok (page 5, s₃) ∧
        (uvmcopy 0 (page 1) (page 5) PGSIZE).run s₃ = .ok (0, s₄) ∧
        translate s₄.mem (page 1) 0 = some (page 2) ∧
        translate s₄.mem (page 5) 0 = some (page 2) ∧
        userByte s₄.mem (page 1) 0 = some 0 ∧
        (copyout 0 ⟨page 5, PGSIZE, 0⟩ (page 5) 0 KERNBASE 1).run
          { s₄ with mem := setByte s₄.mem KERNBASE 42 } = .ok (0, s₅) ∧
        userByte s₅.mem (page 1) 0 = some 42 :=
  ⟨sevenPageBoot_reachable, _, _, _, _, _, parentRoot_run, parent_run, childRoot_run, fork_run,
    by decide, by decide, by decide, child_write_run, by decide⟩

/-! ### A fork of a writable page

`growproc` maps heap with `uvmalloc(..., PTE_W)`. `uvmcopy` trades `PTE_W` for `PTE_COW` in
both page tables, and the run again uses all seven pages, so that breaking the sharing finds
no free page. -/

/-- The flags `growproc` asks for: `uvmalloc`'s `PTE_R | PTE_U` with `PTE_W`. -/
def heapPerm : Nat := PTE_R ||| PTE_U ||| PTE_W

/-- The heap page (`page 2`) mapped at 0, through the same two page-table pages. -/
def heapState : KState :=
  walkedState.store (pteAddr (page 4) 0 0) (PA2PTE (page 2) ||| heapPerm ||| PTE_V)

def heapChildRootState : KState := (heapState.take (page 5)).zeroed (page 5)

/-- The heap page mapped at 0 in the child, copy-on-write. -/
def heapChildMapState : KState :=
  let s₆ := ((heapChildRootState.take (page 6)).zeroed (page 6)).store (pteAddr (page 5) 2 0)
    (PA2PTE (page 6) ||| PTE_V)
  let s₇ := ((s₆.take (page 7)).zeroed (page 7)).store (pteAddr (page 6) 1 0)
    (PA2PTE (page 7) ||| PTE_V)
  s₇.store (pteAddr (page 7) 0 0)
    (PA2PTE (page 2) ||| ((heapPerm ||| PTE_V) &&& bnot64 PTE_W ||| PTE_COW) ||| PTE_V)

/-- After `uvmcopy`: two references, and the parent's PTE copy-on-write as well. -/
def cowForkState : KState :=
  let s := heapChildMapState.addRef (page 2) 1
  s.store (pteAddr (page 4) 0 0) (read64 s.mem (pteAddr (page 4) 0 0) &&& bnot64 PTE_W ||| PTE_COW)

theorem heap_run :
    (uvmalloc 0 (page 1) 0 PGSIZE PTE_W).run parentRootState = .ok (PGSIZE, heapState) := by
  rw [uvmalloc_run (by decide), show PGROUNDUP 0 = 0 from rfl,
    uvmallocLoop_run_step (by decide) (kalloc_run_at (r := page 2) (by decide)
      (by decide) (by decide) (by decide) (by decide)) (by decide)
      (mappages_first_page (page 2) heapPerm),
    uvmallocLoop_run_done (by decide)]
  rfl

theorem heapChildRoot_run : (uvmcreate 0).run heapState = .ok (page 5, heapChildRootState) :=
  uvmcreate_run (kalloc_run_at (by decide) (by decide) (by decide)
    (by decide) (by decide)) (by decide)

theorem cowFork_run :
    (uvmcopy 0 (page 1) (page 5) PGSIZE).run heapChildRootState = .ok (0, cowForkState) := by
  have hwalk : (walk 0 (page 5) 0 true).run heapChildRootState =
      .ok (pteAddr (page 7) 0 0, _) :=
    walk_run_of_levels (by decide)
    (walkLevel_run_new (by decide) (kalloc_run_at (r := page 6) (by decide)
      (by decide) (by decide) (by decide) (by decide)) (by decide))
    (walkLevel_run_new (by decide) (kalloc_run_at (r := page 7) (by decide)
      (by decide) (by decide) (by decide) (by decide)) (by decide))
  have hmap : (mappages 0 (page 5) 0 PGSIZE (page 2)
      ((heapPerm ||| PTE_V) &&& bnot64 PTE_W ||| PTE_COW)).run heapChildRootState =
        .ok (0, heapChildMapState) := by
    rw [mappages_page (by decide) (by decide), StateT.run_bind, mappagesPage_run hwalk,
      if_neg (by decide), if_neg (by decide), ok_bind]
    rfl
  have hpage : (uvmcopyPage 0 (page 1) (page 5) 0).run heapChildRootState = _ :=
    uvmcopyPage_run_cow (by decide) (by decide) (by decide) (by decide)
      (by decide) (by decide) hmap (addPageRef_run 1 (by decide) (by decide)) (by decide)
  have hw : walkPte heapChildRootState.mem (page 1) 0 = pteAddr (page 4) 0 0 := by decide
  rw [hw] at hpage
  rw [uvmcopy, show (PGSIZE + PGSIZE - 1) / PGSIZE = 0 + 1 from rfl, uvmcopyLoop_run_succ hpage]
  rfl

/-- The child's `copyout` to 0: the page is shared and copy-on-write, and `kalloc` has no
page for the copy, so the handler answers -1 and `copyout` gives up with nothing changed. -/
theorem cowFork_copyout_run :
    (copyout 0 ⟨page 5, PGSIZE, 0⟩ (page 5) 0 KERNBASE 1).run cowForkState =
      .ok (-1, cowForkState) := by
  have hk : (kalloc 0).run cowForkState = .ok (0, cowForkState) := kalloc_run_empty (by decide)
  have hrc : cowForkState.refCount
      (PTE2PA (read64 cowForkState.mem (walkPte cowForkState.mem (page 5) (PGROUNDDOWN 0)))) =
        2 := by decide
  have hcow : (cowPagefaultHandler 0 (page 5) (PGROUNDDOWN 0)).run cowForkState =
      .ok (-1, cowForkState) :=
    cowPagefaultHandler_run_noMem (c := 2) (by decide) (by decide) (by decide) (by decide)
      (by rw [getPageRef_run, if_neg (by decide), hrc]) (by decide) hk
  exact copyout_run_unprepared (by decide) (by decide)
    (copyoutPrepare_run_of_fail hcow (by decide) (by decide))

end Xv6
