import Xv6.Kernel.ProcTree

/-! `kill(pid)` and the `killed` flag across the reuse of slots. `kill` compares `pid` with
the pid of every slot, `UNUSED` ones included, and `freeproc` leaves a free slot with pid 0
and `killed` cleared; `allocproc` then sets the pid and the state of the slot it takes, but
not its `killed` flag. -/
namespace Xv6

section Kill

variable (t : PTable) (pid : Int)

/-- `kill` answers 0 exactly when some slot, in whatever state, holds `pid`. -/
theorem kill_ret_eq_zero_iff : (kill t pid).2 = 0 ↔ ∃ i, ((t.proc i).pid : Int) = pid := by
  unfold kill
  cases hf : (List.finRange NPROC).find? (fun i => ((t.proc i).pid : Int) = pid) with
  | some i =>
    have hi : ((t.proc i).pid : Int) = pid := by simpa using List.find?_some hf
    exact ⟨fun _ => ⟨i, hi⟩, fun _ => rfl⟩
  | none =>
    have hnone := List.find?_eq_none.mp hf
    refine ⟨fun h => absurd h (by simp), fun ⟨i, hi⟩ => ?_⟩
    exact absurd (by simpa using hi) (hnone i (List.mem_finRange i))

/-- The slot `kill` acts on is the first that holds `pid`; it gets `killed` set and is woken
if it sleeps, and no other slot changes. -/
theorem kill_of_find {i : Fin NPROC}
    (hf : (List.finRange NPROC).find? (fun i => ((t.proc i).pid : Int) = pid) = some i) :
    kill t pid = (t.set i fun p => { p with
      killed := true
      state := if p.state = .SLEEPING then .RUNNABLE else p.state }, 0) := by
  unfold kill
  rw [hf]

end Kill

/-- `allocproc` keeps the `killed` flag of the slot it takes. -/
theorem allocproc_killed {t : PTable} {i : Fin NPROC} (h : allocSlot t = some i) :
    ((allocproc t true).1.proc i).killed = (t.proc i).killed := by
  simp [allocproc, h, PTable.set]

/-- The table after `userinit` and `kill(0)`: no process has pid 0, but the free slot 1 does. -/
def killedFree : PTable := (kill (userinit procinit) 0).1

/-- `initproc`, scheduled, runs `fork` to its end: the child is slot 1, the free slot that
`kill(0)` marked. -/
def killedChild : PTable :=
  let t := (forkAlloc (schedule killedFree 0) 0 true true).1
  (forkRun (forkLink t 0 1) 0 1).1

theorem killedFree_proc_zero : killedFree.proc 0 = (userinit procinit).proc 0 := by
  have hf : (List.finRange NPROC).find?
      (fun i => (((userinit procinit).proc i).pid : Int) = 0) = some 1 := by decide
  rw [killedFree, kill_of_find _ _ hf]
  dsimp only
  rw [PTable.set_proc_of_ne _ _ _ _ (show (0 : Fin NPROC) ≠ 1 by decide)]

theorem killedChild_reachable : PReach killedChild := by
  have hsched : (killedFree.proc 0).state = .RUNNABLE := by
    rw [killedFree_proc_zero, userinit_proc_zero]
  have h₁ : PReach (schedule killedFree 0) := .step (.step .boot (.kill 0)) (.schedule hsched)
  have h₂ : PReach (forkAlloc (schedule killedFree 0) 0 true true).1 :=
    .step h₁ (.forkAlloc true true (by simp [schedule]) (by
      simp [schedule, killedFree_proc_zero, userinit_proc_zero, Proc.unused]))
  have h₃ : PReach (forkLink (forkAlloc (schedule killedFree 0) 0 true true).1 0 1) :=
    .step h₂ (.forkLink (by decide) (by decide))
  exact .step h₃ (.forkRun (by decide) (by decide))

theorem killedFree_proc_one_killed : (killedFree.proc 1).killed = true := by
  have hf : (List.finRange NPROC).find?
      (fun i => (((userinit procinit).proc i).pid : Int) = 0) = some 1 := by decide
  rw [killedFree, kill_of_find _ _ hf, PTable.set_proc_self]

/-- The child of the `fork` takes slot 1 with the flag `kill(0)` set while it was free. -/
theorem killedChild_proc_one_killed : (killedChild.proc 1).killed = true := by
  have hslot : allocSlot (schedule killedFree 0) = some 1 := by decide
  obtain ⟨t', ht'⟩ : ∃ t', allocproc (schedule killedFree 0) true = (t', some 1) :=
    ⟨_, Prod.ext rfl (by simp [allocproc, hslot])⟩
  have h10 : (1 : Fin NPROC) ≠ 0 := by decide
  calc (killedChild.proc 1).killed
      = (t'.proc 1).killed := by
        simp [killedChild, forkAlloc, ht', forkLink, forkRun, PTable.set_proc_of_ne _ _ _ _ h10]
    _ = ((schedule killedFree 0).proc 1).killed := by rw [← allocproc_killed hslot, ht']
    _ = true := by rw [schedule, PTable.set_proc_of_ne _ _ _ _ h10, killedFree_proc_one_killed]

/-- After boot no process has pid 0; `kill(0)` still returns 0, and marks the free slot 1
killed. `initproc` then forks, and its child, in slot 1, starts out runnable with
`killed` already set: it is killed at its first trap, by a `kill` issued before it
existed. -/
theorem kill_zero_marks_fork_child :
    PReach (userinit procinit) ∧
      (∀ i, ((userinit procinit).proc i).state ≠ .UNUSED → ((userinit procinit).proc i).pid ≠ 0) ∧
      (kill (userinit procinit) 0).2 = 0 ∧
      (killedFree.proc 1).state = .UNUSED ∧ (killedFree.proc 1).killed = true ∧
      PReach killedChild ∧ (killedChild.proc 1).state = .RUNNABLE ∧
      (killedChild.proc 1).parent = some 0 ∧ (killedChild.proc 1).killed = true := by
  have hlive : ∀ i, ((userinit procinit).proc i).state ≠ .UNUSED →
      ((userinit procinit).proc i).pid ≠ 0 := by
    intro i hi
    by_cases h0 : i = 0
    · subst h0
      rw [userinit_proc_zero]
      decide
    · rw [userinit_proc_of_ne h0] at hi
      exact absurd rfl hi
  exact ⟨.boot, hlive, (kill_ret_eq_zero_iff _ _).mpr ⟨1, by decide⟩, by decide,
    killedFree_proc_one_killed, killedChild_reachable, by decide, by decide,
    killedChild_proc_one_killed⟩

end Xv6
