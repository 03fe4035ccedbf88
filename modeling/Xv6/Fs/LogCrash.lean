import Mathlib.Data.List.Nodup
import Xv6.Fs.Log
/-! Crash atomicity of the log. A crash keeps the disk and loses memory; the next boot runs
`recover_from_log`, which may crash too. `Disk.recovered` is what a recovery leaves in the
home blocks; it does not change when a recovery is cut short and started again, and after a
cut inside `commit` it is the home blocks before the transaction, up to the commit point,
and after it from then on. Over a whole run of interleaved file-system calls the
transactions that commits close are runs of whole calls, since a commit happens only when
no call is outstanding. -/
namespace Xv6

variable {β : Type}

namespace Disk

@[simp] theorem writeAll_nil (d : Disk β) : d.writeAll [] = d := rfl

theorem writeAll_append (d : Disk β) (ws vs : List (DiskWrite β)) :
    d.writeAll (ws ++ vs) = (d.writeAll ws).writeAll vs :=
  List.foldl_append

theorem writeAll_homes (d : Disk β) (ws : List (Nat × β)) :
    d.writeAll (ws.map fun w => .home w.1 w.2) = { d with home := Writes.apply d.home ws } := by
  induction ws generalizing d with
  | nil => rfl
  | cons w ws ih => exact ih _

theorem writeAll_slots (d : Disk β) (ws : List (Nat × β)) :
    d.writeAll (ws.map fun w => .slot w.1 w.2) = { d with slot := Writes.apply d.slot ws } := by
  induction ws generalizing d with
  | nil => rfl
  | cons w ws ih => exact ih _

/-- The home blocks a recovery of `d` leaves: each log block installed where the header
says. A clean header leaves the home blocks as they are. -/
def recovered (d : Disk β) : Nat → β :=
  Writes.apply d.home (d.head.mapIdx fun i b => (b, d.slot i))

theorem recovered_of_clean {d : Disk β} (h : d.head = []) : d.recovered = d.home := by
  rw [recovered, h]
  rfl

end Disk

private theorem mapIdx_take {γ δ : Type} (f : Nat → γ → δ) (l : List γ) (k : Nat) :
    (l.mapIdx f).take k = (l.take k).mapIdx f :=
  List.ext_getElem (by simp) fun i h₁ h₂ => by simp

theorem writeLog_eq (cache : Nat → β) (lh : List Nat) :
    writeLog cache lh = ((List.range lh.length).map fun i => (i, cache (lh.getD i 0))).map
      fun w => .slot w.1 w.2 :=
  List.ext_getElem (by simp [writeLog]) fun i h₁ h₂ => by
    have hi : i < lh.length := by simpa [writeLog] using h₁
    simp [writeLog, List.getElem?_eq_getElem hi]

theorem installTrans_eq (slot : Nat → β) (lh : List Nat) :
    installTrans slot lh = (lh.mapIdx fun i b => (b, slot i)).map fun w => .home w.1 w.2 :=
  List.ext_getElem (by simp [installTrans]) fun i h₁ h₂ => by simp [installTrans]

/-- The log blocks after `write_log`: the `i`-th holds the cached copy of the `i`-th
logged block. -/
theorem writeLog_slot (d : Disk β) (cache : Nat → β) (lh : List Nat) :
    (d.writeAll (writeLog cache lh)).slot =
      fun i => if i < lh.length then cache (lh.getD i 0) else d.slot i := by
  rw [writeLog_eq, Disk.writeAll_slots]
  funext i
  simp only [Writes.apply_map_self (f := fun i => cache (lh.getD i 0)), List.mem_range]

/-- Installing log blocks that hold the cached copies installs the cached copies. -/
theorem installs_of_slot {slot cache : Nat → β} {lh : List Nat}
    (h : ∀ i, i < lh.length → slot i = cache (lh.getD i 0)) :
    lh.mapIdx (fun i b => (b, slot i)) = lh.map fun b => (b, cache b) :=
  List.ext_getElem (by simp) fun i h₁ h₂ => by
    have hi : i < lh.length := by simpa using h₁
    simp [h i hi, List.getElem?_eq_getElem hi]

theorem recover_run (d : Disk β) :
    d.writeAll (recoverFromLog d) = { d with home := d.recovered, head := [] } := by
  rw [recoverFromLog, Disk.writeAll_append, installTrans_eq, Disk.writeAll_homes]
  rfl

/-- A recovery cut short leaves a disk that recovers to the same home blocks: it has
installed some of the log and not yet cleared the header, or it has finished. -/
theorem recovered_take (d : Disk β) (k : Nat) :
    (d.writeAll ((recoverFromLog d).take k)).recovered = d.recovered := by
  by_cases hk : k ≤ d.head.length
  · have hlen : (installTrans d.slot d.head).length = d.head.length := by simp [installTrans]
    rw [recoverFromLog, List.take_append_of_le_length (by omega), installTrans_eq,
      ← List.map_take, Disk.writeAll_homes, Disk.recovered, Disk.recovered]
    exact Writes.apply_take_apply _ _ _
  · rw [List.take_of_length_le (by simp [recoverFromLog, installTrans]; omega), recover_run,
      Disk.recovered_of_clean rfl]

/-- A boot's recovery: some runs of `recover_from_log` cut short by a crash, then one that
completes. -/
inductive RecoveryRun : Disk β → Disk β → Prop
  | done (d : Disk β) : RecoveryRun d (d.writeAll (recoverFromLog d))
  | crash (d : Disk β) (k : Nat) {d' : Disk β} :
      RecoveryRun (d.writeAll ((recoverFromLog d).take k)) d' → RecoveryRun d d'

/-- However often it is cut short, recovery ends with a clean header and the home blocks
`Disk.recovered` names. -/
theorem RecoveryRun.result {d d' : Disk β} (h : RecoveryRun d d') :
    d'.head = [] ∧ d'.home = d.recovered := by
  induction h with
  | done d =>
    rw [recover_run]
    exact ⟨rfl, rfl⟩
  | crash d k _ ih =>
    rw [recovered_take] at ih
    exact ih

/-! ### A crash inside `commit` -/

section Commit

variable {d : Disk β} {cache : Nat → β} {lh : List Nat}

/-- The writes of a nonempty commit, in their four parts. -/
private theorem commit_eq (hn : lh ≠ []) :
    commit d cache lh = writeLog cache lh ++ [writeHead lh] ++
      installTrans (d.writeAll (writeLog cache lh)).slot lh ++ [writeHead []] := by
  rw [commit, if_pos (List.length_pos_iff.mpr hn)]

/-- The blocks a commit installs are the cached copies of the logged blocks. -/
private theorem commit_installs :
    lh.mapIdx (fun i b => (b, (d.writeAll (writeLog cache lh)).slot i)) =
      lh.map fun b => (b, cache b) :=
  installs_of_slot fun i hi => by
    rw [writeLog_slot]
    exact if_pos hi

/-- The disk at the commit point: the log blocks written, the header naming them. -/
private theorem commit_point :
    d.writeAll (writeLog cache lh ++ [writeHead lh]) =
      { d with slot := (d.writeAll (writeLog cache lh)).slot, head := lh } := by
  rw [Disk.writeAll_append, writeLog_eq, Disk.writeAll_slots]
  rfl

variable (hagree : ∀ b, b ∉ lh → cache b = d.home b)
include hagree

/-- Outside the logged blocks the cache holds the disk's blocks, so installing the logged
blocks gives the cache. -/
private theorem apply_installs : Writes.apply d.home (lh.map fun b => (b, cache b)) = cache := by
  funext b
  rw [Writes.apply_map_self]
  split_ifs with hb
  · rfl
  · exact (hagree b hb).symm

variable (hclean : d.head = [])
include hclean

/-- A commit that runs to its end leaves the header clean and the cache in the home blocks. -/
theorem commit_run :
    (d.writeAll (commit d cache lh)).head = [] ∧ (d.writeAll (commit d cache lh)).home = cache := by
  by_cases hn : lh = []
  · have hc : cache = d.home := funext fun b => hagree b (by simp [hn])
    rw [commit, if_neg (by simp [hn]), Disk.writeAll_nil, hc]
    exact ⟨hclean, rfl⟩
  rw [commit_eq hn, installTrans_eq, commit_installs, Disk.writeAll_append, Disk.writeAll_append,
    commit_point, Disk.writeAll_homes]
  exact ⟨rfl, apply_installs hagree⟩

/-- A crash after `k` of a commit's writes leaves a disk that recovers to the home blocks
before the transaction if the header was not yet written, and to the cache after it. -/
theorem commit_crash (k : Nat) :
    (d.writeAll ((commit d cache lh).take k)).recovered =
      if k ≤ lh.length then d.home else cache := by
  by_cases hn : lh = []
  · -- an empty transaction writes nothing, and its cache is the disk
    have hc : cache = d.home := funext fun b => hagree b (by simp [hn])
    rw [commit, if_neg (by simp [hn]), List.take_nil, Disk.writeAll_nil,
      Disk.recovered_of_clean hclean, hc, ite_self]
  have hL : (writeLog cache lh ++ [writeHead lh]).length = lh.length + 1 := by simp [writeLog]
  have hI : installTrans (d.writeAll (writeLog cache lh)).slot lh =
      (lh.map fun b => (b, cache b)).map fun w => .home w.1 w.2 := by
    rw [installTrans_eq, commit_installs]
  rw [commit_eq hn, hI]
  by_cases hk : k ≤ lh.length
  · -- inside `write_log`: the header is still clean
    rw [if_pos hk, List.append_assoc, List.append_assoc, List.take_append_of_le_length (by simp [writeLog]; omega),
      writeLog_eq, ← List.map_take, Disk.writeAll_slots]
    exact Disk.recovered_of_clean hclean
  rw [if_neg hk]
  by_cases hk' : k ≤ 2 * lh.length + 1
  · -- after the commit point, with `j` blocks installed: installing all of them again
    obtain ⟨j, rfl⟩ : ∃ j, k = lh.length + 1 + j := ⟨k - lh.length - 1, by omega⟩
    rw [List.take_append_of_le_length (by simp [writeLog]; omega), ← hL, List.take_length_add_append,
      Disk.writeAll_append, commit_point, ← List.map_take, Disk.writeAll_homes, Disk.recovered]
    dsimp only
    rw [commit_installs, Writes.apply_take_apply, apply_installs hagree]
  · -- the commit finished: the header is clean again and the blocks are home
    have hrun := commit_run hagree hclean
    rw [commit_eq hn, hI] at hrun
    rw [List.take_of_length_le (by simp [writeLog]; omega), Disk.recovered_of_clean hrun.1]
    exact hrun.2

end Commit

/-! ### Runs of file-system calls -/

/-- The block write an event makes. -/
def LogEvent.written : LogEvent β → Option (Nat × β)
  | .write _ b v => some (b, v)
  | _ => none

/-- The block writes of the events `tr`, in order. -/
def eventWrites (tr : List (LogEvent β)) : List (Nat × β) := tr.filterMap LogEvent.written

/-- The processes inside a file-system call after the events `tr`, from those in `o`:
`none` when a process begins a call inside another, or writes or ends outside one. -/
def openAfter : List Nat → List (LogEvent β) → Option (List Nat)
  | o, [] => some o
  | o, .begin p :: tr => if p ∈ o then none else openAfter (p :: o) tr
  | o, .write p _ _ :: tr => if p ∈ o then openAfter o tr else none
  | o, .finish p :: tr => if p ∈ o then openAfter (o.erase p) tr else none

theorem openAfter_append (o : List Nat) (tr₁ tr₂ : List (LogEvent β)) :
    openAfter o (tr₁ ++ tr₂) = (openAfter o tr₁).bind fun o' => openAfter o' tr₂ := by
  induction tr₁ generalizing o with
  | nil => rfl
  | cons e tr₁ ih =>
    cases e <;> simp only [List.cons_append, openAfter] <;> split_ifs <;> simp [ih]

/-- A run that keeps to the discipline does so up to each of its events. -/
theorem openAfter_snoc {o : List Nat} {pre tr : List (LogEvent β)} {e : LogEvent β}
    (h : openAfter o (pre ++ e :: tr) ≠ none) : openAfter o (pre ++ [e]) ≠ none := by
  intro h'
  rw [← List.singleton_append, ← List.append_assoc, openAfter_append, h'] at h
  exact h rfl

theorem eventWrites_append (tr₁ tr₂ : List (LogEvent β)) :
    eventWrites (tr₁ ++ tr₂) = eventWrites tr₁ ++ eventWrites tr₂ :=
  List.filterMap_append

theorem beginOp_some {s l : Log β} (h : beginOp s = some l) :
    l = { s with outstanding := s.outstanding + 1 } := by
  unfold beginOp at h
  split_ifs at h
  exact (Option.some.inj h).symm

theorem endOp_of_eq {s : Log β} {d : Disk β} (h : s.outstanding - 1 = 0) :
    endOp s d = ({ s with outstanding := 0, lh := [] }, commit d s.cache s.lh) :=
  if_pos h

theorem endOp_of_ne {s : Log β} {d : Disk β} (h : s.outstanding - 1 ≠ 0) :
    endOp s d = ({ s with outstanding := s.outstanding - 1 }, []) :=
  if_neg h

/-- A write that `log_write` accepts: the cache takes the block, and the header takes its
number unless the transaction already has it. -/
theorem writeBlock_ok {size b : Nat} {v : β} {s l : Log β} (h : writeBlock size s b v = .ok l) :
    l = { cache := Function.update s.cache b v,
          lh := if b ∈ s.lh then s.lh else s.lh ++ [b], outstanding := s.outstanding } := by
  unfold writeBlock logWrite at h
  simp only at h
  by_cases h₁ : s.lh.length ≥ LOGSIZE ∨ s.lh.length ≥ size - 1
  · rw [if_pos h₁] at h
    cases h
  by_cases h₂ : s.outstanding < 1
  · rw [if_neg h₁, if_pos h₂] at h
    cases h
  rw [if_neg h₁, if_neg h₂] at h
  by_cases hb : b ∈ s.lh
  · -- absorbed: the entry at `b`'s index is rewritten with `b`
    have hi : s.lh.idxOf b < s.lh.length := List.idxOf_lt_length_iff.mpr hb
    rw [if_neg (Nat.ne_of_lt hi)] at h
    cases h
    have hset : s.lh.set (s.lh.idxOf b) b = s.lh := by
      have h' := List.set_getElem_self hi
      rwa [List.getElem_idxOf hi] at h'
    rw [if_pos hb, hset]
  · rw [if_pos (List.idxOf_eq_length hb)] at h
    cases h
    rw [if_neg hb]

/-- Between events: every committed transaction installed and the header clean; the
running transaction `pre` with its blocks once each in `lh` and its writes in the cache
over the committed blocks `A`; one outstanding operation for each process inside a call. -/
structure LogInv (s : LogSys β) (A : Nat → β) (pre : List (LogEvent β)) : Prop where
  clean : s.disk.head = []
  home : s.disk.home = A
  nodup : s.log.lh.Nodup
  mem_lh : ∀ b, b ∈ s.log.lh ↔ b ∈ (eventWrites pre).map Prod.fst
  cache : s.log.cache = Writes.apply A (eventWrites pre)
  opens : ∃ o, openAfter [] pre = some o ∧ o.length = s.log.outstanding

namespace LogInv

variable {s : LogSys β} {A : Nat → β} {pre : List (LogEvent β)}

/-- The open processes after `pre` extended by one event that keeps to the discipline. -/
private theorem opens_snoc (hi : LogInv s A pre) {e : LogEvent β}
    (hwf : openAfter [] (pre ++ [e]) ≠ none) :
    ∃ o, openAfter [] pre = some o ∧ o.length = s.log.outstanding ∧ openAfter o [e] ≠ none := by
  obtain ⟨o, ho, hlen⟩ := hi.opens
  refine ⟨o, ho, hlen, ?_⟩
  rwa [openAfter_append, ho, Option.bind_some] at hwf

/-- Outside the logged blocks the cache holds the disk's blocks. -/
theorem agree (hi : LogInv s A pre) : ∀ b, b ∉ s.log.lh → s.log.cache b = s.disk.home b := by
  intro b hb
  rw [hi.cache, hi.home, Writes.apply_of_not_mem]
  rwa [← hi.mem_lh]

theorem begin_step (hi : LogInv s A pre) {l : Log β} {p : Nat} (hl : beginOp s.log = some l)
    (hwf : openAfter [] (pre ++ [.begin p]) ≠ none) :
    LogInv ⟨s.disk, l⟩ A (pre ++ [.begin p]) := by
  obtain rfl := beginOp_some hl
  obtain ⟨o, ho, hlen, hp⟩ := hi.opens_snoc hwf
  have hpo : p ∉ o := fun h => hp (by simp [openAfter, h])
  have hw : eventWrites (pre ++ [.begin p]) = eventWrites pre := by
    simp [eventWrites, LogEvent.written]
  refine ⟨hi.clean, hi.home, hi.nodup, ?_, ?_, ⟨p :: o, ?_, ?_⟩⟩
  · rw [hw]
    exact hi.mem_lh
  · rw [hw]
    exact hi.cache
  · rw [openAfter_append, ho]
    simp [openAfter, hpo]
  · simp [hlen]

theorem write_step {size : Nat} (hi : LogInv s A pre) {l : Log β} {p b : Nat} {v : β}
    (hl : writeBlock size s.log b v = .ok l) (hwf : openAfter [] (pre ++ [.write p b v]) ≠ none) :
    LogInv ⟨s.disk, l⟩ A (pre ++ [.write p b v]) := by
  obtain rfl := writeBlock_ok hl
  obtain ⟨o, ho, hlen, hp⟩ := hi.opens_snoc hwf
  have hpo : p ∈ o := by
    by_contra h
    exact hp (by simp [openAfter, h])
  have hw : eventWrites (pre ++ [.write p b v]) = eventWrites pre ++ [(b, v)] := by
    simp [eventWrites, LogEvent.written]
  refine ⟨hi.clean, hi.home, ?_, fun c => ?_, ?_, ⟨o, ?_, hlen⟩⟩
  · -- absorption keeps the numbers distinct
    dsimp only
    split_ifs with hb
    · exact hi.nodup
    · refine List.nodup_append.mpr ⟨hi.nodup, List.nodup_singleton b, ?_⟩
      intro a ha c hc hac
      rw [List.mem_singleton] at hc
      exact hb (hc ▸ hac ▸ ha)
  · dsimp only
    rw [hw, List.map_append, List.mem_append, ← hi.mem_lh]
    split_ifs with hb
    · simp only [List.map_cons, List.map_nil, List.mem_singleton]
      constructor
      · exact Or.inl
      · rintro (h | rfl)
        · exact h
        · exact hb
    · simp
  · rw [hw, Writes.apply_append, ← hi.cache]
    rfl
  · rw [openAfter_append, ho]
    simp [openAfter, hpo]

/-- An `end_op` that leaves operations outstanding changes only the count. -/
theorem finish_step (hi : LogInv s A pre) {p : Nat}
    (hwf : openAfter [] (pre ++ [.finish p]) ≠ none) :
    LogInv ⟨s.disk, { s.log with outstanding := s.log.outstanding - 1 }⟩ A (pre ++ [.finish p]) := by
  obtain ⟨o, ho, hlen, hp⟩ := hi.opens_snoc hwf
  have hpo : p ∈ o := by
    by_contra h
    exact hp (by simp [openAfter, h])
  have hw : eventWrites (pre ++ [.finish p]) = eventWrites pre := by
    simp [eventWrites, LogEvent.written]
  refine ⟨hi.clean, hi.home, hi.nodup, ?_, ?_, ⟨o.erase p, ?_, ?_⟩⟩
  · rw [hw]
    exact hi.mem_lh
  · rw [hw]
    exact hi.cache
  · rw [openAfter_append, ho]
    simp [openAfter, hpo]
  · rw [List.length_erase_of_mem hpo, hlen]

/-- The `end_op` of the last outstanding operation: no process is inside a call, so the
events since the last commit are whole calls; the commit installs the cache and starts an
empty transaction. -/
theorem commit_step (hi : LogInv s A pre) {p : Nat} (hc : s.log.outstanding - 1 = 0)
    (hwf : openAfter [] (pre ++ [.finish p]) ≠ none) :
    openAfter [] (pre ++ [.finish p]) = some [] ∧
      LogInv ⟨s.disk.writeAll (commit s.disk s.log.cache s.log.lh),
        { s.log with outstanding := 0, lh := [] }⟩ s.log.cache [] := by
  obtain ⟨o, ho, hlen, hp⟩ := hi.opens_snoc hwf
  have hpo : p ∈ o := by
    by_contra h
    exact hp (by simp [openAfter, h])
  have hnil : o.erase p = [] := by
    rw [← List.length_eq_zero_iff, List.length_erase_of_mem hpo, hlen]
    exact hc
  have hrun := commit_run hi.agree hi.clean
  refine ⟨?_, hrun.1, hrun.2, List.nodup_nil, fun b => by simp [eventWrites], rfl, ⟨[], rfl, rfl⟩⟩
  rw [openAfter_append, ho]
  simp [openAfter, hpo, hnil]

end LogInv

/-- Over a run from a state of the invariant, a crash after any number `j` of the run's disk
writes leaves a disk that recovers to the committed blocks `A` with the writes of some
leading transactions applied, each a stretch of the events with no call open at its ends. -/
theorem LogRun.recovers {size : Nat} {s t : LogSys β} {tr : List (LogEvent β)}
    {ws : List (DiskWrite β)} (hrun : LogRun size s tr t ws) :
    ∀ {A : Nat → β} {pre : List (LogEvent β)}, LogInv s A pre →
      openAfter [] (pre ++ tr) ≠ none → ∀ j,
      ∃ (segs : List (List (LogEvent β))) (rest : List (LogEvent β)),
        pre ++ tr = segs.flatten ++ rest ∧
        (∀ seg ∈ segs, openAfter [] seg = some []) ∧
        (s.disk.writeAll (ws.take j)).recovered = Writes.apply A (eventWrites segs.flatten) := by
  induction hrun with
  | nil s =>
    intro A pre hi _ j
    refine ⟨[], pre, by simp, by simp, ?_⟩
    rw [List.take_nil, Disk.writeAll_nil, Disk.recovered_of_clean hi.clean, hi.home]
    rfl
  | @begin s t l p tr ws hl _ ih =>
    intro A pre hi hwf j
    obtain ⟨segs, rest, htr, hseg, hrec⟩ := ih (hi.begin_step hl (openAfter_snoc hwf))
      (by rwa [List.append_assoc, List.singleton_append]) j
    exact ⟨segs, rest, by rwa [List.append_assoc, List.singleton_append] at htr, hseg, hrec⟩
  | @write s t l p b v tr ws hl _ ih =>
    intro A pre hi hwf j
    obtain ⟨segs, rest, htr, hseg, hrec⟩ := ih (hi.write_step hl (openAfter_snoc hwf))
      (by rwa [List.append_assoc, List.singleton_append]) j
    exact ⟨segs, rest, by rwa [List.append_assoc, List.singleton_append] at htr, hseg, hrec⟩
  | @finish s t p tr ws _ ih =>
    intro A pre hi hwf j
    by_cases hc : s.log.outstanding - 1 = 0
    case neg =>
      rw [endOp_of_ne hc] at ih ⊢
      obtain ⟨segs, rest, htr, hseg, hrec⟩ := ih (hi.finish_step (openAfter_snoc hwf))
        (by rwa [List.append_assoc, List.singleton_append]) j
      refine ⟨segs, rest, by rwa [List.append_assoc, List.singleton_append] at htr, hseg, ?_⟩
      rw [List.nil_append]
      exact hrec
    case pos =>
      -- the last operation ends and commits: the events so far are one transaction
      obtain ⟨hclosed, hi'⟩ := hi.commit_step hc (openAfter_snoc hwf)
      rw [endOp_of_eq hc] at ih ⊢
      have hw : eventWrites (pre ++ [.finish p]) = eventWrites pre := by
        simp [eventWrites, LogEvent.written]
      by_cases hj : j ≤ (commit s.disk s.log.cache s.log.lh).length
      · -- the crash falls inside the commit
        rw [List.take_append_of_le_length hj, commit_crash hi.agree hi.clean]
        by_cases hk : j ≤ s.log.lh.length
        · rw [if_pos hk]
          exact ⟨[], pre ++ .finish p :: tr, by simp, by simp, hi.home⟩
        · rw [if_neg hk]
          refine ⟨[pre ++ [.finish p]], tr, by simp, by simpa using hclosed, ?_⟩
          rw [List.flatten_singleton, hw, hi.cache]
      · -- the crash falls after it, in the rest of the run from the committed state
        have hrest : openAfter [] ([] ++ tr) ≠ none := by
          rwa [← List.singleton_append, ← List.append_assoc, openAfter_append, hclosed,
            Option.bind_some] at hwf
        obtain ⟨i, rfl⟩ : ∃ i, j = (commit s.disk s.log.cache s.log.lh).length + i :=
          ⟨j - (commit s.disk s.log.cache s.log.lh).length, by omega⟩
        obtain ⟨segs, rest, htr, hseg, hrec⟩ := ih hi' hrest i
        refine ⟨(pre ++ [.finish p]) :: segs, rest, ?_, ?_, ?_⟩
        · rw [List.flatten_cons, List.append_assoc, ← htr]
          simp
        · intro seg hs
          rcases List.mem_cons.mp hs with rfl | hs
          · exact hclosed
          · exact hseg seg hs
        · rw [List.take_length_add_append, Disk.writeAll_append, List.flatten_cons,
            eventWrites_append, Writes.apply_append, hw, ← hi.cache]
          exact hrec

/-- Crash atomicity of the log. From a disk with a clean header and the log as `initlog`
leaves it, take any interleaving of file-system calls that keeps to `begin_op`, writes,
`end_op`, and a crash after any `j` of the disk writes it issued. Every recovery of that
disk, however often it crashes itself, ends with a clean header and the home blocks of
the start with the writes of some leading transactions applied in order, each transaction
a stretch of whole calls. -/
theorem log_crash_atomic {size : Nat} {d₀ : Disk β} (h₀ : d₀.head = []) {tr : List (LogEvent β)}
    (hwf : openAfter [] tr ≠ none) {t : LogSys β} {ws : List (DiskWrite β)}
    (hrun : LogRun size ⟨d₀, logInit d₀⟩ tr t ws) (j : Nat) :
    ∃ (segs : List (List (LogEvent β))) (rest : List (LogEvent β)), tr = segs.flatten ++ rest ∧
      (∀ seg ∈ segs, openAfter [] seg = some []) ∧
      ∀ d, RecoveryRun (d₀.writeAll (ws.take j)) d →
        d.head = [] ∧ d.home = Writes.apply d₀.home (eventWrites segs.flatten) := by
  have hi : LogInv ⟨d₀, logInit d₀⟩ d₀.home [] :=
    ⟨h₀, rfl, List.nodup_nil, fun b => by simp [logInit, eventWrites], rfl, ⟨[], rfl, rfl⟩⟩
  obtain ⟨segs, rest, htr, hseg, hrec⟩ := hrun.recovers hi (by rwa [List.nil_append]) j
  refine ⟨segs, rest, by rwa [List.nil_append] at htr, hseg, fun d hd => ?_⟩
  obtain ⟨hclean, hhome⟩ := hd.result
  exact ⟨hclean, hhome.trans hrec⟩

/-- One call writing 7 to block 5 of a zeroed disk, cut after two of its commit's writes:
the log block and the header, the commit point. -/
theorem log_crash_atomic_at_commit_point :
    ∃ (segs : List (List (LogEvent Nat))) (rest : List (LogEvent Nat)),
      [.begin 1, .write 1 5 7, .finish 1] = segs.flatten ++ rest ∧
      (∀ seg ∈ segs, openAfter [] seg = some []) ∧
      ∀ d, RecoveryRun ((⟨fun _ => 0, fun _ => 0, []⟩ : Disk Nat).writeAll
          ((commit ⟨fun _ => 0, fun _ => 0, []⟩ (Function.update (fun _ => 0) 5 7) [5]).take 2)) d →
        d.head = [] ∧ d.home = Writes.apply (fun _ => 0) (eventWrites segs.flatten) :=
  @log_crash_atomic Nat 31 _ rfl _ (by decide) _ _
    (LogRun.begin rfl (LogRun.write rfl (LogRun.finish (LogRun.nil _)))) 2

end Xv6

