import Xv6.Fs.LogCrash

/-! The log's admission control against the size of the log. `begin_op` admits an
operation while `MAXOPBLOCKS` blocks for each outstanding one still fit in `LOGSIZE`, but
`log_write` refuses the header's `log.size - 1`-th block: with `mkfs`'s `nlog = LOGSIZE`
the log holds one block fewer than admission reserves. -/
namespace Xv6

variable {β : Type}

theorem beginOp_of_le {s : Log β} (h : s.lh.length + (s.outstanding + 1) * MAXOPBLOCKS ≤ LOGSIZE) :
    beginOp s = some { s with outstanding := s.outstanding + 1 } :=
  if_neg (Nat.not_lt.mpr h)

/-- `log_write` of a block new to the transaction, with room before both bounds. -/
theorem logWrite_fresh {size b : Nat} {s : Log β} (h₁ : s.lh.length < LOGSIZE)
    (h₂ : s.lh.length < size - 1) (h₃ : 1 ≤ s.outstanding) (hb : b ∉ s.lh) :
    logWrite size s b = .ok { s with lh := s.lh ++ [b] } := by
  unfold logWrite
  simp only
  rw [if_neg (by omega), if_neg (by omega), if_pos (List.idxOf_eq_length hb)]
  rfl

/-- `log_write` with `log.size - 1` blocks in the header panics, whatever the block. -/
theorem logWrite_full {size b : Nat} {s : Log β} (h : size - 1 ≤ s.lh.length) :
    logWrite size s b = .error "too big a transaction" := by
  unfold logWrite
  simp only
  rw [if_pos (.inr h)]
  rfl

theorem LogRun.append {size : Nat} {s t u : LogSys β} {tr₁ tr₂ : List (LogEvent β)}
    {ws₁ ws₂ : List (DiskWrite β)} (h₁ : LogRun size s tr₁ t ws₁) (h₂ : LogRun size t tr₂ u ws₂) :
    LogRun size s (tr₁ ++ tr₂) u (ws₁ ++ ws₂) := by
  induction h₁ with
  | nil => exact h₂
  | begin hl _ ih => exact .begin hl (ih h₂)
  | write hl _ ih => exact .write hl (ih h₂)
  | finish _ ih =>
    rw [List.append_assoc]
    exact .finish (ih h₂)

/-- Process `p` writing `v` to each block of `bs` in turn. -/
def writesBy (p : Nat) (v : β) (bs : List Nat) : List (LogEvent β) := bs.map fun b => .write p b v

/-- Writes of blocks new to the transaction, while the header stays below both bounds:
each is appended to the header and no disk block is written. -/
theorem LogRun.writes_fresh {size p : Nat} {v : β} : ∀ {s : LogSys β} {bs : List Nat},
    (s.log.lh ++ bs).Nodup → (s.log.lh ++ bs).length ≤ min LOGSIZE (size - 1) →
    1 ≤ s.log.outstanding →
    LogRun size s (writesBy p v bs) ⟨s.disk, { s.log with
      cache := Writes.apply s.log.cache (bs.map fun b => (b, v)), lh := s.log.lh ++ bs }⟩ []
  | s, [], _, _, _ => by
    rw [List.append_nil]
    exact .nil s
  | s, b :: bs, hnd, hlen, hout => by
    have hb : b ∉ s.log.lh := by
      intro hb
      exact (List.nodup_append.mp hnd).2.2 b hb b List.mem_cons_self rfl
    have hlen' : (s.log.lh ++ b :: bs).length = s.log.lh.length + 1 + bs.length := by simp; omega
    have hw : writeBlock size s.log b v =
        .ok { s.log with cache := Function.update s.log.cache b v, lh := s.log.lh ++ [b] } :=
      logWrite_fresh (by dsimp only; omega) (by dsimp only; omega) hout hb
    have hrest := @LogRun.writes_fresh size p v ⟨s.disk,
      { s.log with cache := Function.update s.log.cache b v, lh := s.log.lh ++ [b] }⟩ bs
      (by simpa using hnd) (by simp only [List.append_assoc, List.singleton_append]; omega) hout
    simp only [List.append_assoc, List.singleton_append] at hrest
    exact .write hw hrest

/-- The blocks process `p` writes in the events `tr`, once for each write. -/
def blocksBy (p : Nat) (tr : List (LogEvent β)) : List Nat :=
  tr.filterMap fun
    | .write q b _ => if q = p then some b else none
    | _ => none

theorem blocksBy_append (p : Nat) (tr₁ tr₂ : List (LogEvent β)) :
    blocksBy p (tr₁ ++ tr₂) = blocksBy p tr₁ ++ blocksBy p tr₂ :=
  List.filterMap_append

theorem blocksBy_writesBy (p q : Nat) (v : β) (bs : List Nat) :
    blocksBy p (writesBy q v bs) = if q = p then bs else [] := by
  induction bs with
  | nil => split_ifs <;> rfl
  | cons b bs ih =>
    simp only [blocksBy, writesBy, List.map_cons, List.filterMap_cons] at ih ⊢
    split_ifs with h
    · rw [if_pos h] at ih
      rw [ih]
    · rw [if_neg h] at ih
      exact ih

/-- Processes 1, 2 and 3 begin, which admission allows; then 1 writes the blocks 0 to 9,
2 the blocks 10 to 19, and 3 the blocks 20 to 28. -/
def budgetTrace (v : β) : List (LogEvent β) :=
  [.begin 1, .begin 2, .begin 3] ++ writesBy 1 v (List.range 10) ++
    writesBy 2 v (List.range' 10 10) ++ writesBy 3 v (List.range' 20 9)

/-- Three operations each write ten distinct blocks, as the budget allows them, after
`begin_op` admitted all three. The thirtieth block, process 3's tenth, is written with 29
blocks in the header, `log.size - 1` for `log.size = LOGSIZE`: `log_write` panics. -/
theorem log_write_panics_within_budget (d : Disk β) (v : β) :
    openAfter [] (budgetTrace v ++ [.write 3 29 v]) = some [3, 2, 1] ∧
      (∀ p, (blocksBy p (budgetTrace v ++ [.write 3 29 v])).Nodup ∧
        (blocksBy p (budgetTrace v ++ [.write 3 29 v])).length ≤ MAXOPBLOCKS) ∧
      ∃ t, LogRun LOGSIZE ⟨d, logInit d⟩ (budgetTrace v) t [] ∧ t.log.outstanding = 3 ∧
        t.log.lh.length = 29 ∧ writeBlock LOGSIZE t.log 29 v = .error "too big a transaction" := by
  have hopen : openAfter [] (budgetTrace v ++ [.write 3 29 v]) = some [3, 2, 1] := by
    simp [budgetTrace, writesBy, openAfter, List.range_succ, List.range'_succ]
  have hblocks : ∀ p, blocksBy p (budgetTrace v ++ [.write 3 29 v]) =
      (if 1 = p then List.range 10 else []) ++ (if 2 = p then List.range' 10 10 else []) ++
        (if 3 = p then List.range' 20 9 else []) ++ (if 3 = p then [29] else []) := by
    intro p
    have hbegin : blocksBy p ([.begin 1, .begin 2, .begin 3] : List (LogEvent β)) = [] := rfl
    have hlast : blocksBy p [(.write 3 29 v : LogEvent β)] = if 3 = p then [29] else [] := by
      simp only [blocksBy, List.filterMap_cons, List.filterMap_nil]
      split_ifs <;> rfl
    rw [budgetTrace, blocksBy_append, blocksBy_append, blocksBy_append, blocksBy_append, hbegin,
      blocksBy_writesBy, blocksBy_writesBy, blocksBy_writesBy, hlast, List.nil_append]
  refine ⟨hopen, fun p => ?_, ?_⟩
  · rw [hblocks p]
    by_cases h1 : 1 = p
    · subst h1
      decide
    by_cases h2 : 2 = p
    · subst h2
      decide
    by_cases h3 : 3 = p
    · subst h3
      decide
    simp [h1, h2, h3]
  have hb : LogRun LOGSIZE ⟨d, logInit d⟩ [.begin 1, .begin 2, .begin 3]
      ⟨d, { logInit d with outstanding := 3 }⟩ [] :=
    .begin (beginOp_of_le (by dsimp only [logInit]; decide))
      (.begin (beginOp_of_le (by dsimp only [logInit]; decide))
        (.begin (beginOp_of_le (by dsimp only [logInit]; decide)) (.nil _)))
  refine ⟨_, ((hb.append (@LogRun.writes_fresh β LOGSIZE 1 v _ (List.range 10) ?_ ?_ ?_)).append
    (@LogRun.writes_fresh β LOGSIZE 2 v _ (List.range' 10 10) ?_ ?_ ?_)).append
    (@LogRun.writes_fresh β LOGSIZE 3 v _ (List.range' 20 9) ?_ ?_ ?_), rfl, ?_, ?_⟩
  all_goals dsimp only [logInit]
  any_goals decide
  exact logWrite_full (by dsimp only; decide)

end Xv6
