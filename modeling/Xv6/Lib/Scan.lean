import Mathlib.Order.Basic

/-! A scan over the indices `k, k + 1, …, n - 1` for the first one where a predicate holds, as
the loop `for(i = k; i < n; i++) if(p(i)) return i;` finds it. The lemmas unfold one index,
say what a result means, and how the result changes when the predicate changes or the range
grows; all are proved by induction on the indices left, `n - k`. -/
namespace Scan

variable (p : Nat → Prop) [DecidablePred p]

/-- The first index from `k` below `n` where `p` holds. -/
def first (k n : Nat) : Option Nat := (List.range' k (n - k)).find? fun j => decide (p j)

variable {p} {q : Nat → Prop} [DecidablePred q] {k n n' i : Nat}

theorem first_of_le (h : n ≤ k) : first p k n = none := by
  rw [first, Nat.sub_eq_zero_of_le h, List.range'_zero, List.find?_nil]

/-- One index looked at. -/
theorem first_of_lt (h : k < n) : first p k n = if p k then some k else first p (k + 1) n := by
  rw [first, first, show n - k = n - (k + 1) + 1 by omega, List.range'_succ, List.find?_cons]
  by_cases hp : p k <;> simp [hp]

/-- Nothing is found exactly when `p` fails on every index of the range. -/
theorem first_eq_none_iff : first p k n = none ↔ ∀ j, k ≤ j → j < n → ¬ p j := by
  induction hd : n - k generalizing k with
  | zero => exact iff_of_true (first_of_le (by omega)) fun j h1 h2 => absurd h2 (by omega)
  | succ d ih =>
    rw [first_of_lt (by omega)]
    by_cases hp : p k
    · rw [if_pos hp]
      exact iff_of_false (Option.some_ne_none k) fun h => h k (Nat.le_refl k) (by omega) hp
    · rw [if_neg hp, ih (by omega)]
      constructor
      · intro h j h1 h2
        rcases Nat.eq_or_lt_of_le h1 with rfl | h1
        · exact hp
        · exact h j h1 h2
      · exact fun h j h1 h2 => h j (by omega) h2

/-- A result is an index of the range where `p` holds and before which it holds nowhere. -/
theorem first_eq_some_iff :
    first p k n = some i ↔ k ≤ i ∧ i < n ∧ p i ∧ ∀ j, k ≤ j → j < i → ¬ p j := by
  induction hd : n - k generalizing k with
  | zero =>
    rw [first_of_le (by omega)]
    exact iff_of_false (Option.some_ne_none i).symm fun ⟨h1, h2, _⟩ => absurd h2 (by omega)
  | succ d ih =>
    rw [first_of_lt (by omega)]
    by_cases hp : p k
    · rw [if_pos hp, Option.some_inj]
      constructor
      · rintro rfl
        exact ⟨(Nat.le_refl k), by omega, hp, fun j h1 h2 => absurd h2 (by omega)⟩
      · rintro ⟨h1, -, -, hb⟩
        by_contra hne
        exact hb k (Nat.le_refl k) (by omega) hp
    · rw [if_neg hp, ih (by omega)]
      constructor
      · rintro ⟨h1, h2, hi, hb⟩
        refine ⟨by omega, h2, hi, fun j hj1 hj2 => ?_⟩
        rcases Nat.eq_or_lt_of_le hj1 with rfl | hj1
        · exact hp
        · exact hb j hj1 hj2
      · rintro ⟨h1, h2, hi, hb⟩
        have hki : k ≠ i := fun he => hp (he ▸ hi)
        exact ⟨by omega, h2, hi, fun j hj1 hj2 => hb j (by omega) hj2⟩

/-- Only the predicate on the range matters. -/
theorem first_congr (h : ∀ j, k ≤ j → j < n → (p j ↔ q j)) : first p k n = first q k n := by
  induction hd : n - k generalizing k with
  | zero => rw [first_of_le (by omega), first_of_le (by omega)]
  | succ d ih =>
    rw [first_of_lt (p := p) (by omega), first_of_lt (p := q) (by omega),
      ih (fun j h1 h2 => h j (by omega) h2) (by omega)]
    by_cases hp : p k
    · rw [if_pos hp, if_pos ((h k (Nat.le_refl k) (by omega)).mp hp)]
    · rw [if_neg hp, if_neg (mt (h k (Nat.le_refl k) (by omega)).mpr hp)]

/-- Growing the range by indices where `p` fails changes nothing. -/
theorem first_extend (hn : n ≤ n') (h : ∀ j, n ≤ j → j < n' → ¬ p j) :
    first p k n' = first p k n := by
  induction hd : n - k generalizing k with
  | zero =>
    rw [first_of_le (n := n) (by omega), first_eq_none_iff]
    exact fun j h1 h2 => h j (by omega) h2
  | succ d ih =>
    rw [first_of_lt (n := n') (by omega), first_of_lt (n := n) (by omega), ih (by omega)]

end Scan
