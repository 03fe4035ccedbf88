import Mathlib.Data.Nat.ModEq
import Mathlib.Logic.Function.Basic
/-! A ring of `N` cells indexed by 32-bit counters that only move forward and wrap. A
counter `x` points at cell `x % N`; with `N` dividing `2 ^ 32` the wrap of the counter
agrees with the wrap of the ring. The cells between two counters are a list, and the lemmas
say how storing at one counter and advancing the other change that list. -/
namespace Ring

variable {α : Type*} {N : Nat} [NeZero N]

/-- The cell counter `x` points at. -/
def slot (N : Nat) [NeZero N] (x : UInt32) : Fin N := ⟨x.toNat % N, Nat.mod_lt _ (Nat.pos_of_neZero N)⟩

/-- How far counter `b` is ahead of counter `a`: `b - a` in 32-bit arithmetic. -/
def dist (a b : UInt32) : Nat := (b - a).toNat

/-- The cells from counter `a` up to counter `b`, oldest first. -/
def span (data : Fin N → α) (a b : UInt32) : List α :=
  (List.range (dist a b)).map fun k => data ⟨(a.toNat + k) % N, Nat.mod_lt _ (Nat.pos_of_neZero N)⟩

theorem dist_def (a b : UInt32) : dist a b = (2 ^ 32 - a.toNat + b.toNat) % 2 ^ 32 := by
  rw [dist, UInt32.toNat_sub]

@[simp] theorem dist_self (a : UInt32) : dist a a = 0 := by
  simp [dist]

theorem dist_eq_zero_iff {a b : UInt32} : dist a b = 0 ↔ a = b := by
  have ha := UInt32.toNat_lt a
  have hb := UInt32.toNat_lt b
  rw [dist_def, ← UInt32.toNat_inj]
  omega

/-- Counter `a` moved `dist a b` steps is `b`. -/
theorem add_dist_mod (a b : UInt32) : (a.toNat + dist a b) % 2 ^ 32 = b.toNat := by
  have ha := UInt32.toNat_lt a
  have hb := UInt32.toNat_lt b
  rw [dist_def]
  omega

theorem dist_add_one_right {a b : UInt32} (h : dist a b + 1 < 2 ^ 32) :
    dist a (b + 1) = dist a b + 1 := by
  have ha := UInt32.toNat_lt a
  have hb := UInt32.toNat_lt b
  rw [dist_def] at h
  rw [dist_def, dist_def, UInt32.toNat_add, UInt32.toNat_one]
  omega

theorem dist_sub_one_right {a b : UInt32} (h : dist a b ≠ 0) : dist a (b - 1) = dist a b - 1 := by
  have ha := UInt32.toNat_lt a
  have hb := UInt32.toNat_lt b
  rw [dist_def] at h
  rw [dist_def, dist_def, UInt32.toNat_sub, UInt32.toNat_one]
  omega

theorem dist_add_one_left {a b : UInt32} (h : dist a b ≠ 0) : dist (a + 1) b = dist a b - 1 := by
  have ha := UInt32.toNat_lt a
  have hb := UInt32.toNat_lt b
  rw [dist_def] at h
  rw [dist_def, dist_def, UInt32.toNat_add, UInt32.toNat_one]
  omega

/-- A counter between `a` and `c` splits the distance. -/
theorem dist_add_dist {a b c : UInt32} (h : dist a b ≤ dist a c) :
    dist a b + dist b c = dist a c := by
  have ha := UInt32.toNat_lt a
  have hb := UInt32.toNat_lt b
  have hc := UInt32.toNat_lt c
  rw [dist_def, dist_def] at h
  rw [dist_def, dist_def, dist_def]
  omega

/-- Distances add while they stay below one turn of the counters. -/
theorem dist_add_of_lt {a b c : UInt32} (h : dist a b + dist b c < 2 ^ 32) :
    dist a c = dist a b + dist b c := by
  have ha := UInt32.toNat_lt a
  have hb := UInt32.toNat_lt b
  have hc := UInt32.toNat_lt c
  rw [dist_def, dist_def] at h
  rw [dist_def, dist_def, dist_def]
  omega

omit [NeZero N] in
/-- Within one turn of the ring, different distances are different cells. -/
theorem cell_ne {a : UInt32} {k d : Nat} (hk : k < d) (hd : d < N) :
    (a.toNat + k) % N ≠ (a.toNat + d) % N := by
  intro he
  have hkd : k % N = d % N := Nat.ModEq.add_left_cancel' a.toNat he
  rw [Nat.mod_eq_of_lt (by omega), Nat.mod_eq_of_lt hd] at hkd
  omega

/-- From a counter to the next, the one cell it points at. -/
theorem span_succ (data : Fin N → α) (a : UInt32) : span data a (a + 1) = [data (slot N a)] := by
  have h1 : dist a (a + 1) = 1 := by
    rw [dist_add_one_right (by rw [dist_self]; decide), dist_self]
  rw [span, h1]
  rfl

section Cells

variable (hN : N ∣ 2 ^ 32)
include hN

omit [NeZero N] in
/-- Counter `b` points `dist a b` cells past counter `a`. -/
theorem add_dist_modEq (a b : UInt32) : a.toNat + dist a b ≡ b.toNat [MOD N] := by
  unfold Nat.ModEq
  rw [← Nat.mod_mod_of_dvd (a.toNat + dist a b) hN, add_dist_mod]

theorem slot_val (a b : UInt32) : (slot N b).val = (a.toNat + dist a b) % N :=
  (add_dist_modEq hN a b).symm

/-- The cells up to a counter between `a` and `c`, then the cells from it. -/
theorem span_append (data : Fin N → α) {a b c : UInt32} (h : dist a b ≤ dist a c) :
    span data a c = span data a b ++ span data b c := by
  rw [span, ← dist_add_dist h, List.range_add, List.map_append, List.map_map, span, span]
  congr 1
  refine List.map_congr_left fun k _ => ?_
  have hk : a.toNat + (dist a b + k) ≡ b.toNat + k [MOD N] := by
    rw [← Nat.add_assoc]
    exact (add_dist_modEq hN a b).add_right k
  simp only [Function.comp]
  congr 2

/-- Advancing the first counter drops the oldest cell. -/
theorem span_pop (data : Fin N → α) {a b : UInt32} (h : a ≠ b) :
    span data a b = data (slot N a) :: span data (a + 1) b := by
  have hd : dist a b ≠ 0 := fun h0 => h (dist_eq_zero_iff.mp h0)
  have h1 : dist a (a + 1) = 1 := by
    rw [dist_add_one_right (by rw [dist_self]; decide), dist_self]
  rw [span_append hN data (show dist a (a + 1) ≤ dist a b by omega), span_succ]
  rfl

/-- Moving the second counter back drops the newest cell. -/
theorem span_pop_back (data : Fin N → α) {a b : UInt32} (h : a ≠ b) :
    span data a b = span data a (b - 1) ++ [data (slot N (b - 1))] := by
  have hd : dist a b ≠ 0 := fun h0 => h (dist_eq_zero_iff.mp h0)
  have hlast : span data (b - 1) b = [data (slot N (b - 1))] := by
    simpa using span_succ data (b - 1)
  rw [span_append hN data (show dist a (b - 1) ≤ dist a b by rw [dist_sub_one_right hd]; omega),
    hlast]

/-- A store past the cells from `a` to `b`, within one turn of `a`, leaves them. -/
theorem span_update_of_le (data : Fin N → α) {a b c : UInt32} (x : α) (h : dist a b ≤ dist a c)
    (hc : dist a c < N) : span (Function.update data (slot N c) x) a b = span data a b := by
  refine List.map_congr_left fun k hk => ?_
  rw [List.mem_range] at hk
  apply Function.update_of_ne
  intro he
  rw [Fin.ext_iff, slot_val hN a c] at he
  exact cell_ne (by omega) hc he

/-- A store at the second counter, which then advances, adds the cell at the end. -/
theorem span_push (data : Fin N → α) {a b : UInt32} (x : α) (h : dist a b < N)
    (hN32 : N < 2 ^ 32) :
    span (Function.update data (slot N b) x) a (b + 1) = span data a b ++ [x] := by
  have h1 : dist a (b + 1) = dist a b + 1 := dist_add_one_right (by omega)
  rw [span_append hN _ (show dist a b ≤ dist a (b + 1) by omega),
    span_update_of_le hN data x le_rfl h, span_succ, Function.update_self]

end Cells

end Ring

