import Mathlib.Data.Nat.Bitwise
import Xv6.Lib.ByteMem

/-! Bitmaps kept in bytes the way C code keeps them: bit `i` is bit `i % 8` of byte `i / 8`,
tested with `data[i/8] & (1 << (i % 8))`, set with `|=` and cleared with `&= ~`. Setting or
clearing a bit stores one byte, and every other bit reads as before. -/
namespace Bitmap
open ByteMem

/-- `1 << (i % 8)`: the mask of bit `i` in its byte. -/
def mask (i : Nat) : UInt8 := 1 <<< (i % 8).toUInt8

/-- Bit `i` of the bitmap whose first byte is at `base`. -/
def get (m : Memory) (base i : Nat) : Bool := m (base + i / 8) &&& mask i != 0

/-- `data[i/8] |= 1 << (i % 8)`. -/
def set (m : Memory) (base i : Nat) : Memory :=
  setByte m (base + i / 8) (m (base + i / 8) ||| mask i)

/-- `data[i/8] &= ~(1 << (i % 8))`. -/
def clear (m : Memory) (base i : Nat) : Memory :=
  setByte m (base + i / 8) (m (base + i / 8) &&& ~~~mask i)

theorem toNat_mask (i : Nat) : (mask i).toNat = 2 ^ (i % 8) := by
  have h8 : i % 8 < 8 := Nat.mod_lt i (by decide)
  have hp : 2 ^ (i % 8) < 256 :=
    calc 2 ^ (i % 8) < 2 ^ 8 := Nat.pow_lt_pow_right (by decide) h8
      _ = 256 := by norm_num
  rw [mask, UInt8.toNat_shiftLeft]
  simp [Nat.mod_eq_of_lt h8, Nat.shiftLeft_eq, Nat.mod_eq_of_lt hp]

/-- The test of a byte against a mask reads one bit of the byte. -/
theorem and_mask_ne_zero (v : UInt8) (i : Nat) :
    (v &&& mask i != 0) = v.toNat.testBit (i % 8) := by
  have h : (v &&& mask i).toNat = (v.toNat.testBit (i % 8)).toNat * 2 ^ (i % 8) := by
    rw [UInt8.toNat_and, toNat_mask, Nat.and_two_pow]
  cases hb : v.toNat.testBit (i % 8) with
  | false =>
    rw [hb, Bool.toNat_false, zero_mul] at h
    have h0 : v &&& mask i = 0 := UInt8.toNat_inj.mp h
    simp [h0]
  | true =>
    rw [hb] at h
    have h0 : v &&& mask i ≠ 0 := fun h0 => by
      rw [h0, UInt8.toNat_zero, Bool.toNat_true, one_mul] at h
      exact (Nat.two_pow_pos _).ne' h.symm
    simpa using h0

theorem testBit_or_mask (v : UInt8) (i j : Nat) :
    (v ||| mask i).toNat.testBit j = (decide (i % 8 = j) || v.toNat.testBit j) := by
  rw [UInt8.toNat_or, Nat.testBit_or, toNat_mask, Nat.testBit_two_pow, Bool.or_comm]

theorem testBit_not (x : UInt8) {j : Nat} (hj : j < 8) :
    (~~~x).toNat.testBit j = !x.toNat.testBit j := by
  have e1 : (~~~x).toNat = (~~~x.toBitVec).toNat := rfl
  have e2 : x.toNat = x.toBitVec.toNat := rfl
  rw [e1, e2, BitVec.testBit_toNat, BitVec.testBit_toNat, BitVec.getLsbD_not]
  simp [hj]

theorem testBit_and_not_mask (v : UInt8) (i : Nat) {j : Nat} (hj : j < 8) :
    (v &&& ~~~mask i).toNat.testBit j = (!decide (i % 8 = j) && v.toNat.testBit j) := by
  rw [UInt8.toNat_and, Nat.testBit_and, testBit_not _ hj, toNat_mask, Nat.testBit_two_pow,
    Bool.and_comm]

/-- Two bits in one byte are one bit when they sit at the same place in it. -/
theorem eq_iff_mod_of_div_eq {i j : Nat} (h : j / 8 = i / 8) : j = i ↔ i % 8 = j % 8 := by
  omega

variable {m : Memory} {base i j : Nat}

theorem get_eq_testBit (m : Memory) (base i : Nat) :
    get m base i = (m (base + i / 8)).toNat.testBit (i % 8) :=
  and_mask_ne_zero _ _

/-- Setting bit `i` sets it and leaves every other bit. -/
theorem get_set (m : Memory) (base i j : Nat) :
    get (set m base i) base j = (decide (j = i) || get m base j) := by
  rw [get_eq_testBit, get_eq_testBit, set, setByte_apply]
  by_cases hb : j / 8 = i / 8
  · rw [if_pos (by rw [hb]), hb, testBit_or_mask, ← hb]
    simp only [eq_iff_mod_of_div_eq hb]
  · rw [if_neg (by omega)]
    have hne : j ≠ i := fun h => hb (by rw [h])
    simp [hne]

/-- Clearing bit `i` clears it and leaves every other bit. -/
theorem get_clear (m : Memory) (base i j : Nat) :
    get (clear m base i) base j = (!decide (j = i) && get m base j) := by
  rw [get_eq_testBit, get_eq_testBit, clear, setByte_apply]
  by_cases hb : j / 8 = i / 8
  · rw [if_pos (by rw [hb]), hb, testBit_and_not_mask _ _ (Nat.mod_lt j (by decide)), ← hb]
    simp only [eq_iff_mod_of_div_eq hb]
  · rw [if_neg (by omega)]
    have hne : j ≠ i := fun h => hb (by rw [h])
    simp [hne]

theorem keeps_set (m : Memory) (base i : Nat) :
    Keeps (fun x => x = base + i / 8) m (set m base i) :=
  fun _ hx => by rw [set, setByte_apply, if_neg hx]

theorem keeps_clear (m : Memory) (base i : Nat) :
    Keeps (fun x => x = base + i / 8) m (clear m base i) :=
  fun _ hx => by rw [clear, setByte_apply, if_neg hx]

/-- A bitmap reads only its own bytes. -/
theorem get_congr {m' : Memory} (h : m' (base + i / 8) = m (base + i / 8)) :
    get m' base i = get m base i := by
  rw [get, get, h]

end Bitmap
