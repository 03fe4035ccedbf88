import Xv6.Kernel.String

/-! `memmove` and `strchr` of `user/ulib.c`. Its count is an `int`, and it picks the direction by
`src > dst` alone, where the kernel's copies backward only into an overlapping destination
above the source. Both loops are the kernel's loops, and both versions are the block copy
`ByteMem.copy`, whatever the overlap. -/
namespace Xv6
open ByteMem

namespace User

/-- `memmove(vdst, vsrc, n)`: `while(n-- > 0)` runs `n` times when `n > 0` and never
otherwise, so both loops run `n.toNat` times. -/
def memmove (m : Memory) (dst src : Nat) (n : Int) : Memory :=
  if src > dst then memmoveFwd m dst src n.toNat
  else memmoveBwd m (dst + n.toNat) (src + n.toNat) n.toNat

/-- The user `memmove` copies `n` bytes as if through a buffer, whatever the overlap. -/
theorem memmove_eq_copy (m : Memory) (dst src : Nat) (n : Int) :
    memmove m dst src n = copy m dst src n.toNat := by
  unfold memmove
  split_ifs with hsd
  · exact memmoveFwd_eq m dst src n.toNat (.inl (Nat.le_of_lt hsd))
  · exact memmoveBwd_eq m dst src n.toNat (Nat.not_lt.mp hsd)

/-- `strchr(s, c)`: the index of the first `c` in the string at `s`, `none` for the null
pointer. The string ends at its first NUL, or where the bytes given end. -/
def strchr (s : List Char) (c : Char) : Option Nat :=
  match s with
  | [] => none
  | x :: s => if x = Char.ofNat 0 then none else if x = c then some 0 else (strchr s c).map (· + 1)

theorem strchr_lt {c : Char} : ∀ {s : List Char} {i : Nat}, strchr s c = some i → i < s.length
  | [], _, h => by cases h
  | x :: s, i, h => by
    simp only [strchr] at h
    split_ifs at h
    · cases h
      exact Nat.succ_pos _
    · cases hs : strchr s c with
      | none => rw [hs] at h; cases h
      | some j =>
        rw [hs, Option.map_some, Option.some.injEq] at h
        have hj := strchr_lt hs
        rw [List.length_cons]
        omega

/-- Without `c`, the scan runs to the end. -/
theorem strchr_eq_none {c : Char} : ∀ {s : List Char}, c ∉ s → strchr s c = none
  | [], _ => rfl
  | x :: s, h => by
    have hx : x ≠ c := fun he => h (he ▸ List.mem_cons_self)
    simp only [strchr, if_neg hx, strchr_eq_none (fun hs => h (List.mem_cons_of_mem x hs))]
    split_ifs <;> rfl

/-- Past bytes that are neither NUL nor `c`, the scan finds `c`. -/
theorem strchr_append_cons {c : Char} (hc : c ≠ Char.ofNat 0) (r : List Char) :
    ∀ {l : List Char}, c ∉ l → Char.ofNat 0 ∉ l → strchr (l ++ c :: r) c = some l.length
  | [], _, _ => by simp [strchr, hc]
  | x :: l, hl, h0 => by
    have hx : x ≠ c := fun he => hl (he ▸ List.mem_cons_self)
    have hx0 : x ≠ Char.ofNat 0 := fun he => h0 (he ▸ List.mem_cons_self)
    rw [List.cons_append, strchr, if_neg hx0, if_neg hx,
      strchr_append_cons hc r (fun h => hl (List.mem_cons_of_mem x h))
        (fun h => h0 (List.mem_cons_of_mem x h))]
    rfl

/-- In a string without NUL, `strchr` finds exactly the string's own bytes. -/
theorem strchr_isSome_iff {c : Char} : ∀ {s : List Char}, Char.ofNat 0 ∉ s →
    ((strchr s c).isSome = true ↔ c ∈ s)
  | [], _ => by simp [strchr]
  | x :: s, h0 => by
    have hx0 : x ≠ Char.ofNat 0 := fun he => h0 (he ▸ List.mem_cons_self)
    have ih := strchr_isSome_iff (c := c) (fun h => h0 (List.mem_cons_of_mem x h))
    rw [strchr, if_neg hx0, List.mem_cons]
    by_cases hx : x = c
    · simp [hx]
    · rw [if_neg hx, Option.isSome_map, ih]
      exact ⟨Or.inr, fun h => h.resolve_left fun he => hx he.symm⟩

end User

/-- Both `memmove`s: the destination's bytes are the source's old ones, and nothing else
changes. -/
theorem memmove_overlap_safe :
    (∀ (m : Memory) (dst src n : Nat),
      (∀ k < n, memmove m dst src n (dst + k) = m (src + k)) ∧
      ∀ x, (x < dst ∨ dst + n ≤ x) → memmove m dst src n x = m x) ∧
    ∀ (m : Memory) (dst src : Nat) (n : Int), 0 < n →
      (∀ k < n.toNat, User.memmove m dst src n (dst + k) = m (src + k)) ∧
      ∀ x, (x < dst ∨ dst + n.toNat ≤ x) → User.memmove m dst src n x = m x := by
  refine ⟨fun m dst src n => ⟨fun k hk => ?_, fun x hx => ?_⟩,
    fun m dst src n _ => ⟨fun k hk => ?_, fun x hx => ?_⟩⟩
  · rw [memmove_eq_copy, copy_apply_add m hk]
  · rw [memmove_eq_copy, copy_of_outside hx]
  · rw [User.memmove_eq_copy, copy_apply_add m hk]
  · rw [User.memmove_eq_copy, copy_of_outside hx]

/-- A memory whose byte at `x` is `x` modulo 256. -/
def rampMem : Memory := fun x => UInt8.ofNat x

/-- Two bytes moved one up, over themselves: the user's backward loop. -/
theorem memmove_overlap_safe_shift_up :
    0 < (2 : Int) ∧ User.memmove rampMem 1 0 2 (1 + 1) = rampMem (0 + 1) :=
  ⟨by decide, (memmove_overlap_safe.2 rampMem 1 0 2 (by decide)).1 1 (by decide)⟩

end Xv6
