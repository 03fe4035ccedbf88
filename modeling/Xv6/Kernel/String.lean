import Xv6.Lib.ByteMem

/-! `memset`, `memmove` and `strlen` of `kernel/string.c`, byte loop by byte loop, over a
byte-addressed memory. -/
namespace Xv6
open ByteMem

/-- The loop `for(i = 0; i < n; i++) cdst[i] = c;`, from index `i` on. -/
def memsetLoop (m : Memory) (dst : Nat) (c : UInt8) : Nat → Nat → Memory
  | _, 0 => m
  | i, k + 1 => memsetLoop (setByte m (dst + i) c) dst c (i + 1) k

/-- `memset(dst, c, n)`; the `int` argument is stored as a `char`. -/
def memset (m : Memory) (dst : Nat) (c : Int) (n : Nat) : Memory :=
  memsetLoop m dst (UInt8.ofInt c) 0 n

/-- `while(n-- > 0) *d++ = *s++;` -/
def memmoveFwd (m : Memory) : Nat → Nat → Nat → Memory
  | _, _, 0 => m
  | d, s, n + 1 => memmoveFwd (setByte m d (m s)) (d + 1) (s + 1) n

/-- `while(n-- > 0) *--d = *--s;`, with `d` and `s` one past the ends. -/
def memmoveBwd (m : Memory) : Nat → Nat → Nat → Memory
  | _, _, 0 => m
  | d, s, n + 1 => memmoveBwd (setByte m (d - 1) (m (s - 1))) (d - 1) (s - 1) n

/-- `memmove(dst, src, n)`: copies backward exactly when the source starts below an
overlapping destination. -/
def memmove (m : Memory) (dst src n : Nat) : Memory :=
  if n = 0 then m
  else if src < dst ∧ src + n > dst then memmoveBwd m (dst + n) (src + n) n
  else memmoveFwd m dst src n

/-- The loop `for(n = 0; s[n]; n++)` from the count `n`, with at most `k` more bytes to look
at. -/
def strlenLoop (m : Memory) (s : Nat) : Nat → Nat → Nat
  | n, 0 => n
  | n, k + 1 => if m (s + n) = 0 then n else strlenLoop m s (n + 1) k

/-- `strncmp(p, q, n)`: `while(n > 0 && *p && *p == *q) n--, p++, q++;`, then 0 if `n` ran out
and otherwise the difference of the two bytes as `uchar`s. -/
def strncmp (m : Memory) : Nat → Nat → Nat → Int
  | _, _, 0 => 0
  | p, q, n + 1 =>
    if m p ≠ 0 ∧ m p = m q then strncmp m (p + 1) (q + 1) n else ((m p).toNat : Int) - (m q).toNat

/-- The padding loop of `strncpy`, `while(n-- > 0) *s++ = 0;`. -/
def strncpyPad (m : Memory) : Nat → Nat → Memory
  | _, 0 => m
  | s, n + 1 => strncpyPad (setByte m s 0) (s + 1) n

/-- The copying loop of `strncpy`, `while(n-- > 0 && (*s++ = *t++) != 0);`: it stops after
copying a NUL, and the padding fills what is left of the `n` bytes. -/
def strncpyLoop (m : Memory) : Nat → Nat → Nat → Memory
  | _, _, 0 => m
  | s, t, n + 1 =>
    if m t = 0 then strncpyPad (setByte m s 0) (s + 1) n
    else strncpyLoop (setByte m s (m t)) (s + 1) (t + 1) n

/-- `strncpy(s, t, n)`; a count `n ≤ 0` writes nothing. -/
def strncpy (m : Memory) (s t : Nat) (n : Int) : Memory := strncpyLoop m s t n.toNat

/-- `strlen(s)`. The count is an `int`, so the loop is followed for `2^31 - 1` bytes at most:
a longer string would overflow it. -/
def strlen (m : Memory) (s : Nat) : Nat := strlenLoop m s 0 (2 ^ 31 - 1)

private theorem memsetLoop_eq (m : Memory) (dst : Nat) (c : UInt8) (i k : Nat) :
    memsetLoop m dst c i k = fill m (dst + i) k c := by
  induction k generalizing m i with
  | zero => funext x; simp [memsetLoop, fill_apply]
  | succ k ih =>
    rw [memsetLoop, ih]
    funext x
    simp only [fill_apply, setByte_apply]
    split_ifs <;> first | rfl | omega

/-- `memset` sets exactly the `n` bytes at `dst`. -/
theorem memset_eq_fill (m : Memory) (dst : Nat) (c : Int) (n : Nat) :
    memset m dst c n = fill m dst n (UInt8.ofInt c) := by
  rw [memset, memsetLoop_eq, Nat.add_zero]

/-- Copying forward is a block copy when no byte is read after it was overwritten. -/
theorem memmoveFwd_eq (m : Memory) (d s n : Nat) (h : d ≤ s ∨ s + n ≤ d) :
    memmoveFwd m d s n = copy m d s n := by
  induction n generalizing m d s with
  | zero => funext x; simp [memmoveFwd, copy_apply]
  | succ n ih =>
    rw [memmoveFwd, ih _ _ _ (by omega)]
    funext x
    simp only [copy_apply, setByte_apply]
    split_ifs <;> first | rfl | omega | (congr 1; omega)

/-- Copying backward from the ends is a block copy when the source does not lie above. -/
theorem memmoveBwd_eq (m : Memory) (d s n : Nat) (h : s ≤ d) :
    memmoveBwd m (d + n) (s + n) n = copy m d s n := by
  induction n generalizing m with
  | zero => funext x; simp [memmoveBwd, copy_apply]
  | succ n ih =>
    rw [memmoveBwd, show d + (n + 1) - 1 = d + n by omega, show s + (n + 1) - 1 = s + n by omega,
      ih]
    funext x
    simp only [copy_apply, setByte_apply]
    split_ifs <;> first | rfl | omega | (congr 1; omega)

/-- `memmove` copies `n` bytes as if through a buffer, whatever the overlap. -/
theorem memmove_eq_copy (m : Memory) (dst src n : Nat) : memmove m dst src n = copy m dst src n := by
  unfold memmove
  split_ifs with h0 hov
  · subst h0
    funext x
    simp [copy_apply]
  · exact memmoveBwd_eq m dst src n (Nat.le_of_lt hov.1)
  · exact memmoveFwd_eq m dst src n (by omega)

/-- What `strncmp` compares of the string at `p`: at most `n` bytes, up to a NUL. -/
def strView (m : Memory) (p : Nat) : Nat → List UInt8
  | 0 => []
  | n + 1 => if m p = 0 then [] else m p :: strView m (p + 1) n

/-- A string's view reads only the `n` bytes from `p`. -/
theorem strView_congr {m m' : Memory} {p n : Nat} (h : ∀ x, p ≤ x → x < p + n → m' x = m x) :
    strView m' p n = strView m p n := by
  induction n generalizing p with
  | zero => rfl
  | succ n ih =>
    have hp : m' p = m p := h p le_rfl (by omega)
    rw [strView, strView, hp, ih fun x h1 h2 => h x (by omega) (by omega)]

/-- Two views agree when the bytes they span agree one for one. -/
theorem strView_shift {m m' : Memory} {p p' : Nat} (n : Nat)
    (h : ∀ j < n, m (p + j) = m' (p' + j)) : strView m p n = strView m' p' n := by
  induction n generalizing p p' with
  | zero => rfl
  | succ n ih =>
    have h0 : m p = m' p' := h 0 (Nat.succ_pos n)
    have hs : ∀ j < n, m (p + 1 + j) = m' (p' + 1 + j) := fun j hj => by
      rw [Nat.add_assoc, Nat.add_assoc, Nat.add_comm 1 j]
      exact h (j + 1) (by omega)
    rw [strView, strView, h0, ih hs]

theorem strView_keeps {W : Nat → Prop} {m m' : Memory} (hk : Keeps W m m') {p n : Nat}
    (h : ∀ x, p ≤ x → x < p + n → ¬ W x) : strView m' p n = strView m p n :=
  strView_congr fun x h1 h2 => hk x (h x h1 h2)

/-- `strncmp` returns 0 exactly when the two strings agree up to the first NUL, within `n`
bytes. -/
theorem strncmp_eq_zero_iff (m : Memory) :
    ∀ (p q n : Nat), strncmp m p q n = 0 ↔ strView m p n = strView m q n
  | _, _, 0 => iff_of_true rfl rfl
  | p, q, n + 1 => by
    unfold strncmp strView
    by_cases h : m p ≠ 0 ∧ m p = m q
    · rw [if_pos h, if_neg h.1, if_neg (h.2 ▸ h.1), h.2, List.cons.injEq,
        strncmp_eq_zero_iff m (p + 1) (q + 1) n]
      exact (and_iff_right rfl).symm
    · -- the loop stopped on a NUL of `p` or on two different bytes
      rw [if_neg h]
      have hdiff : ((m p).toNat : Int) - (m q).toNat = 0 ↔ m p = m q := by
        rw [← UInt8.toNat_inj]
        omega
      rw [hdiff]
      by_cases hp : m p = 0
      · rw [if_pos hp, hp]
        by_cases hq : m q = 0
        · rw [if_pos hq, hq]
          exact iff_of_true rfl rfl
        · rw [if_neg hq]
          exact iff_of_false (Ne.symm hq) (List.cons_ne_nil _ _).symm
      · have hne : m p ≠ m q := fun he => h ⟨hp, he⟩
        rw [if_neg hp]
        refine iff_of_false hne fun hv => ?_
        by_cases hq : m q = 0
        · rw [if_pos hq] at hv
          exact List.cons_ne_nil _ _ hv
        · rw [if_neg hq] at hv
          exact hne (List.cons.inj hv).1

theorem keeps_strncpyPad (m : Memory) (s n : Nat) :
    Keeps (fun x => s ≤ x ∧ x < s + n) m (strncpyPad m s n) := by
  induction n generalizing m s with
  | zero => exact Keeps.refl _ _
  | succ n ih =>
    refine ((keeps_setByte m s 0).trans (ih _ (s + 1))).mono fun x hx => ?_
    omega

theorem keeps_strncpyLoop (m : Memory) (s t n : Nat) :
    Keeps (fun x => s ≤ x ∧ x < s + n) m (strncpyLoop m s t n) := by
  induction n generalizing m s t with
  | zero => exact Keeps.refl _ _
  | succ n ih =>
    rw [strncpyLoop]
    split_ifs
    · exact ((keeps_setByte m s 0).trans (keeps_strncpyPad _ (s + 1) n)).mono fun x hx => by omega
    · exact ((keeps_setByte m s _).trans (ih _ (s + 1) (t + 1))).mono fun x hx => by omega

/-- After `strncpy` of `n` bytes from a string that does not overlap them, the copy reads as the
string does. -/
theorem strView_strncpyLoop (m : Memory) :
    ∀ (s t n : Nat), (s + n ≤ t ∨ t + n ≤ s) → strView (strncpyLoop m s t n) s n = strView m t n
  | _, _, 0, _ => rfl
  | s, t, n + 1, hst => by
    have hts : t ≠ s := by omega
    rw [strncpyLoop]
    by_cases h0 : m t = 0
    · -- the NUL is copied and the rest padded
      rw [if_pos h0, strView, strView, if_pos h0,
        (keeps_strncpyPad _ (s + 1) n) s (by omega), setByte_apply, if_pos rfl, if_pos rfl]
    · have hs : strncpyLoop (setByte m s (m t)) (s + 1) (t + 1) n s = m t := by
        rw [(keeps_strncpyLoop _ (s + 1) (t + 1) n) s (by omega), setByte_apply, if_pos rfl]
      rw [if_neg h0, strView, strView, hs, if_neg h0, if_neg h0,
        strView_strncpyLoop _ (s + 1) (t + 1) n (by omega)]
      rw [strView_congr fun x h1 h2 => by rw [setByte_apply, if_neg (by omega)]]

theorem strlenLoop_eq {m : Memory} {s len : Nat} (hz : m (s + len) = 0)
    (hnz : ∀ k < len, m (s + k) ≠ 0) :
    ∀ k n, n ≤ len → len ≤ n + k → strlenLoop m s n k = len
  | 0, n, h1, h2 => by
    rw [strlenLoop]
    omega
  | k + 1, n, h1, h2 => by
    rw [strlenLoop]
    by_cases hn : n = len
    · rw [if_pos (hn ▸ hz), hn]
    · rw [if_neg (hnz n (by omega))]
      exact strlenLoop_eq hz hnz k (n + 1) (by omega) (by omega)

/-- `strlen` counts the bytes before the first NUL. -/
theorem strlen_eq {m : Memory} {s len : Nat} (hz : m (s + len) = 0)
    (hnz : ∀ k < len, m (s + k) ≠ 0) (hlen : len < 2 ^ 31) : strlen m s = len :=
  strlenLoop_eq hz hnz _ 0 (Nat.zero_le _) (by omega)

/-- A count the loop returns before its fuel runs out stops at a NUL, past non-NUL bytes. -/
theorem strlenLoop_spec {m : Memory} {s : Nat} :
    ∀ k n, strlenLoop m s n k < n + k →
      m (s + strlenLoop m s n k) = 0 ∧ ∀ j, n ≤ j → j < strlenLoop m s n k → m (s + j) ≠ 0
  | 0, n, h => by
    rw [strlenLoop] at h
    omega
  | k + 1, n, h => by
    rw [strlenLoop] at h ⊢
    by_cases hz : m (s + n) = 0
    · rw [if_pos hz] at h ⊢
      exact ⟨hz, fun j h1 h2 => absurd h2 (by omega)⟩
    · rw [if_neg hz] at h ⊢
      obtain ⟨hend, hbefore⟩ := strlenLoop_spec (m := m) (s := s) k (n + 1) (by omega)
      refine ⟨hend, fun j h1 h2 => ?_⟩
      rcases Nat.eq_or_lt_of_le h1 with rfl | h1
      · exact hz
      · exact hbefore j h1 h2

/-- A `strlen` below its bound is the index of the first NUL. -/
theorem strlen_spec {m : Memory} {s : Nat} (h : strlen m s < 2 ^ 31 - 1) :
    m (s + strlen m s) = 0 ∧ ∀ k < strlen m s, m (s + k) ≠ 0 := by
  obtain ⟨hend, hbefore⟩ := strlenLoop_spec (m := m) (s := s) (2 ^ 31 - 1) 0 (by unfold strlen at h; omega)
  exact ⟨hend, fun k hk => hbefore k (Nat.zero_le k) hk⟩

/-- `strlen` reads only the string and its NUL. -/
theorem strlen_congr {m m' : Memory} {s : Nat} (h : strlen m s < 2 ^ 31 - 1)
    (hagree : ∀ k ≤ strlen m s, m' (s + k) = m (s + k)) : strlen m' s = strlen m s := by
  obtain ⟨hend, hbefore⟩ := strlen_spec h
  exact strlen_eq (by rw [hagree _ (Nat.le_refl _)]; exact hend)
    (fun k hk => by rw [hagree k hk.le]; exact hbefore k hk) (by omega)

end Xv6
