import Mathlib.Computability.Language
import Xv6.User.Ulib

/-! The regular-expression matcher of `user/grep.c` (Kernighan and Pike's): `match`,
`matchhere` and `matchstar` over the pattern's and the text's bytes before their NULs.

Its meaning is a `Language Char`: a pattern is an optional `^`, a sequence of atoms, each a
byte or `.` with or without a following `*`, and an optional final `$`; an atom's language is
its one-byte words, starred when it is followed by `*`, and the sequence's is their product.
`matchhere re text` holds exactly when a prefix of `text` is in that language (all of `text`
under `$`), and `match` when some substring is, starting at 0 under `^`. Each function
recurses on a shorter pattern or a shorter text, so all of them terminate. -/
namespace Xv6
namespace User

/-- `matchstar(c, re, text)`, with `matchhere(re, .)` as `here`: try `re` at `text`, then at each
later position as long as the bytes passed are `c` (any byte for `c == '.'`). -/
def matchstar (here : List Char → Bool) (c : Char) : List Char → Bool
  | [] => here []
  | x :: text => here (x :: text) || ((x == c || c == '.') && matchstar here c text)

/-- `matchhere(re, text)`: does `re` match at the beginning of `text`? -/
def matchhere : List Char → List Char → Bool
  | [], _ => true
  | c :: '*' :: re, text => matchstar (matchhere re) c text
  | ['$'], text => text.isEmpty
  | c :: re, x :: text => (c == '.' || c == x) && matchhere re text
  | _ :: _, [] => false

/-- The loop `do{ if(matchhere(re, text)) return 1; }while(*text++ != '\0');`. -/
def matchLoop (re : List Char) : List Char → Bool
  | [] => matchhere re []
  | x :: text => matchhere re (x :: text) || matchLoop re text

/-- `match(re, text)`: anchored by a leading `^`, otherwise tried at every position, the end
included. -/
def grepMatch : List Char → List Char → Bool
  | '^' :: re, text => matchhere re text
  | re, text => matchLoop re text

/-- A byte of the pattern, `'.'` for any byte, starred or not. -/
structure Atom where
  c : Char
  star : Bool
  deriving DecidableEq, Repr

/-- The atoms of a pattern after any `^`, and whether a final unstarred `$` anchors it at the
end. -/
def parseAtoms : List Char → List Atom × Bool
  | [] => ([], false)
  | c :: '*' :: re => (⟨c, true⟩ :: (parseAtoms re).1, (parseAtoms re).2)
  | ['$'] => ([], true)
  | c :: re => (⟨c, false⟩ :: (parseAtoms re).1, (parseAtoms re).2)

/-- The byte `x` is one the atom's `c` stands for. -/
def AtomOk (c x : Char) : Prop := c = '.' ∨ c = x

instance (c x : Char) : Decidable (AtomOk c x) := inferInstanceAs (Decidable (_ ∨ _))

/-- The one-byte words an atom's byte stands for. -/
def byteLang (c : Char) : Language Char := {w | ∃ x, AtomOk c x ∧ w = [x]}

/-- An atom's language: its byte, or any number of them when starred. -/
def atomLang (a : Atom) : Language Char :=
  if a.star then KStar.kstar (byteLang a.c) else byteLang a.c

/-- The language of a sequence of atoms: the product of theirs. -/
def atomsLang : List Atom → Language Char
  | [] => 1
  | a :: as => atomLang a * atomsLang as

/-- The language a text matches `re` in at its beginning: a prefix of `text` in the atoms'
language, the whole of `text` when a `$` ends the pattern. -/
def HereOk (p : List Atom × Bool) (text : List Char) : Prop :=
  ∃ k ≤ text.length, (p.2 = true → k = text.length) ∧ text.take k ∈ atomsLang p.1

/-- The substrings `match` looks for: `text[i..j)` in the language of the atoms after any `^`,
with `i = 0` under `^` and `j` the end under a final `$`. -/
def GrepMatches (re text : List Char) : Prop :=
  let start := re.head? = some '^'
  let p := parseAtoms (if start then re.tail else re)
  ∃ i j, i ≤ j ∧ j ≤ text.length ∧ (start → i = 0) ∧ (p.2 = true → j = text.length) ∧
    (text.drop i).take (j - i) ∈ atomsLang p.1

theorem mem_byteLang {c : Char} {w : List Char} : w ∈ byteLang c ↔ ∃ x, AtomOk c x ∧ w = [x] :=
  Iff.rfl

/-- A starred byte's words are those made only of bytes it stands for. -/
theorem mem_kstar_byteLang {c : Char} {w : List Char} :
    w ∈ KStar.kstar (byteLang c) ↔ ∀ x ∈ w, AtomOk c x := by
  rw [Language.mem_kstar]
  constructor
  · rintro ⟨S, rfl, hS⟩ x hx
    obtain ⟨y, hy, hxy⟩ := List.mem_flatten.mp hx
    obtain ⟨z, hz, rfl⟩ := hS y hy
    rw [List.mem_singleton.mp hxy]
    exact hz
  · intro h
    have hflat : ∀ u : List Char, u = (u.map fun x => [x]).flatten := fun u => by
      induction u with
      | nil => rfl
      | cons x u ih => rw [List.map_cons, List.flatten_cons, ← ih]; rfl
    refine ⟨w.map fun x => [x], hflat w, fun y hy => ?_⟩
    · obtain ⟨x, hx, rfl⟩ := List.mem_map.mp hy
      exact ⟨x, h x hx, rfl⟩

/-- The words of an unstarred atom before a sequence: a byte it stands for, then a word of the
sequence. -/
theorem mem_atomsLang_lit {c : Char} {as : List Atom} {w : List Char} :
    w ∈ atomsLang (⟨c, false⟩ :: as) ↔ ∃ x w', w = x :: w' ∧ AtomOk c x ∧ w' ∈ atomsLang as := by
  simp only [atomsLang, atomLang, Bool.false_eq_true, if_false, Language.mem_mul, mem_byteLang]
  constructor
  · rintro ⟨_, ⟨x, hx, rfl⟩, w', hw', rfl⟩
    exact ⟨x, w', rfl, hx, hw'⟩
  · rintro ⟨x, w', rfl, hx, hw'⟩
    exact ⟨[x], ⟨x, hx, rfl⟩, w', hw', rfl⟩

/-- The words of a starred atom before a sequence: some bytes it stands for, then a word of the
sequence. -/
theorem mem_atomsLang_star {c : Char} {as : List Atom} {w : List Char} :
    w ∈ atomsLang (⟨c, true⟩ :: as) ↔
      ∃ n ≤ w.length, (∀ x ∈ w.take n, AtomOk c x) ∧ w.drop n ∈ atomsLang as := by
  simp only [atomsLang, atomLang, if_true, Language.mem_mul, mem_kstar_byteLang]
  constructor
  · rintro ⟨u, hu, v, hv, rfl⟩
    refine ⟨u.length, by simp, ?_, ?_⟩
    · rw [List.take_left]
      exact hu
    · rw [List.drop_left]
      exact hv
  · rintro ⟨n, -, hn, hv⟩
    exact ⟨w.take n, hn, w.drop n, hv, List.take_append_drop n w⟩

/-- `matchstar` succeeds exactly when `re` matches after some bytes that `c` stands for. -/
theorem matchstar_iff (here : List Char → Bool) (c : Char) :
    ∀ text, matchstar here c text = true ↔
      ∃ n ≤ text.length, (∀ x ∈ text.take n, AtomOk c x) ∧ here (text.drop n) = true := by
  intro text
  induction text with
  | nil =>
    simp only [matchstar, List.length_nil, Nat.le_zero, List.take_nil, List.not_mem_nil,
      false_imp_iff, implies_true, true_and, List.drop_nil, exists_eq_left]
  | cons x text ih =>
    simp only [matchstar, Bool.or_eq_true, Bool.and_eq_true, ih]
    constructor
    · rintro (h | ⟨hx, n, hn, hall, hhere⟩)
      · exact ⟨0, Nat.zero_le _, by simp, h⟩
      · refine ⟨n + 1, by simp; omega, fun y hy => ?_, hhere⟩
        rw [List.take_succ_cons, List.mem_cons] at hy
        rcases hy with rfl | hy
        · -- `*text++ == c || c == '.'`
          rcases hx with h | h
          · exact .inr (beq_iff_eq.mp h).symm
          · exact .inl (beq_iff_eq.mp h)
        · exact hall y hy
    · rintro ⟨n, hn, hall, hhere⟩
      cases n with
      | zero => exact .inl hhere
      | succ n =>
        have hx := hall x (by simp)
        refine .inr ⟨?_, n, by simp at hn; omega, fun y hy => hall y (by simp [hy]), hhere⟩
        rcases hx with h | h
        · simp [h]
        · simp [h]

theorem hereOk_nil_atoms {e : Bool} {text : List Char} :
    HereOk ([], e) text ↔ (e = true → text = []) := by
  simp only [HereOk, atomsLang, Language.mem_one, List.take_eq_nil_iff]
  constructor
  · rintro ⟨k, hk, he, hk0⟩ h
    rcases hk0 with rfl | rfl
    · exact List.length_eq_zero_iff.mp (he h).symm
    · rfl
  · intro h
    cases e with
    | false => exact ⟨0, Nat.zero_le _, fun h => absurd h Bool.false_ne_true, .inl rfl⟩
    | true =>
      rw [h rfl]
      exact ⟨0, le_refl _, fun _ => rfl, .inl rfl⟩

theorem hereOk_lit {c : Char} {as : List Atom} {e : Bool} {text : List Char} :
    HereOk (⟨c, false⟩ :: as, e) text ↔
      ∃ x t, text = x :: t ∧ AtomOk c x ∧ HereOk (as, e) t := by
  simp only [HereOk, mem_atomsLang_lit]
  constructor
  · rintro ⟨k, hk, he, x, w', hw, hx, hw'⟩
    cases text with
    | nil => simp at hw
    | cons y t =>
      cases k with
      | zero => simp at hw
      | succ k =>
        rw [List.take_succ_cons] at hw
        obtain ⟨hyx, hwt⟩ := List.cons.inj hw
        refine ⟨y, t, rfl, hyx ▸ hx, k, by simp at hk; omega, fun h => ?_, hwt ▸ hw'⟩
        have := he h
        simp at this
        omega
  · rintro ⟨x, t, rfl, hx, k, hk, he, hw⟩
    exact ⟨k + 1, by simp; omega, fun h => by simp [he h], x, t.take k, rfl, hx, hw⟩

theorem hereOk_star {c : Char} {as : List Atom} {e : Bool} {text : List Char} :
    HereOk (⟨c, true⟩ :: as, e) text ↔
      ∃ n ≤ text.length, (∀ x ∈ text.take n, AtomOk c x) ∧ HereOk (as, e) (text.drop n) := by
  simp only [HereOk, mem_atomsLang_star]
  constructor
  · rintro ⟨k, hk, he, n, hn, hall, hw⟩
    simp only [List.length_take, Nat.le_min] at hn
    refine ⟨n, by omega, fun x hx => hall x ?_, k - n, by simp; omega,
      fun h => by simp [he h], ?_⟩
    · rw [List.take_take, Nat.min_eq_left hn.1]
      exact hx
    · rw [List.drop_take] at hw
      exact hw
  · rintro ⟨n, hn, hall, k, hk, he, hw⟩
    simp only [List.length_drop] at hk he
    refine ⟨n + k, by omega, fun h => by rw [he h]; omega, n, by simp; omega, ?_, ?_⟩
    · rw [List.take_take, Nat.min_eq_left (by omega)]
      exact hall
    · rw [List.drop_take, Nat.add_sub_cancel_left]
      exact hw

/-- `matchhere` on a byte that no `*` follows and that is not a final `$`. -/
theorem matchhere_lit {c : Char} {re : List Char} (hd : ∀ re', re ≠ '*' :: re')
    (hc : c = '$' → re ≠ []) (text : List Char) :
    matchhere (c :: re) text = match text with
      | [] => false
      | x :: t => (c == '.' || c == x) && matchhere re t := by
  cases text with
  | nil => exact matchhere.eq_5 c re (fun re' h => hd re' h) (fun h1 h2 => hc h1 h2)
  | cons x t => exact matchhere.eq_4 c re x t (fun re' h => hd re' h) (fun h1 h2 => hc h1 h2)

/-- The step of a byte that no `*` follows: it must stand for the text's first byte. -/
theorem matchhere_lit_iff {c : Char} {re : List Char} (hd : ∀ re', re ≠ '*' :: re')
    (hc : c = '$' → re ≠ []) (ih : ∀ text, matchhere re text = true ↔ HereOk (parseAtoms re) text)
    (text : List Char) :
    matchhere (c :: re) text = true ↔ HereOk (⟨c, false⟩ :: (parseAtoms re).1, (parseAtoms re).2) text := by
  rw [matchhere_lit hd hc, hereOk_lit]
  cases text with
  | nil => simp
  | cons x t =>
    simp only [Bool.and_eq_true, Bool.or_eq_true, beq_iff_eq, ih, List.cons.injEq]
    constructor
    · rintro ⟨h1, h2⟩
      exact ⟨x, t, ⟨rfl, rfl⟩, h1, h2⟩
    · rintro ⟨y, t', ⟨rfl, rfl⟩, h1, h2⟩
      exact ⟨h1, h2⟩

/-- `matchhere re text` holds exactly when a prefix of `text` is in the pattern's language, the
whole of `text` under a final `$`. -/
theorem matchhere_iff : ∀ re text, matchhere re text = true ↔ HereOk (parseAtoms re) text
  | [], text => by
    simp only [matchhere, parseAtoms, true_iff]
    exact hereOk_nil_atoms.mpr fun h => absurd h Bool.false_ne_true
  | [c], text => by
    by_cases hc : c = '$'
    · -- the end anchor
      subst hc
      simp only [matchhere, parseAtoms, List.isEmpty_iff, hereOk_nil_atoms, forall_const]
    · rw [parseAtoms.eq_4 c [] (fun _ h => by cases h) (fun h _ => hc h)]
      exact matchhere_lit_iff (fun _ h => by cases h) (fun h => absurd h hc)
        (matchhere_iff []) text
  | c :: d :: re, text => by
    by_cases hd : d = '*'
    · -- a starred byte
      subst hd
      simp only [matchhere, parseAtoms]
      rw [matchstar_iff, hereOk_star]
      simp only [matchhere_iff re]
    · rw [parseAtoms.eq_4 c (d :: re) (fun re' h => hd (List.cons.inj h).1) (fun _ h => by cases h)]
      exact matchhere_lit_iff (fun re' h => hd (List.cons.inj h).1) (fun _ => List.cons_ne_nil d re)
        (matchhere_iff (d :: re)) text

/-- The unanchored loop finds `re` at some position, the end included. -/
theorem matchLoop_iff (re : List Char) :
    ∀ text, matchLoop re text = true ↔ ∃ i ≤ text.length, matchhere re (text.drop i) = true := by
  intro text
  induction text with
  | nil => simp [matchLoop]
  | cons x text ih =>
    rw [matchLoop, Bool.or_eq_true, ih]
    constructor
    · rintro (h | ⟨i, hi, h⟩)
      · exact ⟨0, Nat.zero_le _, h⟩
      · exact ⟨i + 1, by simp; omega, h⟩
    · rintro ⟨i, hi, h⟩
      cases i with
      | zero => exact .inl h
      | succ i => exact .inr ⟨i, by simp at hi; omega, h⟩

/-- A match at position `i` is a substring from `i` in the language. -/
theorem hereOk_drop {p : List Atom × Bool} {text : List Char} {i : Nat} (hi : i ≤ text.length) :
    HereOk p (text.drop i) ↔ ∃ j, i ≤ j ∧ j ≤ text.length ∧ (p.2 = true → j = text.length) ∧
      (text.drop i).take (j - i) ∈ atomsLang p.1 := by
  simp only [HereOk, List.length_drop]
  constructor
  · rintro ⟨k, hk, he, hw⟩
    refine ⟨i + k, by omega, by omega, fun h => by rw [he h]; omega, ?_⟩
    rw [Nat.add_sub_cancel_left]
    exact hw
  · rintro ⟨j, hij, hj, he, hw⟩
    exact ⟨j - i, by omega, fun h => by rw [he h], hw⟩

/-- `match(re, text)` decides whether some substring of `text` is in the language of `re`'s
atoms: one starting at 0 when `re` starts with `^`, one ending at the end of `text` when `re`
ends with an unstarred `$`. -/
theorem grep_match_decides (re text : List Char) : grepMatch re text = true ↔ GrepMatches re text := by
  unfold GrepMatches
  by_cases hs : re.head? = some '^'
  · -- anchored: `matchhere` at the start only
    obtain ⟨re', rfl⟩ : ∃ re', re = '^' :: re' := by
      cases re with
      | nil => cases hs
      | cons c re' => exact ⟨re', by simp at hs; rw [hs]⟩
    simp only [grepMatch, matchhere_iff, List.head?_cons, if_true, List.tail_cons, forall_const]
    rw [← List.drop_zero (l := text), hereOk_drop (Nat.zero_le _), List.drop_zero]
    constructor
    · rintro ⟨j, -, hj, he, hw⟩
      exact ⟨0, j, Nat.zero_le _, hj, rfl, he, hw⟩
    · rintro ⟨i, j, -, hj, rfl, he, hw⟩
      exact ⟨j, Nat.zero_le _, hj, he, hw⟩
  · -- unanchored: the loop tries every position
    have hg : grepMatch re text = matchLoop re text := by
      cases re with
      | nil => rfl
      | cons c re' =>
        have hc : c ≠ '^' := fun h => hs (by rw [h]; rfl)
        exact grepMatch.eq_2 (c :: re') text (fun re'' h => hc (List.cons.inj h).1)
    simp only [hg, matchLoop_iff, matchhere_iff, hs, false_imp_iff, true_and]
    constructor
    · rintro ⟨i, hi, h⟩
      obtain ⟨j, hij, hj, he, hw⟩ := (hereOk_drop hi).mp h
      exact ⟨i, j, hij, hj, he, hw⟩
    · rintro ⟨i, j, hij, hj, he, hw⟩
      exact ⟨i, by omega, (hereOk_drop (by omega)).mpr ⟨j, hij, hj, he, hw⟩⟩

end User
end Xv6
