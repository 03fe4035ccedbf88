import Mathlib.Data.List.TakeWhile
import Xv6.User.Ulib
/-! The lexer of `user/sh.c`. `gettoken` and `peek` move a cursor over the command line, a
suffix of it here, skipping `whitespace`. Beside them `tokens` cuts a line into the tokens the
shell's grammar reads: maximal runs of word characters, the symbols, and `>>`. The lemmas
say that `gettoken` returns the first of these tokens and leaves the cursor where the others
begin, and that `peek` looks at the first character of the first token. -/
namespace Xv6
namespace User

/-- `whitespace[]` of `user/sh.c`. -/
def whitespace : List Char := [' ', '\t', '\r', '\n', '\x0b']

/-- `symbols[]`. -/
def symbols : List Char := ['<', '|', '>', '&', ';', '(', ')']

/-- `while(s < es && strchr(whitespace, *s)) s++;` -/
def skipWhitespace (s : List Char) : List Char :=
  s.dropWhile fun c => (strchr whitespace c).isSome

/-- The word loop of `gettoken`:
`while(s < es && !strchr(whitespace, *s) && !strchr(symbols, *s)) s++;` -/
def skipWord (s : List Char) : List Char :=
  s.dropWhile fun c => (strchr whitespace c).isNone && (strchr symbols c).isNone

/-- What `gettoken` hands back: the token's code (`a` for a word), where its text starts and
ends (`*q`, `*eq`, as offsets in the line), and the cursor `*ps` after it. -/
structure GotToken where
  code : Char
  q : Nat
  eq : Nat
  rest : List Char

/-- `gettoken(ps, es, &q, &eq)` on a line of `es` characters: the cursor moves past the
whitespace, the token and the whitespace after it. At the end of the line the cursor reads
the terminating NUL. -/
def gettoken (es : Nat) (s : List Char) : GotToken :=
  let s := skipWhitespace s
  let q := es - s.length
  let r : Char × List Char :=
    match s with
    | [] => (Char.ofNat 0, [])
    | c :: s' =>
      if c = Char.ofNat 0 then (c, c :: s')
      else if c = '|' ∨ c = '(' ∨ c = ')' ∨ c = ';' ∨ c = '&' ∨ c = '<' then (c, s')
      else if c = '>' then
        match s' with
        | '>' :: s'' => ('+', s'')
        | _ => ('>', s')
      else ('a', skipWord (c :: s'))
  ⟨r.1, q, es - r.2.length, skipWhitespace r.2⟩

/-- `peek(ps, es, toks)`: the cursor past the whitespace, and whether the next character is
one of `toks`. -/
def peek (s toks : List Char) : List Char × Bool :=
  let s := skipWhitespace s
  (s, match s with
    | [] => false
    | c :: _ => c != Char.ofNat 0 && (strchr toks c).isSome)

/-- A token of the shell's grammar: a word, or a symbol, with `+` standing for `>>`. -/
inductive Tok where
  | word (w : List Char)
  | sym (c : Char)
  deriving DecidableEq

/-- A character of a word: neither whitespace nor a symbol. -/
def IsWordChar (c : Char) : Prop := c ∉ whitespace ∧ c ∉ symbols

instance : DecidablePred IsWordChar := fun c => inferInstanceAs (Decidable (_ ∧ _))

/-- The tokens of a line: words are maximal runs of word characters, `>>` is one token. -/
def tokens : List Char → List Tok
  | [] => []
  | c :: s =>
    if c ∈ whitespace then tokens s
    else if c = '>' ∧ s.head? = some '>' then .sym '+' :: tokens s.tail
    else if c ∈ symbols then .sym c :: tokens s
    else .word (c :: s.takeWhile (decide <| IsWordChar ·)) ::
      tokens (s.dropWhile (decide <| IsWordChar ·))
termination_by s => s.length
decreasing_by
  all_goals simp only [List.length_cons, List.length_tail]
  · omega
  · omega
  · omega
  · have := (List.dropWhile_suffix (decide <| IsWordChar ·) (l := s)).length_le
    omega

/-- What `gettoken` returns for the token: `a` for a word. -/
def Tok.code : Tok → Char
  | .word _ => 'a'
  | .sym c => c

/-- The token's first character, the one `peek` looks at. -/
def Tok.lead : Tok → Char
  | .word w => w.headD (Char.ofNat 0)
  | .sym c => if c = '+' then '>' else c

theorem nul_not_mem_whitespace : Char.ofNat 0 ∉ whitespace := by decide

theorem nul_not_mem_symbols : Char.ofNat 0 ∉ symbols := by decide

theorem not_mem_whitespace_of_symbol {c : Char} (h : c ∈ symbols) : c ∉ whitespace := by
  simp only [symbols, List.mem_cons, List.not_mem_nil, or_false] at h
  rcases h with rfl | rfl | rfl | rfl | rfl | rfl | rfl <;> decide

theorem skipWhitespace_eq (s : List Char) :
    skipWhitespace s = s.dropWhile fun c => decide (c ∈ whitespace) := by
  unfold skipWhitespace
  congr 1
  funext c
  exact Bool.eq_iff_iff.mpr
    ((strchr_isSome_iff nul_not_mem_whitespace).trans decide_eq_true_iff.symm)

theorem skipWord_eq (s : List Char) :
    skipWord s = s.dropWhile fun c => decide (IsWordChar c) := by
  unfold skipWord
  congr 1
  funext c
  have hw := strchr_isSome_iff (c := c) nul_not_mem_whitespace
  have hs := strchr_isSome_iff (c := c) nul_not_mem_symbols
  rw [Bool.eq_iff_iff, Bool.and_eq_true, decide_eq_true_iff, IsWordChar,
    Option.isNone_iff_eq_none, Option.isNone_iff_eq_none, ← Option.not_isSome_iff_eq_none,
    ← Option.not_isSome_iff_eq_none, hw, hs]

theorem skipWhitespace_suffix (s : List Char) : skipWhitespace s <:+ s :=
  List.dropWhile_suffix _

theorem skipWhitespace_cons_of_mem {c : Char} (s : List Char) (h : c ∈ whitespace) :
    skipWhitespace (c :: s) = skipWhitespace s := by
  rw [skipWhitespace_eq, skipWhitespace_eq, List.dropWhile_cons_of_pos (by simpa using h)]

theorem skipWhitespace_cons_of_not_mem {c : Char} (s : List Char) (h : c ∉ whitespace) :
    skipWhitespace (c :: s) = c :: s := by
  rw [skipWhitespace_eq, List.dropWhile_cons_of_neg (by simpa using h)]

/-- The cursor past the whitespace stands on a character that is not whitespace. -/
theorem not_mem_whitespace_of_skip {s r : List Char} {c : Char}
    (h : skipWhitespace s = c :: r) : c ∉ whitespace := by
  induction s with
  | nil => cases h
  | cons x s ih =>
    by_cases hx : x ∈ whitespace
    · rw [skipWhitespace_cons_of_mem s hx] at h
      exact ih h
    · rw [skipWhitespace_cons_of_not_mem s hx] at h
      cases h
      exact hx

@[simp] theorem tokens_nil : tokens [] = [] := by
  rw [tokens]

theorem tokens_cons_of_mem_whitespace {c : Char} (s : List Char) (h : c ∈ whitespace) :
    tokens (c :: s) = tokens s := by
  rw [tokens, if_pos h]

theorem tokens_append_gt (s : List Char) : tokens ('>' :: '>' :: s) = .sym '+' :: tokens s := by
  rw [tokens, if_neg (by decide), if_pos (by simp)]
  rfl

theorem tokens_cons_of_symbol {c : Char} {s : List Char} (h : c ∈ symbols)
    (hgt : ¬ (c = '>' ∧ s.head? = some '>')) : tokens (c :: s) = .sym c :: tokens s := by
  rw [tokens, if_neg (not_mem_whitespace_of_symbol h), if_neg hgt, if_pos h]

theorem tokens_cons_of_word {c : Char} (s : List Char) (h : IsWordChar c) :
    tokens (c :: s) = .word (c :: s.takeWhile (decide <| IsWordChar ·)) ::
      tokens (s.dropWhile (decide <| IsWordChar ·)) := by
  have hgt : ¬ (c = '>' ∧ s.head? = some '>') := fun hg => h.2 (hg.1 ▸ by decide)
  rw [tokens, if_neg h.1, if_neg hgt, if_neg h.2]

theorem tokens_skipWhitespace (s : List Char) : tokens (skipWhitespace s) = tokens s := by
  induction s with
  | nil => rfl
  | cons c s ih =>
    by_cases hc : c ∈ whitespace
    · rw [skipWhitespace_cons_of_mem s hc, ih, tokens_cons_of_mem_whitespace s hc]
    · rw [skipWhitespace_cons_of_not_mem s hc]

theorem skipWhitespace_eq_nil {s : List Char} (h : tokens s = []) : skipWhitespace s = [] := by
  rw [← tokens_skipWhitespace] at h
  cases hu : skipWhitespace s with
  | nil => rfl
  | cons c r =>
    rw [hu] at h
    have hc := not_mem_whitespace_of_skip hu
    by_cases hgt : c = '>' ∧ r.head? = some '>'
    · obtain ⟨rfl, hr⟩ := hgt
      obtain ⟨r', rfl⟩ : ∃ r', r = '>' :: r' := by
        cases r with
        | nil => cases hr
        | cons x r' => cases hr; exact ⟨r', rfl⟩
      rw [tokens_append_gt] at h
      cases h
    · by_cases hs : c ∈ symbols
      · rw [tokens_cons_of_symbol hs hgt] at h
        cases h
      · rw [tokens_cons_of_word r ⟨hc, hs⟩] at h
        cases h

/-- The first character past the whitespace leads the first token. -/
theorem tokens_of_skip {s r : List Char} {c : Char} (h : skipWhitespace s = c :: r) :
    ∃ tok ts, tokens s = tok :: ts ∧ tok.lead = c := by
  rw [← tokens_skipWhitespace, h]
  have hc := not_mem_whitespace_of_skip h
  by_cases hgt : c = '>' ∧ r.head? = some '>'
  · obtain ⟨rfl, hr⟩ := hgt
    obtain ⟨r', rfl⟩ : ∃ r', r = '>' :: r' := by
      cases r with
      | nil => cases hr
      | cons x r' => cases hr; exact ⟨r', rfl⟩
    exact ⟨_, _, tokens_append_gt r', rfl⟩
  · by_cases hs : c ∈ symbols
    · refine ⟨_, _, tokens_cons_of_symbol hs hgt, ?_⟩
      have hplus : c ≠ '+' := fun he => by rw [he] at hs; exact absurd hs (by decide)
      simp [Tok.lead, hplus]
    · exact ⟨_, _, tokens_cons_of_word r ⟨hc, hs⟩, rfl⟩

/-- Every token of a line is a word of word characters, a symbol, or `+` for `>>`. -/
theorem tokens_mem_cases {tok : Tok} (s : List Char) (h : tok ∈ tokens s) :
    (∃ w, tok = .word w ∧ w ≠ [] ∧ ∀ c ∈ w, IsWordChar c) ∨
      ∃ c, tok = .sym c ∧ (c ∈ symbols ∨ c = '+') := by
  -- strong induction on the line's length, one case for each equation of `tokens`
  induction hn : s.length using Nat.strong_induction_on generalizing s with
  | _ n ih =>
  cases s with
  | nil => simp at h
  | cons c r =>
    have ih' : ∀ u : List Char, u.length ≤ r.length → tok ∈ tokens u → _ := fun u hu hm =>
      ih u.length (by simp only [List.length_cons] at hn; omega) u hm rfl
    by_cases hw : c ∈ whitespace
    · rw [tokens_cons_of_mem_whitespace r hw] at h
      exact ih' r le_rfl h
    by_cases hgt : c = '>' ∧ r.head? = some '>'
    · obtain ⟨rfl, hr⟩ := hgt
      obtain ⟨r', rfl⟩ : ∃ r', r = '>' :: r' := by
        cases r with
        | nil => cases hr
        | cons x r' => cases hr; exact ⟨r', rfl⟩
      rw [tokens_append_gt] at h
      rcases List.mem_cons.mp h with rfl | h
      · exact .inr ⟨'+', rfl, .inr rfl⟩
      · exact ih' r' (by simp) h
    by_cases hs : c ∈ symbols
    · rw [tokens_cons_of_symbol hs hgt] at h
      rcases List.mem_cons.mp h with rfl | h
      · exact .inr ⟨c, rfl, .inl hs⟩
      · exact ih' r le_rfl h
    rw [tokens_cons_of_word r ⟨hw, hs⟩] at h
    rcases List.mem_cons.mp h with rfl | h
    · refine .inl ⟨_, rfl, List.cons_ne_nil _ _, fun x hx => ?_⟩
      rcases List.mem_cons.mp hx with rfl | hx
      · exact ⟨hw, hs⟩
      · exact of_decide_eq_true (List.mem_takeWhile_imp (p := fun x => decide (IsWordChar x)) hx)
    · exact ih' _ (List.dropWhile_suffix _).length_le h

/-- A word of a line starts with a word character, so with none of the symbols `peek` looks
for. -/
theorem word_lead_not_mem {s w toks : List Char} (h : Tok.word w ∈ tokens s)
    (htoks : ∀ c ∈ toks, c ∈ symbols) : Tok.lead (.word w) ∉ toks := by
  rcases tokens_mem_cases s h with ⟨w', hw, hne, hwc⟩ | ⟨c, hc, -⟩
  · cases hw
    obtain ⟨x, xs, rfl⟩ := List.exists_cons_of_ne_nil hne
    exact fun hm => (hwc x List.mem_cons_self).2 (htoks x hm)
  · cases hc

theorem tokens_head_cases {s : List Char} {tok : Tok} {ts : List Tok} (h : tokens s = tok :: ts) :
    (∃ w, tok = .word w ∧ w ≠ [] ∧ ∀ c ∈ w, IsWordChar c) ∨
      ∃ c, tok = .sym c ∧ (c ∈ symbols ∨ c = '+') :=
  tokens_mem_cases s (h ▸ List.mem_cons_self)

/-- A symbol token's code is neither NUL nor the code of a word. -/
theorem sym_code_ne {c : Char} (h : c ∈ symbols ∨ c = '+') :
    (Tok.sym c).code ≠ Char.ofNat 0 ∧ (Tok.sym c).code ≠ 'a' := by
  simp only [symbols, List.mem_cons, List.not_mem_nil, or_false] at h
  rcases h with (rfl | rfl | rfl | rfl | rfl | rfl | rfl) | rfl <;> decide

/-- Whether the first token is the symbol `c`: for a symbol other than `>`, no other token
starts with `c`. -/
theorem sym_head_cases {c : Char} (hc : c ∈ symbols) (hgt : c ≠ '>') (s : List Char) :
    (∃ ts, tokens s = .sym c :: ts) ∨ ∀ tok ∈ (tokens s).head?, tok.lead ≠ c := by
  cases h : tokens s with
  | nil => exact .inr (by simp)
  | cons tok ts =>
    by_cases hl : tok.lead = c
    · refine .inl ⟨ts, ?_⟩
      rcases tokens_head_cases h with ⟨w, rfl, -⟩ | ⟨c', rfl, -⟩
      · exact absurd (List.mem_singleton.mpr hl)
          (word_lead_not_mem (h ▸ List.mem_cons_self) (by simpa using hc))
      · by_cases hplus : c' = '+'
        · subst hplus
          exact absurd hl.symm (by simpa [Tok.lead] using hgt)
        · simp only [Tok.lead, hplus, if_false] at hl
          rw [hl]
    · refine .inr fun tok' ht => ?_
      rw [List.head?_cons, Option.mem_some_iff] at ht
      exact ht ▸ hl

/-! ### `gettoken` and `peek` -/

section Cursor

variable {s : List Char} (es : Nat)

theorem peek_fst (toks : List Char) : (peek s toks).1 = skipWhitespace s := rfl

/-- `peek` answers whether the first token starts with one of `toks`. -/
theorem peek_snd_iff (hnul : Char.ofNat 0 ∉ s) {toks : List Char}
    (htoks : Char.ofNat 0 ∉ toks) :
    (peek s toks).2 = true ↔ ∃ tok ts, tokens s = tok :: ts ∧ tok.lead ∈ toks := by
  unfold peek
  cases hu : skipWhitespace s with
  | nil =>
    simp only [Bool.false_eq_true, false_iff]
    rintro ⟨tok, ts, h, -⟩
    rw [← tokens_skipWhitespace, hu, tokens_nil] at h
    cases h
  | cons c r =>
    have hc0 : c ≠ Char.ofNat 0 := fun he =>
      hnul ((skipWhitespace_suffix s).subset (hu ▸ he ▸ List.mem_cons_self))
    obtain ⟨tok, ts, htok, hlead⟩ := tokens_of_skip hu
    have hne : (c != Char.ofNat 0) = true := bne_iff_ne.mpr hc0
    simp only [hne, Bool.true_and, strchr_isSome_iff htoks]
    constructor
    · exact fun hm => ⟨tok, ts, htok, hlead ▸ hm⟩
    · rintro ⟨tok', ts', h', hm⟩
      rw [htok] at h'
      cases h'
      exact hlead ▸ hm

/-- `peek` answers no when the first token starts with none of `toks`. -/
theorem peek_of_stop (hnul : Char.ofNat 0 ∉ s) {toks : List Char} (htoks : Char.ofNat 0 ∉ toks)
    (hstop : ∀ tok ∈ (tokens s).head?, tok.lead ∉ toks) : (peek s toks).2 = false := by
  rw [Bool.eq_false_iff]
  intro hp
  obtain ⟨tok, ts, h, hm⟩ := (peek_snd_iff hnul htoks).mp hp
  exact hstop tok (by rw [h]; rfl) hm

theorem peek_of_nil {toks : List Char} (h : tokens s = []) : (peek s toks).2 = false := by
  simp only [peek, skipWhitespace_eq_nil h]

/-- `peek` for symbols never stops at a word. -/
theorem peek_of_word (hnul : Char.ofNat 0 ∉ s) {toks w : List Char} {ts : List Tok}
    (h : tokens s = .word w :: ts) (htoks : ∀ c ∈ toks, c ∈ symbols) :
    (peek s toks).2 = false := by
  rw [Bool.eq_false_iff]
  intro hp
  obtain ⟨tok, ts', h', hm⟩ :=
    (peek_snd_iff hnul (fun h0 => nul_not_mem_symbols (htoks _ h0))).mp hp
  rw [h] at h'
  cases h'
  exact word_lead_not_mem (h ▸ List.mem_cons_self) htoks hm

theorem peek_of_sym (hnul : Char.ofNat 0 ∉ s) {toks : List Char} {c : Char} {ts : List Tok}
    (h : tokens s = .sym c :: ts) (htoks : Char.ofNat 0 ∉ toks) :
    (peek s toks).2 = decide ((Tok.sym c).lead ∈ toks) := by
  rw [Bool.eq_iff_iff, peek_snd_iff hnul htoks, decide_eq_true_iff, h]
  constructor
  · rintro ⟨tok, ts', h', hm⟩
    cases h'
    exact hm
  · exact fun hm => ⟨_, _, rfl, hm⟩

/-- `peek` for one symbol other than `>` finds exactly that symbol's token. -/
theorem peek_sym_inv (hnul : Char.ofNat 0 ∉ s) {c : Char} (hc : c ∈ symbols) (hgt : c ≠ '>')
    (hp : (peek s [c]).2 = true) : ∃ ts, tokens s = .sym c :: ts := by
  obtain ⟨tok, ts, h, hm⟩ :=
    (peek_snd_iff hnul (fun h0 => nul_not_mem_symbols (List.mem_singleton.mp h0 ▸ hc))).mp hp
  refine (sym_head_cases hc hgt s).resolve_right fun hstop => ?_
  exact hstop tok (by rw [h]; rfl) (List.mem_singleton.mp hm)

/-- At the end of the tokens, `gettoken` answers NUL and leaves the cursor at the end. -/
theorem gettoken_of_nil (h : tokens s = []) :
    (gettoken es s).code = Char.ofNat 0 ∧ (gettoken es s).rest = [] := by
  have hu := skipWhitespace_eq_nil h
  simp only [gettoken, hu]
  exact ⟨trivial, rfl⟩

/-- `gettoken` on a cursor whose first token is `tok`: its code, and the cursor past the token
and the whitespace after it, where the other tokens begin. -/
theorem gettoken_of_cons (hnul : Char.ofNat 0 ∉ s) {tok : Tok} {ts : List Tok}
    (h : tokens s = tok :: ts) :
    (gettoken es s).code = tok.code ∧ tokens (gettoken es s).rest = ts ∧
      (gettoken es s).rest.length < s.length ∧ (gettoken es s).rest <:+ s := by
  rw [← tokens_skipWhitespace] at h
  cases hu : skipWhitespace s with
  | nil => rw [hu, tokens_nil] at h; cases h
  | cons c r =>
    rw [hu] at h
    have hsuf : c :: r <:+ s := hu ▸ skipWhitespace_suffix s
    have hc0 : c ≠ Char.ofNat 0 := fun he => hnul (hsuf.subset (he ▸ List.mem_cons_self))
    have hc := not_mem_whitespace_of_skip hu
    have hrest : ∀ r', r' <:+ r → (skipWhitespace r').length < s.length ∧
        skipWhitespace r' <:+ s := fun r' hr' =>
      have hr's : r' <:+ s := hr'.trans ((List.suffix_cons c r).trans hsuf)
      have h1 := (skipWhitespace_suffix r').length_le
      have h2 := hr'.length_le
      have h3 := hsuf.length_le
      ⟨by simp only [List.length_cons] at h3; omega, (skipWhitespace_suffix r').trans hr's⟩
    by_cases hgt : c = '>' ∧ r.head? = some '>'
    · obtain ⟨rfl, hr⟩ := hgt
      obtain ⟨r', rfl⟩ : ∃ r', r = '>' :: r' := by
        cases r with
        | nil => cases hr
        | cons x r' => cases hr; exact ⟨r', rfl⟩
      rw [tokens_append_gt] at h
      cases h
      simp only [gettoken, hu]
      exact ⟨rfl, tokens_skipWhitespace r', hrest r' (List.suffix_cons _ _)⟩
    · by_cases hs : c ∈ symbols
      · rw [tokens_cons_of_symbol hs hgt] at h
        cases h
        by_cases hgt' : c = '>'
        · subst hgt'
          -- `r` does not start with a second `>`, so the inner match takes its default
          have hr : ∀ r', r ≠ '>' :: r' := fun r' he => hgt ⟨rfl, by rw [he]; rfl⟩
          simp +decide only [gettoken, hu, if_true, if_false]
          exact ⟨trivial, tokens_skipWhitespace r, hrest r List.suffix_rfl⟩
        · have hsym : c = '|' ∨ c = '(' ∨ c = ')' ∨ c = ';' ∨ c = '&' ∨ c = '<' := by
            simp only [symbols, List.mem_cons, List.not_mem_nil, or_false] at hs
            tauto
          simp only [gettoken, hu, if_neg hc0, if_pos hsym]
          exact ⟨rfl, tokens_skipWhitespace r, hrest r List.suffix_rfl⟩
      · rw [tokens_cons_of_word r ⟨hc, hs⟩] at h
        cases h
        have hsym : ¬ (c = '|' ∨ c = '(' ∨ c = ')' ∨ c = ';' ∨ c = '&' ∨ c = '<') := by
          intro hm
          apply hs
          rcases hm with rfl | rfl | rfl | rfl | rfl | rfl <;> decide
        have hgt' : c ≠ '>' := fun he => hs (he ▸ by decide)
        have hword : skipWord (c :: r) = r.dropWhile (decide <| IsWordChar ·) := by
          rw [skipWord_eq, List.dropWhile_cons_of_pos (p := fun x => decide (IsWordChar x))
            (decide_eq_true (show IsWordChar c from ⟨hc, hs⟩))]
        simp only [gettoken, hu, if_neg hc0, if_neg hsym, if_neg hgt', hword]
        exact ⟨rfl, tokens_skipWhitespace _, hrest _ (List.dropWhile_suffix _)⟩

/-- On a word, `gettoken` returns where the word starts and ends: the cursor past the
whitespace is the word and then characters that start with no word character. -/
theorem gettoken_of_word (hnul : Char.ofNat 0 ∉ s) {w : List Char} {ts : List Tok}
    (h : tokens s = .word w :: ts) :
    ∃ r, skipWhitespace s = w ++ r ∧ (gettoken es s).q = es - (w ++ r).length ∧
      (gettoken es s).eq = es - r.length ∧ w ≠ [] ∧ (∀ c ∈ w, IsWordChar c) ∧
      ∀ c ∈ r.head?, ¬ IsWordChar c := by
  rw [← tokens_skipWhitespace] at h
  cases hu : skipWhitespace s with
  | nil => rw [hu, tokens_nil] at h; cases h
  | cons c r =>
    rw [hu] at h
    have hsuf : c :: r <:+ s := hu ▸ skipWhitespace_suffix s
    have hc0 : c ≠ Char.ofNat 0 := fun he => hnul (hsuf.subset (he ▸ List.mem_cons_self))
    have hc := not_mem_whitespace_of_skip hu
    by_cases hgt : c = '>' ∧ r.head? = some '>'
    · obtain ⟨rfl, hr⟩ := hgt
      obtain ⟨r', rfl⟩ : ∃ r', r = '>' :: r' := by
        cases r with
        | nil => cases hr
        | cons x r' => cases hr; exact ⟨r', rfl⟩
      rw [tokens_append_gt] at h
      cases h
    · by_cases hs : c ∈ symbols
      · rw [tokens_cons_of_symbol hs hgt] at h
        cases h
      · rw [tokens_cons_of_word r ⟨hc, hs⟩] at h
        cases h
        have hsym : ¬ (c = '|' ∨ c = '(' ∨ c = ')' ∨ c = ';' ∨ c = '&' ∨ c = '<') := by
          intro hm
          apply hs
          rcases hm with rfl | rfl | rfl | rfl | rfl | rfl <;> decide
        have hgt' : c ≠ '>' := fun he => hs (he ▸ by decide)
        have hword : skipWord (c :: r) = r.dropWhile (decide <| IsWordChar ·) := by
          rw [skipWord_eq, List.dropWhile_cons_of_pos (p := fun x => decide (IsWordChar x))
            (decide_eq_true (show IsWordChar c from ⟨hc, hs⟩))]
        refine ⟨r.dropWhile (decide <| IsWordChar ·), ?_, ?_, ?_, List.cons_ne_nil _ _, ?_, ?_⟩
        · rw [List.cons_append, List.takeWhile_append_dropWhile]
        · simp only [gettoken, hu]
          rw [List.cons_append, List.takeWhile_append_dropWhile]
        · simp only [gettoken, hu, if_neg hc0, if_neg hsym, if_neg hgt', hword]
        · intro x hx
          rcases List.mem_cons.mp hx with rfl | hx
          · exact ⟨hc, hs⟩
          · exact of_decide_eq_true (List.mem_takeWhile_imp (p := fun x => decide (IsWordChar x)) hx)
        · intro x hx
          have hne : r.dropWhile (decide <| IsWordChar ·) ≠ [] := by
            intro he
            rw [he] at hx
            cases hx
          have := List.head_dropWhile_not (decide <| IsWordChar ·) hne
          rw [List.head?_eq_some_head hne, Option.mem_some_iff] at hx
          rw [← hx]
          exact of_decide_eq_false this

end Cursor

end User
end Xv6

