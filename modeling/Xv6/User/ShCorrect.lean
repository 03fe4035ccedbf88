import Xv6.Lib.StateExcept
import Xv6.Lib.Terminate
import Xv6.User.ShGrammar

/-! The shell's parser accepts exactly its grammar. For each parse function three facts, each
by induction: what a successful parse reads derives from its nonterminal (soundness, on the
fuel); a derivation followed by what may follow it is parsed to its tree (completeness, on
the derivation); and fuel of four units a character never runs out (totality, on the fuel).
The loops come first, then the four functions that call each other, then `parsecmd` with
`nulterminate`. -/
namespace Xv6
namespace User
open StateExcept Terminate

/-- Every word of `ps`, by its start and end, stands in the line. -/
def Placed (line : List Char) (ps : List (Nat × Nat)) : Prop :=
  ∀ p ∈ ps, ∃ w, WordAt line p.1 p.2 w

@[simp] theorem placed_nil (line : List Char) : Placed line [] := by
  simp [Placed]

@[simp] theorem placed_cons {line : List Char} {p : Nat × Nat} {ps : List (Nat × Nat)} :
    Placed line (p :: ps) ↔ (∃ w, WordAt line p.1 p.2 w) ∧ Placed line ps :=
  List.forall_mem_cons

@[simp] theorem placed_append {line : List Char} {ps qs : List (Nat × Nat)} :
    Placed line (ps ++ qs) ↔ Placed line ps ∧ Placed line qs :=
  List.forall_mem_append

/-- What `parseredirs` meets first: no redirection operator, an operator and its file's
word, or an operator with no word after it. -/
theorem redirs_head_cases (s : List Char) :
    (∀ tok ∈ (tokens s).head?, tok.lead ∉ ['<', '>']) ∨
    (∃ op f ts, (op = '<' ∨ op = '>' ∨ op = '+') ∧ tokens s = .sym op :: .word f :: ts) ∨
    (∃ op ts, (op = '<' ∨ op = '>' ∨ op = '+') ∧ tokens s = .sym op :: ts ∧
      ∀ tok ∈ ts.head?, tok.code ≠ 'a') := by
  cases h : tokens s with
  | nil => exact .inl (by simp)
  | cons tok ts =>
    rcases tokens_head_cases h with ⟨w, rfl, -⟩ | ⟨c, rfl, hc⟩
    · refine .inl fun tok' ht => ?_
      rw [List.head?_cons, Option.mem_some_iff] at ht
      subst ht
      exact word_lead_not_mem (h ▸ List.mem_cons_self) (by simp [symbols])
    by_cases hop : c = '<' ∨ c = '>' ∨ c = '+'
    · cases ts with
      | nil => exact .inr (.inr ⟨c, [], hop, rfl, by simp⟩)
      | cons tok' ts' =>
        rcases tokens_mem_cases s (show tok' ∈ tokens s by rw [h]; simp) with ⟨f, rfl, -⟩ | ⟨c', rfl, hc'⟩
        · exact .inr (.inl ⟨c, f, ts', hop, rfl⟩)
        · refine .inr (.inr ⟨c, _, hop, rfl, fun t ht => ?_⟩)
          rw [List.head?_cons, Option.mem_some_iff] at ht
          subst ht
          exact (sym_code_ne hc').2
    · refine .inl fun tok' ht => ?_
      rw [List.head?_cons, Option.mem_some_iff] at ht
      subst ht
      have hplus : c ≠ '+' := fun he => hop (.inr (.inr he))
      simp only [Tok.lead, hplus, if_false, List.mem_cons, List.not_mem_nil, or_false]
      exact fun hm => hop (hm.elim .inl (.inr ∘ .inl))

/-- The operators of `redirs` are the tokens whose first character `peek` for `<>` finds. -/
theorem lead_redir {op : Char} (hop : op = '<' ∨ op = '>' ∨ op = '+') :
    (Tok.sym op).lead ∈ ['<', '>'] := by
  rcases hop with rfl | rfl | rfl <;> decide

/-- After the redirections of an `exec` come its words and then what may follow it: never a
redirection operator. -/
theorem words_stop {s : List Char} {ts more : List Tok} {ws : List (List Char)}
    {rs : List (List Char × Nat × Nat)} (hW : Words ts ws rs) (hsub : ts ⊆ tokens s)
    (hf : more.head? ∈ follows .exec) : ∀ tok ∈ (ts ++ more).head?, tok.lead ∉ ['<', '>'] := by
  intro tok ht
  cases ts with
  | nil =>
    rw [List.nil_append] at ht
    exact follows_not_redir hf tok ht
  | cons tok' ts =>
    rw [List.cons_append, List.head?_cons, Option.mem_some_iff] at ht
    subst ht
    obtain ⟨w, rfl⟩ := hW.head_word tok' rfl
    exact word_lead_not_mem (hsub List.mem_cons_self) (by simp [symbols])

/-- An `exec` of words, unless it is empty and the end of the line follows it, starts with a
redirection operator, a word, or what may follow it: never a `(`. -/
theorem simple_head_not_paren {s : List Char} {r0 ts more : List Tok}
    {rs0 rs : List (List Char × Nat × Nat)} {ws : List (List Char)} (hR0 : Redirs r0 rs0)
    (hW : Words ts ws rs) (hsub : ts ⊆ tokens s) (hf : more.head? ∈ follows .exec) :
    ∀ tok ∈ (r0 ++ (ts ++ more)).head?, tok.lead ∉ ['('] := by
  intro tok ht
  cases r0 with
  | cons tok' r0 =>
    rw [List.cons_append, List.head?_cons, Option.mem_some_iff] at ht
    subst ht
    obtain ⟨op, mode, fd, rfl, hop⟩ := hR0.head_op tok' rfl
    have hlead := lead_redir hop.op_cases
    exact fun hm => by
      rw [List.mem_singleton.mp hm] at hlead
      exact absurd hlead (by decide)
  | nil =>
    rw [List.nil_append] at ht
    cases ts with
    | cons tok' ts =>
      rw [List.cons_append, List.head?_cons, Option.mem_some_iff] at ht
      subst ht
      obtain ⟨w, rfl⟩ := hW.head_word tok' rfl
      exact word_lead_not_mem (hsub List.mem_cons_self) (by simp [symbols])
    | nil =>
      rw [List.nil_append] at ht
      exact fun hm => follows_lead_ne hf (by decide) tok ht (List.mem_singleton.mp hm)

/-- `peek` for a symbol that may not follow `n` answers no where what may follow `n` comes. -/
theorem peek_of_follows {s : List Char} {more : List Tok} {n : NT} {c : Char}
    (hnul : Char.ofNat 0 ∉ s) (htok : tokens s = more) (hf : more.head? ∈ follows n)
    (hc : some (Tok.sym c) ∉ follows n) (hc0 : c ≠ Char.ofNat 0) : (peek s [c]).2 = false :=
  peek_of_stop hnul (fun h => hc0 (List.mem_singleton.mp h).symm) fun tok ht hm =>
    follows_lead_ne hf hc tok (htok ▸ ht) (List.mem_singleton.mp hm)

section Loops

variable {line : List Char} (hline : Char.ofNat 0 ∉ line)
include hline

/-- What `parseredirs` reads derives from `redirs`, with the redirections it returns; their
files stand in the line. -/
theorem parseredirs_sound : ∀ {fuel : Nat} {s s' : List Char} {rs : List Redir},
    s <:+ line → parseredirs line.length fuel s = .ok (rs, s') →
    (∃ ts, tokens s = ts ++ tokens s' ∧ Redirs ts (rs.map (Redir.toText (wordText line)))) ∧
      s' <:+ line ∧ s'.length ≤ s.length ∧ Placed line (rs.map fun r => (r.file, r.efile))
  | 0, _, _, _, _, h => by cases h
  | fuel + 1, s, s', rs, hs, h => by
    rcases redirs_head_cases s with hstop | ⟨op, f, ts, hop, htok⟩ | ⟨op, ts, hop, htok, hts⟩
    · -- no operator: nothing is read
      rw [parseredirs_of_stop (nul_not_mem_of_suffix hline hs) hstop] at h
      cases h
      exact ⟨⟨[], (tokens_skipWhitespace s).symm, .nil⟩, (skipWhitespace_suffix s).trans hs,
        (skipWhitespace_suffix s).length_le, by simp⟩
    · obtain ⟨rest, q, eq, hrest, hrs, hlen, hw, hstep⟩ :=
        parseredirs_of_redir hline hs hop htok fuel
      rw [hstep] at h
      obtain ⟨⟨rs', s''⟩, hr, h⟩ := bind_eq_ok h
      cases h
      obtain ⟨⟨ts', hts', hR⟩, hsuf, hle, hws⟩ := parseredirs_sound hrs hr
      obtain ⟨mode, fd, hmode, hof⟩ := redirOf_of_op hop q eq
      refine ⟨⟨.sym op :: .word f :: ts', ?_, ?_⟩, hsuf, show s''.length ≤ s.length by omega, ?_⟩
      · rw [htok, ← hrest, hts']
        rfl
      · rw [hof, List.singleton_append, List.map_cons, Redir.toText, wordText_of_wordAt hw]
        exact .cons hmode hR
      · rw [hof, List.singleton_append, List.map_cons, placed_cons]
        exact ⟨⟨f, hw⟩, hws⟩
    · rw [parseredirs_of_nofile hline hs hop htok hts] at h
      cases h

/-- `redirs`, followed by a token that is no redirection operator, is read to its
redirections. -/
theorem parseredirs_complete {ts : List Tok} {rsT : List (List Char × Nat × Nat)}
    (hR : Redirs ts rsT) :
    ∀ {s : List Char} {more : List Tok}, s <:+ line → tokens s = ts ++ more →
      (∀ tok ∈ more.head?, tok.lead ∉ ['<', '>']) → ∀ fuel,
      OkOr .fuel (parseredirs line.length fuel s) fun r =>
        tokens r.2 = more ∧ r.2 <:+ line ∧ r.1.map (Redir.toText (wordText line)) = rsT := by
  induction hR with
  | nil =>
    intro s more hs htok hstop fuel
    cases fuel with
    | zero => exact .inl rfl
    | succ fuel =>
      rw [List.nil_append] at htok
      rw [parseredirs_of_stop (nul_not_mem_of_suffix hline hs) (htok ▸ hstop)]
      exact .of_ok ⟨by rw [tokens_skipWhitespace, htok], (skipWhitespace_suffix s).trans hs, rfl⟩
  | @cons op f mode fd ts rs hmode _ ih =>
    intro s more hs htok hstop fuel
    cases fuel with
    | zero => exact .inl rfl
    | succ fuel =>
      obtain ⟨rest, q, eq, hrest, hrs, -, hw, hstep⟩ :=
        parseredirs_of_redir hline hs hmode.op_cases htok fuel
      obtain ⟨mode', fd', hmode', hof⟩ := redirOf_of_op hmode.op_cases q eq
      obtain ⟨rfl, rfl⟩ := hmode'.unique hmode
      rw [hstep]
      refine (ih hrs hrest hstop fuel).bind fun r hres => .of_ok ?_
      obtain ⟨hr1, hr2, hr3⟩ := hres
      refine ⟨hr1, hr2, ?_⟩
      rw [hof, List.singleton_append, List.map_cons, hr3, Redir.toText, wordText_of_wordAt hw]

/-- With a unit of fuel for each character, `parseredirs` never runs out. -/
theorem parseredirs_total : ∀ {fuel : Nat} {s : List Char}, s <:+ line → s.length < fuel →
    parseredirs line.length fuel s ≠ .error .fuel
  | 0, _, _, h => absurd h (Nat.not_lt_zero _)
  | fuel + 1, s, hs, hfuel => by
    rcases redirs_head_cases s with hstop | ⟨op, f, ts, hop, htok⟩ | ⟨op, ts, hop, htok, hts⟩
    · rw [parseredirs_of_stop (nul_not_mem_of_suffix hline hs) hstop]
      exact fun h => by cases h
    · obtain ⟨rest, q, eq, -, hrs, hlen, -, hstep⟩ :=
        parseredirs_of_redir hline hs hop htok fuel
      rw [hstep]
      exact bind_ne_error (parseredirs_total hrs (by omega)) fun _ _ h => by cases h
    · rw [parseredirs_of_nofile hline hs hop htok hts]
      exact fun h => by cases h

/-- What `execLoop` reads, `argc` words in, is `(word redirs)*` with its words and
redirections; it stops short of `MAXARGS` words. -/
theorem execLoop_sound : ∀ {fuel argc : Nat} {s s' : List Char} {argv : List (Nat × Nat)}
    {rs : List Redir}, s <:+ line → argc < MAXARGS →
    execLoop line.length fuel argc s = .ok (argv, rs, s') →
    (∃ ts, tokens s = ts ++ tokens s' ∧ Words ts (argv.map fun p => wordText line p.1 p.2)
      (rs.map (Redir.toText (wordText line)))) ∧ argc + argv.length < MAXARGS ∧
      s' <:+ line ∧ s'.length ≤ s.length ∧ Placed line (argv ++ rs.map fun r => (r.file, r.efile))
  | 0, _, _, _, _, _, _, _, h => by cases h
  | fuel + 1, argc, s, s', argv, rs, hs, hargc, h => by
    have hnul := nul_not_mem_of_suffix hline hs
    cases htok : tokens s with
    | nil =>
      rw [execLoop_of_nil htok] at h
      cases h
      exact ⟨⟨[], by rw [tokens_nil]; rfl, .nil⟩, hargc, List.nil_suffix, Nat.zero_le _,
        placed_nil line⟩
    | cons tok ts =>
      rcases tokens_head_cases htok with ⟨w, rfl, -⟩ | ⟨c, rfl, -⟩
      · by_cases hroom : argc + 1 < MAXARGS
        · obtain ⟨rest, q, eq, hrest, hrs, hlen, hw, hstep⟩ :=
            execLoop_of_word hline hs htok hroom fuel
          rw [hstep] at h
          obtain ⟨⟨rs1, s1⟩, hr, h⟩ := bind_eq_ok h
          obtain ⟨⟨argv2, rs2, s2⟩, hl, h⟩ := bind_eq_ok h
          cases h
          obtain ⟨⟨tr, htr, hR⟩, hsuf1, hle1, hp1⟩ := parseredirs_sound hline hrs hr
          obtain ⟨⟨tl, htl, hW⟩, hargc2, hsuf2, hle2, hp2⟩ := execLoop_sound hsuf1 hroom hl
          refine ⟨⟨.word w :: (tr ++ tl), ?_, ?_⟩, ?_, hsuf2, show s2.length ≤ s.length by omega, ?_⟩
          · rw [← hrest, htr, htl]
            simp
          · rw [List.map_cons, List.map_append, wordText_of_wordAt hw]
            exact .cons hR hW
          · show argc + (argv2.length + 1) < MAXARGS
            omega
          · simp only [placed_append, List.map_append, placed_cons] at hp1 hp2 ⊢
            exact ⟨⟨⟨w, hw⟩, hp2.1⟩, hp1, hp2.2⟩
        · rw [execLoop_of_full hline hs htok (by omega)] at h
          cases h
      · by_cases hc : (Tok.sym c).lead ∈ ['|', ')', '&', ';']
        · rw [execLoop_of_stop hnul htok hc] at h
          cases h
          exact ⟨⟨[], by rw [tokens_skipWhitespace, htok]; rfl, .nil⟩, hargc,
            (skipWhitespace_suffix s).trans hs, (skipWhitespace_suffix s).length_le, placed_nil line⟩
        · rw [execLoop_of_sym hline hs htok hc] at h
          cases h

/-- `(word redirs)*` with room for its words, followed by what may follow an `exec`, is read to
its words and redirections. -/
theorem execLoop_complete {ts : List Tok} {ws : List (List Char)}
    {rsT : List (List Char × Nat × Nat)} (hW : Words ts ws rsT) :
    ∀ {s : List Char} {more : List Tok} {argc : Nat}, s <:+ line → tokens s = ts ++ more →
      more.head? ∈ follows .exec → argc + ws.length < MAXARGS → ∀ fuel,
      OkOr .fuel (execLoop line.length fuel argc s) fun r =>
        tokens r.2.2 = more ∧ r.2.2 <:+ line ∧ r.1.map (fun p => wordText line p.1 p.2) = ws ∧
          r.2.1.map (Redir.toText (wordText line)) = rsT := by
  induction hW with
  | nil =>
    intro s more argc hs htok hf _ fuel
    cases fuel with
    | zero => exact .inl rfl
    | succ fuel =>
      rw [List.nil_append] at htok
      cases more with
      | nil =>
        rw [execLoop_of_nil htok]
        exact .of_ok ⟨tokens_nil, List.nil_suffix, rfl, rfl⟩
      | cons tok more =>
        obtain ⟨c, rfl, hc, hl⟩ := follows_sym hf
        have hstop : (Tok.sym c).lead ∈ ['|', ')', '&', ';'] := by
          rw [hl]
          exact (by simp : ∀ c ∈ [')', '&', ';', '|'], c ∈ ['|', ')', '&', ';']) c hc
        rw [execLoop_of_stop (nul_not_mem_of_suffix hline hs) htok hstop]
        exact .of_ok ⟨by rw [tokens_skipWhitespace, htok], (skipWhitespace_suffix s).trans hs,
          rfl, rfl⟩
  | @cons w r ts rs rs' ws hR hW ih =>
    intro s more argc hs htok hf hroom fuel
    cases fuel with
    | zero => exact .inl rfl
    | succ fuel =>
      rw [List.cons_append, List.append_assoc] at htok
      rw [List.length_cons] at hroom
      obtain ⟨rest, q, eq, hrest, hrs, -, hw, hstep⟩ :=
        execLoop_of_word hline hs htok (show argc + 1 < MAXARGS by omega) fuel
      rw [hstep]
      have hstop := words_stop hW (fun tok ht => by rw [htok]; simp [ht]) hf
      refine (parseredirs_complete hline hR hrs hrest hstop fuel).bind fun r hres => ?_
      obtain ⟨hr1, hr2, hr3⟩ := hres
      refine (ih hr2 hr1 hf (by omega) fuel).bind fun l hres => .of_ok ?_
      obtain ⟨hl1, hl2, hl3, hl4⟩ := hres
      refine ⟨hl1, hl2, ?_, ?_⟩
      · rw [List.map_cons, hl3, wordText_of_wordAt hw]
      · rw [List.map_append, hr3, hl4]

/-- With a unit of fuel for each character, `execLoop` never runs out. -/
theorem execLoop_total : ∀ {fuel argc : Nat} {s : List Char}, s <:+ line → s.length < fuel →
    execLoop line.length fuel argc s ≠ .error .fuel
  | 0, _, _, _, h => absurd h (Nat.not_lt_zero _)
  | fuel + 1, argc, s, hs, hfuel => by
    cases htok : tokens s with
    | nil =>
      rw [execLoop_of_nil htok]
      exact fun h => by cases h
    | cons tok ts =>
      rcases tokens_head_cases htok with ⟨w, rfl, -⟩ | ⟨c, rfl, -⟩
      · by_cases hroom : argc + 1 < MAXARGS
        · obtain ⟨rest, q, eq, -, hrs, hlen, -, hstep⟩ := execLoop_of_word hline hs htok hroom fuel
          rw [hstep]
          refine bind_ne_error (parseredirs_total hline hrs (by omega)) fun r hr => ?_
          obtain ⟨-, hsuf, hle, -⟩ := parseredirs_sound hline hrs hr
          exact bind_ne_error (execLoop_total hsuf (by omega)) fun _ _ h => by cases h
        · rw [execLoop_of_full hline hs htok (by omega)]
          exact fun h => by cases h
      · by_cases hc : (Tok.sym c).lead ∈ ['|', ')', '&', ';']
        · rw [execLoop_of_stop (nul_not_mem_of_suffix hline hs) htok hc]
          exact fun h => by cases h
        · rw [execLoop_of_sym hline hs htok hc]
          exact fun h => by cases h

/-- What `backLoop` reads is `&`s, a `backcmd` for each. -/
theorem backLoop_sound : ∀ {fuel : Nat} {s s' : List Char} {c b : Cmd}, s <:+ line →
    backLoop line.length fuel c s = .ok (b, s') →
    ∃ n, b = c.backs n ∧ tokens s = List.replicate n (.sym '&') ++ tokens s' ∧ s' <:+ line ∧
      s'.length ≤ s.length
  | 0, _, _, _, _, _, h => by cases h
  | fuel + 1, s, s', c, b, hs, h => by
    rcases sym_head_cases (c := '&') (by decide) (by decide) s with ⟨ts, htok⟩ | hstop
    · obtain ⟨rest, hrest, hrs, hlen, hstep⟩ := backLoop_of_amp hline hs htok c fuel
      rw [hstep] at h
      obtain ⟨n, rfl, htn, hsuf, hle⟩ := backLoop_sound hrs h
      refine ⟨n + 1, rfl, ?_, hsuf, by omega⟩
      rw [htok, ← hrest, htn, List.replicate_succ, List.cons_append]
    · rw [backLoop_of_stop (nul_not_mem_of_suffix hline hs) hstop] at h
      cases h
      exact ⟨0, rfl, (tokens_skipWhitespace s).symm, (skipWhitespace_suffix s).trans hs,
        (skipWhitespace_suffix s).length_le⟩

/-- `n` `&`s, followed by a token that is no `&`, give `n` `backcmd`s. -/
theorem backLoop_complete : ∀ (n : Nat) {s : List Char} {more : List Tok} {c : Cmd},
    s <:+ line → tokens s = List.replicate n (.sym '&') ++ more →
    (∀ tok ∈ more.head?, tok.lead ≠ '&') → ∀ fuel,
    OkOr .fuel (backLoop line.length fuel c s) fun r =>
      r.1 = c.backs n ∧ tokens r.2 = more ∧ r.2 <:+ line
  | _, _, _, _, _, _, _, 0 => .inl rfl
  | 0, s, more, c, hs, htok, hstop, fuel + 1 => by
    rw [List.replicate_zero, List.nil_append] at htok
    rw [backLoop_of_stop (nul_not_mem_of_suffix hline hs) (htok ▸ hstop)]
    exact .of_ok ⟨rfl, by rw [tokens_skipWhitespace, htok], (skipWhitespace_suffix s).trans hs⟩
  | n + 1, s, more, c, hs, htok, hstop, fuel + 1 => by
    rw [List.replicate_succ, List.cons_append] at htok
    obtain ⟨rest, hrest, hrs, -, hstep⟩ := backLoop_of_amp hline hs htok c fuel
    rw [hstep]
    exact backLoop_complete n hrs hrest hstop fuel

/-- With a unit of fuel for each character, `backLoop` never runs out. -/
theorem backLoop_total : ∀ {fuel : Nat} {s : List Char} {c : Cmd}, s <:+ line →
    s.length < fuel → backLoop line.length fuel c s ≠ .error .fuel
  | 0, _, _, _, h => absurd h (Nat.not_lt_zero _)
  | fuel + 1, s, c, hs, hfuel => by
    rcases sym_head_cases (c := '&') (by decide) (by decide) s with ⟨ts, htok⟩ | hstop
    · obtain ⟨rest, -, hrs, hlen, hstep⟩ := backLoop_of_amp hline hs htok c fuel
      rw [hstep]
      exact backLoop_total hrs (by omega)
    · rw [backLoop_of_stop (nul_not_mem_of_suffix hline hs) hstop]
      exact fun h => by cases h

end Loops

/-! ### The four parse functions -/

/-- A parse function is sound for `n` on the cursors of `line`: what it reads derives from `n`,
with the command's tree, and the command's words stand in the line. -/
def ParseSound (line : List Char) (n : NT) (parse : List Char → Except PErr (Cmd × List Char)) :
    Prop :=
  ∀ {s s' : List Char} {c : Cmd}, s <:+ line → parse s = .ok (c, s') →
    (∃ ts, tokens s = ts ++ tokens s' ∧ Derives n ts (c.toTree (wordText line))) ∧
      s' <:+ line ∧ s'.length ≤ s.length ∧ Placed line c.ptrs

/-- The parse function of each nonterminal. -/
def NT.parse (es : Nat) : NT → Nat → List Char → Except PErr (Cmd × List Char)
  | .line => parseline es
  | .pipe => parsepipe es
  | .exec => parseexec es

/-- A parse function is complete for the tokens `ts` of a derivation with tree `t`: from a
cursor of `line` where they are followed by what may follow `n`, it reads them to `t`, unless
the fuel runs out. -/
def ParseComplete (line : List Char) (n : NT) (ts : List Tok) (t : Tree) : Prop :=
  ∀ {s : List Char} {more : List Tok}, s <:+ line → tokens s = ts ++ more →
    more.head? ∈ follows n → ∀ fuel, OkOr .fuel (n.parse line.length fuel s) fun r =>
      r.1.toTree (wordText line) = t ∧ tokens r.2 = more ∧ r.2 <:+ line

/-- A parse function never runs out with four units of fuel for each character and `k` more. -/
def ParseTotal (line : List Char) (k fuel : Nat)
    (parse : List Char → Except PErr (Cmd × List Char)) : Prop :=
  ∀ {s : List Char}, s <:+ line → 4 * s.length + k ≤ fuel → parse s ≠ .error .fuel

section Parse

variable {line : List Char} (hline : Char.ofNat 0 ∉ line)
include hline

theorem parseline_sound_step {fuel : Nat}
    (hp : ParseSound line .pipe (parsepipe line.length fuel))
    (hl : ParseSound line .line (parseline line.length fuel)) :
    ParseSound line .line (parseline line.length (fuel + 1)) := by
  intro s s' c hs h
  rw [parseline] at h
  obtain ⟨⟨c1, s1⟩, h1, h⟩ := bind_eq_ok h
  obtain ⟨⟨c2, s2⟩, h2, h⟩ := bind_eq_ok h
  obtain ⟨⟨ps, hps, hd⟩, hsuf1, hle1, hpl1⟩ := hp hs h1
  obtain ⟨n, rfl, hamp, hsuf2, hle2⟩ := backLoop_sound hline hsuf1 h2
  have hle := (skipWhitespace_suffix s2).length_le
  cases hsemi : (peek s2 [';']).2 with
  | true =>
    obtain ⟨ts, hts⟩ := peek_sym_inv (nul_not_mem_of_suffix hline hsuf2) (by decide) (by decide) hsemi
    obtain ⟨hg1, hg2, hg3⟩ := gettoken_skip_cursor hline hsuf2 hts
    simp only [hsemi, if_true, peek_fst] at h
    obtain ⟨⟨c3, s3⟩, h3, h⟩ := bind_eq_ok h
    cases h
    obtain ⟨⟨ls, hls, hdl⟩, hsuf3, hle3, hpl3⟩ := hl hg3 h3
    refine ⟨⟨ps ++ List.replicate n (.sym '&') ++ .sym ';' :: ls, ?_, ?_⟩, hsuf3,
      show s3.length ≤ s.length by omega, ?_⟩
    · rw [hps, hamp, hts, ← hg1, hls]
      simp
    · rw [Cmd.toTree, toTree_backs]
      exact .list n hd hdl
    · rw [Cmd.ptrs, ptrs_backs, placed_append]
      exact ⟨hpl1, hpl3⟩
  | false =>
    simp only [hsemi, Bool.false_eq_true, if_false, peek_fst] at h
    cases h
    refine ⟨⟨ps ++ List.replicate n (.sym '&'), ?_, ?_⟩, (skipWhitespace_suffix s2).trans hsuf2,
      by omega, ?_⟩
    · rw [hps, hamp, tokens_skipWhitespace, List.append_assoc]
    · rw [toTree_backs]
      exact .line n hd
    · rw [ptrs_backs]
      exact hpl1

theorem parsepipe_sound_step {fuel : Nat}
    (he : ParseSound line .exec (parseexec line.length fuel))
    (hp : ParseSound line .pipe (parsepipe line.length fuel)) :
    ParseSound line .pipe (parsepipe line.length (fuel + 1)) := by
  intro s s' c hs h
  rw [parsepipe] at h
  obtain ⟨⟨c1, s1⟩, h1, h⟩ := bind_eq_ok h
  obtain ⟨⟨es, hes, hd⟩, hsuf1, hle1, hpl1⟩ := he hs h1
  have hle := (skipWhitespace_suffix s1).length_le
  cases hbar : (peek s1 ['|']).2 with
  | true =>
    obtain ⟨ts, hts⟩ := peek_sym_inv (nul_not_mem_of_suffix hline hsuf1) (by decide) (by decide) hbar
    obtain ⟨hg1, hg2, hg3⟩ := gettoken_skip_cursor hline hsuf1 hts
    simp only [hbar, if_true, peek_fst] at h
    obtain ⟨⟨c2, s2⟩, h2, h⟩ := bind_eq_ok h
    cases h
    obtain ⟨⟨ps, hps, hdp⟩, hsuf2, hle2, hpl2⟩ := hp hg3 h2
    refine ⟨⟨es ++ .sym '|' :: ps, ?_, .pipe hd hdp⟩, hsuf2, show s2.length ≤ s.length by omega, ?_⟩
    · rw [hes, hts, ← hg1, hps]
      simp
    · rw [Cmd.ptrs, placed_append]
      exact ⟨hpl1, hpl2⟩
  | false =>
    simp only [hbar, Bool.false_eq_true, if_false, peek_fst] at h
    cases h
    exact ⟨⟨es, by rw [hes, tokens_skipWhitespace], .exec hd⟩,
      (skipWhitespace_suffix s1).trans hsuf1, by omega, hpl1⟩

theorem parseexec_sound_step {fuel : Nat}
    (hb : ParseSound line .exec (parseblock line.length fuel)) :
    ParseSound line .exec (parseexec line.length (fuel + 1)) := by
  intro s s' c hs h
  obtain ⟨hus, hu⟩ := skip_cursor hs
  have hle := (skipWhitespace_suffix s).length_le
  rw [parseexec] at h
  cases hpar : (peek s ['(']).2 with
  | true =>
    simp only [hpar, if_true, peek_fst] at h
    obtain ⟨⟨ts, hts, hd⟩, hsuf, hle', hpl⟩ := hb hus h
    exact ⟨⟨ts, hu ▸ hts, hd⟩, hsuf, by omega, hpl⟩
  | false =>
    simp only [hpar, Bool.false_eq_true, if_false, peek_fst] at h
    obtain ⟨⟨rs1, s1⟩, h1, h⟩ := bind_eq_ok h
    obtain ⟨⟨argv, rs2, s2⟩, h2, h⟩ := bind_eq_ok h
    cases h
    obtain ⟨⟨r0, hr0, hR⟩, hsuf1, hle1, hpl1⟩ := parseredirs_sound hline hus h1
    obtain ⟨⟨ts, hts, hW⟩, hargc, hsuf2, hle2, hpl2⟩ := execLoop_sound hline hsuf1 (by decide) h2
    refine ⟨⟨r0 ++ ts, ?_, ?_⟩, hsuf2, show s2.length ≤ s.length by omega, ?_⟩
    · rw [← hu, hr0, hts, List.append_assoc]
    · rw [toTree_wrapRedirs, List.map_append]
      exact .simple hR hW (by simpa using hargc)
    · rw [ptrs_wrapRedirs, List.map_append]
      simp only [Cmd.ptrs, placed_append] at hpl1 hpl2 ⊢
      exact ⟨hpl2.1, hpl1, hpl2.2⟩

theorem parseblock_sound_step {fuel : Nat}
    (hl : ParseSound line .line (parseline line.length fuel)) :
    ParseSound line .exec (parseblock line.length (fuel + 1)) := by
  intro s s' c hs h
  rw [parseblock] at h
  cases hpar : (peek s ['(']).2 with
  | false =>
    simp only [hpar, Bool.not_false, if_true] at h
    cases h
  | true =>
    obtain ⟨ts, hts⟩ := peek_sym_inv (nul_not_mem_of_suffix hline hs) (by decide) (by decide) hpar
    obtain ⟨hg1, hg2, hg3⟩ := gettoken_skip_cursor hline hs hts
    simp only [hpar, Bool.not_true, Bool.false_eq_true, if_false, peek_fst] at h
    obtain ⟨⟨c1, s1⟩, h1, h⟩ := bind_eq_ok h
    obtain ⟨⟨ls, hls, hd⟩, hsuf1, hle1, hpl1⟩ := hl hg3 h1
    cases hclose : (peek s1 [')']).2 with
    | false =>
      simp only [hclose, Bool.not_false, if_true] at h
      cases h
    | true =>
      obtain ⟨ts', hts'⟩ :=
        peek_sym_inv (nul_not_mem_of_suffix hline hsuf1) (by decide) (by decide) hclose
      obtain ⟨hg1', hg2', hg3'⟩ := gettoken_skip_cursor hline hsuf1 hts'
      simp only [hclose, Bool.not_true, Bool.false_eq_true, if_false] at h
      obtain ⟨⟨rs, s2⟩, h2, h⟩ := bind_eq_ok h
      cases h
      obtain ⟨⟨rr, hrr, hR⟩, hsuf2, hle2, hpl2⟩ := parseredirs_sound hline hg3' h2
      refine ⟨⟨.sym '(' :: ls ++ .sym ')' :: rr, ?_, ?_⟩, hsuf2, show s2.length ≤ s.length by omega,
        ?_⟩
      · rw [hts, ← hg1, hls, hts', ← hg1', hrr]
        simp
      · rw [toTree_wrapRedirs]
        exact .block hd hR
      · rw [ptrs_wrapRedirs, placed_append]
        exact ⟨hpl1, hpl2⟩

/-- The four parse functions are sound at every fuel: by induction on the fuel, each step from
the soundness of the functions it calls with one unit less. -/
theorem parse_sound : ∀ fuel : Nat,
    ParseSound line .line (parseline line.length fuel) ∧
      ParseSound line .pipe (parsepipe line.length fuel) ∧
      ParseSound line .exec (parseexec line.length fuel) ∧
      ParseSound line .exec (parseblock line.length fuel)
  | 0 => ⟨(fun _ h => by cases h), (fun _ h => by cases h), (fun _ h => by cases h),
      (fun _ h => by cases h)⟩
  | fuel + 1 =>
    have ⟨hl, hp, he, hb⟩ := parse_sound fuel
    ⟨parseline_sound_step hline hp hl, parsepipe_sound_step hline he hp,
      parseexec_sound_step hline hb, parseblock_sound_step hline hl⟩

/-- Every derivation, followed by what may follow its nonterminal, is parsed to its tree: by
induction on the derivation, one case for each rule. -/
theorem parse_complete {n : NT} {ts : List Tok} {t : Tree} (hd : Derives n ts t) :
    ParseComplete line n ts t := by
  induction hd with
  | @line ps t k _ ihp =>
    intro s more hs htok hf fuel
    cases fuel with
    | zero => exact .inl rfl
    | succ fuel =>
      rw [List.append_assoc] at htok
      rw [NT.parse, parseline]
      refine (ihp hs htok (amps_head_follows k (follows_line_subset hf)) fuel).bind
        fun r hres => ?_
      obtain ⟨hr1, hr2, hr3⟩ := hres
      refine (backLoop_complete hline k hr3 hr2 (follows_lead_ne hf (by decide)) fuel).bind
        fun b hres => ?_
      obtain ⟨hb1, hb2, hb3⟩ := hres
      have hsemi : (peek b.2 [';']).2 = false :=
        peek_of_follows (nul_not_mem_of_suffix hline hb3) hb2 hf (by decide) (by decide)
      simp only [hsemi, Bool.false_eq_true, if_false, peek_fst]
      exact .of_ok ⟨by rw [hb1, toTree_backs, hr1], by rw [tokens_skipWhitespace, hb2],
        (skipWhitespace_suffix _).trans hb3⟩
  | @list ps ls t u k _ _ ihp ihl =>
    intro s more hs htok hf fuel
    cases fuel with
    | zero => exact .inl rfl
    | succ fuel =>
      simp only [List.append_assoc, List.cons_append] at htok
      rw [NT.parse, parseline]
      refine (ihp hs htok (amps_head_follows k (by rw [List.head?_cons]; decide)) fuel).bind
        fun r hres => ?_
      obtain ⟨hr1, hr2, hr3⟩ := hres
      refine (backLoop_complete hline k hr3 hr2 (by rintro _ ⟨⟩; decide) fuel).bind
        fun b hres => ?_
      obtain ⟨hb1, hb2, hb3⟩ := hres
      have hsemi : (peek b.2 [';']).2 = true := by
        rw [peek_of_sym (nul_not_mem_of_suffix hline hb3) hb2 (by decide)]
        decide
      obtain ⟨hg1, -, hg3⟩ := gettoken_skip_cursor hline hb3 hb2
      simp only [hsemi, if_true, peek_fst]
      refine (ihl hg3 hg1 hf fuel).bind fun l hres => .of_ok ?_
      obtain ⟨hl1, hl2, hl3⟩ := hres
      exact ⟨by rw [Cmd.toTree, hb1, toTree_backs, hr1, hl1], hl2, hl3⟩
  | @exec es t _ ihe =>
    intro s more hs htok hf fuel
    cases fuel with
    | zero => exact .inl rfl
    | succ fuel =>
      rw [NT.parse, parsepipe]
      refine (ihe hs htok (follows_pipe_subset hf) fuel).bind fun r hres => ?_
      obtain ⟨hr1, hr2, hr3⟩ := hres
      have hbar : (peek r.2 ['|']).2 = false :=
        peek_of_follows (nul_not_mem_of_suffix hline hr3) hr2 hf (by decide) (by decide)
      simp only [hbar, Bool.false_eq_true, if_false, peek_fst]
      exact .of_ok ⟨hr1, by rw [tokens_skipWhitespace, hr2], (skipWhitespace_suffix _).trans hr3⟩
  | @pipe es ps t u _ _ ihe ihp =>
    intro s more hs htok hf fuel
    cases fuel with
    | zero => exact .inl rfl
    | succ fuel =>
      simp only [List.append_assoc, List.cons_append] at htok
      rw [NT.parse, parsepipe]
      refine (ihe hs htok (by rw [List.head?_cons]; decide) fuel).bind fun r hres => ?_
      obtain ⟨hr1, hr2, hr3⟩ := hres
      have hbar : (peek r.2 ['|']).2 = true := by
        rw [peek_of_sym (nul_not_mem_of_suffix hline hr3) hr2 (by decide)]
        decide
      obtain ⟨hg1, -, hg3⟩ := gettoken_skip_cursor hline hr3 hr2
      simp only [hbar, if_true, peek_fst]
      refine (ihp hg3 hg1 hf fuel).bind fun l hres => .of_ok ?_
      obtain ⟨hl1, hl2, hl3⟩ := hres
      exact ⟨by rw [Cmd.toTree, hr1, hl1], hl2, hl3⟩
  | @block ls rs t r _ hR ihl =>
    intro s more hs htok hf fuel
    cases fuel with
    | zero => exact .inl rfl
    | succ fuel =>
      simp only [List.append_assoc, List.cons_append] at htok
      have hpar : (peek s ['(']).2 = true := by
        rw [peek_of_sym (nul_not_mem_of_suffix hline hs) htok (by decide)]
        decide
      rw [NT.parse, parseexec]
      simp only [hpar, if_true, peek_fst]
      cases fuel with
      | zero => exact .inl rfl
      | succ fuel =>
        obtain ⟨hus, hu⟩ := skip_cursor hs
        rw [htok] at hu
        have hpar' : (peek (skipWhitespace s) ['(']).2 = true := by
          rw [peek_of_sym (nul_not_mem_of_suffix hline hus) hu (by decide)]
          decide
        obtain ⟨hg1, -, hg3⟩ := gettoken_skip_cursor hline hus hu
        rw [parseblock]
        simp only [hpar', Bool.not_true, Bool.false_eq_true, if_false, peek_fst]
        refine (ihl hg3 hg1 (by rw [List.head?_cons]; decide) fuel).bind fun l hres => ?_
        obtain ⟨hl1, hl2, hl3⟩ := hres
        have hclose : (peek l.2 [')']).2 = true := by
          rw [peek_of_sym (nul_not_mem_of_suffix hline hl3) hl2 (by decide)]
          decide
        obtain ⟨hg1', -, hg3'⟩ := gettoken_skip_cursor hline hl3 hl2
        simp only [hclose, Bool.not_true, Bool.false_eq_true, if_false]
        refine (parseredirs_complete hline hR hg3' hg1' (follows_not_redir hf) fuel).bind
          fun rr hres => .of_ok ?_
        obtain ⟨hr1, hr2, hr3⟩ := hres
        exact ⟨by rw [toTree_wrapRedirs, hl1, hr3], hr1, hr2⟩
  | @simple r0 ts rs0 rs ws hR0 hW hlen =>
    intro s more hs htok hf fuel
    cases fuel with
    | zero => exact .inl rfl
    | succ fuel =>
      rw [List.append_assoc] at htok
      have hsub : ts ⊆ tokens s := fun tok ht => by
        rw [htok]
        exact List.mem_append_right _ (List.mem_append_left _ ht)
      have hpar : (peek s ['(']).2 = false :=
        peek_of_stop (nul_not_mem_of_suffix hline hs) (by decide)
          (htok ▸ simple_head_not_paren hR0 hW hsub hf)
      obtain ⟨hus, hu⟩ := skip_cursor hs
      rw [NT.parse, parseexec]
      simp only [hpar, Bool.false_eq_true, if_false, peek_fst]
      refine (parseredirs_complete hline hR0 hus (hu.trans htok) (words_stop hW hsub hf)
        fuel).bind fun r hres => ?_
      obtain ⟨hr1, hr2, hr3⟩ := hres
      refine (execLoop_complete hline hW hr2 hr1 hf (by simpa using hlen) fuel).bind
        fun l hres => .of_ok ?_
      obtain ⟨hl1, hl2, hl3, hl4⟩ := hres
      exact ⟨by rw [toTree_wrapRedirs, Cmd.toTree, List.map_append, hl3, hr3, hl4], hl1, hl2⟩

theorem parseline_total_step {fuel : Nat}
    (hp : ParseTotal line 3 fuel (parsepipe line.length fuel))
    (hl : ParseTotal line 4 fuel (parseline line.length fuel)) :
    ParseTotal line 4 (fuel + 1) (parseline line.length (fuel + 1)) := by
  intro s hs hfuel
  rw [parseline]
  refine bind_ne_error (hp hs (by omega)) fun r hr => ?_
  obtain ⟨-, hsuf1, hle1, -⟩ := (parse_sound hline fuel).2.1 hs hr
  refine bind_ne_error (backLoop_total hline hsuf1 (by omega)) fun b hb => ?_
  obtain ⟨-, -, -, hsuf2, hle2⟩ := backLoop_sound hline hsuf1 hb
  cases hsemi : (peek b.2 [';']).2 with
  | true =>
    obtain ⟨ts, hts⟩ :=
      peek_sym_inv (nul_not_mem_of_suffix hline hsuf2) (by decide) (by decide) hsemi
    obtain ⟨-, hg2, hg3⟩ := gettoken_skip_cursor hline hsuf2 hts
    simp only [hsemi, if_true, peek_fst]
    exact bind_ne_error (hl hg3 (by omega)) fun _ _ h => by cases h
  | false =>
    simp only [hsemi, Bool.false_eq_true, if_false]
    exact fun h => by cases h

theorem parsepipe_total_step {fuel : Nat}
    (he : ParseTotal line 2 fuel (parseexec line.length fuel))
    (hp : ParseTotal line 3 fuel (parsepipe line.length fuel)) :
    ParseTotal line 3 (fuel + 1) (parsepipe line.length (fuel + 1)) := by
  intro s hs hfuel
  rw [parsepipe]
  refine bind_ne_error (he hs (by omega)) fun r hr => ?_
  obtain ⟨-, hsuf1, hle1, -⟩ := (parse_sound hline fuel).2.2.1 hs hr
  cases hbar : (peek r.2 ['|']).2 with
  | true =>
    obtain ⟨ts, hts⟩ :=
      peek_sym_inv (nul_not_mem_of_suffix hline hsuf1) (by decide) (by decide) hbar
    obtain ⟨-, hg2, hg3⟩ := gettoken_skip_cursor hline hsuf1 hts
    simp only [hbar, if_true, peek_fst]
    exact bind_ne_error (hp hg3 (by omega)) fun _ _ h => by cases h
  | false =>
    simp only [hbar, Bool.false_eq_true, if_false]
    exact fun h => by cases h

theorem parseexec_total_step {fuel : Nat}
    (hb : ParseTotal line 1 fuel (parseblock line.length fuel)) :
    ParseTotal line 2 (fuel + 1) (parseexec line.length (fuel + 1)) := by
  intro s hs hfuel
  have hus := (skip_cursor hs).1
  have hle := (skipWhitespace_suffix s).length_le
  rw [parseexec]
  cases hpar : (peek s ['(']).2 with
  | true =>
    simp only [if_true, peek_fst]
    exact hb hus (by omega)
  | false =>
    simp only [Bool.false_eq_true, if_false, peek_fst]
    refine bind_ne_error (parseredirs_total hline hus (by omega)) fun r hr => ?_
    obtain ⟨-, hsuf1, hle1, -⟩ := parseredirs_sound hline hus hr
    exact bind_ne_error (execLoop_total hline hsuf1 (by omega)) fun _ _ h => by cases h

theorem parseblock_total_step {fuel : Nat}
    (hl : ParseTotal line 4 fuel (parseline line.length fuel)) :
    ParseTotal line 1 (fuel + 1) (parseblock line.length (fuel + 1)) := by
  intro s hs hfuel
  rw [parseblock]
  cases hpar : (peek s ['(']).2 with
  | false =>
    simp only [Bool.not_false, if_true]
    exact fun h => by cases h
  | true =>
    -- the `(` takes a character, which pays for the `line` inside
    obtain ⟨ts, hts⟩ := peek_sym_inv (nul_not_mem_of_suffix hline hs) (by decide) (by decide) hpar
    obtain ⟨-, hg2, hg3⟩ := gettoken_skip_cursor hline hs hts
    simp only [Bool.not_true, Bool.false_eq_true, if_false, peek_fst]
    refine bind_ne_error (hl hg3 (by omega)) fun r hr => ?_
    obtain ⟨-, hsuf1, hle1, -⟩ := (parse_sound hline fuel).1 hg3 hr
    cases hclose : (peek r.2 [')']).2 with
    | false =>
      simp only [Bool.not_false, if_true]
      exact fun h => by cases h
    | true =>
      obtain ⟨ts', hts'⟩ :=
        peek_sym_inv (nul_not_mem_of_suffix hline hsuf1) (by decide) (by decide) hclose
      obtain ⟨-, hg2', hg3'⟩ := gettoken_skip_cursor hline hsuf1 hts'
      simp only [Bool.not_true, Bool.false_eq_true, if_false]
      exact bind_ne_error (parseredirs_total hline hg3' (by omega)) fun _ _ h => by cases h

/-- With four units of fuel for each character, and four, three, two and one more, the four
parse functions never run out: by induction on the fuel, each step from the functions it calls
with one unit less. -/
theorem parse_total : ∀ fuel : Nat,
    ParseTotal line 4 fuel (parseline line.length fuel) ∧
      ParseTotal line 3 fuel (parsepipe line.length fuel) ∧
      ParseTotal line 2 fuel (parseexec line.length fuel) ∧
      ParseTotal line 1 fuel (parseblock line.length fuel)
  | 0 => ⟨(fun _ h => absurd h (by omega)), (fun _ h => absurd h (by omega)),
      (fun _ h => absurd h (by omega)), (fun _ h => absurd h (by omega))⟩
  | fuel + 1 =>
    have ⟨hl, hp, he, hb⟩ := parse_total fuel
    ⟨parseline_total_step hline hp hl, parsepipe_total_step hline he hp,
      parseexec_total_step hline hb, parseblock_total_step hline hl⟩

end Parse

/-! ### `nulterminate` ends each word where it was read -/

theorem nulArgv_marked : ∀ (argv : List (Nat × Nat)) {E : List Nat} {buf buf' : List Char},
    Marked (Char.ofNat 0) E buf buf' →
      Marked (Char.ofNat 0) (E ++ argv.map Prod.snd) buf (nulArgv argv buf')
  | [], _, _, _, h => by
    rw [List.map_nil, List.append_nil]
    exact h
  | (_, eq) :: argv, _, _, _, h => by
    rw [nulArgv, List.map_cons, ← List.singleton_append, ← List.append_assoc]
    exact nulArgv_marked argv (h.set eq)

/-- `nulterminate` writes a NUL at the end of each word of the command, and nothing else. -/
theorem nulterminate_marked : ∀ (c : Cmd) (buf : List Char),
    Marked (Char.ofNat 0) (c.ptrs.map Prod.snd) buf (nulterminate c buf)
  | .exec argv, buf => by
    have h := nulArgv_marked argv (Marked.refl (Char.ofNat 0) buf)
    rwa [List.nil_append] at h
  | .redir c _ efile _ _, buf => by
    rw [Cmd.ptrs, List.map_append]
    exact (nulterminate_marked c buf).set efile
  | .pipe l r, buf => by
    rw [Cmd.ptrs, List.map_append]
    exact (nulterminate_marked l buf).trans (nulterminate_marked r _)
  | .list l r, buf => by
    rw [Cmd.ptrs, List.map_append]
    exact (nulterminate_marked l buf).trans (nulterminate_marked r _)
  | .back c, buf => nulterminate_marked c buf

section Words

variable {l w w' : List Char} {q eq q' eq' : Nat}

/-- The characters of a placed word, at their offsets in the line. -/
theorem WordAt.getElem?_eq (h : WordAt l q eq w) {k : Nat} (hk : k < w.length) :
    l[q + k]? = w[k]? := by
  obtain ⟨r, hr, -⟩ := h.drop_eq
  rw [← List.getElem?_drop, hr, List.getElem?_append_left hk]

/-- No word character follows a placed word. -/
theorem WordAt.end_not_word (h : WordAt l q eq w) : ∀ c ∈ l[eq]?, ¬ IsWordChar c := by
  obtain ⟨r, hr, hnw⟩ := h.drop_eq
  rw [h.end_eq, ← List.getElem?_drop, hr, List.getElem?_append_right (Nat.le_refl _), Nat.sub_self,
    ← List.head?_eq_getElem?]
  exact hnw

/-- The end of a placed word never falls inside another placed word. -/
theorem WordAt.end_apart (h : WordAt l q eq w) (h' : WordAt l q' eq' w') :
    eq' < q ∨ eq ≤ eq' := by
  by_contra hin
  obtain ⟨h1, h2⟩ : q ≤ eq' ∧ eq' < eq := by omega
  have hk : eq' - q < w.length := by
    rw [h.end_eq] at h2
    omega
  have hc := h.getElem?_eq hk
  rw [show q + (eq' - q) = eq' by omega, List.getElem?_eq_getElem hk] at hc
  exact h'.end_not_word _ (Option.mem_def.mpr hc) (h.word _ (List.getElem_mem hk))

end Words

/-- The line of a buffer holds no NUL. -/
theorem nul_not_mem_takeWhile (buf : List Char) :
    Char.ofNat 0 ∉ buf.takeWhile (· ≠ Char.ofNat 0) := fun h => by
  simpa using List.mem_takeWhile_imp h

/-- After NULs at the ends of words, none of them inside the word at `q`, the C string at `q`
is the word. -/
theorem cstr_of_wordAt {buf buf' : List Char} {E : List Nat} {q eq : Nat} {w : List Char}
    (hn : Marked (Char.ofNat 0) E buf buf')
    (hw : WordAt (buf.takeWhile (· ≠ Char.ofNat 0)) q eq w) (hin : ∀ e ∈ E, e < q ∨ eq ≤ e)
    (hend : eq ∈ E) : cstr buf' q = w := by
  rw [hw.end_eq] at hin hend
  refine hn.read_run (fun k hk => ?_) (fun h0 => ?_) hin hend
  · -- the line is the start of the buffer
    have hl := hw.getElem?_eq hk
    obtain ⟨t, ht⟩ := List.takeWhile_prefix (fun c => decide (c ≠ Char.ofNat 0)) (l := buf)
    have hlt : q + k < (buf.takeWhile (· ≠ Char.ofNat 0)).length := by
      rw [List.getElem?_eq_getElem hk] at hl
      exact (List.getElem?_eq_some_iff.mp hl).1
    rw [← ht, List.getElem?_append_left hlt]
    exact hl
  · -- the word is in the line, where no NUL is
    obtain ⟨r, hr, -⟩ := hw.drop_eq
    have h0' : Char.ofNat 0 ∈ (buf.takeWhile (· ≠ Char.ofNat 0)).drop q :=
      hr ▸ List.mem_append_left r h0
    exact nul_not_mem_takeWhile buf (List.mem_of_mem_drop h0')

/-- Read from the buffer after `nulterminate`, a command whose words stand in the line reads as
it does from the line. -/
theorem toTree_nulterminate {buf : List Char} {c : Cmd}
    (hpl : Placed (buf.takeWhile (· ≠ Char.ofNat 0)) c.ptrs) :
    c.toTree (fun q _ => cstr (nulterminate c buf) q) =
      c.toTree (wordText (buf.takeWhile (· ≠ Char.ofNat 0))) := by
  refine Cmd.toTree_congr c fun p hp => ?_
  obtain ⟨w, hw⟩ := hpl p hp
  rw [wordText_of_wordAt hw]
  refine cstr_of_wordAt (nulterminate_marked c buf) hw (fun e he => ?_) (List.mem_map_of_mem hp)
  obtain ⟨p', hp', rfl⟩ := List.mem_map.mp he
  obtain ⟨w', hw'⟩ := hpl p' hp'
  exact hw.end_apart hw'

/-! ### `parsecmd` -/

/-- `parsecmd` never runs out of fuel. -/
theorem parsecmd_total (buf : List Char) : parsecmd buf ≠ .error .fuel := by
  have hline := nul_not_mem_takeWhile buf
  rw [parsecmd]
  refine bind_ne_error ((parse_total hline _).1 List.suffix_rfl (Nat.le_refl _)) fun r _ => ?_
  dsimp only
  split
  · exact fun h => by cases h
  · exact fun h => by cases h

/-- What `parsecmd` accepts: the line derives from `line`, with the command's tree, the words
stand in the line, and the buffer is the one `nulterminate` leaves. -/
theorem parsecmd_sound {buf buf' : List Char} {c : Cmd} (h : parsecmd buf = .ok (c, buf')) :
    buf' = nulterminate c buf ∧
      Derives .line (tokens (buf.takeWhile (· ≠ Char.ofNat 0)))
        (c.toTree (wordText (buf.takeWhile (· ≠ Char.ofNat 0)))) ∧
      Placed (buf.takeWhile (· ≠ Char.ofNat 0)) c.ptrs := by
  have hline := nul_not_mem_takeWhile buf
  rw [parsecmd] at h
  obtain ⟨⟨c1, s1⟩, h1, h⟩ := bind_eq_ok h
  obtain ⟨⟨ts, hts, hd⟩, -, -, hpl⟩ := (parse_sound hline _).1 List.suffix_rfl h1
  by_cases hend : skipWhitespace s1 = []
  · simp only [peek_fst, hend, ne_eq, not_true_eq_false, if_false] at h
    cases h
    refine ⟨rfl, ?_, hpl⟩
    rw [hts, ← tokens_skipWhitespace s1, hend, tokens_nil, List.append_nil]
    exact hd
  · -- more than whitespace after the parse: `panic("syntax")`
    simp only [peek_fst, hend, ne_eq, not_false_eq_true, if_true] at h
    cases h

/-- A line that derives from `line` is accepted, with the derivation's tree. -/
theorem parsecmd_complete {buf : List Char} {t : Tree}
    (hd : Derives .line (tokens (buf.takeWhile (· ≠ Char.ofNat 0))) t) :
    ∃ c, parsecmd buf = .ok (c, nulterminate c buf) ∧
      c.toTree (wordText (buf.takeWhile (· ≠ Char.ofNat 0))) = t ∧
      Placed (buf.takeWhile (· ≠ Char.ofNat 0)) c.ptrs := by
  have hline := nul_not_mem_takeWhile buf
  rcases parse_complete hline hd List.suffix_rfl (List.append_nil _).symm (by decide)
      (parseFuel (buf.takeWhile (· ≠ Char.ofNat 0)).length) with hfuel | ⟨⟨c, s'⟩, hok, htree, hrest, -⟩
  · exact absurd hfuel ((parse_total hline _).1 List.suffix_rfl (Nat.le_refl _))
  · have hok' : parseline _ (parseFuel _) (buf.takeWhile (· ≠ Char.ofNat 0)) = .ok (c, s') := hok
    obtain ⟨-, -, -, hpl⟩ := (parse_sound hline _).1 List.suffix_rfl hok'
    refine ⟨c, ?_, htree, hpl⟩
    have hend : skipWhitespace s' = [] := skipWhitespace_eq_nil hrest
    rw [parsecmd, hok', ok_bind]
    simp only [peek_fst, hend, ne_eq, not_true_eq_false, if_false]
    rfl

example : (match parsecmd "(a;b) >f | c &\x00".toList with
    | .ok r => some (r.1.toTree (fun q _ => cstr r.2 q))
    | .error _ => none) =
    some (.back (.pipe (.redir (.list (.exec ["a".toList]) (.exec ["b".toList])) "f".toList 0x601 1)
      (.exec ["c".toList]))) := by
  decide +kernel

/-- `parsecmd` accepts exactly the lines whose tokens derive from `line`: it never runs out of
fuel, it panics exactly when there is no derivation, and otherwise the command it returns, read
from the buffer after `nulterminate` with each word taken as the C string at its start, is the
derivation's tree. -/
theorem parsecmd_accepts_grammar (buf : List Char) :
    parsecmd buf ≠ .error .fuel ∧
      ((∃ msg, parsecmd buf = .error (.panic msg)) ↔
        ¬ ∃ t, Derives .line (tokens (buf.takeWhile (· ≠ Char.ofNat 0))) t) ∧
      ∀ t : Tree,
        (∃ c buf', parsecmd buf = .ok (c, buf') ∧ c.toTree (fun q _ => cstr buf' q) = t) ↔
          Derives .line (tokens (buf.takeWhile (· ≠ Char.ofNat 0))) t := by
  have hacc : ∀ t : Tree,
      (∃ c buf', parsecmd buf = .ok (c, buf') ∧ c.toTree (fun q _ => cstr buf' q) = t) ↔
        Derives .line (tokens (buf.takeWhile (· ≠ Char.ofNat 0))) t := by
    intro t
    constructor
    · rintro ⟨c, buf', h, rfl⟩
      obtain ⟨rfl, hd, hpl⟩ := parsecmd_sound h
      rw [toTree_nulterminate hpl]
      exact hd
    · intro hd
      obtain ⟨c, h, htree, hpl⟩ := parsecmd_complete hd
      exact ⟨c, _, h, (toTree_nulterminate hpl).trans htree⟩
  refine ⟨parsecmd_total buf, ⟨?_, ?_⟩, hacc⟩
  · rintro ⟨msg, h⟩ ⟨t, hd⟩
    obtain ⟨c, h', -⟩ := parsecmd_complete hd
    rw [h] at h'
    cases h'
  · -- no derivation: the result is no command, and not a lack of fuel
    intro hno
    cases h : parsecmd buf with
    | error e =>
      cases e with
      | panic msg => exact ⟨msg, rfl⟩
      | fuel => exact absurd h (parsecmd_total buf)
    | ok r => exact absurd ⟨_, (hacc _).mp ⟨r.1, r.2, h, rfl⟩⟩ hno

end User
end Xv6
