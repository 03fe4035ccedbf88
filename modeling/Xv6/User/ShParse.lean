import Xv6.User.ShLex
/-! The parser of `user/sh.c`: `parseline`, `parsepipe`, `parseexec`, `parseblock` and
`parseredirs` descend through the grammar, sharing the cursor through `gettoken` and `peek`;
`nulterminate` then ends every word with a NUL in the buffer. Each parse function takes fuel
and spends one unit a call; `parsecmd` gives enough for every line (`parsecmd_total`). -/
namespace Xv6
namespace User

/-- `MAXARGS` of `user/sh.c`. -/
def MAXARGS : Nat := 10

/-- `O_RDONLY` of `kernel/fcntl.h`. -/
def O_RDONLY : Nat := 0x000

/-- `O_WRONLY`. -/
def O_WRONLY : Nat := 0x001

/-- `O_CREATE`. -/
def O_CREATE : Nat := 0x200

/-- `O_TRUNC`. -/
def O_TRUNC : Nat := 0x400

/-- A command as the parser builds it. A word is a pair of offsets into the line, where it
starts (`argv[i]`, `file`) and where it ends (`eargv[i]`, `efile`). -/
inductive Cmd where
  | exec (argv : List (Nat × Nat))
  | redir (cmd : Cmd) (file efile mode fd : Nat)
  | pipe (left right : Cmd)
  | list (left right : Cmd)
  | back (cmd : Cmd)

/-- A redirection as `parseredirs` reads it: its file's start and end, the mode and the fd. -/
structure Redir where
  file : Nat
  efile : Nat
  mode : Nat
  fd : Nat

/-- `cmd = redircmd(cmd, ...)` for each redirection in turn: the last one is outermost. -/
def wrapRedirs (cmd : Cmd) (rs : List Redir) : Cmd :=
  rs.foldl (fun c r => .redir c r.file r.efile r.mode r.fd) cmd

/-- What ends a parse early: `panic` with its message, or the model's fuel running out. -/
inductive PErr where
  | panic (msg : String)
  | fuel
  deriving DecidableEq

/-- The `switch(tok)` of `parseredirs`: the redirection of the operator `tok`. -/
def redirOf (tok : Char) (q eq : Nat) : List Redir :=
  if tok = '<' then [⟨q, eq, O_RDONLY, 0⟩]
  else if tok = '>' then [⟨q, eq, O_WRONLY ||| O_CREATE ||| O_TRUNC, 1⟩]
  else if tok = '+' then [⟨q, eq, O_WRONLY ||| O_CREATE, 1⟩]
  else []

/-- `parseredirs(cmd, ps, es)`: the redirections that wrap `cmd`, in order, and the cursor. -/
def parseredirs (es : Nat) : Nat → List Char → Except PErr (List Redir × List Char)
  | 0, _ => .error .fuel
  | fuel + 1, s =>
    let p := peek s ['<', '>']
    if p.2 then
      let op := gettoken es p.1
      let file := gettoken es op.rest
      if file.code ≠ 'a' then .error (.panic "missing file for redirection")
      else do
        let r ← parseredirs es fuel file.rest
        pure (redirOf op.code file.q file.eq ++ r.1, r.2)
    else pure ([], p.1)

/-- The loop of `parseexec` after its first `parseredirs`, `argc` words in: the words from
there on, and the redirections after each of them. -/
def execLoop (es : Nat) :
    Nat → Nat → List Char → Except PErr (List (Nat × Nat) × List Redir × List Char)
  | 0, _, _ => .error .fuel
  | fuel + 1, argc, s =>
    let p := peek s ['|', ')', '&', ';']
    if p.2 then pure ([], [], p.1)
    else
      let t := gettoken es p.1
      if t.code = Char.ofNat 0 then pure ([], [], t.rest)
      else if t.code ≠ 'a' then .error (.panic "syntax")
      else if argc + 1 ≥ MAXARGS then .error (.panic "too many args")
      else do
        let r ← parseredirs es fuel t.rest
        let l ← execLoop es fuel (argc + 1) r.2
        pure ((t.q, t.eq) :: l.1, r.1 ++ l.2.1, l.2.2)

/-- The `while(peek(ps, es, "&"))` loop of `parseline`: one `backcmd` for each `&`. -/
def backLoop (es : Nat) : Nat → Cmd → List Char → Except PErr (Cmd × List Char)
  | 0, _, _ => .error .fuel
  | fuel + 1, cmd, s =>
    let p := peek s ['&']
    if p.2 then backLoop es fuel (.back cmd) (gettoken es p.1).rest
    else pure (cmd, p.1)

mutual

/-- `parseline(ps, es)`. -/
def parseline (es : Nat) : Nat → List Char → Except PErr (Cmd × List Char)
  | 0, _ => .error .fuel
  | fuel + 1, s => do
    let r ← parsepipe es fuel s
    let b ← backLoop es fuel r.1 r.2
    let p := peek b.2 [';']
    if p.2 then
      let l ← parseline es fuel (gettoken es p.1).rest
      pure (.list b.1 l.1, l.2)
    else pure (b.1, p.1)

/-- `parsepipe(ps, es)`. -/
def parsepipe (es : Nat) : Nat → List Char → Except PErr (Cmd × List Char)
  | 0, _ => .error .fuel
  | fuel + 1, s => do
    let r ← parseexec es fuel s
    let p := peek r.2 ['|']
    if p.2 then
      let l ← parsepipe es fuel (gettoken es p.1).rest
      pure (.pipe r.1 l.1, l.2)
    else pure (r.1, p.1)

/-- `parseblock(ps, es)`. -/
def parseblock (es : Nat) : Nat → List Char → Except PErr (Cmd × List Char)
  | 0, _ => .error .fuel
  | fuel + 1, s =>
    let p := peek s ['(']
    if !p.2 then .error (.panic "parseblock")
    else do
      let r ← parseline es fuel (gettoken es p.1).rest
      let c := peek r.2 [')']
      if !c.2 then .error (.panic "syntax - missing )")
      else do
        let rs ← parseredirs es fuel (gettoken es c.1).rest
        pure (wrapRedirs r.1 rs.1, rs.2)

/-- `parseexec(ps, es)`. The redirections wrap the one `execcmd`, whose `argv` the loop fills
in after they are made; so the model builds the `execcmd` last. -/
def parseexec (es : Nat) : Nat → List Char → Except PErr (Cmd × List Char)
  | 0, _ => .error .fuel
  | fuel + 1, s =>
    let p := peek s ['(']
    if p.2 then parseblock es fuel p.1
    else do
      let rs ← parseredirs es fuel p.1
      let l ← execLoop es fuel 0 rs.2
      pure (wrapRedirs (.exec l.1) (rs.1 ++ l.2.1), l.2.2)

end

/-- The `for` loop of `nulterminate` over an `execcmd`: a NUL where each word ends. -/
def nulArgv : List (Nat × Nat) → List Char → List Char
  | [], buf => buf
  | (_, eq) :: argv, buf => nulArgv argv (buf.set eq (Char.ofNat 0))

/-- `nulterminate(cmd)` on the buffer that holds the line. -/
def nulterminate : Cmd → List Char → List Char
  | .exec argv, buf => nulArgv argv buf
  | .redir cmd _ efile _ _, buf => (nulterminate cmd buf).set efile (Char.ofNat 0)
  | .pipe l r, buf => nulterminate r (nulterminate l buf)
  | .list l r, buf => nulterminate r (nulterminate l buf)
  | .back cmd, buf => nulterminate cmd buf

/-- The fuel `parsecmd` gives a line of `es` characters: a call nests at most four deeper for
each character the parse gets past. -/
def parseFuel (es : Nat) : Nat := 4 * es + 4

/-- `parsecmd(s)`: the command and the buffer after `nulterminate`. `es` is `s + strlen(s)`,
and the line must be used up to it. -/
def parsecmd (buf : List Char) : Except PErr (Cmd × List Char) := do
  let line := buf.takeWhile (· ≠ Char.ofNat 0)
  let es := line.length
  let r ← parseline es (parseFuel es) line
  let p := peek r.2 []
  if p.1 ≠ [] then .error (.panic "syntax")
  else pure (r.1, nulterminate r.1 buf)

/-! ### What one step of each loop does

The parse functions look at the line only through `peek` and `gettoken`, so each step is
decided by the first tokens at the cursor. The cursors are suffixes of a line without NUL. -/

/-- The word `w` stands in the line from `q` to `eq`, and no word character follows it. -/
structure WordAt (line : List Char) (q eq : Nat) (w : List Char) : Prop where
  drop_eq : ∃ r, line.drop q = w ++ r ∧ ∀ c ∈ r.head?, ¬ IsWordChar c
  end_eq : eq = q + w.length
  ne_nil : w ≠ []
  word : ∀ c ∈ w, IsWordChar c

section Steps

variable {line : List Char} {s : List Char} {fuel : Nat}

theorem nul_not_mem_of_suffix (hline : Char.ofNat 0 ∉ line) (hs : s <:+ line) :
    Char.ofNat 0 ∉ s :=
  fun h => hline (hs.subset h)

/-- `gettoken` on a word gives its place in the line. -/
theorem wordAt_of_gettoken (hline : Char.ofNat 0 ∉ line) (hs : s <:+ line) {w : List Char}
    {ts : List Tok} (h : tokens s = .word w :: ts) :
    WordAt line (gettoken line.length s).q (gettoken line.length s).eq w := by
  obtain ⟨r, hu, hq, heq, hne, hw, hr⟩ :=
    gettoken_of_word line.length (nul_not_mem_of_suffix hline hs) h
  obtain ⟨pre, hpre⟩ := hu ▸ (skipWhitespace_suffix s).trans hs
  have hlen : line.length = pre.length + w.length + r.length := by
    rw [← hpre]
    simp only [List.length_append]
    omega
  have hq' : (gettoken line.length s).q = pre.length := by
    rw [hq, List.length_append]
    omega
  refine ⟨⟨r, ?_, hr⟩, ?_, hne, hw⟩
  · rw [hq', ← hpre, List.drop_left]
  · rw [hq', heq]
    omega

theorem parseredirs_of_stop (hnul : Char.ofNat 0 ∉ s)
    (hstop : ∀ tok ∈ (tokens s).head?, tok.lead ∉ ['<', '>']) (es : Nat) :
    parseredirs es (fuel + 1) s = .ok ([], skipWhitespace s) := by
  have hp : (peek s ['<', '>']).2 = false := peek_of_stop hnul (by decide) hstop
  simp only [parseredirs, hp, Bool.false_eq_true, if_false]
  rfl

/-- The cursor past the whitespace is a suffix of the line with the same tokens. -/
theorem skip_cursor (hs : s <:+ line) :
    skipWhitespace s <:+ line ∧ tokens (skipWhitespace s) = tokens s :=
  ⟨(skipWhitespace_suffix s).trans hs, tokens_skipWhitespace s⟩

/-- `gettoken` on a cursor of the line: the code of the first token, and a shorter cursor of
the line where the other tokens begin. -/
theorem gettoken_cursor (hline : Char.ofNat 0 ∉ line) (hs : s <:+ line) {tok : Tok}
    {ts : List Tok} (h : tokens s = tok :: ts) :
    (gettoken line.length s).code = tok.code ∧ tokens (gettoken line.length s).rest = ts ∧
      (gettoken line.length s).rest.length < s.length ∧ (gettoken line.length s).rest <:+ line :=
  have hg := gettoken_of_cons line.length (nul_not_mem_of_suffix hline hs) h
  ⟨hg.1, hg.2.1, hg.2.2.1, hg.2.2.2.trans hs⟩

/-- `gettoken` at the cursor `peek` leaves: past the first token, at a shorter cursor of the
line. -/
theorem gettoken_skip_cursor (hline : Char.ofNat 0 ∉ line) (hs : s <:+ line) {tok : Tok}
    {ts : List Tok} (h : tokens s = tok :: ts) :
    tokens (gettoken line.length (skipWhitespace s)).rest = ts ∧
      (gettoken line.length (skipWhitespace s)).rest.length < s.length ∧
      (gettoken line.length (skipWhitespace s)).rest <:+ line := by
  obtain ⟨hus, hu⟩ := skip_cursor hs
  rw [h] at hu
  obtain ⟨-, h2, h3, h4⟩ := gettoken_cursor hline hus hu
  exact ⟨h2, Nat.lt_of_lt_of_le h3 (skipWhitespace_suffix s).length_le, h4⟩

/-- A redirection operator then a word: `parseredirs` records the redirection and goes on
after the word. -/
theorem parseredirs_of_redir (hline : Char.ofNat 0 ∉ line) (hs : s <:+ line) {op : Char}
    {f : List Char} {ts : List Tok} (hop : op = '<' ∨ op = '>' ∨ op = '+')
    (h : tokens s = .sym op :: .word f :: ts) (fuel : Nat) :
    ∃ rest q eq, tokens rest = ts ∧ rest <:+ line ∧ rest.length < s.length ∧ WordAt line q eq f ∧
      parseredirs line.length (fuel + 1) s =
        (parseredirs line.length fuel rest >>= fun r => pure (redirOf op q eq ++ r.1, r.2)) := by
  have hp : (peek s ['<', '>']).2 = true := by
    rw [peek_of_sym (nul_not_mem_of_suffix hline hs) h (by decide)]
    rcases hop with rfl | rfl | rfl <;> decide
  obtain ⟨hus, hu⟩ := skip_cursor hs
  rw [h] at hu
  obtain ⟨hop1, hop2, hop3, hop4⟩ := gettoken_cursor hline hus hu
  obtain ⟨hf1, hf2, hf3, hf4⟩ := gettoken_cursor hline hop4 hop2
  have hlen : (skipWhitespace s).length ≤ s.length := (skipWhitespace_suffix s).length_le
  refine ⟨_, _, _, hf2, hf4, by omega, wordAt_of_gettoken hline hop4 hop2, ?_⟩
  simp only [parseredirs, hp, if_true, peek_fst, hop1, hf1, Tok.code, ne_eq, not_true_eq_false,
    if_false]

/-- A redirection operator with no word after it: `parseredirs` panics. -/
theorem parseredirs_of_nofile (hline : Char.ofNat 0 ∉ line) (hs : s <:+ line) {op : Char}
    {ts : List Tok} (hop : op = '<' ∨ op = '>' ∨ op = '+') (h : tokens s = .sym op :: ts)
    (hts : ∀ tok ∈ ts.head?, tok.code ≠ 'a') :
    parseredirs line.length (fuel + 1) s = .error (.panic "missing file for redirection") := by
  have hp : (peek s ['<', '>']).2 = true := by
    rw [peek_of_sym (nul_not_mem_of_suffix hline hs) h (by decide)]
    rcases hop with rfl | rfl | rfl <;> decide
  obtain ⟨hus, hu⟩ := skip_cursor hs
  rw [h] at hu
  obtain ⟨-, hop2, -, hop4⟩ := gettoken_cursor hline hus hu
  have hfile : (gettoken line.length (gettoken line.length (skipWhitespace s)).rest).code ≠ 'a' := by
    cases ts with
    | nil => rw [(gettoken_of_nil line.length hop2).1]; decide
    | cons tok ts' =>
      rw [(gettoken_cursor hline hop4 hop2).1]
      exact hts tok rfl
  simp only [parseredirs, hp, if_true, peek_fst, hfile, ne_eq, not_false_eq_true, if_true]

example : (match parsecmd "a >\x00".toList with
    | .error e => some e
    | .ok _ => none) = some (.panic "missing file for redirection") := by
  decide +kernel

/-- A next token that `peek` for `|)&;` stops at ends the words of an `execcmd`. -/
theorem execLoop_of_stop (hnul : Char.ofNat 0 ∉ s) {c : Char} {ts : List Tok}
    (h : tokens s = .sym c :: ts) (hc : (Tok.sym c).lead ∈ ['|', ')', '&', ';']) (es argc : Nat) :
    execLoop es (fuel + 1) argc s = .ok ([], [], skipWhitespace s) := by
  have hp : (peek s ['|', ')', '&', ';']).2 = true := by
    rw [peek_of_sym hnul h (by decide)]
    exact decide_eq_true hc
  simp only [execLoop, hp, if_true, peek_fst]
  rfl

/-- At the end of the line the words of an `execcmd` end. -/
theorem execLoop_of_nil (h : tokens s = []) (es argc : Nat) :
    execLoop es (fuel + 1) argc s = .ok ([], [], []) := by
  have hp : (peek s ['|', ')', '&', ';']).2 = false := peek_of_nil h
  obtain ⟨hcode, hrest⟩ := gettoken_of_nil es (tokens_skipWhitespace s ▸ h)
  simp only [execLoop, hp, Bool.false_eq_true, if_false, peek_fst, hcode, if_true, hrest]
  rfl

/-- A word, with room for it: `execLoop` records it, reads the redirections after it, and goes
on. -/
theorem execLoop_of_word (hline : Char.ofNat 0 ∉ line) (hs : s <:+ line) {w : List Char}
    {ts : List Tok} (h : tokens s = .word w :: ts) {argc : Nat} (hargc : argc + 1 < MAXARGS)
    (fuel : Nat) :
    ∃ rest q eq, tokens rest = ts ∧ rest <:+ line ∧ rest.length < s.length ∧ WordAt line q eq w ∧
      execLoop line.length (fuel + 1) argc s =
        (do
          let r ← parseredirs line.length fuel rest
          let l ← execLoop line.length fuel (argc + 1) r.2
          pure ((q, eq) :: l.1, r.1 ++ l.2.1, l.2.2)) := by
  have hp : (peek s ['|', ')', '&', ';']).2 = false :=
    peek_of_word (nul_not_mem_of_suffix hline hs) h (by simp [symbols])
  obtain ⟨hus, hu⟩ := skip_cursor hs
  rw [h] at hu
  obtain ⟨ht1, ht2, ht3, ht4⟩ := gettoken_cursor hline hus hu
  have hlen : (skipWhitespace s).length ≤ s.length := (skipWhitespace_suffix s).length_le
  have hroom : ¬ argc + 1 ≥ MAXARGS := by omega
  refine ⟨_, _, _, ht2, ht4, by omega, wordAt_of_gettoken hline hus hu, ?_⟩
  simp only [execLoop, hp, Bool.false_eq_true, if_false, peek_fst, ht1, Tok.code, hroom]
  rfl

/-- The `MAXARGS`-th word panics. -/
theorem execLoop_of_full (hline : Char.ofNat 0 ∉ line) (hs : s <:+ line) {w : List Char}
    {ts : List Tok} (h : tokens s = .word w :: ts) {argc : Nat} (hargc : MAXARGS ≤ argc + 1) :
    execLoop line.length (fuel + 1) argc s = .error (.panic "too many args") := by
  have hp : (peek s ['|', ')', '&', ';']).2 = false :=
    peek_of_word (nul_not_mem_of_suffix hline hs) h (by simp [symbols])
  obtain ⟨hus, hu⟩ := skip_cursor hs
  rw [h] at hu
  have ht1 := (gettoken_cursor hline hus hu).1
  have hfull : argc + 1 ≥ MAXARGS := hargc
  simp only [execLoop, hp, Bool.false_eq_true, if_false, peek_fst, ht1, Tok.code, hfull]
  rfl

/-- Any other symbol where a word may stand panics. -/
theorem execLoop_of_sym (hline : Char.ofNat 0 ∉ line) (hs : s <:+ line) {c : Char}
    {ts : List Tok} (h : tokens s = .sym c :: ts) (hc : (Tok.sym c).lead ∉ ['|', ')', '&', ';'])
    (argc : Nat) :
    execLoop line.length (fuel + 1) argc s = .error (.panic "syntax") := by
  have hp : (peek s ['|', ')', '&', ';']).2 = false := by
    rw [peek_of_sym (nul_not_mem_of_suffix hline hs) h (by decide)]
    exact decide_eq_false hc
  obtain ⟨hus, hu⟩ := skip_cursor hs
  rw [h] at hu
  have ht1 := (gettoken_cursor hline hus hu).1
  have hcases := tokens_head_cases h
  obtain ⟨hnul, ha⟩ : c ≠ Char.ofNat 0 ∧ c ≠ 'a' := by
    rcases hcases with ⟨w, hw, -⟩ | ⟨c', hc', hmem⟩
    · cases hw
    · cases hc'
      exact sym_code_ne hmem
  simp only [execLoop, hp, Bool.false_eq_true, if_false, peek_fst, ht1, Tok.code, hnul, ha,
    ne_eq, not_false_eq_true, if_true]

/-- An `&` adds a `backcmd`, and the loop goes on after it. -/
theorem backLoop_of_amp (hline : Char.ofNat 0 ∉ line) (hs : s <:+ line) {ts : List Tok}
    (h : tokens s = .sym '&' :: ts) (cmd : Cmd) (fuel : Nat) :
    ∃ rest, tokens rest = ts ∧ rest <:+ line ∧ rest.length < s.length ∧
      backLoop line.length (fuel + 1) cmd s = backLoop line.length fuel (.back cmd) rest := by
  have hp : (peek s ['&']).2 = true := by
    rw [peek_of_sym (nul_not_mem_of_suffix hline hs) h (by decide)]
    decide
  obtain ⟨ht2, ht3, ht4⟩ := gettoken_skip_cursor hline hs h
  refine ⟨_, ht2, ht4, ht3, ?_⟩
  simp only [backLoop, hp, if_true, peek_fst]

/-- Anything but an `&` ends the loop. -/
theorem backLoop_of_stop (hnul : Char.ofNat 0 ∉ s) (hstop : ∀ tok ∈ (tokens s).head?,
    tok.lead ≠ '&') (es : Nat) (cmd : Cmd) :
    backLoop es (fuel + 1) cmd s = .ok (cmd, skipWhitespace s) := by
  have hp : (peek s ['&']).2 = false :=
    peek_of_stop hnul (by decide) fun tok ht hm => hstop tok ht (List.mem_singleton.mp hm)
  simp only [backLoop, hp, Bool.false_eq_true, if_false]
  rfl

end Steps

end User
end Xv6

