import Xv6.User.ShParse

/-! The grammar the shell's parser is meant to accept, over the `tokens` of a line:

    line   ::= pipe '&'* [';' line]
    pipe   ::= exec ['|' pipe]
    exec   ::= '(' line ')' redirs | redirs (word redirs)*
    redirs ::= (('<' | '>' | '>>') word)*

with fewer than `MAXARGS` words in an `exec`. `Derives n ts t` says that the tokens `ts`
derive from `n` and that `t` is the tree of the derivation: `|` and `;` nest to the right,
`&` binds tighter than `;`, and redirections wrap their command in the order they are
written. A `Cmd` of the parser becomes such a tree once its words are read, from the line by
their offsets or from the buffer as C strings. -/
namespace Xv6
namespace User

/-- A command with its words as text. -/
inductive Tree where
  | exec (argv : List (List Char))
  | redir (t : Tree) (file : List Char) (mode fd : Nat)
  | pipe (left right : Tree)
  | list (left right : Tree)
  | back (t : Tree)
  deriving DecidableEq

/-- `n` background commands around `t`. -/
def Tree.backs : Nat → Tree → Tree
  | 0, t => t
  | n + 1, t => Tree.backs n (.back t)

/-- The redirections, each a file, a mode and an fd, around `t`: the last one outermost. -/
def Tree.wrap (t : Tree) (rs : List (List Char × Nat × Nat)) : Tree :=
  rs.foldl (fun t r => .redir t r.1 r.2.1 r.2.2) t

/-- A redirection operator's token, with the mode and fd its file is opened with. -/
inductive RedirOp : Char → Nat → Nat → Prop
  | read : RedirOp '<' O_RDONLY 0
  | write : RedirOp '>' (O_WRONLY ||| O_CREATE ||| O_TRUNC) 1
  | append : RedirOp '+' (O_WRONLY ||| O_CREATE) 1

/-- `redirs ::= (('<' | '>' | '>>') word)*`, and the redirections it reads. -/
inductive Redirs : List Tok → List (List Char × Nat × Nat) → Prop
  | nil : Redirs [] []
  | cons {op : Char} {f : List Char} {mode fd : Nat} {ts : List Tok}
      {rs : List (List Char × Nat × Nat)} :
      RedirOp op mode fd → Redirs ts rs → Redirs (.sym op :: .word f :: ts) ((f, mode, fd) :: rs)

/-- `(word redirs)*`: the words, and the redirections after each. -/
inductive Words : List Tok → List (List Char) → List (List Char × Nat × Nat) → Prop
  | nil : Words [] [] []
  | cons {w : List Char} {r ts : List Tok} {rs rs' : List (List Char × Nat × Nat)}
      {ws : List (List Char)} :
      Redirs r rs → Words ts ws rs' → Words (.word w :: (r ++ ts)) (w :: ws) (rs ++ rs')

/-- The nonterminals with a tree of their own. -/
inductive NT where
  | line
  | pipe
  | exec

/-- `Derives n ts t`: the tokens `ts` derive from `n`, and `t` is the derivation's tree. -/
inductive Derives : NT → List Tok → Tree → Prop
  | line {ps : List Tok} {t : Tree} (n : Nat) :
      Derives .pipe ps t → Derives .line (ps ++ List.replicate n (.sym '&')) (t.backs n)
  | list {ps ls : List Tok} {t u : Tree} (n : Nat) : Derives .pipe ps t → Derives .line ls u →
      Derives .line (ps ++ List.replicate n (.sym '&') ++ .sym ';' :: ls) (.list (t.backs n) u)
  | exec {es : List Tok} {t : Tree} : Derives .exec es t → Derives .pipe es t
  | pipe {es ps : List Tok} {t u : Tree} : Derives .exec es t → Derives .pipe ps u →
      Derives .pipe (es ++ .sym '|' :: ps) (.pipe t u)
  | block {ls rs : List Tok} {t : Tree} {r : List (List Char × Nat × Nat)} :
      Derives .line ls t → Redirs rs r → Derives .exec (.sym '(' :: ls ++ .sym ')' :: rs) (t.wrap r)
  | simple {r0 ts : List Tok} {rs0 rs : List (List Char × Nat × Nat)} {ws : List (List Char)} :
      Redirs r0 rs0 → Words ts ws rs → ws.length < MAXARGS →
      Derives .exec (r0 ++ ts) ((Tree.exec ws).wrap (rs0 ++ rs))

/-- What may follow each nonterminal, by its first token (`none` at the end of the line):
`)` or the end after a `line`, also `&` and `;` after a `pipe`, also `|` after an `exec`. -/
def follows : NT → List (Option Tok)
  | .line => [none, some (.sym ')')]
  | .pipe => [none, some (.sym ')'), some (.sym '&'), some (.sym ';')]
  | .exec => [none, some (.sym ')'), some (.sym '&'), some (.sym ';'), some (.sym '|')]

/-- What may follow a `line` may follow a `pipe`, and that may follow an `exec`. -/
theorem follows_line_subset : follows .line ⊆ follows .pipe := by decide

theorem follows_pipe_subset : follows .pipe ⊆ follows .exec := by decide

/-- A token that may follow a nonterminal is one of `)&;|`, its own first character. -/
theorem follows_sym {n : NT} {tok : Tok} (h : some tok ∈ follows n) :
    ∃ c, tok = .sym c ∧ c ∈ [')', '&', ';', '|'] ∧ tok.lead = c := by
  have hexec : some tok ∈ follows .exec := by
    cases n
    · exact follows_pipe_subset (follows_line_subset h)
    · exact follows_pipe_subset h
    · exact h
  simp only [follows, List.mem_cons, Option.some.injEq, reduceCtorEq, List.not_mem_nil, or_false,
    false_or] at hexec
  rcases hexec with rfl | rfl | rfl | rfl <;> exact ⟨_, rfl, by decide, rfl⟩

/-- A token that may follow `n` is none of the symbols that may not. -/
theorem follows_lead_ne {n : NT} {more : List Tok} {c : Char} (hf : more.head? ∈ follows n)
    (hc : some (Tok.sym c) ∉ follows n) : ∀ tok ∈ more.head?, tok.lead ≠ c := by
  intro tok ht
  rw [Option.mem_def] at ht
  rw [ht] at hf
  obtain ⟨c', rfl, -, hl⟩ := follows_sym hf
  rw [hl]
  rintro rfl
  exact hc hf

/-- What may follow a nonterminal is no redirection operator. -/
theorem follows_not_redir {n : NT} {more : List Tok} (hf : more.head? ∈ follows n) :
    ∀ tok ∈ more.head?, tok.lead ∉ ['<', '>'] := by
  intro tok ht
  rw [Option.mem_def] at ht
  rw [ht] at hf
  obtain ⟨c, -, hc, hl⟩ := follows_sym hf
  rw [hl]
  exact (by simp : ∀ c ∈ [')', '&', ';', '|'], c ∉ ['<', '>']) c hc

/-- `&`s before what may follow a `pipe` may follow a `pipe`. -/
theorem amps_head_follows (n : Nat) {more : List Tok} (hf : more.head? ∈ follows .pipe) :
    (List.replicate n (Tok.sym '&') ++ more).head? ∈ follows .pipe := by
  cases n with
  | zero => exact hf
  | succ n =>
    rw [List.replicate_succ, List.cons_append, List.head?_cons]
    decide

/-- `redirs` starts with a redirection operator. -/
theorem Redirs.head_op {ts : List Tok} {rs : List (List Char × Nat × Nat)} (h : Redirs ts rs) :
    ∀ tok ∈ ts.head?, ∃ op mode fd, tok = .sym op ∧ RedirOp op mode fd := by
  cases h with
  | nil => simp
  | cons hop =>
    intro tok ht
    rw [List.head?_cons, Option.mem_some_iff] at ht
    exact ⟨_, _, _, ht.symm, hop⟩

/-- `(word redirs)*` starts with a word. -/
theorem Words.head_word {ts : List Tok} {ws : List (List Char)}
    {rs : List (List Char × Nat × Nat)} (h : Words ts ws rs) :
    ∀ tok ∈ ts.head?, ∃ w, tok = .word w := by
  cases h with
  | nil => simp
  | cons =>
    intro tok ht
    rw [List.head?_cons, Option.mem_some_iff] at ht
    exact ⟨_, ht.symm⟩

/-- The command with each word read by `rd` from its start and end. -/
def Cmd.toTree (rd : Nat → Nat → List Char) : Cmd → Tree
  | .exec argv => .exec (argv.map fun p => rd p.1 p.2)
  | .redir c file efile mode fd => .redir (c.toTree rd) (rd file efile) mode fd
  | .pipe l r => .pipe (l.toTree rd) (r.toTree rd)
  | .list l r => .list (l.toTree rd) (r.toTree rd)
  | .back c => .back (c.toTree rd)

/-- The starts and ends of all the words of a command. -/
def Cmd.ptrs : Cmd → List (Nat × Nat)
  | .exec argv => argv
  | .redir c file efile _ _ => c.ptrs ++ [(file, efile)]
  | .pipe l r => l.ptrs ++ r.ptrs
  | .list l r => l.ptrs ++ r.ptrs
  | .back c => c.ptrs

/-- `n` `backcmd`s around `c`, as the `&` loop of `parseline` builds them. -/
def Cmd.backs : Nat → Cmd → Cmd
  | 0, c => c
  | n + 1, c => Cmd.backs n (.back c)

/-- The text of the line from `q` to `eq`. -/
def wordText (line : List Char) (q eq : Nat) : List Char := (line.drop q).take (eq - q)

/-- The C string at `p`, as `exec` and `open` read a word from its start pointer. -/
def cstr (buf : List Char) (p : Nat) : List Char := (buf.drop p).takeWhile (· ≠ Char.ofNat 0)

/-- A redirection read by `rd`. -/
def Redir.toText (rd : Nat → Nat → List Char) (r : Redir) : List Char × Nat × Nat :=
  (rd r.file r.efile, r.mode, r.fd)

theorem toTree_backs (rd : Nat → Nat → List Char) :
    ∀ (n : Nat) (c : Cmd), (c.backs n).toTree rd = (c.toTree rd).backs n
  | 0, _ => rfl
  | n + 1, c => toTree_backs rd n (.back c)

theorem ptrs_backs : ∀ (n : Nat) (c : Cmd), (c.backs n).ptrs = c.ptrs
  | 0, _ => rfl
  | n + 1, c => ptrs_backs n (.back c)

theorem toTree_wrapRedirs (rd : Nat → Nat → List Char) :
    ∀ (rs : List Redir) (c : Cmd),
      (wrapRedirs c rs).toTree rd = (c.toTree rd).wrap (rs.map (Redir.toText rd))
  | [], _ => rfl
  | r :: rs, c => toTree_wrapRedirs rd rs (.redir c r.file r.efile r.mode r.fd)

theorem ptrs_wrapRedirs :
    ∀ (rs : List Redir) (c : Cmd),
      (wrapRedirs c rs).ptrs = c.ptrs ++ rs.map fun r => (r.file, r.efile)
  | [], c => by simp [wrapRedirs]
  | r :: rs, c => by
    rw [wrapRedirs, List.foldl_cons, ← wrapRedirs, ptrs_wrapRedirs rs, Cmd.ptrs, List.map_cons,
      List.append_assoc, List.singleton_append]

/-- Two readers that agree on a command's words read the same tree. -/
theorem Cmd.toTree_congr {rd rd' : Nat → Nat → List Char} :
    ∀ c : Cmd, (∀ p ∈ c.ptrs, rd p.1 p.2 = rd' p.1 p.2) → c.toTree rd = c.toTree rd'
  | .exec argv, h => by
    rw [Cmd.ptrs] at h
    rw [Cmd.toTree, Cmd.toTree, List.map_congr_left h]
  | .redir c file efile mode fd, h => by
    have hc := Cmd.toTree_congr c fun p hp => h p (List.mem_append_left _ hp)
    have hf := h (file, efile) (List.mem_append_right _ (List.mem_singleton_self _))
    rw [Cmd.toTree, Cmd.toTree, hc, hf]
  | .pipe l r, h => by
    rw [Cmd.toTree, Cmd.toTree, Cmd.toTree_congr l fun p hp => h p (List.mem_append_left _ hp),
      Cmd.toTree_congr r fun p hp => h p (List.mem_append_right _ hp)]
  | .list l r, h => by
    rw [Cmd.toTree, Cmd.toTree, Cmd.toTree_congr l fun p hp => h p (List.mem_append_left _ hp),
      Cmd.toTree_congr r fun p hp => h p (List.mem_append_right _ hp)]
  | .back c, h => by
    rw [Cmd.toTree, Cmd.toTree, Cmd.toTree_congr c h]

/-- A word placed in the line reads back as itself. -/
theorem wordText_of_wordAt {line w : List Char} {q eq : Nat} (h : WordAt line q eq w) :
    wordText line q eq = w := by
  obtain ⟨r, hr, -⟩ := h.drop_eq
  rw [wordText, hr, h.end_eq, Nat.add_sub_cancel_left, List.take_left]

/-- An operator's redirection is the one its grammar rule gives. -/
theorem redirOf_of_op {op : Char} (hop : op = '<' ∨ op = '>' ∨ op = '+') (q eq : Nat) :
    ∃ mode fd, RedirOp op mode fd ∧ redirOf op q eq = [⟨q, eq, mode, fd⟩] := by
  rcases hop with rfl | rfl | rfl
  · exact ⟨_, _, .read, rfl⟩
  · exact ⟨_, _, .write, rfl⟩
  · exact ⟨_, _, .append, rfl⟩

theorem RedirOp.op_cases {op : Char} {mode fd : Nat} (h : RedirOp op mode fd) :
    op = '<' ∨ op = '>' ∨ op = '+' := by
  cases h
  · exact .inl rfl
  · exact .inr (.inl rfl)
  · exact .inr (.inr rfl)

theorem RedirOp.unique {op : Char} {mode fd mode' fd' : Nat} (h : RedirOp op mode fd)
    (h' : RedirOp op mode' fd') : mode = mode' ∧ fd = fd' := by
  cases h <;> cases h' <;> exact ⟨rfl, rfl⟩

end User
end Xv6
