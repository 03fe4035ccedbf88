import Xv6.User.GrepMatch
/-! The read loop of `grep(pattern, fd)` in `user/grep.c`. `buf[0..m)` is the unfinished line
carried between reads. Each read appends a chunk, `strchr` finds the newlines, and every
complete line that `match` accepts is written with its newline; the tail moves to the front.

A read of `n` bytes returns between 1 and `n` bytes while input is left, and 0 at its end:
`sizes` gives the caps the reads return at, in turn, and reads after the last fill up to `n`.
Every chunking of the input into non-empty read results is one of these. -/
namespace Xv6
namespace User

/-- `sizeof(buf)`. -/
def BUFSIZE : Nat := 1024

/-- The inner loop `while((q = strchr(p, '\n')) != 0)` over the bytes from `p` to `buf[m]`:
what it writes, and the bytes from the final `p` on. `*q = 0` ends the line for `match`;
`*q = '\n'` puts the newline back for `write(1, p, q+1 - p)`. -/
def scanLines (re : List Char) (p : List Char) : List Char × List Char :=
  match h : strchr p '\n' with
  | none => ([], p)
  | some i =>
    let line := p.take i
    let r := scanLines re (p.drop (i + 1))
    ((if grepMatch re line then line ++ ['\n'] else []) ++ r.1, r.2)
termination_by p.length
decreasing_by
  have := strchr_lt h
  rw [List.length_drop]
  omega

/-- How many bytes `read(fd, buf+m, sizeof(buf)-m-1)` returns while input is left: the next
cap of `sizes`, at most the count asked for. -/
def readCount (sizes : List Nat) (m : Nat) : Nat :=
  min (sizes.headD (BUFSIZE - m - 1)) (BUFSIZE - m - 1)

/-- The outer loop `while((n = read(fd, buf+m, sizeof(buf)-m-1)) > 0)`, with `buf[0..m)` as
`buf` and the input not yet read as `rest`: what it writes. After the inner loop,
`m -= p - buf; memmove(buf, p, m);` keeps the bytes from `p` on. -/
def grepLoop (re : List Char) (sizes : List Nat) (buf rest : List Char) : List Char :=
  let n := readCount sizes buf.length
  if h : rest.take n = [] then []
  else
    let r := scanLines re (buf ++ rest.take n)
    r.1 ++ grepLoop re sizes.tail r.2 (rest.drop n)
termination_by rest.length
decreasing_by
  show (rest.drop n).length < rest.length
  rw [List.take_eq_nil_iff, not_or] at h
  have hr : rest.length ≠ 0 := fun h0 => h.2 (List.length_eq_zero_iff.mp h0)
  rw [List.length_drop]
  omega

/-- `grep(pattern, fd)` on the bytes `input` of `fd`: what it writes to fd 1. -/
def grep (re : List Char) (sizes : List Nat) (input : List Char) : List Char :=
  grepLoop re sizes [] input

/-- A byte string cut at its newlines: the lines each ended by a newline, and the bytes after
the last newline. -/
structure Lines where
  lines : List (List Char)
  tail : List Char
  lines_ok : ∀ l ∈ lines, '\n' ∉ l
  tail_ok : '\n' ∉ tail

/-- Cut `s` at its newlines, `cur` the line begun before it. -/
def cutLines : List Char → List Char → List (List Char) × List Char
  | [], cur => ([], cur)
  | c :: s, cur => if c = '\n' then (cur :: (cutLines s []).1, (cutLines s []).2)
    else cutLines s (cur ++ [c])

/-- A line with its newline. -/
def withNewline (l : List Char) : List Char := l ++ ['\n']

theorem cutLines_ok :
    ∀ (s cur : List Char), '\n' ∉ cur →
      (∀ l ∈ (cutLines s cur).1, '\n' ∉ l) ∧ '\n' ∉ (cutLines s cur).2 := by
  intro s
  induction s with
  | nil => intro cur h; exact ⟨by simp [cutLines], h⟩
  | cons c s ih =>
    intro cur h
    by_cases hc : c = '\n'
    · obtain ⟨h1, h2⟩ := ih [] List.not_mem_nil
      simp only [cutLines, if_pos hc, List.mem_cons, forall_eq_or_imp]
      exact ⟨⟨h, h1⟩, h2⟩
    · simp only [cutLines, if_neg hc]
      exact ih (cur ++ [c]) (by simp [h, Ne.symm hc])

theorem cutLines_bytes :
    ∀ (s cur : List Char), (cutLines s cur).1.flatMap withNewline ++ (cutLines s cur).2 = cur ++ s := by
  intro s
  induction s with
  | nil => intro cur; simp [cutLines]
  | cons c s ih =>
    intro cur
    by_cases hc : c = '\n'
    · simp only [cutLines, if_pos hc, List.flatMap_cons, List.append_assoc, ih [], withNewline]
      simp [hc]
    · simp only [cutLines, if_neg hc, ih (cur ++ [c])]
      simp

namespace Lines

/-- The bytes: every line with its newline, then the tail. -/
def bytes (L : Lines) : List Char := L.lines.flatMap withNewline ++ L.tail

/-- The lines of a byte string. -/
def ofBytes (s : List Char) : Lines where
  lines := (cutLines s []).1
  tail := (cutLines s []).2
  lines_ok := (cutLines_ok s [] List.not_mem_nil).1
  tail_ok := (cutLines_ok s [] List.not_mem_nil).2

theorem bytes_ofBytes (s : List Char) : (ofBytes s).bytes = s :=
  cutLines_bytes s []

end Lines

/-- What `grep` is to write for the lines `ls`: those `match` accepts, with their newlines, in
order. -/
def grepSpec (re : List Char) (ls : List (List Char)) : List Char :=
  (ls.filter (grepMatch re)).flatMap withNewline

theorem grepSpec_cons (re l : List Char) (ls : List (List Char)) :
    grepSpec re (l :: ls) = (if grepMatch re l then l ++ ['\n'] else []) ++ grepSpec re ls := by
  unfold grepSpec
  by_cases h : grepMatch re l
  · simp [h, withNewline]
  · simp [h]

theorem grepSpec_append (re : List Char) (ls ls' : List (List Char)) :
    grepSpec re (ls ++ ls') = grepSpec re ls ++ grepSpec re ls' := by
  simp [grepSpec]

/-- A line and its newline in front of more bytes. -/
theorem flatMap_cons_append (l : List Char) (ls : List (List Char)) (t : List Char) :
    (l :: ls).flatMap withNewline ++ t = l ++ '\n' :: (ls.flatMap withNewline ++ t) := by
  simp [withNewline]

/-- Cutting the bytes of lines anywhere: the front is whole lines and the start `u` of the
next line (or of the tail), and `u` with the back is the bytes of the lines left. -/
theorem append_eq_lines {t : List Char} (ht : '\n' ∉ t) :
    ∀ (ls : List (List Char)) (a b : List Char), (∀ l ∈ ls, '\n' ∉ l) →
      a ++ b = ls.flatMap withNewline ++ t →
      ∃ j u, a = (ls.take j).flatMap withNewline ++ u ∧
        u ++ b = (ls.drop j).flatMap withNewline ++ t ∧ '\n' ∉ u := by
  intro ls
  induction ls with
  | nil =>
    intro a b _ h
    rw [List.flatMap_nil, List.nil_append] at h
    exact ⟨0, a, rfl, h, fun hn => ht (h ▸ List.mem_append_left b hn)⟩
  | cons l ls ih =>
    intro a b hls h
    have hl : '\n' ∉ l := hls l List.mem_cons_self
    rw [flatMap_cons_append] at h
    rcases List.append_eq_append_iff.mp h with ⟨a', hla, -⟩ | ⟨c', hal, hc'⟩
    · -- `a` ends inside the first line
      exact ⟨0, a, rfl, by rw [h, List.drop_zero, flatMap_cons_append],
        fun hn => hl (hla ▸ List.mem_append_left a' hn)⟩
    · cases c' with
      | nil =>
        rw [List.append_nil] at hal
        subst hal
        exact ⟨0, a, rfl, by rw [h, List.drop_zero, flatMap_cons_append], hl⟩
      | cons x c'' =>
        obtain ⟨rfl, hrest⟩ := List.cons.inj hc'
        obtain ⟨j, u, hau, hub, hu⟩ :=
          ih c'' b (fun l' hl' => hls l' (List.mem_cons_of_mem l hl')) hrest.symm
        refine ⟨j + 1, u, ?_, hub, hu⟩
        rw [hal, hau, List.take_succ_cons, flatMap_cons_append]

/-- Bytes without a newline at the front of lines lie within the first line. -/
theorem length_le_of_append_eq {a b : List Char} (ha : '\n' ∉ a) {l : List Char}
    {ls : List (List Char)} {t : List Char} (h : a ++ b = (l :: ls).flatMap withNewline ++ t) :
    a.length ≤ l.length ∧ b ≠ [] := by
  rw [flatMap_cons_append] at h
  rcases List.append_eq_append_iff.mp h with ⟨a', hla, hb⟩ | ⟨c', hal, hc'⟩
  · refine ⟨by rw [hla, List.length_append]; omega, ?_⟩
    rw [hb]
    exact List.append_ne_nil_of_right_ne_nil a' (List.cons_ne_nil _ _)
  · cases c' with
    | nil =>
      rw [List.append_nil] at hal
      refine ⟨by rw [hal], ?_⟩
      rw [List.nil_append] at hc'
      rw [← hc']
      exact List.cons_ne_nil _ _
    | cons x c'' =>
      obtain ⟨rfl, -⟩ := List.cons.inj hc'
      exact absurd (hal ▸ List.mem_append_right l List.mem_cons_self) ha

section Scan

variable (re : List Char)

theorem scanLines_of_none {p : List Char} (h : strchr p '\n' = none) : scanLines re p = ([], p) := by
  rw [scanLines]
  split <;> simp_all

theorem scanLines_of_some {p : List Char} {i : Nat} (h : strchr p '\n' = some i) :
    scanLines re p =
      ((if grepMatch re (p.take i) then p.take i ++ ['\n'] else []) ++
        (scanLines re (p.drop (i + 1))).1, (scanLines re (p.drop (i + 1))).2) := by
  rw [scanLines]
  split <;> simp_all

/-- Over whole lines without NUL and the start `u` of another, the inner loop writes the
lines `match` accepts and leaves `u`. -/
theorem scanLines_lines {u : List Char} (hu : '\n' ∉ u) :
    ∀ ls : List (List Char), (∀ l ∈ ls, '\n' ∉ l ∧ Char.ofNat 0 ∉ l) →
      scanLines re (ls.flatMap withNewline ++ u) = (grepSpec re ls, u) := by
  intro ls
  induction ls with
  | nil =>
    intro _
    rw [List.flatMap_nil, List.nil_append, scanLines_of_none re (strchr_eq_none hu)]
    rfl
  | cons l ls ih =>
    intro hls
    obtain ⟨hl, hl0⟩ := hls l List.mem_cons_self
    have hfind : strchr (l ++ '\n' :: (ls.flatMap withNewline ++ u)) '\n' = some l.length :=
      strchr_append_cons (by decide) _ hl hl0
    rw [flatMap_cons_append, scanLines_of_some re hfind, List.take_left,
      List.append_cons l '\n' (ls.flatMap withNewline ++ u), List.drop_left' (by simp), ih (fun l' hl' => hls l' (List.mem_cons_of_mem l hl')), grepSpec_cons]

end Scan

/-- With room left in `buf`, a read under positive caps returns at least one byte. -/
theorem readCount_pos {sizes : List Nat} (hsz : ∀ k ∈ sizes, 0 < k) {m : Nat}
    (hm : m < BUFSIZE - 1) : 0 < readCount sizes m := by
  cases sizes with
  | nil => simp only [readCount, List.headD_nil, min_self]; omega
  | cons k sizes =>
    have hk := hsz k List.mem_cons_self
    simp only [readCount, List.headD_cons]
    omega

section Loop

variable (re : List Char)

theorem grepLoop_of_eof {sizes : List Nat} {buf rest : List Char}
    (h : rest.take (readCount sizes buf.length) = []) : grepLoop re sizes buf rest = [] := by
  rw [grepLoop]
  simp only [h, dite_true]

theorem grepLoop_of_read {sizes : List Nat} {buf rest : List Char}
    (h : rest.take (readCount sizes buf.length) ≠ []) :
    grepLoop re sizes buf rest =
      (scanLines re (buf ++ rest.take (readCount sizes buf.length))).1 ++
        grepLoop re sizes.tail (scanLines re (buf ++ rest.take (readCount sizes buf.length))).2
          (rest.drop (readCount sizes buf.length)) := by
  rw [grepLoop]
  simp only [h, dite_false]

/-- The loop's invariant: `buf` is the start of a line (no newline yet), and with the input
left it makes up the lines still to be read. Every read then writes the lines it completes,
and the loop as a whole writes the matching ones among all the lines. The induction is on
the input left, which every read shortens. -/
theorem grepLoop_lines {t : List Char} (ht : '\n' ∉ t) :
    ∀ (rest : List Char) (sizes : List Nat) (buf : List Char) (ls : List (List Char)),
      (∀ k ∈ sizes, 0 < k) →
      (∀ l ∈ ls, '\n' ∉ l ∧ Char.ofNat 0 ∉ l ∧ l.length < BUFSIZE - 1) →
      '\n' ∉ buf → buf ++ rest = ls.flatMap withNewline ++ t →
      grepLoop re sizes buf rest = grepSpec re ls := by
  intro rest
  induction hlen : rest.length using Nat.strong_induction_on generalizing rest with
  | _ len ih =>
    intro sizes buf ls hsz hls hbuf hbytes
    by_cases hr : rest.take (readCount sizes buf.length) = []
    · -- the read returns 0: no line is left, or grep would have read further
      rw [grepLoop_of_eof re hr]
      cases ls with
      | nil => rfl
      | cons l ls =>
        obtain ⟨hle, hne⟩ := length_le_of_append_eq hbuf hbytes
        have hl := (hls l List.mem_cons_self).2.2
        have hpos := readCount_pos hsz (m := buf.length) (by omega)
        rcases List.take_eq_nil_iff.mp hr with h0 | h0
        · omega
        · exact absurd h0 hne
    · -- the read returns a chunk: the lines it completes are written
      set n := readCount sizes buf.length
      have hsplit : (buf ++ rest.take n) ++ rest.drop n = ls.flatMap withNewline ++ t := by
        rw [List.append_assoc, List.take_append_drop, hbytes]
      obtain ⟨j, u, hfront, hback, hu⟩ :=
        append_eq_lines ht ls _ _ (fun l hl => (hls l hl).1) hsplit
      have hscan : scanLines re (buf ++ rest.take n) = (grepSpec re (ls.take j), u) := by
        rw [hfront]
        exact scanLines_lines re hu _ fun l hl =>
          ⟨(hls l (List.mem_of_mem_take hl)).1, (hls l (List.mem_of_mem_take hl)).2.1⟩
      have hshorter : (rest.drop n).length < len := by
        rw [List.take_eq_nil_iff, not_or] at hr
        have := List.length_pos_iff.mpr hr.2
        rw [List.length_drop]
        omega
      rw [grepLoop_of_read re hr, hscan,
        ih _ hshorter (rest.drop n) rfl sizes.tail u (ls.drop j)
          (fun k hk => hsz k (List.mem_of_mem_tail hk))
          (fun l hl => hls l (List.mem_of_mem_drop hl)) hu hback,
        ← grepSpec_append, List.take_append_drop]

end Loop

/-- `grep` writes the lines of its input that `match` accepts, each with its newline, in
order and once, however `read` cuts the input into chunks: for an input without NUL bytes
whose newline-terminated lines are shorter than 1023 bytes, and every sequence of non-empty
reads. -/
theorem grep_output_chunking (re input : List Char) (sizes : List Nat)
    (hnul : Char.ofNat 0 ∉ input) (hlen : ∀ l ∈ (Lines.ofBytes input).lines, l.length < 1023)
    (hsz : ∀ k ∈ sizes, 0 < k) :
    grep re sizes input = grepSpec re (Lines.ofBytes input).lines := by
  set L := Lines.ofBytes input
  have hbytes : [] ++ input = L.lines.flatMap withNewline ++ L.tail := by
    rw [List.nil_append]
    exact (Lines.bytes_ofBytes input).symm
  have hline : ∀ l ∈ L.lines, '\n' ∉ l ∧ Char.ofNat 0 ∉ l ∧ l.length < BUFSIZE - 1 := by
    intro l hl
    have hsub : l ⊆ input := by
      rw [← Lines.bytes_ofBytes input]
      intro x hx
      exact List.mem_append_left _ (List.mem_flatMap.mpr ⟨l, hl, List.mem_append_left _ hx⟩)
    exact ⟨L.lines_ok l hl, fun h => hnul (hsub h), hlen l hl⟩
  exact grepLoop_lines re L.tail_ok input sizes [] L.lines hsz hline List.not_mem_nil hbytes

/-- Two lines, one of them matching `a`, read one byte and then two at a time. -/
theorem grep_output_chunking_two_lines :
    Char.ofNat 0 ∉ "ab\ncd\n".toList ∧
      (∀ l ∈ (Lines.ofBytes "ab\ncd\n".toList).lines, l.length < 1023) ∧ (∀ k ∈ [1, 2], 0 < k) ∧
      grep ['a'] [1, 2] "ab\ncd\n".toList = grepSpec ['a'] (Lines.ofBytes "ab\ncd\n".toList).lines :=
  ⟨by decide, by decide, by decide,
    grep_output_chunking ['a'] "ab\ncd\n".toList [1, 2] (by decide) (by decide) (by decide)⟩

end User
end Xv6

