import Xv6.Lib.Ring

/-! Console input (`kernel/console.c`): the ring `cons.buf` of `INPUT_BUF_SIZE` bytes with
three 32-bit indices. `consoleintr` edits the bytes in `[w, e)` and commits them by moving
`w` up to `e`; `consoleread` takes committed bytes from `r`. Each call runs while it holds
`cons.lock`, and `consoleread` also ends a segment when it sleeps. The echo through
`consputc` and `procdump` only print, and are left out. -/
namespace Xv6
open Ring

def INPUT_BUF_SIZE : Nat := 128

instance : NeZero INPUT_BUF_SIZE := ⟨by decide⟩

theorem INPUT_BUF_SIZE_dvd : INPUT_BUF_SIZE ∣ 2 ^ 32 := ⟨2 ^ 25, by decide⟩

/-- `C(x)`: control-`x`. -/
def C (x : Char) : UInt8 := (x.toNat - '@'.toNat).toUInt8

structure Cons where
  buf : Fin INPUT_BUF_SIZE → UInt8
  r : UInt32
  w : UInt32
  e : UInt32

/-- `cons` at boot: a global, all zero. -/
def consInit : Cons := ⟨fun _ => 0, 0, 0, 0⟩

/-- The bytes a reader may take: `[r, w)`. -/
def Cons.committed (c : Cons) : List UInt8 := Ring.span c.buf c.r c.w

/-- The line being edited: `[w, e)`. -/
def Cons.editing (c : Cons) : List UInt8 := Ring.span c.buf c.w c.e

/-- The kill-line loop `while(cons.e != cons.w && cons.buf[(cons.e-1) % INPUT_BUF_SIZE] !=
'\n') cons.e--;`, for at most `fuel` passes. `consoleintr` gives `e - w`, and every pass
brings `e` one closer to `w`. -/
def killLine (c : Cons) : Nat → Cons
  | 0 => c
  | fuel + 1 =>
    if c.e ≠ c.w ∧ c.buf (Ring.slot INPUT_BUF_SIZE (c.e - 1)) ≠ '\n'.toUInt8 then
      killLine { c with e := c.e - 1 } fuel
    else c

/-- `consoleintr(c)` for a byte `ch` from the uart. -/
def consoleintr (c : Cons) (ch : UInt8) : Cons :=
  if ch = C 'P' then c
  else if ch = C 'U' then killLine c (Ring.dist c.w c.e)
  else if ch = C 'H' ∨ ch = 0x7f then
    if c.e ≠ c.w then { c with e := c.e - 1 } else c
  else if ch ≠ 0 ∧ Ring.dist c.r c.e < INPUT_BUF_SIZE then
    let ch := if ch = '\r'.toUInt8 then '\n'.toUInt8 else ch
    let c' := { c with buf := Function.update c.buf (Ring.slot INPUT_BUF_SIZE c.e) ch, e := c.e + 1 }
    -- a whole line, end-of-file or a full buffer commits the edited bytes
    if ch = '\n'.toUInt8 ∨ ch = C 'D' ∨ Ring.dist c'.r c'.e = INPUT_BUF_SIZE then { c' with w := c'.e }
    else c'
  else c

/-- How a segment of `consoleread` ends: the call returns `r` with the bytes it stored at the
user's address, or sleeps on an empty buffer with `n` still to read. -/
inductive ConsReadStep where
  | returned (r : Int) (out : List UInt8)
  | sleeping (n : Int) (out : List UInt8)
  deriving DecidableEq, Repr

/-- The loop of `consoleread(user_dst, dst, n)` with `n` bytes still to read, the bytes stored
so far in `out`. `dst a` says whether `either_copyout` can store at `a`; `killed` is
`killed(myproc())`. The index `r` moves before the byte is looked at, and moves back only for
an end-of-file after some bytes. -/
def consolereadLoop (dst : Nat → Bool) (killed : Bool) (addr : Nat) (target : Int) (c : Cons)
    (n : Int) (out : List UInt8) : Cons × ConsReadStep :=
  if 0 < n then
    if c.r = c.w then
      if killed then (c, .returned (-1) out) else (c, .sleeping n out)
    else
      let ch := c.buf (Ring.slot INPUT_BUF_SIZE c.r)
      let c' := { c with r := c.r + 1 }
      if ch = C 'D' then
        (if n < target then { c' with r := c'.r - 1 } else c', .returned (target - n) out)
      else if dst (addr + (target - n).toNat) then
        if ch = '\n'.toUInt8 then (c', .returned (target - (n - 1)) (out ++ [ch]))
        else consolereadLoop dst killed addr target c' (n - 1) (out ++ [ch])
      else (c', .returned (target - n) out)
  else (c, .returned (target - n) out)
termination_by n.toNat

/-- `consoleread(user_dst, dst, n)`: its first segment. -/
def consoleread (dst : Nat → Bool) (killed : Bool) (addr : Nat) (n : Int) (c : Cons) :
    Cons × ConsReadStep :=
  consolereadLoop dst killed addr n c n []

/-- The bytes a segment has stored at the user's address. -/
def ConsReadStep.out : ConsReadStep → List UInt8
  | .returned _ out => out
  | .sleeping _ out => out

/-- `r ≤ w ≤ e ≤ r + INPUT_BUF_SIZE`, each as a 32-bit difference from `r`. -/
def ConsInv (c : Cons) : Prop := Ring.dist c.r c.w ≤ Ring.dist c.r c.e ∧ Ring.dist c.r c.e ≤ INPUT_BUF_SIZE

theorem ConsInv.split {c : Cons} (h : ConsInv c) : Ring.dist c.r c.w + Ring.dist c.w c.e = Ring.dist c.r c.e :=
  Ring.dist_add_dist h.1

/-- The committed bytes, then the line being edited, are the bytes from `r` to `e`. -/
theorem ConsInv.committed_append_editing {c : Cons} (h : ConsInv c) :
    c.committed ++ c.editing = Ring.span c.buf c.r c.e :=
  (Ring.span_append INPUT_BUF_SIZE_dvd c.buf h.1).symm

/-- Moving `e` back toward `w`, and no further, keeps the order. -/
theorem ConsInv.retract {c : Cons} (h : ConsInv c) {e' : UInt32} (he : Ring.dist c.w e' ≤ Ring.dist c.w c.e) :
    ConsInv { c with e := e' } := by
  have hs := h.split
  have hb : Ring.dist c.r c.e ≤ 128 := h.2
  have he' : Ring.dist c.r e' = Ring.dist c.r c.w + Ring.dist c.w e' := Ring.dist_add_of_lt (by omega)
  show Ring.dist c.r c.w ≤ Ring.dist c.r e' ∧ Ring.dist c.r e' ≤ INPUT_BUF_SIZE
  rw [he']
  exact ⟨by omega, by unfold INPUT_BUF_SIZE; omega⟩

/-- Taking the byte at `r` from a non-empty committed part keeps the order. -/
theorem ConsInv.take {c : Cons} (h : ConsInv c) (hr : c.r ≠ c.w) : ConsInv { c with r := c.r + 1 } := by
  have hw : Ring.dist c.r c.w ≠ 0 := fun h0 => hr (Ring.dist_eq_zero_iff.mp h0)
  show Ring.dist (c.r + 1) c.w ≤ Ring.dist (c.r + 1) c.e ∧ Ring.dist (c.r + 1) c.e ≤ INPUT_BUF_SIZE
  rw [Ring.dist_add_one_left hw, Ring.dist_add_one_left (by have := h.1; omega)]
  exact ⟨Nat.sub_le_sub_right h.1 1, (Nat.sub_le _ 1).trans h.2⟩

/-- The line being edited shrinks from its end when `e` moves back toward `w`. -/
theorem editing_retract_isPrefix (c : Cons) {e' : UInt32} (he : Ring.dist c.w e' ≤ Ring.dist c.w c.e) :
    ({ c with e := e' } : Cons).editing <+: c.editing := by
  show Ring.span c.buf c.w e' <+: Ring.span c.buf c.w c.e
  rw [Ring.span_append INPUT_BUF_SIZE_dvd c.buf he]
  exact List.prefix_append _ _

/-- The kill-line loop only moves `e` back toward `w`. -/
theorem killLine_retract (fuel : Nat) :
    ∀ c : Cons, ∃ e', killLine c fuel = { c with e := e' } ∧ Ring.dist c.w e' ≤ Ring.dist c.w c.e := by
  induction fuel with
  | zero => intro c; exact ⟨c.e, rfl, le_rfl⟩
  | succ fuel ih =>
    intro c
    rw [killLine]
    split_ifs with h
    · -- one byte off the end: `e - 1` is one closer to `w`
      have hd : Ring.dist c.w (c.e - 1) = Ring.dist c.w c.e - 1 :=
        Ring.dist_sub_one_right fun h0 => h.1 (Ring.dist_eq_zero_iff.mp h0).symm
      obtain ⟨e', he, hle⟩ := ih { c with e := c.e - 1 }
      have hle' : Ring.dist c.w e' ≤ Ring.dist c.w (c.e - 1) := hle
      exact ⟨e', he, by omega⟩
    · exact ⟨c.e, rfl, le_rfl⟩

/-- With `e - w` passes the kill-line loop runs to its own end: `e` reaches `w` or the byte
before it is a newline. -/
theorem killLine_exit (fuel : Nat) :
    ∀ c : Cons, Ring.dist c.w c.e ≤ fuel →
      (killLine c fuel).e = c.w ∨ c.buf (Ring.slot INPUT_BUF_SIZE ((killLine c fuel).e - 1)) = '\n'.toUInt8 := by
  induction fuel with
  | zero =>
    intro c hf
    exact .inl (Ring.dist_eq_zero_iff.mp (Nat.le_zero.mp hf)).symm
  | succ fuel ih =>
    intro c hf
    rw [killLine]
    split_ifs with h
    · have hd : Ring.dist c.w (c.e - 1) = Ring.dist c.w c.e - 1 :=
        Ring.dist_sub_one_right fun h0 => h.1 (Ring.dist_eq_zero_iff.mp h0).symm
      exact ih { c with e := c.e - 1 } (by show Ring.dist c.w (c.e - 1) ≤ fuel; omega)
    · rw [not_and_or, not_not, not_not] at h
      rcases h with h | h
      · exact .inl h
      · exact .inr h

/-- Backspace, delete and kill-line move only `e`, and only back toward `w`. -/
theorem consoleintr_edit (c : Cons) {ch : UInt8} (hch : ch = C 'U' ∨ ch = C 'H' ∨ ch = 0x7f) :
    ∃ e', consoleintr c ch = { c with e := e' } ∧ Ring.dist c.w e' ≤ Ring.dist c.w c.e := by
  have hback : ∃ e', (if c.e ≠ c.w then { c with e := c.e - 1 } else c) = { c with e := e' } ∧
      Ring.dist c.w e' ≤ Ring.dist c.w c.e := by
    split_ifs with h
    · exact ⟨c.e - 1, rfl, by rw [Ring.dist_sub_one_right fun h0 => h (Ring.dist_eq_zero_iff.mp h0).symm]; omega⟩
    · exact ⟨c.e, rfl, le_rfl⟩
  rcases hch with rfl | rfl | rfl
  · rw [consoleintr, if_neg (by decide), if_pos rfl]
    exact killLine_retract _ c
  · rw [consoleintr, if_neg (by decide), if_neg (by decide), if_pos (.inl rfl)]
    exact hback
  · rw [consoleintr, if_neg (by decide), if_neg (by decide), if_pos (.inr rfl)]
    exact hback

/-- A byte stored at `e` goes at the end of the line being edited, and the committed bytes
stay. -/
theorem store_spec {c : Cons} (h : ConsInv c) (hroom : Ring.dist c.r c.e < INPUT_BUF_SIZE) (x : UInt8) :
    let c' : Cons := { c with buf := Function.update c.buf (Ring.slot INPUT_BUF_SIZE c.e) x, e := c.e + 1 }
    ConsInv c' ∧ c'.committed = c.committed ∧ Ring.span c'.buf c'.r c'.e = Ring.span c.buf c.r c.e ++ [x] ∧
      Ring.dist c'.r c'.e = Ring.dist c.r c.e + 1 := by
  have h1 : Ring.dist c.r (c.e + 1) = Ring.dist c.r c.e + 1 :=
    Ring.dist_add_one_right (by unfold INPUT_BUF_SIZE at hroom; omega)
  refine ⟨⟨?_, ?_⟩, ?_, ?_, h1⟩
  · show Ring.dist c.r c.w ≤ Ring.dist c.r (c.e + 1)
    rw [h1]
    exact h.1.trans (Nat.le_succ _)
  · show Ring.dist c.r (c.e + 1) ≤ INPUT_BUF_SIZE
    rw [h1]
    exact hroom
  · exact Ring.span_update_of_le INPUT_BUF_SIZE_dvd c.buf x h.1 hroom
  · exact Ring.span_push INPUT_BUF_SIZE_dvd c.buf x hroom (by decide)

/-- `consoleintr` keeps the order of the indices, never moves `r`, and never removes or
changes a committed byte: the committed bytes before are a prefix of those after. -/
theorem consoleintr_spec {c : Cons} (h : ConsInv c) (ch : UInt8) :
    ConsInv (consoleintr c ch) ∧ (consoleintr c ch).r = c.r ∧
      c.committed <+: (consoleintr c ch).committed := by
  by_cases hedit : ch = C 'U' ∨ ch = C 'H' ∨ ch = 0x7f
  · obtain ⟨e', he, hle⟩ := consoleintr_edit c hedit
    rw [he]
    exact ⟨h.retract hle, rfl, List.prefix_refl _⟩
  · have hU : ch ≠ C 'U' := fun e => hedit (.inl e)
    have hH : ¬(ch = C 'H' ∨ ch = 0x7f) := fun e => hedit (.inr e)
    by_cases hP : ch = C 'P'
    · rw [consoleintr, if_pos hP]
      exact ⟨h, rfl, List.prefix_refl _⟩
    rw [consoleintr, if_neg hP, if_neg hU, if_neg hH]
    by_cases hst : ch ≠ 0 ∧ Ring.dist c.r c.e < INPUT_BUF_SIZE
    · rw [if_pos hst]
      dsimp only
      generalize (if ch = '\r'.toUInt8 then '\n'.toUInt8 else ch) = x
      obtain ⟨hinv, hcom, hspan, -⟩ := store_spec h hst.2 x
      split_ifs
      · -- a commit: `w` moves to the new `e`, past the edited line and the new byte
        refine ⟨⟨le_rfl, hinv.2⟩, rfl, ?_⟩
        show c.committed <+: Ring.span _ c.r (c.e + 1)
        rw [hspan, ← h.committed_append_editing, List.append_assoc]
        exact List.prefix_append _ _
      · exact ⟨hinv, rfl, hcom ▸ List.prefix_refl _⟩
    · rw [if_neg hst]
      exact ⟨h, rfl, List.prefix_refl _⟩

/-- Taking the byte at `r` and putting it back leaves the state as it was. -/
theorem take_untake (c : Cons) : ({ buf := c.buf, r := c.r + 1 - 1, w := c.w, e := c.e } : Cons) = c := by
  rw [UInt32.add_sub_cancel]

theorem committed_take {c : Cons} (hr : c.r ≠ c.w) :
    c.committed = c.buf (Ring.slot INPUT_BUF_SIZE c.r) :: ({ c with r := c.r + 1 } : Cons).committed :=
  Ring.span_pop INPUT_BUF_SIZE_dvd c.buf hr

section Read

variable (dst : Nat → Bool) (killed : Bool) (addr : Nat) (target : Int)

/-- A segment of `consoleread` takes bytes from the front of the committed ones: first the
bytes `d` it stores, at the user's buffer in order, then at most one byte `lost` that it takes
and does not store: an end-of-file met before any byte of the call, or a byte whose
`either_copyout` failed. -/
theorem consolereadLoop_spec (c : Cons) (n : Int) (out : List UInt8) :
    ∃ d lost : List UInt8,
      (consolereadLoop dst killed addr target c n out).2.out = out ++ d ∧
      c.committed = d ++ lost ++ (consolereadLoop dst killed addr target c n out).1.committed ∧
      (∀ k < d.length, dst (addr + (target - n + k).toNat) = true) ∧
      (lost = [] ∨ (lost = [C 'D'] ∧ target ≤ n - d.length) ∨
        (lost.length = 1 ∧ dst (addr + (target - n + d.length).toNat) = false)) := by
  induction c, n, out using consolereadLoop.induct dst killed addr target with
  | case1 c n out hn hr hk =>
    rw [consolereadLoop, if_pos hn, if_pos hr, if_pos hk]
    exact ⟨[], [], by simp [ConsReadStep.out], by simp, by simp, .inl rfl⟩
  | case2 c n out hn hr hk =>
    rw [consolereadLoop, if_pos hn, if_pos hr, if_neg hk]
    exact ⟨[], [], by simp [ConsReadStep.out], by simp, by simp, .inl rfl⟩
  | case3 c n out hn hr ch hD =>
    replace hD : c.buf (Ring.slot INPUT_BUF_SIZE c.r) = C 'D' := hD
    rw [consolereadLoop, if_pos hn, if_neg hr]
    dsimp only
    rw [if_pos hD]
    by_cases hlt : n < target
    · rw [if_pos hlt, take_untake]
      exact ⟨[], [], by simp [ConsReadStep.out], by simp, by simp, .inl rfl⟩
    · rw [if_neg hlt]
      refine ⟨[], [C 'D'], by simp [ConsReadStep.out], ?_, by simp, .inr (.inl ⟨rfl, by simp; omega⟩)⟩
      rw [committed_take hr, hD]
      rfl
  | case4 c n out hn hr ch hD hdst hnl =>
    replace hD : c.buf (Ring.slot INPUT_BUF_SIZE c.r) ≠ C 'D' := hD
    replace hnl : c.buf (Ring.slot INPUT_BUF_SIZE c.r) = '\n'.toUInt8 := hnl
    rw [consolereadLoop, if_pos hn, if_neg hr]
    dsimp only
    rw [if_neg hD, if_pos hdst, if_pos hnl]
    refine ⟨[c.buf (Ring.slot INPUT_BUF_SIZE c.r)], [], rfl, ?_, fun k hk => ?_, .inl rfl⟩
    · rw [committed_take hr]
      rfl
    · rw [List.length_singleton, Nat.lt_one_iff] at hk
      subst hk
      simpa using hdst
  | case5 c n out hn hr ch c' hD hdst hnl ih =>
    replace hD : c.buf (Ring.slot INPUT_BUF_SIZE c.r) ≠ C 'D' := hD
    replace hnl : c.buf (Ring.slot INPUT_BUF_SIZE c.r) ≠ '\n'.toUInt8 := hnl
    obtain ⟨d, lost, hout, hcom, hpos, hlost⟩ := ih
    rw [consolereadLoop, if_pos hn, if_neg hr]
    dsimp only
    rw [if_neg hD, if_pos hdst, if_neg hnl]
    refine ⟨c.buf (Ring.slot INPUT_BUF_SIZE c.r) :: d, lost, by rw [hout, List.append_assoc]; rfl, ?_,
      fun k hk => ?_, ?_⟩
    · rw [committed_take hr, hcom]
      rfl
    · cases k with
      | zero => simpa using hdst
      | succ k =>
        have := hpos k (by simp at hk; omega)
        rwa [show target - (n - 1) + (k : Int) = target - n + ((k + 1 : Nat) : Int) by omega]
          at this
    · rcases hlost with h | ⟨h1, h2⟩ | ⟨h1, h2⟩
      · exact .inl h
      · exact .inr (.inl ⟨h1, by simp; omega⟩)
      · refine .inr (.inr ⟨h1, ?_⟩)
        rwa [show target - (n - 1) + (d.length : Int) =
          target - n + ((c.buf (Ring.slot INPUT_BUF_SIZE c.r) :: d).length : Int) by simp; omega] at h2
  | case6 c n out hn hr ch hD hdst =>
    replace hD : c.buf (Ring.slot INPUT_BUF_SIZE c.r) ≠ C 'D' := hD
    -- the byte is taken before the failed store
    rw [consolereadLoop, if_pos hn, if_neg hr]
    dsimp only
    rw [if_neg hD, if_neg hdst]
    refine ⟨[], [c.buf (Ring.slot INPUT_BUF_SIZE c.r)], by simp [ConsReadStep.out], ?_, by simp,
      .inr (.inr ⟨rfl, by simpa using hdst⟩)⟩
    rw [committed_take hr]
    rfl
  | case7 c n out hn =>
    rw [consolereadLoop, if_neg hn]
    exact ⟨[], [], by simp [ConsReadStep.out], by simp, by simp, .inl rfl⟩

/-- A segment of `consoleread` moves only `r`, and keeps the order of the indices. -/
theorem consolereadLoop_inv (c : Cons) (n : Int) (out : List UInt8) (hc : ConsInv c) :
    ConsInv (consolereadLoop dst killed addr target c n out).1 ∧
      (consolereadLoop dst killed addr target c n out).1.w = c.w ∧
      (consolereadLoop dst killed addr target c n out).1.e = c.e ∧
      (consolereadLoop dst killed addr target c n out).1.buf = c.buf := by
  induction c, n, out using consolereadLoop.induct dst killed addr target with
  | case1 c n out hn hr hk =>
    rw [consolereadLoop, if_pos hn, if_pos hr, if_pos hk]
    exact ⟨hc, rfl, rfl, rfl⟩
  | case2 c n out hn hr hk =>
    rw [consolereadLoop, if_pos hn, if_pos hr, if_neg hk]
    exact ⟨hc, rfl, rfl, rfl⟩
  | case3 c n out hn hr ch hD =>
    replace hD : c.buf (Ring.slot INPUT_BUF_SIZE c.r) = C 'D' := hD
    rw [consolereadLoop, if_pos hn, if_neg hr]
    dsimp only
    rw [if_pos hD]
    split_ifs
    · rw [take_untake]
      exact ⟨hc, rfl, rfl, rfl⟩
    · exact ⟨hc.take hr, rfl, rfl, rfl⟩
  | case4 c n out hn hr ch hD hdst hnl =>
    replace hD : c.buf (Ring.slot INPUT_BUF_SIZE c.r) ≠ C 'D' := hD
    replace hnl : c.buf (Ring.slot INPUT_BUF_SIZE c.r) = '\n'.toUInt8 := hnl
    rw [consolereadLoop, if_pos hn, if_neg hr]
    dsimp only
    rw [if_neg hD, if_pos hdst, if_pos hnl]
    exact ⟨hc.take hr, rfl, rfl, rfl⟩
  | case5 c n out hn hr ch c' hD hdst hnl ih =>
    replace hD : c.buf (Ring.slot INPUT_BUF_SIZE c.r) ≠ C 'D' := hD
    replace hnl : c.buf (Ring.slot INPUT_BUF_SIZE c.r) ≠ '\n'.toUInt8 := hnl
    rw [consolereadLoop, if_pos hn, if_neg hr]
    dsimp only
    rw [if_neg hD, if_pos hdst, if_neg hnl]
    exact ih (hc.take hr)
  | case6 c n out hn hr ch hD hdst =>
    replace hD : c.buf (Ring.slot INPUT_BUF_SIZE c.r) ≠ C 'D' := hD
    rw [consolereadLoop, if_pos hn, if_neg hr]
    dsimp only
    rw [if_neg hD, if_neg hdst]
    exact ⟨hc.take hr, rfl, rfl, rfl⟩
  | case7 c n out hn =>
    rw [consolereadLoop, if_neg hn]
    exact ⟨hc, rfl, rfl, rfl⟩

/-- A read that meets an end-of-file before any byte takes it and returns 0. -/
theorem consoleread_eof {c : Cons} {n : Int} (hn : 0 < n) (hr : c.r ≠ c.w)
    (hD : c.buf (Ring.slot INPUT_BUF_SIZE c.r) = C 'D') :
    consoleread dst killed addr n c = ({ c with r := c.r + 1 }, .returned 0 []) := by
  rw [consoleread, consolereadLoop, if_pos hn, if_neg hr]
  dsimp only
  rw [if_pos hD, if_neg (lt_irrefl n), sub_self]

/-- A whole read call, from its first segment: the bytes it stores are the oldest committed
ones, stored from the user's address on, and at most one more byte is taken and not stored. -/
theorem consoleread_spec (c : Cons) (n : Int) :
    ∃ d lost : List UInt8,
      (consoleread dst killed addr n c).2.out = d ∧
      c.committed = d ++ lost ++ (consoleread dst killed addr n c).1.committed ∧
      (∀ k < d.length, dst (addr + k) = true) ∧
      (lost = [] ∨ (lost = [C 'D'] ∧ d = []) ∨ (lost.length = 1 ∧ dst (addr + d.length) = false)) := by
  obtain ⟨d, lost, hout, hcom, hpos, hlost⟩ := consolereadLoop_spec dst killed addr n c n []
  refine ⟨d, lost, hout.trans (List.nil_append d), hcom, fun k hk => by simpa using hpos k hk, ?_⟩
  rcases hlost with h | ⟨h1, h2⟩ | ⟨h1, h2⟩
  · exact .inl h
  · exact .inr (.inl ⟨h1, List.eq_nil_of_length_eq_zero (by omega)⟩)
  · exact .inr (.inr ⟨h1, by simpa using h2⟩)

/-- A read whose first `either_copyout` fails returns 0 and stores nothing, and the oldest
committed byte is gone all the same. -/
theorem consoleread_drops_byte_of_copyout_fault {c : Cons} {n : Int} (hn : 0 < n) (hr : c.r ≠ c.w)
    (hD : c.buf (Ring.slot INPUT_BUF_SIZE c.r) ≠ C 'D') (hfail : dst addr = false) :
    consoleread dst killed addr n c = ({ c with r := c.r + 1 }, .returned 0 []) ∧
      c.committed = c.buf (Ring.slot INPUT_BUF_SIZE c.r) :: ({ c with r := c.r + 1 } : Cons).committed := by
  refine ⟨?_, committed_take hr⟩
  rw [consoleread, consolereadLoop, if_pos hn, if_neg hr]
  dsimp only
  rw [if_neg hD, sub_self, Int.toNat_zero, Nat.add_zero, hfail]
  rfl

end Read

/-! ### Runs -/

/-- The line being edited holds no newline: a newline commits the line it ends. -/
theorem consoleintr_no_newline {c : Cons} (h : ConsInv c) (hn : '\n'.toUInt8 ∉ c.editing)
    (ch : UInt8) : '\n'.toUInt8 ∉ (consoleintr c ch).editing := by
  by_cases hedit : ch = C 'U' ∨ ch = C 'H' ∨ ch = 0x7f
  · obtain ⟨e', he, hle⟩ := consoleintr_edit c hedit
    rw [he]
    exact fun hm => hn ((editing_retract_isPrefix c hle).subset hm)
  have hU : ch ≠ C 'U' := fun e => hedit (.inl e)
  have hH : ¬(ch = C 'H' ∨ ch = 0x7f) := fun e => hedit (.inr e)
  by_cases hP : ch = C 'P'
  · rwa [consoleintr, if_pos hP]
  rw [consoleintr, if_neg hP, if_neg hU, if_neg hH]
  by_cases hst : ch ≠ 0 ∧ Ring.dist c.r c.e < INPUT_BUF_SIZE
  · rw [if_pos hst]
    dsimp only
    generalize (if ch = '\r'.toUInt8 then '\n'.toUInt8 else ch) = x
    split_ifs with hcommit
    · simp [Cons.editing, Ring.span, Ring.dist_self]
    · have hroom : Ring.dist c.w c.e < INPUT_BUF_SIZE := by
        have := h.split
        omega
      show '\n'.toUInt8 ∉ Ring.span _ c.w (c.e + 1)
      rw [Ring.span_push INPUT_BUF_SIZE_dvd c.buf x hroom (by decide), List.mem_append, not_or]
      exact ⟨hn, fun hm => hcommit (.inl (List.mem_singleton.mp hm).symm)⟩
  · rwa [if_neg hst]

/-- With no newline in the line being edited, control-U erases all of it. -/
theorem consoleintr_kill {c : Cons} (hn : '\n'.toUInt8 ∉ c.editing) :
    consoleintr c (C 'U') = { c with e := c.w } := by
  rw [consoleintr, if_neg (by decide), if_pos rfl]
  obtain ⟨e', he, hle⟩ := killLine_retract (Ring.dist c.w c.e) c
  by_cases hw : e' = c.w
  · rw [he, hw]
  have hnl := (killLine_exit _ c le_rfl).resolve_left (by rw [he]; exact hw)
  rw [he] at hnl
  refine absurd ((editing_retract_isPrefix c hle).subset ?_) hn
  show '\n'.toUInt8 ∈ Ring.span c.buf c.w e'
  rw [Ring.span_pop_back INPUT_BUF_SIZE_dvd c.buf (Ne.symm hw), ← hnl]
  exact List.mem_append_right _ (List.mem_singleton_self _)

/-- The console states any interleaving of input bytes and read segments reaches from boot. -/
inductive ConsReach : Cons → Prop
  | init : ConsReach consInit
  | intr {c : Cons} (ch : UInt8) : ConsReach c → ConsReach (consoleintr c ch)
  | read {c : Cons} (dst : Nat → Bool) (killed : Bool) (addr : Nat) (target n : Int)
      (out : List UInt8) : ConsReach c → ConsReach (consolereadLoop dst killed addr target c n out).1

/-- In every reachable state `r ≤ w ≤ e ≤ r + INPUT_BUF_SIZE`, as 32-bit differences, and the
line being edited holds no newline. -/
theorem ConsReach.inv {c : Cons} (h : ConsReach c) : ConsInv c ∧ '\n'.toUInt8 ∉ c.editing := by
  induction h with
  | init => exact ⟨⟨le_rfl, by simp [consInit]⟩, by simp [consInit, Cons.editing, Ring.span, Ring.dist_self]⟩
  | intr ch _ ih => exact ⟨(consoleintr_spec ih.1 ch).1, consoleintr_no_newline ih.1 ih.2 ch⟩
  | read dst killed addr target n out _ ih =>
    obtain ⟨hinv, hw, he, hb⟩ := consolereadLoop_inv dst killed addr target _ n out ih.1
    refine ⟨hinv, ?_⟩
    unfold Cons.editing
    rw [hw, he, hb]
    exact ih.2

/-- What the line discipline of the console keeps in a state: the order of the indices, no
newline in the line being edited, so that control-U erases all of it and nothing committed;
input bytes that never move `r` nor take back a committed byte; and reads that take the
committed bytes in order, storing them and losing at most one, the end-of-file that a read
meets first or the byte whose store failed. -/
structure LineDiscipline (c : Cons) : Prop where
  order : ConsInv c
  no_newline : '\n'.toUInt8 ∉ c.editing
  kill : consoleintr c (C 'U') = { c with e := c.w }
  intr : ∀ ch, (consoleintr c ch).r = c.r ∧ c.committed <+: (consoleintr c ch).committed
  read : ∀ (dst : Nat → Bool) (killed : Bool) (addr : Nat) (n : Int), ∃ d lost : List UInt8,
    (consoleread dst killed addr n c).2.out = d ∧
    c.committed = d ++ lost ++ (consoleread dst killed addr n c).1.committed ∧
    (∀ k < d.length, dst (addr + k) = true) ∧
    (lost = [] ∨ (lost = [C 'D'] ∧ d = []) ∨ (lost.length = 1 ∧ dst (addr + d.length) = false))
  eof : ∀ (dst : Nat → Bool) (killed : Bool) (addr : Nat) (n : Int), 0 < n → c.r ≠ c.w →
    c.buf (Ring.slot INPUT_BUF_SIZE c.r) = C 'D' →
    consoleread dst killed addr n c = ({ c with r := c.r + 1 }, .returned 0 [])

/-- Every state reached from boot by any interleaving of input bytes and read segments keeps
the line discipline. -/
theorem console_line_discipline {c : Cons} (h : ConsReach c) : LineDiscipline c where
  order := h.inv.1
  no_newline := h.inv.2
  kill := consoleintr_kill h.inv.2
  intr ch := ⟨(consoleintr_spec h.inv.1 ch).2.1, (consoleintr_spec h.inv.1 ch).2.2⟩
  read dst killed addr n := consoleread_spec dst killed addr c n
  eof dst killed addr _ hn hr hD := consoleread_eof dst killed addr hn hr hD

/-- After `a` and a newline are typed. -/
theorem console_line_discipline_typed : LineDiscipline (consoleintr (consoleintr consInit 97) 10) :=
  console_line_discipline (.intr 10 (.intr 97 .init))

/-- The console loses a typed byte: after `a` and a newline are typed, a read of one byte
into a buffer `either_copyout` cannot store to returns 0 and stores nothing, and only the
newline is left to read. -/
theorem console_copyout_fault_loses_byte :
    (consoleintr (consoleintr consInit 97) 10).committed = [97, 10] ∧
      consoleread (fun _ => false) false 0 1 (consoleintr (consoleintr consInit 97) 10) =
        ({ consoleintr (consoleintr consInit 97) 10 with
            r := (consoleintr (consoleintr consInit 97) 10).r + 1 }, .returned 0 []) ∧
      ({ consoleintr (consoleintr consInit 97) 10 with
          r := (consoleintr (consoleintr consInit 97) 10).r + 1 } : Cons).committed = [10] := by
  refine ⟨by decide, (consoleread_drops_byte_of_copyout_fault _ false 0 (by decide) (by decide)
    (by decide) rfl).1, by decide⟩

end Xv6
