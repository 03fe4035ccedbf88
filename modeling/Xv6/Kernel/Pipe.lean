import Mathlib.Data.List.Range
import Mathlib.Data.Fin.Basic

/-! Pipes (`kernel/pipe.c`): a ring of `PIPESIZE` bytes with two 32-bit counters that only
grow and may wrap. A call runs in segments, each while it holds `pi->lock`; a segment ends
when the call returns or sleeps. The user's memory is seen through what `copyin` reads and
where `copyout` can store. -/
namespace Xv6

def PIPESIZE : Nat := 512

structure Pipe where
  data : Fin PIPESIZE → UInt8
  nread : UInt32
  nwrite : UInt32
  readopen : Bool
  writeopen : Bool

/-- The index `x % PIPESIZE` into `data`. -/
def slot (x : UInt32) : Fin PIPESIZE := ⟨x.toNat % PIPESIZE, Nat.mod_lt _ (by decide)⟩

/-- `pipealloc`: the page from `kalloc` holds junk; both ends are open. -/
def pipealloc (junk : Fin PIPESIZE → UInt8) : Pipe := ⟨junk, 0, 0, true, true⟩

/-- `pipeclose(pi, writable)`, up to the `kfree` of the page once both ends are closed. -/
def pipeclose (p : Pipe) (writable : Bool) : Pipe :=
  if writable then { p with writeopen := false } else { p with readopen := false }

/-- `pi->data[pi->nwrite++ % PIPESIZE] = ch`. -/
def Pipe.put (p : Pipe) (ch : UInt8) : Pipe :=
  { p with data := Function.update p.data (slot p.nwrite) ch, nwrite := p.nwrite + 1 }

/-- `pi->nread++`. -/
def Pipe.take (p : Pipe) : Pipe := { p with nread := p.nread + 1 }

/-- How a segment of `pipewrite` ends: the call returns `r`, or sleeps on a full pipe with
`i` bytes written. -/
inductive WriteStep where
  | returned (r : Int)
  | sleeping (i : Nat)
  deriving DecidableEq, Repr

/-- How a segment of `piperead` ends: the call returns `r` with the bytes it stored at the
user's address, or sleeps on an empty pipe. -/
inductive ReadStep where
  | returned (r : Int) (out : List UInt8)
  | sleeping
  deriving DecidableEq, Repr

/-- The loop of `pipewrite` from `i` bytes written. `src a` is the byte `copyin` reads at the
user address `a`, `none` where it fails; `killed` is `killed(pr)`. -/
def pipewriteLoop (src : Nat → Option UInt8) (killed : Bool) (addr : Nat) (n : Int)
    (p : Pipe) (i : Nat) : Pipe × WriteStep :=
  if (i : Int) < n then
    if p.readopen = false ∨ killed then (p, .returned (-1))
    else if p.nwrite = p.nread + PIPESIZE.toUInt32 then (p, .sleeping i)
    else match src (addr + i) with
      | none => (p, .returned i)
      | some ch => pipewriteLoop src killed addr n (p.put ch) (i + 1)
  else (p, .returned i)
termination_by (n - i).toNat

/-- `pipewrite(pi, addr, n)`; after a sleep the call goes on with `pipewriteLoop` from the
bytes it had written. -/
def pipewrite (src : Nat → Option UInt8) (killed : Bool) (addr : Nat) (n : Int) (p : Pipe) :
    Pipe × WriteStep :=
  pipewriteLoop src killed addr n p 0

/-- The copy loop of `piperead` from `i` bytes stored, with those bytes in `out`. `dst a`
says whether `copyout` can store at the user address `a`. The counter moves before the
store is tried. -/
def pipereadLoop (dst : Nat → Bool) (addr : Nat) (n : Int) (p : Pipe) (i : Nat)
    (out : List UInt8) : Pipe × Nat × List UInt8 :=
  if (i : Int) < n then
    if p.nread = p.nwrite then (p, i, out)
    else
      let ch := p.data (slot p.nread)
      if dst (addr + i) then pipereadLoop dst addr n p.take (i + 1) (out ++ [ch])
      else (p.take, i, out)
  else (p, i, out)
termination_by (n - i).toNat

/-- One segment of `piperead(pi, addr, n)`: it sleeps while the pipe is empty and a writer
remains, and otherwise copies. -/
def piperead (dst : Nat → Bool) (killed : Bool) (addr : Nat) (n : Int) (p : Pipe) :
    Pipe × ReadStep :=
  if p.nread = p.nwrite ∧ p.writeopen = true then
    if killed then (p, .returned (-1) []) else (p, .sleeping)
  else
    let r := pipereadLoop dst addr n p 0 []
    (r.1, .returned r.2.1 r.2.2)

/-- How many bytes wait in the pipe: `nwrite - nread` in 32-bit arithmetic. -/
def Pipe.count (p : Pipe) : Nat := (p.nwrite - p.nread).toNat

/-- The bytes waiting in the pipe, oldest first. -/
def Pipe.contents (p : Pipe) : List UInt8 :=
  (List.range p.count).map fun k => p.data ⟨(p.nread.toNat + k) % PIPESIZE, Nat.mod_lt _ (by decide)⟩

section Counters

variable {p : Pipe} {ch : UInt8}

theorem Pipe.count_def (p : Pipe) :
    p.count = (4294967296 - p.nread.toNat + p.nwrite.toNat) % 4294967296 := by
  rw [Pipe.count, UInt32.toNat_sub]

/-- The full test `nwrite == nread + PIPESIZE`. -/
theorem Pipe.full_iff : p.nwrite = p.nread + PIPESIZE.toUInt32 ↔ p.count = PIPESIZE := by
  have hw := UInt32.toNat_lt p.nwrite
  have hr := UInt32.toNat_lt p.nread
  rw [← UInt32.toNat_inj, UInt32.toNat_add, Pipe.count_def]
  have h512 : PIPESIZE.toUInt32.toNat = 512 := rfl
  rw [h512]
  unfold PIPESIZE
  omega

/-- The empty test `nread == nwrite`. -/
theorem Pipe.empty_iff : p.nread = p.nwrite ↔ p.count = 0 := by
  have hw := UInt32.toNat_lt p.nwrite
  have hr := UInt32.toNat_lt p.nread
  rw [← UInt32.toNat_inj, Pipe.count_def]
  omega

theorem Pipe.count_put (h : p.count < PIPESIZE) : (p.put ch).count = p.count + 1 := by
  have hw := UInt32.toNat_lt p.nwrite
  have hr := UInt32.toNat_lt p.nread
  simp only [Pipe.count_def, Pipe.put, UInt32.toNat_add, UInt32.toNat_one] at h ⊢
  unfold PIPESIZE at h
  omega

theorem Pipe.count_take (h : p.count ≠ 0) : p.take.count = p.count - 1 := by
  have hw := UInt32.toNat_lt p.nwrite
  have hr := UInt32.toNat_lt p.nread
  simp only [Pipe.count_def, Pipe.take, UInt32.toNat_add, UInt32.toNat_one] at h ⊢
  omega

/-- The counters' values agree modulo `PIPESIZE`, which divides `2 ^ 32`: the slot of
`nwrite` is `count` slots past that of `nread`. -/
theorem Pipe.slot_nwrite (p : Pipe) :
    (slot p.nwrite).val = (p.nread.toNat + p.count) % PIPESIZE := by
  have hw := UInt32.toNat_lt p.nwrite
  have hr := UInt32.toNat_lt p.nread
  simp only [slot, Pipe.count_def]
  unfold PIPESIZE
  omega

theorem Pipe.contents_length (p : Pipe) : p.contents.length = p.count := by
  simp [Pipe.contents]

/-- Writing a byte into a pipe that is not full adds it at the end. -/
theorem Pipe.contents_put (h : p.count < PIPESIZE) :
    (p.put ch).contents = p.contents ++ [ch] := by
  have hslot := p.slot_nwrite
  rw [Pipe.contents, Pipe.count_put h, List.range_succ, List.map_append, Pipe.contents]
  congr 1
  · -- the earlier slots are untouched: they lie before `nwrite`'s slot in the ring
    refine List.map_congr_left fun k hk => ?_
    rw [List.mem_range] at hk
    have hne : (p.nread.toNat + k) % PIPESIZE ≠ (p.nread.toNat + p.count) % PIPESIZE := by
      unfold PIPESIZE at h ⊢
      omega
    simp only [Pipe.put]
    rw [Function.update_of_ne]
    intro he
    rw [Fin.ext_iff, hslot] at he
    exact hne he
  · simp only [Pipe.put, List.map_cons, List.map_nil]
    rw [show (⟨(p.nread.toNat + p.count) % PIPESIZE, _⟩ : Fin PIPESIZE) = slot p.nwrite from
      Fin.ext hslot.symm, Function.update_self]

/-- Taking from a pipe that is not empty removes its oldest byte, the one at `nread`. -/
theorem Pipe.contents_take (h : p.count ≠ 0) :
    p.contents = p.data (slot p.nread) :: p.take.contents := by
  obtain ⟨c, hc⟩ := Nat.exists_eq_succ_of_ne_zero h
  have hr := UInt32.toNat_lt p.nread
  rw [Pipe.contents, Pipe.contents, Pipe.count_take h, hc, List.range_succ_eq_map,
    List.map_cons, List.map_map]
  congr 1
  refine List.map_congr_left fun k _ => ?_
  simp only [Function.comp, Pipe.take, UInt32.toNat_add, UInt32.toNat_one]
  congr 2
  unfold PIPESIZE
  omega

end Counters

section Segments

variable (src : Nat → Option UInt8) (dst : Nat → Bool) (killed : Bool) (addr : Nat) (n : Int)

/-- A write segment appends the bytes it copies in, in the order of the user's buffer, and
never overfills the pipe; the count it returns, or sleeps with, counts all its bytes. -/
theorem pipewriteLoop_spec (p : Pipe) (i : Nat) (hp : p.count ≤ PIPESIZE) :
    ∃ w : List UInt8, (pipewriteLoop src killed addr n p i).1.contents = p.contents ++ w ∧
      (pipewriteLoop src killed addr n p i).1.count ≤ PIPESIZE ∧
      (∀ k (hk : k < w.length), src (addr + (i + k)) = some w[k]) ∧
      ((pipewriteLoop src killed addr n p i).2 = .returned (-1) ∨
        (pipewriteLoop src killed addr n p i).2 = .returned ↑(i + w.length) ∨
        (pipewriteLoop src killed addr n p i).2 = .sleeping (i + w.length)) := by
  induction p, i using pipewriteLoop.induct src killed addr n with
  | case1 p i hi hstop =>
    rw [pipewriteLoop, if_pos hi, if_pos hstop]
    exact ⟨[], by simp, hp, by simp, .inl rfl⟩
  | case2 p i hi hgo hfull =>
    rw [pipewriteLoop, if_pos hi, if_neg hgo, if_pos hfull]
    exact ⟨[], by simp, hp, by simp, .inr (.inr rfl)⟩
  | case3 p i hi hgo hfull hsrc =>
    rw [pipewriteLoop, if_pos hi, if_neg hgo, if_neg hfull, hsrc]
    exact ⟨[], by simp, hp, by simp, .inr (.inl rfl)⟩
  | case4 p i hi hgo hfull ch hsrc ih =>
    have hlt : p.count < PIPESIZE := lt_of_le_of_ne hp fun he => hfull (Pipe.full_iff.mpr he)
    obtain ⟨w, hc, hb, hsrc', hr⟩ := ih (by rw [Pipe.count_put hlt]; omega)
    rw [pipewriteLoop, if_pos hi, if_neg hgo, if_neg hfull, hsrc]
    refine ⟨ch :: w, by rw [hc, Pipe.contents_put hlt, List.append_assoc]; rfl, hb,
      fun k hk => ?_, ?_⟩
    · cases k with
      | zero => simpa using hsrc
      | succ k =>
        have := hsrc' k (by simpa using hk)
        rw [show i + 1 + k = i + (k + 1) by omega] at this
        simpa using this
    · rw [show i + 1 + w.length = i + (ch :: w).length by simp; omega] at hr
      exact hr
  | case5 p i hi =>
    rw [pipewriteLoop, if_neg hi]
    exact ⟨[], by simp, hp, by simp, .inr (.inl (by simp))⟩

/-- A copy loop of `piperead` takes bytes from the front of the pipe: first the bytes `d`
it stores at the user's buffer, then at most one byte `lost`, taken by a `copyout` that
failed. -/
theorem pipereadLoop_spec (p : Pipe) (i : Nat) (out : List UInt8) :
    ∃ d lost : List UInt8, (pipereadLoop dst addr n p i out).2.2 = out ++ d ∧
      (pipereadLoop dst addr n p i out).2.1 = i + d.length ∧
      p.contents = d ++ lost ++ (pipereadLoop dst addr n p i out).1.contents ∧
      (∀ k < d.length, dst (addr + (i + k)) = true) ∧
      lost.length ≤ 1 ∧ (lost ≠ [] → dst (addr + (i + d.length)) = false) := by
  induction p, i, out using pipereadLoop.induct dst addr n with
  | case1 p i out hi hemp =>
    rw [pipereadLoop, if_pos hi, if_pos hemp]
    exact ⟨[], [], by simp, by simp, by simp, by simp, by simp, by simp⟩
  | case2 p i out hi hemp ch hdst ih =>
    have hne : p.count ≠ 0 := fun h0 => hemp (Pipe.empty_iff.mpr h0)
    obtain ⟨d, lost, hout, hi', hc, hok, hlen, hlost⟩ := ih
    have hch : ch = p.data (slot p.nread) := rfl
    rw [hch] at hout hi' hc
    rw [pipereadLoop, if_pos hi, if_neg hemp]
    simp only [hdst, if_true]
    refine ⟨p.data (slot p.nread) :: d, lost, by rw [hout]; simp, by rw [hi']; simp; omega,
      by rw [Pipe.contents_take hne, hc]; simp, fun k hk => ?_, hlen, fun h => ?_⟩
    · cases k with
      | zero =>
        rw [Nat.add_zero]
        exact hdst
      | succ k =>
        have := hok k (by simp at hk; omega)
        rw [show i + 1 + k = i + (k + 1) by omega] at this
        exact this
    · have := hlost h
      rw [show i + 1 + d.length = i + (p.data (slot p.nread) :: d).length by simp; omega]
        at this
      exact this
  | case3 p i out hi hemp hdst =>
    -- the counter has moved before the failed store: the byte is taken and not stored
    have hne : p.count ≠ 0 := fun h0 => hemp (Pipe.empty_iff.mpr h0)
    rw [pipereadLoop, if_pos hi, if_neg hemp]
    simp only [hdst, Bool.false_eq_true, if_false]
    refine ⟨[], [p.data (slot p.nread)], by simp, by simp, by rw [Pipe.contents_take hne]; simp,
      by simp, by simp, fun _ => by simpa using hdst⟩
  | case4 p i out hi =>
    rw [pipereadLoop, if_neg hi]
    exact ⟨[], [], by simp, by simp, by simp, by simp, by simp, by simp⟩

/-- A segment of `piperead`: it sleeps, or returns -1 when killed, only on an empty pipe with
a writer, leaving the pipe as it is; otherwise it returns the number of bytes it stored, the
oldest in the pipe, and takes at most one more, whose `copyout` failed. -/
theorem piperead_spec (p : Pipe) :
    ∃ d lost : List UInt8, p.contents = d ++ lost ++ (piperead dst killed addr n p).1.contents ∧
      (∀ k < d.length, dst (addr + k) = true) ∧
      lost.length ≤ 1 ∧ (lost ≠ [] → dst (addr + d.length) = false) ∧
      ((piperead dst killed addr n p).2 = .returned d.length d ∨
        (d = [] ∧ lost = [] ∧ p.count = 0 ∧ p.writeopen = true ∧
          ((piperead dst killed addr n p).2 = .returned (-1) [] ∨
            (piperead dst killed addr n p).2 = .sleeping))) := by
  unfold piperead
  split_ifs with hwait hk
  · exact ⟨[], [], by simp, by simp, by simp, by simp,
      .inr ⟨rfl, rfl, Pipe.empty_iff.mp hwait.1, hwait.2, .inl rfl⟩⟩
  · exact ⟨[], [], by simp, by simp, by simp, by simp,
      .inr ⟨rfl, rfl, Pipe.empty_iff.mp hwait.1, hwait.2, .inr rfl⟩⟩
  · obtain ⟨d, lost, hout, hi, hc, hok, hlen, hlost⟩ := pipereadLoop_spec dst addr n p 0 []
    refine ⟨d, lost, hc, fun k hk => by simpa using hok k hk, hlen,
      fun h => by simpa using hlost h, .inl ?_⟩
    dsimp only
    rw [hout, hi]
    simp

/-- A reader whose first `copyout` fails stores nothing and returns 0, and the oldest byte
is gone from the pipe all the same. -/
theorem piperead_drops_byte_of_copyout_fault {p : Pipe} (hn : 0 < n) (hne : p.count ≠ 0)
    (hfail : dst addr = false) :
    piperead dst killed addr n p = (p.take, .returned 0 []) ∧
      p.contents = p.data (slot p.nread) :: p.take.contents := by
  have hemp : ¬ p.nread = p.nwrite := fun h => hne (Pipe.empty_iff.mp h)
  refine ⟨?_, Pipe.contents_take hne⟩
  rw [piperead, if_neg (fun h => hemp h.1), pipereadLoop, if_pos (by exact_mod_cast hn),
    if_neg hemp]
  simp [hfail]

end Segments

/-- The pipe states any interleaving of segments reaches from `pipealloc`. -/
inductive PipeReach : Pipe → Prop
  | alloc (junk : Fin PIPESIZE → UInt8) : PipeReach (pipealloc junk)
  | write {p : Pipe} (src : Nat → Option UInt8) (killed : Bool) (addr : Nat) (n : Int)
      (i : Nat) : PipeReach p → PipeReach (pipewriteLoop src killed addr n p i).1
  | read {p : Pipe} (dst : Nat → Bool) (killed : Bool) (addr : Nat) (n : Int) :
      PipeReach p → PipeReach (piperead dst killed addr n p).1
  | close {p : Pipe} (writable : Bool) : PipeReach p → PipeReach (pipeclose p writable)

/-- What a pipe keeps in a state: at most `PIPESIZE` bytes wait in it, as `nwrite - nread`
modulo `2 ^ 32`; a write segment appends the bytes it copies in, in the order of the user's
buffer, and never overfills the pipe; a read segment takes bytes from the front, storing
them in order and losing at most one. -/
structure PipeDiscipline (p : Pipe) : Prop where
  count_le : p.count ≤ PIPESIZE
  write : ∀ (src : Nat → Option UInt8) (killed : Bool) (addr : Nat) (n : Int) (i : Nat),
    ∃ w : List UInt8, (pipewriteLoop src killed addr n p i).1.contents = p.contents ++ w ∧
      (pipewriteLoop src killed addr n p i).1.count ≤ PIPESIZE ∧
      (∀ k (hk : k < w.length), src (addr + (i + k)) = some w[k]) ∧
      ((pipewriteLoop src killed addr n p i).2 = .returned (-1) ∨
        (pipewriteLoop src killed addr n p i).2 = .returned ↑(i + w.length) ∨
        (pipewriteLoop src killed addr n p i).2 = .sleeping (i + w.length))
  read : ∀ (dst : Nat → Bool) (killed : Bool) (addr : Nat) (n : Int),
    ∃ d lost : List UInt8, p.contents = d ++ lost ++ (piperead dst killed addr n p).1.contents ∧
      (∀ k < d.length, dst (addr + k) = true) ∧
      lost.length ≤ 1 ∧ (lost ≠ [] → dst (addr + d.length) = false) ∧
      ((piperead dst killed addr n p).2 = .returned d.length d ∨
        (d = [] ∧ lost = [] ∧ p.count = 0 ∧ p.writeopen = true ∧
          ((piperead dst killed addr n p).2 = .returned (-1) [] ∨
            (piperead dst killed addr n p).2 = .sleeping)))

/-- In every reachable state `nwrite - nread`, taken modulo `2 ^ 32`, is at most
`PIPESIZE`. -/
theorem PipeReach.count_le {p : Pipe} (h : PipeReach p) : p.count ≤ PIPESIZE := by
  induction h with
  | alloc junk =>
    have h0 : (pipealloc junk).count = 0 := by simp [Pipe.count, pipealloc]
    rw [h0]
    exact Nat.zero_le _
  | write src killed addr n i _ ih =>
    obtain ⟨w, -, hle, -⟩ := pipewriteLoop_spec src killed addr n _ i ih
    exact hle
  | read dst killed addr n _ ih =>
    obtain ⟨d, lost, hc, -⟩ := piperead_spec dst killed addr n _
    rw [← Pipe.contents_length] at ih ⊢
    rw [hc, List.length_append, List.length_append] at ih
    omega
  | close writable _ ih =>
    unfold pipeclose
    split_ifs <;> exact ih

/-- Every pipe state reached from `pipealloc` by any interleaving of write and read segments
and closes keeps the discipline. -/
theorem pipe_discipline {p : Pipe} (h : PipeReach p) : PipeDiscipline p where
  count_le := h.count_le
  write src killed addr n i := pipewriteLoop_spec src killed addr n p i h.count_le
  read dst killed addr n := piperead_spec dst killed addr n p

theorem pipe_discipline_alloc : PipeDiscipline (pipealloc fun _ => 0) :=
  pipe_discipline (.alloc _)

/-- The pipe loses a byte: a writer puts `97` in an empty pipe and `pipewrite` returns 1;
a reader asks for one byte into a buffer `copyout` cannot store to; `piperead` returns 0 and
stores nothing, and the pipe is empty afterwards. -/
theorem pipe_copyout_fault_loses_byte :
    pipewrite (fun a => if a = 0 then some 97 else none) false 0 1 (pipealloc fun _ => 0) =
        ((pipealloc fun _ => 0).put 97, .returned 1) ∧
      piperead (fun _ => false) false 0 1 ((pipealloc fun _ => 0).put 97) =
        (((pipealloc fun _ => 0).put 97).take, .returned 0 []) ∧
      ((pipealloc fun _ => 0).put 97).contents = [97] ∧
      ((pipealloc fun _ => 0).put 97).take.contents = [] := by
  refine ⟨?_, (piperead_drops_byte_of_copyout_fault _ false 0 1 (by decide) (by decide) rfl).1,
    by decide, by decide⟩
  rw [pipewrite, pipewriteLoop, if_pos (by decide), if_neg (by decide), if_neg (by decide)]
  simp only [Nat.add_zero, if_true]
  rw [pipewriteLoop, if_neg (by decide)]
  rfl

end Xv6
