import Xv6.Fs.InodeSpec

/-! `writei` and `readi` against the bytes of the file (`fileByte`). A file is read as if it were
one array: `readi` copies its bytes from `off` out to `dst` (`copyFrom`), and `writei` copies
bytes from `src` into it at `off`. On a well-formed file `writei` from an offset inside the file
overwrites the bytes it was given and nothing else of the file, grows the size to cover them,
keeps the file well formed, and stops short only when the disk is full; so a `readi` after a
`writei` gives back what was written. -/
namespace Xv6
open ByteMem StateExcept

theorem BSIZE_pos : 0 < BSIZE := by decide

/-- The bytes of one pass of the loops, from `off` and at most to the end of its block, lie in
that block, in order. -/
theorem chunk_mem {off m k : Nat} (hm : m ≤ BSIZE - off % BSIZE) (h1 : off ≤ k)
    (h2 : k < off + m) : k / BSIZE = off / BSIZE ∧ k % BSIZE = off % BSIZE + (k - off) := by
  unfold BSIZE at *
  omega

theorem addr_div (b k : Nat) : (b * BSIZE + k % BSIZE) / BSIZE = b :=
  div_BSIZE_of_mem (Nat.le_add_right _ _) (Nat.add_lt_add_left (Nat.mod_lt k BSIZE_pos) _)

theorem outside_block {b x : Nat} (h : x / BSIZE ≠ b) : x < b * BSIZE ∨ b * BSIZE + BSIZE ≤ x := by
  unfold BSIZE at *
  omega

/-- Block `bn` of a file of at most `MAXFILE` blocks is one that `bmap` maps. -/
theorem lt_MAXFILE_of_mul {bn sz : Nat} (h : bn * BSIZE < sz) (hsz : sz ≤ MAXFILE * BSIZE) :
    bn < MAXFILE :=
  (Nat.mul_lt_mul_right BSIZE_pos).mp (Nat.lt_of_lt_of_le h hsz)

theorem div_lt_MAXFILE {k sz : Nat} (h : k < sz) (hsz : sz ≤ MAXFILE * BSIZE) : k / BSIZE < MAXFILE :=
  lt_MAXFILE_of_mul (Nat.lt_of_le_of_lt (Nat.div_mul_le_self k BSIZE) h) hsz

/-- A count no larger than the largest file is returned as itself. -/
theorem int32_of_le {x : Nat} (h : x ≤ MAXFILE * BSIZE) : int32 x = x := by
  have h31 : x < 2 ^ 31 := Nat.lt_of_le_of_lt h (by decide)
  have h32 : x < 2 ^ 32 := Nat.lt_trans h31 (by decide)
  unfold int32
  rw [Nat.mod_eq_of_lt h32, if_pos h31]
  exact Int.emod_eq_of_lt (Int.natCast_nonneg x) (by exact_mod_cast h32)

section Frames

variable {sb : Superblock} {ip : Fin NINODE} {s s₁ : FsState} {d d' : Memory} {i : Inode}

/-- A data block of a well-formed file is not its indirect block. -/
theorem FileOk.block_ne_ind (hok : FileOk sb d i) {k : Nat} (hk : k < MAXFILE)
    (h0 : blockOf d i.addrs k ≠ 0) : blockOf d i.addrs k ≠ i.addrs INDIRECT := by
  intro he
  have hs : slotOf d i k = slotOf d i MAXFILE := by
    rw [slotOf_eq_blockOf hk, he, slotOf, if_neg (lt_irrefl _)]
  have := hok.inj k hk.le MAXFILE le_rfl (by rwa [slotOf_eq_blockOf hk]) hs
  omega

/-- Two blocks of a well-formed file are different blocks. -/
theorem FileOk.block_inj (hok : FileOk sb d i) {k k' : Nat} (hk : k < MAXFILE)
    (hk' : k' < MAXFILE) (h0 : blockOf d i.addrs k ≠ 0)
    (he : blockOf d i.addrs k = blockOf d i.addrs k') : k = k' := by
  refine hok.inj k hk.le k' hk'.le (by rwa [slotOf_eq_blockOf hk]) ?_
  rw [slotOf_eq_blockOf hk, slotOf_eq_blockOf hk', he]

/-- A file stays well formed on a disk that agrees with this one on its blocks and keeps them
marked. -/
theorem FileOk.of_slots (hok : FileOk sb d i) (hslot : ∀ k, slotOf d' i k = slotOf d i k)
    (hbits : ∀ b, Owns d i b → used sb d' b = true) : FileOk sb d' i := by
  refine ⟨fun k hk hne => ?_, fun k hk k' hk' hne heq => ?_, fun bn hbn => ?_, hok.size_le⟩
  · rw [hslot] at hne ⊢
    obtain ⟨h1, h2, -⟩ := hok.held k hk hne
    exact ⟨h1, h2, hbits _ ⟨hne, k, hk, rfl⟩⟩
  · rw [hslot, hslot] at heq
    rw [hslot] at hne
    exact hok.inj k hk k' hk' hne heq
  · have hlt := lt_MAXFILE_of_mul hbn hok.size_le
    rw [← slotOf_eq_blockOf hlt, hslot, slotOf_eq_blockOf hlt]
    exact hok.dense bn hbn

/-- A file stays well formed on a disk that agrees with this one on its blocks and on the
bitmap. -/
theorem FileOk.congr (hok : FileOk sb d i) (hslot : ∀ k, slotOf d' i k = slotOf d i k)
    (hused : ∀ y < sb.size, used sb d' y = used sb d y) : FileOk sb d' i :=
  hok.of_slots hslot fun b hb => by
    obtain ⟨-, hlt, hu⟩ := hok.owns_held hb
    rw [hused b hlt, hu]

/-- A well-formed file may take any size up to `MAXFILE` blocks below which it has every
block. -/
theorem FileOk.setSize (hok : FileOk sb d i) {sz : Nat}
    (hdense : ∀ bn, bn * BSIZE < sz → blockOf d i.addrs bn ≠ 0) (hsz : sz ≤ MAXFILE * BSIZE) :
    FileOk sb d { i with size := sz } :=
  ⟨hok.held, hok.inj, hdense, hsz⟩

/-- A write inside one data block of a well-formed file leaves its blocks. -/
theorem FileOk.slotOf_dataWrite (hok : FileOk sb d i) {bn : Nat} (hbn : bn < MAXFILE)
    (h0 : blockOf d i.addrs bn ≠ 0) (hD : Keeps (fun a => a / BSIZE = blockOf d i.addrs bn) d d')
    (k : Nat) : slotOf d' i k = slotOf d i k :=
  slotOf_of_keeps hD fun _ _ ha hab => hok.block_ne_ind hbn h0 (hab.symm.trans ha)

theorem Extends.size (h : Extends sb ip s s₁) : (s₁.inode ip).size = (s.inode ip).size := by
  rw [h.fields]

/-- A write inside one of the file's data blocks keeps it extended. -/
theorem Extends.dataWrite (hok : FileOk sb s.disk (s.inode ip)) (hsb : SbOk sb)
    (hm : MetaUsed sb s.disk) {bn : Nat} (hbn : bn < MAXFILE)
    (h0 : blockOf s.disk (s.inode ip).addrs bn ≠ 0) {D : Memory}
    (hD : Keeps (fun a => a / BSIZE = blockOf s.disk (s.inode ip).addrs bn) s.disk D) :
    Extends sb ip s { s with disk := D } := by
  have hh := hok.held_block hbn h0
  have hslot := hok.slotOf_dataWrite hbn h0 hD
  have hused : ∀ y < sb.size, used sb D y = used sb s.disk y := fun y hy =>
    used_of_keeps hD fun hab => hh.not_bitmapArea hab (hsb.bitmapArea_bit hy)
  refine ⟨rfl, fun _ _ => rfl, rfl, hok.congr hslot hused, fun y hy => ?_,
    ⟨fun y hy hu => ?_, fun b hb => ?_, ?_⟩⟩
  · rw [hused y (Nat.lt_of_lt_of_le hy (dataStart_le sb))]
    exact hm y hy
  · rw [hused y hy]
    exact hu
  · obtain ⟨hne, k, hk, hkb⟩ := hb
    exact .inl ⟨hne, k, hk, by rw [← hslot]; exact hkb⟩
  · -- the bytes written are the file's own
    refine hD.mono fun a ha => .inr (.inr ⟨by rw [ha]; exact h0, bn, hbn.le, ?_⟩)
    rw [slotOf_eq_blockOf hbn, ha]

/-- Copying `m` bytes into the block of `off`, from `off % BSIZE` and at most to the end of the
block, is copying them into the file at `off`. -/
theorem FileOk.fileByte_copyFrom (hok : FileOk sb d i) {off m : Nat} (hoff : off / BSIZE < MAXFILE)
    (h0 : blockOf d i.addrs (off / BSIZE) ≠ 0) (hm : m ≤ BSIZE - off % BSIZE) (M : Memory)
    (src : Nat) {k : Nat} (hk : k / BSIZE < MAXFILE) :
    fileByte (copyFrom d (blockOf d i.addrs (off / BSIZE) * BSIZE + off % BSIZE) M src m) i k =
      copyFrom (fileByte d i) off M src m k := by
  set b := blockOf d i.addrs (off / BSIZE) with hb
  have hD : Keeps (fun a => a / BSIZE = b) d (copyFrom d (b * BSIZE + off % BSIZE) M src m) :=
    (keeps_copyFrom _ _ _ _ _).mono fun a ha => div_BSIZE_of_mem (by omega) (by omega)
  have hblock : blockOf (copyFrom d (b * BSIZE + off % BSIZE) M src m) i.addrs (k / BSIZE) =
      blockOf d i.addrs (k / BSIZE) := by
    rw [← slotOf_eq_blockOf hk, ← slotOf_eq_blockOf hk]
    exact hok.slotOf_dataWrite hoff h0 hD _
  rw [copyFrom_apply]
  unfold fileByte
  rw [hblock]
  by_cases hin : off ≤ k ∧ k < off + m
  · -- a byte written: it lies in the block of `off`
    obtain ⟨hq, hr⟩ := chunk_mem hm hin.1 hin.2
    rw [if_pos hin, hq, hr, ← Nat.add_assoc, copyFrom_apply_add _ _ (by omega)]
  · rw [if_neg hin, copyFrom_of_outside]
    by_cases hbk : blockOf d i.addrs (k / BSIZE) = b
    · -- a byte of the same block, before or after the bytes written
      have hq : k / BSIZE = off / BSIZE := (hok.block_inj hk hoff (by rw [hbk]; exact h0) hbk)
      have hk' := Nat.div_add_mod k BSIZE
      have hoff' := Nat.div_add_mod off BSIZE
      rw [hbk, hq] at *
      have hr := Nat.mod_lt k BSIZE_pos
      unfold BSIZE at *
      omega
    · -- a byte of another block
      have hout := outside_block ((addr_div _ k).trans_ne hbk)
      have hr := Nat.mod_lt off BSIZE_pos
      omega

/-- `bmap` leaves a block the file has. -/
theorem BmapPost.keep_block {bn x : Nat} (h : BmapPost sb ip s bn x s₁) {k : Nat}
    (hk : k < MAXFILE) (h0 : blockOf s.disk (s.inode ip).addrs k ≠ 0) :
    blockOf s₁.disk (s₁.inode ip).addrs k = blockOf s.disk (s.inode ip).addrs k := by
  by_cases hkb : k = bn
  · subst hkb
    rw [h.mapped h0]
  · exact h.rest k hk hkb

/-- `bmap` writes none of the file's data blocks. -/
theorem FileOk.not_bmapWrites (hok : FileOk sb d i) {k : Nat} (hk : k < MAXFILE)
    (h0 : blockOf d i.addrs k ≠ 0) {a : Nat} (ha : a / BSIZE = blockOf d i.addrs k) :
    ¬ BmapWrites sb d i a := by
  have hh := hok.held_block hk h0
  rintro (hb | hf | ⟨-, hi⟩)
  · exact hh.not_bitmapArea ha hb
  · exact hh.fresh_ne hf ha.symm
  · exact hok.block_ne_ind hk h0 (ha.symm.trans hi)

/-- `bmap` leaves the bytes of the file that lie in blocks it has. -/
theorem BmapPost.fileByte_eq {bn x : Nat} (h : BmapPost sb ip s bn x s₁)
    (hok : FileOk sb s.disk (s.inode ip)) {k : Nat} (hk : k / BSIZE < MAXFILE)
    (h0 : blockOf s.disk (s.inode ip).addrs (k / BSIZE) ≠ 0) :
    fileByte s₁.disk (s₁.inode ip) k = fileByte s.disk (s.inode ip) k := by
  unfold fileByte
  rw [h.keep_block hk h0]
  exact h.data _ (hok.not_bmapWrites hk h0 (addr_div _ k))

end Frames

section WriteLoop

variable {sb : Superblock} {ip : Fin NINODE} {s s₁ : FsState} {n tot off src : Nat}

theorem writeiLoop_run_done (fuel : Nat) (h : ¬ tot < n) :
    (writeiLoop sb ip n tot off src fuel).run s = .ok ((tot, off), s) := by
  cases fuel with
  | zero => rfl
  | succ fuel =>
    simp only [writeiLoop, if_neg h]
    rfl

theorem writeiLoop_run_full {fuel : Nat} (h : tot < n)
    (hb : (bmap sb ip (off / BSIZE)).run s = .ok (0, s₁)) :
    (writeiLoop sb ip n tot off src (fuel + 1)).run s = .ok ((tot, off), s₁) := by
  simp only [writeiLoop, if_pos h, StateT.run_bind, hb, ok_bind, run_ite, if_pos]
  rfl

theorem writeiLoop_run_step {fuel x : Nat} (h : tot < n)
    (hb : (bmap sb ip (off / BSIZE)).run s = .ok (x, s₁)) (hx : x ≠ 0) :
    (writeiLoop sb ip n tot off src (fuel + 1)).run s =
      (writeiLoop sb ip n (tot + min (n - tot) (BSIZE - off % BSIZE))
        (off + min (n - tot) (BSIZE - off % BSIZE)) (src + min (n - tot) (BSIZE - off % BSIZE))
        fuel).run
        { s₁ with disk := (copyFrom s₁.disk (x * BSIZE + off % BSIZE) s₁.mem src
          (min (n - tot) (BSIZE - off % BSIZE))) } := by
  simp only [writeiLoop, if_pos h, StateT.run_bind, hb, ok_bind, run_ite, if_neg hx]
  rfl

/-- What the loop of `writei` keeps, from the state `s₀` it started in, with `tot` bytes
written: the file extended, every block up to the offset reached mapped, and the file's bytes
those of `s₀` with the `tot` bytes from `src₀` copied in at `off₀`. -/
structure WriteInv (sb : Superblock) (ip : Fin NINODE) (s₀ : FsState) (src₀ off₀ tot : Nat)
    (s : FsState) : Prop where
  ext : Extends sb ip s₀ s
  dense : ∀ bn, bn * BSIZE < off₀ + tot → blockOf s.disk (s.inode ip).addrs bn ≠ 0
  bytes : ∀ k < max (s₀.inode ip).size (off₀ + tot),
    fileByte s.disk (s.inode ip) k = copyFrom (fileByte s₀.disk (s₀.inode ip)) off₀ s₀.mem src₀ tot k

variable {s₀ : FsState} {src₀ off₀ : Nat}

theorem WriteInv.start (hok : FileOk sb s₀.disk (s₀.inode ip)) (hm : MetaUsed sb s₀.disk)
    (hoff : off₀ ≤ (s₀.inode ip).size) : WriteInv sb ip s₀ src₀ off₀ 0 s₀ :=
  ⟨Extends.refl hok hm, fun bn hbn => hok.dense bn (by omega), fun k _ => by rw [copyFrom_zero]⟩

/-- Below the larger of the size and the offset reached, the file has every block. -/
theorem WriteInv.block_ne (h : WriteInv sb ip s₀ src₀ off₀ tot s)
    (hb : off₀ + tot ≤ MAXFILE * BSIZE) {k : Nat} (hk : k < max (s₀.inode ip).size (off₀ + tot)) :
    k / BSIZE < MAXFILE ∧ blockOf s.disk (s.inode ip).addrs (k / BSIZE) ≠ 0 := by
  have hsz : (s₀.inode ip).size ≤ MAXFILE * BSIZE := by
    rw [← h.ext.size]
    exact h.ext.ok.size_le
  have hdiv : k / BSIZE * BSIZE ≤ k := Nat.div_mul_le_self k BSIZE
  refine ⟨div_lt_MAXFILE hk (max_le hsz hb), ?_⟩
  rcases lt_max_iff.mp hk with hk | hk
  · exact h.ext.ok.dense _ (by rw [h.ext.size]; omega)
  · exact h.dense _ (by omega)

/-- `bmap` keeps the invariant: it leaves the blocks the file has, and their bytes. -/
theorem WriteInv.bmap (h : WriteInv sb ip s₀ src₀ off₀ tot s) (hb : off₀ + tot ≤ MAXFILE * BSIZE)
    {bn x : Nat} (hp : BmapPost sb ip s bn x s₁) : WriteInv sb ip s₀ src₀ off₀ tot s₁ := by
  refine ⟨h.ext.trans hp.ext, fun bn' hbn' => ?_, fun k hk => ?_⟩
  · have h0 := h.dense bn' hbn'
    rw [hp.keep_block (lt_MAXFILE_of_mul hbn' hb) h0]
    exact h0
  · obtain ⟨hkb, h0⟩ := h.block_ne hb hk
    rw [hp.fileByte_eq h.ext.ok hkb h0]
    exact h.bytes k hk

/-- One pass of the copy keeps the invariant, `m` bytes further on. -/
theorem WriteInv.copy (hsb : SbOk sb) (h : WriteInv sb ip s₀ src₀ off₀ tot s) {m : Nat}
    (hm0 : 0 < m) (hb : off₀ + tot + m ≤ MAXFILE * BSIZE) (hm : m ≤ BSIZE - (off₀ + tot) % BSIZE)
    (h0 : blockOf s.disk (s.inode ip).addrs ((off₀ + tot) / BSIZE) ≠ 0) :
    WriteInv sb ip s₀ src₀ off₀ (tot + m) { s with disk := (copyFrom s.disk
      (blockOf s.disk (s.inode ip).addrs ((off₀ + tot) / BSIZE) * BSIZE + (off₀ + tot) % BSIZE)
      s.mem (src₀ + tot) m) } := by
  have hbn : (off₀ + tot) / BSIZE < MAXFILE := div_lt_MAXFILE (by omega) hb
  have hD : Keeps (fun a => a / BSIZE = blockOf s.disk (s.inode ip).addrs ((off₀ + tot) / BSIZE))
      s.disk (copyFrom s.disk (blockOf s.disk (s.inode ip).addrs ((off₀ + tot) / BSIZE) * BSIZE +
        (off₀ + tot) % BSIZE) s.mem (src₀ + tot) m) :=
    (keeps_copyFrom _ _ _ _ _).mono fun a ha => div_BSIZE_of_mem (by omega) (by omega)
  have hslot := h.ext.ok.slotOf_dataWrite hbn h0 hD
  have hsz : (s₀.inode ip).size ≤ MAXFILE * BSIZE := by
    rw [← h.ext.size]
    exact h.ext.ok.size_le
  refine ⟨h.ext.trans (Extends.dataWrite h.ext.ok hsb h.ext.metaUsed hbn h0 hD),
    fun bn hbn' => ?_, fun k hk => ?_⟩
  · -- the blocks below the new offset: the old ones and the block of `off₀ + tot`
    have hlt := lt_MAXFILE_of_mul hbn' (by omega)
    show blockOf _ (s.inode ip).addrs bn ≠ 0
    rw [← slotOf_eq_blockOf hlt, hslot, slotOf_eq_blockOf hlt]
    by_cases hold : bn * BSIZE < off₀ + tot
    · exact h.dense bn hold
    · have hq : bn = (off₀ + tot) / BSIZE := by
        unfold BSIZE at *
        omega
      rw [hq]
      exact h0
  · have hkb := div_lt_MAXFILE hk (max_le hsz (by omega))
    show fileByte _ (s.inode ip) k = _
    rw [h.ext.ok.fileByte_copyFrom hbn h0 hm s.mem (src₀ + tot) hkb, h.ext.mem]
    by_cases hin : off₀ + tot ≤ k ∧ k < off₀ + tot + m
    · rw [copyFrom_apply, if_pos hin, copyFrom_apply, if_pos (by omega)]
      congr 1
      omega
    · rw [copyFrom_apply, if_neg hin, h.bytes k (by omega), copyFrom_apply, copyFrom_apply]
      by_cases hold : off₀ ≤ k ∧ k < off₀ + tot
      · rw [if_pos hold, if_pos (by omega)]
      · rw [if_neg hold, if_neg (by omega)]

/-- The loop of `writei` from `tot` bytes written, with enough passes left, ends with the
invariant, having written all `n` bytes unless the disk is full. -/
theorem writeiLoop_spec (hsb : SbOk sb) (hn : off₀ + n ≤ MAXFILE * BSIZE) :
    ∀ fuel tot s, tot ≤ n → n - tot ≤ fuel → WriteInv sb ip s₀ src₀ off₀ tot s →
      ∃ tot' s', (writeiLoop sb ip n tot (off₀ + tot) (src₀ + tot) fuel).run s =
          .ok ((tot', off₀ + tot'), s') ∧ tot' ≤ n ∧ WriteInv sb ip s₀ src₀ off₀ tot' s' ∧
        (tot' < n → ∀ y < sb.size, used sb s'.disk y = true)
  | 0, tot, s, htot, hfuel, h =>
    ⟨tot, s, writeiLoop_run_done 0 (by omega), htot, h, fun h' => absurd h' (by omega)⟩
  | fuel + 1, tot, s, htot, hfuel, h => by
    by_cases htn : tot < n
    · -- one pass: `bmap` for the block of the offset, then a copy into it
      have hb : off₀ + tot ≤ MAXFILE * BSIZE := by omega
      have hbn : (off₀ + tot) / BSIZE < MAXFILE := div_lt_MAXFILE (by omega) hn
      obtain ⟨x, s₁, hrun, hp⟩ := bmap_spec h.ext.ok hsb h.ext.metaUsed hbn
      have h₁ := h.bmap hb hp
      by_cases hx : x = 0
      · subst hx
        exact ⟨tot, s₁, writeiLoop_run_full htn hrun, htot, h₁, fun _ => hp.full rfl⟩
      have hr := Nat.mod_lt (off₀ + tot) BSIZE_pos
      have h₂ := h₁.copy hsb (m := min (n - tot) (BSIZE - (off₀ + tot) % BSIZE)) (by omega)
        (by omega) (Nat.min_le_right _ _) (by rw [hp.block]; exact hx)
      rw [hp.block] at h₂
      obtain ⟨tot', s', hrun', htot', h', hfull⟩ :=
        writeiLoop_spec hsb hn fuel _ _ (by omega) (by omega) h₂
      refine ⟨tot', s', ?_, htot', h', hfull⟩
      rw [writeiLoop_run_step htn hrun hx, ← hrun', Nat.add_assoc off₀, Nat.add_assoc src₀]
    · exact ⟨tot, s, writeiLoop_run_done _ htn, htot, h, fun h' => absurd h' htn⟩

end WriteLoop

theorem keeps_writeAddrs (d : Memory) (a : Nat) (addrs : Fin (NDIRECT + 1) → Nat) :
    Keeps (fun x => a ≤ x ∧ x < a + 4 * (NDIRECT + 1)) d (writeAddrs d a addrs) := fun x hx => by
  unfold writeAddrs
  rw [dif_neg hx]

/-- `iupdate` writes the 64 bytes of one `struct dinode`. -/
theorem keeps_writeDinode (d : Memory) (a : Nat) (i : Inode) :
    Keeps (fun x => a ≤ x ∧ x < a + 64) d (writeDinode d a i) := by
  have h := ((((keeps_writeLE d a (short i.type) 2).trans
    (keeps_writeLE _ (a + 2) (short i.major) 2)).trans
    (keeps_writeLE _ (a + 4) (short i.minor) 2)).trans
    (keeps_writeLE _ (a + 6) (short i.nlink) 2)).trans (keeps_writeLE _ (a + 8) i.size 4)
  refine (h.trans (keeps_writeAddrs _ (a + 12) i.addrs)).mono fun x hx => ?_
  unfold NDIRECT at hx
  omega

/-- The `struct dinode` of inode `inum` lies in block `IBLOCK inum sb`. -/
theorem dinode_mem (sb : Superblock) (inum : Nat) {x : Nat} (h1 : dinodeAddr sb inum ≤ x)
    (h2 : x < dinodeAddr sb inum + 64) : x / BSIZE = IBLOCK inum sb := by
  have hr : inum % IPB * 64 + 64 ≤ BSIZE := by
    have := Nat.mod_lt inum (show 0 < IPB by decide)
    unfold IPB BSIZE at *
    omega
  unfold dinodeAddr at *
  exact div_BSIZE_of_mem (by omega) (by omega)

section Meta

variable {sb : Superblock} {d d' : Memory} {i : Inode} {W : Nat → Prop}

theorem SbOk.bmapstart_lt (h : SbOk sb) : sb.bmapstart < dataStart sb :=
  Nat.lt_of_le_of_lt (Nat.le_add_right _ _) h.bitmap

/-- The inode blocks lie before the bitmap. -/
theorem SbOk.IBLOCK_lt (h : SbOk sb) {inum : Nat} (hi : inum < sb.ninodes) :
    IBLOCK inum sb < sb.bmapstart := by
  have hdiv : inum / IPB ≤ sb.ninodes / IPB := Nat.div_le_div_right hi.le
  have := h.inodes
  unfold IBLOCK
  omega

theorem not_bitmapArea_of_lt {x : Nat} (hx : x / BSIZE < sb.bmapstart) : ¬ BitmapArea sb x :=
  fun h => absurd hx (Nat.not_lt.mpr ((Nat.le_div_iff_mul_le BSIZE_pos).mpr h.1))

theorem Held.ne_of_lt (hsb : SbOk sb) {b x : Nat} (hb : Held sb d b)
    (hx : x / BSIZE < sb.bmapstart) : x / BSIZE ≠ b := by
  have := hb.1
  have := hsb.bmapstart_lt
  omega

/-! A write to the blocks before the bitmap, where `iupdate` writes, leaves the bitmap and every
block of a well-formed file. -/

theorem slotOf_of_keeps_meta (hsb : SbOk sb) (hok : FileOk sb d i) (hD : Keeps W d d')
    (hW : ∀ x, W x → x / BSIZE < sb.bmapstart) (k : Nat) : slotOf d' i k = slotOf d i k :=
  slotOf_of_keeps hD fun h0 x hx hw => (hok.held_ind h0).ne_of_lt hsb (hW x hw) hx

theorem used_of_keeps_meta (hsb : SbOk sb) (hD : Keeps W d d')
    (hW : ∀ x, W x → x / BSIZE < sb.bmapstart) {y : Nat} (hy : y < sb.size) :
    used sb d' y = used sb d y :=
  used_of_keeps hD fun hw => not_bitmapArea_of_lt (hW _ hw) (hsb.bitmapArea_bit hy)

theorem fileByte_of_keeps_meta (hsb : SbOk sb) (hok : FileOk sb d i) (hD : Keeps W d d')
    (hW : ∀ x, W x → x / BSIZE < sb.bmapstart) {k : Nat} (hk : k < i.size) :
    fileByte d' i k = fileByte d i k := by
  have h0 := hok.dense _ (Nat.lt_of_le_of_lt (Nat.div_mul_le_self k BSIZE) hk)
  have hkb : k / BSIZE < MAXFILE := div_lt_MAXFILE hk hok.size_le
  unfold fileByte
  rw [← slotOf_eq_blockOf hkb, slotOf_of_keeps_meta hsb hok hD hW, slotOf_eq_blockOf hkb]
  exact hD _ fun hw => (hok.held_block hkb h0).ne_of_lt hsb (hW _ hw) (addr_div _ k)

theorem FileOk.of_keeps_meta (hsb : SbOk sb) (hok : FileOk sb d i) (hD : Keeps W d d')
    (hW : ∀ x, W x → x / BSIZE < sb.bmapstart) : FileOk sb d' i :=
  hok.congr (slotOf_of_keeps_meta hsb hok hD hW) fun _ hy => used_of_keeps_meta hsb hD hW hy

theorem MetaUsed.of_keeps_meta (hsb : SbOk sb) (hm : MetaUsed sb d) (hD : Keeps W d d')
    (hW : ∀ x, W x → x / BSIZE < sb.bmapstart) : MetaUsed sb d' := fun y hy => by
  rw [used_of_keeps_meta hsb hD hW (Nat.lt_of_lt_of_le hy (dataStart_le sb))]
  exact hm y hy

end Meta

/-! ### `writei` -/

/-- What `writei` of `n` bytes from `src` at `off` leaves when it returns `tot`: the count at
most `n`, and short only when the disk is full; the size grown to the offset reached; the
file's bytes the ones it had with the `tot` bytes from `src` copied in at `off`; the file still
well formed, naming only blocks it had or that were free, and every block that was marked still
marked; memory, the other inodes and the inode's other fields as they were; and the disk
written only in the bitmap, in blocks that were free, in the file's own blocks and in its
`struct dinode`, written last with the inode as it is now. -/
structure WriteiPost (sb : Superblock) (ip : Fin NINODE) (s : FsState) (src off n tot : Nat)
    (s' : FsState) : Prop where
  count : tot ≤ n
  full : tot < n → ∀ y < sb.size, used sb s'.disk y = true
  size : (s'.inode ip).size = max (s.inode ip).size (off + tot)
  bytes : ∀ k < (s'.inode ip).size,
    fileByte s'.disk (s'.inode ip) k = copyFrom (fileByte s.disk (s.inode ip)) off s.mem src tot k
  ok : FileOk sb s'.disk (s'.inode ip)
  owns : ∀ b, Owns s'.disk (s'.inode ip) b → Owns s.disk (s.inode ip) b ∨ Fresh sb s.disk b
  marked : ∀ y < sb.size, used sb s.disk y = true → used sb s'.disk y = true
  metaUsed : MetaUsed sb s'.disk
  mem : s'.mem = s.mem
  others : ∀ j, j ≠ ip → s'.inode j = s.inode j
  fields : s'.inode ip = { s.inode ip with size := (s'.inode ip).size, addrs := (s'.inode ip).addrs }
  frame : Keeps (fun a => Touches sb s.disk (s.inode ip) a ∨
    (dinodeAddr sb (s.inode ip).inum ≤ a ∧ a < dinodeAddr sb (s.inode ip).inum + 64)) s.disk s'.disk
  stored : ∃ d, s'.disk = writeDinode d (dinodeAddr sb (s.inode ip).inum) (s'.inode ip)

section Writei

variable {sb : Superblock} {ip : Fin NINODE} {s s₁ : FsState}

theorem iupdate_run (s : FsState) :
    (iupdate sb ip).run s =
      .ok ((), { s with disk := writeDinode s.disk (dinodeAddr sb (s.inode ip).inum) (s.inode ip) }) :=
  rfl

/-- The way through `writei` for an offset inside the file and a range inside `MAXFILE` blocks:
the loop, the size grown to the offset it reached, and the inode written back. -/
theorem writei_run_of_loop {src off n tot : Nat} (hoff : off ≤ (s.inode ip).size)
    (hn : off + n ≤ MAXFILE * BSIZE)
    (hl : (writeiLoop sb ip n 0 off src n).run s = .ok ((tot, off + tot), s₁)) :
    (writei sb ip src off n).run s =
      (iupdate sb ip >>= fun _ => pure (int32 tot)).run
        (s₁.setInode ip fun i => { i with size := max (s₁.inode ip).size (off + tot) }) := by
  have hg1 : ¬ (off > (s.inode ip).size ∨ (off + n) % 2 ^ 32 < off) := by
    rw [Nat.mod_eq_of_lt (Nat.lt_of_le_of_lt hn (by decide))]
    omega
  have hg2 : ¬ off + n > MAXFILE * BSIZE := by omega
  simp only [writei, StateT.run_bind, StateT.run_get, pure_bind, run_ite, if_neg hg1, if_neg hg2,
    hl, ok_bind]
  by_cases hgt : off + tot > (s₁.inode ip).size
  · rw [if_pos hgt, max_eq_right hgt.le]
    rfl
  · rw [if_neg hgt, FsState.setInode_of_eq s₁ (by rw [max_eq_left (Nat.le_of_not_gt hgt)])]

/-- `writei` refuses an offset past the end of the file and a range past `MAXFILE` blocks, and
changes nothing. -/
theorem writei_run_reject {src off n : Nat}
    (h : ¬ (off ≤ (s.inode ip).size ∧ off + n ≤ MAXFILE * BSIZE)) :
    (writei sb ip src off n).run s = .ok (-1, s) := by
  by_cases hg1 : off > (s.inode ip).size ∨ (off + n) % 2 ^ 32 < off
  · simp only [writei, StateT.run_bind, StateT.run_get, pure_bind, run_ite, if_pos hg1]
    rfl
  · have hg2 : off + n > MAXFILE * BSIZE := by omega
    simp only [writei, StateT.run_bind, StateT.run_get, pure_bind, run_ite, if_neg hg1, if_pos hg2]
    rfl

/-- Within one block the loop of `writei` writes all its bytes or none: its one pass stops at a
missing block or copies them all. -/
theorem writeiLoop_one_block {src off n fuel tot o : Nat} (hblk : off % BSIZE + n ≤ BSIZE)
    (h : (writeiLoop sb ip n 0 off src (fuel + 1)).run s = .ok ((tot, o), s₁)) :
    (tot = 0 ∨ tot = n) ∧ o = off + tot := by
  by_cases hn : 0 < n
  · cases hb : (bmap sb ip (off / BSIZE)).run s with
    | error e =>
      simp only [writeiLoop, if_pos hn, StateT.run_bind, hb, error_bind] at h
      cases h
    | ok p =>
      obtain ⟨x, s₂⟩ := p
      by_cases hx : x = 0
      · subst hx
        rw [writeiLoop_run_full hn hb] at h
        cases h
        exact ⟨.inl rfl, rfl⟩
      · -- the pass copies all `n` bytes, and the loop ends
        have hm : min (n - 0) (BSIZE - off % BSIZE) = n := by omega
        rw [writeiLoop_run_step hn hb hx, hm, Nat.zero_add, writeiLoop_run_done fuel (lt_irrefl n)] at h
        cases h
        exact ⟨.inr rfl, rfl⟩
  · rw [writeiLoop_run_done (fuel + 1) hn] at h
    cases h
    exact ⟨.inl rfl, rfl⟩

/-- `writei` of a range inside the file, within `MAXFILE` blocks and within one block, returns
all the bytes or none. -/
theorem writei_one_block {src off n : Nat} {r : Int} (hoff : off ≤ (s.inode ip).size)
    (hn : off + n ≤ MAXFILE * BSIZE) (hblk : off % BSIZE + n ≤ BSIZE) (hn0 : 0 < n)
    (h : (writei sb ip src off n).run s = .ok (r, s₁)) : r = 0 ∨ r = n := by
  have hg1 : ¬ (off > (s.inode ip).size ∨ (off + n) % 2 ^ 32 < off) := by
    rw [Nat.mod_eq_of_lt (Nat.lt_of_le_of_lt hn (by decide))]
    omega
  have hg2 : ¬ off + n > MAXFILE * BSIZE := by omega
  obtain ⟨fuel, rfl⟩ : ∃ fuel, n = fuel + 1 := ⟨n - 1, by omega⟩
  cases hl : (writeiLoop sb ip (fuel + 1) 0 off src (fuel + 1)).run s with
  | error e =>
    simp only [writei, StateT.run_bind, StateT.run_get, pure_bind, run_ite, if_neg hg1, if_neg hg2,
      hl, error_bind] at h
    cases h
  | ok p =>
    obtain ⟨⟨tot, o⟩, s₂⟩ := p
    obtain ⟨htot, rfl⟩ := writeiLoop_one_block hblk hl
    rw [writei_run_of_loop hoff hn hl, StateT.run_bind, iupdate_run, ok_bind] at h
    cases h
    have h32 : tot ≤ MAXFILE * BSIZE := by rcases htot with rfl | rfl <;> omega
    rw [int32_of_le h32]
    rcases htot with rfl | rfl
    · exact .inl rfl
    · exact .inr rfl

/-- `writei` of `n` bytes from `src` at an offset `off` inside a well-formed file, for a range
within `MAXFILE` blocks, returns the count it wrote, with all that `WriteiPost` says. -/
theorem writei_spec (hok : FileOk sb s.disk (s.inode ip)) (hsb : SbOk sb) (hm : MetaUsed sb s.disk)
    (hinum : (s.inode ip).inum < sb.ninodes) (src : Nat) {off n : Nat}
    (hoff : off ≤ (s.inode ip).size) (hn : off + n ≤ MAXFILE * BSIZE) :
    ∃ (tot : Nat) (s' : FsState), (writei sb ip src off n).run s = .ok ((tot : Int), s') ∧
      WriteiPost sb ip s src off n tot s' := by
  obtain ⟨tot, s₁, hl, htot, h, hfull⟩ := writeiLoop_spec hsb hn n 0 s (Nat.zero_le _)
    (Nat.sub_le n 0) (WriteInv.start hok hm hoff : WriteInv sb ip s src off 0 s)
  rw [Nat.add_zero, Nat.add_zero] at hl
  have hsz1 : (s₁.inode ip).size = (s.inode ip).size := h.ext.size
  have hinum1 : (s₁.inode ip).inum = (s.inode ip).inum := by rw [h.ext.fields]
  set t := s₁.setInode ip fun i => { i with size := max (s₁.inode ip).size (off + tot) } with ht
  have hti : t.inode ip = { s₁.inode ip with size := max (s.inode ip).size (off + tot) } := by
    rw [ht, FsState.setInode_self, hsz1]
  set s' : FsState :=
    { t with disk := writeDinode t.disk (dinodeAddr sb (t.inode ip).inum) (t.inode ip) } with hs'
  have htinum : (t.inode ip).inum = (s.inode ip).inum := by
    rw [hti]
    exact hinum1
  have hD' : Keeps (fun x => dinodeAddr sb (s.inode ip).inum ≤ x ∧
      x < dinodeAddr sb (s.inode ip).inum + 64) s₁.disk s'.disk := by
    refine (keeps_writeDinode _ _ _).mono fun x hx => ?_
    rwa [htinum] at hx
  have hD : Keeps (fun x => x / BSIZE = IBLOCK (s.inode ip).inum sb) s₁.disk s'.disk :=
    hD'.mono fun x hx => dinode_mem sb _ hx.1 hx.2
  have hW : ∀ x, x / BSIZE = IBLOCK (s.inode ip).inum sb → x / BSIZE < sb.bmapstart :=
    fun x hx => hx ▸ hsb.IBLOCK_lt hinum
  have hsz : (s.inode ip).size ≤ MAXFILE * BSIZE := hok.size_le
  have hok₂ : FileOk sb s₁.disk { s₁.inode ip with size := max (s.inode ip).size (off + tot) } := by
    refine h.ext.ok.setSize (fun bn hbn => ?_) (max_le hsz (by omega))
    rcases lt_max_iff.mp hbn with hb | hb
    · exact h.ext.ok.dense bn (by rw [hsz1]; exact hb)
    · exact h.dense bn hb
  have hi' : s'.inode ip = { s₁.inode ip with size := max (s.inode ip).size (off + tot) } := by
    rw [hs', hti]
  refine ⟨tot, s', by rw [writei_run_of_loop hoff hn hl, int32_of_le (by omega), ← ht, hs']; rfl, ?_⟩
  refine ⟨htot, fun hlt y hy => ?_, by rw [hi'], fun k hk => ?_, ?_, fun b hb => ?_,
    fun y hy hu => ?_, h.ext.metaUsed.of_keeps_meta hsb hD hW, by rw [hs', ht]; exact h.ext.mem,
    fun j hj => ?_, ?_, h.ext.grows.keeps.trans hD', ⟨t.disk, ?_⟩⟩
  · rw [used_of_keeps_meta hsb hD hW hy]
    exact hfull hlt y hy
  · rw [hi'] at hk ⊢
    rw [fileByte_of_keeps_meta hsb hok₂ hD hW hk]
    exact h.bytes k hk
  · rw [hi']
    exact hok₂.of_keeps_meta hsb hD hW
  · -- the size does not enter `slotOf`, and the write-back leaves the blocks
    rw [hi', Owns] at hb
    simp only [slotOf_of_keeps_meta hsb hok₂ hD hW] at hb
    exact h.ext.grows.owns b hb
  · rw [used_of_keeps_meta hsb hD hW hy]
    exact h.ext.grows.used y hy hu
  · rw [hs', ht, FsState.setInode_of_ne _ _ hj]
    exact h.ext.others j hj
  · rw [hi', h.ext.fields]
  · show writeDinode t.disk (dinodeAddr sb (t.inode ip).inum) (t.inode ip) = _
    rw [htinum]

theorem writei_spec_mkfs : ∃ (tot : Nat) (s' : FsState),
    (writei mkfsSb 0 0 0 100).run mkfsState = .ok ((tot : Int), s') ∧
      WriteiPost mkfsSb 0 mkfsState 0 0 100 tot s' :=
  writei_spec (FileOk.empty (fun _ => rfl) rfl) mkfsSb_ok mkfsDisk_metaUsed (by decide) 0
    (by decide) (by decide)

end Writei

/-! ### `readi` -/

/-- How many bytes `readi` reads: none from an offset past the end of the file or for a range
that wraps around, and otherwise as many of those asked for as the file holds. -/
def readCount (size off n : Nat) : Nat :=
  if off > size ∨ (off + n) % 2 ^ 32 < off then 0 else min n (size - off)

section Readi

variable {sb : Superblock} {ip : Fin NINODE} {s s₁ : FsState} {n tot off dst : Nat}

/-- The bytes of one pass, read from the block of `off`, are the file's bytes from `off`. -/
theorem fileByte_chunk {d : Memory} {i : Inode} {m j : Nat} (hm : m ≤ BSIZE - off % BSIZE)
    (hj : j < m) : d (blockOf d i.addrs (off / BSIZE) * BSIZE + off % BSIZE + j) = fileByte d i (off + j) := by
  obtain ⟨hq, hr⟩ := chunk_mem hm (Nat.le_add_right off j) (Nat.add_lt_add_left hj off)
  rw [fileByte, hq, hr, Nat.add_sub_cancel_left, Nat.add_assoc]

/-- `bmap` of a block the file has returns it and changes nothing. -/
theorem bmap_run_mapped {bn : Nat} (hbn : bn < MAXFILE)
    (h0 : blockOf s.disk (s.inode ip).addrs bn ≠ 0) :
    (bmap sb ip bn).run s = .ok (blockOf s.disk (s.inode ip).addrs bn, s) := by
  by_cases hd : bn < NDIRECT
  · rw [blockOf_direct hd] at h0 ⊢
    rw [bmap_run_direct hd, bmapAddr_run_of_ne h0]
  · have hbn' : bn - NDIRECT < NINDIRECT := by
      unfold MAXFILE at hbn
      omega
    rw [blockOf_indirect hd] at h0 ⊢
    have hi0 : (s.inode ip).addrs INDIRECT ≠ 0 := fun h => h0 (if_pos h)
    rw [if_neg hi0] at h0 ⊢
    exact bmap_run_entry hd hbn' (bmapAddr_run_of_ne hi0) hi0 h0

theorem readiLoop_run_done (fuel : Nat) (h : ¬ tot < n) :
    (readiLoop sb ip n tot off dst fuel).run s = .ok (tot, s) := by
  cases fuel with
  | zero => rfl
  | succ fuel =>
    simp only [readiLoop, if_neg h]
    rfl

theorem readiLoop_run_step {fuel x : Nat} (h : tot < n)
    (hb : (bmap sb ip (off / BSIZE)).run s = .ok (x, s₁)) (hx : x ≠ 0) :
    (readiLoop sb ip n tot off dst (fuel + 1)).run s =
      (readiLoop sb ip n (tot + min (n - tot) (BSIZE - off % BSIZE))
        (off + min (n - tot) (BSIZE - off % BSIZE)) (dst + min (n - tot) (BSIZE - off % BSIZE))
        fuel).run
        { s₁ with mem := (copyFrom s₁.mem dst s₁.disk (x * BSIZE + off % BSIZE)
          (min (n - tot) (BSIZE - off % BSIZE))) } := by
  simp only [readiLoop, if_pos h, StateT.run_bind, hb, ok_bind, run_ite, if_neg hx]
  rfl

/-- The loop of `readi` over bytes the file has, from `tot` bytes read and with enough passes
left, reads all `n` of them, each pass copying out the file's bytes of one block. -/
theorem readiLoop_spec {s₀ : FsState} (hok : FileOk sb s₀.disk (s₀.inode ip)) (off₀ dst₀ : Nat)
    (hn : off₀ + n ≤ (s₀.inode ip).size) :
    ∀ fuel tot t, tot ≤ n → n - tot ≤ fuel →
      t = { s₀ with mem := copyFrom s₀.mem dst₀ (fileByte s₀.disk (s₀.inode ip)) off₀ tot } →
      (readiLoop sb ip n tot (off₀ + tot) (dst₀ + tot) fuel).run t =
        .ok (n, { s₀ with mem := copyFrom s₀.mem dst₀ (fileByte s₀.disk (s₀.inode ip)) off₀ n })
  | 0, tot, t, htot, hfuel, ht => by
    have hn' : tot = n := by omega
    subst hn' ht
    exact readiLoop_run_done 0 (lt_irrefl _)
  | fuel + 1, tot, t, htot, hfuel, ht => by
    by_cases htn : tot < n
    · -- a pass over the block of `off₀ + tot`, which the file has
      have hlt : off₀ + tot < (s₀.inode ip).size := by omega
      have hbn := div_lt_MAXFILE hlt hok.size_le
      have h0 : blockOf t.disk (t.inode ip).addrs ((off₀ + tot) / BSIZE) ≠ 0 := by
        rw [ht]
        exact hok.dense _ (Nat.lt_of_le_of_lt (Nat.div_mul_le_self _ _) hlt)
      have hr := Nat.mod_lt (off₀ + tot) BSIZE_pos
      rw [readiLoop_run_step htn (bmap_run_mapped hbn h0) h0, Nat.add_assoc off₀, Nat.add_assoc dst₀]
      refine readiLoop_spec hok off₀ dst₀ hn fuel _ _ (by omega) (by omega) ?_
      rw [ht]
      congr 1
      rw [copyFrom_congr_src fun j hj => fileByte_chunk (Nat.min_le_right _ _) hj, copyFrom_copyFrom]
    · have hn' : tot = n := by omega
      subst hn' ht
      exact readiLoop_run_done _ htn

/-- `readi` on a well-formed file copies out to `dst` the bytes of the file from `off`, as many
as `readCount` says, returns that count, and changes nothing else. -/
theorem readi_spec (hok : FileOk sb s.disk (s.inode ip)) (dst off n : Nat) :
    (readi sb ip dst off n).run s = .ok ((readCount (s.inode ip).size off n : Int),
      { s with mem := (copyFrom s.mem dst (fileByte s.disk (s.inode ip)) off
        (readCount (s.inode ip).size off n)) }) := by
  unfold readCount
  by_cases hg : off > (s.inode ip).size ∨ (off + n) % 2 ^ 32 < off
  · rw [if_pos hg, copyFrom_zero]
    simp only [readi, StateT.run_bind, StateT.run_get, pure_bind, run_ite, if_pos hg]
    rfl
  · -- the count is trimmed to the end of the file
    have hc : (if off + n > (s.inode ip).size then (s.inode ip).size - off else n) =
        min n ((s.inode ip).size - off) := by
      split_ifs with h
      · exact (Nat.min_eq_right (by omega)).symm
      · exact (Nat.min_eq_left (by omega)).symm
    have hloop := readiLoop_spec hok off dst (n := min n ((s.inode ip).size - off)) (by omega)
      (min n ((s.inode ip).size - off)) 0 s (Nat.zero_le _) (Nat.sub_le _ 0) (by rw [copyFrom_zero])
    rw [Nat.add_zero, Nat.add_zero] at hloop
    simp only [readi, StateT.run_bind, StateT.run_get, pure_bind, run_ite, if_neg hg, hc, hloop,
      ok_bind]
    rw [int32_of_le (Nat.le_trans (Nat.min_le_right _ _) (Nat.le_trans (Nat.sub_le _ _) hok.size_le))]
    rfl

theorem readi_spec_mkfs : (readi mkfsSb 0 0 0 100).run mkfsState = .ok ((readCount 0 0 100 : Int),
    { mkfsState with mem := copyFrom mkfsState.mem 0 (fileByte mkfsDisk emptyFile) 0 (readCount 0 0 100) }) :=
  readi_spec (FileOk.empty (fun _ => rfl) rfl) 0 0 100

/-- After a `writei` that returned `tot`, all `tot` bytes lie inside the file. -/
theorem readCount_of_writei {size off tot : Nat} (hsz : off + tot ≤ size)
    (h32 : off + tot ≤ MAXFILE * BSIZE) : readCount size off tot = tot := by
  have hlt : off + tot < 2 ^ 32 := Nat.lt_of_le_of_lt h32 (by decide)
  rw [readCount, if_neg (by rw [Nat.mod_eq_of_lt hlt]; omega)]
  exact Nat.min_eq_left (by omega)

theorem readCount_le (size off n : Nat) : readCount size off n ≤ size - off := by
  unfold readCount
  split_ifs <;> omega

/-- Growing a file by a write at `off` inside it leaves the count of a one-byte read outside the
range written as it was. -/
theorem readCount_one_outside {size k : Nat} (hoff : off ≤ size) (hk : k < off ∨ off + n ≤ k) :
    readCount (max size (off + n)) k 1 = readCount size k 1 := by
  unfold readCount
  split_ifs <;> omega

end Readi

section ReadBack

variable {sb : Superblock} {ip : Fin NINODE} {s s' : FsState} {src off n tot : Nat}

/-- After a `writei` that returned `tot`, `readi` of `tot` bytes at `off` returns them all and
copies to `dst` the bytes that were at `src`. -/
theorem WriteiPost.readi_written (hp : WriteiPost sb ip s src off n tot s')
    (hn : off + n ≤ MAXFILE * BSIZE) (dst : Nat) :
    ∃ s'' : FsState, (readi sb ip dst off tot).run s' = .ok ((tot : Int), s'') ∧
      ∀ j < tot, s''.mem (dst + j) = s.mem (src + j) := by
  have hsz : off + tot ≤ (s'.inode ip).size := by
    rw [hp.size]
    exact le_max_right _ _
  have hc := readCount_of_writei hsz (by have := hp.count; omega)
  refine ⟨_, by rw [readi_spec hp.ok, hc], fun j hj => ?_⟩
  show copyFrom s'.mem dst (fileByte s'.disk (s'.inode ip)) off tot (dst + j) = _
  rw [copyFrom_apply_add _ _ hj, hp.bytes _ (by omega), copyFrom_apply_add _ _ hj]

/-- After a `writei` of all `n` bytes, `readi` of one byte outside `[off, off + n)` returns
what it returned before and copies out the same memory. -/
theorem WriteiPost.readi_outside (hp : WriteiPost sb ip s src off n n s')
    (hok : FileOk sb s.disk (s.inode ip)) (hoff : off ≤ (s.inode ip).size) (dst : Nat) {k : Nat}
    (hk : k < off ∨ off + n ≤ k) :
    ∃ (c : Int) (m : Memory), (readi sb ip dst k 1).run s = .ok (c, { s with mem := m }) ∧
      (readi sb ip dst k 1).run s' = .ok (c, { s' with mem := m }) := by
  refine ⟨_, _, readi_spec hok dst k 1, ?_⟩
  have hc := readCount_one_outside (n := n) hoff hk
  have hle := readCount_le (s.inode ip).size k 1
  have hsame : copyFrom s.mem dst (fileByte s'.disk (s'.inode ip)) k (readCount (s.inode ip).size k 1) =
      copyFrom s.mem dst (fileByte s.disk (s.inode ip)) k (readCount (s.inode ip).size k 1) := by
    refine copyFrom_congr_src fun j hj => ?_
    have hj0 : j = 0 := by
      unfold readCount at hj
      split_ifs at hj <;> omega
    subst hj0
    rw [hp.bytes _ (by rw [hp.size]; omega), copyFrom_of_outside (by omega)]
  rw [readi_spec hp.ok, hp.size, hc, hp.mem, hsame]

end ReadBack

end Xv6
