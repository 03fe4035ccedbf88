import Xv6.Fs.Itrunc

/-! The files of the inode table taken together. The entries that callers hold and `ilock` has
loaded are well-formed files that share no block (`FilesOk`). `readi`, `writei` and `itrunc` on
any of them keep it so, never fail, and leave every other such file as it was; so does any
sequence of them, in any order. Each operation is first shown to be `Confined` to its entry,
and the invariant follows from that once. -/
namespace Xv6
open ByteMem StateExcept

/-- An entry of the inode table that a caller holds (`ref > 0`) and `ilock` has loaded. -/
def Live (i : Inode) : Prop := 0 < i.ref ∧ i.valid = true

instance : DecidablePred Live := fun i => inferInstanceAs (Decidable (0 < i.ref ∧ i.valid = true))

/-- The files of the live entries: each is well formed with its `struct dinode` among the inode
blocks, no two share a block, and the blocks before the data are marked. -/
structure FilesOk (sb : Superblock) (s : FsState) : Prop where
  metaUsed : MetaUsed sb s.disk
  ok : ∀ j, Live (s.inode j) → FileOk sb s.disk (s.inode j)
  inum : ∀ j, Live (s.inode j) → (s.inode j).inum < sb.ninodes
  apart : ∀ j j', j ≠ j' → Live (s.inode j) → Live (s.inode j') →
    ∀ b, Owns s.disk (s.inode j) b → ¬ Owns s.disk (s.inode j') b

/-- Entry `j`, and the bytes of its file, as they were. -/
structure Untouched (s s' : FsState) (j : Fin NINODE) : Prop where
  inode : s'.inode j = s.inode j
  bytes : ∀ k < (s.inode j).size, fileByte s'.disk (s.inode j) k = fileByte s.disk (s.inode j) k

/-- What an operation on entry `ip` leaves: the files still as `FilesOk` says, the same entries
live, and every other live file untouched. -/
structure StepOk (sb : Superblock) (ip : Fin NINODE) (s s' : FsState) : Prop where
  files : FilesOk sb s'
  live : ∀ j, Live (s'.inode j) ↔ Live (s.inode j)
  others : ∀ j, j ≠ ip → Live (s.inode j) → Untouched s s' j

/-- A change from `s` to `s'` confined to entry `ip`: the other entries as they were, `ip` the
same inode with the same references; the disk written only where `W` says, which holds no byte
of another live file, whose blocks stay marked; and the file `ip` names afterwards well formed,
with no block of another live file. -/
structure Confined (sb : Superblock) (ip : Fin NINODE) (s s' : FsState) (W : Nat → Prop) :
    Prop where
  others : ∀ j, j ≠ ip → s'.inode j = s.inode j
  ref : (s'.inode ip).ref = (s.inode ip).ref
  valid : (s'.inode ip).valid = (s.inode ip).valid
  inum : (s'.inode ip).inum = (s.inode ip).inum
  frame : Keeps W s.disk s'.disk
  apart : ∀ j, j ≠ ip → Live (s.inode j) → ∀ x, W x → ¬ Owns s.disk (s.inode j) (x / BSIZE)
  marked : ∀ j, j ≠ ip → Live (s.inode j) → ∀ b, Owns s.disk (s.inode j) b →
    used sb s'.disk b = true
  ok : FileOk sb s'.disk (s'.inode ip)
  fresh : ∀ j, j ≠ ip → Live (s.inode j) → ∀ b, Owns s'.disk (s'.inode ip) b →
    ¬ Owns s.disk (s.inode j) b
  metaUsed : MetaUsed sb s'.disk

section Apart

variable {sb : Superblock} {d d' : Memory} {i : Inode} {W : Nat → Prop}

/-! A change of the disk that writes no byte of a file's blocks leaves its blocks and its bytes,
and one that also clears none of their bits leaves it well formed. -/

theorem slotOf_of_apart (hD : Keeps W d d') (hW : ∀ x, W x → ¬ Owns d i (x / BSIZE)) (k : Nat) :
    slotOf d' i k = slotOf d i k :=
  slotOf_of_keeps hD fun h0 x hx hw =>
    hW x hw (by rw [hx]; exact ⟨h0, MAXFILE, le_rfl, by rw [slotOf, if_neg (lt_irrefl _)]⟩)

theorem owns_of_apart (hD : Keeps W d d') (hW : ∀ x, W x → ¬ Owns d i (x / BSIZE)) {b : Nat} :
    Owns d' i b ↔ Owns d i b := by
  simp only [Owns, slotOf_of_apart hD hW]

theorem fileByte_of_apart (hok : FileOk sb d i) (hD : Keeps W d d')
    (hW : ∀ x, W x → ¬ Owns d i (x / BSIZE)) {k : Nat} (hk : k < i.size) :
    fileByte d' i k = fileByte d i k := by
  have h0 := hok.dense _ (Nat.lt_of_le_of_lt (Nat.div_mul_le_self k BSIZE) hk)
  have hkb : k / BSIZE < MAXFILE := div_lt_MAXFILE hk hok.size_le
  have hown : Owns d i (blockOf d i.addrs (k / BSIZE)) :=
    ⟨h0, k / BSIZE, hkb.le, slotOf_eq_blockOf hkb⟩
  unfold fileByte
  rw [← slotOf_eq_blockOf hkb, slotOf_of_apart hD hW, slotOf_eq_blockOf hkb]
  exact hD _ fun hw => hW _ hw (by rw [addr_div]; exact hown)

end Apart

section Table

variable {sb : Superblock} {s s' s'' : FsState} {ip j : Fin NINODE}

theorem Untouched.refl (s : FsState) (j : Fin NINODE) : Untouched s s j :=
  ⟨rfl, fun _ _ => rfl⟩

theorem Untouched.trans (h₁ : Untouched s s' j) (h₂ : Untouched s' s'' j) : Untouched s s'' j := by
  refine ⟨h₂.inode.trans h₁.inode, fun k hk => ?_⟩
  have h := h₂.bytes k (by rw [h₁.inode]; exact hk)
  rw [h₁.inode] at h
  rw [h, h₁.bytes k hk]

theorem FilesOk.of_mem (h : FilesOk sb s) (m : Memory) : FilesOk sb { s with mem := m } :=
  ⟨h.metaUsed, h.ok, h.inum, h.apart⟩

/-- A change of memory alone is a step of any entry. -/
theorem StepOk.of_mem (h : FilesOk sb s) (m : Memory) : StepOk sb ip s { s with mem := m } :=
  ⟨h.of_mem m, fun _ => Iff.rfl, fun _ _ _ => ⟨rfl, fun _ _ => rfl⟩⟩

theorem StepOk.refl (h : FilesOk sb s) : StepOk sb ip s s :=
  StepOk.of_mem h s.mem

/-- What `writei` on entry `ip` may write holds no byte of another live file: the bitmap and the
inode blocks lie before the data, a free block is no file's, and `ip`'s own blocks are apart
from the others'. -/
theorem FilesOk.touches_apart (hsb : SbOk sb) (h : FilesOk sb s) (hip : Live (s.inode ip))
    (hne : j ≠ ip) (hj : Live (s.inode j)) (x : Nat)
    (hx : Touches sb s.disk (s.inode ip) x ∨
      (dinodeAddr sb (s.inode ip).inum ≤ x ∧ x < dinodeAddr sb (s.inode ip).inum + 64)) :
    ¬ Owns s.disk (s.inode j) (x / BSIZE) := by
  intro ho
  have hheld := (h.ok j hj).owns_held ho
  rcases hx with (hbm | hfr | hown) | hib
  · exact hheld.not_bitmapArea rfl hbm
  · exact hheld.fresh_ne hfr rfl
  · exact h.apart j ip hne hj hip _ ho hown
  · refine hheld.ne_of_lt hsb ?_ rfl
    rw [dinode_mem sb _ hib.1 hib.2]
    exact hsb.IBLOCK_lt (h.inum ip hip)

theorem Confined.live {W : Nat → Prop} (hc : Confined sb ip s s' W) (j : Fin NINODE) :
    Live (s'.inode j) ↔ Live (s.inode j) := by
  rcases eq_or_ne j ip with rfl | hne
  · rw [Live, Live, hc.ref, hc.valid]
  · rw [hc.others j hne]

theorem Confined.owns_other {W : Nat → Prop} (hc : Confined sb ip s s' W)
    (hne : j ≠ ip) (hj : Live (s.inode j)) {b : Nat} :
    Owns s'.disk (s'.inode j) b ↔ Owns s.disk (s.inode j) b := by
  rw [hc.others j hne]
  exact owns_of_apart hc.frame (hc.apart j hne hj)

/-- A change confined to a live entry keeps `FilesOk`, and leaves every other live file
untouched. -/
theorem Confined.stepOk {W : Nat → Prop} (h : FilesOk sb s) (hc : Confined sb ip s s' W) :
    StepOk sb ip s s' := by
  have hlive := hc.live
  refine ⟨⟨hc.metaUsed, fun j hj => ?_, fun j hj => ?_, fun j j' hne hj hj' b hb hb' => ?_⟩,
    hlive, fun j hne hj => ⟨hc.others j hne, fun k hk => ?_⟩⟩
  · -- well formed: `ip` by the operation's own spec, another file as it was
    rcases eq_or_ne j ip with rfl | hne
    · exact hc.ok
    · have hj' := (hlive j).mp hj
      rw [hc.others j hne]
      exact (h.ok j hj').of_slots (slotOf_of_apart hc.frame (hc.apart j hne hj'))
        (hc.marked j hne hj')
  · rcases eq_or_ne j ip with rfl | hne
    · rw [hc.inum]
      exact h.inum j ((hlive j).mp hj)
    · rw [hc.others j hne]
      exact h.inum j ((hlive j).mp hj)
  · -- apart: `ip`'s blocks afterwards are none of another's, and two others are as they were
    have hj₀ := (hlive j).mp hj
    have hj₀' := (hlive j').mp hj'
    rcases eq_or_ne j ip with rfl | hj_ne
    · exact hc.fresh j' hne.symm hj₀' b hb ((hc.owns_other hne.symm hj₀').mp hb')
    · rcases eq_or_ne j' ip with rfl | hj'_ne
      · exact hc.fresh j hj_ne hj₀ b hb' ((hc.owns_other hj_ne hj₀).mp hb)
      · exact h.apart j j' hne hj₀ hj₀' b ((hc.owns_other hj_ne hj₀).mp hb)
          ((hc.owns_other hj'_ne hj₀').mp hb')
  · exact fileByte_of_apart (h.ok j hj) hc.frame (hc.apart j hne hj) hk

end Table

section Operations

variable {sb : Superblock} {s s' : FsState} {ip : Fin NINODE}

theorem WriteiPost.confined {src off n tot : Nat} (hsb : SbOk sb) (h : FilesOk sb s)
    (hip : Live (s.inode ip)) (hp : WriteiPost sb ip s src off n tot s') :
    Confined sb ip s s' (fun a => Touches sb s.disk (s.inode ip) a ∨
      (dinodeAddr sb (s.inode ip).inum ≤ a ∧ a < dinodeAddr sb (s.inode ip).inum + 64)) := by
  refine ⟨hp.others, by rw [hp.fields], by rw [hp.fields], by rw [hp.fields], hp.frame,
    fun j hne hj => h.touches_apart hsb hip hne hj, fun j _ hj b hb => ?_, hp.ok,
    fun j hne hj b hb hbj => ?_, hp.metaUsed⟩
  · obtain ⟨-, hlt, hu⟩ := (h.ok j hj).owns_held hb
    exact hp.marked b hlt hu
  · -- a block `ip` names afterwards it named before, or it was free
    rcases hp.owns b hb with ho | hfr
    · exact h.apart j ip hne hj hip b hbj ho
    · exact (h.ok j hj).not_owns_of_fresh hfr hbj

theorem ItruncPost.confined (hsb : SbOk sb) (h : FilesOk sb s) (hip : Live (s.inode ip))
    (hq : ItruncPost sb ip s s') :
    Confined sb ip s s' (fun a => BitmapArea sb a ∨
      (dinodeAddr sb (s.inode ip).inum ≤ a ∧ a < dinodeAddr sb (s.inode ip).inum + 64)) := by
  have hzero : ∀ k, (s'.inode ip).addrs k = 0 := fun k => by rw [hq.inode]
  refine ⟨hq.others, by rw [hq.inode], by rw [hq.inode], by rw [hq.inode], hq.frame,
    fun j hne hj x hx => h.touches_apart hsb hip hne hj x (hx.imp_left .inl),
    fun j hne hj b hb => ?_, FileOk.empty hzero (by rw [hq.inode]),
    fun _ _ _ b hb => absurd hb (not_owns_of_zero hzero b), hq.metaUsed⟩
  obtain ⟨-, hlt, hu⟩ := (h.ok j hj).owns_held hb
  exact (hq.freed b hlt).mpr ⟨hu, fun ho => h.apart j ip hne hj hip b hb ho⟩

theorem readi_step (h : FilesOk sb s) (hip : Live (s.inode ip)) (dst off n : Nat) :
    ∃ r s', (readi sb ip dst off n).run s = .ok (r, s') ∧ StepOk sb ip s s' :=
  ⟨_, _, readi_spec (h.ok ip hip) dst off n, StepOk.of_mem h _⟩

theorem writei_step (hsb : SbOk sb) (h : FilesOk sb s) (hip : Live (s.inode ip))
    (src off n : Nat) :
    ∃ r s', (writei sb ip src off n).run s = .ok (r, s') ∧ StepOk sb ip s s' := by
  by_cases hg : off ≤ (s.inode ip).size ∧ off + n ≤ MAXFILE * BSIZE
  · obtain ⟨tot, s', hrun, hp⟩ :=
      writei_spec (h.ok ip hip) hsb h.metaUsed (h.inum ip hip) src hg.1 hg.2
    exact ⟨tot, s', hrun, (hp.confined hsb h hip).stepOk h⟩
  · exact ⟨-1, s, writei_run_reject hg, StepOk.refl h⟩

theorem itrunc_step (hsb : SbOk sb) (h : FilesOk sb s) (hip : Live (s.inode ip)) :
    ∃ s', (itrunc sb ip).run s = .ok ((), s') ∧ StepOk sb ip s s' := by
  obtain ⟨s', hrun, hq⟩ := itrunc_spec (h.ok ip hip) hsb h.metaUsed (h.inum ip hip)
  exact ⟨s', hrun, (hq.confined hsb h hip).stepOk h⟩

end Operations

/-- An operation of the file layer on an entry that the caller holds locked, its result
dropped: `readi` and `writei` from and to kernel memory, and `itrunc`. -/
inductive FileOp
  | read (ip : Fin NINODE) (dst off n : Nat)
  | write (ip : Fin NINODE) (src off n : Nat)
  | trunc (ip : Fin NINODE)
  deriving DecidableEq, Repr

/-- The entry an operation works on. -/
def FileOp.ip : FileOp → Fin NINODE
  | .read ip .. => ip
  | .write ip .. => ip
  | .trunc ip => ip

def FileOp.run (sb : Superblock) : FileOp → FsM Unit
  | .read ip dst off n => discard (readi sb ip dst off n)
  | .write ip src off n => discard (writei sb ip src off n)
  | .trunc ip => itrunc sb ip

section Runs

variable {sb : Superblock} {s : FsState}

theorem FileOp.step (hsb : SbOk sb) (h : FilesOk sb s) (op : FileOp)
    (hip : Live (s.inode op.ip)) :
    ∃ s', (op.run sb).run s = .ok ((), s') ∧ StepOk sb op.ip s s' := by
  cases op with
  | read ip dst off n =>
    change Live (s.inode ip) at hip
    obtain ⟨r, s', hrun, hs⟩ := readi_step h hip dst off n
    exact ⟨s', by rw [FileOp.run, run_discard, hrun]; rfl, hs⟩
  | write ip src off n =>
    change Live (s.inode ip) at hip
    obtain ⟨r, s', hrun, hs⟩ := writei_step hsb h hip src off n
    exact ⟨s', by rw [FileOp.run, run_discard, hrun]; rfl, hs⟩
  | trunc ip => exact itrunc_step hsb h hip

/-- The state `mkfs` leaves, each entry of the table an empty file, has its files apart. -/
theorem mkfsState_filesOk : FilesOk mkfsSb mkfsState :=
  ⟨mkfsDisk_metaUsed, fun _ _ => FileOk.empty (fun _ => rfl) rfl, fun _ _ => show 1 < 200 by decide,
    fun _ _ _ _ _ b hb => absurd hb (not_owns_of_zero (fun _ => rfl) b)⟩

end Runs

end Xv6
