import Xv6.Fs.Files
import Xv6.Fs.Dinode
/-! The inode layer as a whole: the inodes in use on the disk and the inode table over them.
On the disk, every inode in use is a well-formed file and no two share a block (`DiskOk`). In
the table, two entries with references hold different inodes, and an entry that is loaded is
what its `struct dinode` reads (`TableOk`). `iget`, `idup`, `ilock`, `iunlock`, `iput`,
`ialloc`, `readi`, `writei` and `itrunc`, each called as the kernel calls it, keep both, so they
hold in every state the inode layer reaches from a disk `mkfs` made. -/
namespace Xv6
open ByteMem StateExcept

/-- Inode `inum` as its `struct dinode` reads. -/
def diskInode (sb : Superblock) (d : Memory) (inum : Nat) : Inode :=
  readDinode d (dinodeAddr sb inum) ⟨ROOTDEV, inum, 0, false, 0, 0, 0, 0, 0, fun _ => 0⟩

/-- Inode `inum` is in use: a number `ialloc` hands out, whose `struct dinode` has a type. -/
def InUse (sb : Superblock) (d : Memory) (inum : Nat) : Prop :=
  0 < inum ∧ inum < sb.ninodes ∧ (diskInode sb d inum).type ≠ 0

/-- An entry that is what its `struct dinode` reads. -/
def Coherent (sb : Superblock) (d : Memory) (i : Inode) : Prop :=
  readDinode d (dinodeAddr sb i.inum) i = i

/-- The inodes in use are well-formed files that share no block, and the blocks before the data
are marked. -/
structure DiskOk (sb : Superblock) (d : Memory) : Prop where
  metaUsed : MetaUsed sb d
  files : ∀ inum, InUse sb d inum → FileOk sb d (diskInode sb d inum)
  apart : ∀ inum inum', inum ≠ inum' → InUse sb d inum → InUse sb d inum' →
    ∀ b, Owns d (diskInode sb d inum) b → ¬ Owns d (diskInode sb d inum') b

/-- The inode table over the disk: no count below zero; an entry with references holds an inode
of `ROOTDEV` that `ialloc` could hand out, and no other such entry holds the same one; and an
entry that is loaded has a type and is what its `struct dinode` reads. -/
structure TableOk (sb : Superblock) (s : FsState) : Prop where
  ref : ∀ j, 0 ≤ (s.inode j).ref
  held : ∀ j, 0 < (s.inode j).ref →
    (s.inode j).dev = ROOTDEV ∧ 0 < (s.inode j).inum ∧ (s.inode j).inum < sb.ninodes
  unique : ∀ j j', j ≠ j' → 0 < (s.inode j).ref → 0 < (s.inode j').ref →
    (s.inode j).inum ≠ (s.inode j').inum
  loaded : ∀ j, Live (s.inode j) → (s.inode j).type ≠ 0 ∧ Coherent sb s.disk (s.inode j)

/-- The invariant of the inode layer. -/
structure FsOk (sb : Superblock) (s : FsState) : Prop where
  disk : DiskOk sb s.disk
  table : TableOk sb s

section Blocks

variable {sb : Superblock} {d : Memory} {i i' : Inode}

theorem slotOf_congr_addrs (h : i.addrs = i'.addrs) (k : Nat) : slotOf d i k = slotOf d i' k := by
  unfold slotOf
  rw [h]

theorem owns_congr_addrs (h : i.addrs = i'.addrs) {b : Nat} : Owns d i b ↔ Owns d i' b := by
  simp only [Owns, slotOf_congr_addrs h]

/-- Well-formedness reads only a file's size and blocks. -/
theorem FileOk.congr_blocks (hok : FileOk sb d i) (h : i.addrs = i'.addrs) (hs : i.size = i'.size) :
    FileOk sb d i' := by
  refine ⟨fun k hk hne => ?_, fun k hk k' hk' hne heq => ?_, fun bn hbn => ?_, hs ▸ hok.size_le⟩
  · rw [← slotOf_congr_addrs h] at hne ⊢
    exact hok.held k hk hne
  · rw [← slotOf_congr_addrs h, ← slotOf_congr_addrs h] at heq
    rw [← slotOf_congr_addrs h] at hne
    exact hok.inj k hk k' hk' hne heq
  · rw [← h]
    exact hok.dense bn (hs ▸ hbn)

/-- The blocks a well-formed file names fit a `uint`. -/
theorem FileOk.addrs_lt (hok : FileOk sb d i) (hsb : SbOk sb) (k : Fin (NDIRECT + 1)) :
    i.addrs k < 2 ^ 32 := by
  by_cases h0 : i.addrs k = 0
  · rw [h0]
    exact Nat.two_pow_pos 32
  have hslot : slotOf d i (if k = INDIRECT then MAXFILE else k) = i.addrs k := by
    split_ifs with hk
    · rw [hk, slotOf, if_neg (lt_irrefl _)]
    · have hk' : (k : Nat) < NDIRECT := by
        have := Fin.val_lt_last hk
        exact this
      rw [slotOf, if_pos (by unfold MAXFILE; omega), blockOf, dif_pos hk']
      rfl
  have hle : (if k = INDIRECT then MAXFILE else (k : Nat)) ≤ MAXFILE := by
    have := k.isLt
    split_ifs <;> unfold MAXFILE NINDIRECT NDIRECT BSIZE at * <;> omega
  have hheld := hok.held _ hle (by rw [hslot]; exact h0)
  rw [hslot] at hheld
  exact hheld.2.1.trans hsb.size_lt

end Blocks

section Coherence

variable {sb : Superblock} {d d' : Memory} {i : Inode}

theorem Coherent.fits (h : Coherent sb d i) : i.Fits := by
  rw [← h]
  exact readDinode_fits _ _ _

/-- A coherent entry names the blocks of its inode on the disk. -/
theorem Coherent.addrs (h : Coherent sb d i) : i.addrs = (diskInode sb d i.inum).addrs := by
  rw [← h]
  rfl

theorem Coherent.size (h : Coherent sb d i) : i.size = (diskInode sb d i.inum).size := by
  rw [← h]
  rfl

theorem Coherent.type (h : Coherent sb d i) : i.type = (diskInode sb d i.inum).type := by
  rw [← h]
  rfl

/-- Coherence is about the fields the `struct dinode` holds: a change of the others keeps it. -/
theorem Coherent.of_fields (h : Coherent sb d i) {i' : Inode} (hinum : i'.inum = i.inum)
    (htype : i'.type = i.type) (hmajor : i'.major = i.major) (hminor : i'.minor = i.minor)
    (hnlink : i'.nlink = i.nlink) (hsize : i'.size = i.size) (haddrs : i'.addrs = i.addrs) :
    Coherent sb d i' := by
  have e : readDinode d (dinodeAddr sb i.inum) i' =
      { i' with
        type := (readDinode d (dinodeAddr sb i.inum) i).type
        major := (readDinode d (dinodeAddr sb i.inum) i).major
        minor := (readDinode d (dinodeAddr sb i.inum) i).minor
        nlink := (readDinode d (dinodeAddr sb i.inum) i).nlink
        size := (readDinode d (dinodeAddr sb i.inum) i).size
        addrs := (readDinode d (dinodeAddr sb i.inum) i).addrs } := rfl
  unfold Coherent
  rw [hinum, e, h, ← htype, ← hmajor, ← hminor, ← hnlink, ← hsize, ← haddrs]

theorem Coherent.of_keeps {W : Nat → Prop} (h : Coherent sb d i) (hD : Keeps W d d')
    (hW : ∀ x, W x → x < dinodeAddr sb i.inum ∨ dinodeAddr sb i.inum + 64 ≤ x) :
    Coherent sb d' i := by
  unfold Coherent
  rw [readDinode_of_keeps hD hW]
  exact h

theorem diskInode_of_keeps {W : Nat → Prop} (hD : Keeps W d d') {inum : Nat}
    (hW : ∀ x, W x → x < dinodeAddr sb inum ∨ dinodeAddr sb inum + 64 ≤ x) :
    diskInode sb d' inum = diskInode sb d inum :=
  readDinode_of_keeps hD hW _

/-- A loaded entry's file is the file of its inode on the disk. -/
theorem Coherent.fileOk (h : Coherent sb d i) (hd : DiskOk sb d) (hu : InUse sb d i.inum) :
    FileOk sb d i :=
  (hd.files _ hu).congr_blocks h.addrs.symm h.size.symm

end Coherence

section Areas

variable {sb : Superblock} {d : Memory} {i : Inode}

/-- The `struct dinode`s of the inodes lie before the bitmap. -/
theorem SbOk.dinode_le (hsb : SbOk sb) {inum : Nat} (hi : inum < sb.ninodes) :
    dinodeAddr sb inum + 64 ≤ sb.bmapstart * BSIZE := by
  have hlt := hsb.IBLOCK_lt hi
  have hr : inum % IPB * 64 + 64 ≤ BSIZE := by
    have := Nat.mod_lt inum (show 0 < IPB by decide)
    unfold IPB BSIZE at *
    omega
  have hmul : (IBLOCK inum sb + 1) * BSIZE ≤ sb.bmapstart * BSIZE := Nat.mul_le_mul_right _ hlt
  unfold dinodeAddr
  rw [Nat.add_mul, Nat.one_mul] at hmul
  omega

/-- What a change of a well-formed file may write lies from the bitmap on. -/
theorem Touches.bmapstart_le (hsb : SbOk sb) (hok : FileOk sb d i) {x : Nat}
    (hx : Touches sb d i x) : sb.bmapstart * BSIZE ≤ x := by
  have hdata : ∀ b, dataStart sb ≤ b → x / BSIZE = b → sb.bmapstart * BSIZE ≤ x := fun b hb hxb => by
    have := hsb.bmapstart_lt
    have : sb.bmapstart ≤ x / BSIZE := by omega
    exact (Nat.le_div_iff_mul_le BSIZE_pos).mp this
  rcases hx with hbm | hfr | hown
  · exact hbm.1
  · exact hdata _ hfr.1 rfl
  · exact hdata _ (hok.owns_held hown).1 rfl

/-- A byte of an inode's `struct dinode` is in no data block. -/
theorem Held.not_dinode (hsb : SbOk sb) {b x inum : Nat} (hb : Held sb d b) (hi : inum < sb.ninodes)
    (hx : dinodeAddr sb inum ≤ x ∧ x < dinodeAddr sb inum + 64) : x / BSIZE ≠ b := by
  refine hb.ne_of_lt hsb ?_
  rw [dinode_mem sb _ hx.1 hx.2]
  exact hsb.IBLOCK_lt hi

end Areas

/-- A change of the disk from `d` to `d'` confined to inode `inum₀`: the disk written only where
`W` says, which holds no byte of another inode in use and no other `struct dinode`; the blocks
of the other inodes in use still marked; and inode `inum₀`, if in use afterwards, a well-formed
file with no block of another. -/
structure DiskConfined (sb : Superblock) (d d' : Memory) (inum₀ : Nat) (W : Nat → Prop) :
    Prop where
  frame : Keeps W d d'
  blocks : ∀ inum, inum ≠ inum₀ → InUse sb d inum → ∀ x, W x →
    ¬ Owns d (diskInode sb d inum) (x / BSIZE)
  dinodes : ∀ inum, inum ≠ inum₀ → inum < sb.ninodes → ∀ x, W x →
    x < dinodeAddr sb inum ∨ dinodeAddr sb inum + 64 ≤ x
  marked : ∀ inum, inum ≠ inum₀ → InUse sb d inum → ∀ b, Owns d (diskInode sb d inum) b →
    used sb d' b = true
  self : InUse sb d' inum₀ → FileOk sb d' (diskInode sb d' inum₀)
  fresh : InUse sb d' inum₀ → ∀ inum, inum ≠ inum₀ → InUse sb d inum → ∀ b,
    Owns d' (diskInode sb d' inum₀) b → ¬ Owns d (diskInode sb d inum) b
  metaUsed : MetaUsed sb d'

section Confined

variable {sb : Superblock} {d d' : Memory} {inum₀ inum : Nat} {W : Nat → Prop}

theorem DiskConfined.diskInode_eq (hc : DiskConfined sb d d' inum₀ W) (hne : inum ≠ inum₀)
    (hlt : inum < sb.ninodes) : diskInode sb d' inum = diskInode sb d inum :=
  diskInode_of_keeps hc.frame (hc.dinodes inum hne hlt)

theorem DiskConfined.inUse_iff (hc : DiskConfined sb d d' inum₀ W) (hne : inum ≠ inum₀) :
    InUse sb d' inum ↔ InUse sb d inum := by
  constructor
  · rintro ⟨h0, hlt, ht⟩
    exact ⟨h0, hlt, by rwa [hc.diskInode_eq hne hlt] at ht⟩
  · rintro ⟨h0, hlt, ht⟩
    exact ⟨h0, hlt, by rwa [hc.diskInode_eq hne hlt]⟩

theorem DiskConfined.owns_other (hc : DiskConfined sb d d' inum₀ W) (hne : inum ≠ inum₀)
    (hu : InUse sb d inum) {b : Nat} :
    Owns d' (diskInode sb d' inum) b ↔ Owns d (diskInode sb d inum) b := by
  rw [hc.diskInode_eq hne hu.2.1]
  exact owns_of_apart hc.frame (hc.blocks inum hne hu)

/-- A change confined to one inode keeps `DiskOk`. -/
theorem DiskConfined.diskOk (hd : DiskOk sb d) (hc : DiskConfined sb d d' inum₀ W) :
    DiskOk sb d' := by
  refine ⟨hc.metaUsed, fun inum hu => ?_, fun inum inum' hne hu hu' b hb hb' => ?_⟩
  · -- well formed: `inum₀` by the change's own account, another inode as it was
    rcases eq_or_ne inum inum₀ with rfl | hne
    · exact hc.self hu
    · have hu₀ := (hc.inUse_iff hne).mp hu
      rw [hc.diskInode_eq hne hu₀.2.1]
      exact (hd.files inum hu₀).of_slots (slotOf_of_apart hc.frame (hc.blocks inum hne hu₀))
        (hc.marked inum hne hu₀)
  · -- apart: `inum₀`'s blocks afterwards are none of another's, and two others are as they were
    rcases eq_or_ne inum inum₀ with rfl | hne₁
    · have hu₀' := (hc.inUse_iff hne.symm).mp hu'
      exact hc.fresh hu inum' hne.symm hu₀' b hb ((hc.owns_other hne.symm hu₀').mp hb')
    · have hu₀ := (hc.inUse_iff hne₁).mp hu
      rcases eq_or_ne inum' inum₀ with rfl | hne₂
      · exact hc.fresh hu' inum hne₁ hu₀ b hb' ((hc.owns_other hne₁ hu₀).mp hb)
      · have hu₀' := (hc.inUse_iff hne₂).mp hu'
        exact hd.apart inum inum' hne hu₀ hu₀' b ((hc.owns_other hne₁ hu₀).mp hb)
          ((hc.owns_other hne₂ hu₀').mp hb')

end Confined

section Table

variable {sb : Superblock} {s s' : FsState} {ip : Fin NINODE}

/-- The table after a step on entry `ip` that changes no other entry, keeps `ip`'s inode while
it has references, and leaves it coherent if it stays loaded; the other loaded entries must
stay coherent with the disk. -/
theorem TableOk.step (h : TableOk sb s) (hothers : ∀ j, j ≠ ip → s'.inode j = s.inode j)
    (href : 0 ≤ (s'.inode ip).ref)
    (hheld : 0 < (s'.inode ip).ref → 0 < (s.inode ip).ref ∧
      (s'.inode ip).dev = (s.inode ip).dev ∧ (s'.inode ip).inum = (s.inode ip).inum)
    (hloaded : Live (s'.inode ip) → (s'.inode ip).type ≠ 0 ∧ Coherent sb s'.disk (s'.inode ip))
    (hcoh : ∀ j, j ≠ ip → Live (s.inode j) → Coherent sb s'.disk (s.inode j)) :
    TableOk sb s' := by
  refine ⟨fun j => ?_, fun j hj => ?_, fun j j' hne hj hj' => ?_, fun j hj => ?_⟩
  · rcases eq_or_ne j ip with rfl | hne
    · exact href
    · rw [hothers j hne]
      exact h.ref j
  · rcases eq_or_ne j ip with rfl | hne
    · obtain ⟨h0, hdev, hinum⟩ := hheld hj
      rw [hdev, hinum]
      exact h.held j h0
    · rw [hothers j hne] at hj ⊢
      exact h.held j hj
  · -- `ip` keeps its inode, so it is still held by no other entry
    rcases eq_or_ne j ip with rfl | hne₁
    · obtain ⟨h0, -, hinum⟩ := hheld hj
      rw [hinum, hothers j' hne.symm]
      rw [hothers j' hne.symm] at hj'
      exact h.unique j j' hne h0 hj'
    · rcases eq_or_ne j' ip with rfl | hne₂
      · obtain ⟨h0, -, hinum⟩ := hheld hj'
        rw [hinum, hothers j hne₁]
        rw [hothers j hne₁] at hj
        exact h.unique j j' hne hj h0
      · rw [hothers j hne₁] at hj ⊢
        rw [hothers j' hne₂] at hj' ⊢
        exact h.unique j j' hne hj hj'
  · rcases eq_or_ne j ip with rfl | hne
    · exact hloaded hj
    · rw [hothers j hne] at hj ⊢
      exact ⟨(h.loaded j hj).1, hcoh j hne hj⟩

/-- The loaded entries other than a held `ip` hold other inodes, whose `struct dinode`s a change
confined to `ip`'s inode leaves. -/
theorem TableOk.coherent_other {W : Nat → Prop} (h : TableOk sb s) (hip : 0 < (s.inode ip).ref)
    (hc : DiskConfined sb s.disk s'.disk (s.inode ip).inum W) {j : Fin NINODE} (hne : j ≠ ip)
    (hj : Live (s.inode j)) : Coherent sb s'.disk (s.inode j) :=
  (h.loaded j hj).2.of_keeps hc.frame
    (hc.dinodes _ (h.unique j ip hne hj.1 hip) (h.held j hj.1).2.2)

/-- A loaded entry holds an inode in use. -/
theorem TableOk.inUse (h : TableOk sb s) {j : Fin NINODE} (hj : Live (s.inode j)) :
    InUse sb s.disk (s.inode j).inum := by
  obtain ⟨ht, hcoh⟩ := h.loaded j hj
  obtain ⟨-, h0, hlt⟩ := h.held j hj.1
  exact ⟨h0, hlt, by rw [← hcoh.type]; exact ht⟩

theorem FsOk.fileOk (h : FsOk sb s) {j : Fin NINODE} (hj : Live (s.inode j)) :
    FileOk sb s.disk (s.inode j) :=
  (h.table.loaded j hj).2.fileOk h.disk (h.table.inUse hj)

end Table

/-- The invariant after a step on a held entry `ip` whose change of the disk is confined to
`ip`'s inode. -/
theorem FsOk.of_confined {sb : Superblock} {s s' : FsState} {ip : Fin NINODE} {W : Nat → Prop}
    (h : FsOk sb s) (hip : 0 < (s.inode ip).ref)
    (hc : DiskConfined sb s.disk s'.disk (s.inode ip).inum W)
    (hothers : ∀ j, j ≠ ip → s'.inode j = s.inode j) (href : 0 ≤ (s'.inode ip).ref)
    (hheld : 0 < (s'.inode ip).ref → 0 < (s.inode ip).ref ∧
      (s'.inode ip).dev = (s.inode ip).dev ∧ (s'.inode ip).inum = (s.inode ip).inum)
    (hloaded : Live (s'.inode ip) → (s'.inode ip).type ≠ 0 ∧ Coherent sb s'.disk (s'.inode ip)) :
    FsOk sb s' :=
  ⟨hc.diskOk h.disk, h.table.step hothers href hheld hloaded fun _ hne hj =>
    h.table.coherent_other hip hc hne hj⟩

/-! ### The table operations -/

section TableOps

variable {sb : Superblock} {s s' : FsState} {dev inum : Nat} {ip : Fin NINODE}

theorem FsOk.of_mem (h : FsOk sb s) (m : Memory) : FsOk sb { s with mem := m } :=
  ⟨h.disk, ⟨h.table.ref, h.table.held, h.table.unique, h.table.loaded⟩⟩

/-- One more reference to a held entry, as `idup` and `iget` of a cached inode take. -/
theorem FsOk.addRef (h : FsOk sb s) (hip : 0 < (s.inode ip).ref) :
    FsOk sb (s.setInode ip fun i => { i with ref := i.ref + 1 }) := by
  refine ⟨h.disk, h.table.step (fun j hj => FsState.setInode_of_ne _ _ hj) ?_ ?_ ?_
    fun j _ hj => (h.table.loaded j hj).2⟩
  · rw [FsState.setInode_self]
    exact Int.add_nonneg (h.table.ref ip) Int.one_nonneg
  · intro _
    rw [FsState.setInode_self]
    exact ⟨hip, rfl, rfl⟩
  · intro hl
    rw [FsState.setInode_self] at hl ⊢
    obtain ⟨ht, hc⟩ := h.table.loaded ip ⟨hip, hl.2⟩
    exact ⟨ht, hc.of_fields rfl rfl rfl rfl rfl rfl rfl⟩

/-- An entry without references recycled for an inode that no held entry holds, as `iget` of an
inode not in the table does. -/
theorem FsOk.recycle (h : FsOk sb s) (hinum : 0 < inum ∧ inum < sb.ninodes)
    (hnone : ∀ j, ¬ (0 < (s.inode j).ref ∧ (s.inode j).dev = ROOTDEV ∧ (s.inode j).inum = inum)) :
    FsOk sb (s.setInode ip fun i => { i with dev := ROOTDEV, inum := inum, ref := 1, valid := false }) := by
  have hother : ∀ j, 0 < (s.inode j).ref → (s.inode j).inum ≠ inum := fun j hj heq =>
    hnone j ⟨hj, (h.table.held j hj).1, heq⟩
  refine ⟨h.disk, ⟨fun j => ?_, fun j hj => ?_, fun j j' hne hj hj' => ?_, fun j hj => ?_⟩⟩
  · rcases eq_or_ne j ip with rfl | hne
    · rw [FsState.setInode_self]
      exact Int.one_nonneg
    · rw [FsState.setInode_of_ne _ _ hne]
      exact h.table.ref j
  · rcases eq_or_ne j ip with rfl | hne
    · rw [FsState.setInode_self]
      exact ⟨rfl, hinum⟩
    · rw [FsState.setInode_of_ne _ _ hne] at hj ⊢
      exact h.table.held j hj
  · -- the recycled entry holds `inum`, which no other held entry holds
    rcases eq_or_ne j ip with rfl | hne₁
    · rw [FsState.setInode_of_ne _ _ hne.symm] at hj' ⊢
      rw [FsState.setInode_self]
      exact (hother j' hj').symm
    · rw [FsState.setInode_of_ne _ _ hne₁] at hj ⊢
      rcases eq_or_ne j' ip with rfl | hne₂
      · rw [FsState.setInode_self]
        exact hother j hj
      · rw [FsState.setInode_of_ne _ _ hne₂] at hj' ⊢
        exact h.table.unique j j' hne hj hj'
  · -- the recycled entry is not loaded
    rcases eq_or_ne j ip with rfl | hne
    · rw [FsState.setInode_self] at hj
      exact absurd hj.2 Bool.false_ne_true
    · rw [FsState.setInode_of_ne _ _ hne] at hj ⊢
      exact h.table.loaded j hj

/-- What a call of `iget` that returns did: one more reference to the entry that held the
inode, or an entry without references recycled for it when none held it. -/
theorem iget_run_eq_ok (h : (iget dev inum).run s = .ok (ip, s')) :
    (0 < (s.inode ip).ref ∧ (s.inode ip).dev = dev ∧ (s.inode ip).inum = inum ∧
      s' = s.setInode ip fun i => { i with ref := i.ref + 1 }) ∨
    ((∀ j, ¬ (0 < (s.inode j).ref ∧ (s.inode j).dev = dev ∧ (s.inode j).inum = inum)) ∧
      (s.inode ip).ref = 0 ∧
      s' = s.setInode ip fun i => { i with dev := dev, inum := inum, ref := 1, valid := false }) := by
  simp only [iget, StateT.run_bind, StateT.run_get, pure_bind] at h
  split at h
  · -- the inode is in the table
    rename_i ip' hfind
    simp only [StateT.run_bind, StateT.run_modify, StateT.run_pure] at h
    obtain ⟨rfl, rfl⟩ := h
    have := List.find?_some hfind
    simp only [decide_eq_true_eq] at this
    exact .inl ⟨this.1, this.2.1, this.2.2, rfl⟩
  · rename_i hnone
    split at h
    · -- a free entry is recycled
      rename_i ip' hfind
      simp only [StateT.run_bind, StateT.run_modify, StateT.run_pure] at h
      obtain ⟨rfl, rfl⟩ := h
      have := List.find?_some hfind
      simp only [decide_eq_true_eq] at this
      refine .inr ⟨fun j hj => ?_, this, rfl⟩
      have := List.find?_eq_none.mp hnone j (List.mem_finRange j)
      simp only [decide_eq_true_eq] at this
      exact this hj
    · -- `panic("iget: no inodes")`
      cases h

theorem iget_fsOk (h : FsOk sb s) (hinum : 0 < inum ∧ inum < sb.ninodes)
    (hrun : (iget ROOTDEV inum).run s = .ok (ip, s')) : FsOk sb s' := by
  rcases iget_run_eq_ok hrun with ⟨hip, -, -, rfl⟩ | ⟨hnone, -, rfl⟩
  · exact h.addRef hip
  · exact h.recycle hinum hnone

theorem idup_run (s : FsState) (ip : Fin NINODE) :
    (idup ip).run s = .ok (ip, s.setInode ip fun i => { i with ref := i.ref + 1 }) :=
  rfl

/-- What a call of `ilock` that returns did: nothing to a loaded entry, and else the load of
an inode in use. -/
theorem ilock_run_eq_ok (h : (ilock sb ip).run s = .ok ((), s')) :
    (s.inode ip).valid = true ∧ s' = s ∨
    (readDinode s.disk (dinodeAddr sb (s.inode ip).inum) (s.inode ip)).type ≠ 0 ∧
      s' = s.setInode ip fun i => { readDinode s.disk (dinodeAddr sb i.inum) i with valid := true } := by
  by_cases hr : (s.inode ip).ref < 1
  · -- `panic("ilock")`
    simp only [ilock, StateT.run_bind, StateT.run_get, pure_bind, run_ite, if_pos hr] at h
    cases h
  · cases hv : (s.inode ip).valid
    · rw [ilock_run_load (by omega) hv] at h
      split at h
      · cases h
      · rename_i ht
        cases h
        exact .inr ⟨ht, rfl⟩
    · rw [ilock_run_valid (by omega) hv] at h
      cases h
      exact .inl ⟨rfl, rfl⟩

theorem ilock_fsOk (h : FsOk sb s) (hrun : (ilock sb ip).run s = .ok ((), s')) : FsOk sb s' := by
  rcases ilock_run_eq_ok hrun with ⟨-, rfl⟩ | ⟨ht, rfl⟩
  · exact h
  refine ⟨h.disk, h.table.step (fun j hj => FsState.setInode_of_ne _ _ hj) ?_ ?_ ?_
    fun j _ hj => (h.table.loaded j hj).2⟩
  · rw [FsState.setInode_self]
    exact h.table.ref ip
  · intro hr
    rw [FsState.setInode_self] at hr ⊢
    exact ⟨hr, rfl, rfl⟩
  · intro _
    rw [FsState.setInode_self]
    exact ⟨ht, rfl⟩

theorem iunlock_run_eq_ok (h : (iunlock ip).run s = .ok ((), s')) : s' = s := by
  by_cases hr : (s.inode ip).ref < 1
  · simp only [iunlock, StateT.run_bind, StateT.run_get, pure_bind, run_ite, if_pos hr] at h
    cases h
  · simp only [iunlock, StateT.run_bind, StateT.run_get, pure_bind, run_ite, if_neg hr] at h
    cases h
    rfl

end TableOps

/-! ### The file operations -/

section FileOps

variable {sb : Superblock} {s s' : FsState} {ip : Fin NINODE} {d' : Memory}

/-- Inode `inum` as the `struct dinode` `iupdate` wrote for `i` reads. -/
theorem diskInode_writeDinode (D : Memory) {i : Inode} (hfit : i.Fits) {inum : Nat} :
    diskInode sb (writeDinode D (dinodeAddr sb inum) i) inum =
      { dev := ROOTDEV, inum := inum, ref := 0, valid := false, type := i.type, major := i.major,
        minor := i.minor, nlink := i.nlink, size := i.size, addrs := i.addrs } :=
  readDinode_writeDinode D _ hfit _

/-- A change of the disk by an operation on a loaded entry `ip`: written only in the bitmap, in
free blocks, in `ip`'s blocks and `struct dinode`, with every other marked block still marked,
is confined to `ip`'s inode, once `ip`'s inode afterwards is well formed and names only blocks it
had or that were free. -/
theorem FsOk.diskConfined (h : FsOk sb s) (hsb : SbOk sb) (hip : Live (s.inode ip))
    {W : Nat → Prop}
    (hW : ∀ x, W x → Touches sb s.disk (s.inode ip) x ∨
      (dinodeAddr sb (s.inode ip).inum ≤ x ∧ x < dinodeAddr sb (s.inode ip).inum + 64))
    (hD : Keeps W s.disk d')
    (hmarked : ∀ b, Held sb s.disk b → ¬ Owns s.disk (s.inode ip) b → used sb d' b = true)
    (hself : InUse sb d' (s.inode ip).inum → FileOk sb d' (diskInode sb d' (s.inode ip).inum))
    (hfresh : ∀ b, Owns d' (diskInode sb d' (s.inode ip).inum) b →
      Owns s.disk (s.inode ip) b ∨ Fresh sb s.disk b)
    (hm : MetaUsed sb d') : DiskConfined sb s.disk d' (s.inode ip).inum W := by
  have hok := h.fileOk hip
  have hu₀ := h.table.inUse hip
  have hcoh := (h.table.loaded ip hip).2
  have hnot : ∀ inum, inum ≠ (s.inode ip).inum → InUse sb s.disk inum → ∀ b,
      Owns s.disk (diskInode sb s.disk inum) b → ¬ Owns s.disk (s.inode ip) b :=
    fun inum hne hu b hb ho =>
      h.disk.apart _ inum hne.symm hu₀ hu b ((owns_congr_addrs hcoh.addrs).mp ho) hb
  refine ⟨hD, fun inum hne hu x hx ho => ?_, fun inum hne hlt x hx => ?_,
    fun inum hne hu b hb => hmarked b ((h.disk.files inum hu).owns_held hb) (hnot inum hne hu b hb),
    hself, fun _ inum hne hu b hb hb' => ?_, hm⟩
  · have hheld := (h.disk.files inum hu).owns_held ho
    rcases hW x hx with (hbm | hfr | hown) | hdi
    · exact hheld.not_bitmapArea rfl hbm
    · exact hheld.fresh_ne hfr rfl
    · exact hnot inum hne hu _ ho hown
    · exact hheld.not_dinode hsb hu₀.2.1 hdi rfl
  · rcases hW x hx with ht | hdi
    · exact .inr ((hsb.dinode_le hlt).trans (ht.bmapstart_le hsb hok))
    · have := dinodeAddr_disjoint sb hne
      omega
  · rcases hfresh b hb with ho | hfr
    · exact hnot inum hne hu b hb' ho
    · exact ((h.disk.files inum hu).owns_held hb').fresh_ne hfr rfl

theorem readi_fsOk (h : FsOk sb s) (hip : Live (s.inode ip)) (dst off n : Nat) :
    ∃ r s', (readi sb ip dst off n).run s = .ok (r, s') ∧ FsOk sb s' :=
  ⟨_, _, readi_spec (h.fileOk hip) dst off n, h.of_mem _⟩

theorem writei_fsOk (h : FsOk sb s) (hsb : SbOk sb) (hip : Live (s.inode ip)) (src off n : Nat) :
    ∃ r s', (writei sb ip src off n).run s = .ok (r, s') ∧ FsOk sb s' := by
  by_cases hg : off ≤ (s.inode ip).size ∧ off + n ≤ MAXFILE * BSIZE
  swap
  · exact ⟨-1, s, writei_run_reject hg, h⟩
  obtain ⟨tot, s', hrun, p⟩ :=
    writei_spec (h.fileOk hip) hsb h.disk.metaUsed (h.table.inUse hip).2.1 src hg.1 hg.2
  refine ⟨tot, s', hrun, ?_⟩
  have hcoh := (h.table.loaded ip hip).2
  have hinum : (s'.inode ip).inum = (s.inode ip).inum := by rw [p.fields]
  have hfit : (s'.inode ip).Fits := by
    have hf := hcoh.fits
    rw [p.fields]
    exact ⟨hf.type, hf.major, hf.minor, hf.nlink,
      Nat.lt_of_le_of_lt p.ok.size_le (by decide), p.ok.addrs_lt hsb⟩
  obtain ⟨D, hD⟩ := p.stored
  have hdisk : diskInode sb s'.disk (s.inode ip).inum =
      { dev := ROOTDEV, inum := (s.inode ip).inum, ref := 0, valid := false,
        type := (s'.inode ip).type, major := (s'.inode ip).major, minor := (s'.inode ip).minor,
        nlink := (s'.inode ip).nlink, size := (s'.inode ip).size, addrs := (s'.inode ip).addrs } := by
    rw [hD]
    exact diskInode_writeDinode D hfit
  have hc : DiskConfined sb s.disk s'.disk (s.inode ip).inum _ :=
    h.diskConfined hsb hip (fun _ hx => hx) p.frame
      (fun b hb _ => p.marked b hb.2.1 hb.2.2)
      (fun _ => by rw [hdisk]; exact p.ok.congr_blocks rfl rfl)
      (fun b hb => p.owns b (by rw [hdisk] at hb; exact hb)) p.metaUsed
  refine h.of_confined hip.1 hc p.others ?_ ?_ ?_
  · rw [p.fields]
    exact h.table.ref ip
  · intro _
    rw [p.fields]
    exact ⟨hip.1, rfl, rfl⟩
  · intro _
    refine ⟨by rw [p.fields]; exact (h.table.loaded ip hip).1, ?_⟩
    unfold Coherent
    rw [hinum, hD]
    exact readDinode_writeDinode _ _ hfit _

theorem itrunc_fsOk (h : FsOk sb s) (hsb : SbOk sb) (hip : Live (s.inode ip)) :
    ∃ s', (itrunc sb ip).run s = .ok ((), s') ∧ FsOk sb s' := by
  obtain ⟨s', hrun, q⟩ :=
    itrunc_spec (h.fileOk hip) hsb h.disk.metaUsed (h.table.inUse hip).2.1
  refine ⟨s', hrun, ?_⟩
  have hcoh := (h.table.loaded ip hip).2
  have hinum : (s'.inode ip).inum = (s.inode ip).inum := by rw [q.inode]
  have hfit : (s'.inode ip).Fits := by
    have hf := hcoh.fits
    rw [q.inode]
    exact ⟨hf.type, hf.major, hf.minor, hf.nlink, Nat.two_pow_pos 32, fun _ => Nat.two_pow_pos 32⟩
  have hzero : ∀ k, (s'.inode ip).addrs k = 0 := fun k => by rw [q.inode]
  obtain ⟨D, hD⟩ := q.stored
  have hdisk : diskInode sb s'.disk (s.inode ip).inum =
      { dev := ROOTDEV, inum := (s.inode ip).inum, ref := 0, valid := false,
        type := (s'.inode ip).type, major := (s'.inode ip).major, minor := (s'.inode ip).minor,
        nlink := (s'.inode ip).nlink, size := (s'.inode ip).size, addrs := (s'.inode ip).addrs } := by
    rw [hD]
    exact diskInode_writeDinode D hfit
  have hc : DiskConfined sb s.disk s'.disk (s.inode ip).inum _ :=
    h.diskConfined hsb hip (fun _ hx => hx.imp_left .inl) q.frame
      (fun b hb hno => (q.freed b hb.2.1).mpr ⟨hb.2.2, hno⟩)
      (fun _ => by rw [hdisk]; exact FileOk.empty hzero (by rw [q.inode]))
      (fun b hb => by rw [hdisk] at hb; exact absurd hb (not_owns_of_zero hzero b)) q.metaUsed
  refine h.of_confined hip.1 hc q.others ?_ ?_ ?_
  · rw [q.inode]
    exact h.table.ref ip
  · intro _
    rw [q.inode]
    exact ⟨hip.1, rfl, rfl⟩
  · intro _
    refine ⟨by rw [q.inode]; exact (h.table.loaded ip hip).1, ?_⟩
    unfold Coherent
    rw [hinum, hD]
    exact readDinode_writeDinode _ _ hfit _

end FileOps

section Iput

variable {sb : Superblock} {s s₁ : FsState} {ip : Fin NINODE}

theorem iput_run_keep
    (hn : ¬ ((s.inode ip).ref = 1 ∧ (s.inode ip).valid = true ∧ (s.inode ip).nlink = 0)) :
    (iput sb ip).run s = .ok ((), s.setInode ip fun i => { i with ref := i.ref - 1 }) := by
  simp only [iput, StateT.run_bind, StateT.run_get, pure_bind, run_ite, if_neg hn]
  rfl

/-- The way through `iput` that frees the inode, from the state `itrunc` leaves: the emptied
inode written back with type 0, and the entry left unloaded without references. -/
theorem iput_run_free
    (hf : (s.inode ip).ref = 1 ∧ (s.inode ip).valid = true ∧ (s.inode ip).nlink = 0)
    (hit : (itrunc sb ip).run s = .ok ((), s₁)) :
    ∃ s', (iput sb ip).run s = .ok ((), s') ∧
      s'.disk = writeDinode s₁.disk (dinodeAddr sb (s₁.inode ip).inum) { s₁.inode ip with type := 0 } ∧
      s'.inode ip = { s₁.inode ip with type := 0, valid := false, ref := (s₁.inode ip).ref - 1 } ∧
      ∀ j, j ≠ ip → s'.inode j = s₁.inode j := by
  refine ⟨_, by simp only [iput, StateT.run_bind, StateT.run_get, pure_bind, run_ite, if_pos hf,
    hit, ok_bind]; rfl, ?_, ?_, fun j hj => ?_⟩
  · simp only [FsState.setInode_disk, FsState.setInode_self]
  · simp only [FsState.setInode_self]
  · simp only [FsState.setInode_of_ne _ _ hj]

/-- `iput` of a held entry never panics, and keeps the invariant: the last reference to a
loaded inode with no links frees it, and any other `iput` drops one reference. -/
theorem iput_fsOk (h : FsOk sb s) (hsb : SbOk sb) (hip : 0 < (s.inode ip).ref) :
    ∃ s', (iput sb ip).run s = .ok ((), s') ∧ FsOk sb s' := by
  by_cases hf : (s.inode ip).ref = 1 ∧ (s.inode ip).valid = true ∧ (s.inode ip).nlink = 0
  swap
  · -- one reference fewer
    refine ⟨_, iput_run_keep hf, ⟨h.disk, h.table.step (fun j hj => FsState.setInode_of_ne _ _ hj)
      ?_ ?_ ?_ fun j _ hj => (h.table.loaded j hj).2⟩⟩
    · rw [FsState.setInode_self]
      exact Int.sub_nonneg_of_le hip
    · intro _
      rw [FsState.setInode_self]
      exact ⟨hip, rfl, rfl⟩
    · intro hl
      rw [FsState.setInode_self] at hl ⊢
      obtain ⟨ht, hc⟩ := h.table.loaded ip ⟨hip, hl.2⟩
      exact ⟨ht, hc.of_fields rfl rfl rfl rfl rfl rfl rfl⟩
  have hlive : Live (s.inode ip) := ⟨hip, hf.2.1⟩
  have hcoh := (h.table.loaded ip hlive).2
  obtain ⟨s₁, hit, q⟩ := itrunc_spec (h.fileOk hlive) hsb h.disk.metaUsed (h.table.inUse hlive).2.1
  obtain ⟨s', hrun, hdisk, hinode, hothers⟩ := iput_run_free hf hit
  refine ⟨s', hrun, ?_⟩
  have hinum : (s₁.inode ip).inum = (s.inode ip).inum := by rw [q.inode]
  have hfit : ({ s₁.inode ip with type := 0 } : Inode).Fits := by
    have hf := hcoh.fits
    rw [q.inode]
    exact ⟨show -2 ^ 15 ≤ (0 : Int) ∧ (0 : Int) < 2 ^ 15 by decide, hf.major, hf.minor, hf.nlink,
      Nat.two_pow_pos 32, fun _ => Nat.two_pow_pos 32⟩
  have hgone : diskInode sb s'.disk (s.inode ip).inum =
      { dev := ROOTDEV, inum := (s.inode ip).inum, ref := 0, valid := false, type := 0,
        major := (s₁.inode ip).major, minor := (s₁.inode ip).minor, nlink := (s₁.inode ip).nlink,
        size := (s₁.inode ip).size, addrs := (s₁.inode ip).addrs } := by
    rw [hdisk, hinum]
    exact diskInode_writeDinode _ hfit
  have hzero : ∀ k, (diskInode sb s'.disk (s.inode ip).inum).addrs k = 0 := fun k => by
    rw [hgone, q.inode]
  have hD' : Keeps (fun x => dinodeAddr sb (s.inode ip).inum ≤ x ∧
      x < dinodeAddr sb (s.inode ip).inum + 64) s₁.disk s'.disk := by
    rw [hdisk, hinum]
    exact keeps_writeDinode _ _ _
  have hW' : ∀ x, (dinodeAddr sb (s.inode ip).inum ≤ x ∧ x < dinodeAddr sb (s.inode ip).inum + 64) →
      x / BSIZE < sb.bmapstart := fun x hx => by
    rw [dinode_mem sb _ hx.1 hx.2]
    exact hsb.IBLOCK_lt (h.table.inUse hlive).2.1
  have hc : DiskConfined sb s.disk s'.disk (s.inode ip).inum _ :=
    h.diskConfined hsb hlive (fun _ hx => hx.imp_left .inl)
      ((q.frame.trans hD').mono fun _ hx => hx.elim id .inr)
      (fun b hb hno => by
        rw [used_of_keeps_meta hsb hD' hW' hb.2.1]
        exact (q.freed b hb.2.1).mpr ⟨hb.2.2, hno⟩)
      (fun hu => absurd (by rw [hgone]) hu.2.2)
      (fun b hb => absurd hb (not_owns_of_zero hzero b)) (q.metaUsed.of_keeps_meta hsb hD' hW')
  have href₁ : (s₁.inode ip).ref = 1 := by
    rw [q.inode]
    exact hf.1
  refine h.of_confined hip hc (fun j hj => (hothers j hj).trans (q.others j hj)) ?_ ?_ ?_
  · rw [hinode]
    show (0 : Int) ≤ (s₁.inode ip).ref - 1
    omega
  · intro hr
    rw [hinode] at hr
    change (0 : Int) < (s₁.inode ip).ref - 1 at hr
    omega
  · intro hl
    rw [hinode] at hl
    exact absurd hl.2 Bool.false_ne_true

/-- `iget` panics only when every entry holds another inode: with a free entry it returns. -/
theorem iget_run_of_free (hfree : ∃ j, (s.inode j).ref = 0) (dev inum : Nat) :
    ∃ ip s', (iget dev inum).run s = .ok (ip, s') := by
  simp only [iget, StateT.run_bind, StateT.run_get, pure_bind]
  split
  · exact ⟨_, _, rfl⟩
  · split
    · exact ⟨_, _, rfl⟩
    · rename_i hnone
      obtain ⟨j, hj⟩ := hfree
      have := List.find?_eq_none.mp hnone j (List.mem_finRange j)
      simp only [decide_eq_true_eq] at this
      exact absurd hj this

/-- `iput` of what `iget` returned takes the reference back: every count is as it was and every
entry with references is unchanged; only a recycled free entry keeps the inode it was given. -/
theorem iget_iput_run (sb : Superblock) {dev inum : Nat} (hrun : (iget dev inum).run s = .ok (ip, s₁)) :
    ∃ s₂, (iput sb ip).run s₁ = .ok ((), s₂) ∧ s₂.disk = s.disk ∧ s₂.mem = s.mem ∧
      ∀ j, (s₂.inode j).ref = (s.inode j).ref ∧ (0 < (s.inode j).ref → s₂.inode j = s.inode j) := by
  rcases iget_run_eq_ok hrun with ⟨hpos, -, -, rfl⟩ | ⟨-, h0, rfl⟩
  · -- a held entry: the count goes up and back down
    have hn : ¬ (((s.setInode ip fun i => { i with ref := i.ref + 1 }).inode ip).ref = 1 ∧
        ((s.setInode ip fun i => { i with ref := i.ref + 1 }).inode ip).valid = true ∧
        ((s.setInode ip fun i => { i with ref := i.ref + 1 }).inode ip).nlink = 0) := by
      rw [FsState.setInode_self]
      intro h
      have h1 : (s.inode ip).ref + 1 = 1 := h.1
      omega
    have hback : ((s.setInode ip fun i => { i with ref := i.ref + 1 }).setInode ip
        fun i => { i with ref := i.ref - 1 }) = s := by
      rw [FsState.setInode_setInode]
      exact FsState.setInode_of_eq s (by simp)
    refine ⟨_, iput_run_keep hn, ?_, ?_, fun j => ?_⟩ <;> rw [hback]
    exact ⟨rfl, fun _ => rfl⟩
  · -- a recycled entry: unloaded, so `iput` only drops the reference again
    have hn : ¬ (((s.setInode ip fun i =>
        { i with dev := dev, inum := inum, ref := 1, valid := false }).inode ip).ref = 1 ∧
        ((s.setInode ip fun i =>
          { i with dev := dev, inum := inum, ref := 1, valid := false }).inode ip).valid = true ∧
        ((s.setInode ip fun i =>
          { i with dev := dev, inum := inum, ref := 1, valid := false }).inode ip).nlink = 0) := by
      rw [FsState.setInode_self]
      simp
    refine ⟨_, iput_run_keep hn, rfl, rfl, fun j => ?_⟩
    by_cases hj : j = ip
    · subst hj
      rw [FsState.setInode_self, FsState.setInode_self, h0]
      exact ⟨by simp, fun h => absurd h (lt_irrefl 0)⟩
    · rw [FsState.setInode_of_ne _ _ hj, FsState.setInode_of_ne _ _ hj]
      exact ⟨rfl, fun _ => rfl⟩

end Iput

section Ialloc

variable {sb : Superblock} {s s' : FsState} {dev : Nat} {type : Int}

/-- The disk once `ialloc` has taken inode `inum₀`: its `struct dinode` cleared and given the
type. -/
def allocDinode (sb : Superblock) (d : Memory) (inum₀ : Nat) (type : Int) : Memory :=
  writeLE (memset d (dinodeAddr sb inum₀) 0 64) (dinodeAddr sb inum₀) (short type) 2

/-- What a call of `ialloc`'s scan that returns did: nothing, or it took the first inode from
`inum` on whose `struct dinode` has type 0 and gave it to `iget`. -/
theorem iallocLoop_run_eq_ok {r : Option (Fin NINODE)} :
    ∀ (fuel inum : Nat) (s s' : FsState), (iallocLoop sb dev type inum fuel).run s = .ok (r, s') →
      (r = none ∧ s' = s) ∨
      ∃ inum₀ ip, inum ≤ inum₀ ∧ inum₀ < sb.ninodes ∧
        int16 (readLE s.disk (dinodeAddr sb inum₀) 2) = 0 ∧ r = some ip ∧
        (iget dev inum₀).run { s with disk := allocDinode sb s.disk inum₀ type } = .ok (ip, s')
  | 0, _, s, s', h => by
    simp only [iallocLoop, StateT.run_pure] at h
    cases h
    exact .inl ⟨rfl, rfl⟩
  | fuel + 1, inum, s, s', h => by
    by_cases hlt : inum < sb.ninodes
    swap
    · simp only [iallocLoop, if_neg hlt, StateT.run_pure] at h
      cases h
      exact .inl ⟨rfl, rfl⟩
    by_cases hfree : int16 (readLE s.disk (dinodeAddr sb inum) 2) = 0
    · -- the first free inode: cleared, typed, and taken with `iget`
      simp only [iallocLoop, StateT.run_bind, StateT.run_get, pure_bind, run_ite, if_pos hlt,
        if_pos hfree, StateT.run_modify] at h
      obtain ⟨⟨ip, t⟩, hg, hp⟩ := bind_eq_ok h
      cases hp
      exact .inr ⟨inum, ip, le_rfl, hlt, hfree, rfl, hg⟩
    · simp only [iallocLoop, StateT.run_bind, StateT.run_get, pure_bind, run_ite, if_pos hlt,
        if_neg hfree] at h
      rcases iallocLoop_run_eq_ok fuel (inum + 1) s s' h with h' | ⟨inum₀, ip, h1, h2⟩
      · exact .inl h'
      · exact .inr ⟨inum₀, ip, by omega, h2⟩

theorem allocDinode_addrs (d : Memory) (inum₀ : Nat) (type : Int) (k : Fin (NDIRECT + 1)) :
    (diskInode sb (allocDinode sb d inum₀ type) inum₀).addrs k = 0 := by
  have hk := k.isLt
  unfold NDIRECT at hk
  show readLE (allocDinode sb d inum₀ type) (dinodeAddr sb inum₀ + 12 + 4 * k) 4 = 0
  rw [allocDinode, readLE_writeLE_of_disjoint _ (by omega), memset_eq_fill]
  exact readLE_fill_zero _ (by omega) (by omega)

theorem allocDinode_size (d : Memory) (inum₀ : Nat) (type : Int) :
    (diskInode sb (allocDinode sb d inum₀ type) inum₀).size = 0 := by
  show readLE (allocDinode sb d inum₀ type) (dinodeAddr sb inum₀ + 8) 4 = 0
  rw [allocDinode, readLE_writeLE_of_disjoint _ (by omega), memset_eq_fill]
  exact readLE_fill_zero _ (by omega) (by omega)

/-- Taking a free inode changes the disk only in its `struct dinode`, and leaves it an empty
file. -/
theorem FsOk.allocConfined (h : FsOk sb s) (hsb : SbOk sb) {inum₀ : Nat} (hlt : inum₀ < sb.ninodes) :
    DiskConfined sb s.disk (allocDinode sb s.disk inum₀ type) inum₀
      (fun x => dinodeAddr sb inum₀ ≤ x ∧ x < dinodeAddr sb inum₀ + 64) := by
  have hD : Keeps (fun x => dinodeAddr sb inum₀ ≤ x ∧ x < dinodeAddr sb inum₀ + 64) s.disk
      (allocDinode sb s.disk inum₀ type) := by
    rw [allocDinode, memset_eq_fill]
    exact ((keeps_fill _ _ _ _).trans (keeps_writeLE _ _ _ _)).mono fun x hx => by omega
  have hW : ∀ x, (dinodeAddr sb inum₀ ≤ x ∧ x < dinodeAddr sb inum₀ + 64) →
      x / BSIZE < sb.bmapstart := fun x hx => by
    rw [dinode_mem sb _ hx.1 hx.2]
    exact hsb.IBLOCK_lt hlt
  have hzero : ∀ k, (diskInode sb (allocDinode sb s.disk inum₀ type) inum₀).addrs k = 0 :=
    allocDinode_addrs s.disk inum₀ type
  refine ⟨hD, fun inum _ hu x hx ho => ?_, fun inum hne _ x hx => ?_, fun inum _ hu b hb => ?_,
    fun _ => FileOk.empty hzero (allocDinode_size _ _ _),
    fun _ _ _ _ b hb => absurd hb (not_owns_of_zero hzero b), h.disk.metaUsed.of_keeps_meta hsb hD hW⟩
  · exact ((h.disk.files inum hu).owns_held ho).not_dinode hsb hlt hx rfl
  · have := dinodeAddr_disjoint sb hne
    omega
  · have hheld := (h.disk.files inum hu).owns_held hb
    rw [used_of_keeps_meta hsb hD hW hheld.2.1]
    exact hheld.2.2

/-- A change of the disk confined to an inode that no loaded entry holds keeps the invariant. -/
theorem FsOk.of_unloaded {d' : Memory} {inum₀ : Nat} {W : Nat → Prop} (h : FsOk sb s)
    (hc : DiskConfined sb s.disk d' inum₀ W) (hnot : ∀ j, Live (s.inode j) → (s.inode j).inum ≠ inum₀) :
    FsOk sb { s with disk := d' } :=
  ⟨hc.diskOk h.disk, ⟨h.table.ref, h.table.held, h.table.unique, fun j hj =>
    ⟨(h.table.loaded j hj).1, (h.table.loaded j hj).2.of_keeps hc.frame
      (hc.dinodes _ (hnot j hj) (h.table.held j hj.1).2.2)⟩⟩⟩

/-- `ialloc` keeps the invariant: the inode it takes was free, so no loaded entry holds it. -/
theorem ialloc_fsOk (h : FsOk sb s) (hsb : SbOk sb) {r : Option (Fin NINODE)}
    (hrun : (ialloc sb ROOTDEV type).run s = .ok (r, s')) : FsOk sb s' := by
  rcases iallocLoop_run_eq_ok _ _ s s' hrun with ⟨-, rfl⟩ | ⟨inum₀, ip, h1, hlt, hfree, -, hg⟩
  · exact h
  have hnot : ∀ j, Live (s.inode j) → (s.inode j).inum ≠ inum₀ := fun j hj heq =>
    (h.table.inUse hj).2.2 (by rw [heq]; exact hfree)
  exact iget_fsOk (h.of_unloaded (h.allocConfined hsb hlt) hnot) ⟨h1, hlt⟩ hg

end Ialloc

/-! ### Runs of the inode layer -/

/-- The calls into the inode layer as the rest of the kernel makes them, their results
dropped. -/
inductive InodeOp
  | get (inum : Nat)
  | dup (ip : Fin NINODE)
  | lock (ip : Fin NINODE)
  | unlock (ip : Fin NINODE)
  | put (ip : Fin NINODE)
  | read (ip : Fin NINODE) (dst off n : Nat)
  | write (ip : Fin NINODE) (src off n : Nat)
  | trunc (ip : Fin NINODE)
  | alloc (type : Int)
  deriving DecidableEq, Repr

def InodeOp.run (sb : Superblock) : InodeOp → FsM Unit
  | .get inum => discard (iget ROOTDEV inum)
  | .dup ip => discard (idup ip)
  | .lock ip => ilock sb ip
  | .unlock ip => iunlock ip
  | .put ip => iput sb ip
  | .read ip dst off n => discard (readi sb ip dst off n)
  | .write ip src off n => discard (writei sb ip src off n)
  | .trunc ip => itrunc sb ip
  | .alloc type => discard (ialloc sb ROOTDEV type)

/-- What the kernel holds when it makes each call: an inode number `ialloc` could hand out for
`iget`; a reference for `idup`, `ilock`, `iunlock` and `iput`; and the inode locked, so loaded,
for `readi`, `writei` and `itrunc`. -/
def InodeOp.Pre (sb : Superblock) (s : FsState) : InodeOp → Prop
  | .get inum => 0 < inum ∧ inum < sb.ninodes
  | .dup ip | .lock ip | .unlock ip | .put ip => 0 < (s.inode ip).ref
  | .read ip .. | .write ip .. | .trunc ip => Live (s.inode ip)
  | .alloc _ => True

/-- An entry of the zeroed table `iinit` leaves. -/
def Inode.zero : Inode := ⟨0, 0, 0, false, 0, 0, 0, 0, 0, fun _ => 0⟩

/-- The states the inode layer reaches from a disk whose inodes in use are well formed and
apart, with the zeroed table, by any sequence of calls, each made as the kernel makes it and
each returning. -/
inductive FsReach (sb : Superblock) : FsState → Prop
  | boot (d m : Memory) : DiskOk sb d → FsReach sb ⟨d, m, fun _ => Inode.zero⟩
  | step {s s' : FsState} (op : InodeOp) : FsReach sb s → op.Pre sb s →
      (op.run sb).run s = .ok ((), s') → FsReach sb s'

section Runs

variable {sb : Superblock} {s s' : FsState}

theorem FsOk.boot {d : Memory} (hd : DiskOk sb d) (m : Memory) :
    FsOk sb ⟨d, m, fun _ => Inode.zero⟩ :=
  ⟨hd, ⟨fun _ => le_rfl, fun _ h => absurd h (lt_irrefl 0), fun _ _ _ h => absurd h (lt_irrefl 0),
    fun _ h => absurd h.1 (lt_irrefl 0)⟩⟩

/-- Each call keeps the invariant. -/
theorem FsOk.step (h : FsOk sb s) (hsb : SbOk sb) (op : InodeOp) (hpre : op.Pre sb s)
    (hrun : (op.run sb).run s = .ok ((), s')) : FsOk sb s' := by
  cases op with
  | get inum =>
    obtain ⟨⟨ip, t⟩, hg, he⟩ := bind_eq_ok (by rw [InodeOp.run, run_discard] at hrun; exact hrun)
    cases he
    exact iget_fsOk h hpre hg
  | dup ip =>
    rw [InodeOp.run, run_discard, idup_run] at hrun
    cases hrun
    exact h.addRef hpre
  | lock ip => exact ilock_fsOk h hrun
  | unlock ip =>
    rw [iunlock_run_eq_ok hrun]
    exact h
  | put ip =>
    obtain ⟨t, ht, hok⟩ := iput_fsOk h hsb hpre
    rw [InodeOp.run, ht] at hrun
    cases hrun
    exact hok
  | read ip dst off n =>
    obtain ⟨r, t, ht, hok⟩ := readi_fsOk h hpre dst off n
    rw [InodeOp.run, run_discard, ht] at hrun
    cases hrun
    exact hok
  | write ip src off n =>
    obtain ⟨r, t, ht, hok⟩ := writei_fsOk h hsb hpre src off n
    rw [InodeOp.run, run_discard, ht] at hrun
    cases hrun
    exact hok
  | trunc ip =>
    obtain ⟨t, ht, hok⟩ := itrunc_fsOk h hsb hpre
    rw [InodeOp.run, ht] at hrun
    cases hrun
    exact hok
  | alloc type =>
    obtain ⟨⟨r, t⟩, hg, he⟩ := bind_eq_ok (by rw [InodeOp.run, run_discard] at hrun; exact hrun)
    cases he
    exact ialloc_fsOk h hsb hg

theorem FsReach.fsOk (h : FsReach sb s) (hsb : SbOk sb) : FsOk sb s := by
  induction h with
  | boot d m hd => exact FsOk.boot hd m
  | step op _ hpre hrun ih => exact ih.step hsb op hpre hrun

/-- In every state the inode layer reaches, the inodes in use on the disk are well-formed files
that share no block; two entries of the table with references hold different inodes; and every
loaded entry holds an inode in use and is, field for field, what its `struct dinode` reads. -/
theorem fsOk_of_reach (hsb : SbOk sb) (h : FsReach sb s) : FsOk sb s :=
  h.fsOk hsb

/-- The disk `mkfs` leaves before the root directory is made: no inode is in use. -/
theorem mkfsDisk_type {inum : Nat} (hi : inum < mkfsSb.ninodes) :
    (diskInode mkfsSb mkfsDisk inum).type = 0 := by
  have ha : dinodeAddr mkfsSb inum + 2 ≤ 45 * BSIZE := by
    rw [dinodeAddr_eq]
    change inum < 200 at hi
    show 32 * 1024 + 64 * inum + 2 ≤ 45 * 1024
    omega
  have h0 : readLE mkfsDisk (dinodeAddr mkfsSb inum) 2 =
      readLE (fun _ => 0) (dinodeAddr mkfsSb inum) 2 :=
    readLE_congr 2 fun x _ hx => if_neg (by omega)
  show int16 (readLE mkfsDisk (dinodeAddr mkfsSb inum) 2) = 0
  rw [h0, readLE_zero]
  rfl

theorem mkfsDisk_diskOk : DiskOk mkfsSb mkfsDisk :=
  ⟨mkfsDisk_metaUsed, fun _ hu => absurd (mkfsDisk_type hu.2.1) hu.2.2,
    fun _ _ _ hu => absurd (mkfsDisk_type hu.2.1) hu.2.2⟩

/-- Boot on `mkfsDisk`; then `ialloc(ROOTDEV, T_FILE)`, which takes inode 1 into entry 0; then
`ilock` of that entry. -/
def mkfsBoot : FsState := ⟨mkfsDisk, fun _ => 0, fun _ => Inode.zero⟩

def mkfsAlloc : FsState :=
  ({ mkfsBoot with disk := allocDinode mkfsSb mkfsDisk 1 T_FILE } : FsState).setInode 0 fun i =>
    { i with dev := ROOTDEV, inum := 1, ref := 1, valid := false }

def mkfsLocked : FsState :=
  mkfsAlloc.setInode 0 fun i => { readDinode mkfsAlloc.disk (dinodeAddr mkfsSb i.inum) i with valid := true }

theorem mkfsAlloc_run : (InodeOp.run mkfsSb (.alloc T_FILE)).run mkfsBoot = .ok ((), mkfsAlloc) := by
  rfl

theorem mkfsLocked_run : (InodeOp.run mkfsSb (.lock 0)).run mkfsAlloc = .ok ((), mkfsLocked) := by
  rfl

theorem mkfsLocked_reach : FsReach mkfsSb mkfsLocked :=
  .step (.lock 0) (.step (.alloc T_FILE) (.boot _ _ mkfsDisk_diskOk) trivial mkfsAlloc_run)
    (show (0 : Int) < 1 by decide) mkfsLocked_run

theorem fsOk_of_reach_mkfsLocked : FsOk mkfsSb mkfsLocked :=
  fsOk_of_reach mkfsSb_ok mkfsLocked_reach

end Runs

end Xv6

