import Xv6.Fs.Inode

/-! What the inode layer does to a file. A file's bytes are read through its addresses
(`blockOf`, `fileByte`), and a file is well formed (`FileOk`) when every block it names is a data
block marked in the bitmap, no block is named twice (the indirect block included), and every
block below its size exists. On such a file `bmap` keeps it well formed, `writei` overwrites
the bytes it is given and nothing else of the file, `readi` copies out the file's bytes, and
`itrunc` gives back exactly the file's blocks. Each change to the disk is confined to the bitmap,
the file's own blocks and blocks that were free (`Grows`), so that other files are untouched. -/
namespace Xv6
open ByteMem StateExcept

/-- Block `bn` of a file whose addresses are `addrs`, as `bmap` finds it without allocating:
0 for none. -/
def blockOf (disk : Memory) (addrs : Fin (NDIRECT + 1) → Nat) (bn : Nat) : Nat :=
  if h : bn < NDIRECT then addrs (Fin.castSucc ⟨bn, h⟩)
  else if addrs INDIRECT = 0 then 0
  else read32 disk (addrs INDIRECT * BSIZE + 4 * (bn - NDIRECT))

/-- The blocks a file names: slot `k < MAXFILE` is its block `k`, and slot `MAXFILE` its
indirect block. -/
def slotOf (disk : Memory) (i : Inode) (k : Nat) : Nat :=
  if k < MAXFILE then blockOf disk i.addrs k else i.addrs INDIRECT

/-- Byte `k` of a file. -/
def fileByte (disk : Memory) (i : Inode) (k : Nat) : UInt8 :=
  disk (blockOf disk i.addrs (k / BSIZE) * BSIZE + k % BSIZE)

/-- A data block that the bitmap marks. -/
def Held (sb : Superblock) (disk : Memory) (b : Nat) : Prop :=
  dataStart sb ≤ b ∧ b < sb.size ∧ used sb disk b = true

/-- The blocks of a file. -/
def Owns (disk : Memory) (i : Inode) (b : Nat) : Prop := b ≠ 0 ∧ ∃ k ≤ MAXFILE, slotOf disk i k = b

/-- A well-formed file: the blocks it names are marked data blocks, none named twice, and none
missing below its size. -/
structure FileOk (sb : Superblock) (disk : Memory) (i : Inode) : Prop where
  held : ∀ k ≤ MAXFILE, slotOf disk i k ≠ 0 → Held sb disk (slotOf disk i k)
  inj : ∀ k ≤ MAXFILE, ∀ k' ≤ MAXFILE, slotOf disk i k ≠ 0 →
    slotOf disk i k = slotOf disk i k' → k = k'
  dense : ∀ bn, bn * BSIZE < i.size → blockOf disk i.addrs bn ≠ 0
  size_le : i.size ≤ MAXFILE * BSIZE

/-- The bytes that a change to a file may write: the bitmap, the file's blocks, and blocks
that are free. -/
def Touches (sb : Superblock) (disk : Memory) (i : Inode) (x : Nat) : Prop :=
  BitmapArea sb x ∨ Fresh sb disk (x / BSIZE) ∨ Owns disk i (x / BSIZE)

/-- From `(d, i)` to `(d', i')` the bitmap only gains blocks, the file gains only blocks that
were free, and the disk changes only in the bytes `Touches` names. -/
structure Grows (sb : Superblock) (d : Memory) (i : Inode) (d' : Memory) (i' : Inode) : Prop where
  used : ∀ y < sb.size, used sb d y = true → used sb d' y = true
  owns : ∀ b, Owns d' i' b → Owns d i b ∨ Fresh sb d b
  keeps : Keeps (Touches sb d i) d d'

section Views

variable {sb : Superblock} {d d' d'' : Memory} {i i' i'' : Inode}

@[simp] theorem Inode.setAddr_addrs (i : Inode) (k : Fin (NDIRECT + 1)) (a : Nat) :
    (i.setAddr k a).addrs = Function.update i.addrs k a := rfl

theorem castSucc_ne_INDIRECT {bn : Nat} (h : bn < NDIRECT) :
    (Fin.castSucc ⟨bn, h⟩ : Fin (NDIRECT + 1)) ≠ INDIRECT := by
  intro he
  have hv := congrArg Fin.val he
  simp only [Fin.val_castSucc, INDIRECT, Fin.val_last] at hv
  omega

theorem blockOf_direct {addrs : Fin (NDIRECT + 1) → Nat} {bn : Nat} (h : bn < NDIRECT) :
    blockOf d addrs bn = addrs (Fin.castSucc ⟨bn, h⟩) := by
  rw [blockOf, dif_pos h]

theorem blockOf_indirect {addrs : Fin (NDIRECT + 1) → Nat} {bn : Nat} (h : ¬ bn < NDIRECT) :
    blockOf d addrs bn =
      if addrs INDIRECT = 0 then 0 else read32 d (addrs INDIRECT * BSIZE + 4 * (bn - NDIRECT)) := by
  rw [blockOf, dif_neg h]

theorem div_BSIZE_of_mem {b x : Nat} (h1 : b * BSIZE ≤ x) (h2 : x < b * BSIZE + BSIZE) :
    x / BSIZE = b := by
  unfold BSIZE at *
  omega

/-- The entry of block `bn` in the indirect block lies inside that block. -/
theorem entry_mem {bn x : Nat} (hbn : bn < MAXFILE) (ind : Nat) (h1 : ind * BSIZE + 4 * (bn - NDIRECT) ≤ x)
    (h2 : x < ind * BSIZE + 4 * (bn - NDIRECT) + 4) : x / BSIZE = ind := by
  have hb : 4 * (bn - NDIRECT) + 4 ≤ BSIZE := by
    unfold MAXFILE NINDIRECT at hbn
    unfold BSIZE at *
    omega
  exact div_BSIZE_of_mem (by omega) (by omega)

/-- A file's blocks read the same from a disk that agrees on its indirect block. -/
theorem blockOf_of_keeps {W : Nat → Prop} (h : Keeps W d d') {addrs : Fin (NDIRECT + 1) → Nat}
    (hind : addrs INDIRECT ≠ 0 → ∀ x, x / BSIZE = addrs INDIRECT → ¬ W x) {bn : Nat}
    (hbn : bn < MAXFILE) : blockOf d' addrs bn = blockOf d addrs bn := by
  by_cases hd : bn < NDIRECT
  · rw [blockOf_direct hd, blockOf_direct hd]
  · rw [blockOf_indirect hd, blockOf_indirect hd]
    split_ifs with h0
    · rfl
    · exact readLE_congr 4 fun x h1 h2 => h x (hind h0 x (entry_mem hbn _ h1 h2))

theorem slotOf_of_keeps {W : Nat → Prop} (h : Keeps W d d')
    (hind : i.addrs INDIRECT ≠ 0 → ∀ x, x / BSIZE = i.addrs INDIRECT → ¬ W x) {k : Nat} :
    slotOf d' i k = slotOf d i k := by
  unfold slotOf
  split_ifs with hk
  · exact blockOf_of_keeps h hind hk
  · rfl

theorem FileOk.held_ind (h : FileOk sb d i) (h0 : i.addrs INDIRECT ≠ 0) :
    Held sb d (i.addrs INDIRECT) := by
  have := h.held MAXFILE le_rfl
  simp only [slotOf, lt_irrefl, if_false] at this
  exact this h0

theorem FileOk.held_block (h : FileOk sb d i) {bn : Nat} (hbn : bn < MAXFILE)
    (h0 : blockOf d i.addrs bn ≠ 0) : Held sb d (blockOf d i.addrs bn) := by
  have := h.held bn hbn.le
  simp only [slotOf, hbn, if_true] at this
  exact this h0

theorem Held.fresh_ne {b x : Nat} (hb : Held sb d b) (hx : Fresh sb d x) : b ≠ x := by
  rintro rfl
  have hu := hx.2.2
  rw [hb.2.2] at hu
  cases hu

theorem FileOk.owns_held (h : FileOk sb d i) {b : Nat} (hb : Owns d i b) : Held sb d b := by
  obtain ⟨hne, k, hk, rfl⟩ := hb
  exact h.held k hk hne

/-- A free block is not one of the file's. -/
theorem FileOk.not_owns_of_fresh (h : FileOk sb d i) {x : Nat} (hx : Fresh sb d x) :
    ¬ Owns d i x := fun ho => (h.owns_held ho).fresh_ne hx rfl

/-- A file's bytes are none of the bitmap's. -/
theorem Held.not_bitmapArea {b x : Nat} (hb : Held sb d b) (hx : x / BSIZE = b) :
    ¬ BitmapArea sb x := by
  rintro ⟨-, h2⟩
  have := hb.1
  have : x / BSIZE < dataStart sb := Nat.div_lt_of_lt_mul (by rw [Nat.mul_comm]; exact h2)
  omega

theorem slotOf_of_zero (h0 : ∀ k, i.addrs k = 0) (k : Nat) : slotOf d i k = 0 := by
  simp [slotOf, blockOf, h0]

theorem not_owns_of_zero (h0 : ∀ k, i.addrs k = 0) (b : Nat) : ¬ Owns d i b := by
  rintro ⟨hne, k, -, hk⟩
  rw [slotOf_of_zero h0] at hk
  exact hne hk.symm

/-- A file that names no block and holds no byte is well formed. -/
theorem FileOk.empty (h0 : ∀ k, i.addrs k = 0) (hsz : i.size = 0) : FileOk sb d i := by
  have hslot : ∀ k, slotOf d i k = 0 := slotOf_of_zero h0
  refine ⟨fun k _ hne => absurd (hslot k) hne, fun k _ _ _ hne _ => absurd (hslot k) hne,
    fun bn hbn => ?_, by rw [hsz]; exact Nat.zero_le _⟩
  rw [hsz] at hbn
  exact absurd hbn (Nat.not_lt_zero _)

theorem Grows.refl (sb : Superblock) (d : Memory) (i : Inode) : Grows sb d i d i :=
  ⟨fun _ _ h => h, fun _ h => .inl h, Keeps.refl _ _⟩

theorem Fresh.of_used {x : Nat} (h : ∀ y < sb.size, used sb d y = true → used sb d' y = true)
    (hx : Fresh sb d' x) : Fresh sb d x := by
  refine ⟨hx.1, hx.2.1, ?_⟩
  cases hu : used sb d x with
  | false => rfl
  | true =>
    have hu' := hx.2.2
    rw [h x hx.2.1 hu] at hu'
    cases hu'

theorem Grows.trans (h : Grows sb d i d' i') (h' : Grows sb d' i' d'' i'') :
    Grows sb d i d'' i'' := by
  refine ⟨fun y hy hu => h'.used y hy (h.used y hy hu), fun b hb => ?_, ?_⟩
  · rcases h'.owns b hb with ho | hf
    · exact h.owns b ho
    · exact .inr (hf.of_used h.used)
  · refine (h.keeps.trans h'.keeps).mono fun x hx => ?_
    rcases hx with hx | hb | hf | ho
    · exact hx
    · exact .inl hb
    · exact .inr (.inl (hf.of_used h.used))
    · rcases h.owns _ ho with ho' | hf
      · exact .inr (.inr ho')
      · exact .inr (.inl hf)

end Views

section Steps

variable {sb : Superblock} {d d' : Memory} {i i' : Inode}

theorem castSucc_eq_iff {k bn : Nat} (hk : k < NDIRECT) (hbn : bn < NDIRECT) :
    (Fin.castSucc ⟨k, hk⟩ : Fin (NDIRECT + 1)) = Fin.castSucc ⟨bn, hbn⟩ ↔ k = bn := by
  rw [Fin.castSucc_inj, Fin.mk.injEq]

/-- Storing a direct address changes that one block of the file. -/
theorem blockOf_update_direct (a : Fin (NDIRECT + 1) → Nat) {bn : Nat} (hbn : bn < NDIRECT)
    (x k : Nat) :
    blockOf d (Function.update a (Fin.castSucc ⟨bn, hbn⟩) x) k =
      if k = bn then x else blockOf d a k := by
  by_cases hk : k < NDIRECT
  · rw [blockOf_direct hk, blockOf_direct hk, Function.update_apply]
    simp only [castSucc_eq_iff hk hbn]
  · have hne : k ≠ bn := by omega
    rw [blockOf_indirect hk, blockOf_indirect hk, if_neg hne,
      Function.update_of_ne (castSucc_ne_INDIRECT hbn).symm]

/-- A new indirect block, all zeros, holds no block of the file. -/
theorem blockOf_update_indirect {a : Fin (NDIRECT + 1) → Nat} (h0 : a INDIRECT = 0) {x : Nat}
    (hz : ∀ j < BSIZE, d' (x * BSIZE + j) = 0) {k : Nat} (hk : k < MAXFILE) :
    blockOf d' (Function.update a INDIRECT x) k = blockOf d a k := by
  by_cases hd : k < NDIRECT
  · rw [blockOf_direct hd, blockOf_direct hd, Function.update_of_ne (castSucc_ne_INDIRECT hd)]
  · rw [blockOf_indirect hd, blockOf_indirect hd, Function.update_self, h0, if_pos rfl]
    have hb : 4 * (k - NDIRECT) + 4 ≤ BSIZE := by
      unfold MAXFILE NINDIRECT at hk
      unfold BSIZE at *
      omega
    have hread : readLE d' (x * BSIZE + 4 * (k - NDIRECT)) 4 =
        readLE (fun _ => 0) (x * BSIZE + 4 * (k - NDIRECT)) 4 :=
      readLE_congr 4 fun y h1 h2 => by
        obtain ⟨j, rfl⟩ := Nat.exists_eq_add_of_le (Nat.le_trans (Nat.le_add_right _ _) h1)
        exact hz j (by omega)
    rw [read32, hread, readLE_zero]
    split_ifs <;> rfl

/-- Storing an entry of the indirect block changes that one block of the file. -/
theorem blockOf_writeEntry {a : Fin (NDIRECT + 1) → Nat} (hind : a INDIRECT ≠ 0) {bn : Nat}
    (hbn : NDIRECT ≤ bn) {x : Nat} (hx : x < 2 ^ 32) (k : Nat) :
    blockOf (writeLE d (a INDIRECT * BSIZE + 4 * (bn - NDIRECT)) x 4) a k =
      if k = bn then x else blockOf d a k := by
  by_cases hd : k < NDIRECT
  · rw [blockOf_direct hd, blockOf_direct hd, if_neg (by omega)]
  · rw [blockOf_indirect hd, blockOf_indirect hd, if_neg hind, if_neg hind]
    split_ifs with hkb
    · subst hkb
      rw [read32, readLE_writeLE_self]
      exact Nat.mod_eq_of_lt (by simpa using hx)
    · exact readLE_of_disjoint (fun _ hy => writeLE_of_outside hy) (by omega)

/-- An empty slot given a free block keeps a file well formed. -/
theorem FileOk.update (h : FileOk sb d i) {k0 x : Nat} (hx : Fresh sb d x) (hsb : SbOk sb)
    (hslot : ∀ k ≤ MAXFILE, slotOf d' i' k = if k = k0 then x else slotOf d i k)
    (hused : ∀ y < sb.size, used sb d' y = (decide (y = x) || used sb d y))
    (hsize : i'.size = i.size) : FileOk sb d' i' := by
  have hx0 := hx.ne_zero hsb
  have hheld : ∀ b, Held sb d b → Held sb d' b := fun b hb =>
    ⟨hb.1, hb.2.1, by rw [hused b hb.2.1, hb.2.2, Bool.or_true]⟩
  have hnew : Held sb d' x := ⟨hx.1, hx.2.1, by rw [hused x hx.2.1]; simp⟩
  refine ⟨fun k hk hne => ?_, fun k hk k' hk' hne heq => ?_, fun bn hbn => ?_, hsize ▸ h.size_le⟩
  · rw [hslot k hk] at hne ⊢
    split_ifs with hkk
    · exact hnew
    · rw [if_neg hkk] at hne
      exact hheld _ (h.held k hk hne)
  · rw [hslot k hk] at hne heq
    rw [hslot k' hk'] at heq
    by_cases hkk : k = k0 <;> by_cases hkk' : k' = k0
    · rw [hkk, hkk']
    · rw [if_pos hkk, if_neg hkk'] at heq
      have hne' : slotOf d i k' ≠ 0 := heq ▸ hx0
      exact absurd heq.symm ((h.held k' hk' hne').fresh_ne hx)
    · rw [if_neg hkk, if_pos hkk'] at heq
      rw [if_neg hkk] at hne
      exact absurd heq ((h.held k hk hne).fresh_ne hx)
    · rw [if_neg hkk, if_neg hkk'] at heq
      rw [if_neg hkk] at hne
      exact h.inj k hk k' hk' hne heq
  · have hlt : bn < MAXFILE := by
      have := h.size_le
      rw [← hsize] at this
      exact (Nat.mul_lt_mul_right (by decide : 0 < BSIZE)).mp (Nat.lt_of_lt_of_le hbn this)
    have e : slotOf d' i' bn = blockOf d' i'.addrs bn := by rw [slotOf, if_pos hlt]
    rw [← e, hslot bn hlt.le]
    split_ifs with hb
    · exact hx0
    · have e' : slotOf d i bn = blockOf d i.addrs bn := by rw [slotOf, if_pos hlt]
      rw [e']
      exact h.dense bn (hsize ▸ hbn)

/-- An empty slot given a free block grows the file. -/
theorem Grows.of_update {k0 x : Nat} (hx : Fresh sb d x)
    (hslot : ∀ k ≤ MAXFILE, slotOf d' i' k = if k = k0 then x else slotOf d i k)
    (hused : ∀ y < sb.size, Xv6.used sb d' y = (decide (y = x) || Xv6.used sb d y))
    (hkeeps : Keeps (Touches sb d i) d d') : Grows sb d i d' i' := by
  refine ⟨fun y hy hu => by rw [hused y hy, hu, Bool.or_true], fun b hb => ?_, hkeeps⟩
  obtain ⟨hne, k, hk, hkb⟩ := hb
  rw [hslot k hk] at hkb
  split_ifs at hkb with hkk
  · exact .inr (hkb ▸ hx)
  · exact .inl ⟨hne, k, hk, hkb⟩

/-- A write inside a data block leaves the bitmap. -/
theorem used_writeLE_data (hsb : SbOk sb) {ind : Nat} (hind : dataStart sb ≤ ind) {o v : Nat}
    {y : Nat} (hy : y < sb.size) : used sb (writeLE d (ind * BSIZE + o) v 4) y = used sb d y := by
  refine used_of_keeps (keeps_writeLE d _ v 4) fun ⟨h1, _⟩ => ?_
  have hb := (hsb.bitmapArea_bit hy).2
  have : dataStart sb * BSIZE ≤ ind * BSIZE := Nat.mul_le_mul_right _ hind
  omega

/-- The blocks of a file once a direct slot is given the free block `x`. -/
theorem slotOf_allocDirect (h : FileOk sb d i) (hsb : SbOk sb) {x : Nat} (hx : Fresh sb d x)
    {bn : Nat} (hbn : bn < NDIRECT) :
    ∀ k ≤ MAXFILE, slotOf (allocDisk sb d x) (i.setAddr (Fin.castSucc ⟨bn, hbn⟩) x) k =
      if k = bn then x else slotOf d i k := by
  intro k hk
  have hkeep : Keeps (fun a => BitmapArea sb a ∨ a / BSIZE = x) d (allocDisk sb d x) :=
    keeps_allocDisk hsb hx.2.1
  have hind : i.addrs INDIRECT ≠ 0 → ∀ a, a / BSIZE = i.addrs INDIRECT →
      ¬ (BitmapArea sb a ∨ a / BSIZE = x) := fun h0 a ha => by
    have hh := h.held_ind h0
    rintro (hb | hb)
    · exact hh.not_bitmapArea ha hb
    · exact hh.fresh_ne hx (ha ▸ hb)
  unfold slotOf
  by_cases hkm : k < MAXFILE
  · rw [if_pos hkm, if_pos hkm, Inode.setAddr_addrs, blockOf_update_direct]
    split_ifs
    · rfl
    · exact blockOf_of_keeps hkeep hind hkm
  · have hne : k ≠ bn := by unfold MAXFILE at hkm; omega
    rw [if_neg hkm, if_neg hkm, if_neg hne, Inode.setAddr_addrs,
      Function.update_of_ne (castSucc_ne_INDIRECT hbn).symm]

/-- The blocks of a file once it is given the free block `x` as its indirect block. -/
theorem slotOf_allocInd {x : Nat} (h0 : i.addrs INDIRECT = 0) :
    ∀ k ≤ MAXFILE, slotOf (allocDisk sb d x) (i.setAddr INDIRECT x) k =
      if k = MAXFILE then x else slotOf d i k := by
  intro k hk
  unfold slotOf
  by_cases hkm : k < MAXFILE
  · rw [if_pos hkm, if_pos hkm, if_neg hkm.ne, Inode.setAddr_addrs]
    exact blockOf_update_indirect h0 (fun j hj => allocDisk_of_block d hj) hkm
  · have hk' : k = MAXFILE := by omega
    rw [if_neg hkm, if_neg hkm, if_pos hk', Inode.setAddr_addrs, Function.update_self]

/-- The blocks of a file once entry `bn` of its indirect block is given the free block `x`. -/
theorem slotOf_allocEntry (h : FileOk sb d i) (hsb : SbOk sb) {x : Nat} (hx : Fresh sb d x)
    (hind : i.addrs INDIRECT ≠ 0) {bn : Nat} (hbn : NDIRECT ≤ bn) (hbn' : bn < MAXFILE) :
    ∀ k ≤ MAXFILE,
      slotOf (writeLE (allocDisk sb d x) (i.addrs INDIRECT * BSIZE + 4 * (bn - NDIRECT)) x 4) i k =
        if k = bn then x else slotOf d i k := by
  intro k hk
  have hkeep : Keeps (fun a => BitmapArea sb a ∨ a / BSIZE = x) d (allocDisk sb d x) :=
    keeps_allocDisk hsb hx.2.1
  have hh := h.held_ind hind
  have hind' : i.addrs INDIRECT ≠ 0 → ∀ a, a / BSIZE = i.addrs INDIRECT →
      ¬ (BitmapArea sb a ∨ a / BSIZE = x) := fun _ a ha => by
    rintro (hb | hb)
    · exact hh.not_bitmapArea ha hb
    · exact hh.fresh_ne hx (ha ▸ hb)
  have hx32 : x < 2 ^ 32 := Nat.lt_trans hx.2.1 hsb.size_lt
  unfold slotOf
  by_cases hkm : k < MAXFILE
  · rw [if_pos hkm, if_pos hkm, blockOf_writeEntry hind hbn hx32]
    split_ifs
    · rfl
    · exact blockOf_of_keeps hkeep hind' hkm
  · have hne : k ≠ bn := by omega
    rw [if_neg hkm, if_neg hkm, if_neg hne]

/-- Taking a free block writes only bytes that a change to the file may write. -/
theorem keeps_alloc_touches (hsb : SbOk sb) {x : Nat} (hx : Fresh sb d x) :
    Keeps (Touches sb d i) d (allocDisk sb d x) :=
  (keeps_allocDisk hsb hx.2.1).mono fun _ ha => ha.elim .inl fun h => .inr (.inl (h ▸ hx))

end Steps

/-! ### `bmap` -/

/-- `s'` is `s` after blocks were taken for `ip`: only `ip`'s addresses changed, the file grew
and is still well formed, and the metadata blocks are still marked. -/
structure Extends (sb : Superblock) (ip : Fin NINODE) (s s' : FsState) : Prop where
  mem : s'.mem = s.mem
  others : ∀ j, j ≠ ip → s'.inode j = s.inode j
  fields : s'.inode ip = { s.inode ip with addrs := (s'.inode ip).addrs }
  ok : FileOk sb s'.disk (s'.inode ip)
  metaUsed : MetaUsed sb s'.disk
  grows : Grows sb s.disk (s.inode ip) s'.disk (s'.inode ip)

section Bmap

variable {sb : Superblock} {ip : Fin NINODE} {s s₁ s₂ : FsState}

theorem Extends.refl (hok : FileOk sb s.disk (s.inode ip)) (hm : MetaUsed sb s.disk) :
    Extends sb ip s s :=
  ⟨rfl, fun _ _ => rfl, rfl, hok, hm, Grows.refl _ _ _⟩

theorem Extends.trans (h : Extends sb ip s s₁) (h' : Extends sb ip s₁ s₂) : Extends sb ip s s₂ := by
  refine ⟨h'.mem.trans h.mem, fun j hj => (h'.others j hj).trans (h.others j hj), ?_, h'.ok, h'.metaUsed,
    h.grows.trans h'.grows⟩
  conv_lhs => rw [h'.fields, h.fields]

/-- An empty slot of `ip` given a free block, with the rest of the state as it was. -/
theorem Extends.of_update (hok : FileOk sb s.disk (s.inode ip)) (hsb : SbOk sb)
    (hm : MetaUsed sb s.disk) (k0 : Nat) {x : Nat} (hx : Fresh sb s.disk x)
    (hslot : ∀ k ≤ MAXFILE, slotOf s₁.disk (s₁.inode ip) k =
      if k = k0 then x else slotOf s.disk (s.inode ip) k)
    (hused : ∀ y < sb.size, used sb s₁.disk y = (decide (y = x) || used sb s.disk y))
    (hkeeps : Keeps (Touches sb s.disk (s.inode ip)) s.disk s₁.disk) (hmem : s₁.mem = s.mem)
    (hothers : ∀ j, j ≠ ip → s₁.inode j = s.inode j)
    (hfields : s₁.inode ip = { s.inode ip with addrs := (s₁.inode ip).addrs }) :
    Extends sb ip s s₁ := by
  have hsize : (s₁.inode ip).size = (s.inode ip).size := by rw [hfields]
  refine ⟨hmem, hothers, hfields, hok.update hx hsb hslot hused hsize, fun y hy => ?_,
    Grows.of_update hx hslot hused hkeeps⟩
  rw [hused y (Nat.lt_of_lt_of_le hy (dataStart_le sb)), hm y hy, Bool.or_true]

theorem slotOf_eq_blockOf {d : Memory} {i : Inode} {k : Nat} (hk : k < MAXFILE) :
    slotOf d i k = blockOf d i.addrs k := by
  rw [slotOf, if_pos hk]

theorem extends_allocDirect (hok : FileOk sb s.disk (s.inode ip)) (hsb : SbOk sb)
    (hm : MetaUsed sb s.disk) {x : Nat} (hx : Fresh sb s.disk x) {bn : Nat} (hbn : bn < NDIRECT) :
    Extends sb ip s (({ s with disk := allocDisk sb s.disk x } : FsState).setInode ip
      (·.setAddr (Fin.castSucc ⟨bn, hbn⟩) x)) := by
  refine Extends.of_update hok hsb hm bn hx (fun k hk => ?_)
    (fun y hy => used_allocDisk_of_fresh hsb hx hy) (keeps_alloc_touches hsb hx) rfl
    (fun j hj => FsState.setInode_of_ne _ _ hj) (by rw [FsState.setInode_self]; rfl)
  rw [FsState.setInode_disk, FsState.setInode_self]
  exact slotOf_allocDirect hok hsb hx hbn k hk

theorem extends_allocInd (hok : FileOk sb s.disk (s.inode ip)) (hsb : SbOk sb)
    (hm : MetaUsed sb s.disk) {x : Nat} (hx : Fresh sb s.disk x)
    (h0 : (s.inode ip).addrs INDIRECT = 0) :
    Extends sb ip s (({ s with disk := allocDisk sb s.disk x } : FsState).setInode ip
      (·.setAddr INDIRECT x)) := by
  refine Extends.of_update hok hsb hm MAXFILE hx (fun k hk => ?_)
    (fun y hy => used_allocDisk_of_fresh hsb hx hy) (keeps_alloc_touches hsb hx) rfl
    (fun j hj => FsState.setInode_of_ne _ _ hj) (by rw [FsState.setInode_self]; rfl)
  rw [FsState.setInode_disk, FsState.setInode_self]
  exact slotOf_allocInd h0 k hk

theorem extends_allocEntry (hok : FileOk sb s.disk (s.inode ip)) (hsb : SbOk sb)
    (hm : MetaUsed sb s.disk) {x : Nat} (hx : Fresh sb s.disk x)
    (hind : (s.inode ip).addrs INDIRECT ≠ 0) {bn : Nat} (hbn : NDIRECT ≤ bn) (hbn' : bn < MAXFILE) :
    Extends sb ip s { s with disk := (writeLE (allocDisk sb s.disk x)
      ((s.inode ip).addrs INDIRECT * BSIZE + 4 * (bn - NDIRECT)) x 4) } := by
  have hh := hok.held_ind hind
  have hkeep : Keeps (Touches sb s.disk (s.inode ip)) s.disk (writeLE (allocDisk sb s.disk x)
      ((s.inode ip).addrs INDIRECT * BSIZE + 4 * (bn - NDIRECT)) x 4) := by
    have ha : Keeps (Touches sb s.disk (s.inode ip)) s.disk (allocDisk sb s.disk x) :=
      keeps_alloc_touches hsb hx
    refine (ha.trans (keeps_writeLE _ _ x 4)).mono fun a ha => ?_
    rcases ha with ha | ⟨h1, h2⟩
    · exact ha
    · exact .inr (.inr ⟨(entry_mem hbn' _ h1 h2).symm ▸ hind, MAXFILE, le_rfl, by
        rw [entry_mem hbn' _ h1 h2, slotOf, if_neg (lt_irrefl _)]⟩)
  refine Extends.of_update hok hsb hm bn hx (slotOf_allocEntry hok hsb hx hind hbn hbn')
    (fun y hy => ?_) hkeep rfl (fun _ _ => rfl) rfl
  rw [used_writeLE_data hsb hh.1 hy]
  exact used_allocDisk_of_fresh hsb hx hy

/-! The runs of `bmap`, one lemma per way through it. -/

theorem bmapAddr_run_of_ne {k : Fin (NDIRECT + 1)} (h : (s.inode ip).addrs k ≠ 0) :
    (bmapAddr sb ip k).run s = .ok ((s.inode ip).addrs k, s) := by
  simp only [bmapAddr, StateT.run_bind, StateT.run_get, pure_bind, run_ite, if_pos h]
  rfl

theorem bmapAddr_run_of_zero {k : Fin (NDIRECT + 1)} (h : (s.inode ip).addrs k = 0) {x : Nat}
    (hb : (balloc sb).run s = .ok (x, s₁)) :
    (bmapAddr sb ip k).run s = .ok (x, if x ≠ 0 then s₁.setInode ip (·.setAddr k x) else s₁) := by
  simp only [bmapAddr, StateT.run_bind, StateT.run_get, pure_bind, run_ite, h, ne_eq,
    not_true_eq_false, if_false, hb, ok_bind]
  split_ifs <;> rfl

theorem bmap_run_direct {bn : Nat} (h : bn < NDIRECT) :
    (bmap sb ip bn).run s = (bmapAddr sb ip (Fin.castSucc ⟨bn, h⟩)).run s := by
  simp only [bmap, dif_pos h]

theorem bmap_run_ind_zero {bn : Nat} (hd : ¬ bn < NDIRECT) (hbn : bn - NDIRECT < NINDIRECT)
    (hi : (bmapAddr sb ip INDIRECT).run s = .ok (0, s₁)) : (bmap sb ip bn).run s = .ok (0, s₁) := by
  simp only [bmap, dif_neg hd, if_pos hbn, StateT.run_bind, hi, ok_bind]
  rfl

theorem bmap_run_entry {bn ind : Nat} (hd : ¬ bn < NDIRECT) (hbn : bn - NDIRECT < NINDIRECT)
    (hi : (bmapAddr sb ip INDIRECT).run s = .ok (ind, s₁)) (hind : ind ≠ 0)
    (he : read32 s₁.disk (ind * BSIZE + 4 * (bn - NDIRECT)) ≠ 0) :
    (bmap sb ip bn).run s = .ok (read32 s₁.disk (ind * BSIZE + 4 * (bn - NDIRECT)), s₁) := by
  simp only [bmap, dif_neg hd, if_pos hbn, StateT.run_bind, hi, ok_bind, if_neg hind,
    StateT.run_get, pure_bind, run_ite, if_pos he]
  rfl

theorem bmap_run_entry_alloc {bn ind x : Nat} (hd : ¬ bn < NDIRECT)
    (hbn : bn - NDIRECT < NINDIRECT) (hi : (bmapAddr sb ip INDIRECT).run s = .ok (ind, s₁))
    (hind : ind ≠ 0) (he : read32 s₁.disk (ind * BSIZE + 4 * (bn - NDIRECT)) = 0)
    (hb : (balloc sb).run s₁ = .ok (x, s₂)) :
    (bmap sb ip bn).run s = .ok (x, if x ≠ 0 then
      { s₂ with disk := writeLE s₂.disk (ind * BSIZE + 4 * (bn - NDIRECT)) x 4 } else s₂) := by
  simp only [bmap, dif_neg hd, if_pos hbn, StateT.run_bind, hi, ok_bind, if_neg hind,
    StateT.run_get, pure_bind, run_ite, he, ne_eq, not_true_eq_false, if_false, hb]
  split_ifs <;> rfl

/-- The bytes `bmap` may write: the bitmap, blocks that were free, and the file's indirect
block. -/
def BmapWrites (sb : Superblock) (d : Memory) (i : Inode) (a : Nat) : Prop :=
  BitmapArea sb a ∨ Fresh sb d (a / BSIZE) ∨ (i.addrs INDIRECT ≠ 0 ∧ a / BSIZE = i.addrs INDIRECT)

/-- What `bmap` for block `bn` of `ip` returns and leaves: the file extended, block `bn` of the
file the block returned (the block it had, if any), the file's other blocks as they were, no
data block of the file written, and 0 only from a full disk. -/
structure BmapPost (sb : Superblock) (ip : Fin NINODE) (s : FsState) (bn x : Nat)
    (s' : FsState) : Prop where
  ext : Extends sb ip s s'
  block : blockOf s'.disk (s'.inode ip).addrs bn = x
  rest : ∀ k < MAXFILE, k ≠ bn →
    blockOf s'.disk (s'.inode ip).addrs k = blockOf s.disk (s.inode ip).addrs k
  mapped : blockOf s.disk (s.inode ip).addrs bn ≠ 0 → s' = s
  data : Keeps (BmapWrites sb s.disk (s.inode ip)) s.disk s'.disk
  full : x = 0 → ∀ y < sb.size, used sb s'.disk y = true

theorem blocks_of_slots {d d' : Memory} {i i' : Inode} {k0 x : Nat}
    (hslot : ∀ k ≤ MAXFILE, slotOf d' i' k = if k = k0 then x else slotOf d i k) :
    ∀ k < MAXFILE, blockOf d' i'.addrs k = if k = k0 then x else blockOf d i.addrs k := by
  intro k hk
  have := hslot k hk.le
  rwa [slotOf_eq_blockOf hk, slotOf_eq_blockOf hk] at this

/-- Taking a free block for an entry of the indirect block `ind` writes the bitmap, the block
and the entry. -/
theorem keeps_allocEntry (hsb : SbOk sb) {d : Memory} {x : Nat} (hx : x < sb.size) {bn : Nat}
    (hbn : bn < MAXFILE) (ind : Nat) :
    Keeps (fun a => BitmapArea sb a ∨ a / BSIZE = x ∨ a / BSIZE = ind) d
      (writeLE (allocDisk sb d x) (ind * BSIZE + 4 * (bn - NDIRECT)) x 4) := by
  have ha : Keeps (fun a => BitmapArea sb a ∨ a / BSIZE = x) d (allocDisk sb d x) :=
    keeps_allocDisk hsb hx
  refine (ha.trans (keeps_writeLE _ _ x 4)).mono fun a h => ?_
  rcases h with (h | h) | ⟨h1, h2⟩
  · exact .inl h
  · exact .inr (.inl h)
  · exact .inr (.inr (entry_mem hbn ind h1 h2))

theorem BmapPost.of_blocks {bn x : Nat} (h : Extends sb ip s s₁) (hbn : bn < MAXFILE)
    (hblock : ∀ k < MAXFILE, blockOf s₁.disk (s₁.inode ip).addrs k =
      if k = bn then x else blockOf s.disk (s.inode ip).addrs k)
    (hmapped : blockOf s.disk (s.inode ip).addrs bn = 0)
    (hdata : Keeps (BmapWrites sb s.disk (s.inode ip)) s.disk s₁.disk)
    (hfull : x = 0 → ∀ y < sb.size, used sb s₁.disk y = true) : BmapPost sb ip s bn x s₁ :=
  ⟨h, by rw [hblock bn hbn, if_pos rfl], fun k hk hkb => by rw [hblock k hk, if_neg hkb],
    fun h0 => absurd hmapped h0, hdata, hfull⟩

theorem BmapPost.of_mapped {bn x : Nat} (hok : FileOk sb s.disk (s.inode ip))
    (hm : MetaUsed sb s.disk) (h : blockOf s.disk (s.inode ip).addrs bn = x) (hx : x ≠ 0) :
    BmapPost sb ip s bn x s :=
  ⟨Extends.refl hok hm, h, fun _ _ _ => rfl, fun _ => rfl, Keeps.refl _ _,
    fun h0 => absurd h0 hx⟩

theorem BmapPost.of_full {bn : Nat} (hok : FileOk sb s.disk (s.inode ip)) (hm : MetaUsed sb s.disk)
    (h : blockOf s.disk (s.inode ip).addrs bn = 0) (hfull : ∀ y < sb.size, used sb s.disk y = true) :
    BmapPost sb ip s bn 0 s :=
  ⟨Extends.refl hok hm, h, fun _ _ _ => rfl, fun _ => rfl, Keeps.refl _ _, fun _ => hfull⟩

/-- `bmap` on a well-formed file, for a block number below `MAXFILE`. -/
theorem bmap_spec (hok : FileOk sb s.disk (s.inode ip)) (hsb : SbOk sb) (hm : MetaUsed sb s.disk)
    {bn : Nat} (hbn : bn < MAXFILE) :
    ∃ x s', (bmap sb ip bn).run s = .ok (x, s') ∧ BmapPost sb ip s bn x s' := by
  by_cases hd : bn < NDIRECT
  · -- a direct block
    rw [bmap_run_direct hd]
    by_cases h0 : (s.inode ip).addrs (Fin.castSucc ⟨bn, hd⟩) = 0
    · have hz : blockOf s.disk (s.inode ip).addrs bn = 0 := by rw [blockOf_direct hd, h0]
      rcases balloc_run_of_meta hm with ⟨hfull, hb⟩ | ⟨x, hx, hb⟩
      · exact ⟨0, s, by rw [bmapAddr_run_of_zero h0 hb]; rfl, BmapPost.of_full hok hm hz hfull⟩
      · refine ⟨x, _, by rw [bmapAddr_run_of_zero h0 hb, if_pos (hx.ne_zero hsb)], ?_⟩
        have h1 : Extends sb ip s _ := extends_allocDirect hok hsb hm hx hd
        have hk : Keeps (fun a => BitmapArea sb a ∨ a / BSIZE = x) s.disk (allocDisk sb s.disk x) :=
          keeps_allocDisk hsb hx.2.1
        refine BmapPost.of_blocks h1 hbn (blocks_of_slots fun k hk => ?_) hz
          (hk.mono fun a ha => ha.elim .inl fun h => .inr (.inl (h ▸ hx)))
          fun h => absurd h (hx.ne_zero hsb)
        rw [FsState.setInode_disk, FsState.setInode_self]
        exact slotOf_allocDirect hok hsb hx hd k hk
    · exact ⟨_, s, bmapAddr_run_of_ne h0, BmapPost.of_mapped hok hm (blockOf_direct hd) h0⟩
  have hbn' : bn - NDIRECT < NINDIRECT := by unfold MAXFILE at hbn; omega
  have hge : NDIRECT ≤ bn := by omega
  by_cases hi0 : (s.inode ip).addrs INDIRECT = 0
  · have hz : blockOf s.disk (s.inode ip).addrs bn = 0 := by rw [blockOf_indirect hd, if_pos hi0]
    rcases balloc_run_of_meta hm with ⟨hfull, hb⟩ | ⟨x1, hx1, hb⟩
    · -- no indirect block, and no block for one
      exact ⟨0, s, bmap_run_ind_zero hd hbn' (by rw [bmapAddr_run_of_zero hi0 hb]; rfl),
        BmapPost.of_full hok hm hz hfull⟩
    have hx10 := hx1.ne_zero hsb
    set s₁ : FsState := ({ s with disk := allocDisk sb s.disk x1 } : FsState).setInode ip
      (·.setAddr INDIRECT x1) with hs₁
    have h1 : Extends sb ip s s₁ := extends_allocInd hok hsb hm hx1 hi0
    have hi : (bmapAddr sb ip INDIRECT).run s = .ok (x1, s₁) := by
      rw [bmapAddr_run_of_zero hi0 hb, if_pos hx10]
    have hind1 : (s₁.inode ip).addrs INDIRECT = x1 := by
      rw [hs₁, FsState.setInode_self, Inode.setAddr_addrs, Function.update_self]
    have hb1 : ∀ k < MAXFILE,
        blockOf s₁.disk (s₁.inode ip).addrs k = blockOf s.disk (s.inode ip).addrs k := by
      intro k hk
      have hsl : ∀ k ≤ MAXFILE, slotOf (allocDisk sb s.disk x1) ((s.inode ip).setAddr INDIRECT x1) k =
          if k = MAXFILE then x1 else slotOf s.disk (s.inode ip) k := slotOf_allocInd hi0
      have := blocks_of_slots hsl k hk
      rw [if_neg hk.ne] at this
      rw [hs₁, FsState.setInode_disk, FsState.setInode_self]
      exact this
    have hz1 : blockOf s₁.disk (s₁.inode ip).addrs bn = 0 := by rw [hb1 bn hbn, hz]
    have he : read32 s₁.disk (x1 * BSIZE + 4 * (bn - NDIRECT)) = 0 := by
      rw [← hz1, blockOf_indirect hd, hind1, if_neg hx10]
    have hk1 : Keeps (fun a => BitmapArea sb a ∨ a / BSIZE = x1) s.disk s₁.disk :=
      keeps_allocDisk hsb hx1.2.1
    rcases balloc_run_of_meta h1.metaUsed with ⟨hfull, hb2⟩ | ⟨x2, hx2, hb2⟩
    · refine ⟨0, s₁, by rw [bmap_run_entry_alloc hd hbn' hi hx10 he hb2, if_neg fun h => h rfl], ?_⟩
      refine BmapPost.of_blocks h1 hbn (fun k hk => ?_) hz
        (hk1.mono fun a ha => ha.elim .inl fun h => .inr (.inl (h ▸ hx1))) fun _ => hfull
      rw [hb1 k hk]
      split_ifs with hkb
      · rw [hkb, hz]
      · rfl
    · have hind' : (s₁.inode ip).addrs INDIRECT ≠ 0 := by rw [hind1]; exact hx10
      have h2 := extends_allocEntry h1.ok hsb h1.metaUsed hx2 hind' hge hbn
      have hs2 := blocks_of_slots (slotOf_allocEntry h1.ok hsb hx2 hind' hge hbn)
      have hk2 := keeps_allocEntry (d := s₁.disk) hsb hx2.2.1 hbn ((s₁.inode ip).addrs INDIRECT)
      refine ⟨x2, _, by rw [bmap_run_entry_alloc hd hbn' hi hx10 he hb2, if_pos (hx2.ne_zero hsb),
        ← hind1], BmapPost.of_blocks (h1.trans h2) hbn (fun k hk => ?_) hz
          ((hk1.trans hk2).mono fun a ha => ?_) fun h => absurd h (hx2.ne_zero hsb)⟩
      · rw [hs2 k hk]
        split_ifs with hkb
        · rfl
        · exact hb1 k hk
      · rcases ha with (hb | hb) | hb | hb | hb
        · exact .inl hb
        · exact .inr (.inl (hb ▸ hx1))
        · exact .inl hb
        · exact .inr (.inl (by rw [hb]; exact hx2.of_used h1.grows.used))
        · exact .inr (.inl (by rw [hb, hind1]; exact hx1))
  have hi : (bmapAddr sb ip INDIRECT).run s = .ok ((s.inode ip).addrs INDIRECT, s) :=
    bmapAddr_run_of_ne hi0
  have hbe : blockOf s.disk (s.inode ip).addrs bn =
      read32 s.disk ((s.inode ip).addrs INDIRECT * BSIZE + 4 * (bn - NDIRECT)) := by
    rw [blockOf_indirect hd, if_neg hi0]
  by_cases he : read32 s.disk ((s.inode ip).addrs INDIRECT * BSIZE + 4 * (bn - NDIRECT)) = 0
  · rcases balloc_run_of_meta hm with ⟨hfull, hb⟩ | ⟨x, hx, hb⟩
    · exact ⟨0, s, by rw [bmap_run_entry_alloc hd hbn' hi hi0 he hb]; rfl,
        BmapPost.of_full hok hm (hbe.trans he) hfull⟩
    · refine ⟨x, _, by rw [bmap_run_entry_alloc hd hbn' hi hi0 he hb, if_pos (hx.ne_zero hsb)], ?_⟩
      have hk := keeps_allocEntry (d := s.disk) hsb hx.2.1 hbn ((s.inode ip).addrs INDIRECT)
      exact BmapPost.of_blocks (extends_allocEntry hok hsb hm hx hi0 hge hbn) hbn
        (blocks_of_slots (slotOf_allocEntry hok hsb hx hi0 hge hbn)) (hbe.trans he)
        (hk.mono fun a ha => ha.elim .inl fun h => h.elim (fun h => .inr (.inl (h ▸ hx)))
          fun h => .inr (.inr ⟨hi0, h⟩))
        fun h => absurd h (hx.ne_zero hsb)
  · exact ⟨_, s, bmap_run_entry hd hbn' hi hi0 he, BmapPost.of_mapped hok hm hbe he⟩

end Bmap

/-- An empty regular file, inode 1 of device 1, open and loaded. -/
def emptyFile : Inode := ⟨ROOTDEV, 1, 1, true, T_FILE, 0, 0, 1, 0, fun _ => 0⟩

/-- The file-system state on `mkfsDisk` with every entry of the inode table an empty file. -/
def mkfsState : FsState := ⟨mkfsDisk, fun _ => 0, fun _ => emptyFile⟩

theorem bmap_spec_mkfs :
    ∃ x s', (bmap mkfsSb 0 0).run mkfsState = .ok (x, s') ∧ BmapPost mkfsSb 0 mkfsState 0 x s' :=
  bmap_spec (FileOk.empty (fun _ => rfl) rfl) mkfsSb_ok mkfsDisk_metaUsed (by decide)

end Xv6