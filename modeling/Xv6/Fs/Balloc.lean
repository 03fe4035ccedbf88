import Xv6.Fs.Layout
/-! The block allocator of `fs.c`: `balloc` and `bfree` over the free bitmap, one bit per block
of the file system and `BPB` bits to a bitmap block. `balloc` scans the bitmap one bitmap
block at a time, and the block it returns is the lowest-numbered free block below `sb.size`:
its two nested loops are a first-fit search over the whole range (`balloc_first_fit`). `bfree`
clears one bit, and stops the kernel when the bit was already clear. -/
namespace Xv6
open ByteMem StateExcept

section Model

variable (sb : Superblock)

/-- Whether block `b` is in use: its bit in the free bitmap. -/
def used (disk : Memory) (b : Nat) : Bool := Bitmap.get disk (BBLOCK b sb * BSIZE) (b % BPB)

/-- The inner loop of `balloc`, `for(bi = 0; bi < BPB && b + bi < sb.size; bi++)`, over the
bitmap block of the blocks from `b`, from bit `bi` with at most `fuel` bits left: the first
bit that is clear. -/
def ballocBit (disk : Memory) (b : Nat) : Nat → Nat → Option Nat
  | _, 0 => none
  | bi, fuel + 1 =>
    if bi < BPB ∧ b + bi < sb.size then
      if Bitmap.get disk (BBLOCK b sb * BSIZE) bi = false then some bi
      else ballocBit disk b (bi + 1) fuel
    else none

/-- The outer loop of `balloc`, `for(b = 0; b < sb.size; b += BPB)`, from `b`: the block
found has its bit set and is zeroed (`bzero`); 0 means that there was none. -/
def ballocLoop : Nat → Nat → FsM Nat
  | _, 0 => return 0
  | b, fuel + 1 => do
    if b < sb.size then
      match ballocBit sb (← get).disk b 0 BPB with
      | some bi =>
        modify fun s => { s with disk := Bitmap.set s.disk (BBLOCK b sb * BSIZE) bi }
        bzero (b + bi)
        return b + bi
      | none => ballocLoop (b + BPB) fuel
    else return 0

/-- `balloc(dev)`: its outer loop runs at most `sb.size / BPB + 1` times. -/
def balloc : FsM Nat := ballocLoop sb 0 (sb.size / BPB + 1)

/-- `bfree(dev, b)`. -/
def bfree (b : Nat) : FsM Unit := do
  let bi := b % BPB
  if Bitmap.get (← get).disk (BBLOCK b sb * BSIZE) bi = false then throw "freeing free block"
  modify fun s => { s with disk := Bitmap.clear s.disk (BBLOCK b sb * BSIZE) bi }

/-- The lowest-numbered free block below `sb.size`, if any. -/
def firstFree (disk : Memory) : Option Nat := (List.range sb.size).find? fun b => !used sb disk b

/-- The disk once `balloc` has taken block `x`: its bit set and the block zeroed. -/
def allocDisk (disk : Memory) (x : Nat) : Memory :=
  fill (Bitmap.set disk (BBLOCK x sb * BSIZE) (x % BPB)) (x * BSIZE) BSIZE 0

/-- The disk once `bfree` has given back block `b`. -/
def freeDisk (disk : Memory) (b : Nat) : Memory := Bitmap.clear disk (BBLOCK b sb * BSIZE) (b % BPB)

/-- The disk once `bfree` has given back the blocks `bs`, in order. -/
def freeAll (disk : Memory) (bs : List Nat) : Memory := bs.foldl (freeDisk sb) disk

end Model

section Bits

variable {sb : Superblock} {disk : Memory}

/-- The byte of the bitmap that holds the bit of block `b`. -/
theorem bitByte_lt (b : Nat) : b % BPB / 8 < BSIZE := by
  unfold BPB BSIZE
  omega

/-- Bits in different bitmap blocks are in different bytes. -/
theorem bitByte_ne {b y : Nat} (h : BBLOCK y sb ≠ BBLOCK b sb) :
    BBLOCK y sb * BSIZE + y % BPB / 8 ≠ BBLOCK b sb * BSIZE + b % BPB / 8 := by
  have hy := bitByte_lt y
  have hb := bitByte_lt b
  unfold BSIZE at *
  omega

/-- Within one bitmap block, the bit `bi` is the bit of block `b + bi`. -/
theorem used_add {b bi : Nat} (hb : b % BPB = 0) (hbi : bi < BPB) :
    used sb disk (b + bi) = Bitmap.get disk (BBLOCK b sb * BSIZE) bi := by
  have h1 : BBLOCK (b + bi) sb = BBLOCK b sb := by
    unfold BBLOCK
    congr 1
    unfold BPB BSIZE at *
    omega
  have h2 : (b + bi) % BPB = bi := by
    unfold BPB BSIZE at *
    omega
  rw [used, h1, h2]

/-- A store that leaves the byte holding a block's bit leaves the bit. -/
theorem used_of_keeps {W : Nat → Prop} {disk' : Memory} (h : Keeps W disk disk') {y : Nat}
    (hy : ¬ W (BBLOCK y sb * BSIZE + y % BPB / 8)) : used sb disk' y = used sb disk y :=
  Bitmap.get_congr (h _ hy)

/-- Two blocks with their bits in one bitmap block are equal when their bits are. -/
theorem eq_iff_of_BBLOCK_eq {b y : Nat} (h : BBLOCK y sb = BBLOCK b sb) :
    y = b ↔ y % BPB = b % BPB := by
  unfold BBLOCK at h
  have h' : y / BPB = b / BPB := by omega
  constructor
  · intro hyb
    rw [hyb]
  · intro hm
    rw [← Nat.div_add_mod y BPB, ← Nat.div_add_mod b BPB, h', hm]

theorem used_set (disk : Memory) (b y : Nat) :
    used sb (Bitmap.set disk (BBLOCK b sb * BSIZE) (b % BPB)) y = (decide (y = b) || used sb disk y) := by
  by_cases hbb : BBLOCK y sb = BBLOCK b sb
  · rw [used, hbb, Bitmap.get_set, used, hbb]
    simp only [eq_iff_of_BBLOCK_eq hbb]
  · have hne : y ≠ b := fun h => hbb (by rw [h])
    rw [used_of_keeps (Bitmap.keeps_set _ _ _) (bitByte_ne hbb)]
    simp [hne]

/-- Giving back block `b` clears its bit and leaves the others. -/
theorem used_freeDisk (disk : Memory) (b y : Nat) :
    used sb (freeDisk sb disk b) y = (!decide (y = b) && used sb disk y) := by
  by_cases hbb : BBLOCK y sb = BBLOCK b sb
  · rw [freeDisk, used, hbb, Bitmap.get_clear, used, hbb]
    simp only [eq_iff_of_BBLOCK_eq hbb]
  · have hne : y ≠ b := fun h => hbb (by rw [h])
    rw [freeDisk, used_of_keeps (Bitmap.keeps_clear _ _ _) (bitByte_ne hbb)]
    simp [hne]

/-- Giving back a list of blocks clears their bits and leaves the others. -/
theorem used_freeAll (disk : Memory) (bs : List Nat) (y : Nat) :
    used sb (freeAll sb disk bs) y = (used sb disk y && !decide (y ∈ bs)) := by
  induction bs generalizing disk with
  | nil => simp [freeAll]
  | cons b bs ih =>
    show used sb (freeAll sb (freeDisk sb disk b) bs) y = _
    rw [ih, used_freeDisk]
    by_cases h : y = b <;> simp [h]

theorem freeAll_append (disk : Memory) (l₁ l₂ : List Nat) :
    freeAll sb disk (l₁ ++ l₂) = freeAll sb (freeAll sb disk l₁) l₂ :=
  List.foldl_append

/-- Taking block `x` sets its bit and leaves the others, unless `x` is itself the bitmap block
holding the bit looked at. -/
theorem used_allocDisk (disk : Memory) {x y : Nat} (hx : x ≠ BBLOCK y sb) :
    used sb (allocDisk sb disk x) y = (decide (y = x) || used sb disk y) := by
  have hk := keeps_fill (Bitmap.set disk (BBLOCK x sb * BSIZE) (x % BPB)) (x * BSIZE) BSIZE 0
  have hlt := bitByte_lt y
  have hout : ¬ (x * BSIZE ≤ BBLOCK y sb * BSIZE + y % BPB / 8 ∧
      BBLOCK y sb * BSIZE + y % BPB / 8 < x * BSIZE + BSIZE) := by
    unfold BSIZE at *
    omega
  rw [allocDisk, used_of_keeps hk hout, used_set]

end Bits

section Run

variable {sb : Superblock} {s : FsState}

theorem firstFree_eq_some {disk : Memory} {x : Nat} :
    firstFree sb disk = some x ↔
      x < sb.size ∧ used sb disk x = false ∧ ∀ y < x, used sb disk y = true := by
  simp [firstFree, List.find?_range_eq_some]
  tauto

theorem firstFree_eq_none {disk : Memory} :
    firstFree sb disk = none ↔ ∀ y < sb.size, used sb disk y = true := by
  simp [firstFree]

/-- The inner loop finds nothing where every block it looks at is in use. -/
theorem ballocBit_of_used {b : Nat} (hb : b % BPB = 0) :
    ∀ fuel bi, (∀ k, bi ≤ k → k < BPB → b + k < sb.size → used sb s.disk (b + k) = true) →
      ballocBit sb s.disk b bi fuel = none
  | 0, _, _ => rfl
  | fuel + 1, bi, h => by
    rw [ballocBit]
    split_ifs with hg hf
    · rw [← used_add hb hg.1, h bi le_rfl hg.1 hg.2] at hf
      cases hf
    · exact ballocBit_of_used hb fuel (bi + 1) fun k h1 h2 h3 => h k (by omega) h2 h3
    · rfl

/-- The inner loop stops at the first clear bit. -/
theorem ballocBit_of_free {b k : Nat} (hb : b % BPB = 0) (hk : k < BPB) (hks : b + k < sb.size)
    (hfree : used sb s.disk (b + k) = false) :
    ∀ fuel bi, bi ≤ k → k < bi + fuel → (∀ j, bi ≤ j → j < k → used sb s.disk (b + j) = true) →
      ballocBit sb s.disk b bi fuel = some k
  | 0, _, _, h, _ => by omega
  | fuel + 1, bi, hbi, hfuel, hused => by
    have hg : bi < BPB ∧ b + bi < sb.size := ⟨by omega, by omega⟩
    rw [ballocBit, if_pos hg]
    rcases Nat.lt_or_ge bi k with hlt | hge
    · rw [← used_add hb hg.1, hused bi le_rfl hlt]
      exact ballocBit_of_free hb hk hks hfree fuel (bi + 1) hlt (by omega)
        fun j h1 h2 => hused j (by omega) h2
    · have hbk : bi = k := by omega
      subst hbk
      rw [← used_add hb hg.1, hfree, if_pos rfl]

/-- Where every block from `b` on is in use, the outer loop returns 0 and changes nothing. -/
theorem ballocLoop_run_full :
    ∀ fuel b, b % BPB = 0 → (∀ y, b ≤ y → y < sb.size → used sb s.disk y = true) →
      (ballocLoop sb b fuel).run s = .ok (0, s)
  | 0, _, _, _ => rfl
  | fuel + 1, b, hb, h => by
    rw [ballocLoop]
    by_cases hbs : b < sb.size
    · have hnone : ballocBit sb s.disk b 0 BPB = none :=
        ballocBit_of_used hb BPB 0 fun k _ hk hks => h (b + k) (by omega) hks
      have hb' : (b + BPB) % BPB = 0 := by
        rw [Nat.add_mod_right]
        exact hb
      simp only [StateT.run_bind, StateT.run_get, pure_bind, if_pos hbs, hnone]
      exact ballocLoop_run_full fuel (b + BPB) hb' fun y h1 h2 => h y (by omega) h2
    · simp only [if_neg hbs]
      rfl

/-- The outer loop returns the lowest-numbered free block when it reaches it. -/
theorem ballocLoop_run_found {x : Nat} (hx : firstFree sb s.disk = some x) :
    ∀ fuel b, b % BPB = 0 → b ≤ x → x < b + fuel * BPB →
      (ballocLoop sb b fuel).run s = .ok (x, { s with disk := allocDisk sb s.disk x })
  | 0, _, _, h1, h2 => by omega
  | fuel + 1, b, hb, h1, h2 => by
    obtain ⟨hxs, hfree, hbefore⟩ := firstFree_eq_some.mp hx
    have hbs : b < sb.size := by omega
    rw [ballocLoop]
    simp only [StateT.run_bind, StateT.run_get, pure_bind, if_pos hbs]
    rcases Nat.lt_or_ge x (b + BPB) with hin | hout
    · -- `x` is in this bitmap block: the inner loop stops at its bit
      have hk : b + (x - b) = x := by omega
      have hsome : ballocBit sb s.disk b 0 BPB = some (x - b) :=
        ballocBit_of_free hb (by omega) (by omega) (by rw [hk]; exact hfree) BPB 0
          (Nat.zero_le _) (by omega) fun j _ hj => hbefore (b + j) (by omega)
      have hbb : BBLOCK b sb = BBLOCK x sb := by
        unfold BBLOCK
        congr 1
        unfold BPB BSIZE at *
        omega
      have hmod : x - b = x % BPB := by
        unfold BPB BSIZE at *
        omega
      simp only [hsome, bzero, memset_eq_fill, hk]
      rw [hbb, hmod]
      rfl
    · have hnone : ballocBit sb s.disk b 0 BPB = none :=
        ballocBit_of_used hb BPB 0 fun k _ hk _ => hbefore (b + k) (by omega)
      have hb' : (b + BPB) % BPB = 0 := by
        rw [Nat.add_mod_right]
        exact hb
      simp only [hnone]
      exact ballocLoop_run_found hx fuel (b + BPB) hb' hout (by rw [Nat.add_mul] at h2; omega)

end Run

/-- `balloc` is a first-fit allocator over the whole bitmap: it returns the lowest-numbered
free block below `sb.size`, with its bit set and the block zeroed, and returns 0 and changes
nothing when every block is in use. -/
theorem balloc_first_fit (sb : Superblock) (s : FsState) :
    (balloc sb).run s = match firstFree sb s.disk with
      | some x => .ok (x, { s with disk := allocDisk sb s.disk x })
      | none => .ok (0, s) := by
  cases hf : firstFree sb s.disk with
  | some x =>
    have hxs := (firstFree_eq_some.mp hf).1
    refine ballocLoop_run_found hf _ 0 (Nat.zero_mod _) (Nat.zero_le x) ?_
    have hpos : 0 < BPB := by decide
    have hdiv : sb.size < sb.size / BPB * BPB + BPB := Nat.lt_div_mul_add hpos
    rw [Nat.zero_add, Nat.add_mul, Nat.one_mul]
    omega
  | none =>
    exact ballocLoop_run_full _ 0 (Nat.zero_mod _) fun y _ hy => firstFree_eq_none.mp hf y hy

/-! ### The allocator on a well-formed disk -/

/-- The first block of the data area, after the boot block, the superblock, the log, the inode
blocks and the bitmap. -/
def dataStart (sb : Superblock) : Nat := sb.size - sb.nblocks

/-- The bytes of the bitmap blocks. -/
def BitmapArea (sb : Superblock) (x : Nat) : Prop :=
  sb.bmapstart * BSIZE ≤ x ∧ x < dataStart sb * BSIZE

/-- The layout `mkfs` gives a disk: inode blocks, then the bitmap, then the data blocks, with
block numbers that fit a `uint`. -/
structure SbOk (sb : Superblock) : Prop where
  inodes : sb.inodestart + sb.ninodes / IPB < sb.bmapstart
  bitmap : sb.bmapstart + sb.size / BPB < dataStart sb
  size_lt : sb.size < 2 ^ 32

/-- Every block before the data area is marked in use, as `mkfs` leaves it. -/
def MetaUsed (sb : Superblock) (disk : Memory) : Prop := ∀ y < dataStart sb, used sb disk y = true

/-- A data block that is free. -/
def Fresh (sb : Superblock) (disk : Memory) (x : Nat) : Prop :=
  dataStart sb ≤ x ∧ x < sb.size ∧ used sb disk x = false

section WellFormed

variable {sb : Superblock} {disk : Memory}

theorem SbOk.dataStart_pos (h : SbOk sb) : 0 < dataStart sb :=
  Nat.zero_lt_of_lt h.bitmap

theorem dataStart_le (sb : Superblock) : dataStart sb ≤ sb.size := by
  unfold dataStart
  omega

/-- The bitmap block of a block of the file system lies below the data area. -/
theorem SbOk.BBLOCK_lt (h : SbOk sb) {y : Nat} (hy : y < sb.size) : BBLOCK y sb < dataStart sb := by
  have hb := h.bitmap
  have hdiv : y / BPB ≤ sb.size / BPB := Nat.div_le_div_right hy.le
  unfold BBLOCK
  omega

theorem SbOk.bitmapArea_bit (h : SbOk sb) {y : Nat} (hy : y < sb.size) :
    BitmapArea sb (BBLOCK y sb * BSIZE + y % BPB / 8) := by
  have hlt := h.BBLOCK_lt hy
  have hb := bitByte_lt y
  have hge : sb.bmapstart ≤ BBLOCK y sb := Nat.le_add_left _ _
  constructor
  · calc sb.bmapstart * BSIZE ≤ BBLOCK y sb * BSIZE := Nat.mul_le_mul_right _ hge
      _ ≤ _ := Nat.le_add_right _ _
  · calc BBLOCK y sb * BSIZE + y % BPB / 8 < BBLOCK y sb * BSIZE + BSIZE := by omega
      _ = (BBLOCK y sb + 1) * BSIZE := by rw [Nat.succ_mul]
      _ ≤ dataStart sb * BSIZE := Nat.mul_le_mul_right _ hlt

theorem Fresh.ne_zero (hsb : SbOk sb) {x : Nat} (hx : Fresh sb disk x) : x ≠ 0 := by
  have := hsb.dataStart_pos
  have := hx.1
  omega

/-- Taking a free data block marks it and leaves every other bit of the file system. -/
theorem used_allocDisk_of_fresh (hsb : SbOk sb) {x y : Nat} (hx : Fresh sb disk x)
    (hy : y < sb.size) : used sb (allocDisk sb disk x) y = (decide (y = x) || used sb disk y) :=
  used_allocDisk disk (by have := hsb.BBLOCK_lt hy; have := hx.1; omega)

/-- Taking a block writes a bit of the bitmap and the block itself. -/
theorem keeps_allocDisk (hsb : SbOk sb) {x : Nat} (hx : x < sb.size) :
    Keeps (fun a => BitmapArea sb a ∨ a / BSIZE = x) disk (allocDisk sb disk x) := by
  have hs := Bitmap.keeps_set disk (BBLOCK x sb * BSIZE) (x % BPB)
  have hf := keeps_fill (Bitmap.set disk (BBLOCK x sb * BSIZE) (x % BPB)) (x * BSIZE) BSIZE 0
  refine (hs.trans hf).mono fun a ha => ?_
  rcases ha with rfl | ⟨h1, h2⟩
  · exact .inl (hsb.bitmapArea_bit hx)
  · refine .inr ?_
    unfold BSIZE at *
    omega

theorem allocDisk_of_block (disk : Memory) {x j : Nat} (hj : j < BSIZE) :
    allocDisk sb disk x (x * BSIZE + j) = 0 := by
  rw [allocDisk, fill_apply, if_pos ⟨Nat.le_add_right _ _, by omega⟩]

/-- Giving back blocks of the file system writes only the bitmap. -/
theorem keeps_freeDisk (hsb : SbOk sb) {b : Nat} (hb : b < sb.size) :
    Keeps (BitmapArea sb) disk (freeDisk sb disk b) :=
  (Bitmap.keeps_clear _ _ _).mono fun x hx => by
    rw [hx]
    exact hsb.bitmapArea_bit hb

theorem keeps_freeAll (hsb : SbOk sb) {bs : List Nat} (hb : ∀ b ∈ bs, b < sb.size) :
    Keeps (BitmapArea sb) disk (freeAll sb disk bs) := by
  induction bs generalizing disk with
  | nil => exact Keeps.refl _ _
  | cons b bs ih =>
    have h₁ : Keeps (BitmapArea sb) disk (freeDisk sb disk b) := keeps_freeDisk hsb (hb b (.head _))
    exact (h₁.trans (ih fun b' h => hb b' (.tail _ h))).mono fun _ h => h.elim id id

/-- On a disk whose metadata blocks are marked, `balloc` returns a free data block, or 0 when
the disk is full. -/
theorem balloc_run_of_meta {s : FsState} (hm : MetaUsed sb s.disk) :
    ((∀ y < sb.size, used sb s.disk y = true) ∧ (balloc sb).run s = .ok (0, s)) ∨
      ∃ x, Fresh sb s.disk x ∧
        (balloc sb).run s = .ok (x, { s with disk := allocDisk sb s.disk x }) := by
  rw [balloc_first_fit]
  cases hf : firstFree sb s.disk with
  | none => exact .inl ⟨firstFree_eq_none.mp hf, rfl⟩
  | some x =>
    obtain ⟨hxs, hfree, -⟩ := firstFree_eq_some.mp hf
    have hge : dataStart sb ≤ x := by
      by_contra hlt
      rw [hm x (by omega)] at hfree
      cases hfree
    exact .inr ⟨x, ⟨hge, hxs, hfree⟩, rfl⟩

end WellFormed

/-- `bfree` stops the kernel exactly when the block is already free. -/
theorem bfree_run (sb : Superblock) (s : FsState) (b : Nat) :
    (bfree sb b).run s =
      if used sb s.disk b then .ok ((), { s with disk := freeDisk sb s.disk b })
      else .error "freeing free block" := by
  by_cases h : used sb s.disk b
  · have h' : (Bitmap.get s.disk (BBLOCK b sb * BSIZE) (b % BPB) = false) = False := by
      rw [← used, h]
      simp
    simp only [bfree, StateT.run_bind, StateT.run_get, pure_bind, run_ite, h', if_false, if_pos h]
    rfl
  · have h' : Bitmap.get s.disk (BBLOCK b sb * BSIZE) (b % BPB) = false := by
      rw [← used]
      simpa using h
    simp only [bfree, StateT.run_bind, StateT.run_get, pure_bind, run_ite, h', if_true, if_neg h,
      run_throw, error_bind]

/-- The superblock `mkfs` writes for `FSSIZE` 2000 blocks, 200 inodes and a log of `LOGSIZE`
blocks: the boot block, the superblock, the log from block 2, 13 inode blocks from block 32
and one bitmap block, 45. -/
def mkfsSb : Superblock := ⟨FSMAGIC, 2000, 1954, 200, 30, 2, 32, 45⟩

theorem mkfsSb_ok : SbOk mkfsSb := ⟨by decide, by decide, by decide⟩

/-- A disk whose bitmap marks the first 48 blocks in use: the metadata blocks and two data
blocks, as `mkfs` leaves it with a root directory. -/
def mkfsDisk : Memory := fun x => if 45 * BSIZE ≤ x ∧ x < 45 * BSIZE + 6 then 0xFF else 0

theorem mkfsDisk_metaUsed : MetaUsed mkfsSb mkfsDisk := by
  unfold MetaUsed
  decide

end Xv6

