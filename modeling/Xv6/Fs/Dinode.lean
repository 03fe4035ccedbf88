import Xv6.Fs.ReadWrite

/-! The `struct dinode` format. `iupdate` stores an inode's fields, `short`s and `uint`s least
significant byte first, at `dinodeAddr`; `ilock` loads them back. When the fields fit their C
types the load gives what was stored, and a store to one inode's `struct dinode` leaves every
other's, since they are 64-byte slots one after another from `sb.inodestart`. -/
namespace Xv6
open ByteMem StateExcept

/-- The fields of an in-memory inode fit the `struct dinode`: four `short`s and `uint`s. -/
structure Inode.Fits (i : Inode) : Prop where
  type : -2 ^ 15 ≤ i.type ∧ i.type < 2 ^ 15
  major : -2 ^ 15 ≤ i.major ∧ i.major < 2 ^ 15
  minor : -2 ^ 15 ≤ i.minor ∧ i.minor < 2 ^ 15
  nlink : -2 ^ 15 ≤ i.nlink ∧ i.nlink < 2 ^ 15
  size : i.size < 2 ^ 32
  addrs : ∀ k, i.addrs k < 2 ^ 32

section Format

variable {d d' : Memory} {a : Nat}

theorem int16_short {x : Int} (h : -2 ^ 15 ≤ x ∧ x < 2 ^ 15) : int16 (short x % 256 ^ 2) = x := by
  unfold int16 short
  split <;> omega

theorem int16_bounds (x : Nat) : -2 ^ 15 ≤ int16 x ∧ int16 x < 2 ^ 15 := by
  unfold int16
  split <;> omega

theorem readLE_writeLE_of_disjoint (m : Memory) {a v n b k : Nat} (h : b + k ≤ a ∨ a + n ≤ b) :
    readLE (writeLE m a v n) b k = readLE m b k :=
  readLE_of_disjoint (fun _ hx => writeLE_of_outside hx) h

theorem readLE_writeAddrs_of_disjoint (m : Memory) {a b k : Nat} (addrs : Fin (NDIRECT + 1) → Nat)
    (h : b + k ≤ a ∨ a + 4 * (NDIRECT + 1) ≤ b) : readLE (writeAddrs m a addrs) b k = readLE m b k :=
  readLE_of_disjoint (fun x hx => keeps_writeAddrs m a addrs x (by omega)) h

/-- Slot `k` of the stored `addrs` reads back as the `uint` it was given. -/
theorem readLE_writeAddrs_self (m : Memory) (a : Nat) (addrs : Fin (NDIRECT + 1) → Nat)
    (k : Fin (NDIRECT + 1)) : readLE (writeAddrs m a addrs) (a + 4 * k) 4 = addrs k % 256 ^ 4 := by
  rw [← readLE_writeLE_self m (a + 4 * k) (addrs k) 4]
  refine readLE_congr 4 fun x h1 h2 => ?_
  have hk := k.isLt
  have hx : a ≤ x ∧ x < a + 4 * (NDIRECT + 1) := by unfold NDIRECT at *; omega
  have hq : (⟨(x - a) / 4, by omega⟩ : Fin (NDIRECT + 1)) = k := Fin.ext (by simp only; omega)
  have hr : (x - a) % 4 = x - (a + 4 * k) := by omega
  simp only [writeAddrs, writeLE, dif_pos hx, if_pos (And.intro h1 h2), hq, hr]

/-- `ilock` loads what `iupdate` stored, when it fits. -/
theorem readDinode_writeDinode (d : Memory) (a : Nat) {i : Inode} (hi : i.Fits) (j : Inode) :
    readDinode (writeDinode d a i) a j =
      { j with
        type := i.type
        major := i.major
        minor := i.minor
        nlink := i.nlink
        size := i.size
        addrs := i.addrs } := by
  simp (disch := omega) only [readDinode, writeDinode, read32, readLE_writeAddrs_of_disjoint,
    readLE_writeLE_of_disjoint, readLE_writeLE_self, readLE_writeAddrs_self]
  have hsize : i.size < 256 ^ 4 := hi.size
  have haddrs : ∀ k, i.addrs k < 256 ^ 4 := hi.addrs
  rw [int16_short hi.type, int16_short hi.major, int16_short hi.minor, int16_short hi.nlink,
    Nat.mod_eq_of_lt hsize]
  congr
  funext k
  exact Nat.mod_eq_of_lt (haddrs k)

/-- What `ilock` loads fits the `struct dinode`. -/
theorem readDinode_fits (d : Memory) (a : Nat) (j : Inode) : (readDinode d a j).Fits :=
  ⟨int16_bounds _, int16_bounds _, int16_bounds _, int16_bounds _, readLE_lt d (a + 8) 4,
    fun _ => readLE_lt d _ 4⟩

/-- A load reads only the 64 bytes of the `struct dinode`. -/
theorem readDinode_congr (h : ∀ x, a ≤ x → x < a + 64 → d' x = d x) (j : Inode) :
    readDinode d' a j = readDinode d a j := by
  have hr : ∀ b n, a ≤ b → b + n ≤ a + 64 → readLE d' b n = readLE d b n :=
    fun b n h1 h2 => readLE_congr n fun x hx1 hx2 => h x (by omega) (by omega)
  have haddrs : (fun k : Fin (NDIRECT + 1) => readLE d' (a + 12 + 4 * k) 4) =
      fun k : Fin (NDIRECT + 1) => readLE d (a + 12 + 4 * k) 4 := by
    funext k
    have hk := k.isLt
    unfold NDIRECT at hk
    exact hr _ 4 (by omega) (by omega)
  simp only [readDinode, read32]
  rw [hr a 2 le_rfl (by omega), hr (a + 2) 2 (by omega) (by omega), hr (a + 4) 2 (by omega) (by omega),
    hr (a + 6) 2 (by omega) (by omega), hr (a + 8) 4 (by omega) (by omega), haddrs]

end Format

/-- With `IPB` inodes of 64 bytes to a block, inode `inum`'s `struct dinode` is slot `inum` of
an array from block `sb.inodestart`. -/
theorem dinodeAddr_eq (sb : Superblock) (inum : Nat) :
    dinodeAddr sb inum = sb.inodestart * BSIZE + 64 * inum := by
  have := Nat.div_add_mod inum IPB
  unfold dinodeAddr IBLOCK
  unfold IPB BSIZE at *
  simp only [Nat.reduceDiv] at *
  omega

theorem dinodeAddr_disjoint (sb : Superblock) {inum inum' : Nat} (h : inum ≠ inum') :
    dinodeAddr sb inum + 64 ≤ dinodeAddr sb inum' ∨ dinodeAddr sb inum' + 64 ≤ dinodeAddr sb inum := by
  rw [dinodeAddr_eq, dinodeAddr_eq]
  omega

/-- A change of the disk outside inode `inum`'s `struct dinode` leaves what `ilock` loads. -/
theorem readDinode_of_keeps {sb : Superblock} {W : Nat → Prop} {d d' : Memory} (hD : Keeps W d d')
    {inum : Nat} (hW : ∀ x, W x → x < dinodeAddr sb inum ∨ dinodeAddr sb inum + 64 ≤ x)
    (j : Inode) : readDinode d' (dinodeAddr sb inum) j = readDinode d (dinodeAddr sb inum) j :=
  readDinode_congr (fun x h1 h2 => hD x fun hw => by have := hW x hw; omega) j

/-- `iupdate` of one inode leaves the `struct dinode` of every other. -/
theorem readDinode_writeDinode_of_ne (sb : Superblock) (d : Memory) (i : Inode) {inum inum' : Nat}
    (h : inum' ≠ inum) (j : Inode) :
    readDinode (writeDinode d (dinodeAddr sb inum) i) (dinodeAddr sb inum') j =
      readDinode d (dinodeAddr sb inum') j :=
  readDinode_of_keeps (keeps_writeDinode _ _ _) (fun x hx => by
    have := dinodeAddr_disjoint sb h
    omega) j

section Ilock

variable {sb : Superblock} {s : FsState} {ip : Fin NINODE}

/-- `ilock` of a held entry that is loaded changes nothing. -/
theorem ilock_run_valid (href : 1 ≤ (s.inode ip).ref) (hv : (s.inode ip).valid = true) :
    (ilock sb ip).run s = .ok ((), s) := by
  have hr : ¬ (s.inode ip).ref < 1 := by omega
  simp only [ilock, StateT.run_bind, StateT.run_get, pure_bind, run_ite, if_neg hr, hv,
    Bool.not_true]
  rfl

/-- `ilock` of a held entry that is not loaded loads it from its `struct dinode`, and panics if
that inode is free. -/
theorem ilock_run_load (href : 1 ≤ (s.inode ip).ref) (hv : (s.inode ip).valid = false) :
    (ilock sb ip).run s =
      if (readDinode s.disk (dinodeAddr sb (s.inode ip).inum) (s.inode ip)).type = 0 then
        .error "ilock: no type"
      else .ok ((), s.setInode ip fun i =>
        { readDinode s.disk (dinodeAddr sb i.inum) i with valid := true }) := by
  have hr : ¬ (s.inode ip).ref < 1 := by omega
  simp only [ilock, StateT.run_bind, StateT.run_get, pure_bind, run_ite, if_neg hr, hv,
    Bool.not_false, if_true, StateT.run_modify, FsState.setInode_self]
  split <;> rfl

/-- Reloading an inode `iupdate` just wrote: `ilock` of any held entry for the same inode that is
not loaded gets every field of the written entry back, when they fit their C types and the type
is not 0, and the write left every other inode's `struct dinode` as it was. -/
theorem iupdate_ilock {j : Fin NINODE} (hfit : (s.inode ip).Fits) (htype : (s.inode ip).type ≠ 0)
    (href : 1 ≤ (s.inode j).ref) (hv : (s.inode j).valid = false)
    (hinum : (s.inode j).inum = (s.inode ip).inum) :
    ∃ s', (iupdate sb ip >>= fun _ => ilock sb j).run s = .ok ((), s') ∧
      s'.inode j =
        { s.inode j with
          valid := true
          type := (s.inode ip).type
          major := (s.inode ip).major
          minor := (s.inode ip).minor
          nlink := (s.inode ip).nlink
          size := (s.inode ip).size
          addrs := (s.inode ip).addrs } ∧
      ∀ inum, inum ≠ (s.inode ip).inum → ∀ k,
        readDinode s'.disk (dinodeAddr sb inum) k = readDinode s.disk (dinodeAddr sb inum) k := by
  set t : FsState :=
    { s with disk := writeDinode s.disk (dinodeAddr sb (s.inode ip).inum) (s.inode ip) } with ht
  have hload : readDinode t.disk (dinodeAddr sb (t.inode j).inum) (t.inode j) =
      { s.inode j with
        type := (s.inode ip).type
        major := (s.inode ip).major
        minor := (s.inode ip).minor
        nlink := (s.inode ip).nlink
        size := (s.inode ip).size
        addrs := (s.inode ip).addrs } := by
    show readDinode (writeDinode s.disk _ _) (dinodeAddr sb (s.inode j).inum) (s.inode j) = _
    rw [hinum, readDinode_writeDinode _ _ hfit]
  have hrun : (ilock sb j).run t = .ok ((), t.setInode j fun i =>
      { readDinode t.disk (dinodeAddr sb i.inum) i with valid := true }) := by
    rw [ilock_run_load (s := t) href hv, hload, if_neg htype]
  refine ⟨_, by rw [run_bind_of_ok (iupdate_run s) _, ← ht, hrun], ?_, fun inum hne k => ?_⟩
  · rw [FsState.setInode_self, hload]
  · exact readDinode_writeDinode_of_ne sb s.disk (s.inode ip) hne k

/-- The `mkfs` state with entry 1, which holds the same inode as entry 0, not yet loaded. -/
def reloadState : FsState := mkfsState.setInode 1 fun i => { i with valid := false }

theorem iupdate_ilock_reload :
    ∃ s', (iupdate mkfsSb 0 >>= fun _ => ilock mkfsSb 1).run reloadState = .ok ((), s') ∧
      s'.inode 1 =
        { reloadState.inode 1 with
          valid := true
          type := (reloadState.inode 0).type
          major := (reloadState.inode 0).major
          minor := (reloadState.inode 0).minor
          nlink := (reloadState.inode 0).nlink
          size := (reloadState.inode 0).size
          addrs := (reloadState.inode 0).addrs } ∧
      ∀ inum, inum ≠ (reloadState.inode 0).inum → ∀ k,
        readDinode s'.disk (dinodeAddr mkfsSb inum) k = readDinode reloadState.disk (dinodeAddr mkfsSb inum) k :=
  iupdate_ilock ⟨by decide, by decide, by decide, by decide, by decide, fun _ => show 0 < 2 ^ 32 by decide⟩
    (by decide) (by decide) (by decide) (by decide)

end Ilock

end Xv6
