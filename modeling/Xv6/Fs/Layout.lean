import Xv6.Kernel.String
import Xv6.Fs.Path
import Xv6.Lib.Bitmap
import Xv6.Lib.StateExcept

/-! The on-disk format of `kernel/fs.h` and the state that the code of `kernel/fs.c` runs on.

The disk is one byte array with block `b` at `b * BSIZE`, holding each block as `bread`
returns it inside a transaction: the buffer cache and the log (`Xv6.Fs.Bio`, `Xv6.Fs.Log`)
are taken as given, so that writing `bp->data` and `log_write(bp)` write the disk, and
`bread` and `brelse` read it. There is one device, as the source says. The in-memory inodes
are the table `itable.inode[NINODE]`, and a `struct inode *` is an index into it; its sleep
lock is not modelled, each call running to its end alone. Kernel memory, where the
directory code keeps its `struct dirent`, is a second byte array. -/
namespace Xv6
open ByteMem

/-- `BSIZE`: the block size in bytes. -/
def BSIZE : Nat := 1024
/-- `NDIRECT`: the direct block addresses of an inode. -/
def NDIRECT : Nat := 12
/-- `NINDIRECT`: the addresses an indirect block holds, `BSIZE / sizeof(uint)`. -/
def NINDIRECT : Nat := BSIZE / 4
/-- `MAXFILE`: the most blocks a file has. -/
def MAXFILE : Nat := NDIRECT + NINDIRECT
def FSMAGIC : Nat := 0x10203040
/-- `IPB`: inodes per block, `sizeof(struct dinode)` being 64. -/
def IPB : Nat := BSIZE / 64
/-- `BPB`: bitmap bits per block. -/
def BPB : Nat := BSIZE * 8
/-- `NINODE`: the size of the in-memory inode table. -/
def NINODE : Nat := 50
def ROOTDEV : Nat := 1

instance : NeZero NINODE := ⟨by decide⟩

/-- The file types of `stat.h`; 0 is a free inode. -/
def T_DIR : Int := 1
def T_FILE : Int := 2
def T_DEVICE : Int := 3

/-- `struct superblock`. -/
structure Superblock where
  magic : Nat
  size : Nat
  nblocks : Nat
  ninodes : Nat
  nlog : Nat
  logstart : Nat
  inodestart : Nat
  bmapstart : Nat
  deriving DecidableEq, Repr

/-- `IBLOCK(i, sb)`: the block holding inode `i`. -/
def IBLOCK (i : Nat) (sb : Superblock) : Nat := i / IPB + sb.inodestart

/-- `BBLOCK(b, sb)`: the bitmap block holding the bit of block `b`. -/
def BBLOCK (b : Nat) (sb : Superblock) : Nat := b / BPB + sb.bmapstart

/-- A `uint` of the disk at a byte address. -/
def read32 (m : Memory) (a : Nat) : Nat := readLE m a 4

/-- A `short` stored in two bytes, read back with its sign. -/
def int16 (x : Nat) : Int := if x % 2 ^ 16 < 2 ^ 15 then x % 2 ^ 16 else x % 2 ^ 16 - 2 ^ 16

/-- The two bytes that store a `short`. -/
def short (x : Int) : Nat := (x % 2 ^ 16).toNat

/-- `readsb`: the superblock is the first eight `uint`s of block 1. -/
def readsb (disk : Memory) : Superblock :=
  let a := 1 * BSIZE
  ⟨read32 disk a, read32 disk (a + 4), read32 disk (a + 8), read32 disk (a + 12),
    read32 disk (a + 16), read32 disk (a + 20), read32 disk (a + 24), read32 disk (a + 28)⟩

/-- `fsinit(dev)`, without `initlog`: the superblock, if it carries the magic number. -/
def fsinit (disk : Memory) : Except String Superblock :=
  if (readsb disk).magic ≠ FSMAGIC then throw "invalid file system" else pure (readsb disk)

/-- The address of inode `inum`'s `struct dinode` on the disk. Its fields are `type`,
`major`, `minor` and `nlink` (`short`s at 0, 2, 4, 6), `size` (a `uint` at 8) and
`addrs[NDIRECT+1]` (`uint`s from 12). -/
def dinodeAddr (sb : Superblock) (inum : Nat) : Nat := IBLOCK inum sb * BSIZE + inum % IPB * 64

/-- `struct inode`, less its sleep lock. -/
structure Inode where
  dev : Nat
  inum : Nat
  ref : Int
  valid : Bool
  type : Int
  major : Int
  minor : Int
  nlink : Int
  size : Nat
  addrs : Fin (NDIRECT + 1) → Nat

/-- `ip->addrs[k] = a`. -/
def Inode.setAddr (i : Inode) (k : Fin (NDIRECT + 1)) (a : Nat) : Inode :=
  { i with addrs := Function.update i.addrs k a }

/-- The state of the file-system code: the disk, kernel memory and the inode table. -/
structure FsState where
  disk : Memory
  mem : Memory
  inode : Fin NINODE → Inode

attribute [ext] FsState

abbrev FsM := StateT FsState (Except String)

/-- Replace entry `ip` of the inode table by `f` of it. -/
def FsState.setInode (s : FsState) (ip : Fin NINODE) (f : Inode → Inode) : FsState :=
  { s with inode := Function.update s.inode ip (f (s.inode ip)) }

@[simp] theorem FsState.setInode_disk (s : FsState) (ip : Fin NINODE) (f : Inode → Inode) :
    (s.setInode ip f).disk = s.disk := rfl

@[simp] theorem FsState.setInode_mem (s : FsState) (ip : Fin NINODE) (f : Inode → Inode) :
    (s.setInode ip f).mem = s.mem := rfl

@[simp] theorem FsState.setInode_self (s : FsState) (ip : Fin NINODE) (f : Inode → Inode) :
    (s.setInode ip f).inode ip = f (s.inode ip) := by
  simp [FsState.setInode]

theorem FsState.setInode_of_ne (s : FsState) {ip j : Fin NINODE} (f : Inode → Inode)
    (h : j ≠ ip) : (s.setInode ip f).inode j = s.inode j := by
  simp [FsState.setInode, h]

theorem FsState.setInode_setInode (s : FsState) (ip : Fin NINODE) (f g : Inode → Inode) :
    (s.setInode ip f).setInode ip g = s.setInode ip (g ∘ f) := by
  simp [FsState.setInode]

/-- An update of an entry depends only on what it makes of that entry. -/
theorem FsState.setInode_congr (s : FsState) {ip : Fin NINODE} {f g : Inode → Inode}
    (h : f (s.inode ip) = g (s.inode ip)) : s.setInode ip f = s.setInode ip g := by
  rw [FsState.setInode, FsState.setInode, h]

theorem FsState.setInode_of_eq (s : FsState) {ip : Fin NINODE} {f : Inode → Inode}
    (h : f (s.inode ip) = s.inode ip) : s.setInode ip f = s := by
  simp [FsState.setInode, h]

/-- `bzero(dev, bno)`: the block filled with zeros. -/
def bzero (bno : Nat) : FsM Unit :=
  modify fun s => { s with disk := memset s.disk (bno * BSIZE) 0 BSIZE }

end Xv6
