import Xv6.Fs.Balloc

/-! The inode layer of `fs.c`: copying an inode between the table and its `struct dinode`
(`iupdate`, `ilock`), the map from a file's block numbers to disk blocks (`bmap`), freeing a
file's blocks (`itrunc`), and reading and writing its bytes (`readi`, `writei`).

A file's first `NDIRECT` blocks are named by `addrs[0..NDIRECT-1]`, the next `NINDIRECT` by the
`uint`s of the indirect block `addrs[NDIRECT]`; 0 names no block. `readi` and `writei` copy
through `either_copyout` and `either_copyin`, modelled for kernel addresses (`user_dst = 0`,
`user_src = 0`), where they are `memmove` and cannot fail. -/
namespace Xv6
open ByteMem StateExcept

/-- The index of `ip->addrs[NDIRECT]`, the indirect block. -/
def INDIRECT : Fin (NDIRECT + 1) := Fin.last NDIRECT

/-- `memmove(dip->addrs, ip->addrs, sizeof(ip->addrs))`: the `uint`s of `addrs` stored from
`a`, least significant byte first. -/
def writeAddrs (disk : Memory) (a : Nat) (addrs : Fin (NDIRECT + 1) → Nat) : Memory :=
  fun x => if h : a ≤ x ∧ x < a + 4 * (NDIRECT + 1) then
      UInt8.ofNat (addrs ⟨(x - a) / 4, by omega⟩ / 256 ^ ((x - a) % 4))
    else disk x

/-- The stores of `iupdate` into the `struct dinode` at `a`. -/
def writeDinode (disk : Memory) (a : Nat) (i : Inode) : Memory :=
  writeAddrs (writeLE (writeLE (writeLE (writeLE (writeLE disk a (short i.type) 2)
    (a + 2) (short i.major) 2) (a + 4) (short i.minor) 2) (a + 6) (short i.nlink) 2)
    (a + 8) i.size 4) (a + 12) i.addrs

/-- The loads of `ilock` from the `struct dinode` at `a` into the in-memory inode `i`. -/
def readDinode (disk : Memory) (a : Nat) (i : Inode) : Inode :=
  { i with
    type := int16 (readLE disk a 2)
    major := int16 (readLE disk (a + 2) 2)
    minor := int16 (readLE disk (a + 4) 2)
    nlink := int16 (readLE disk (a + 6) 2)
    size := read32 disk (a + 8)
    addrs := fun k => read32 disk (a + 12 + 4 * k) }

section Model

variable (sb : Superblock)

/-- `iupdate(ip)`. -/
def iupdate (ip : Fin NINODE) : FsM Unit :=
  modify fun s => { s with disk := writeDinode s.disk (dinodeAddr sb (s.inode ip).inum) (s.inode ip) }

/-- `iget(dev, inum)`: the entry that holds the inode gets one more reference. Else the first
free entry (`ref == 0`) is recycled for it, not yet loaded, and with none the kernel panics.
The scan returns at the first entry that holds the inode, so the free entry it remembers is
used only when no entry does. -/
def iget (dev inum : Nat) : FsM (Fin NINODE) := do
  let s ← get
  match (List.finRange NINODE).find? fun j =>
      0 < (s.inode j).ref ∧ (s.inode j).dev = dev ∧ (s.inode j).inum = inum with
  | some ip =>
    modify fun s => s.setInode ip fun i => { i with ref := i.ref + 1 }
    return ip
  | none =>
    match (List.finRange NINODE).find? fun j => (s.inode j).ref = 0 with
    | some ip =>
      modify fun s => s.setInode ip fun i =>
        { i with dev := dev, inum := inum, ref := 1, valid := false }
      return ip
    | none => throw "iget: no inodes"

/-- `idup(ip)`. -/
def idup (ip : Fin NINODE) : FsM (Fin NINODE) := do
  modify fun s => s.setInode ip fun i => { i with ref := i.ref + 1 }
  return ip

/-- `ilock(ip)`, less the sleep lock: the inode is read from the disk unless it is valid. A
`struct inode *` is an index here and cannot be null. -/
def ilock (ip : Fin NINODE) : FsM Unit := do
  if ((← get).inode ip).ref < 1 then throw "ilock"
  if !((← get).inode ip).valid then
    modify fun s => s.setInode ip fun i =>
      { readDinode s.disk (dinodeAddr sb i.inum) i with valid := true }
    if ((← get).inode ip).type = 0 then throw "ilock: no type"

/-- `iunlock(ip)`, less the sleep lock, whose holder is not modelled. -/
def iunlock (ip : Fin NINODE) : FsM Unit := do
  if ((← get).inode ip).ref < 1 then throw "iunlock"

/-- The pattern of `bmap` for a slot of `addrs`: `if((addr = ip->addrs[k]) == 0)`, a new block
from `balloc` is stored there, unless there is none and 0 is returned. -/
def bmapAddr (ip : Fin NINODE) (k : Fin (NDIRECT + 1)) : FsM Nat := do
  let addr := ((← get).inode ip).addrs k
  if addr ≠ 0 then return addr
  let addr ← balloc sb
  if addr ≠ 0 then modify fun s => s.setInode ip (·.setAddr k addr)
  return addr

/-- `bmap(ip, bn)`: the disk block holding block `bn` of the file, allocated if it has none;
0 when the disk is full. -/
def bmap (ip : Fin NINODE) (bn : Nat) : FsM Nat := do
  if h : bn < NDIRECT then return ← bmapAddr sb ip (Fin.castSucc ⟨bn, h⟩)
  let bn := bn - NDIRECT
  if bn < NINDIRECT then
    -- load the indirect block, allocating it if necessary
    let ind ← bmapAddr sb ip INDIRECT
    if ind = 0 then return 0
    let addr := read32 (← get).disk (ind * BSIZE + 4 * bn)
    if addr ≠ 0 then return addr
    let addr ← balloc sb
    if addr ≠ 0 then modify fun s => { s with disk := writeLE s.disk (ind * BSIZE + 4 * bn) addr 4 }
    return addr
  throw "bmap: out of range"

/-- The loop of `itrunc` over the direct slots `ks`. -/
def itruncDirect (ip : Fin NINODE) : List (Fin (NDIRECT + 1)) → FsM Unit
  | [] => pure ()
  | k :: ks => do
    let a := ((← get).inode ip).addrs k
    if a ≠ 0 then
      bfree sb a
      modify fun s => s.setInode ip (·.setAddr k 0)
    itruncDirect ip ks

/-- The loop of `itrunc` over the entries `js` of the indirect block `ind`. -/
def itruncInd (ind : Nat) : List Nat → FsM Unit
  | [] => pure ()
  | j :: js => do
    let a := read32 (← get).disk (ind * BSIZE + 4 * j)
    if a ≠ 0 then bfree sb a
    itruncInd ind js

/-- `itrunc(ip)`. -/
def itrunc (ip : Fin NINODE) : FsM Unit := do
  itruncDirect sb ip ((List.finRange NDIRECT).map Fin.castSucc)
  let ind := ((← get).inode ip).addrs INDIRECT
  if ind ≠ 0 then
    itruncInd sb ind (List.range NINDIRECT)
    bfree sb ind
    modify fun s => s.setInode ip (·.setAddr INDIRECT 0)
  modify fun s => s.setInode ip fun i => { i with size := 0 }
  iupdate sb ip

/-- `iput(ip)`: dropping the last reference to a loaded inode with no links frees it on the
disk, its blocks given back and its `struct dinode` marked free (`type = 0`). -/
def iput (ip : Fin NINODE) : FsM Unit := do
  let i := (← get).inode ip
  if i.ref = 1 ∧ i.valid = true ∧ i.nlink = 0 then
    itrunc sb ip
    modify fun s => s.setInode ip fun i => { i with type := 0 }
    iupdate sb ip
    modify fun s => s.setInode ip fun i => { i with valid := false }
  modify fun s => s.setInode ip fun i => { i with ref := i.ref - 1 }

/-- `iunlockput(ip)`. -/
def iunlockput (ip : Fin NINODE) : FsM Unit := do
  iunlock ip
  iput sb ip

/-- The scan of `ialloc` from inode `inum`, with at most `fuel` inodes left: the first
`struct dinode` of type 0 is cleared and given the type, and its inode is taken with `iget`. -/
def iallocLoop (dev : Nat) (type : Int) : Nat → Nat → FsM (Option (Fin NINODE))
  | _, 0 => return none
  | inum, fuel + 1 => do
    if inum < sb.ninodes then
      let a := dinodeAddr sb inum
      if int16 (readLE (← get).disk a 2) = 0 then
        -- `memset(dip, 0, sizeof(*dip)); dip->type = type; log_write(bp)`
        modify fun s => { s with disk := writeLE (memset s.disk a 0 64) a (short type) 2 }
        return some (← iget dev inum)
      iallocLoop dev type (inum + 1) fuel
    else return none

/-- `ialloc(dev, type)`: the inodes from 1 on; `none`, the null pointer, when all are in use. -/
def ialloc (dev : Nat) (type : Int) : FsM (Option (Fin NINODE)) :=
  iallocLoop sb dev type 1 sb.ninodes

/-- The loop of `readi`, `for(tot=0; tot<n; tot+=m, off+=m, dst+=m)`, from `tot`, with at most
`fuel` passes left: the count read. -/
def readiLoop (ip : Fin NINODE) (n : Nat) : Nat → Nat → Nat → Nat → FsM Nat
  | tot, _, _, 0 => return tot
  | tot, off, dst, fuel + 1 => do
    if tot < n then
      let addr ← bmap sb ip (off / BSIZE)
      if addr = 0 then return tot
      let m := min (n - tot) (BSIZE - off % BSIZE)
      -- `either_copyout(0, dst, bp->data + (off % BSIZE), m)`
      modify fun s => { s with mem := copyFrom s.mem dst s.disk (addr * BSIZE + off % BSIZE) m }
      readiLoop ip n (tot + m) (off + m) (dst + m) fuel
    else return tot

/-- `readi(ip, 0, dst, off, n)`. Every pass reads at least one byte, so `n` passes suffice;
the `uint` count is returned as an `int`. -/
def readi (ip : Fin NINODE) (dst off n : Nat) : FsM Int := do
  let size := ((← get).inode ip).size
  if off > size ∨ (off + n) % 2 ^ 32 < off then return 0
  let n := if off + n > size then size - off else n
  return int32 (← readiLoop sb ip n 0 off dst n)

/-- The loop of `writei` from `tot`, with at most `fuel` passes left: the count written and
the offset reached. -/
def writeiLoop (ip : Fin NINODE) (n : Nat) : Nat → Nat → Nat → Nat → FsM (Nat × Nat)
  | tot, off, _, 0 => return (tot, off)
  | tot, off, src, fuel + 1 => do
    if tot < n then
      let addr ← bmap sb ip (off / BSIZE)
      if addr = 0 then return (tot, off)
      let m := min (n - tot) (BSIZE - off % BSIZE)
      -- `either_copyin(bp->data + (off % BSIZE), 0, src, m)`, then `log_write(bp)`
      modify fun s => { s with disk := copyFrom s.disk (addr * BSIZE + off % BSIZE) s.mem src m }
      writeiLoop ip n (tot + m) (off + m) (src + m) fuel
    else return (tot, off)

/-- `writei(ip, 0, src, off, n)`: the size grows to the offset reached, and the inode is
written back even when it did not, since `bmap` may have changed `addrs`. -/
def writei (ip : Fin NINODE) (src off n : Nat) : FsM Int := do
  let size := ((← get).inode ip).size
  if off > size ∨ (off + n) % 2 ^ 32 < off then return -1
  if off + n > MAXFILE * BSIZE then return -1
  let (tot, off) ← writeiLoop sb ip n 0 off src n
  if off > ((← get).inode ip).size then
    modify fun s => s.setInode ip fun i => { i with size := off }
  iupdate sb ip
  return int32 tot

end Model

end Xv6
