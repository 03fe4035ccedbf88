import Xv6.Fs.Path
import Xv6.Fs.Itable
import Xv6.Kernel.String
import Xv6.Lib.Scan

/-! Directories of `fs.c`: `namecmp`, `dirlookup` and `dirlink`. A directory is a file of
`struct dirent`s, each a `ushort` inode number and `DIRSIZ` bytes of name, where inode number 0
marks a free entry. Read through its bytes (`fileByte`) a directory is a map from names, as
`namecmp` compares them, to entries: `dirFind` gives the offset of the first used entry with a
name. `dirlookup` returns what `dirFind` says; `dirlink` of a name the directory does not hold
writes the first free entry, or a new one at the end, after which the map holds the new name
and is otherwise as it was. -/
namespace Xv6
open ByteMem StateExcept

/-- `sizeof(struct dirent)`. -/
def DIRENT : Nat := 2 + DIRSIZ

section Model

variable (sb : Superblock)

/-- `namecmp(s, t)`. -/
def namecmp (m : Memory) (s t : Nat) : Int := strncmp m s t DIRSIZ

/-- The loop of `dirlookup`, `for(off = 0; off < dp->size; off += sizeof(de))`, from `off`, with
at most `fuel` passes; its `struct dirent de` is the local at `de`. -/
def dirlookupLoop (dp : Fin NINODE) (name de : Nat) : Nat → Nat → FsM (Option (Fin NINODE × Nat))
  | _, 0 => return none
  | off, fuel + 1 => do
    if off < ((← get).inode dp).size then
      if (← readi sb dp de off DIRENT) ≠ (DIRENT : Int) then throw "dirlookup read"
      let m := (← get).mem
      -- `if(de.inum == 0) continue;`, then `if(namecmp(name, de.name) == 0)`
      if readLE m de 2 ≠ 0 ∧ namecmp m name (de + 2) = 0 then
        return some (← iget ((← get).inode dp).dev (readLE m de 2), off)
      dirlookupLoop dp name de (off + DIRENT) fuel
    else return none

/-- `dirlookup(dp, name, poff)`, with the name at `name` and the local `struct dirent` at `de`:
the entry `iget` gives for the inode found, with the offset stored to `*poff`, or `none`, the
null pointer. A pass reads one entry, so `size / DIRENT + 1` passes suffice. -/
def dirlookup (dp : Fin NINODE) (name de : Nat) : FsM (Option (Fin NINODE × Nat)) := do
  let i := (← get).inode dp
  if i.type ≠ T_DIR then throw "dirlookup not DIR"
  dirlookupLoop sb dp name de 0 (i.size / DIRENT + 1)

/-- The scan of `dirlink` for an empty entry, `for(off = 0; off < dp->size; off += sizeof(de))`
from `off`: the offset of the first free entry, or the size. -/
def dirlinkLoop (dp : Fin NINODE) (de : Nat) : Nat → Nat → FsM Nat
  | off, 0 => return off
  | off, fuel + 1 => do
    if off < ((← get).inode dp).size then
      if (← readi sb dp de off DIRENT) ≠ (DIRENT : Int) then throw "dirlink read"
      if readLE (← get).mem de 2 = 0 then return off
      dirlinkLoop dp de (off + DIRENT) fuel
    else return off

/-- `dirlink(dp, name, inum)`, with its local `struct dirent` at `de`. The one of the
`dirlookup` it calls first is taken at the same address: that frame is dead before `dirlink`'s
own `de` is first read, and every byte of it is written before `writei` copies it out. -/
def dirlink (dp : Fin NINODE) (name inum de : Nat) : FsM Int := do
  match ← dirlookup sb dp name de with
  | some (ip, _) =>
    iput sb ip
    return -1
  | none =>
    let off ← dirlinkLoop sb dp de 0 (((← get).inode dp).size / DIRENT + 1)
    modify fun s => { s with mem := strncpy s.mem (de + 2) name DIRSIZ }
    -- `de.inum = inum`: a `ushort` keeps the low 16 bits
    modify fun s => { s with mem := writeLE s.mem de inum 2 }
    if (← writei sb dp de off DIRENT) ≠ (DIRENT : Int) then return -1
    return 0

end Model

/-- The inode number of the `struct dirent` at `off` of the bytes `f`. -/
def entryInum (f : Memory) (off : Nat) : Nat := readLE f off 2

/-- The name of the `struct dirent` at `off`, as `namecmp` compares it. -/
def entryName (f : Memory) (off : Nat) : List UInt8 := strView f (off + 2) DIRSIZ

/-- Entry `k` is used and its name is `v`. -/
def EntryIs (f : Memory) (v : List UInt8) (k : Nat) : Prop :=
  entryInum f (DIRENT * k) ≠ 0 ∧ entryName f (DIRENT * k) = v

instance (f : Memory) (v : List UInt8) : DecidablePred (EntryIs f v) :=
  fun _ => inferInstanceAs (Decidable (_ ∧ _))

/-- In a directory of `size` bytes, from entry `k` on: the offset of the first used entry whose
name is `v`. -/
def dirFindFrom (f : Memory) (size : Nat) (v : List UInt8) (k : Nat) : Option Nat :=
  (Scan.first (EntryIs f v) k (size / DIRENT)).map (DIRENT * ·)

/-- The offset of the first used entry whose name is `v`. -/
def dirFind (f : Memory) (size : Nat) (v : List UInt8) : Option Nat := dirFindFrom f size v 0

/-- Entry `k` is free. -/
def EntryFree (f : Memory) (k : Nat) : Prop := entryInum f (DIRENT * k) = 0

instance (f : Memory) : DecidablePred (EntryFree f) :=
  fun _ => inferInstanceAs (Decidable (_ = _))

/-- From entry `k` on: the offset of the first free entry, or the end of the directory. -/
def dirFreeFrom (f : Memory) (size k : Nat) : Nat :=
  DIRENT * (Scan.first (EntryFree f) k (size / DIRENT)).getD (size / DIRENT)

/-- The offset of the first free entry, or the end of the directory. -/
def dirFree (f : Memory) (size : Nat) : Nat := dirFreeFrom f size 0

/-- What `dirlookup` does after its scan: `iget` of the entry found at `off`, or nothing. -/
def lookupResult (dev : Nat) (f : Memory) : Option Nat → FsM (Option (Fin NINODE × Nat))
  | none => pure none
  | some off => do
    let ip ← iget dev (entryInum f off)
    return some (ip, off)

section Scan

variable {sb : Superblock} {dp : Fin NINODE} {t t₁ : FsState} {name de off fuel : Nat}

theorem dirlookupLoop_run_end (h : ¬ off < (t.inode dp).size) :
    (dirlookupLoop sb dp name de off (fuel + 1)).run t = .ok (none, t) := by
  simp only [dirlookupLoop, StateT.run_bind, StateT.run_get, pure_bind, run_ite, if_neg h]
  rfl

theorem dirlookupLoop_run_read (hlt : off < (t.inode dp).size)
    (hr : (readi sb dp de off DIRENT).run t = .ok ((DIRENT : Int), t₁)) :
    (dirlookupLoop sb dp name de off (fuel + 1)).run t =
      if readLE t₁.mem de 2 ≠ 0 ∧ namecmp t₁.mem name (de + 2) = 0 then
        (do let ip ← iget (t₁.inode dp).dev (readLE t₁.mem de 2); return some (ip, off)).run t₁
      else (dirlookupLoop sb dp name de (off + DIRENT) fuel).run t₁ := by
  simp only [dirlookupLoop, StateT.run_bind, StateT.run_get, pure_bind, run_ite, if_pos hlt, hr,
    ok_bind, ne_eq, not_true_eq_false, if_false]

theorem dirlinkLoop_run_end (h : ¬ off < (t.inode dp).size) :
    (dirlinkLoop sb dp de off (fuel + 1)).run t = .ok (off, t) := by
  simp only [dirlinkLoop, StateT.run_bind, StateT.run_get, pure_bind, run_ite, if_neg h]
  rfl

theorem dirlinkLoop_run_read (hlt : off < (t.inode dp).size)
    (hr : (readi sb dp de off DIRENT).run t = .ok ((DIRENT : Int), t₁)) :
    (dirlinkLoop sb dp de off (fuel + 1)).run t =
      if readLE t₁.mem de 2 = 0 then .ok (off, t₁)
      else (dirlinkLoop sb dp de (off + DIRENT) fuel).run t₁ := by
  simp only [dirlinkLoop, StateT.run_bind, StateT.run_get, pure_bind, run_ite, if_pos hlt, hr,
    ok_bind, ne_eq, not_true_eq_false, if_false]
  split_ifs <;> rfl

end Scan

section Views

variable {f : Memory} {size : Nat} {v : List UInt8} {k : Nat}

theorem dirFindFrom_of_lt (h : k < size / DIRENT) :
    dirFindFrom f size v k = if EntryIs f v k then some (DIRENT * k) else dirFindFrom f size v (k + 1) := by
  rw [dirFindFrom, Scan.first_of_lt h]
  split_ifs <;> rfl

theorem dirFindFrom_of_le (h : size / DIRENT ≤ k) : dirFindFrom f size v k = none := by
  rw [dirFindFrom, Scan.first_of_le h]
  rfl

theorem dirFreeFrom_of_lt (h : k < size / DIRENT) :
    dirFreeFrom f size k = if EntryFree f k then DIRENT * k else dirFreeFrom f size (k + 1) := by
  rw [dirFreeFrom, Scan.first_of_lt h]
  split_ifs <;> rfl

theorem dirFreeFrom_of_le (h : size / DIRENT ≤ k) : dirFreeFrom f size k = DIRENT * (size / DIRENT) := by
  rw [dirFreeFrom, Scan.first_of_le h]
  rfl

theorem DIRENT_mul_succ (k : Nat) : DIRENT * k + DIRENT = DIRENT * (k + 1) := by
  rw [Nat.mul_succ]

/-- The bytes of the local `struct dirent` at `de`. -/
def InDirent (de x : Nat) : Prop := de ≤ x ∧ x < de + DIRENT

theorem entryInum_copyFrom (m f : Memory) (de off : Nat) :
    readLE (copyFrom m de f off DIRENT) de 2 = entryInum f off :=
  readLE_shift 2 fun _ hj => copyFrom_apply_add m f (by unfold DIRENT; omega)

theorem entryName_copyFrom (m f : Memory) (de off : Nat) :
    strView (copyFrom m de f off DIRENT) (de + 2) DIRSIZ = entryName f off :=
  strView_shift DIRSIZ fun j hj => by
    simp only [Nat.add_assoc]
    exact copyFrom_apply_add m f (by unfold DIRENT; omega)

/-- The name looked up lies outside the buffer, so the buffer's reads leave it. -/
theorem strView_name {m₀ m : Memory} {name de : Nat} (hm : Keeps (InDirent de) m₀ m)
    (hap : name + DIRSIZ ≤ de ∨ de + DIRENT ≤ name) : strView m name DIRSIZ = strView m₀ name DIRSIZ :=
  strView_keeps hm fun x h1 h2 hx => by
    unfold InDirent DIRENT DIRSIZ at *
    omega

/-- The test of `dirlookup` on an entry read into the buffer: it is used and `namecmp` finds
the name in it. -/
theorem lookup_test {m₀ m : Memory} {name de off : Nat}
    (hm : Keeps (InDirent de) m₀ (copyFrom m de f off DIRENT))
    (hap : name + DIRSIZ ≤ de ∨ de + DIRENT ≤ name) :
    (readLE (copyFrom m de f off DIRENT) de 2 ≠ 0 ∧
        namecmp (copyFrom m de f off DIRENT) name (de + 2) = 0) ↔
      (entryInum f off ≠ 0 ∧ entryName f off = strView m₀ name DIRSIZ) := by
  rw [entryInum_copyFrom, namecmp, strncmp_eq_zero_iff, entryName_copyFrom, strView_name hm hap,
    eq_comm]

end Views

/-! ### `dirlookup` -/

section Lookup

variable {sb : Superblock} {dp : Fin NINODE} {s : FsState} {name de : Nat}

/-- `readi` of a whole entry of a well-formed directory copies it into the buffer. -/
theorem readi_entry (hok : FileOk sb s.disk (s.inode dp)) (m : Memory) {off : Nat}
    (hoff : off + DIRENT ≤ (s.inode dp).size) :
    (readi sb dp de off DIRENT).run { s with mem := m } =
      .ok ((DIRENT : Int), { s with mem := copyFrom m de (fileByte s.disk (s.inode dp)) off DIRENT }) := by
  have h := readi_spec (s := { s with mem := m }) hok de off DIRENT
  rw [readCount_of_writei hoff (Nat.le_trans hoff hok.size_le)] at h
  exact h

/-- The scan of `dirlookup` from entry `k` of a well-formed directory whose size is a whole
number of entries returns what `dirFindFrom` finds, having written only its buffer. -/
theorem dirlookupLoop_spec (hok : FileOk sb s.disk (s.inode dp))
    (hsz : (s.inode dp).size % DIRENT = 0) (hap : name + DIRSIZ ≤ de ∨ de + DIRENT ≤ name) :
    ∀ fuel k m, k ≤ (s.inode dp).size / DIRENT → (s.inode dp).size / DIRENT - k < fuel →
      Keeps (InDirent de) s.mem m →
      ∃ m', Keeps (InDirent de) s.mem m' ∧
        (dirlookupLoop sb dp name de (DIRENT * k) fuel).run { s with mem := m } =
          (lookupResult (s.inode dp).dev (fileByte s.disk (s.inode dp))
            (dirFindFrom (fileByte s.disk (s.inode dp)) (s.inode dp).size
              (strView s.mem name DIRSIZ) k)).run { s with mem := m' }
  | 0, _, _, _, hf, _ => absurd hf (Nat.not_lt_zero _)
  | fuel + 1, k, m, hk, hf, hm => by
    by_cases hkN : k < (s.inode dp).size / DIRENT
    · -- entry `k` is read into the buffer and tested
      have hoff : DIRENT * k + DIRENT ≤ (s.inode dp).size := by
        unfold DIRENT DIRSIZ at *
        omega
      have hm₁ : Keeps (InDirent de) s.mem
          (copyFrom m de (fileByte s.disk (s.inode dp)) (DIRENT * k) DIRENT) :=
        (hm.trans (keeps_copyFrom _ _ _ _ _)).mono fun _ hx => hx.elim id id
      have hlt : DIRENT * k < (s.inode dp).size := by
        unfold DIRENT DIRSIZ at *
        omega
      rw [dirlookupLoop_run_read (t := { s with mem := m }) hlt (readi_entry hok m hoff),
        dirFindFrom_of_lt hkN]
      dsimp only
      by_cases he : EntryIs (fileByte s.disk (s.inode dp)) (strView s.mem name DIRSIZ) k
      · rw [if_pos ((lookup_test hm₁ hap).mpr he), if_pos he, entryInum_copyFrom]
        exact ⟨_, hm₁, rfl⟩
      · rw [if_neg (mt (lookup_test hm₁ hap).mp he), if_neg he, DIRENT_mul_succ]
        exact dirlookupLoop_spec hok hsz hap fuel (k + 1) _ (by omega) (by omega) hm₁
    · -- the end of the directory
      have hend : ¬ DIRENT * k < (s.inode dp).size := by
        unfold DIRENT DIRSIZ at *
        omega
      rw [dirlookupLoop_run_end (t := { s with mem := m }) hend, dirFindFrom_of_le (by omega)]
      exact ⟨m, hm, rfl⟩

/-- `dirlookup` on a well-formed directory whose size is a whole number of entries, for a name
that lies outside its buffer, never panics on a read and does what `dirFind` says: `iget` of the
first used entry that `namecmp` matches, returned with its offset, or the null pointer when
there is none. Memory changes only in the buffer. -/
theorem dirlookup_spec (name de : Nat) (hok : FileOk sb s.disk (s.inode dp)) (hdir : (s.inode dp).type = T_DIR)
    (hsz : (s.inode dp).size % DIRENT = 0) (hap : name + DIRSIZ ≤ de ∨ de + DIRENT ≤ name) :
    ∃ m, Keeps (InDirent de) s.mem m ∧
      (dirlookup sb dp name de).run s =
        (lookupResult (s.inode dp).dev (fileByte s.disk (s.inode dp))
          (dirFind (fileByte s.disk (s.inode dp)) (s.inode dp).size
            (strView s.mem name DIRSIZ))).run { s with mem := m } := by
  have hrun : (dirlookup sb dp name de).run s = (dirlookupLoop sb dp name de (DIRENT * 0)
      ((s.inode dp).size / DIRENT + 1)).run { s with mem := s.mem } := by
    simp only [dirlookup, StateT.run_bind, StateT.run_get, pure_bind, run_ite, hdir, ne_eq,
      not_true_eq_false, if_false, Nat.mul_zero]
  rw [hrun]
  exact dirlookupLoop_spec hok hsz hap _ 0 s.mem (Nat.zero_le _)
    (Nat.lt_succ_of_le (Nat.sub_le _ _)) (Keeps.refl _ _)

/-- The scan of `dirlink` from entry `k` returns the offset of the first free entry from there,
or the end of the directory, having written only its buffer. -/
theorem dirlinkLoop_spec (de : Nat) (hok : FileOk sb s.disk (s.inode dp))
    (hsz : (s.inode dp).size % DIRENT = 0) :
    ∀ fuel k m, k ≤ (s.inode dp).size / DIRENT → (s.inode dp).size / DIRENT - k < fuel →
      Keeps (InDirent de) s.mem m →
      ∃ m', Keeps (InDirent de) s.mem m' ∧
        (dirlinkLoop sb dp de (DIRENT * k) fuel).run { s with mem := m } =
          .ok (dirFreeFrom (fileByte s.disk (s.inode dp)) (s.inode dp).size k, { s with mem := m' })
  | 0, _, _, _, hf, _ => absurd hf (Nat.not_lt_zero _)
  | fuel + 1, k, m, hk, hf, hm => by
    by_cases hkN : k < (s.inode dp).size / DIRENT
    · have hoff : DIRENT * k + DIRENT ≤ (s.inode dp).size := by
        unfold DIRENT DIRSIZ at *
        omega
      have hlt : DIRENT * k < (s.inode dp).size := by
        unfold DIRENT DIRSIZ at *
        omega
      have hm₁ : Keeps (InDirent de) s.mem
          (copyFrom m de (fileByte s.disk (s.inode dp)) (DIRENT * k) DIRENT) :=
        (hm.trans (keeps_copyFrom _ _ _ _ _)).mono fun _ hx => hx.elim id id
      rw [dirlinkLoop_run_read (t := { s with mem := m }) hlt (readi_entry hok m hoff),
        dirFreeFrom_of_lt hkN]
      dsimp only
      rw [entryInum_copyFrom]
      by_cases he : EntryFree (fileByte s.disk (s.inode dp)) k
      · rw [if_pos (show entryInum _ (DIRENT * k) = 0 from he), if_pos he]
        exact ⟨_, hm₁, rfl⟩
      · rw [if_neg (show ¬ entryInum _ (DIRENT * k) = 0 from he), if_neg he, DIRENT_mul_succ]
        exact dirlinkLoop_spec de hok hsz fuel (k + 1) _ (by omega) (by omega) hm₁
    · have hend : ¬ DIRENT * k < (s.inode dp).size := by
        unfold DIRENT DIRSIZ at *
        omega
      have hkN' : k = (s.inode dp).size / DIRENT := by omega
      rw [dirlinkLoop_run_end (t := { s with mem := m }) hend, dirFreeFrom_of_le (by omega), ← hkN']
      exact ⟨m, hm, rfl⟩

end Lookup

/-- A directory as `xv6` keeps it: a file of type `T_DIR` of whole entries, every used entry
naming an inode number below `sb.ninodes`, and no two used entries with one name. -/
structure DirOk (sb : Superblock) (d : Memory) (i : Inode) : Prop where
  type : i.type = T_DIR
  size : i.size % DIRENT = 0
  inum : ∀ j < i.size / DIRENT, entryInum (fileByte d i) (DIRENT * j) ≠ 0 →
    entryInum (fileByte d i) (DIRENT * j) < sb.ninodes
  unique : ∀ v j j', j < i.size / DIRENT → j' < i.size / DIRENT →
    EntryIs (fileByte d i) v j → EntryIs (fileByte d i) v j' → j = j'

section Write

variable {f g : Memory} {S : Nat} {v w : List UInt8}

/-- An entry reads only its own bytes. -/
theorem entryIs_congr {j : Nat} (h : ∀ x, DIRENT * j ≤ x → x < DIRENT * j + DIRENT → g x = f x) :
    EntryIs g v j ↔ EntryIs f v j := by
  have hi : entryInum g (DIRENT * j) = entryInum f (DIRENT * j) :=
    readLE_congr 2 fun x h1 h2 => h x h1 (by unfold DIRENT DIRSIZ at *; omega)
  have hn : entryName g (DIRENT * j) = entryName f (DIRENT * j) :=
    strView_congr fun x h1 h2 => h x (by omega) (by unfold DIRENT DIRSIZ at *; omega)
  unfold EntryIs
  rw [hi, hn]

theorem entryInum_congr {j : Nat} (h : ∀ x, DIRENT * j ≤ x → x < DIRENT * j + DIRENT → g x = f x) :
    entryInum g (DIRENT * j) = entryInum f (DIRENT * j) :=
  readLE_congr 2 fun x h1 h2 => h x h1 (by unfold DIRENT DIRSIZ at *; omega)

/-- An entry of a directory lies below its size. -/
theorem entry_lt_size {j x : Nat} (hj : j < S / DIRENT) (hx : x < DIRENT * j + DIRENT) : x < S := by
  unfold DIRENT DIRSIZ at *
  omega

/-- A directory reads only its bytes below its size. -/
theorem dirFind_congr (h : ∀ x < S, g x = f x) : dirFind g S v = dirFind f S v := by
  unfold dirFind dirFindFrom
  rw [Scan.first_congr fun j _ hj => entryIs_congr fun x _ hx => h x (entry_lt_size hj hx)]

/-- The first free entry is entry `k₀`, free when it lies inside the directory, or the end. -/
theorem dirFree_eq : ∃ k₀, dirFree f S = DIRENT * k₀ ∧ k₀ ≤ S / DIRENT ∧
    (k₀ < S / DIRENT → EntryFree f k₀) := by
  unfold dirFree dirFreeFrom
  cases hfirst : Scan.first (EntryFree f) 0 (S / DIRENT) with
  | none => exact ⟨S / DIRENT, rfl, Nat.le_refl _, fun h => absurd h (Nat.lt_irrefl _)⟩
  | some k₀ =>
    obtain ⟨-, hlt, hp, -⟩ := Scan.first_eq_some_iff.mp hfirst
    exact ⟨k₀, rfl, hlt.le, fun _ => hp⟩

/-- The entries other than `k₀` of a directory where only entry `k₀` was written. -/
theorem entry_apart {k₀ j x : Nat} (hj : j ≠ k₀) (h1 : DIRENT * j ≤ x) (h2 : x < DIRENT * j + DIRENT) :
    x < DIRENT * k₀ ∨ DIRENT * k₀ + DIRENT ≤ x := by
  unfold DIRENT DIRSIZ at *
  rcases Nat.lt_or_gt_of_ne hj with h | h <;> omega

theorem dirFind_eq_none_iff : dirFind f S v = none ↔ ∀ j < S / DIRENT, ¬ EntryIs f v j := by
  unfold dirFind dirFindFrom
  rw [Option.map_eq_none_iff, Scan.first_eq_none_iff]
  exact ⟨fun h j hj => h j (Nat.zero_le j) hj, fun h j _ hj => h j hj⟩

/-- The bytes `g` are those of the directory `f` of `S` bytes with a used entry named `w`
written at its first free entry, or at its end, where `f` had no entry named `w`. -/
structure LinkWrite (f : Memory) (S : Nat) (g : Memory) (w : List UInt8) : Prop where
  size : S % DIRENT = 0
  frame : ∀ x, x < dirFree f S ∨ dirFree f S + DIRENT ≤ x → g x = f x
  inum : entryInum g (dirFree f S) ≠ 0
  name : entryName g (dirFree f S) = w
  absent : dirFind f S w = none

variable {k₀ : Nat}

theorem LinkWrite.entryIs_of_ne (h : LinkWrite f S g w) (hoff : dirFree f S = DIRENT * k₀)
    {j : Nat} (hj : j ≠ k₀) : EntryIs g v j ↔ EntryIs f v j :=
  entryIs_congr fun x h1 h2 => h.frame x (hoff ▸ entry_apart hj h1 h2)

theorem LinkWrite.entryInum_of_ne (h : LinkWrite f S g w) (hoff : dirFree f S = DIRENT * k₀)
    {j : Nat} (hj : j ≠ k₀) : entryInum g (DIRENT * j) = entryInum f (DIRENT * j) :=
  entryInum_congr fun x h1 h2 => h.frame x (hoff ▸ entry_apart hj h1 h2)

theorem LinkWrite.entryIs_self (h : LinkWrite f S g w) (hoff : dirFree f S = DIRENT * k₀) :
    EntryIs g v k₀ ↔ v = w := by
  unfold EntryIs
  rw [← hoff, h.name]
  exact ⟨fun h' => h'.2.symm, fun h' => ⟨h.inum, h'.symm⟩⟩

theorem LinkWrite.entries (h : LinkWrite f S g w) :
    max S (DIRENT * k₀ + DIRENT) / DIRENT = max (S / DIRENT) (k₀ + 1) := by
  have := h.size
  unfold DIRENT DIRSIZ at *
  omega

/-- After the write the first entry named `w` is the one written, and every other name is
found where it was. -/
theorem LinkWrite.dirFind_eq (h : LinkWrite f S g w) (v : List UInt8) :
    dirFind g (max S (dirFree f S + DIRENT)) v = if v = w then some (dirFree f S) else dirFind f S v := by
  obtain ⟨k₀, hoff, hk₀, hfree⟩ := dirFree_eq (f := f) (S := S)
  have hN : max S (DIRENT * k₀ + DIRENT) / DIRENT = max (S / DIRENT) (k₀ + 1) := h.entries
  rw [hoff]
  unfold dirFind dirFindFrom
  rw [hN]
  by_cases hv : v = w
  · -- the entry written is the first named `w`
    subst hv
    rw [if_pos rfl, (Scan.first_eq_some_iff (p := EntryIs g v)).mpr ⟨Nat.zero_le _, by omega,
      (h.entryIs_self hoff).mpr rfl, fun j _ hj => ?_⟩]
    · rfl
    rw [h.entryIs_of_ne hoff (by omega)]
    exact dirFind_eq_none_iff.mp h.absent j (by omega)
  · rw [if_neg hv]
    have hk₀' : ¬ EntryIs g v k₀ := fun h' => hv ((h.entryIs_self hoff).mp h')
    rcases Nat.lt_or_ge k₀ (S / DIRENT) with hlt | hge
    · -- a free entry is reused, and it was not found before either
      have hc : ∀ j, 0 ≤ j → j < S / DIRENT → (EntryIs g v j ↔ EntryIs f v j) := fun j _ _ => by
        by_cases hj : j = k₀
        · subst hj
          exact iff_of_false hk₀' fun h' => h'.1 (hfree hlt)
        · exact h.entryIs_of_ne hoff hj
      rw [max_eq_left (by omega), Scan.first_congr hc]
    · -- a new entry at the end
      have hext : ∀ j, S / DIRENT ≤ j → j < k₀ + 1 → ¬ EntryIs g v j := fun j h1 h2 => by
        rw [show j = k₀ by omega]
        exact hk₀'
      rw [max_eq_right (by omega), Scan.first_extend (Nat.le_succ_of_le hge) hext,
        Scan.first_congr fun j _ hj => h.entryIs_of_ne hoff (by omega)]

/-- No two used entries share a name after the write, when none did before. -/
theorem LinkWrite.unique (h : LinkWrite f S g w)
    (hu : ∀ v j j', j < S / DIRENT → j' < S / DIRENT → EntryIs f v j → EntryIs f v j' → j = j') :
    ∀ v j j', j < max S (dirFree f S + DIRENT) / DIRENT → j' < max S (dirFree f S + DIRENT) / DIRENT →
      EntryIs g v j → EntryIs g v j' → j = j' := by
  obtain ⟨k₀, hoff, hk₀, -⟩ := dirFree_eq (f := f) (S := S)
  rw [hoff, h.entries]
  -- an old entry named like the new one would have been found
  have hnew : ∀ v j, j < max (S / DIRENT) (k₀ + 1) → j ≠ k₀ → EntryIs g v k₀ → ¬ EntryIs g v j :=
    fun v j hj hne hk hj' => by
      rw [(h.entryIs_self hoff).mp hk, h.entryIs_of_ne hoff hne] at hj'
      exact dirFind_eq_none_iff.mp h.absent j (by omega) hj'
  intro v j j' hj hj' he he'
  by_cases h1 : j = k₀
  · by_cases h2 : j' = k₀
    · rw [h1, h2]
    · exact absurd he' (hnew v j' hj' h2 (h1 ▸ he))
  · by_cases h2 : j' = k₀
    · exact absurd he (hnew v j hj h1 (h2 ▸ he'))
    · rw [h.entryIs_of_ne hoff h1] at he
      rw [h.entryIs_of_ne hoff h2] at he'
      exact hu v j j' (by omega) (by omega) he he'

/-- Every used entry names an inode below a bound after the write, when the new one and every
old one do. -/
theorem LinkWrite.inum_lt (h : LinkWrite f S g w) {bound : Nat}
    (hi : ∀ j < S / DIRENT, entryInum f (DIRENT * j) ≠ 0 → entryInum f (DIRENT * j) < bound)
    (hnew : entryInum g (dirFree f S) < bound) :
    ∀ j < max S (dirFree f S + DIRENT) / DIRENT,
      entryInum g (DIRENT * j) ≠ 0 → entryInum g (DIRENT * j) < bound := by
  obtain ⟨k₀, hoff, hk₀, -⟩ := dirFree_eq (f := f) (S := S)
  rw [hoff, h.entries]
  intro j hj h0
  by_cases hjk : j = k₀
  · rw [hjk, ← hoff]
    exact hnew
  · rw [h.entryInum_of_ne hoff hjk] at h0 ⊢
    exact hi j (by omega) h0

end Write

/-! ### `dirlink` -/

section Link

variable {sb : Superblock} {dp : Fin NINODE} {s t t₂ : FsState} {name inum de off : Nat}

theorem dirlink_run_present {ip : Fin NINODE} {off : Nat}
    (hl : (dirlookup sb dp name de).run s = .ok (some (ip, off), t)) :
    (dirlink sb dp name inum de).run s = (iput sb ip).run t >>= fun p => .ok (-1, p.2) := by
  simp only [dirlink, StateT.run_bind, hl, ok_bind]
  rfl

theorem dirlink_run_absent (hl : (dirlookup sb dp name de).run s = .ok (none, t))
    (hloop : (dirlinkLoop sb dp de 0 ((t.inode dp).size / DIRENT + 1)).run t = .ok (off, t₂)) :
    (dirlink sb dp name inum de).run s =
      (writei sb dp de off DIRENT).run
          { t₂ with mem := writeLE (strncpy t₂.mem (de + 2) name DIRSIZ) de inum 2 } >>=
        fun p => .ok (if p.1 ≠ (DIRENT : Int) then -1 else 0, p.2) := by
  simp only [dirlink, StateT.run_bind, hl, ok_bind, StateT.run_get, pure_bind, StateT.run_modify,
    hloop]
  congr 1
  funext p
  split_ifs <;> rfl

/-- The entry `dirlink` builds in its buffer: the low 16 bits of the inode number, and the
name as `namecmp` reads it. -/
theorem dirlink_entry (m : Memory) (inum : Nat) (hap : name + DIRSIZ ≤ de ∨ de + DIRENT ≤ name) :
    readLE (writeLE (strncpy m (de + 2) name DIRSIZ) de inum 2) de 2 = inum % 2 ^ 16 ∧
      strView (writeLE (strncpy m (de + 2) name DIRSIZ) de inum 2) (de + 2) DIRSIZ =
        strView m name DIRSIZ := by
  constructor
  · rw [readLE_writeLE_self]
    rfl
  · rw [strView_congr fun x h1 h2 => writeLE_of_outside (by omega), strncpy, Int.toNat_natCast]
    exact strView_strncpyLoop m (de + 2) name DIRSIZ (by unfold DIRENT at hap; omega)

theorem keeps_dirlink_entry (m : Memory) :
    Keeps (InDirent de) m (writeLE (strncpy m (de + 2) name DIRSIZ) de inum 2) := by
  rw [strncpy, Int.toNat_natCast]
  refine ((keeps_strncpyLoop m (de + 2) name DIRSIZ).trans (keeps_writeLE _ de inum 2)).mono ?_
  intro x hx
  unfold InDirent DIRENT
  rcases hx with hx | hx <;> omega

/-- The directory `f` with the buffer `m'` copied over its first free entry, when it holds no
entry named `w`, the name in the buffer, and the buffer's inode number is not 0. -/
theorem linkWrite_copyFrom {f m' : Memory} {S : Nat} {w : List UInt8} (hS : S % DIRENT = 0)
    (hi : readLE m' de 2 ≠ 0) (hn : strView m' (de + 2) DIRSIZ = w) (habs : dirFind f S w = none) :
    LinkWrite f S (copyFrom f (dirFree f S) m' de DIRENT) w where
  size := hS
  frame _ hx := copyFrom_of_outside hx
  inum := by
    rw [entryInum, entryInum_copyFrom]
    exact hi
  name := by
    rw [entryName, entryName_copyFrom]
    exact hn
  absent := habs

/-- A directory is well formed when its bytes below its size are those of a map that is. -/
theorem DirOk.of_agree {d g : Memory} {i : Inode} (h : ∀ x < i.size, fileByte d i x = g x)
    (htype : i.type = T_DIR) (hsize : i.size % DIRENT = 0)
    (hinum : ∀ j < i.size / DIRENT, entryInum g (DIRENT * j) ≠ 0 →
      entryInum g (DIRENT * j) < sb.ninodes)
    (hu : ∀ v j j', j < i.size / DIRENT → j' < i.size / DIRENT →
      EntryIs g v j → EntryIs g v j' → j = j') : DirOk sb d i := by
  have hent : ∀ j < i.size / DIRENT, ∀ x, DIRENT * j ≤ x → x < DIRENT * j + DIRENT →
      fileByte d i x = g x := fun j hj x _ hx => h x (entry_lt_size hj hx)
  refine ⟨htype, hsize, fun j hj h0 => ?_, fun v j j' hj hj' he he' => ?_⟩
  · rw [entryInum_congr (hent j hj)] at h0 ⊢
    exact hinum j hj h0
  · rw [entryIs_congr (hent j hj)] at he
    rw [entryIs_congr (hent j' hj')] at he'
    exact hu v j j' hj hj' he he'

/-- `dirlink` of a name the directory holds: `dirlookup`'s `iget` and the `iput` after it take
a reference and give it back, and `dirlink` returns -1. -/
theorem dirlink_present (inum : Nat) (hok : FileOk sb s.disk (s.inode dp)) (hdir : (s.inode dp).type = T_DIR)
    (hsz : (s.inode dp).size % DIRENT = 0) (hap : name + DIRSIZ ≤ de ∨ de + DIRENT ≤ name)
    (hfree : ∃ j, (s.inode j).ref = 0)
    (hfound : dirFind (fileByte s.disk (s.inode dp)) (s.inode dp).size (strView s.mem name DIRSIZ) =
      some off) :
    ∃ t, (dirlink sb dp name inum de).run s = .ok (-1, t) ∧ t.disk = s.disk ∧
      Keeps (InDirent de) s.mem t.mem ∧
      ∀ j, (t.inode j).ref = (s.inode j).ref ∧ (0 < (s.inode j).ref → t.inode j = s.inode j) := by
  obtain ⟨m, hm, hl⟩ := dirlookup_spec name de hok hdir hsz hap
  obtain ⟨ip, s₂, hg⟩ := iget_run_of_free (s := { s with mem := m }) hfree (s.inode dp).dev
    (entryInum (fileByte s.disk (s.inode dp)) off)
  have hl' : (dirlookup sb dp name de).run s = .ok (some (ip, off), s₂) := by
    rw [hl, hfound, lookupResult, StateT.run_bind, hg]
    rfl
  obtain ⟨s₃, hput, hdisk, hmem, hrefs⟩ := iget_iput_run sb hg
  exact ⟨s₃, by rw [dirlink_run_present hl', hput]; rfl, hdisk, hmem ▸ hm, hrefs⟩

/-- `dirlink` of a name the directory does not hold, with room for one more entry: it writes
the entry at the first free slot, or at the end. When `writei` writes it, `dirlink` returns 0
and the directory maps the name to that entry and every other name as before, and stays well
formed. Otherwise the disk is full, `dirlink` returns -1, and the directory is as it was. -/
theorem dirlink_absent (hsb : SbOk sb) (hm : MetaUsed sb s.disk) (hd : DirOk sb s.disk (s.inode dp))
    (hok : FileOk sb s.disk (s.inode dp)) (hinum : (s.inode dp).inum < sb.ninodes)
    (hap : name + DIRSIZ ≤ de ∨ de + DIRENT ≤ name)
    (hroom : (s.inode dp).size + DIRENT ≤ MAXFILE * BSIZE)
    (hi0 : 0 < inum) (hin : inum < sb.ninodes) (h16 : inum < 2 ^ 16)
    (habs : dirFind (fileByte s.disk (s.inode dp)) (s.inode dp).size (strView s.mem name DIRSIZ) =
      none) :
    ∃ r t, (dirlink sb dp name inum de).run s = .ok (r, t) ∧ Keeps (InDirent de) s.mem t.mem ∧
      ((r = 0 ∧ DirOk sb t.disk (t.inode dp) ∧ FileOk sb t.disk (t.inode dp) ∧
        entryInum (fileByte t.disk (t.inode dp))
          (dirFree (fileByte s.disk (s.inode dp)) (s.inode dp).size) = inum ∧
        ∀ v, dirFind (fileByte t.disk (t.inode dp)) (t.inode dp).size v =
          if v = strView s.mem name DIRSIZ then
            some (dirFree (fileByte s.disk (s.inode dp)) (s.inode dp).size)
          else dirFind (fileByte s.disk (s.inode dp)) (s.inode dp).size v) ∨
      (r = -1 ∧ (∀ y < sb.size, used sb t.disk y = true) ∧
        (t.inode dp).size = (s.inode dp).size ∧
        ∀ v, dirFind (fileByte t.disk (t.inode dp)) (t.inode dp).size v =
          dirFind (fileByte s.disk (s.inode dp)) (s.inode dp).size v)) := by
  obtain ⟨m, hm₁, hl⟩ := dirlookup_spec name de hok hd.type hd.size hap
  rw [habs] at hl
  obtain ⟨m₂, hm₂, hloop⟩ := dirlinkLoop_spec de hok hd.size ((s.inode dp).size / DIRENT + 1) 0 m
    (Nat.zero_le _) (Nat.lt_succ_of_le (Nat.sub_le _ _)) hm₁
  rw [Nat.mul_zero] at hloop
  obtain ⟨k₀, hoff, hk₀, -⟩ :=
    dirFree_eq (f := fileByte s.disk (s.inode dp)) (S := (s.inode dp).size)
  have hoffS : dirFree (fileByte s.disk (s.inode dp)) (s.inode dp).size ≤ (s.inode dp).size := by
    have := hd.size
    unfold DIRENT DIRSIZ at *
    omega
  obtain ⟨m', hm'⟩ : ∃ m', m' = writeLE (strncpy m₂ (de + 2) name DIRSIZ) de inum 2 := ⟨_, rfl⟩
  have hentry := dirlink_entry m₂ inum hap
  rw [← hm'] at hentry
  have hkeep : Keeps (InDirent de) s.mem m' :=
    (hm₂.trans (hm' ▸ keeps_dirlink_entry m₂)).mono fun _ hx => hx.elim id id
  have hname : strView m₂ name DIRSIZ = strView s.mem name DIRSIZ := strView_name hm₂ hap
  have hend : dirFree (fileByte s.disk (s.inode dp)) (s.inode dp).size + DIRENT ≤
      MAXFILE * BSIZE := by omega
  obtain ⟨tot, t, hw, hpost⟩ := writei_spec (s := { s with mem := m' }) hok hsb hm hinum de
    hoffS hend
  have hblk : dirFree (fileByte s.disk (s.inode dp)) (s.inode dp).size % BSIZE + DIRENT ≤ BSIZE := by
    rw [hoff]
    unfold DIRENT DIRSIZ BSIZE
    omega
  have h01 := writei_one_block (s := { s with mem := m' }) hoffS hend hblk (by decide) hw
  have hrun : (dirlink sb dp name inum de).run s =
      .ok (if (tot : Int) ≠ (DIRENT : Int) then -1 else 0, t) := by
    rw [dirlink_run_absent (hl.trans rfl) hloop]
    subst hm'
    exact (congrArg (fun x => x >>= fun p : Int × FsState =>
      (Except.ok (if p.1 ≠ (DIRENT : Int) then -1 else 0, p.2) : Except String (Int × FsState))) hw).trans
      rfl
  have htmem : t.mem = m' := hpost.mem
  have hsize := hpost.size
  dsimp only at hsize
  rcases h01 with h0 | hD
  · -- nothing written: the disk is full
    obtain rfl : tot = 0 := by exact_mod_cast h0
    have hsz : (t.inode dp).size = (s.inode dp).size := by
      rw [hsize]
      exact max_eq_left hoffS
    refine ⟨-1, t, by rw [hrun, if_pos (by decide)], htmem ▸ hkeep,
      .inr ⟨rfl, hpost.full (by decide), hsz, fun v => ?_⟩⟩
    rw [hsz]
    exact dirFind_congr fun x hx => by rw [hpost.bytes x (hsz ▸ hx), copyFrom_zero]
  · -- the entry written: the directory's bytes are those of the map with it
    obtain rfl : tot = DIRENT := by exact_mod_cast hD
    have hLW : LinkWrite (fileByte s.disk (s.inode dp)) (s.inode dp).size
        (copyFrom (fileByte s.disk (s.inode dp))
          (dirFree (fileByte s.disk (s.inode dp)) (s.inode dp).size) m' de DIRENT)
        (strView s.mem name DIRSIZ) :=
      linkWrite_copyFrom hd.size (by rw [hentry.1, Nat.mod_eq_of_lt h16]; omega)
        (by rw [hentry.2, hname]) habs
    have hagree : ∀ x < (t.inode dp).size, fileByte t.disk (t.inode dp) x =
        copyFrom (fileByte s.disk (s.inode dp))
          (dirFree (fileByte s.disk (s.inode dp)) (s.inode dp).size) m' de DIRENT x :=
      hpost.bytes
    have hfind : ∀ v, dirFind (fileByte t.disk (t.inode dp)) (t.inode dp).size v =
        if v = strView s.mem name DIRSIZ then
          some (dirFree (fileByte s.disk (s.inode dp)) (s.inode dp).size)
        else dirFind (fileByte s.disk (s.inode dp)) (s.inode dp).size v := fun v => by
      rw [dirFind_congr hagree, hsize]
      exact hLW.dirFind_eq v
    have htype : (t.inode dp).type = T_DIR := by
      rw [hpost.fields]
      exact hd.type
    have hnew : entryInum (copyFrom (fileByte s.disk (s.inode dp))
        (dirFree (fileByte s.disk (s.inode dp)) (s.inode dp).size) m' de DIRENT)
        (dirFree (fileByte s.disk (s.inode dp)) (s.inode dp).size) = inum := by
      rw [entryInum, entryInum_copyFrom]
      exact hentry.1.trans (Nat.mod_eq_of_lt h16)
    refine ⟨0, t, by rw [hrun, if_neg (not_not.mpr rfl)], htmem ▸ hkeep,
      .inl ⟨rfl, DirOk.of_agree hagree htype ?_ ?_ ?_, hpost.ok, ?_, hfind⟩⟩
    · rw [hsize]
      have := hd.size
      unfold DIRENT DIRSIZ at *
      omega
    · rw [hsize]
      exact hLW.inum_lt hd.inum (hnew ▸ hin)
    · rw [hsize]
      exact hLW.unique hd.unique
    · rw [← hnew]
      exact readLE_congr 2 fun x h1 h2 => hagree x (by rw [hsize]; unfold DIRENT DIRSIZ at *; omega)

/-- `dirlink(dp, name, inum)` on a well-formed directory with room for one more entry, for a
name outside its buffer and an inode number that fits its `ushort`, with a free entry in the
inode table for `dirlookup`'s `iget`: it never panics, and memory changes only in its buffer.
A name the directory holds is refused with -1, and the disk and every held entry of the table
are as they were. A new name is written into the first free entry, or a new one at the end:
`dirlink` returns 0 and the directory maps the name to that entry and every other name as
before, and stays well formed; or the disk is full, `dirlink` returns -1 and the directory
maps every name as before. -/
theorem dirlink_spec (name inum de : Nat) (hsb : SbOk sb) (hm : MetaUsed sb s.disk) (hd : DirOk sb s.disk (s.inode dp))
    (hok : FileOk sb s.disk (s.inode dp)) (hinum : (s.inode dp).inum < sb.ninodes)
    (hap : name + DIRSIZ ≤ de ∨ de + DIRENT ≤ name) (hfree : ∃ j, (s.inode j).ref = 0)
    (hroom : (s.inode dp).size + DIRENT ≤ MAXFILE * BSIZE)
    (hi0 : 0 < inum) (hin : inum < sb.ninodes) (h16 : inum < 2 ^ 16) :
    ∃ r t, (dirlink sb dp name inum de).run s = .ok (r, t) ∧ Keeps (InDirent de) s.mem t.mem ∧
      (dirFind (fileByte s.disk (s.inode dp)) (s.inode dp).size (strView s.mem name DIRSIZ) ≠ none →
        r = -1 ∧ t.disk = s.disk ∧
        ∀ j, (t.inode j).ref = (s.inode j).ref ∧ (0 < (s.inode j).ref → t.inode j = s.inode j)) ∧
      (dirFind (fileByte s.disk (s.inode dp)) (s.inode dp).size (strView s.mem name DIRSIZ) = none →
        (r = 0 ∧ DirOk sb t.disk (t.inode dp) ∧ FileOk sb t.disk (t.inode dp) ∧
          entryInum (fileByte t.disk (t.inode dp))
            (dirFree (fileByte s.disk (s.inode dp)) (s.inode dp).size) = inum ∧
          ∀ v, dirFind (fileByte t.disk (t.inode dp)) (t.inode dp).size v =
            if v = strView s.mem name DIRSIZ then
              some (dirFree (fileByte s.disk (s.inode dp)) (s.inode dp).size)
            else dirFind (fileByte s.disk (s.inode dp)) (s.inode dp).size v) ∨
        (r = -1 ∧ (∀ y < sb.size, used sb t.disk y = true) ∧
          (t.inode dp).size = (s.inode dp).size ∧
          ∀ v, dirFind (fileByte t.disk (t.inode dp)) (t.inode dp).size v =
            dirFind (fileByte s.disk (s.inode dp)) (s.inode dp).size v)) := by
  cases hfind : dirFind (fileByte s.disk (s.inode dp)) (s.inode dp).size
      (strView s.mem name DIRSIZ) with
  | some off =>
    obtain ⟨t, hrun, hdisk, hkeep, hrefs⟩ := dirlink_present inum hok hd.type hd.size hap
      hfree hfind
    exact ⟨-1, t, hrun, hkeep, fun _ => ⟨rfl, hdisk, hrefs⟩,
      fun h => absurd h (Option.some_ne_none off)⟩
  | none =>
    obtain ⟨r, t, hrun, hkeep, hcases⟩ := dirlink_absent hsb hm hd hok hinum hap hroom hi0 hin h16
      hfind
    exact ⟨r, t, hrun, hkeep, fun h => absurd rfl h, fun _ => hcases⟩

/-- A name `dirlink` adds is what `dirlookup` then finds: when `dirlink` of a new name returns
0, `dirlookup` of the same name returns `iget` of the inode number written, with the offset of
the entry `dirlink` used, and changes memory only in its buffer. -/
theorem dirlink_dirlookup (name inum de : Nat) (hsb : SbOk sb) (hm : MetaUsed sb s.disk)
    (hd : DirOk sb s.disk (s.inode dp)) (hok : FileOk sb s.disk (s.inode dp))
    (hinum : (s.inode dp).inum < sb.ninodes) (hap : name + DIRSIZ ≤ de ∨ de + DIRENT ≤ name)
    (hroom : (s.inode dp).size + DIRENT ≤ MAXFILE * BSIZE)
    (hi0 : 0 < inum) (hin : inum < sb.ninodes) (h16 : inum < 2 ^ 16)
    (habs : dirFind (fileByte s.disk (s.inode dp)) (s.inode dp).size (strView s.mem name DIRSIZ) =
      none) :
    ∃ r t, (dirlink sb dp name inum de).run s = .ok (r, t) ∧
      (r = 0 → ∃ m, Keeps (InDirent de) t.mem m ∧ (dirlookup sb dp name de).run t =
        (iget (t.inode dp).dev inum >>= fun ip =>
          pure (some (ip, dirFree (fileByte s.disk (s.inode dp)) (s.inode dp).size))).run
            { t with mem := m }) := by
  obtain ⟨r, t, hrun, hkeep, hcases⟩ := dirlink_absent hsb hm hd hok hinum hap hroom hi0 hin h16 habs
  refine ⟨r, t, hrun, fun hr => ?_⟩
  rcases hcases with ⟨-, hd', hok', hent, hfind⟩ | ⟨hr', -⟩
  · obtain ⟨m, hm', hl⟩ := dirlookup_spec name de hok' hd'.type hd'.size hap
    refine ⟨m, hm', ?_⟩
    rw [hl, strView_name hkeep hap, hfind, if_pos rfl, lookupResult, hent]
  · rw [hr] at hr'
    exact absurd hr' (by decide)

end Link

/-- An empty directory, inode 1, in entry 0 of the inode table, every other entry free, on the
disk `mkfs` leaves, and the name `"a"` at address 0. -/
def emptyDirState : FsState :=
  { mkfsState with
    mem := fun x => if x = 0 then 97 else 0
    inode := fun j => if j = 0 then { emptyFile with type := T_DIR } else { emptyFile with ref := 0 } }

theorem emptyDirState_dirOk : DirOk mkfsSb emptyDirState.disk (emptyDirState.inode 0) :=
  ⟨rfl, rfl, fun j hj => absurd hj (Nat.not_lt_zero j), fun _ j _ hj => absurd hj (Nat.not_lt_zero j)⟩

/-- `dirlink(dp, "a", 2)` in the empty directory: `"a"` is then found at offset 0, unless the
disk was full. -/
theorem dirlink_spec_empty : ∃ r t, (dirlink mkfsSb 0 0 2 100).run emptyDirState = .ok (r, t) ∧
    ((r = 0 ∧ dirFind (fileByte t.disk (t.inode 0)) (t.inode 0).size [97] = some 0) ∨ r = -1) := by
  obtain ⟨r, t, hrun, -, -, habs⟩ := dirlink_spec 0 2 100 mkfsSb_ok mkfsDisk_metaUsed emptyDirState_dirOk
    (FileOk.empty (fun _ => rfl) rfl) (by decide) (by decide) ⟨1, rfl⟩ (by decide) (by decide)
    (by decide) (by decide)
  refine ⟨r, t, hrun, ?_⟩
  rcases habs rfl with ⟨rfl, -, -, -, hfind⟩ | ⟨rfl, -⟩
  · exact .inl ⟨rfl, by rw [hfind, if_pos (by decide)]; rfl⟩
  · exact .inr rfl

/-- `dirlink(dp, "a", 2)` in the empty directory, then `dirlookup(dp, "a")`. -/
theorem dirlink_dirlookup_empty : ∃ r t, (dirlink mkfsSb 0 0 2 100).run emptyDirState = .ok (r, t) ∧
    (r = 0 → ∃ m, Keeps (InDirent 100) t.mem m ∧ (dirlookup mkfsSb 0 0 100).run t =
      (iget (t.inode 0).dev 2 >>= fun ip => pure (some (ip, 0))).run { t with mem := m }) :=
  dirlink_dirlookup 0 2 100 mkfsSb_ok mkfsDisk_metaUsed emptyDirState_dirOk
    (FileOk.empty (fun _ => rfl) rfl) (by decide) (by decide) (by decide) (by decide) (by decide)
    (by decide) rfl

end Xv6
