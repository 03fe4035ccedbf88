import Mathlib.Order.Basic
import Xv6.Kernel.Param

/-! Path names: `skipelem`, and `namex` over a directory tree, of `fs.c`. A path is the list of
its bytes before the NUL. Its elements are the maximal non-empty runs of bytes other than `'/'`,
the non-empty parts of `List.splitOn '/'`. One `skipelem` takes the first run and leaves a
rest with no leading `'/'` whose runs are the others; the name buffer then holds the run's
first `DIRSIZ` bytes, with a NUL after a shorter one. `namex` stops early exactly when that
rest is empty, so `nameiparent` resolves every run but the last. -/
namespace Xv6

/-- `#define DIRSIZ 14`: the bytes of a name in a directory entry. -/
def DIRSIZ : Nat := 14
/-- `#define ROOTINO 1`: the root directory's inode number. -/
def ROOTINO : Nat := 1

/-- The NUL byte. -/
def nul : Char := Char.ofNat 0

/-- The elements of a path: its maximal non-empty runs of bytes other than `'/'`. -/
def runs (path : List Char) : List (List Char) :=
  (path.splitOn '/').filter (· ≠ [])

theorem runs_nil : runs [] = [] := rfl

/-- What `dropWhile` stops at fails its test. -/
theorem head?_dropWhile_of_eq {p : Char → Bool} {l : List Char} {x : Char}
    (h : (l.dropWhile p).head? = some x) : p x = false := by
  have := List.head?_dropWhile_not p l
  rw [h] at this
  exact this

/-- After the slashes are skipped, no slash leads. -/
theorem head?_dropWhile_slash (path : List Char) :
    (path.dropWhile (· == '/')).head? ≠ some '/' := fun h => by
  have := head?_dropWhile_of_eq h
  simp at this

theorem runs_slash (path : List Char) : runs ('/' :: path) = runs path := by
  simp only [runs, List.splitOn_eq_splitOnP, List.splitOnP_cons_eq_if_modifyHead, beq_self_eq_true,
    if_true, List.filter_cons, ne_eq, not_true_eq_false, decide_false, Bool.false_eq_true,
    if_false]

/-- A run followed by nothing or by a slash is the first element. -/
theorem runs_append {r rest : List Char} (hr : r ≠ []) (hs : ∀ c ∈ r, c ≠ '/')
    (hrest : rest.head? ≠ some '/' → rest = []) : runs (r ++ rest) = r :: runs rest := by
  have hp : ∀ c ∈ r, (c == '/') = false := fun c hc => by simpa using hs c hc
  by_cases hslash : rest.head? = some '/'
  · obtain ⟨as, rfl⟩ : ∃ as, rest = '/' :: as := by
      cases rest with
      | nil => cases hslash
      | cons c as => exact ⟨as, by simp at hslash; rw [hslash]⟩
    rw [runs_slash]
    simp only [runs, List.splitOn_eq_splitOnP,
      List.splitOnP_append_cons_of_forall_mem hp '/' (beq_self_eq_true _), List.filter_cons,
      ne_eq, hr, not_false_eq_true, decide_true, if_true]
  · rw [hrest hslash, List.append_nil]
    simp only [runs, List.splitOn_eq_splitOnP, List.splitOnP_eq_singleton hp, List.filter_cons,
      ne_eq, hr, not_false_eq_true, decide_true, if_true, List.filter_nil]
    rfl

/-- Leading slashes separate nothing. -/
theorem runs_dropWhile_slash (path : List Char) : runs (path.dropWhile (· == '/')) = runs path := by
  induction path with
  | nil => rfl
  | cons c path ih =>
    by_cases hc : c = '/'
    · subst hc
      rw [List.dropWhile_cons, if_pos (beq_self_eq_true '/'), ih, runs_slash]
    · rw [List.dropWhile_cons, if_neg (by simpa using hc)]

/-- A path with a run is that run, then a rest that is empty or starts with a slash. -/
theorem runs_of_head {path : List Char} (hne : path ≠ []) (hh : path.head? ≠ some '/') :
    runs path = path.takeWhile (· != '/') :: runs (path.dropWhile (· != '/')) := by
  have hr : path.takeWhile (· != '/') ≠ [] := by
    cases path with
    | nil => exact absurd rfl hne
    | cons c p =>
      have hc : c ≠ '/' := fun h => hh (by rw [h]; rfl)
      rw [List.takeWhile_cons_of_pos (by simpa using hc)]
      exact List.cons_ne_nil _ _
  have hs : ∀ c ∈ path.takeWhile (· != '/'), c ≠ '/' := fun c hc => by
    simpa using List.all_eq_true.mp List.all_takeWhile c hc
  have hrest : (path.dropWhile (· != '/')).head? ≠ some '/' → path.dropWhile (· != '/') = [] :=
    fun h => by
      cases hd : path.dropWhile (· != '/') with
      | nil => rfl
      | cons c p =>
        have hc := head?_dropWhile_of_eq (show (path.dropWhile (· != '/')).head? = some c by
          rw [hd]; rfl)
        simp only [bne_eq_false_iff_eq] at hc
        rw [hd, hc] at h
        exact absurd rfl h
  conv_lhs => rw [← List.takeWhile_append_dropWhile (p := (· != '/')) (l := path)]
  exact runs_append hr hs hrest

/-- `memmove(name, s, n)` into the name buffer: its first `n` bytes become `s`'s. -/
def nameCopy (name : Nat → Char) (s : List Char) (n : Nat) : Nat → Char :=
  fun i => if i < n then s.getD i nul else name i

/-- `if(len >= DIRSIZ) memmove(name, s, DIRSIZ); else { memmove(name, s, len); name[len] = 0; }`
for the element `s` of length `len`. -/
def storeName (name : Nat → Char) (s : List Char) : Nat → Char :=
  if s.length ≥ DIRSIZ then nameCopy name s DIRSIZ
  else Function.update (nameCopy name s s.length) s.length nul

/-- `skipelem(path, name)`: skip the leading slashes, copy the next element into `name`, skip
the slashes after it, and return the rest; `none` stands for the null pointer returned when
no element is left. -/
def skipelem (path : List Char) (name : Nat → Char) : Option (List Char × (Nat → Char)) :=
  let path := path.dropWhile (· == '/')
  if path = [] then none
  else
    let s := path.takeWhile (· != '/')
    let path := path.dropWhile (· != '/')
    some (path.dropWhile (· == '/'), storeName name s)

/-- The name buffer holds the element `r`: its first `min (length r) DIRSIZ` bytes, followed by
a NUL when `r` is shorter than `DIRSIZ`. -/
def NameHolds (name : Nat → Char) (r : List Char) : Prop :=
  (∀ i < min r.length DIRSIZ, name i = r.getD i nul) ∧ (r.length < DIRSIZ → name r.length = nul)

theorem nameHolds_storeName (name : Nat → Char) (r : List Char) : NameHolds (storeName name r) r := by
  unfold storeName
  constructor
  · intro i hi
    split_ifs with hlen
    · simp only [nameCopy, if_pos (lt_of_lt_of_le hi (min_le_right _ _))]
    · rw [Function.update_of_ne (by omega)]
      simp only [nameCopy, if_pos (lt_of_lt_of_le hi (min_le_left _ _))]
  · intro hlt
    rw [if_neg (Nat.not_le.mpr hlt), Function.update_self]

/-- `skipelem` of a path with no element returns 0. -/
theorem skipelem_of_runs_nil {path : List Char} (name : Nat → Char) (h : runs path = []) :
    skipelem path name = none := by
  rw [← runs_dropWhile_slash] at h
  have hnil : path.dropWhile (· == '/') = [] := by
    by_contra hne
    rw [runs_of_head hne (head?_dropWhile_slash path)] at h
    exact List.cons_ne_nil _ _ h
  simp only [skipelem, hnil, if_true]

/-- `skipelem` of a path whose elements are `r :: rs` stores `r` in `name`, and the returned rest
has no leading slash and its elements are `rs`. -/
theorem skipelem_of_runs_cons {path r : List Char} {rs : List (List Char)} (name : Nat → Char)
    (h : runs path = r :: rs) :
    ∃ rest, skipelem path name = some (rest, storeName name r) ∧ runs rest = rs ∧
      rest.head? ≠ some '/' ∧ r ⊆ path ∧ rest ⊆ path := by
  set p := path.dropWhile (· == '/') with hp
  rw [← runs_dropWhile_slash, ← hp] at h
  have hne : p ≠ [] := fun he => by rw [he, runs_nil] at h; exact List.cons_ne_nil _ _ h.symm
  rw [runs_of_head hne (head?_dropWhile_slash path)] at h
  obtain ⟨hr, hrs⟩ := List.cons.inj h
  have hsub : p.Sublist path := List.dropWhile_sublist _
  refine ⟨(p.dropWhile (· != '/')).dropWhile (· == '/'), ?_, ?_, head?_dropWhile_slash _, ?_, ?_⟩
  · simp only [skipelem, ← hp, if_neg hne, hr]
  · rw [runs_dropWhile_slash, hrs]
  · rw [← hr]
    exact ((List.takeWhile_sublist _).trans hsub).subset
  · exact (((List.dropWhile_sublist _).trans (List.dropWhile_sublist _)).trans hsub).subset

/-- The rest is shorter than the path. -/
theorem skipelem_length_lt {path rest : List Char} {name name' : Nat → Char}
    (h : skipelem path name = some (rest, name')) : rest.length < path.length := by
  simp only [skipelem] at h
  split_ifs at h with hne
  cases h
  obtain ⟨c, q, hcq⟩ := List.exists_cons_of_ne_nil hne
  have hc : (c != '/') = true := by
    have := head?_dropWhile_slash path
    rw [hcq] at this
    simpa using this
  have hq : (c :: q).dropWhile (· != '/') = q.dropWhile (· != '/') := by
    rw [List.dropWhile_cons, if_pos hc]
  have hp : (c :: q).length ≤ path.length := hcq ▸ (List.dropWhile_sublist _).length_le
  rw [hcq, hq]
  calc ((q.dropWhile (· != '/')).dropWhile (· == '/')).length
      ≤ (q.dropWhile (· != '/')).length := (List.dropWhile_sublist _).length_le
    _ ≤ q.length := (List.dropWhile_sublist _).length_le
    _ < (c :: q).length := Nat.lt_succ_self _
    _ ≤ path.length := hp

/-- The values `namex`'s loop `while((path = skipelem(path, name)) != 0)` sees: each rest and the
name buffer after each call, until `skipelem` returns 0. -/
def skipelems (path : List Char) (name : Nat → Char) : List (List Char × (Nat → Char)) :=
  match h : skipelem path name with
  | none => []
  | some (rest, name') => (rest, name') :: skipelems rest name'
termination_by path.length
decreasing_by exact skipelem_length_lt h

theorem skipelems_of_none {path : List Char} {name : Nat → Char} (h : skipelem path name = none) :
    skipelems path name = [] := by
  rw [skipelems]
  split <;> simp_all

theorem skipelems_of_some {path rest : List Char} {name name' : Nat → Char}
    (h : skipelem path name = some (rest, name')) :
    skipelems path name = (rest, name') :: skipelems rest name' := by
  rw [skipelems]
  split <;> simp_all

/-- Iterating `skipelem` visits the elements of the path in order: after the `i`-th call `name`
holds the `i`-th element and the rest has no leading slash, and the calls stop at the last. -/
theorem skipelems_runs (path : List Char) (name : Nat → Char) :
    List.Forall₂ (fun x r => NameHolds x.2 r ∧ x.1.head? ≠ some '/') (skipelems path name)
      (runs path) := by
  -- induction on the elements, with the path and the buffer moving along
  generalize hrs : runs path = rs
  induction rs generalizing path name with
  | nil => rw [skipelems_of_none (skipelem_of_runs_nil name hrs)]; exact .nil
  | cons r rs ih =>
    obtain ⟨rest, hskip, hrest, hhead, -, -⟩ := skipelem_of_runs_cons name hrs
    rw [skipelems_of_some hskip]
    exact .cons ⟨nameHolds_storeName name r, hhead⟩ (ih rest (storeName name r) hrest)

/-- `strncmp`'s view of a name buffer from byte `i` on: at most `n` bytes, up to a NUL. -/
def nameBytes (name : Nat → Char) : Nat → Nat → List Char
  | _, 0 => []
  | i, n + 1 => if name i = nul then [] else name i :: nameBytes name (i + 1) n

/-- What `namecmp(name, .)`, which is `strncmp(name, ., DIRSIZ)`, compares of `name`. -/
def namecmpView (name : Nat → Char) : List Char := nameBytes name 0 DIRSIZ

/-- The directories `namex` walks: whether an inode is a directory, as `ilock` reads its type,
and `dirlookup`'s answer for a name, as `namecmp` sees the name. -/
structure DirTree where
  isDir : Nat → Bool
  lookup : Nat → List Char → Option Nat

/-- The loop of `namex(path, nameiparent, name)` from the inode `ip`: the inode it returns
(`none` for 0) and the name buffer at the end. `iget`, `ilock` and `iput` only count
references, and are left out. -/
def namexLoop (t : DirTree) (nameiparent : Bool) (path : List Char) (ip : Nat)
    (name : Nat → Char) : Option Nat × (Nat → Char) :=
  match h : skipelem path name with
  | none => (if nameiparent then none else some ip, name)
  | some (rest, name') =>
    if !t.isDir ip then (none, name')
    -- `*path == '\0'`: the element just copied is the last
    else if nameiparent && rest.isEmpty then (some ip, name')
    else match t.lookup ip (namecmpView name') with
      | none => (none, name')
      | some next => namexLoop t nameiparent rest next name'
termination_by path.length
decreasing_by exact skipelem_length_lt h

/-- `namex(path, nameiparent, name)`: from the root for an absolute path, otherwise from the
current directory `cwd`. `namei` is `nameiparent = false`, `nameiparent` is `true`. -/
def namex (t : DirTree) (cwd : Nat) (path : List Char) (nameiparent : Bool)
    (name : Nat → Char) : Option Nat × (Nat → Char) :=
  namexLoop t nameiparent path (if path.head? = some '/' then ROOTINO else cwd) name

/-- Looking the elements up one by one from `ip`, each in a directory. -/
def resolve (t : DirTree) (ip : Nat) : List (List Char) → Option Nat
  | [] => some ip
  | r :: rs =>
    if t.isDir ip then (t.lookup ip (r.take DIRSIZ)).bind fun next => resolve t next rs else none

/-- `ip` if it is a directory. -/
def dirOnly (t : DirTree) (ip : Nat) : Option Nat := if t.isDir ip then some ip else none

/-- `strncmp` sees a stored element without NUL as its first `DIRSIZ` bytes. -/
theorem nameBytes_of_holds {name : Nat → Char} :
    ∀ (r : List Char) (i n : Nat), nul ∉ r →
      (∀ j < min r.length n, name (i + j) = r.getD j nul) →
      (r.length < n → name (i + r.length) = nul) → nameBytes name i n = r.take n := by
  intro r i n
  induction n generalizing r i with
  | zero => intro _ _ _; rfl
  | succ n ih =>
    intro hr hpre hend
    cases r with
    | nil =>
      have h0 : name i = nul := hend (Nat.succ_pos n)
      simp only [nameBytes, h0, if_true, List.take_nil]
    | cons c r =>
      have hc : name i = c := hpre 0 (by simp)
      have hcn : c ≠ nul := fun he => hr (he ▸ List.mem_cons_self)
      rw [nameBytes, hc, if_neg hcn, List.take_succ_cons,
        ih r (i + 1) (fun h => hr (List.mem_cons_of_mem c h)) (fun j hj => ?_) (fun hlt => ?_)]
      · rw [show i + 1 + j = i + (j + 1) by omega, hpre (j + 1) (by simp at hj ⊢; omega)]
        rfl
      · rw [show i + 1 + r.length = i + (c :: r).length by simp; omega]
        exact hend (by simp; omega)

theorem namecmpView_storeName (name : Nat → Char) {r : List Char} (hr : nul ∉ r) :
    namecmpView (storeName name r) = r.take DIRSIZ := by
  obtain ⟨hpre, hend⟩ := nameHolds_storeName name r
  exact nameBytes_of_holds r 0 DIRSIZ hr (fun j hj => by rw [Nat.zero_add]; exact hpre j hj)
    (fun hlt => by rw [Nat.zero_add]; exact hend hlt)

section Namex

variable (t : DirTree)

theorem namexLoop_of_none {b : Bool} {path : List Char} {ip : Nat} {name : Nat → Char}
    (h : skipelem path name = none) :
    namexLoop t b path ip name = (if b then none else some ip, name) := by
  rw [namexLoop]
  split <;> simp_all

theorem namexLoop_of_some {b : Bool} {path rest : List Char} {ip : Nat} {name name' : Nat → Char}
    (h : skipelem path name = some (rest, name')) :
    namexLoop t b path ip name =
      if !t.isDir ip then (none, name')
      else if b && rest.isEmpty then (some ip, name')
      else match t.lookup ip (namecmpView name') with
        | none => (none, name')
        | some next => namexLoop t b rest next name' := by
  rw [namexLoop]
  split <;> simp_all

/-- `namei`: every element is looked up, each in a directory. -/
theorem namexLoop_namei :
    ∀ (rs : List (List Char)) (path : List Char) (ip : Nat) (name : Nat → Char),
      runs path = rs → nul ∉ path → (namexLoop t false path ip name).1 = resolve t ip rs := by
  intro rs
  induction rs with
  | nil =>
    intro path ip name hrs _
    rw [namexLoop_of_none t (skipelem_of_runs_nil name hrs)]
    rfl
  | cons r rs ih =>
    intro path ip name hrs hnul
    obtain ⟨rest, hskip, hrest, -, hsubr, hsubrest⟩ := skipelem_of_runs_cons name hrs
    rw [namexLoop_of_some t hskip, resolve,
      namecmpView_storeName name (fun h => hnul (hsubr h))]
    by_cases hd : t.isDir ip
    · simp only [hd, Bool.not_true, Bool.false_eq_true, if_false, Bool.false_and, if_true]
      cases t.lookup ip (r.take DIRSIZ) with
      | none => rfl
      | some next => exact ih rest next _ hrest (fun h => hnul (hsubrest h))
    · simp only [hd, Bool.not_false, if_true, Bool.false_eq_true, if_false]

/-- `nameiparent`: every element but the last is looked up, the inode reached is returned if
it is a directory, and the name buffer holds the last element. -/
theorem namexLoop_nameiparent :
    ∀ (rs : List (List Char)) (path : List Char) (ip : Nat) (name : Nat → Char),
      runs path = rs → nul ∉ path →
        (namexLoop t true path ip name).1 =
          (if rs = [] then none else (resolve t ip rs.dropLast).bind (dirOnly t)) ∧
        ∀ p, (namexLoop t true path ip name).1 = some p →
          NameHolds (namexLoop t true path ip name).2 (rs.getLast?.getD []) := by
  intro rs
  induction rs with
  | nil =>
    intro path ip name hrs _
    rw [namexLoop_of_none t (skipelem_of_runs_nil name hrs)]
    exact ⟨rfl, fun p hp => by cases hp⟩
  | cons r rs ih =>
    intro path ip name hrs hnul
    obtain ⟨rest, hskip, hrest, hhead, hsubr, hsubrest⟩ := skipelem_of_runs_cons name hrs
    rw [namexLoop_of_some t hskip, namecmpView_storeName name (fun h => hnul (hsubr h))]
    have hempty : rest.isEmpty = rs.isEmpty := by
      rw [← hrest]
      cases rest with
      | nil => rfl
      | cons c q =>
        have hc : c ≠ '/' := fun h => hhead (by rw [h]; rfl)
        rw [runs_of_head (List.cons_ne_nil c q) hhead]
        rfl
    by_cases hd : t.isDir ip
    · cases rs with
      | nil =>
        simp only [hd, hempty, Bool.not_true, Bool.false_eq_true, if_false, List.isEmpty_nil,
          Bool.and_self, if_true]
        refine ⟨by simp [resolve, dirOnly, hd], fun p _ => nameHolds_storeName name r⟩
      | cons r' rs =>
        simp only [hd, hempty, Bool.not_true, Bool.false_eq_true, if_false, List.isEmpty_cons,
          Bool.and_false]
        cases hl : t.lookup ip (r.take DIRSIZ) with
        | none =>
          refine ⟨by simp [resolve, hd, hl], fun p hp => by cases hp⟩
        | some next =>
          obtain ⟨h1, h2⟩ := ih rest next _ hrest (fun h => hnul (hsubrest h))
          refine ⟨?_, fun p hp => ?_⟩
          · rw [h1, List.dropLast_cons_cons, resolve, if_pos hd, hl]
            simp
          · have := h2 p hp
            rwa [List.getLast?_cons_cons]
    · simp only [hd, Bool.not_false, if_true]
      refine ⟨?_, fun p hp => by cases hp⟩
      cases rs with
      | nil => simp [resolve, dirOnly, hd]
      | cons r' rs => simp [resolve, hd]

end Namex

/-- Iterating `skipelem` yields the path's elements in order, each stored in `name` as its
first `DIRSIZ` bytes with a NUL after a shorter one, and every rest has no leading slash.
`nameiparent` looks up all elements but the last, returns 0 for a path without elements, and
leaves the last element in `name`; `namei` looks up all of them. -/
theorem skipelem_path_elements (path : List Char) (hnul : nul ∉ path) :
    (∀ name, List.Forall₂ (fun x r => NameHolds x.2 r ∧ x.1.head? ≠ some '/')
      (skipelems path name) (runs path)) ∧
    ∀ (t : DirTree) (cwd : Nat) (name : Nat → Char),
      let start := if path.head? = some '/' then ROOTINO else cwd
      (namex t cwd path true name).1 =
          (if runs path = [] then none else (resolve t start (runs path).dropLast).bind (dirOnly t)) ∧
        (∀ p, (namex t cwd path true name).1 = some p →
          NameHolds (namex t cwd path true name).2 ((runs path).getLast?.getD [])) ∧
        (namex t cwd path false name).1 = resolve t start (runs path) :=
  ⟨skipelems_runs path, fun t cwd name =>
    ⟨(namexLoop_nameiparent t _ path _ name rfl hnul).1, (namexLoop_nameiparent t _ path _ name rfl hnul).2,
      namexLoop_namei t _ path _ name rfl hnul⟩⟩

/-- Every inode a directory, whose every entry leads to inode 2. -/
def allDirs : DirTree := ⟨fun _ => true, fun _ _ => some 2⟩

/-- `nameiparent("/usr//bin/")` looks up `usr` from the root and stops before `bin`. -/
theorem skipelem_path_elements_usr_bin :
    nul ∉ "/usr//bin/".toList ∧ (namex allDirs 5 "/usr//bin/".toList true (fun _ => nul)).1 = some 2 := by
  have hnul : nul ∉ "/usr//bin/".toList := by decide
  refine ⟨hnul, ?_⟩
  rw [((skipelem_path_elements _ hnul).2 allDirs 5 (fun _ => nul)).1]
  decide

end Xv6
