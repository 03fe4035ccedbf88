import Xv6.Kernel.VmSpec
import Xv6.Kernel.KallocInv
import Mathlib.Data.Nat.Bitwise

/-! A user page table read as a finite map from virtual pages to leaf PTEs. The tree is
well formed when its root and the pages its valid non-leaf entries lead to are distinct
page-table pages that `kalloc` handed out, and its non-leaf entries carry no permission.
Then a page's leaf is found along one path only, so the three operations of `vm.c` act on
the map as updates: a store to a leaf changes the leaf of one page, linking a fresh zeroed
page in for a missing level changes no leaf at all, and a store outside the tree's pages
changes nothing. `mappages` and `uvmunmap` are runs of these steps. -/
namespace Xv6
open ByteMem StateExcept ListFamily

theorem PX_eq (level va : Nat) : PX level va = va / 2 ^ (12 + 9 * level) % 512 := by
  unfold PX PXSHIFT PGSHIFT PXMASK
  rw [Nat.shiftRight_eq_div_pow, show (0x1FF : Nat) = 2 ^ 9 - 1 from rfl,
    Nat.and_two_pow_sub_one_eq_mod]

theorem PX_lt (level va : Nat) : PX level va < 512 := by
  rw [PX_eq]
  exact Nat.mod_lt _ (by decide)

/-- An entry lies inside its page-table page. -/
theorem pteAddr_add_le (p level va : Nat) : pteAddr p level va + 8 ≤ p + PGSIZE := by
  have := PX_lt level va
  unfold pteAddr PGSIZE
  omega

/-- The index at every level depends only on the page of `va`. -/
theorem PX_PGROUNDDOWN (level va : Nat) : PX level (PGROUNDDOWN va) = PX level va := by
  have hpow : 2 ^ (12 + 9 * level) = PGSIZE * 2 ^ (9 * level) := by
    rw [Nat.pow_add]
    rfl
  rw [PX_eq, PX_eq, PGROUNDDOWN, hpow, ← Nat.div_div_eq_div_mul, ← Nat.div_div_eq_div_mul,
    Nat.mul_div_cancel _ (by decide)]

/-- Below `MAXVA` two addresses are in the same page exactly when their indices agree at
all three levels: the top index has only 8 bits in use. -/
theorem PX_eq_iff {a b : Nat} (ha : a < MAXVA) (hb : b < MAXVA) :
    (PX 2 a = PX 2 b ∧ PX 1 a = PX 1 b ∧ PX 0 a = PX 0 b) ↔ PGROUNDDOWN a = PGROUNDDOWN b := by
  simp only [PX_eq, PGROUNDDOWN, PGSIZE]
  unfold MAXVA at ha hb
  norm_num at ha hb ⊢
  omega

/-- Two entries are disjoint words unless they are the same entry of the same page. -/
theorem pteAddr_sep {p q : Nat} (hp : p % PGSIZE = 0) (hq : q % PGSIZE = 0) {l l' va vb : Nat}
    (h : p ≠ q ∨ PX l va ≠ PX l' vb) :
    pteAddr p l va + 8 ≤ pteAddr q l' vb ∨ pteAddr q l' vb + 8 ≤ pteAddr p l va := by
  have h1 := PX_lt l va
  have h2 := PX_lt l' vb
  unfold pteAddr
  unfold PGSIZE at hp hq
  omega

/-- `PTE_V` and the other flags are single bits: `hasFlag` reads one bit. -/
theorem hasFlag_two_pow (x k : Nat) : hasFlag x (2 ^ k) = x.testBit k := by
  unfold hasFlag
  rw [Nat.and_two_pow]
  cases x.testBit k <;> simp

/-- A PTE made of a page address and flag bits below bit 10. -/
theorem PA2PTE_or {f : Nat} (pa : Nat) (hf : f < 2 ^ 10) :
    PA2PTE pa ||| f = 2 ^ 10 * (pa / 2 ^ 12) + f := by
  unfold PA2PTE
  rw [Nat.shiftLeft_eq, Nat.shiftRight_eq_div_pow, Nat.mul_comm,
    Nat.two_pow_add_eq_or_of_lt hf]

theorem hasFlag_PA2PTE_or {f : Nat} (pa : Nat) (hf : f < 2 ^ 10) {k : Nat} (hk : k < 10) :
    hasFlag (PA2PTE pa ||| f) (2 ^ k) = hasFlag f (2 ^ k) := by
  rw [hasFlag_two_pow, hasFlag_two_pow, PA2PTE_or pa hf, Nat.testBit_two_pow_mul_add _ hf,
    if_pos hk]

theorem PTE2PA_PA2PTE_or {f pa : Nat} (hf : f < 2 ^ 10) (hpa : pa % PGSIZE = 0)
    (hlt : pa < 2 ^ 64) : PTE2PA (PA2PTE pa ||| f) = pa := by
  rw [PA2PTE_or pa hf]
  unfold PTE2PA
  rw [Nat.shiftLeft_eq, Nat.shiftRight_eq_div_pow]
  unfold PGSIZE at hpa
  omega

theorem PTE_FLAGS_PA2PTE_or {f : Nat} (pa : Nat) (hf : f < 2 ^ 10) :
    PTE_FLAGS (PA2PTE pa ||| f) = f := by
  rw [PA2PTE_or pa hf]
  unfold PTE_FLAGS
  rw [show (0x3FF : Nat) = 2 ^ 10 - 1 from rfl, Nat.and_two_pow_sub_one_eq_mod]
  omega

/-- The page a valid entry leads to. -/
def entryTarget (e : Nat) : Option Nat := if hasFlag e PTE_V then some (PTE2PA e) else none

/-- The level-1 page-table page on the path of `va`. -/
def l1Page (m : Memory) (pagetable va : Nat) : Option Nat :=
  entryTarget (read64 m (pteAddr pagetable 2 va))

/-- The level-0 page-table page on the path of `va`. -/
def l0Page (m : Memory) (pagetable va : Nat) : Option Nat :=
  (l1Page m pagetable va).bind fun p1 => entryTarget (read64 m (pteAddr p1 1 va))

/-- The leaf PTE of `va`, and 0 where the path stops above level 0. -/
def leafPte (m : Memory) (pagetable va : Nat) : Nat :=
  match l0Page m pagetable va with
  | some p0 => read64 m (pteAddr p0 0 va)
  | none => 0

/-- The physical page a user access through the leaf `e` reaches. -/
def leafTarget (e : Nat) : Option Nat :=
  if hasFlag e PTE_V && hasFlag e PTE_U then some (PTE2PA e) else none

/-- The page-table pages of the tree: the root, and every page a valid entry above level 0
leads to on the path of an address below `MAXVA`. -/
def IsTable (m : Memory) (pagetable p : Nat) : Prop :=
  p = pagetable ∨ ∃ va < MAXVA, l1Page m pagetable va = some p ∨ l0Page m pagetable va = some p

/-- An entry with none of `PTE_R`, `PTE_W`, `PTE_X`: one that points to the next level. -/
def NoPerm (e : Nat) : Prop :=
  hasFlag e PTE_R = false ∧ hasFlag e PTE_W = false ∧ hasFlag e PTE_X = false

/-- A well-formed page-table tree at `pagetable`: its pages are pages `kfree` accepts, each
reached along one path only; the valid entries above level 0 carry no permission; and a
valid leaf has a flag besides `PTE_V`, as every leaf `mappages` writes with `PTE_U` does. -/
structure PTree (m : Memory) (kend pagetable : Nat) : Prop where
  managed : ∀ p, IsTable m pagetable p → Managed kend p
  l1_ne_root : ∀ va < MAXVA, l1Page m pagetable va ≠ some pagetable
  l0_ne_root : ∀ va < MAXVA, l0Page m pagetable va ≠ some pagetable
  l0_ne_l1 : ∀ va < MAXVA, ∀ vb < MAXVA, ∀ p,
    l0Page m pagetable va = some p → l1Page m pagetable vb ≠ some p
  l1_inj : ∀ va < MAXVA, ∀ vb < MAXVA, ∀ p,
    l1Page m pagetable va = some p → l1Page m pagetable vb = some p → PX 2 va = PX 2 vb
  l0_inj : ∀ va < MAXVA, ∀ vb < MAXVA, ∀ p,
    l0Page m pagetable va = some p → l0Page m pagetable vb = some p →
      PX 2 va = PX 2 vb ∧ PX 1 va = PX 1 vb
  perm2 : ∀ va < MAXVA, ∀ p1, l1Page m pagetable va = some p1 →
    NoPerm (read64 m (pteAddr pagetable 2 va))
  perm1 : ∀ va < MAXVA, ∀ p1 p0, l1Page m pagetable va = some p1 →
    l0Page m pagetable va = some p0 → NoPerm (read64 m (pteAddr p1 1 va))
  leaf : ∀ va < MAXVA, hasFlag (leafPte m pagetable va) PTE_V →
    PTE_FLAGS (leafPte m pagetable va) ≠ PTE_V

section View

variable {m m' : Memory} {pagetable va vb : Nat}

theorem l1Page_of_PX (h : PX 2 va = PX 2 vb) : l1Page m pagetable va = l1Page m pagetable vb := by
  unfold l1Page pteAddr
  rw [h]

theorem l0Page_of_PX (h2 : PX 2 va = PX 2 vb) (h1 : PX 1 va = PX 1 vb) :
    l0Page m pagetable va = l0Page m pagetable vb := by
  unfold l0Page
  rw [l1Page_of_PX h2]
  unfold pteAddr
  rw [h1]

theorem l0Page_of_l1 {p1 : Nat} (h : l1Page m pagetable va = some p1) :
    l0Page m pagetable va = entryTarget (read64 m (pteAddr p1 1 va)) := by
  rw [l0Page, h, Option.bind_some]

theorem l0Page_of_l1_none (h : l1Page m pagetable va = none) : l0Page m pagetable va = none := by
  rw [l0Page, h, Option.bind_none]

theorem leafPte_of_l0 {p0 : Nat} (h : l0Page m pagetable va = some p0) :
    leafPte m pagetable va = read64 m (pteAddr p0 0 va) := by
  rw [leafPte, h]

theorem leafPte_of_l0_none (h : l0Page m pagetable va = none) : leafPte m pagetable va = 0 := by
  rw [leafPte, h]

/-- The leaf depends only on the page of `va`. -/
theorem leafPte_PGROUNDDOWN (m : Memory) (pagetable va : Nat) :
    leafPte m pagetable (PGROUNDDOWN va) = leafPte m pagetable va := by
  unfold leafPte
  rw [l0Page_of_PX (PX_PGROUNDDOWN 2 va) (PX_PGROUNDDOWN 1 va)]
  unfold pteAddr
  rw [PX_PGROUNDDOWN]

/-- `walkPte` stops where the path does, and otherwise gives the leaf's address. -/
theorem walkPte_eq (m : Memory) (pagetable va : Nat) :
    walkPte m pagetable va = match l0Page m pagetable va with
      | some p0 => pteAddr p0 0 va
      | none => 0 := by
  unfold walkPte l0Page l1Page entryTarget
  by_cases h2 : hasFlag (read64 m (pteAddr pagetable 2 va)) PTE_V
  · by_cases h1 : hasFlag (read64 m (pteAddr (PTE2PA (read64 m (pteAddr pagetable 2 va))) 1 va))
        PTE_V
    · simp only [if_pos h2, if_pos h1, Option.bind_some]
    · simp only [if_pos h2, if_neg h1, Option.bind_some]
  · simp only [if_neg h2, Option.bind_none]

/-- With no level-0 page at 0, `translate` reads the leaf. -/
theorem translate_eq_leaf (h0 : ∀ p0, l0Page m pagetable va = some p0 → p0 ≠ 0)
    (hva : va < MAXVA) : translate m pagetable va = leafTarget (leafPte m pagetable va) := by
  unfold translate leafTarget leafPte
  rw [walkPte_eq]
  cases hp : l0Page m pagetable va with
  | none =>
    simp only [Nat.not_le.mpr hva, false_or, if_true]
    rfl
  | some p0 =>
    have hne : pteAddr p0 0 va ≠ 0 := by
      have := h0 p0 hp
      unfold pteAddr
      omega
    simp only [Nat.not_le.mpr hva, hne, or_self, if_false]

theorem read64_entry_of_agree {P : Nat → Prop} (h : AgreeOn m m' P) {p : Nat} (hp : P p)
    (level va : Nat) : read64 m' (pteAddr p level va) = read64 m (pteAddr p level va) :=
  readLE_congr 8 fun x h1 h2 =>
    h p hp x (by unfold pteAddr at h1; omega) (by have := pteAddr_add_le p level va; omega)

section Agree

variable (h : AgreeOn m m' (IsTable m pagetable))
include h

theorem l1Page_of_agree (va : Nat) : l1Page m' pagetable va = l1Page m pagetable va := by
  unfold l1Page
  rw [read64_entry_of_agree h (.inl rfl)]

theorem l0Page_of_agree (hva : va < MAXVA) : l0Page m' pagetable va = l0Page m pagetable va := by
  cases hp : l1Page m pagetable va with
  | none =>
    rw [l0Page_of_l1_none hp, l0Page_of_l1_none ((l1Page_of_agree h va).trans hp)]
  | some p1 =>
    rw [l0Page_of_l1 hp, l0Page_of_l1 ((l1Page_of_agree h va).trans hp),
      read64_entry_of_agree h (.inr ⟨va, hva, .inl hp⟩)]

theorem leafPte_of_agree (hva : va < MAXVA) : leafPte m' pagetable va = leafPte m pagetable va := by
  cases hp : l0Page m pagetable va with
  | none =>
    rw [leafPte_of_l0_none hp, leafPte_of_l0_none ((l0Page_of_agree h hva).trans hp)]
  | some p0 =>
    rw [leafPte_of_l0 hp, leafPte_of_l0 ((l0Page_of_agree h hva).trans hp),
      read64_entry_of_agree h (.inr ⟨va, hva, .inr hp⟩)]

theorem isTable_of_agree (p : Nat) : IsTable m' pagetable p ↔ IsTable m pagetable p := by
  unfold IsTable
  constructor
  · rintro (rfl | ⟨va, hva, h'⟩)
    · exact .inl rfl
    · rw [l1Page_of_agree h, l0Page_of_agree h hva] at h'
      exact .inr ⟨va, hva, h'⟩
  · rintro (rfl | ⟨va, hva, h'⟩)
    · exact .inl rfl
    · rw [← l1Page_of_agree h, ← l0Page_of_agree h hva] at h'
      exact .inr ⟨va, hva, h'⟩

/-- A store that misses every page of the tree keeps the tree and its leaves. -/
theorem PTree.of_agree {kend : Nat} (ht : PTree m kend pagetable) : PTree m' kend pagetable where
  managed p hp := ht.managed p ((isTable_of_agree h p).mp hp)
  l1_ne_root va hva := by rw [l1Page_of_agree h]; exact ht.l1_ne_root va hva
  l0_ne_root va hva := by rw [l0Page_of_agree h hva]; exact ht.l0_ne_root va hva
  l0_ne_l1 va hva vb hvb p := by
    rw [l0Page_of_agree h hva, l1Page_of_agree h]
    exact ht.l0_ne_l1 va hva vb hvb p
  l1_inj va hva vb hvb p := by
    rw [l1Page_of_agree h, l1Page_of_agree h]
    exact ht.l1_inj va hva vb hvb p
  l0_inj va hva vb hvb p := by
    rw [l0Page_of_agree h hva, l0Page_of_agree h hvb]
    exact ht.l0_inj va hva vb hvb p
  perm2 va hva p1 := by
    rw [l1Page_of_agree h, read64_entry_of_agree h (.inl rfl)]
    exact ht.perm2 va hva p1
  perm1 va hva p1 p0 h1 := by
    rw [l1Page_of_agree h] at h1
    rw [l0Page_of_agree h hva, read64_entry_of_agree h (.inr ⟨va, hva, .inl h1⟩)]
    exact ht.perm1 va hva p1 p0 h1
  leaf va hva := by
    rw [leafPte_of_agree h hva]
    exact ht.leaf va hva

end Agree

theorem PTree.aligned {kend : Nat} (ht : PTree m kend pagetable) {q : Nat}
    (hq : IsTable m pagetable q) : q % PGSIZE = 0 :=
  (ht.managed q hq).1

theorem PTree.root_isTable : IsTable m pagetable pagetable := .inl rfl

theorem isTable_of_l1 (hva : va < MAXVA) {p : Nat} (h : l1Page m pagetable va = some p) :
    IsTable m pagetable p :=
  .inr ⟨va, hva, .inl h⟩

theorem isTable_of_l0 (hva : va < MAXVA) {p : Nat} (h : l0Page m pagetable va = some p) :
    IsTable m pagetable p :=
  .inr ⟨va, hva, .inr h⟩

theorem PTree.ne_root_of_l1 {kend : Nat} (ht : PTree m kend pagetable) (hva : va < MAXVA)
    {p1 : Nat} (h1 : l1Page m pagetable va = some p1) : p1 ≠ pagetable :=
  fun he => ht.l1_ne_root va hva (h1.trans (congrArg some he))

theorem PTree.ne_root_of_l0 {kend : Nat} (ht : PTree m kend pagetable) (hva : va < MAXVA)
    {p0 : Nat} (h0 : l0Page m pagetable va = some p0) : p0 ≠ pagetable :=
  fun he => ht.l0_ne_root va hva (h0.trans (congrArg some he))

/-- A page outside the tree is none of its pages. -/
theorem ne_of_not_isTable {p q : Nat} (hnt : ¬ IsTable m pagetable p)
    (hq : IsTable m pagetable q) : p ≠ q := by
  rintro rfl
  exact hnt hq

/-- A store to one entry leaves every other entry of an aligned page. -/
theorem read64_write64_entry {p q : Nat} (hp : p % PGSIZE = 0) (hq : q % PGSIZE = 0)
    {l l' a b : Nat} (v : Nat) (h : p ≠ q ∨ PX l a ≠ PX l' b) :
    read64 (write64 m (pteAddr p l a) v) (pteAddr q l' b) = read64 m (pteAddr q l' b) :=
  read64_write64_of_ne m v (pteAddr_sep hq hp (h.imp Ne.symm Ne.symm))

theorem read64_entry_zero {p : Nat} (hz : ∀ x, p ≤ x → x < p + PGSIZE → m x = 0)
    (level va : Nat) : read64 m (pteAddr p level va) = 0 := by
  have hc : readLE m (pteAddr p level va) 8 = readLE (fun _ => 0) (pteAddr p level va) 8 :=
    readLE_congr 8 fun x h1 h2 =>
      hz x (by unfold pteAddr at h1; omega) (by have := pteAddr_add_le p level va; omega)
  rw [read64, hc, readLE_zero]

theorem entryTarget_zero : entryTarget 0 = none := rfl

/-- The entry `walk` writes to link the page `p` in. -/
def linkPte (p : Nat) : Nat := PA2PTE p ||| PTE_V

theorem linkPte_lt {p : Nat} (hlt : p < 2 ^ 64) : linkPte p < 2 ^ 64 := by
  unfold linkPte PTE_V
  rw [PA2PTE_or p (by decide)]
  omega

theorem entryTarget_linkPte {p : Nat} (hp : p % PGSIZE = 0) (hlt : p < 2 ^ 64) :
    entryTarget (linkPte p) = some p := by
  unfold entryTarget linkPte PTE_V
  rw [hasFlag_PA2PTE_or p (by decide) (by decide), PTE2PA_PA2PTE_or (by decide) hp hlt]
  rfl

theorem noPerm_linkPte (p : Nat) : NoPerm (linkPte p) := by
  unfold NoPerm linkPte PTE_V PTE_R PTE_W PTE_X
  rw [hasFlag_PA2PTE_or p (by decide) (by decide), hasFlag_PA2PTE_or p (by decide) (by decide),
    hasFlag_PA2PTE_or p (by decide) (by decide)]
  decide

theorem read64_write64_linkPte {p : Nat} (hlt : p < 2 ^ 64) (x : Nat) :
    read64 (write64 m x (linkPte p)) x = linkPte p :=
  read64_write64_self m x (linkPte p) (linkPte_lt hlt)

/-! ### Linking a new page at level 2

The root's entry for `a` is invalid, and `walk` links in `p`, a zeroed page that is not in
the tree. Every address whose top index is `a`'s now reaches `p`, whose entries are all
invalid: no leaf changes. -/

section Link2

variable {kend a p : Nat} (ht : PTree m kend pagetable) (ha : a < MAXVA)
  (hinv : hasFlag (read64 m (pteAddr pagetable 2 a)) PTE_V = false)
  (hp : Managed kend p) (hnt : ¬ IsTable m pagetable p)
  (hz : ∀ x, p ≤ x → x < p + PGSIZE → m x = 0)

include ht hp in
theorem l1Page_link2 (va : Nat) :
    l1Page (write64 m (pteAddr pagetable 2 a) (linkPte p)) pagetable va =
      if PX 2 va = PX 2 a then some p else l1Page m pagetable va := by
  have hroot := ht.aligned PTree.root_isTable
  split_ifs with h2
  · unfold l1Page
    rw [show pteAddr pagetable 2 va = pteAddr pagetable 2 a by unfold pteAddr; rw [h2],
      read64_write64_linkPte hp.lt, entryTarget_linkPte hp.1 hp.lt]
  · unfold l1Page
    rw [read64_write64_entry hroot hroot _ (.inr (Ne.symm h2))]

include hinv in
theorem l1Page_of_invalid2 (h2 : PX 2 va = PX 2 a) : l1Page m pagetable va = none := by
  rw [l1Page_of_PX h2]
  unfold l1Page entryTarget
  rw [hinv]
  rfl

include ht hinv hp hnt hz in
theorem l0Page_link2 (hva : va < MAXVA) :
    l0Page (write64 m (pteAddr pagetable 2 a) (linkPte p)) pagetable va = l0Page m pagetable va := by
  have hroot := ht.aligned PTree.root_isTable
  have hpr : p ≠ pagetable := ne_of_not_isTable hnt PTree.root_isTable
  have hl1 := l1Page_link2 ht hp (a := a) va
  split_ifs at hl1 with h2
  · -- the new page's entries are all zero
    rw [l0Page_of_l1 hl1, l0Page_of_l1_none (l1Page_of_invalid2 hinv h2),
      read64_write64_entry hroot hp.1 _ (.inl (Ne.symm hpr)), read64_entry_zero hz,
      entryTarget_zero]
  · cases h1 : l1Page m pagetable va with
    | none => rw [l0Page_of_l1_none (hl1.trans h1), l0Page_of_l1_none h1]
    | some p1 =>
      have hp1 := ht.ne_root_of_l1 hva h1
      rw [l0Page_of_l1 (hl1.trans h1), l0Page_of_l1 h1,
        read64_write64_entry hroot (ht.aligned (isTable_of_l1 hva h1)) _ (.inl (Ne.symm hp1))]

include ht hinv hp hnt hz in
theorem leafPte_link2 (hva : va < MAXVA) :
    leafPte (write64 m (pteAddr pagetable 2 a) (linkPte p)) pagetable va = leafPte m pagetable va := by
  have hroot := ht.aligned PTree.root_isTable
  have hl0 := l0Page_link2 ht hinv hp hnt hz hva
  cases h0 : l0Page m pagetable va with
  | none => rw [leafPte_of_l0_none (hl0.trans h0), leafPte_of_l0_none h0]
  | some p0 =>
    have hp0 := ht.ne_root_of_l0 hva h0
    rw [leafPte_of_l0 (hl0.trans h0), leafPte_of_l0 h0,
      read64_write64_entry hroot (ht.aligned (isTable_of_l0 hva h0)) _ (.inl (Ne.symm hp0))]

include ht ha hinv hp hnt hz in
theorem isTable_link2 (q : Nat) :
    IsTable (write64 m (pteAddr pagetable 2 a) (linkPte p)) pagetable q ↔
      IsTable m pagetable q ∨ q = p := by
  constructor
  · rintro (rfl | ⟨va, hva, h1 | h0⟩)
    · exact .inl PTree.root_isTable
    · rw [l1Page_link2 ht hp] at h1
      split_ifs at h1
      · exact .inr (Option.some_injective _ h1).symm
      · exact .inl (isTable_of_l1 hva h1)
    · rw [l0Page_link2 ht hinv hp hnt hz hva] at h0
      exact .inl (isTable_of_l0 hva h0)
  · rintro ((rfl | ⟨va, hva, h1 | h0⟩) | rfl)
    · exact PTree.root_isTable
    · -- an old level-1 page sits under another top index than `a`'s
      have h2 : PX 2 va ≠ PX 2 a := fun h2 => by
        rw [l1Page_of_invalid2 hinv h2] at h1
        cases h1
      refine isTable_of_l1 hva ?_
      rw [l1Page_link2 ht hp, if_neg h2, h1]
    · refine isTable_of_l0 hva ?_
      rw [l0Page_link2 ht hinv hp hnt hz hva, h0]
    · refine isTable_of_l1 ha ?_
      rw [l1Page_link2 ht hp, if_pos rfl]

include ht ha hinv hp hnt hz in
/-- Linking a level-1 page keeps the tree well formed. -/
theorem PTree.link2 : PTree (write64 m (pteAddr pagetable 2 a) (linkPte p)) kend pagetable := by
  have hroot := ht.aligned PTree.root_isTable
  have hpr : p ≠ pagetable := ne_of_not_isTable hnt PTree.root_isTable
  have hl1 := l1Page_link2 ht hp (a := a)
  have hl0 := fun va (hva : va < MAXVA) => l0Page_link2 ht hinv hp hnt hz hva
  refine ⟨fun q hq => ?_, fun va hva => ?_, fun va hva => ?_, fun va hva vb hvb q h0 => ?_,
    fun va hva vb hvb q ha' hb' => ?_, fun va hva vb hvb q ha' hb' => ?_,
    fun va hva p1 h1 => ?_, fun va hva p1 p0 h1 h0 => ?_, fun va hva => ?_⟩
  · rcases (isTable_link2 ht ha hinv hp hnt hz q).mp hq with hq | rfl
    · exact ht.managed q hq
    · exact hp
  · rw [hl1]
    split_ifs
    · exact fun he => hpr (Option.some_injective _ he)
    · exact ht.l1_ne_root va hva
  · rw [hl0 va hva]
    exact ht.l0_ne_root va hva
  · rw [hl0 va hva] at h0
    rw [hl1]
    split_ifs
    · exact fun he => ne_of_not_isTable hnt (isTable_of_l0 hva h0) (Option.some_injective _ he)
    · exact ht.l0_ne_l1 va hva vb hvb q h0
  · rw [hl1] at ha' hb'
    split_ifs at ha' hb' with h2a h2b h2b
    · exact h2a.trans h2b.symm
    · exact absurd (Option.some_injective _ ha') (ne_of_not_isTable hnt (isTable_of_l1 hvb hb'))
    · exact absurd (Option.some_injective _ hb') (ne_of_not_isTable hnt (isTable_of_l1 hva ha'))
    · exact ht.l1_inj va hva vb hvb q ha' hb'
  · rw [hl0 va hva] at ha'
    rw [hl0 vb hvb] at hb'
    exact ht.l0_inj va hva vb hvb q ha' hb'
  · rw [hl1] at h1
    split_ifs at h1 with h2
    · rw [show pteAddr pagetable 2 va = pteAddr pagetable 2 a by unfold pteAddr; rw [h2],
        read64_write64_linkPte hp.lt]
      exact noPerm_linkPte p
    · rw [read64_write64_entry hroot hroot _ (.inr (Ne.symm h2))]
      exact ht.perm2 va hva p1 h1
  · rw [hl0 va hva] at h0
    rw [hl1] at h1
    split_ifs at h1 with h2
    · -- under `a`'s top index there was no level-0 page before
      rw [l0Page_of_l1_none (l1Page_of_invalid2 hinv h2)] at h0
      cases h0
    · have hp1 := ht.ne_root_of_l1 hva h1
      rw [read64_write64_entry hroot (ht.aligned (isTable_of_l1 hva h1)) _ (.inl (Ne.symm hp1))]
      exact ht.perm1 va hva p1 p0 h1 h0
  · rw [leafPte_link2 ht hinv hp hnt hz hva]
    exact ht.leaf va hva

end Link2

theorem entryTarget_of_invalid {e : Nat} (h : hasFlag e PTE_V = false) : entryTarget e = none := by
  unfold entryTarget
  rw [h]
  exact if_neg Bool.false_ne_true

/-! ### Linking a new page at level 1

The level-1 page `p1` on `a`'s path has an invalid entry for `a`, and `walk` links in `p`.
The addresses whose two upper indices are `a`'s now reach `p`, still with no valid leaf. -/

section Link1

variable {kend a p p1 : Nat} (ht : PTree m kend pagetable) (ha : a < MAXVA)
  (h1a : l1Page m pagetable a = some p1)
  (hinv : hasFlag (read64 m (pteAddr p1 1 a)) PTE_V = false)
  (hp : Managed kend p) (hnt : ¬ IsTable m pagetable p)
  (hz : ∀ x, p ≤ x → x < p + PGSIZE → m x = 0)

include ht ha h1a in
theorem l1Page_link1 (va : Nat) :
    l1Page (write64 m (pteAddr p1 1 a) (linkPte p)) pagetable va = l1Page m pagetable va := by
  unfold l1Page
  rw [read64_write64_entry (ht.aligned (isTable_of_l1 ha h1a)) (ht.aligned PTree.root_isTable) _
    (.inl (ht.ne_root_of_l1 ha h1a))]

include ht ha h1a hp in
theorem l0Page_link1 (hva : va < MAXVA) :
    l0Page (write64 m (pteAddr p1 1 a) (linkPte p)) pagetable va =
      if PX 2 va = PX 2 a ∧ PX 1 va = PX 1 a then some p else l0Page m pagetable va := by
  have hp1 := ht.aligned (isTable_of_l1 ha h1a)
  have hl1 := l1Page_link1 ht ha h1a (p := p) va
  cases h1 : l1Page m pagetable va with
  | none =>
    have hx : ¬ (PX 2 va = PX 2 a ∧ PX 1 va = PX 1 a) := fun hx => by
      rw [l1Page_of_PX hx.1, h1a] at h1
      cases h1
    rw [l0Page_of_l1_none (hl1.trans h1), if_neg hx, l0Page_of_l1_none h1]
  | some q1 =>
    rw [l0Page_of_l1 (hl1.trans h1), l0Page_of_l1 h1]
    by_cases hq : q1 = p1
    · -- the level-1 page is `p1`: the top indices agree, and the entry is `a`'s or another
      rw [hq] at h1 ⊢
      have h2 := ht.l1_inj va hva a ha p1 h1 h1a
      by_cases hx : PX 1 va = PX 1 a
      · rw [if_pos ⟨h2, hx⟩, show pteAddr p1 1 va = pteAddr p1 1 a by unfold pteAddr; rw [hx],
          read64_write64_linkPte hp.lt, entryTarget_linkPte hp.1 hp.lt]
      · rw [if_neg (fun h => hx h.2), read64_write64_entry hp1 hp1 _ (.inr (Ne.symm hx))]
    · have hx : ¬ (PX 2 va = PX 2 a ∧ PX 1 va = PX 1 a) := fun hx => by
        rw [l1Page_of_PX hx.1, h1a] at h1
        exact hq (Option.some_injective _ h1).symm
      rw [if_neg hx, read64_write64_entry hp1 (ht.aligned (isTable_of_l1 hva h1)) _
        (.inl (Ne.symm hq))]

include h1a hinv in
theorem l0Page_of_invalid1 (h2 : PX 2 va = PX 2 a) (h1 : PX 1 va = PX 1 a) :
    l0Page m pagetable va = none := by
  rw [l0Page_of_PX h2 h1, l0Page_of_l1 h1a, entryTarget_of_invalid hinv]

include ht ha h1a hinv hp hnt hz in
theorem leafPte_link1 (hva : va < MAXVA) :
    leafPte (write64 m (pteAddr p1 1 a) (linkPte p)) pagetable va = leafPte m pagetable va := by
  have hp1t := isTable_of_l1 ha h1a
  have hl0 := l0Page_link1 ht ha h1a hp hva
  split_ifs at hl0 with hx
  · -- the new page's entries are all zero
    rw [leafPte_of_l0 hl0, read64_write64_entry (ht.aligned hp1t) hp.1 _
        (.inl (ne_of_not_isTable hnt hp1t).symm), read64_entry_zero hz,
      leafPte_of_l0_none (l0Page_of_invalid1 h1a hinv hx.1 hx.2)]
  · cases h0 : l0Page m pagetable va with
    | none => rw [leafPte_of_l0_none (hl0.trans h0), leafPte_of_l0_none h0]
    | some p0 =>
      have hp0 : p1 ≠ p0 := fun he => ht.l0_ne_l1 va hva a ha p0 h0 (h1a.trans (congrArg some he))
      rw [leafPte_of_l0 (hl0.trans h0), leafPte_of_l0 h0,
        read64_write64_entry (ht.aligned hp1t) (ht.aligned (isTable_of_l0 hva h0)) _ (.inl hp0)]

include ht ha h1a hinv hp hnt hz in
theorem isTable_link1 (q : Nat) :
    IsTable (write64 m (pteAddr p1 1 a) (linkPte p)) pagetable q ↔
      IsTable m pagetable q ∨ q = p := by
  constructor
  · rintro (rfl | ⟨va, hva, h1 | h0⟩)
    · exact .inl PTree.root_isTable
    · rw [l1Page_link1 ht ha h1a] at h1
      exact .inl (isTable_of_l1 hva h1)
    · rw [l0Page_link1 ht ha h1a hp hva] at h0
      split_ifs at h0
      · exact .inr (Option.some_injective _ h0).symm
      · exact .inl (isTable_of_l0 hva h0)
  · rintro ((rfl | ⟨va, hva, h1 | h0⟩) | rfl)
    · exact PTree.root_isTable
    · refine isTable_of_l1 hva ?_
      rw [l1Page_link1 ht ha h1a, h1]
    · -- an old level-0 page sits under other upper indices than `a`'s
      have hx : ¬ (PX 2 va = PX 2 a ∧ PX 1 va = PX 1 a) := fun hx => by
        rw [l0Page_of_invalid1 h1a hinv hx.1 hx.2] at h0
        cases h0
      refine isTable_of_l0 hva ?_
      rw [l0Page_link1 ht ha h1a hp hva, if_neg hx, h0]
    · refine isTable_of_l0 ha ?_
      rw [l0Page_link1 ht ha h1a hp ha, if_pos ⟨rfl, rfl⟩]

include ht ha h1a hinv hp hnt hz in
/-- Linking a level-0 page keeps the tree well formed. -/
theorem PTree.link1 : PTree (write64 m (pteAddr p1 1 a) (linkPte p)) kend pagetable := by
  have hp1t := isTable_of_l1 ha h1a
  have hp1 := ht.aligned hp1t
  have hpr : p ≠ pagetable := ne_of_not_isTable hnt PTree.root_isTable
  have hl1 := l1Page_link1 ht ha h1a (p := p)
  have hl0 := fun va (hva : va < MAXVA) => l0Page_link1 ht ha h1a hp hva
  refine ⟨fun q hq => ?_, fun va hva => ?_, fun va hva => ?_, fun va hva vb hvb q h0 => ?_,
    fun va hva vb hvb q ha' hb' => ?_, fun va hva vb hvb q ha' hb' => ?_,
    fun va hva q1 h1 => ?_, fun va hva q1 q0 h1 h0 => ?_, fun va hva => ?_⟩
  · rcases (isTable_link1 ht ha h1a hinv hp hnt hz q).mp hq with hq | rfl
    · exact ht.managed q hq
    · exact hp
  · rw [hl1]
    exact ht.l1_ne_root va hva
  · rw [hl0 va hva]
    split_ifs
    · exact fun he => hpr (Option.some_injective _ he)
    · exact ht.l0_ne_root va hva
  · rw [hl1]
    rw [hl0 va hva] at h0
    split_ifs at h0
    · rw [← Option.some_injective _ h0]
      exact fun he => hnt (isTable_of_l1 hvb he)
    · exact ht.l0_ne_l1 va hva vb hvb q h0
  · rw [hl1] at ha' hb'
    exact ht.l1_inj va hva vb hvb q ha' hb'
  · rw [hl0 va hva] at ha'
    rw [hl0 vb hvb] at hb'
    split_ifs at ha' hb' with hxa hxb hxb
    · exact ⟨hxa.1.trans hxb.1.symm, hxa.2.trans hxb.2.symm⟩
    · exact absurd (Option.some_injective _ ha') (ne_of_not_isTable hnt (isTable_of_l0 hvb hb'))
    · exact absurd (Option.some_injective _ hb') (ne_of_not_isTable hnt (isTable_of_l0 hva ha'))
    · exact ht.l0_inj va hva vb hvb q ha' hb'
  · rw [hl1] at h1
    rw [read64_write64_entry hp1 (ht.aligned PTree.root_isTable) _ (.inl (ht.ne_root_of_l1 ha h1a))]
    exact ht.perm2 va hva q1 h1
  · rw [hl1] at h1
    rw [hl0 va hva] at h0
    split_ifs at h0 with hx
    · -- the entry just written
      have hq1 : q1 = p1 := Option.some_injective _ ((l1Page_of_PX hx.1).symm.trans h1 |>.symm.trans h1a)
      rw [hq1, show pteAddr p1 1 va = pteAddr p1 1 a by unfold pteAddr; rw [hx.2],
        read64_write64_linkPte hp.lt]
      exact noPerm_linkPte p
    · by_cases hq : q1 = p1
      · rw [hq] at h1 ⊢
        have hx1 : PX 1 va ≠ PX 1 a := fun hx1 => hx ⟨ht.l1_inj va hva a ha p1 h1 h1a, hx1⟩
        rw [read64_write64_entry hp1 hp1 _ (.inr (Ne.symm hx1))]
        exact ht.perm1 va hva p1 q0 h1 h0
      · rw [read64_write64_entry hp1 (ht.aligned (isTable_of_l1 hva h1)) _ (.inl (Ne.symm hq))]
        exact ht.perm1 va hva q1 q0 h1 h0
  · rw [leafPte_link1 ht ha h1a hinv hp hnt hz hva]
    exact ht.leaf va hva

end Link1

/-! ### Storing a leaf

A store to the leaf of `a` changes the leaf of `a`'s page and of no other. -/

section Store

variable {kend a p0 e : Nat} (ht : PTree m kend pagetable) (ha : a < MAXVA)
  (h0a : l0Page m pagetable a = some p0)

include ht ha h0a in
theorem l1Page_store (va : Nat) :
    l1Page (write64 m (pteAddr p0 0 a) e) pagetable va = l1Page m pagetable va := by
  unfold l1Page
  rw [read64_write64_entry (ht.aligned (isTable_of_l0 ha h0a)) (ht.aligned PTree.root_isTable) _
    (.inl (ht.ne_root_of_l0 ha h0a))]

include ht ha h0a in
theorem l0Page_store (hva : va < MAXVA) :
    l0Page (write64 m (pteAddr p0 0 a) e) pagetable va = l0Page m pagetable va := by
  have hl1 := l1Page_store ht ha h0a (e := e) va
  cases h1 : l1Page m pagetable va with
  | none => rw [l0Page_of_l1_none (hl1.trans h1), l0Page_of_l1_none h1]
  | some q1 =>
    have hq : p0 ≠ q1 := fun he => ht.l0_ne_l1 a ha va hva p0 h0a (h1.trans (congrArg some he.symm))
    rw [l0Page_of_l1 (hl1.trans h1), l0Page_of_l1 h1, read64_write64_entry
      (ht.aligned (isTable_of_l0 ha h0a)) (ht.aligned (isTable_of_l1 hva h1)) _ (.inl hq)]

include ht ha h0a in
theorem leafPte_store (he : e < 2 ^ 64) (hva : va < MAXVA) :
    leafPte (write64 m (pteAddr p0 0 a) e) pagetable va =
      if PGROUNDDOWN va = PGROUNDDOWN a then e else leafPte m pagetable va := by
  have hp0 := ht.aligned (isTable_of_l0 ha h0a)
  have hl0 := l0Page_store ht ha h0a (e := e) hva
  cases h0 : l0Page m pagetable va with
  | none =>
    have hx : PGROUNDDOWN va ≠ PGROUNDDOWN a := fun hx => by
      obtain ⟨h2, h1, -⟩ := (PX_eq_iff hva ha).mpr hx
      rw [l0Page_of_PX h2 h1, h0a] at h0
      cases h0
    rw [leafPte_of_l0_none (hl0.trans h0), if_neg hx, leafPte_of_l0_none h0]
  | some q0 =>
    rw [leafPte_of_l0 (hl0.trans h0), leafPte_of_l0 h0]
    by_cases hq : q0 = p0
    · -- the same level-0 page: the upper indices agree, and the entry is `a`'s or another
      rw [hq] at h0 ⊢
      obtain ⟨h2, h1⟩ := ht.l0_inj va hva a ha p0 h0 h0a
      by_cases hx : PX 0 va = PX 0 a
      · rw [if_pos ((PX_eq_iff hva ha).mp ⟨h2, h1, hx⟩),
          show pteAddr p0 0 va = pteAddr p0 0 a by unfold pteAddr; rw [hx],
          read64_write64_self m _ e he]
      · rw [if_neg (fun h => hx ((PX_eq_iff hva ha).mpr h).2.2),
          read64_write64_entry hp0 hp0 _ (.inr (Ne.symm hx))]
    · have hx : PGROUNDDOWN va ≠ PGROUNDDOWN a := fun hx => by
        obtain ⟨h2, h1, -⟩ := (PX_eq_iff hva ha).mpr hx
        rw [l0Page_of_PX h2 h1, h0a] at h0
        exact hq (Option.some_injective _ h0).symm
      rw [if_neg hx, read64_write64_entry hp0 (ht.aligned (isTable_of_l0 hva h0)) _
        (.inl (Ne.symm hq))]

include ht ha h0a in
theorem isTable_store (q : Nat) :
    IsTable (write64 m (pteAddr p0 0 a) e) pagetable q ↔ IsTable m pagetable q := by
  unfold IsTable
  constructor
  · rintro (rfl | ⟨va, hva, h⟩)
    · exact .inl rfl
    · rw [l1Page_store ht ha h0a, l0Page_store ht ha h0a hva] at h
      exact .inr ⟨va, hva, h⟩
  · rintro (rfl | ⟨va, hva, h⟩)
    · exact .inl rfl
    · rw [← l1Page_store ht ha h0a (e := e), ← l0Page_store ht ha h0a (e := e) hva] at h
      exact .inr ⟨va, hva, h⟩

include ht ha h0a in
/-- A leaf store keeps the tree well formed when the new leaf, if valid, has a flag besides
`PTE_V`. -/
theorem PTree.store (he : e < 2 ^ 64) (hleaf : hasFlag e PTE_V → PTE_FLAGS e ≠ PTE_V) :
    PTree (write64 m (pteAddr p0 0 a) e) kend pagetable := by
  have hp0 := ht.aligned (isTable_of_l0 ha h0a)
  have hl1 := l1Page_store ht ha h0a (e := e)
  have hl0 := fun va (hva : va < MAXVA) => l0Page_store ht ha h0a (e := e) hva
  refine ⟨fun q hq => ht.managed q ((isTable_store ht ha h0a q).mp hq), fun va hva => ?_,
    fun va hva => ?_, fun va hva vb hvb q h0 => ?_, fun va hva vb hvb q ha' hb' => ?_,
    fun va hva vb hvb q ha' hb' => ?_, fun va hva q1 h1 => ?_, fun va hva q1 q0 h1 h0 => ?_,
    fun va hva => ?_⟩
  · rw [hl1]
    exact ht.l1_ne_root va hva
  · rw [hl0 va hva]
    exact ht.l0_ne_root va hva
  · rw [hl0 va hva] at h0
    rw [hl1]
    exact ht.l0_ne_l1 va hva vb hvb q h0
  · rw [hl1] at ha' hb'
    exact ht.l1_inj va hva vb hvb q ha' hb'
  · rw [hl0 va hva] at ha'
    rw [hl0 vb hvb] at hb'
    exact ht.l0_inj va hva vb hvb q ha' hb'
  · rw [hl1] at h1
    rw [read64_write64_entry hp0 (ht.aligned PTree.root_isTable) _ (.inl (ht.ne_root_of_l0 ha h0a))]
    exact ht.perm2 va hva q1 h1
  · rw [hl1] at h1
    rw [hl0 va hva] at h0
    have hq : p0 ≠ q1 := fun he => ht.l0_ne_l1 a ha va hva p0 h0a (h1.trans (congrArg some he.symm))
    rw [read64_write64_entry hp0 (ht.aligned (isTable_of_l1 hva h1)) _ (.inl hq)]
    exact ht.perm1 va hva q1 q0 h1 h0
  · rw [leafPte_store ht ha h0a he hva]
    split_ifs
    · exact hleaf
    · exact ht.leaf va hva

end Store

end View

section Agree

variable {m m₁ m₂ : Memory} {P : Nat → Prop}

theorem AgreeOn.refl (m : Memory) (P : Nat → Prop) : AgreeOn m m P := fun _ _ _ _ _ => rfl

theorem AgreeOn.trans (h₁ : AgreeOn m m₁ P) (h₂ : AgreeOn m₁ m₂ P) : AgreeOn m m₂ P :=
  fun p hp x h1 h2 => (h₂ p hp x h1 h2).trans (h₁ p hp x h1 h2)

theorem agreeOn_write64 {w : Nat} (v : Nat) (h : ∀ q, P q → w + 8 ≤ q ∨ q + PGSIZE ≤ w) :
    AgreeOn m (write64 m w v) P :=
  fun q hq x h1 h2 => writeLE_of_outside (by have := h q hq; omega)

theorem agreeOn_fill {r n : Nat} (c : UInt8) (h : ∀ q, P q → r + n ≤ q ∨ q + PGSIZE ≤ r) :
    AgreeOn m (fill m r n c) P :=
  fun q hq x h1 h2 => fill_of_outside c (by have := h q hq; omega)

theorem agreeOn_copy {dst src n : Nat} (h : ∀ q, P q → dst + n ≤ q ∨ q + PGSIZE ≤ dst) :
    AgreeOn m (copy m dst src n) P :=
  fun q hq x h1 h2 => copy_of_outside (by have := h q hq; omega)

/-- An entry of the page `p` lies outside every other aligned page. -/
theorem pteAddr_page_sep {p q : Nat} (hp : p % PGSIZE = 0) (hq : q % PGSIZE = 0) (hne : q ≠ p)
    (level va : Nat) : pteAddr p level va + 8 ≤ q ∨ q + PGSIZE ≤ pteAddr p level va := by
  have h1 := pteAddr_add_le p level va
  have h2 := sep_of_ne hp hq hne.symm
  unfold pteAddr at h1 ⊢
  omega

end Agree

/-- A page table in a kernel state: the allocator is consistent, the tree at `pagetable` is
well formed, and none of its pages is free. -/
structure PTInv (s : KState) (L : Fin NCPU → List Nat) (pagetable : Nat) : Prop where
  alloc : AllocInv s L
  tree : PTree s.mem s.kend pagetable
  notFree : ∀ p, IsTable s.mem pagetable p → ¬ Mem L p

section PTInv

variable {s s₁ s' : KState} {L : Fin NCPU → List Nat} {pagetable a : Nat} {id : Fin NCPU}

/-- A store that misses both the free pages and the tree's pages keeps the invariant. -/
theorem PTInv.of_agree {m : Memory} (h : PTInv s L pagetable) (hf : AgreeOn s.mem m (Mem L))
    (ht : AgreeOn s.mem m (IsTable s.mem pagetable)) : PTInv { s with mem := m } L pagetable :=
  ⟨h.alloc.of_agree hf rfl rfl rfl rfl, h.tree.of_agree ht,
    fun p hp => h.notFree p ((isTable_of_agree ht p).mp hp)⟩

/-- Every free page is an aligned page other than `p`, when `p` is a page of the tree. -/
theorem PTInv.free_sep (h : PTInv s L pagetable) {p : Nat} (hp : IsTable s.mem pagetable p) :
    ∀ q, Mem L q → q % PGSIZE = 0 ∧ q ≠ p := by
  rintro q ⟨i, hq⟩
  exact ⟨(h.alloc.managed i q hq).1, fun he => h.notFree p hp (he ▸ ⟨i, hq⟩)⟩

/-- The tree's pages are outside every free page. -/
theorem PTInv.agree_of_outside (h : PTInv s L pagetable) {m : Memory}
    (hm : ∀ x, OutsideFree L x → m x = s.mem x) : AgreeOn s.mem m (IsTable s.mem pagetable) :=
  fun p hp x h1 h2 =>
    hm x (h.alloc.toListsWF.outsideFree (h.tree.aligned hp) (h.notFree p hp) h1 h2)

/-- A store confined to the page `r`, neither free nor a page of the tree, keeps the
invariant. -/
theorem PTInv.of_inPage {m : Memory} {r : Nat} (h : PTInv s L pagetable) (hr : r % PGSIZE = 0)
    (hnf : ¬ Mem L r) (hnt : ¬ IsTable s.mem pagetable r)
    (hm : ∀ x, x < r ∨ r + PGSIZE ≤ x → m x = s.mem x) : PTInv { s with mem := m } L pagetable := by
  have hag : ∀ P : Nat → Prop, (∀ q, P q → q % PGSIZE = 0 ∧ q ≠ r) → AgreeOn s.mem m P :=
    fun P hP q hq x h1 h2 => hm x (by have := sep_of_ne hr (hP q hq).1 (hP q hq).2.symm; omega)
  exact h.of_agree (hag _ fun q ⟨i, hq⟩ => ⟨(h.alloc.managed i q hq).1, fun he => hnf (he ▸ ⟨i, hq⟩)⟩)
    (hag _ fun q hq => ⟨h.tree.aligned hq, fun he => hnt (he ▸ hq)⟩)

/-- `kalloc` keeps the invariant and the tree: it stores only into free pages. -/
theorem PTInv.kalloc {r : Nat} (h : PTInv s L pagetable)
    (hk : (Xv6.kalloc id).run s = .ok (r, s')) :
    ∃ L', PTInv s' L' pagetable ∧ (∀ q, Mem L' q ↔ Mem L q ∧ q ≠ r) ∧ (r ≠ 0 → Mem L r) ∧
      AgreeOn s.mem s'.mem (IsTable s.mem pagetable) ∧ s'.kend = s.kend := by
  obtain ⟨L', hinv, hmem, hr⟩ := h.alloc.kalloc_of_run hk
  obtain ⟨hkend, hm⟩ := h.alloc.kalloc_frame hk
  have hag := h.agree_of_outside hm
  refine ⟨L', ⟨hinv, ?_, fun p hp hmp => ?_⟩, hmem, hr, hag, hkend⟩
  · rw [hkend]
    exact h.tree.of_agree hag
  · rw [isTable_of_agree hag] at hp
    exact h.notFree p hp ((hmem p).mp hmp).1

/-- A page from `kalloc`, zeroed as `walk` zeroes it: the invariant holds with it in use,
and it is no page of the tree. -/
theorem PTInv.kalloc_zeroed {r : Nat} (h : PTInv s L pagetable)
    (hk : (Xv6.kalloc id).run s = .ok (r, s₁)) (hr0 : r ≠ 0) :
    ∃ L₁, PTInv { s₁ with mem := fill s₁.mem r PGSIZE (UInt8.ofInt 0) } L₁ pagetable ∧
      ¬ Mem L₁ r ∧ Managed s₁.kend r ∧
      ¬ IsTable (fill s₁.mem r PGSIZE (UInt8.ofInt 0)) pagetable r ∧
      AgreeOn s.mem (fill s₁.mem r PGSIZE (UInt8.ofInt 0)) (IsTable s.mem pagetable) ∧
      Mem L r ∧ ∀ q, Mem L₁ q → Mem L q := by
  obtain ⟨L₁, h₁, hmem, hr, hag, hkend⟩ := h.kalloc hk
  have hrL := hr hr0
  obtain ⟨i, hri⟩ := hrL
  have hrm : Managed s₁.kend r := hkend ▸ h.alloc.managed i r hri
  have hnt : ¬ IsTable s₁.mem pagetable r := fun hr' =>
    h.notFree r ((isTable_of_agree hag r).mp hr') ⟨i, hri⟩
  have hnf : ¬ Mem L₁ r := fun hm => ((hmem r).mp hm).2 rfl
  have hfill : ∀ P : Nat → Prop, (∀ q, P q → q % PGSIZE = 0 ∧ q ≠ r) →
      AgreeOn s₁.mem (fill s₁.mem r PGSIZE (UInt8.ofInt 0)) P := fun P hP =>
    agreeOn_fill _ fun q hq => sep_of_ne hrm.1 (hP q hq).1 (hP q hq).2.symm
  have hagt := hfill _ fun q hq => ⟨h₁.tree.aligned hq, ne_of_not_isTable hnt hq |>.symm⟩
  refine ⟨L₁, h₁.of_agree (hfill _ fun q ⟨j, hq⟩ => ⟨(h₁.alloc.managed j q hq).1,
    fun he => hnf (he ▸ ⟨j, hq⟩)⟩) hagt, hnf, hrm, fun hr' => hnt ((isTable_of_agree hagt r).mp hr'),
    hag.trans ?_, ⟨i, hri⟩, fun q hq => ((hmem q).mp hq).1⟩
  intro p hp
  exact hagt p ((isTable_of_agree hag p).mpr hp)

theorem fill_zero_apply {m : Memory} {r x : Nat} (h1 : r ≤ x) (h2 : x < r + PGSIZE) :
    fill m r PGSIZE (UInt8.ofInt 0) x = 0 := by
  rw [fill_apply, if_pos ⟨h1, h2⟩]
  rfl

end PTInv

end Xv6
