import Xv6.Kernel.PageTable
import Xv6.Kernel.CowFork

/-! `mappages` and `uvmunmap` as updates of the finite map from virtual pages to leaf PTEs.
A `walk` that allocates links zeroed pages from `kalloc` in and changes no leaf; each page
of `mappages` then stores one leaf, and each page of `uvmunmap` clears a valid one, freeing
its page if asked. The loops are followed by induction on the pages left, with `PTInv`
carried from page to page. -/
namespace Xv6
open ByteMem StateExcept ListFamily

/-- A page in use outside the tree, neither free nor a page of the tree, is still so after a
run from `s` to `s'`: the tree grows only by pages taken from the free lists. -/
def FramesKept (s : KState) (L : Fin NCPU → List Nat) (s' : KState) (L' : Fin NCPU → List Nat)
    (pagetable : Nat) : Prop :=
  ∀ q, ¬ IsTable s.mem pagetable q → ¬ Mem L q → ¬ IsTable s'.mem pagetable q ∧ ¬ Mem L' q

theorem FramesKept.refl (s : KState) (L : Fin NCPU → List Nat) (pagetable : Nat) :
    FramesKept s L s L pagetable :=
  fun _ hq hf => ⟨hq, hf⟩

theorem FramesKept.trans {s₁ s₂ s₃ : KState} {L₁ L₂ L₃ : Fin NCPU → List Nat} {pagetable : Nat}
    (h₁ : FramesKept s₁ L₁ s₂ L₂ pagetable) (h₂ : FramesKept s₂ L₂ s₃ L₃ pagetable) :
    FramesKept s₁ L₁ s₃ L₃ pagetable :=
  fun q hq hf => h₂ q (h₁ q hq hf).1 (h₁ q hq hf).2

section Walk

variable {s s₁ s' : KState} {L : Fin NCPU → List Nat} {pagetable a : Nat} {id : Fin NCPU}

/-- A store to an entry of a page of the tree misses every free page. -/
theorem PTInv.agree_entry (h : PTInv s L pagetable) {p : Nat} (hp : IsTable s.mem pagetable p)
    (level va v : Nat) : AgreeOn s.mem (write64 s.mem (pteAddr p level va) v) (Mem L) :=
  agreeOn_write64 v fun q hq => by
    obtain ⟨hq0, hne⟩ := h.free_sep hp q hq
    exact pteAddr_page_sep (h.tree.aligned hp) hq0 hne level va

/-- Linking a zeroed page that is neither free nor in the tree at the root keeps the
invariant. -/
theorem PTInv.link2 {p : Nat} (h : PTInv s L pagetable) (ha : a < MAXVA)
    (hinv : hasFlag (read64 s.mem (pteAddr pagetable 2 a)) PTE_V = false)
    (hp : Managed s.kend p) (hnt : ¬ IsTable s.mem pagetable p) (hnf : ¬ Mem L p)
    (hz : ∀ x, p ≤ x → x < p + PGSIZE → s.mem x = 0) :
    PTInv { s with mem := write64 s.mem (pteAddr pagetable 2 a) (linkPte p) } L pagetable := by
  refine ⟨h.alloc.of_agree (h.agree_entry PTree.root_isTable 2 a _) rfl rfl rfl rfl,
    h.tree.link2 ha hinv hp hnt hz, fun q hq => ?_⟩
  rcases (isTable_link2 h.tree ha hinv hp hnt hz q).mp hq with hq | rfl
  · exact h.notFree q hq
  · exact hnf

/-- Linking such a page below `a`'s level-1 page keeps the invariant. -/
theorem PTInv.link1 {p p1 : Nat} (h : PTInv s L pagetable) (ha : a < MAXVA)
    (h1a : l1Page s.mem pagetable a = some p1)
    (hinv : hasFlag (read64 s.mem (pteAddr p1 1 a)) PTE_V = false)
    (hp : Managed s.kend p) (hnt : ¬ IsTable s.mem pagetable p) (hnf : ¬ Mem L p)
    (hz : ∀ x, p ≤ x → x < p + PGSIZE → s.mem x = 0) :
    PTInv { s with mem := write64 s.mem (pteAddr p1 1 a) (linkPte p) } L pagetable := by
  refine ⟨h.alloc.of_agree (h.agree_entry (isTable_of_l1 ha h1a) 1 a _) rfl rfl rfl rfl,
    h.tree.link1 ha h1a hinv hp hnt hz, fun q hq => ?_⟩
  rcases (isTable_link1 h.tree ha h1a hinv hp hnt hz q).mp hq with hq | rfl
  · exact h.notFree q hq
  · exact hnf

/-- A leaf store keeps the invariant. -/
theorem PTInv.store {p0 e : Nat} (h : PTInv s L pagetable) (ha : a < MAXVA)
    (h0a : l0Page s.mem pagetable a = some p0) (he : e < 2 ^ 64)
    (hleaf : hasFlag e PTE_V → PTE_FLAGS e ≠ PTE_V) :
    PTInv { s with mem := write64 s.mem (pteAddr p0 0 a) e } L pagetable :=
  ⟨h.alloc.of_agree (h.agree_entry (isTable_of_l0 ha h0a) 0 a e) rfl rfl rfl rfl,
    h.tree.store ha h0a he hleaf, fun q hq => h.notFree q ((isTable_store h.tree ha h0a q).mp hq)⟩

/-- The root level of an allocating `walk`: `a`'s level-1 page, found or linked in, with no
leaf changed. -/
theorem PTInv.walkLevel2 {p1 : Nat} (h : PTInv s L pagetable) (ha : a < MAXVA)
    (hw : (walkLevel id a true pagetable 2).run s = .ok (some p1, s₁)) :
    ∃ L₁, PTInv s₁ L₁ pagetable ∧ l1Page s₁.mem pagetable a = some p1 ∧
      (∀ va < MAXVA, leafPte s₁.mem pagetable va = leafPte s.mem pagetable va) ∧
      FramesKept s L s₁ L₁ pagetable := by
  cases hv : hasFlag (read64 s.mem (pteAddr pagetable 2 a)) PTE_V with
  | true =>
    rw [walkLevel_run_valid hv] at hw
    cases hw
    refine ⟨L, h, ?_, fun _ _ => rfl, FramesKept.refl s L pagetable⟩
    unfold l1Page entryTarget
    rw [if_pos hv]
  | false =>
    obtain ⟨r, s₂, -, hk, -⟩ := h.alloc.kalloc id
    rw [walkLevel_run_alloc hv hk] at hw
    split_ifs at hw with hr0 <;> cases hw
    obtain ⟨L₂, h₂, hnf, hrm, hnt, hag, hfree, hsub⟩ := h.kalloc_zeroed hk hr0
    have hinv : hasFlag (read64 (fill s₂.mem p1 PGSIZE (UInt8.ofInt 0))
        (pteAddr pagetable 2 a)) PTE_V = false := by
      rw [read64_entry_of_agree hag PTree.root_isTable]
      exact hv
    have hz : ∀ x, p1 ≤ x → x < p1 + PGSIZE → fill s₂.mem p1 PGSIZE (UInt8.ofInt 0) x = 0 :=
      fun _ h1 h2 => fill_zero_apply h1 h2
    have ht₂ : PTree (fill s₂.mem p1 PGSIZE (UInt8.ofInt 0)) s₂.kend pagetable := h₂.tree
    refine ⟨L₂, h₂.link2 ha hinv hrm hnt hnf hz, ?_, fun va hva => ?_,
      fun q hq hqf => ⟨fun hq' => ?_, fun hm => hqf (hsub q hm)⟩⟩
    · show l1Page (write64 _ _ (linkPte p1)) pagetable a = some p1
      rw [l1Page_link2 ht₂ hrm, if_pos rfl]
    · show leafPte (write64 _ _ (linkPte p1)) pagetable va = _
      rw [leafPte_link2 ht₂ hinv hrm hnt hz hva, leafPte_of_agree hag hva]
    · -- the only new page of the tree is the one `kalloc` took from a free list
      rcases (isTable_link2 ht₂ ha hinv hrm hnt hz q).mp hq' with hq' | rfl
      · exact hq ((isTable_of_agree hag q).mp hq')
      · exact hqf hfree

/-- The middle level of an allocating `walk`: `a`'s level-0 page, found or linked in, with
no leaf changed. -/
theorem PTInv.walkLevel1 {p1 p0 : Nat} (h : PTInv s L pagetable) (ha : a < MAXVA)
    (h1a : l1Page s.mem pagetable a = some p1)
    (hw : (walkLevel id a true p1 1).run s = .ok (some p0, s₁)) :
    ∃ L₁, PTInv s₁ L₁ pagetable ∧ l0Page s₁.mem pagetable a = some p0 ∧
      (∀ va < MAXVA, leafPte s₁.mem pagetable va = leafPte s.mem pagetable va) ∧
      FramesKept s L s₁ L₁ pagetable := by
  cases hv : hasFlag (read64 s.mem (pteAddr p1 1 a)) PTE_V with
  | true =>
    rw [walkLevel_run_valid hv] at hw
    cases hw
    refine ⟨L, h, ?_, fun _ _ => rfl, FramesKept.refl s L pagetable⟩
    rw [l0Page_of_l1 h1a]
    unfold entryTarget
    rw [if_pos hv]
  | false =>
    obtain ⟨r, s₂, -, hk, -⟩ := h.alloc.kalloc id
    rw [walkLevel_run_alloc hv hk] at hw
    split_ifs at hw with hr0 <;> cases hw
    obtain ⟨L₂, h₂, hnf, hrm, hnt, hag, hfree, hsub⟩ := h.kalloc_zeroed hk hr0
    have h1a' : l1Page (fill s₂.mem p0 PGSIZE (UInt8.ofInt 0)) pagetable a = some p1 :=
      (l1Page_of_agree hag a).trans h1a
    have hinv : hasFlag (read64 (fill s₂.mem p0 PGSIZE (UInt8.ofInt 0))
        (pteAddr p1 1 a)) PTE_V = false := by
      rw [read64_entry_of_agree hag (isTable_of_l1 ha h1a)]
      exact hv
    have hz : ∀ x, p0 ≤ x → x < p0 + PGSIZE → fill s₂.mem p0 PGSIZE (UInt8.ofInt 0) x = 0 :=
      fun _ h1 h2 => fill_zero_apply h1 h2
    have ht₂ : PTree (fill s₂.mem p0 PGSIZE (UInt8.ofInt 0)) s₂.kend pagetable := h₂.tree
    refine ⟨L₂, h₂.link1 ha h1a' hinv hrm hnt hnf hz, ?_, fun va hva => ?_,
      fun q hq hqf => ⟨fun hq' => ?_, fun hm => hqf (hsub q hm)⟩⟩
    · show l0Page (write64 _ _ (linkPte p0)) pagetable a = some p0
      rw [l0Page_link1 ht₂ ha h1a' hrm ha, if_pos ⟨rfl, rfl⟩]
    · show leafPte (write64 _ _ (linkPte p0)) pagetable va = _
      rw [leafPte_link1 ht₂ ha h1a' hinv hrm hnt hz hva, leafPte_of_agree hag hva]
    · rcases (isTable_link1 ht₂ ha h1a' hinv hrm hnt hz q).mp hq' with hq' | rfl
      · exact hq ((isTable_of_agree hag q).mp hq')
      · exact hqf hfree

/-- An allocating `walk` that returns a PTE address: it is the entry of `a` in `a`'s level-0
page, the invariant holds, and no leaf changed. -/
theorem PTInv.walk {pte : Nat} (h : PTInv s L pagetable)
    (hw : (Xv6.walk id pagetable a true).run s = .ok (pte, s')) (hpte : pte ≠ 0) :
    a < MAXVA ∧ ∃ L' p0, PTInv s' L' pagetable ∧ l0Page s'.mem pagetable a = some p0 ∧
      pte = pteAddr p0 0 a ∧
      (∀ va < MAXVA, leafPte s'.mem pagetable va = leafPte s.mem pagetable va) ∧
      FramesKept s L s' L' pagetable := by
  obtain ⟨ha, p1, s₁, p0, h2, h1, rfl⟩ := walk_run_ne_zero hw hpte
  obtain ⟨L₁, h₁, hl1, hleaf₁, hkept₁⟩ := h.walkLevel2 ha h2
  obtain ⟨L', h', hl0, hleaf', hkept'⟩ := h₁.walkLevel1 ha hl1 h1
  exact ⟨ha, L', p0, h', hl0, rfl, fun va hva => (hleaf' va hva).trans (hleaf₁ va hva),
    hkept₁.trans hkept'⟩

end Walk

/-- The leaf `mappages` stores for the page `pa` with the flags `perm`. -/
def mapPte (pa perm : Nat) : Nat := PA2PTE pa ||| perm ||| PTE_V

theorem hasFlag_or (x y k : Nat) :
    hasFlag (x ||| y) (2 ^ k) = (hasFlag x (2 ^ k) || hasFlag y (2 ^ k)) := by
  rw [hasFlag_two_pow, hasFlag_two_pow, hasFlag_two_pow, Nat.testBit_or]

section MapPte

variable {pa perm : Nat} (hperm : perm < 2 ^ 10)

theorem mapPte_eq (pa perm : Nat) : mapPte pa perm = PA2PTE pa ||| (perm ||| PTE_V) :=
  Nat.lor_assoc _ _ _

include hperm

theorem or_PTE_V_lt : perm ||| PTE_V < 2 ^ 10 := Nat.or_lt_two_pow hperm (by decide)

theorem mapPte_lt (hpa : pa < 2 ^ 64) : mapPte pa perm < 2 ^ 64 := by
  have hf := or_PTE_V_lt hperm
  rw [mapPte_eq, PA2PTE_or pa hf]
  omega

/-- A leaf with `PTE_U` is not only `PTE_V`, so `uvmunmap` takes it for a leaf. -/
theorem mapPte_flags (hU : hasFlag perm PTE_U) : PTE_FLAGS (mapPte pa perm) ≠ PTE_V := by
  rw [mapPte_eq, PTE_FLAGS_PA2PTE_or pa (or_PTE_V_lt hperm)]
  intro he
  have h4 : hasFlag (perm ||| PTE_V) (2 ^ 4) = false := by
    rw [he]
    rfl
  rw [hasFlag_or, show (2 : Nat) ^ 4 = PTE_U from rfl, hU, Bool.true_or] at h4
  exact absurd h4 (by decide)

/-- What `walkaddr` reads from the leaf: the page `pa` itself. -/
theorem leafTarget_mapPte (hpa : pa % PGSIZE = 0) (hlt : pa < 2 ^ 64)
    (hU : hasFlag perm PTE_U) : leafTarget (mapPte pa perm) = some pa := by
  have hf := or_PTE_V_lt hperm
  have hV : hasFlag (mapPte pa perm) (2 ^ 0) = true := by
    rw [mapPte_eq, hasFlag_PA2PTE_or pa hf (by decide), hasFlag_or]
    exact Bool.or_true _
  have hU' : hasFlag (mapPte pa perm) (2 ^ 4) = true := by
    rw [mapPte_eq, hasFlag_PA2PTE_or pa hf (by decide), hasFlag_or]
    exact Bool.or_eq_true_iff.mpr (.inl hU)
  unfold leafTarget
  rw [show PTE_V = 2 ^ 0 from rfl, show PTE_U = 2 ^ 4 from rfl, hV, hU', Bool.and_self, if_pos rfl, mapPte_eq,
    PTE2PA_PA2PTE_or hf hpa hlt]

end MapPte

section Mappages

variable {s s' : KState} {L : Fin NCPU → List Nat} {pagetable : Nat} {id : Fin NCPU}
  {perm : Nat} (hperm : perm < 2 ^ 10) (hU : hasFlag perm PTE_U)

include hperm hU

/-- One page of `mappages`: the leaf of `a`'s page becomes `mapPte pa perm` and no other
leaf changes. -/
theorem PTInv.mappagesPage {a pa : Nat} (h : PTInv s L pagetable) (hpa : pa < 2 ^ 64)
    (hrun : (Xv6.mappagesPage id pagetable perm a pa).run s = .ok (true, s')) :
    a < MAXVA ∧ ∃ L', PTInv s' L' pagetable ∧ FramesKept s L s' L' pagetable ∧
      ∀ va < MAXVA, leafPte s'.mem pagetable va =
        if PGROUNDDOWN va = PGROUNDDOWN a then mapPte pa perm else leafPte s.mem pagetable va := by
  obtain ⟨pte, s₁, hw, h0, rfl⟩ := mappagesPage_run_true hrun
  obtain ⟨ha, L₁, p0, h₁, hl0, rfl, hleaf, hkept⟩ := h.walk hw h0
  have he : PA2PTE pa ||| perm ||| PTE_V < 2 ^ 64 := mapPte_lt hperm hpa
  refine ⟨ha, L₁, h₁.store ha hl0 he fun _ => mapPte_flags hperm hU,
    hkept.trans fun q hq hf => ⟨fun hq' => hq ((isTable_store h₁.tree ha hl0 q).mp hq'), hf⟩,
    fun va hva => ?_⟩
  rw [leafPte_store h₁.tree ha hl0 he hva, hleaf va hva]
  rfl

/-- The loop of `mappages` from the aligned page `a` with `n` pages after it: the leaves of
the pages from `a` to `a + n * PGSIZE` map the pages from `pa` on, and no other leaf
changes. -/
theorem PTInv.mappagesLoop (n : Nat) {a pa : Nat} (h : PTInv s L pagetable)
    (ha0 : a % PGSIZE = 0) (hpa : pa < 2 ^ 64)
    (hrun : (Xv6.mappagesLoop id pagetable perm a pa n).run s = .ok (0, s')) :
    ∃ L', PTInv s' L' pagetable ∧ FramesKept s L s' L' pagetable ∧
      ∀ va < MAXVA, leafPte s'.mem pagetable va =
        if a ≤ PGROUNDDOWN va ∧ PGROUNDDOWN va ≤ a + n * PGSIZE then
          mapPte ((pa + (PGROUNDDOWN va - a)) % 2 ^ 64) perm
        else leafPte s.mem pagetable va := by
  induction n generalizing s L a pa with
  | zero =>
    obtain ⟨-, L', h', hkept, hleaf⟩ := h.mappagesPage hperm hU hpa (mappagesLoop_run_zero hrun)
    refine ⟨L', h', hkept, fun va hva => ?_⟩
    rw [hleaf va hva, PGROUNDDOWN_of_mod ha0]
    by_cases hd : PGROUNDDOWN va = a
    · rw [if_pos hd, if_pos (by omega), hd, Nat.sub_self, Nat.add_zero, Nat.mod_eq_of_lt hpa]
    · rw [if_neg hd, if_neg (by omega)]
  | succ n ih =>
    obtain ⟨s₁, hp, hrest⟩ := mappagesLoop_run_succ_zero hrun
    obtain ⟨ha, L₁, h₁, hkept₁, hleaf₁⟩ := h.mappagesPage hperm hU hpa hp
    have hnext : (a + PGSIZE) % 2 ^ 64 = a + PGSIZE := by
      unfold MAXVA at ha
      unfold PGSIZE
      omega
    rw [hnext] at hrest
    obtain ⟨L', h', hkept', hleaf'⟩ := ih h₁ (by unfold PGSIZE at ha0 ⊢; omega)
      (Nat.mod_lt _ (by decide)) hrest
    refine ⟨L', h', hkept₁.trans hkept', fun va hva => ?_⟩
    have hd := PGROUNDDOWN_mod va
    rw [hleaf' va hva, hleaf₁ va hva, PGROUNDDOWN_of_mod ha0]
    unfold PGSIZE at hd ha0 ⊢
    by_cases hin : a + 4096 ≤ PGROUNDDOWN va ∧ PGROUNDDOWN va ≤ a + 4096 + n * 4096
    · rw [if_pos hin, if_pos (by omega)]
      exact congrArg (fun x => mapPte x perm) (by omega)
    · rw [if_neg hin]
      by_cases hat : PGROUNDDOWN va = a
      · rw [if_pos hat, if_pos (by omega), hat, Nat.sub_self, Nat.add_zero, Nat.mod_eq_of_lt hpa]
      · rw [if_neg hat, if_neg (by omega)]

/-- `mappages` over a range below `MAXVA`: the leaves of its pages map the pages from `pa`
on, and no other leaf changes. -/
theorem PTInv.mappages {va size pa : Nat} (h : PTInv s L pagetable) (hs : size ≠ 0)
    (hlast : PGROUNDDOWN (va + size - 1) < MAXVA) (hpa : pa < 2 ^ 64)
    (hrun : (Xv6.mappages id pagetable va size pa perm).run s = .ok (0, s')) :
    ∃ L', PTInv s' L' pagetable ∧ FramesKept s L s' L' pagetable ∧
      ∀ b < MAXVA, leafPte s'.mem pagetable b =
        if PGROUNDDOWN va ≤ PGROUNDDOWN b ∧ PGROUNDDOWN b ≤ PGROUNDDOWN (va + size - 1) then
          mapPte ((pa + (PGROUNDDOWN b - PGROUNDDOWN va)) % 2 ^ 64) perm
        else leafPte s.mem pagetable b := by
  have hlt : va + size - 1 < 2 ^ 64 := by
    have := lt_PGROUNDDOWN_add (va + size - 1)
    unfold MAXVA PGSIZE at *
    omega
  have hle : PGROUNDDOWN va ≤ PGROUNDDOWN (va + size - 1) := by
    unfold PGROUNDDOWN PGSIZE
    exact Nat.mul_le_mul_right _ (Nat.div_le_div_right (by omega))
  have hn : PGROUNDDOWN va + (PGROUNDDOWN (va + size - 1) - PGROUNDDOWN va) / PGSIZE * PGSIZE =
      PGROUNDDOWN (va + size - 1) := by
    have h1 := PGROUNDDOWN_mod va
    have h2 := PGROUNDDOWN_mod (va + size - 1)
    unfold PGSIZE at *
    omega
  rw [mappages_run_loop hs hlt] at hrun
  obtain ⟨L', h', hkept, hleaf⟩ := h.mappagesLoop hperm hU _ (PGROUNDDOWN_mod va) hpa hrun
  refine ⟨L', h', hkept, fun b hb => ?_⟩
  rw [hleaf b hb, hn]

end Mappages

section Empty

variable {m : Memory} {pagetable : Nat}
  (hz : ∀ x, pagetable ≤ x → x < pagetable + PGSIZE → m x = 0)

include hz

theorem l1Page_empty (va : Nat) : l1Page m pagetable va = none := by
  unfold l1Page
  rw [read64_entry_zero hz, entryTarget_zero]

theorem l0Page_empty (va : Nat) : l0Page m pagetable va = none :=
  l0Page_of_l1_none (l1Page_empty hz va)

theorem isTable_empty (q : Nat) : IsTable m pagetable q ↔ q = pagetable := by
  constructor
  · rintro (rfl | ⟨va, -, h | h⟩)
    · rfl
    · simp [l1Page_empty hz] at h
    · simp [l0Page_empty hz] at h
  · rintro rfl
    exact PTree.root_isTable

/-- A zeroed page is an empty, well-formed tree. -/
theorem PTree.empty {kend : Nat} (hp : Managed kend pagetable) : PTree m kend pagetable where
  managed q hq := by
    rw [(isTable_empty hz q).mp hq]
    exact hp
  l1_ne_root va _ := by simp [l1Page_empty hz]
  l0_ne_root va _ := by simp [l0Page_empty hz]
  l0_ne_l1 va _ vb _ p h := by simp [l0Page_empty hz] at h
  l1_inj va _ vb _ p h := by simp [l1Page_empty hz] at h
  l0_inj va _ vb _ p h := by simp [l0Page_empty hz] at h
  perm2 va _ p1 h := by simp [l1Page_empty hz] at h
  perm1 va _ p1 p0 h := by simp [l1Page_empty hz] at h
  leaf va _ h := by
    rw [leafPte_of_l0_none (l0Page_empty hz va)] at h
    exact absurd h (by decide)

end Empty

/-- `uvmcreate`'s page table: empty, well formed, and off the free lists. -/
theorem AllocInv.uvmcreate {s s' : KState} {L : Fin NCPU → List Nat} {id : Fin NCPU}
    {pagetable : Nat} (h : AllocInv s L)
    (hrun : (Xv6.uvmcreate id).run s = .ok (pagetable, s')) (hp : pagetable ≠ 0) :
    ∃ L', PTInv s' L' pagetable := by
  obtain ⟨r, s₁, L₁, hk, h₁, hmem, hr⟩ := h.kalloc id
  by_cases hr0 : r = 0
  · -- `kalloc` failed, and `uvmcreate` returns 0
    rw [Xv6.uvmcreate, run_bind_of_ok hk, run_ite, if_pos hr0] at hrun
    cases hrun
    exact absurd rfl hp
  obtain ⟨i, hri⟩ := hr hr0
  have hrm : Managed s₁.kend r := (h.kalloc_frame hk).1 ▸ h.managed i r hri
  have hnf : ¬ Mem L₁ r := fun hm => ((hmem r).mp hm).2 rfl
  have hz : ∀ x, r ≤ x → x < r + PGSIZE → fill s₁.mem r PGSIZE (UInt8.ofInt 0) x = 0 :=
    fun _ h1 h2 => fill_zero_apply h1 h2
  have hag : AgreeOn s₁.mem (fill s₁.mem r PGSIZE (UInt8.ofInt 0)) (Mem L₁) :=
    agreeOn_fill _ fun q hq => by
      obtain ⟨j, hj⟩ := hq
      exact sep_of_ne hrm.1 (h₁.managed j q hj).1 fun he => hnf (he ▸ ⟨j, hj⟩)
  have hinv : PTInv { s₁ with mem := fill s₁.mem r PGSIZE (UInt8.ofInt 0) } L₁ r :=
    ⟨h₁.of_agree hag rfl rfl rfl rfl, PTree.empty hz hrm, fun q hq => by
      rw [(isTable_empty hz q).mp hq]
      exact hnf⟩
  rw [uvmcreate_run hk hr0] at hrun
  cases hrun
  exact ⟨L₁, hinv⟩

theorem leafPte_of_same_page {m : Memory} {pagetable va a : Nat}
    (hd : PGROUNDDOWN va = PGROUNDDOWN a) : leafPte m pagetable va = leafPte m pagetable a := by
  rw [← leafPte_PGROUNDDOWN m pagetable va, hd, leafPte_PGROUNDDOWN]

/-- Over a well-formed tree `walkaddr` reads the leaf: the page a valid user leaf maps, or 0. -/
theorem PTree.walkaddr_leaf {s : KState} {kend pagetable va : Nat} {id : Fin NCPU}
    (ht : PTree s.mem kend pagetable) (hk : Layout kend) (hva : va < MAXVA) :
    (walkaddr id pagetable va).run s =
      .ok ((leafTarget (leafPte s.mem pagetable va)).getD 0, s) := by
  rw [walkaddr_run, translate_eq_leaf (fun p0 h0 => (ht.managed p0 (isTable_of_l0 hva h0)).ne_zero hk) hva]

/-! ### `uvmunmap` -/

/-- The entry `uvmunmap` leaves in place of the leaf `e`: a valid leaf is cleared. -/
def unmapPte (e : Nat) : Nat := if hasFlag e PTE_V then 0 else e

theorem unmapPte_of_valid {e : Nat} (h : hasFlag e PTE_V) : unmapPte e = 0 := if_pos h

theorem unmapPte_of_invalid {e : Nat} (h : hasFlag e PTE_V = false) : unmapPte e = e :=
  if_neg (by rw [h]; decide)

theorem leafTarget_unmapPte (e : Nat) : leafTarget (unmapPte e) = none := by
  cases hv : hasFlag e PTE_V with
  | true =>
    rw [unmapPte_of_valid hv]
    rfl
  | false =>
    rw [unmapPte_of_invalid hv]
    unfold leafTarget
    rw [hv, Bool.false_and, if_neg Bool.false_ne_true]

/-- The page the leaf of `a` maps, if valid, is one `kfree` accepts and no page of the tree:
what `uvmunmap` with `do_free` needs of each page it frees. -/
def Freeable (m : Memory) (kend pagetable a : Nat) : Prop :=
  hasFlag (leafPte m pagetable a) PTE_V →
    Managed kend (PTE2PA (leafPte m pagetable a)) ∧
      ¬ IsTable m pagetable (PTE2PA (leafPte m pagetable a))

section Uvmunmap

variable {s s' : KState} {pagetable : Nat} {id : Fin NCPU} {doFree : Bool}

theorem Freeable.of_eq {m m' : Memory} {kend kend' b : Nat} (hf : Freeable m kend pagetable b)
    (hl : leafPte m' pagetable b = leafPte m pagetable b)
    (htab : ∀ q, IsTable m' pagetable q ↔ IsTable m pagetable q) (hk : kend' = kend) :
    Freeable m' kend' pagetable b := by
  unfold Freeable at *
  rw [hl, hk, htab]
  exact hf

theorem kfree_run_ok {pa : Nat} (hk : Layout s.kend) (hp : Managed s.kend pa) :
    ∃ s', (kfree id pa).run s = .ok ((), s') := by
  rw [kfree_run, if_neg ((managed_iff_kfree_ok hk).mp hp)]
  split_ifs <;> exact ⟨_, rfl⟩

/-- `kfree` of a page outside the tree misses every page of the tree. -/
theorem kfree_agree {kend pa : Nat} (ht : PTree s.mem kend pagetable)
    (hpa : ¬ IsTable s.mem pagetable pa) (hk : (kfree id pa).run s = .ok ((), s')) :
    AgreeOn s.mem s'.mem (IsTable s.mem pagetable) ∧ s'.kend = s.kend := by
  obtain ⟨hbad, hkend, hm⟩ := kfree_frame hk
  have hpa0 : pa % PGSIZE = 0 := by
    by_contra h0
    exact hbad (.inl h0)
  refine ⟨fun q hq x h1 h2 => hm x ?_, hkend⟩
  have := sep_of_ne (ht.aligned hq) hpa0 (ne_of_not_isTable hpa hq).symm
  omega

/-- One page of `uvmunmap` over a well-formed tree: the leaf of `a`'s page is cleared if it
was valid, and no other leaf and no page of the tree changes. -/
theorem PTree.uvmunmapPage {a : Nat} (ht : PTree s.mem s.kend pagetable) (hk : Layout s.kend)
    (ha : a < MAXVA) (hfree : doFree → Freeable s.mem s.kend pagetable a) :
    ∃ s', (Xv6.uvmunmapPage id pagetable doFree a).run s = .ok ((), s') ∧
      PTree s'.mem s'.kend pagetable ∧ s'.kend = s.kend ∧
      (∀ q, IsTable s'.mem pagetable q ↔ IsTable s.mem pagetable q) ∧
      ∀ va < MAXVA, leafPte s'.mem pagetable va =
        if PGROUNDDOWN va = PGROUNDDOWN a then unmapPte (leafPte s.mem pagetable va)
        else leafPte s.mem pagetable va := by
  rw [uvmunmapPage_run ha, walkPte_eq]
  cases h0 : l0Page s.mem pagetable a with
  | none =>
    refine ⟨s, if_pos rfl, ht, rfl, fun _ => Iff.rfl, fun va _ => ?_⟩
    split_ifs with hd
    · rw [leafPte_of_same_page hd, leafPte_of_l0_none h0]
      rfl
    · rfl
  | some p0 =>
    have hne : pteAddr p0 0 a ≠ 0 := by
      have := (ht.managed p0 (isTable_of_l0 ha h0)).ne_zero hk
      unfold pteAddr
      omega
    dsimp only
    rw [if_neg hne, ← leafPte_of_l0 h0]
    cases hv : hasFlag (leafPte s.mem pagetable a) PTE_V with
    | false =>
      refine ⟨s, if_pos rfl, ht, rfl, fun _ => Iff.rfl, fun va _ => ?_⟩
      split_ifs with hd
      · rw [leafPte_of_same_page hd, unmapPte_of_invalid hv]
      · rfl
    | true =>
      rw [if_neg (by decide), if_neg (ht.leaf a ha hv)]
      obtain ⟨s₂, hrun, hag, hkend⟩ : ∃ s₂, (if doFree then kfree id (PTE2PA (leafPte s.mem
          pagetable a)) else pure ()).run s = .ok ((), s₂) ∧
          AgreeOn s.mem s₂.mem (IsTable s.mem pagetable) ∧ s₂.kend = s.kend := by
        cases doFree with
        | false => exact ⟨s, rfl, AgreeOn.refl _ _, rfl⟩
        | true =>
          obtain ⟨hm, hnt⟩ := hfree rfl hv
          obtain ⟨s₂, hk₂⟩ := kfree_run_ok hk hm
          exact ⟨s₂, hk₂, kfree_agree ht hnt hk₂⟩
      have ht₂ : PTree s₂.mem s₂.kend pagetable := by
        rw [hkend]
        exact ht.of_agree hag
      have h0₂ : l0Page s₂.mem pagetable a = some p0 := (l0Page_of_agree hag ha).trans h0
      rw [hrun, ok_bind]
      refine ⟨{ s₂ with mem := write64 s₂.mem (pteAddr p0 0 a) 0 }, rfl,
        ht₂.store ha h0₂ (by decide) fun h => absurd h (by decide), hkend, fun q => ?_,
        fun va hva => ?_⟩
      · show IsTable (write64 s₂.mem (pteAddr p0 0 a) 0) pagetable q ↔ _
        rw [isTable_store ht₂ ha h0₂, isTable_of_agree hag]
      · show leafPte (write64 s₂.mem (pteAddr p0 0 a) 0) pagetable va = _
        rw [leafPte_store ht₂ ha h0₂ (e := 0) (by decide) hva, leafPte_of_agree hag hva]
        split_ifs with hd
        · rw [leafPte_of_same_page hd, unmapPte_of_valid hv]
        · rfl

/-- The loop of `uvmunmap` over `n` pages from the aligned `a`: the valid leaves of those
pages are cleared, and no other leaf changes. -/
theorem PTree.uvmunmapLoop (n : Nat) {s : KState} {a : Nat} (ht : PTree s.mem s.kend pagetable)
    (hk : Layout s.kend) (ha0 : a % PGSIZE = 0) (hlt : a + n * PGSIZE ≤ MAXVA)
    (hfree : doFree → ∀ k < n, Freeable s.mem s.kend pagetable (a + k * PGSIZE)) :
    ∃ s', (Xv6.uvmunmapLoop id pagetable doFree a n).run s = .ok ((), s') ∧
      PTree s'.mem s'.kend pagetable ∧ s'.kend = s.kend ∧
      ∀ va < MAXVA, leafPte s'.mem pagetable va =
        if a ≤ PGROUNDDOWN va ∧ PGROUNDDOWN va < a + n * PGSIZE then
          unmapPte (leafPte s.mem pagetable va)
        else leafPte s.mem pagetable va := by
  induction n generalizing s a with
  | zero =>
    refine ⟨s, rfl, ht, rfl, fun va _ => ?_⟩
    rw [if_neg (by omega)]
  | succ n ih =>
    have ha : a < MAXVA := by
      unfold PGSIZE at hlt
      omega
    have hfree₀ : doFree → Freeable s.mem s.kend pagetable a := fun hd => by
      have := hfree hd 0 (Nat.succ_pos n)
      rwa [Nat.zero_mul, Nat.add_zero] at this
    obtain ⟨s₁, hp, ht₁, hkend₁, htab₁, hleaf₁⟩ := ht.uvmunmapPage hk ha hfree₀
    have hfree₁ : doFree → ∀ k < n,
        Freeable s₁.mem s₁.kend pagetable (a + PGSIZE + k * PGSIZE) := fun hd k hkn => by
      have hb : a + PGSIZE + k * PGSIZE < MAXVA := by
        unfold PGSIZE at hlt ⊢
        omega
      have hpage : PGROUNDDOWN (a + PGSIZE + k * PGSIZE) ≠ PGROUNDDOWN a := by
        rw [PGROUNDDOWN_of_mod ha0, PGROUNDDOWN_of_mod (by unfold PGSIZE at ha0 ⊢; omega)]
        unfold PGSIZE
        omega
      have hf := hfree hd (k + 1) (by omega)
      rw [show a + (k + 1) * PGSIZE = a + PGSIZE + k * PGSIZE by rw [Nat.succ_mul]; omega] at hf
      exact hf.of_eq (by rw [hleaf₁ _ hb, if_neg hpage]) htab₁ hkend₁
    obtain ⟨s', hrun, ht', hkend', hleaf'⟩ := ih ht₁ (hkend₁ ▸ hk)
      (by unfold PGSIZE at ha0 ⊢; omega) (by rw [Nat.succ_mul] at hlt; omega) hfree₁
    refine ⟨s', (uvmunmapLoop_run_succ hp).trans hrun, ht', hkend'.trans hkend₁,
      fun va hva => ?_⟩
    have hd := PGROUNDDOWN_mod va
    rw [hleaf' va hva, hleaf₁ va hva, PGROUNDDOWN_of_mod ha0]
    unfold PGSIZE at hd ha0 ⊢
    by_cases hin : a + 4096 ≤ PGROUNDDOWN va ∧ PGROUNDDOWN va < a + 4096 + n * 4096
    · rw [if_pos hin, if_neg (by omega), if_pos (by omega)]
    · rw [if_neg hin]
      by_cases hat : PGROUNDDOWN va = a
      · rw [if_pos hat, if_pos (by omega)]
      · rw [if_neg hat, if_neg (by omega)]

/-- `uvmunmap` of `n` pages from the aligned `va`, below `MAXVA`: their valid leaves are
cleared, and no other leaf changes. -/
theorem PTree.uvmunmap {va n : Nat} (ht : PTree s.mem s.kend pagetable) (hk : Layout s.kend)
    (hva0 : va % PGSIZE = 0) (hlt : va + n * PGSIZE ≤ MAXVA)
    (hfree : doFree → ∀ k < n, Freeable s.mem s.kend pagetable (va + k * PGSIZE)) :
    ∃ s', (Xv6.uvmunmap id pagetable va n doFree).run s = .ok ((), s') ∧
      PTree s'.mem s'.kend pagetable ∧ s'.kend = s.kend ∧
      ∀ b < MAXVA, leafPte s'.mem pagetable b =
        if va ≤ PGROUNDDOWN b ∧ PGROUNDDOWN b < va + n * PGSIZE then
          unmapPte (leafPte s.mem pagetable b)
        else leafPte s.mem pagetable b := by
  have h64 : va + n * PGSIZE < 2 ^ 64 := lt_of_le_of_lt hlt (by decide)
  rw [uvmunmap_run_loop hva0 h64]
  exact ht.uvmunmapLoop n hk hva0 hlt hfree

end Uvmunmap

/-! ### The page table as a finite map

`walkaddr` of a page after `mappages` and `uvmunmap`, from the leaves. `mappages` needs the
allocator's invariant as well as the tree's, since its walk takes pages from `kalloc`;
`uvmunmap` needs an aligned range that stays below `MAXVA` (its bound `va + npages*PGSIZE` is
taken in `uint64`), and with `do_free` pages that `kfree` accepts outside the tree. -/

theorem pagetable_finite_map :
    (∀ (s s' : KState) (L : Fin NCPU → List Nat) (id : Fin NCPU) (pagetable va size pa perm : Nat),
      PTInv s L pagetable → size ≠ 0 → PGROUNDDOWN (va + size - 1) < MAXVA →
      pa % PGSIZE = 0 → pa < 2 ^ 64 → perm < 2 ^ 10 → hasFlag perm PTE_U →
      (mappages id pagetable va size pa perm).run s = .ok (0, s') →
      (∃ L', PTInv s' L' pagetable) ∧
      (∀ a, a % PGSIZE = 0 → PGROUNDDOWN va ≤ a → a ≤ PGROUNDDOWN (va + size - 1) →
        ((walkaddr id pagetable a).run s').map Prod.fst =
          .ok ((pa + (a - PGROUNDDOWN va)) % 2 ^ 64)) ∧
      (∀ a, a % PGSIZE = 0 → ¬ (PGROUNDDOWN va ≤ a ∧ a ≤ PGROUNDDOWN (va + size - 1)) →
        ((walkaddr id pagetable a).run s').map Prod.fst =
          ((walkaddr id pagetable a).run s).map Prod.fst)) ∧
    (∀ (s : KState) (id : Fin NCPU) (pagetable va n : Nat) (doFree : Bool),
      PTree s.mem s.kend pagetable → Layout s.kend → va % PGSIZE = 0 →
      va + n * PGSIZE ≤ MAXVA →
      (doFree → ∀ k < n, Freeable s.mem s.kend pagetable (va + k * PGSIZE)) →
      ∃ s', (uvmunmap id pagetable va n doFree).run s = .ok ((), s') ∧
        PTree s'.mem s'.kend pagetable ∧
        (∀ k < n, ((walkaddr id pagetable (va + k * PGSIZE)).run s').map Prod.fst = .ok 0) ∧
        (∀ a, a % PGSIZE = 0 → ¬ (va ≤ a ∧ a < va + n * PGSIZE) →
          ((walkaddr id pagetable a).run s').map Prod.fst =
            ((walkaddr id pagetable a).run s).map Prod.fst)) := by
  refine ⟨fun s s' L id pagetable va size pa perm h hs hlast hpa0 hpa hperm hU hrun => ?_,
    fun s id pagetable va n doFree ht hk hva0 hlt hfree => ?_⟩
  · -- `mappages`: the pages of the range read their frames, every other page reads as before
    obtain ⟨L', h', -, hleaf⟩ := h.mappages hperm hU hs hlast hpa hrun
    refine ⟨⟨L', h'⟩, fun a ha0 h1 h2 => ?_, fun a ha0 hout => ?_⟩
    · have ha : a < MAXVA := lt_of_le_of_lt h2 hlast
      have hal : (pa + (a - PGROUNDDOWN va)) % 2 ^ 64 % PGSIZE = 0 := by
        have := PGROUNDDOWN_mod va
        unfold PGSIZE at *
        omega
      rw [h'.tree.walkaddr_leaf h'.alloc.layout ha, hleaf a ha, PGROUNDDOWN_of_mod ha0,
        if_pos ⟨h1, h2⟩, leafTarget_mapPte hperm hal (Nat.mod_lt _ (by decide)) hU]
      rfl
    · by_cases ha : a < MAXVA
      · rw [h'.tree.walkaddr_leaf h'.alloc.layout ha, h.tree.walkaddr_leaf h.alloc.layout ha,
          hleaf a ha, PGROUNDDOWN_of_mod ha0, if_neg hout]
        rfl
      · rw [walkaddr_run_of_ge (Nat.not_lt.mp ha), walkaddr_run_of_ge (Nat.not_lt.mp ha)]
        rfl
  · -- `uvmunmap`: the `n` pages from `va` read 0, every other page reads as before
    obtain ⟨s', hrun, ht', hkend, hleaf⟩ := ht.uvmunmap hk hva0 hlt hfree
    have hk' : Layout s'.kend := hkend ▸ hk
    refine ⟨s', hrun, ht', fun k hkn => ?_, fun a ha0 hout => ?_⟩
    · have hb : va + k * PGSIZE < MAXVA := by
        unfold PGSIZE at hlt ⊢
        have : k * 4096 + 4096 ≤ n * 4096 := by omega
        omega
      have hpage : PGROUNDDOWN (va + k * PGSIZE) = va + k * PGSIZE :=
        PGROUNDDOWN_of_mod (by unfold PGSIZE at hva0 ⊢; omega)
      rw [ht'.walkaddr_leaf hk' hb, hleaf _ hb, hpage,
        if_pos ⟨by omega, by unfold PGSIZE; omega⟩, leafTarget_unmapPte]
      rfl
    · by_cases ha : a < MAXVA
      · rw [ht'.walkaddr_leaf hk' ha, ht.walkaddr_leaf hk ha, hleaf a ha,
          PGROUNDDOWN_of_mod ha0, if_neg hout]
        rfl
      · rw [walkaddr_run_of_ge (Nat.not_lt.mp ha), walkaddr_run_of_ge (Nat.not_lt.mp ha)]
        rfl

/-- The parent's page table in `frameState`, where `uvmalloc` maps its first page, is well
formed in a consistent allocator, and the page `uvmalloc` took is neither free nor in the
tree. -/
theorem frameState_inv :
    ∃ L, PTInv frameState L (page 1) ∧ ¬ IsTable frameState.mem (page 1) (page 2) ∧
      ¬ Mem L (page 2) := by
  obtain ⟨L₀, h₀⟩ := sevenPageBoot_reachable.inv
  obtain ⟨L₁, h₁⟩ := h₀.uvmcreate parentRoot_run (by decide)
  have hk : (kalloc 0).run parentRootState = .ok (page 2, parentRootState.take (page 2)) :=
    kalloc_run_at (by decide) (by decide) (by decide) (by decide) (by decide)
  obtain ⟨L₂, h₂, hnf, -, hnt, -⟩ := h₁.kalloc_zeroed hk (by decide)
  exact ⟨L₂, h₂, hnt, hnf⟩

theorem frameState_ptinv : ∃ L, PTInv frameState L (page 1) := by
  obtain ⟨L, h, -⟩ := frameState_inv
  exact ⟨L, h⟩

theorem pagetable_finite_map_first_page :
    ((walkaddr 0 (page 1) 0).run parentState).map Prod.fst = .ok (page 2) ∧
      ∃ s', (uvmunmap 0 (page 1) 0 1 false).run parentState = .ok ((), s') ∧
        ((walkaddr 0 (page 1) 0).run s').map Prod.fst = .ok 0 := by
  obtain ⟨L, hL⟩ := frameState_ptinv
  obtain ⟨⟨L', hL'⟩, hin, -⟩ := pagetable_finite_map.1 _ _ _ 0 (page 1) 0 PGSIZE (page 2) textPerm
    hL (by decide) (by decide) (by decide) (by decide) (by decide) (by decide)
    (mappages_first_page (page 2) textPerm)
  obtain ⟨s', hrun, -, hzero, -⟩ := pagetable_finite_map.2 _ 0 (page 1) 0 1 false hL'.tree
    hL'.alloc.layout (by decide) (by decide) fun h => absurd h (by decide)
  exact ⟨hin 0 (by decide) (by decide) (by decide), s', hrun, hzero 0 (by decide)⟩

theorem parentState_eq :
    parentState = walkedState.store (pteAddr (page 4) 0 0) (PA2PTE (page 2) ||| textPerm ||| PTE_V) :=
  rfl

/-- `walkaddr` of 0 once `uvmalloc` has mapped the text page there. -/
theorem parentState_walkaddr : (walkaddr 0 (page 1) 0).run parentState = .ok (page 2, parentState) := by
  obtain ⟨L, hL⟩ := frameState_ptinv
  obtain ⟨L', h', -, hleaf⟩ := hL.mappages (show textPerm < 2 ^ 10 by decide) (by decide)
    (by decide) (by decide) (by decide) (mappages_first_page (page 2) textPerm)
  rw [parentState_eq, h'.tree.walkaddr_leaf h'.alloc.layout (by decide), hleaf 0 (by decide),
    if_pos (by decide),
    leafTarget_mapPte (by decide) (by decide) (by decide) (by decide)]
  rfl

/-- Once the text page is mapped, the invariant holds and the text page is neither in the
tree nor free. -/
theorem parentState_inv : ∃ L, PTInv parentState L (page 1) ∧
    ¬ IsTable parentState.mem (page 1) (page 2) ∧ ¬ Mem L (page 2) := by
  obtain ⟨L, hL, hnt, hnf⟩ := frameState_inv
  obtain ⟨L', h', hkept, -⟩ := hL.mappages (show textPerm < 2 ^ 10 by decide) (by decide)
    (by decide) (by decide) (by decide) (mappages_first_page (page 2) textPerm)
  exact ⟨L', h', hkept _ hnt hnf⟩

theorem uvmunmap_wrapped_count_keeps_mapping :
    (∃ L, PTInv frameState L (page 1)) ∧
      (mappages 0 (page 1) 0 PGSIZE (page 2) textPerm).run frameState = .ok (0, parentState) ∧
      (uvmunmap 0 (page 1) 0 (2 ^ 52) false).run parentState = .ok ((), parentState) ∧
      (walkaddr 0 (page 1) 0).run parentState = .ok (page 2, parentState) := by
  refine ⟨frameState_ptinv, mappages_first_page (page 2) textPerm, ?_, parentState_walkaddr⟩
  -- `0 + 2^52 * PGSIZE` is 0 in `uint64`: the loop runs over no page
  rw [uvmunmap, run_ite, if_neg (by decide)]
  rfl

end Xv6
