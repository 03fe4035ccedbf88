import Xv6.Kernel.PageMap
/-! Freeing a user page table: `freewalk` over the tree of page-table pages, and
`proc_freepagetable`, which unmaps the trampoline and the trapframe, frees the user pages
below the size with `uvmunmap`, and then frees the tree.

`freewalk` follows every entry that is valid and carries no permission, at every level, so a
table it can free is described by the pages it visits (`Walked`): each a page `kfree` accepts,
no subtree holding its parent, and the subtrees of two entries sharing no page
(`Freewalkable`). A well-formed tree whose root has no valid entry past those of `MAXVA`, and
whose valid leaves carry a permission, is such a table; `uvmunmap` clears the leaves below the
size first, so only the leaves above it need one. Each free changes memory only inside the
tree's pages and the frames it frees. -/
namespace Xv6
open ByteMem StateExcept

/-- The page the entry `i` of `pagetable` leads `freewalk` to: a valid entry with none of
`PTE_R`, `PTE_W`, `PTE_X`. -/
def linkAt (m : Memory) (pagetable i : Nat) : Option Nat :=
  if (hasFlag (read64 m (pagetable + 8 * i)) PTE_V &&
      read64 m (pagetable + 8 * i) &&& (PTE_R ||| PTE_W ||| PTE_X) == 0) = true then
    some (PTE2PA (read64 m (pagetable + 8 * i)))
  else none

/-- The pages `freewalk` visits from `pagetable` with at most `d` nested calls. -/
def Walked (m : Memory) : Nat → Nat → Nat → Prop
  | 0, _, _ => False
  | d + 1, pagetable, q =>
    q = pagetable ∨ ∃ i < 512, ∃ c, linkAt m pagetable i = some c ∧ Walked m d c q

/-- A table `freewalk` frees without a panic within `d` nested calls, and without one free
changing what a later step reads: every page it visits is one `kfree` accepts, no subtree holds
its parent, and the subtrees of two entries share no page. -/
def Freewalkable (kend : Nat) (m : Memory) : Nat → Nat → Prop
  | 0, _ => False
  | d + 1, pagetable => Managed kend pagetable ∧ ∀ i < 512, ∀ c, linkAt m pagetable i = some c →
      Freewalkable kend m d c ∧ ¬ Walked m d c pagetable ∧
      ∀ j < 512, j ≠ i → ∀ c', linkAt m pagetable j = some c' →
        ∀ q, Walked m d c q → ¬ Walked m d c' q

/-- The bytes of the pages `P` holds of. -/
def InPages (P : Nat → Prop) (x : Nat) : Prop := ∃ q, P q ∧ q ≤ x ∧ x < q + PGSIZE

section Walked

variable {m m' : Memory} {kend : Nat}

theorem walked_self (m : Memory) (d pagetable : Nat) : Walked m (d + 1) pagetable pagetable :=
  .inl rfl

/-- Every page `freewalk` visits is one `kfree` accepts. -/
theorem Freewalkable.managed_of_walked :
    ∀ {d pagetable q}, Freewalkable kend m d pagetable → Walked m d pagetable q → Managed kend q
  | _ + 1, _, _, h, .inl rfl => h.1
  | _ + 1, _, _, h, .inr ⟨i, hi, c, hc, hq⟩ => ((h.2 i hi c hc).1).managed_of_walked hq

theorem linkAt_congr {pagetable i : Nat}
    (h : ∀ x, pagetable + 8 * i ≤ x → x < pagetable + 8 * i + 8 → m' x = m x) :
    linkAt m' pagetable i = linkAt m pagetable i := by
  have he : read64 m' (pagetable + 8 * i) = read64 m (pagetable + 8 * i) :=
    readLE_congr 8 fun x h1 h2 => h x h1 h2
  unfold linkAt
  rw [he]

/-- The entries of a page agree when the page does. -/
theorem linkAt_of_agree {pagetable i : Nat} (hi : i < 512)
    (h : ∀ x, pagetable ≤ x → x < pagetable + PGSIZE → m' x = m x) :
    linkAt m' pagetable i = linkAt m pagetable i :=
  linkAt_congr fun x h1 h2 => h x (by omega) (by unfold PGSIZE; omega)

/-- What `freewalk` visits depends only on the pages it visits. -/
theorem walked_congr : ∀ {d pagetable}, AgreeOn m m' (Walked m d pagetable) →
    ∀ q, Walked m' d pagetable q ↔ Walked m d pagetable q
  | 0, _, _, _ => Iff.rfl
  | d + 1, pagetable, h, q => by
    have hroot := h pagetable (walked_self m _ _)
    constructor
    · rintro (rfl | ⟨i, hi, c, hc, hq⟩)
      · exact .inl rfl
      · rw [linkAt_of_agree hi hroot] at hc
        have hsub : AgreeOn m m' (Walked m d c) :=
          fun p hp => h p (.inr ⟨i, hi, c, hc, hp⟩)
        exact .inr ⟨i, hi, c, hc, (walked_congr hsub q).mp hq⟩
    · rintro (rfl | ⟨i, hi, c, hc, hq⟩)
      · exact .inl rfl
      · have hsub : AgreeOn m m' (Walked m d c) :=
          fun p hp => h p (.inr ⟨i, hi, c, hc, hp⟩)
        rw [← linkAt_of_agree hi hroot] at hc
        exact .inr ⟨i, hi, c, hc, (walked_congr hsub q).mpr hq⟩

theorem Freewalkable.congr : ∀ {d pagetable}, AgreeOn m m' (Walked m d pagetable) →
    Freewalkable kend m d pagetable → Freewalkable kend m' d pagetable
  | d + 1, pagetable, h, hf => by
    have hroot := h pagetable (walked_self m _ _)
    refine ⟨hf.1, fun i hi c hc => ?_⟩
    rw [linkAt_of_agree hi hroot] at hc
    obtain ⟨hfc, hnp, hdisj⟩ := hf.2 i hi c hc
    have hsub : AgreeOn m m' (Walked m d c) := fun p hp => h p (.inr ⟨i, hi, c, hc, hp⟩)
    refine ⟨hfc.congr hsub, fun hw => hnp ((walked_congr hsub _).mp hw),
      fun j hj hji c' hc' q hq hq' => ?_⟩
    rw [linkAt_of_agree hj hroot] at hc'
    have hsub' : AgreeOn m m' (Walked m d c') := fun p hp => h p (.inr ⟨j, hj, c', hc', hp⟩)
    exact hdisj j hj hji c' hc' q ((walked_congr hsub q).mp hq) ((walked_congr hsub' q).mp hq')

/-- A byte of the page `p` lies in no other page that `kfree` accepts. -/
theorem not_inPage_of_ne {p q x : Nat} (hp : Managed kend p) (hq : Managed kend q) (hne : q ≠ p)
    (h1 : p ≤ x) (h2 : x < p + PGSIZE) : ¬ (q ≤ x ∧ x < q + PGSIZE) := by
  have := sep_of_ne hp.1 hq.1 hne.symm
  omega

end Walked

section Freewalk

variable {id : Fin NCPU} {d : Nat}

theorem freewalkEntries_run_cons (sub : Nat → KM Unit) (pagetable i : Nat) (is : List Nat)
    (s : KState) :
    (freewalkEntries sub pagetable (i :: is)).run s =
      if linkAt s.mem pagetable i = none then (freewalkEntries sub pagetable is).run s
      else ((do
        sub (PTE2PA (read64 s.mem (pagetable + 8 * i)))
        modify fun s => { s with mem := write64 s.mem (pagetable + 8 * i) 0 }
        freewalkEntries sub pagetable is) : KM Unit).run s := by
  simp only [freewalkEntries, StateT.run_bind, StateT.run_get, pure_bind, linkAt]
  split_ifs <;> first | rfl | simp_all

/-- The loop of `freewalk` over the entries `is` of `pagetable`, from a state that still
agrees with `s₀` on those entries and on the subtrees they lead to. -/
theorem freewalkEntries_run {s₀ : KState} {pagetable : Nat}
    (ih : ∀ (s : KState) c, Layout s.kend → Freewalkable s.kend s.mem d c →
      ∃ s', (freewalk id d c).run s = .ok ((), s') ∧ s'.kend = s.kend ∧
        Keeps (InPages (Walked s.mem d c)) s.mem s'.mem)
    (hk : Layout s₀.kend) (hf : Freewalkable s₀.kend s₀.mem (d + 1) pagetable) :
    ∀ (is : List Nat) (s : KState), is.Nodup → (∀ i ∈ is, i < 512) → s.kend = s₀.kend →
      (∀ i ∈ is, ∀ x, pagetable + 8 * i ≤ x → x < pagetable + 8 * i + 8 → s.mem x = s₀.mem x) →
      (∀ i ∈ is, ∀ c, linkAt s₀.mem pagetable i = some c →
        AgreeOn s₀.mem s.mem (Walked s₀.mem d c)) →
      ∃ s', (freewalkEntries (freewalk id d) pagetable is).run s = .ok ((), s') ∧
        s'.kend = s₀.kend ∧ Keeps (InPages (Walked s₀.mem (d + 1) pagetable)) s.mem s'.mem
  | [], s, _, _, hkend, _, _ => ⟨s, rfl, hkend, Keeps.refl _ _⟩
  | i :: is, s, hnd, hlt, hkend, hent, hsub => by
    obtain ⟨hni, hnd'⟩ := List.nodup_cons.mp hnd
    have hi := hlt i List.mem_cons_self
    have hlt' : ∀ j ∈ is, j < 512 := fun j hj => hlt j (List.mem_cons_of_mem i hj)
    have hroot := hf.1
    have hlink : linkAt s.mem pagetable i = linkAt s₀.mem pagetable i :=
      linkAt_congr (hent i List.mem_cons_self)
    rw [freewalkEntries_run_cons, hlink]
    cases hc : linkAt s₀.mem pagetable i with
    | none =>
      rw [if_pos rfl]
      exact freewalkEntries_run ih hk hf is s hnd' hlt' hkend
        (fun j hj => hent j (List.mem_cons_of_mem i hj))
        (fun j hj => hsub j (List.mem_cons_of_mem i hj))
    | some c =>
      rw [if_neg (Option.some_ne_none c)]
      have hc' : PTE2PA (read64 s.mem (pagetable + 8 * i)) = c := by
        have := hlink.trans hc
        unfold linkAt at this
        split_ifs at this
        exact Option.some.inj this
      rw [hc']
      obtain ⟨hfc, hnp, hdisj⟩ := hf.2 i hi c hc
      have hag := hsub i List.mem_cons_self c hc
      obtain ⟨s₁, hrun₁, hkend₁, hkeep₁⟩ := ih s c (hkend ▸ hk) (hkend ▸ hfc.congr hag)
      have hwalk : ∀ q, Walked s.mem d c q ↔ Walked s₀.mem d c q := walked_congr hag
      set s₂ : KState := { s₁ with mem := write64 s₁.mem (pagetable + 8 * i) 0 } with hs₂
      have hmanaged : ∀ q, Walked s₀.mem d c q → Managed s₀.kend q :=
        fun q hq => hfc.managed_of_walked hq
      have hout_root : ∀ x, pagetable ≤ x → x < pagetable + PGSIZE →
          ¬ InPages (Walked s.mem d c) x := fun x h1 h2 hin => by
        obtain ⟨q, hq, hq1, hq2⟩ := hin
        have hq' := (hwalk q).mp hq
        have hne : q ≠ pagetable := fun he => hnp (he ▸ hq')
        exact not_inPage_of_ne hroot (hmanaged q hq') hne h1 h2 ⟨hq1, hq2⟩
      have hent₂ : ∀ j ∈ is, ∀ x, pagetable + 8 * j ≤ x → x < pagetable + 8 * j + 8 →
          s₂.mem x = s₀.mem x := fun j hj x h1 h2 => by
        have hji : j ≠ i := fun he => hni (he ▸ hj)
        have hj' := hlt' j hj
        have hslot : x < pagetable + 8 * i ∨ pagetable + 8 * i + 8 ≤ x := by omega
        rw [hs₂]
        show write64 s₁.mem (pagetable + 8 * i) 0 x = _
        rw [write64, writeLE_of_outside hslot,
          hkeep₁ x (hout_root x (by omega) (by unfold PGSIZE; omega)),
          hent j (List.mem_cons_of_mem i hj) x h1 h2]
      have hsub₂ : ∀ j ∈ is, ∀ c', linkAt s₀.mem pagetable j = some c' →
          AgreeOn s₀.mem s₂.mem (Walked s₀.mem d c') := fun j hj c' hc'' q hq x h1 h2 => by
        have hji : j ≠ i := fun he => hni (he ▸ hj)
        obtain ⟨hfc', hnp', -⟩ := hf.2 j (hlt' j hj) c' hc''
        have hqm := hfc'.managed_of_walked hq
        have hqne : q ≠ pagetable := fun he => hnp' (he ▸ hq)
        have hslot : x < pagetable + 8 * i ∨ pagetable + 8 * i + 8 ≤ x := by
          have := not_inPage_of_ne hqm hroot hqne.symm h1 h2
          unfold PGSIZE at this
          omega
        have hnin : ¬ InPages (Walked s.mem d c) x := by
          rintro ⟨q', hq', hq1, hq2⟩
          have hq'' := (hwalk q').mp hq'
          have hne : q' ≠ q := fun he =>
            hdisj j (hlt' j hj) hji c' hc'' q' hq'' (he ▸ hq)
          exact not_inPage_of_ne hqm (hmanaged q' hq'') hne h1 h2 ⟨hq1, hq2⟩
        show write64 s₁.mem (pagetable + 8 * i) 0 x = _
        rw [write64, writeLE_of_outside hslot, hkeep₁ x hnin,
          hsub j (List.mem_cons_of_mem i hj) c' hc'' q hq x h1 h2]
      obtain ⟨s', hrun', hkend', hkeep'⟩ := freewalkEntries_run ih hk hf is s₂ hnd' hlt'
        (hkend₁.trans hkend) hent₂ hsub₂
      refine ⟨s', ?_, hkend', ?_⟩
      · simp only [StateT.run_bind, hrun₁, ok_bind, StateT.run_modify, pure_bind]
        exact hrun'
      · -- the subtree, then the entry in the root page, then the entries left
        have hk₁₂ : Keeps (InPages (Walked s₀.mem (d + 1) pagetable)) s.mem s₂.mem := by
          refine ((hkeep₁.trans (keeps_writeLE s₁.mem (pagetable + 8 * i) 0 8)).mono ?_)
          rintro x (⟨q, hq, hq1, hq2⟩ | ⟨h1, h2⟩)
          · exact ⟨q, .inr ⟨i, hi, c, hc, (hwalk q).mp hq⟩, hq1, hq2⟩
          · exact ⟨pagetable, .inl rfl, by omega, by unfold PGSIZE; omega⟩
        exact (hk₁₂.trans hkeep').mono fun x hx => or_self_iff.mp hx

/-- `freewalk` of a table it can free: no panic, and memory changes only in the pages it
visits. -/
theorem freewalk_run (id : Fin NCPU) : ∀ (d : Nat) (s : KState) (pagetable : Nat), Layout s.kend →
    Freewalkable s.kend s.mem d pagetable →
    ∃ s', (freewalk id d pagetable).run s = .ok ((), s') ∧ s'.kend = s.kend ∧
      Keeps (InPages (Walked s.mem d pagetable)) s.mem s'.mem
  | d + 1, s, pagetable, hk, hf => by
    obtain ⟨s₁, hrun₁, hkend₁, hkeep₁⟩ := freewalkEntries_run (freewalk_run id d) hk hf
      (List.range 512) s List.nodup_range (fun i hi => List.mem_range.mp hi) rfl
      (fun _ _ _ _ _ => rfl) (fun _ _ _ _ _ _ _ _ _ => rfl)
    obtain ⟨s', hrun'⟩ : ∃ s', (kfree id pagetable).run s₁ = .ok ((), s') :=
      kfree_run_ok (hkend₁ ▸ hk) (hkend₁ ▸ hf.1)
    obtain ⟨-, hkend', hm⟩ := kfree_frame hrun'
    refine ⟨s', ?_, hkend'.trans hkend₁, fun x hx => ?_⟩
    · simp only [freewalk, StateT.run_bind, hrun₁, ok_bind]
      exact hrun'
    · rw [hm x (by
        by_contra hin
        exact hx ⟨pagetable, .inl rfl, by omega, by omega⟩), hkeep₁ x hx]

end Freewalk

/-! ### A well-formed tree is freed whole -/

/-- The root entries past those of the addresses below `MAXVA` are not valid: no walk
reaches them. -/
def UpperClear (m : Memory) (pagetable : Nat) : Prop :=
  ∀ i, 256 ≤ i → i < 512 → hasFlag (read64 m (pagetable + 8 * i)) PTE_V = false

/-- Every valid leaf from `lo` up carries a permission, as every leaf `xv6` maps does, so
`freewalk` follows no entry of a level-0 page there. -/
def LeafPerm (m : Memory) (pagetable lo : Nat) : Prop :=
  ∀ va, lo ≤ va → va < MAXVA → hasFlag (leafPte m pagetable va) PTE_V →
    ¬ NoPerm (leafPte m pagetable va)

section Tree

variable {m : Memory} {kend pagetable : Nat}

theorem noPerm_of_land {e : Nat} (h : e &&& (PTE_R ||| PTE_W ||| PTE_X) = 0) : NoPerm e := by
  have hsub : ∀ f, (PTE_R ||| PTE_W ||| PTE_X) &&& f = f → hasFlag e f = false := fun f hf => by
    have he : e &&& f = 0 := by rw [← hf, ← Nat.land_assoc, h, Nat.zero_and]
    simp [hasFlag, he]
  exact ⟨hsub _ (by decide), hsub _ (by decide), hsub _ (by decide)⟩

/-- An entry `freewalk` follows is valid and carries no permission. -/
theorem linkAt_noPerm {p i c : Nat} (h : linkAt m p i = some c) :
    hasFlag (read64 m (p + 8 * i)) PTE_V ∧ NoPerm (read64 m (p + 8 * i)) := by
  unfold linkAt at h
  split_ifs at h with hl
  obtain ⟨hv, hz⟩ := Bool.and_eq_true_iff.mp hl
  exact ⟨hv, noPerm_of_land (beq_iff_eq.mp hz)⟩

/-- A page with no entry `freewalk` follows is the only page it visits there. -/
theorem walked_of_noLink {d c q : Nat} (h : ∀ k < 512, linkAt m c k = none)
    (hq : Walked m (d + 1) c q) : q = c := by
  rcases hq with rfl | ⟨k, hk, c', hc', -⟩
  · rfl
  · rw [h k hk] at hc'
    cases hc'

/-- The address whose top index is `i` and middle index `j`. -/
theorem PX_of_index {i j : Nat} (hi : i < 256) (hj : j < 512) :
    PX 2 (i * 2 ^ 30 + j * 2 ^ 21) = i ∧ PX 1 (i * 2 ^ 30 + j * 2 ^ 21) = j ∧
      i * 2 ^ 30 + j * 2 ^ 21 < MAXVA := by
  simp only [PX_eq]
  unfold MAXVA
  norm_num
  omega

/-- The address whose indices are `i`, `j` and `k`. -/
theorem PX_of_index₃ {i j k : Nat} (hi : i < 256) (hj : j < 512) (hk : k < 512) :
    PX 2 (i * 2 ^ 30 + j * 2 ^ 21 + k * 2 ^ 12) = i ∧ PX 1 (i * 2 ^ 30 + j * 2 ^ 21 + k * 2 ^ 12) = j ∧
      PX 0 (i * 2 ^ 30 + j * 2 ^ 21 + k * 2 ^ 12) = k ∧ i * 2 ^ 30 + j * 2 ^ 21 + k * 2 ^ 12 < MAXVA := by
  simp only [PX_eq]
  unfold MAXVA
  norm_num
  omega

theorem entryTarget_of_linkAt {p i c : Nat} (h : linkAt m p i = some c) :
    entryTarget (read64 m (p + 8 * i)) = some c := by
  unfold linkAt at h
  split_ifs at h with hl
  cases h
  rw [entryTarget, if_pos (Bool.and_eq_true_iff.mp hl).1]

/-- A link of the root leads to the level-1 page of the addresses with its index on top. -/
theorem l1Page_of_linkAt (hup : UpperClear m pagetable) {i c : Nat} (hi : i < 512)
    (h : linkAt m pagetable i = some c) :
    i < 256 ∧ l1Page m pagetable (i * 2 ^ 30 + 0 * 2 ^ 21) = some c := by
  have hlow : i < 256 := by
    by_contra hge
    unfold linkAt at h
    split_ifs at h with hl
    rw [hup i (by omega) hi, Bool.false_and] at hl
    cases hl
  obtain ⟨h2, -, -⟩ := PX_of_index hlow (Nat.zero_lt_succ 511)
  refine ⟨hlow, ?_⟩
  unfold l1Page pteAddr
  rw [h2]
  exact entryTarget_of_linkAt h

/-- A link of a level-1 page leads to the level-0 page of the addresses with both indices. -/
theorem l0Page_of_linkAt {i j p1 c : Nat} (hi : i < 256) (hj : j < 512)
    (h1 : l1Page m pagetable (i * 2 ^ 30 + 0 * 2 ^ 21) = some p1) (h : linkAt m p1 j = some c) :
    l0Page m pagetable (i * 2 ^ 30 + j * 2 ^ 21) = some c := by
  obtain ⟨h2, h1', -⟩ := PX_of_index hi hj
  obtain ⟨h2₀, -, -⟩ := PX_of_index hi (Nat.zero_lt_succ 511)
  have hl1 : l1Page m pagetable (i * 2 ^ 30 + j * 2 ^ 21) = some p1 := by
    rw [l1Page_of_PX (h2.trans h2₀.symm)]
    exact h1
  rw [l0Page_of_l1 hl1]
  unfold pteAddr
  rw [h1']
  exact entryTarget_of_linkAt h

/-- A level-0 page of a tree whose valid leaves carry a permission has no entry `freewalk`
follows. -/
theorem l0_noLink (hperm : LeafPerm m pagetable 0) {i j c0 : Nat} (hi : i < 256) (hj : j < 512)
    (hl0 : l0Page m pagetable (i * 2 ^ 30 + j * 2 ^ 21) = some c0) :
    ∀ k < 512, linkAt m c0 k = none := by
  intro k hk
  cases hc : linkAt m c0 k with
  | none => rfl
  | some c =>
    obtain ⟨h2, h1, h0, hva⟩ := PX_of_index₃ hi hj hk
    obtain ⟨h2', h1', -⟩ := PX_of_index hi hj
    have hl0' : l0Page m pagetable (i * 2 ^ 30 + j * 2 ^ 21 + k * 2 ^ 12) = some c0 := by
      rw [l0Page_of_PX (h2.trans h2'.symm) (h1.trans h1'.symm)]
      exact hl0
    have hleaf : leafPte m pagetable (i * 2 ^ 30 + j * 2 ^ 21 + k * 2 ^ 12) = read64 m (c0 + 8 * k) := by
      rw [leafPte_of_l0 hl0', pteAddr, h0]
    obtain ⟨hv, hnp⟩ := linkAt_noPerm hc
    exact absurd hnp (hleaf ▸ hperm _ (Nat.zero_le _) hva (hleaf ▸ hv))

/-- The pages `freewalk` visits below the root entry `i` are the level-1 and level-0 pages of
addresses whose top index is `i`. -/
theorem walked_of_linkAt (hup : UpperClear m pagetable) (hperm : LeafPerm m pagetable 0) {d i c q : Nat}
    (hi : i < 512) (hc : linkAt m pagetable i = some c) (hq : Walked m (d + 2) c q) :
    ∃ va < MAXVA, PX 2 va = i ∧ (l1Page m pagetable va = some q ∨ l0Page m pagetable va = some q) := by
  obtain ⟨hlow, hl1⟩ := l1Page_of_linkAt hup hi hc
  obtain ⟨h2₀, -, hva₀⟩ := PX_of_index hlow (Nat.zero_lt_succ 511)
  rcases hq with rfl | ⟨j, hj, c0, hc0, hq⟩
  · exact ⟨_, hva₀, h2₀, .inl hl1⟩
  · obtain ⟨h2, -, hva⟩ := PX_of_index hlow hj
    have hl0 := l0Page_of_linkAt hlow hj hl1 hc0
    rw [walked_of_noLink (l0_noLink hperm hlow hj hl0) hq]
    exact ⟨_, hva, h2, .inr hl0⟩

/-- Two pages of the tree on the paths of two addresses are different when the top indices
of the addresses are. -/
theorem ne_of_PX_two (ht : PTree m kend pagetable) {va vb p q : Nat} (hva : va < MAXVA) (hvb : vb < MAXVA)
    (hne : PX 2 va ≠ PX 2 vb)
    (hp : l1Page m pagetable va = some p ∨ l0Page m pagetable va = some p)
    (hq : l1Page m pagetable vb = some q ∨ l0Page m pagetable vb = some q) : p ≠ q := by
  rintro rfl
  rcases hp with hp | hp <;> rcases hq with hq | hq
  · exact hne (ht.l1_inj va hva vb hvb p hp hq)
  · exact ht.l0_ne_l1 vb hvb va hva p hq hp
  · exact ht.l0_ne_l1 va hva vb hvb p hp hq
  · exact hne (ht.l0_inj va hva vb hvb p hp hq).1

variable (ht : PTree m kend pagetable) (hup : UpperClear m pagetable) (hperm : LeafPerm m pagetable 0)
include ht hup hperm

theorem PTree.isTable_of_walked {d q : Nat} (hq : Walked m (d + 3) pagetable q) :
    IsTable m pagetable q := by
  rcases hq with rfl | ⟨i, hi, c, hc, hq⟩
  · exact PTree.root_isTable
  · obtain ⟨va, hva, -, hq'⟩ := walked_of_linkAt hup hperm hi hc hq
    exact .inr ⟨va, hva, hq'⟩

/-- The level-1 page under a root link frees whole: its level-0 pages are pages `kfree`
accepts with no entry to follow, none of them the page itself, and two entries lead to two
different pages. -/
theorem freewalkable_of_linkAt {d i c : Nat} (hi : i < 512) (hc : linkAt m pagetable i = some c) :
    Freewalkable kend m (d + 2) c := by
  obtain ⟨hlow, hl1⟩ := l1Page_of_linkAt hup hi hc
  obtain ⟨-, -, hva₀⟩ := PX_of_index hlow (Nat.zero_lt_succ 511)
  refine ⟨ht.managed c (isTable_of_l1 hva₀ hl1), fun j hj c0 hc0 => ?_⟩
  obtain ⟨-, h1, hva⟩ := PX_of_index hlow hj
  have hl0 := l0Page_of_linkAt hlow hj hl1 hc0
  have hnl := l0_noLink hperm hlow hj hl0
  refine ⟨⟨ht.managed c0 (isTable_of_l0 hva hl0), fun k hk c' hc' => absurd hc' (by rw [hnl k hk]; simp)⟩,
    fun he => ?_, fun j' hj' hne c0' hc0' q hq hq' => ?_⟩
  · -- a level-0 page is no level-1 page
    have he' : c = c0 := walked_of_noLink hnl he
    exact ht.l0_ne_l1 _ hva _ hva₀ c0 hl0 (he' ▸ hl1)
  · obtain ⟨-, h1', hva'⟩ := PX_of_index hlow hj'
    have hl0' := l0Page_of_linkAt hlow hj' hl1 hc0'
    have hq₁ : q = c0 := walked_of_noLink hnl hq
    have hq₂ : q = c0' := walked_of_noLink (l0_noLink hperm hlow hj' hl0') hq'
    subst hq₁
    have := (ht.l0_inj _ hva _ hva' q hl0 (hq₂ ▸ hl0')).2
    rw [h1, h1'] at this
    exact hne this.symm

/-- A well-formed tree whose root has no entry past `MAXVA`'s and whose valid leaves carry a
permission is a table `freewalk` frees within three nested calls. -/
theorem PTree.freewalkable (d : Nat) : Freewalkable kend m (d + 3) pagetable := by
  refine ⟨ht.managed _ PTree.root_isTable, fun i hi c hc =>
    ⟨freewalkable_of_linkAt ht hup hperm hi hc, fun hw => ?_, fun j hj hji c' hc' q hq hq' => ?_⟩⟩
  · obtain ⟨va, hva, -, hq⟩ := walked_of_linkAt hup hperm hi hc hw
    rcases hq with hq | hq
    · exact ht.l1_ne_root va hva hq
    · exact ht.l0_ne_root va hva hq
  · obtain ⟨va, hva, hva2, hq₁⟩ := walked_of_linkAt hup hperm hi hc hq
    obtain ⟨vb, hvb, hvb2, hq₂⟩ := walked_of_linkAt hup hperm hj hc' hq'
    exact ne_of_PX_two ht hva hvb (by rw [hva2, hvb2]; exact hji.symm) hq₁ hq₂ rfl

end Tree

/-! ### `uvmunmap` and `proc_freepagetable` -/

/-- `q` is the frame a valid leaf of a page from `lo` up to `hi` maps. -/
def LeafFrame (m : Memory) (pagetable lo hi q : Nat) : Prop :=
  ∃ va, lo ≤ va ∧ va < hi ∧ hasFlag (leafPte m pagetable va) PTE_V ∧
    PTE2PA (leafPte m pagetable va) = q

section Unmap

variable {s s' : KState} {pagetable : Nat} {id : Fin NCPU} {doFree : Bool}

/-- One page of `uvmunmap` stores only into the leaf's level-0 page, and frees at most the
page the leaf maps. -/
theorem uvmunmapPage_keeps {a : Nat} (ht : PTree s.mem s.kend pagetable) (hk : Layout s.kend)
    (ha : a < MAXVA)
    (hrun : (uvmunmapPage id pagetable doFree a).run s = .ok ((), s')) :
    Keeps (fun x => InPages (fun q => IsTable s.mem pagetable q ∧ q ≠ pagetable) x ∨
      (doFree = true ∧ hasFlag (leafPte s.mem pagetable a) PTE_V ∧
        PTE2PA (leafPte s.mem pagetable a) ≤ x ∧ x < PTE2PA (leafPte s.mem pagetable a) + PGSIZE))
      s.mem s'.mem := by
  rw [uvmunmapPage_run ha, walkPte_eq] at hrun
  cases h0 : l0Page s.mem pagetable a with
  | none =>
    rw [h0] at hrun
    rw [if_pos rfl] at hrun
    cases hrun
    exact Keeps.refl _ _
  | some p0 =>
    have hp0 := isTable_of_l0 ha h0
    have hne : pteAddr p0 0 a ≠ 0 := by
      have := (ht.managed p0 hp0).ne_zero hk
      unfold pteAddr
      omega
    rw [h0] at hrun
    dsimp only at hrun
    rw [if_neg hne, ← leafPte_of_l0 h0] at hrun
    cases hv : hasFlag (leafPte s.mem pagetable a) PTE_V with
    | false =>
      rw [hv, Bool.not_false, if_pos rfl] at hrun
      cases hrun
      exact Keeps.refl _ _
    | true =>
      rw [hv, if_neg (by decide), if_neg (ht.leaf a ha hv)] at hrun
      obtain ⟨r, hfr, hr⟩ := bind_eq_ok hrun
      cases hr
      have hslot : Keeps (fun x => InPages (fun q => IsTable s.mem pagetable q ∧ q ≠ pagetable) x)
          r.2.mem (write64 r.2.mem (pteAddr p0 0 a) 0) :=
        (keeps_writeLE _ _ _ _).mono fun x ⟨h1, h2⟩ =>
          ⟨p0, ⟨hp0, ht.ne_root_of_l0 ha h0⟩, by unfold pteAddr at h1; omega,
            by have := pteAddr_add_le p0 0 a; omega⟩
      cases doFree with
      | false =>
        cases hfr
        exact (hslot.mono fun x hx => .inl hx)
      | true =>
        obtain ⟨hbad, -, hm⟩ := kfree_frame hfr
        have hfree : Keeps (fun x => PTE2PA (leafPte s.mem pagetable a) ≤ x ∧
            x < PTE2PA (leafPte s.mem pagetable a) + PGSIZE) s.mem r.2.mem :=
          fun x hx => hm x (by omega)
        exact (hfree.trans hslot).mono fun x hx => hx.elim (fun h => .inr ⟨rfl, rfl, h⟩) .inl

/-- The loop of `uvmunmap` stores only into level-0 pages and the frames it frees, and leaves
the tree's pages the same. -/
theorem uvmunmapLoop_keeps (n : Nat) {a : Nat} (ht : PTree s.mem s.kend pagetable)
    (hk : Layout s.kend) (ha0 : a % PGSIZE = 0) (hlt : a + n * PGSIZE ≤ MAXVA)
    (hfree : doFree → ∀ k < n, Freeable s.mem s.kend pagetable (a + k * PGSIZE))
    (hrun : (uvmunmapLoop id pagetable doFree a n).run s = .ok ((), s')) :
    (∀ q, IsTable s'.mem pagetable q ↔ IsTable s.mem pagetable q) ∧
      Keeps (fun x => InPages (fun q => IsTable s.mem pagetable q ∧ q ≠ pagetable) x ∨
        (doFree = true ∧ InPages (LeafFrame s.mem pagetable a (a + n * PGSIZE)) x))
        s.mem s'.mem := by
  induction n generalizing s a with
  | zero =>
    cases hrun
    exact ⟨fun _ => Iff.rfl, Keeps.refl _ _⟩
  | succ n ih =>
    have ha : a < MAXVA := by
      unfold PGSIZE at hlt
      omega
    have hfree₀ : doFree → Freeable s.mem s.kend pagetable a := fun hd => by
      have := hfree hd 0 (Nat.succ_pos n)
      rwa [Nat.zero_mul, Nat.add_zero] at this
    obtain ⟨s₁, hp, ht₁, hkend₁, htab₁, hleaf₁⟩ :
        ∃ s₁, (uvmunmapPage id pagetable doFree a).run s = .ok ((), s₁) ∧ _ :=
      ht.uvmunmapPage hk ha hfree₀
    rw [uvmunmapLoop_run_succ hp] at hrun
    have hsame : ∀ k < n, leafPte s₁.mem pagetable (a + PGSIZE + k * PGSIZE) =
        leafPte s.mem pagetable (a + PGSIZE + k * PGSIZE) := fun k hkn => by
      have hb : a + PGSIZE + k * PGSIZE < MAXVA := by
        rw [Nat.succ_mul] at hlt
        unfold PGSIZE at hlt ⊢
        omega
      have hpage : PGROUNDDOWN (a + PGSIZE + k * PGSIZE) ≠ PGROUNDDOWN a := by
        rw [PGROUNDDOWN_of_mod ha0, PGROUNDDOWN_of_mod (by unfold PGSIZE at ha0 ⊢; omega)]
        unfold PGSIZE
        omega
      rw [hleaf₁ _ hb, if_neg hpage]
    have hfree₁ : doFree → ∀ k < n,
        Freeable s₁.mem s₁.kend pagetable (a + PGSIZE + k * PGSIZE) := fun hd k hkn => by
      have hf := hfree hd (k + 1) (by omega)
      rw [show a + (k + 1) * PGSIZE = a + PGSIZE + k * PGSIZE by rw [Nat.succ_mul]; omega] at hf
      exact hf.of_eq (hsame k hkn) htab₁ hkend₁
    obtain ⟨htab', hkeep'⟩ := ih ht₁ (hkend₁ ▸ hk) (by unfold PGSIZE at ha0 ⊢; omega)
      (by rw [Nat.succ_mul] at hlt; omega) hfree₁ hrun
    refine ⟨fun q => (htab' q).trans (htab₁ q), ?_⟩
    refine ((uvmunmapPage_keeps ht hk ha hp).trans hkeep').mono ?_
    rintro x ((hx | ⟨hd, hv, h1, h2⟩) |
      (⟨q, ⟨hq, hne⟩, h1, h2⟩ | ⟨hd, q, ⟨va, hva1, hva2, hv, hq⟩, h1, h2⟩))
    · exact .inl hx
    · exact .inr ⟨hd, _, ⟨a, le_refl a, by rw [Nat.succ_mul]; unfold PGSIZE; omega, hv, rfl⟩,
        h1, h2⟩
    · exact .inl ⟨q, ⟨(htab₁ q).mp hq, hne⟩, h1, h2⟩
    · -- a frame freed later was mapped by the same leaf before
      have hva : va < MAXVA := by
        rw [Nat.succ_mul] at hlt
        omega
      have hpage : PGROUNDDOWN va ≠ PGROUNDDOWN a := by
        rw [PGROUNDDOWN_of_mod ha0]
        unfold PGROUNDDOWN
        unfold PGSIZE at hva1 ha0 ⊢
        omega
      rw [hleaf₁ va hva, if_neg hpage] at hv hq
      exact .inr ⟨hd, q, ⟨va, by omega, by rw [Nat.succ_mul]; omega, hv, hq⟩, h1, h2⟩

theorem hasFlag_unmapPte (e : Nat) : hasFlag (unmapPte e) PTE_V = false := by
  cases hv : hasFlag e PTE_V with
  | true =>
    rw [unmapPte_of_valid hv]
    rfl
  | false => rw [unmapPte_of_invalid hv, hv]

/-- What `do_free` needs of a page stays true once `uvmunmap` has left its leaf or cleared
it. -/
theorem Freeable.of_unmap {m m' : Memory} {kend b : Nat} (hf : Freeable m kend pagetable b)
    (hl : leafPte m' pagetable b = leafPte m pagetable b ∨
      leafPte m' pagetable b = unmapPte (leafPte m pagetable b))
    (htab : ∀ q, IsTable m' pagetable q ↔ IsTable m pagetable q) :
    Freeable m' kend pagetable b := by
  rcases hl with hl | hl
  · exact hf.of_eq hl htab rfl
  · intro hv
    rw [hl, hasFlag_unmapPte] at hv
    cases hv

/-- The root's unused entries stay when no byte of the root page changes. -/
theorem UpperClear.of_keeps {m m' : Memory} {W : Nat → Prop} (hup : UpperClear m pagetable)
    (h : Keeps W m m') (hw : ∀ x, pagetable ≤ x → x < pagetable + PGSIZE → ¬ W x) :
    UpperClear m' pagetable := fun i h1 h2 => by
  rw [h.read64_eq fun x hx1 hx2 => hw x (by omega) (by unfold PGSIZE; omega)]
  exact hup i h1 h2

/-- `uvmunmap` of an aligned range below `MAXVA` over a well-formed tree: it returns, the
tree keeps its pages and its root's unused entries, each leaf stays or is cleared, and memory
changes only in the tree's pages and the frames it frees. -/
theorem PTree.uvmunmap_frame (id : Fin NCPU) (va n : Nat) (doFree : Bool)
    (ht : PTree s.mem s.kend pagetable)
    (hk : Layout s.kend) (hup : UpperClear s.mem pagetable) (hva0 : va % PGSIZE = 0)
    (hlt : va + n * PGSIZE ≤ MAXVA)
    (hfree : doFree → ∀ k < n, Freeable s.mem s.kend pagetable (va + k * PGSIZE)) :
    ∃ s', (Xv6.uvmunmap id pagetable va n doFree).run s = .ok ((), s') ∧
      PTree s'.mem s'.kend pagetable ∧ s'.kend = s.kend ∧
      (∀ q, IsTable s'.mem pagetable q ↔ IsTable s.mem pagetable q) ∧
      UpperClear s'.mem pagetable ∧
      (∀ b < MAXVA, leafPte s'.mem pagetable b = leafPte s.mem pagetable b ∨
        leafPte s'.mem pagetable b = unmapPte (leafPte s.mem pagetable b)) ∧
      (∀ b < MAXVA, va ≤ PGROUNDDOWN b → PGROUNDDOWN b < va + n * PGSIZE →
        hasFlag (leafPte s'.mem pagetable b) PTE_V = false) ∧
      Keeps (fun x => InPages (IsTable s.mem pagetable) x ∨
        (doFree = true ∧ InPages (LeafFrame s.mem pagetable va (va + n * PGSIZE)) x))
        s.mem s'.mem := by
  obtain ⟨s', hrun, ht', hkend', hleaf'⟩ :
      ∃ s', (Xv6.uvmunmap id pagetable va n doFree).run s = .ok ((), s') ∧ _ :=
    ht.uvmunmap hk hva0 hlt hfree
  have hrun' := hrun
  rw [uvmunmap_run_loop hva0 (lt_of_le_of_lt hlt (by decide))] at hrun'
  obtain ⟨htab', hkeep'⟩ := uvmunmapLoop_keeps n ht hk hva0 hlt hfree hrun'
  have hroot := ht.managed _ PTree.root_isTable
  have hkeep_root : ∀ x, pagetable ≤ x → x < pagetable + PGSIZE →
      ¬ (InPages (fun q => IsTable s.mem pagetable q ∧ q ≠ pagetable) x ∨
        (doFree = true ∧ InPages (LeafFrame s.mem pagetable va (va + n * PGSIZE)) x)) := by
    rintro x h1 h2 (⟨q, ⟨hq, hne⟩, hq1, hq2⟩ | ⟨hd, q, ⟨b, hb1, hb2, hv, rfl⟩, hq1, hq2⟩)
    · exact not_inPage_of_ne hroot (ht.managed q hq) hne h1 h2 ⟨hq1, hq2⟩
    · -- the freed frame is no page of the tree, so not the root
      have hk' : va + (b - va) / PGSIZE * PGSIZE = PGROUNDDOWN b := by
        unfold PGROUNDDOWN
        unfold PGSIZE at hva0 ⊢
        omega
      have hf := hfree hd ((b - va) / PGSIZE) (by
        have := Nat.div_mul_le_self (b - va) PGSIZE
        unfold PGSIZE at hb2 ⊢
        omega)
      rw [hk'] at hf
      unfold Freeable at hf
      rw [leafPte_PGROUNDDOWN] at hf
      obtain ⟨hm, hnt⟩ := hf hv
      exact not_inPage_of_ne hroot hm (ne_of_not_isTable hnt PTree.root_isTable) h1 h2 ⟨hq1, hq2⟩
  refine ⟨s', hrun, ht', hkend', htab', hup.of_keeps hkeep' hkeep_root, fun b hb => ?_,
    fun b hb h1 h2 => ?_, hkeep'.mono ?_⟩
  · rw [hleaf' b hb]
    split_ifs
    · exact .inr rfl
    · exact .inl rfl
  · rw [hleaf' b hb, if_pos ⟨h1, h2⟩, hasFlag_unmapPte]
  · rintro x (⟨q, ⟨hq, -⟩, h1, h2⟩ | hx)
    · exact .inl ⟨q, hq, h1, h2⟩
    · exact .inr hx

/-- A leaf that is valid after `uvmunmap` left it or cleared it is the leaf from before. -/
theorem leaf_of_unmap_valid {e e' : Nat} (hl : e' = e ∨ e' = unmapPte e)
    (hv : hasFlag e' PTE_V) : e' = e := by
  rcases hl with hl | hl
  · exact hl
  · rw [hl, hasFlag_unmapPte] at hv
    cases hv

/-- Valid leaves that `uvmunmap` left are the leaves from before, with their permissions. -/
theorem LeafPerm.of_unmap {m m' : Memory} {lo : Nat} (h : LeafPerm m pagetable lo)
    (hl : ∀ b < MAXVA, leafPte m' pagetable b = leafPte m pagetable b ∨
      leafPte m' pagetable b = unmapPte (leafPte m pagetable b)) : LeafPerm m' pagetable lo :=
  fun va h1 h2 hv => by
    have he := leaf_of_unmap_valid (hl va h2) hv
    rw [he] at hv ⊢
    exact h va h1 h2 hv

theorem KSTACKDEPTH_eq : KSTACKDEPTH = 253 + 3 := by decide

/-- `uvmfree` of a well-formed tree whose valid leaves below the size map pages `kfree`
accepts outside the tree, and whose valid leaves from the size up carry a permission: it
returns, and memory changes only in the tree's pages and the frames below the size. -/
theorem uvmfree_run (id : Fin NCPU) {sz : Nat} (ht : PTree s.mem s.kend pagetable)
    (hk : Layout s.kend) (hup : UpperClear s.mem pagetable) (hsz : PGROUNDUP sz ≤ MAXVA)
    (hfree : ∀ va < PGROUNDUP sz, Freeable s.mem s.kend pagetable va)
    (hperm : LeafPerm s.mem pagetable (PGROUNDUP sz)) :
    ∃ s', (uvmfree id pagetable sz).run s = .ok ((), s') ∧ s'.kend = s.kend ∧
      Keeps (fun x => InPages (IsTable s.mem pagetable) x ∨
        InPages (LeafFrame s.mem pagetable 0 (PGROUNDUP sz)) x) s.mem s'.mem := by
  obtain ⟨s₁, hrun₁, ht₁, hkend₁, htab₁, hup₁, hperm₁, hkeep₁⟩ : ∃ s₁,
      (uvmfree id pagetable sz).run s = (freewalk id KSTACKDEPTH pagetable).run s₁ ∧
      PTree s₁.mem s₁.kend pagetable ∧ s₁.kend = s.kend ∧
      (∀ q, IsTable s₁.mem pagetable q ↔ IsTable s.mem pagetable q) ∧
      UpperClear s₁.mem pagetable ∧ LeafPerm s₁.mem pagetable 0 ∧
      Keeps (fun x => InPages (IsTable s.mem pagetable) x ∨
        InPages (LeafFrame s.mem pagetable 0 (PGROUNDUP sz)) x) s.mem s₁.mem := by
    by_cases hpos : sz > 0
    · have hn : 0 + PGROUNDUP sz / PGSIZE * PGSIZE = PGROUNDUP sz := by
        rw [Nat.zero_add, Nat.div_mul_cancel (Nat.dvd_of_mod_eq_zero (PGROUNDUP_mod sz))]
      obtain ⟨s₁, hrun, ht₁, hkend₁, htab₁, hup₁, hleaf, hclear, hkeep⟩ :=
        ht.uvmunmap_frame id 0 (PGROUNDUP sz / PGSIZE) true hk hup (by decide)
          (by rw [hn]; exact hsz) fun _ k hk' => hfree _ (by
            have := Nat.mul_le_mul_right PGSIZE (Nat.succ_le_of_lt hk')
            rw [Nat.succ_mul] at this
            unfold PGSIZE at hn this ⊢
            omega)
      have hperm₁ : LeafPerm s₁.mem pagetable 0 := fun va _ hva hv => by
        by_cases hlo : PGROUNDUP sz ≤ va
        · exact hperm.of_unmap hleaf va hlo hva hv
        · have hpage : PGROUNDDOWN va < 0 + PGROUNDUP sz / PGSIZE * PGSIZE := by
            rw [hn]
            exact lt_of_le_of_lt (PGROUNDDOWN_le va) (by omega)
          rw [hclear va hva (Nat.zero_le _) hpage] at hv
          cases hv
      refine ⟨s₁, ?_, ht₁, hkend₁, htab₁, hup₁, hperm₁, hkeep.mono ?_⟩
      · rw [uvmfree, if_pos hpos, StateT.run_bind, hrun, ok_bind]
      · rintro x (hx | ⟨-, hx⟩)
        · exact .inl hx
        · rw [hn] at hx
          exact .inr hx
    · have h0 : PGROUNDUP sz = 0 := by
        rw [show sz = 0 by omega]
        rfl
      refine ⟨s, ?_, ht, rfl, fun _ => Iff.rfl, hup, h0 ▸ hperm, Keeps.refl _ _⟩
      rw [uvmfree, if_neg hpos]
  obtain ⟨s', hrun', hkend', hkeep'⟩ := freewalk_run id KSTACKDEPTH s₁ pagetable (hkend₁ ▸ hk)
    (KSTACKDEPTH_eq ▸ ht₁.freewalkable hup₁ hperm₁ 253)
  refine ⟨s', hrun₁.trans hrun', hkend'.trans hkend₁, (hkeep₁.trans hkeep').mono ?_⟩
  rintro x (hx | ⟨q, hq, h1, h2⟩)
  · exact hx
  · rw [KSTACKDEPTH_eq] at hq
    exact .inl ⟨q, (htab₁ q).mp (ht₁.isTable_of_walked hup₁ hperm₁ hq), h1, h2⟩

theorem l1Page_zero (pagetable va : Nat) : l1Page (fun _ => 0) pagetable va = none := by
  rw [l1Page, read64, readLE_zero]
  rfl

/-- A page of zeros is a page-table tree with no entries. -/
theorem PTree.zero {kend pagetable : Nat} (hp : Managed kend pagetable) :
    PTree (fun _ => 0) kend pagetable := by
  have h1 := l1Page_zero pagetable
  have h0 : ∀ va, l0Page (fun _ => 0) pagetable va = none := fun va => by
    rw [l0Page, h1]
    rfl
  refine ⟨fun p hp' => ?_, fun va _ => by simp [h1], fun va _ => by simp [h0],
    fun va _ vb _ p h => by simp [h0] at h, fun va _ vb _ p h => by simp [h1] at h,
    fun va _ vb _ p h => by simp [h0] at h, fun va _ p1 h => by simp [h1] at h,
    fun va _ p1 p0 h => by simp [h1] at h, fun va _ hv => ?_⟩
  · rcases hp' with rfl | ⟨va, -, h | h⟩
    · exact hp
    · simp [h1] at h
    · simp [h0] at h
  · simp only [leafPte, h0] at hv
    exact absurd hv (by decide)

/-- A process with no user memory whose page table is an empty page. -/
def emptyProc : KState := ⟨fun _ => 0, fun _ => ⟨0, 0⟩, fun _ => 0, false, KERNBASE + 2 ^ 20⟩

end Unmap

end Xv6

