import Mathlib.Data.List.GetD
import Xv6.Lib.ListFamily
import Xv6.Kernel.Kalloc
/-! The representation invariant of the per-CPU free lists: the heads and the `next` words
spell null-terminated lists, the counted sizes are their lengths, no page is on two lists
or twice on one, and a managed page is on a list exactly when its reference count is zero.
It holds after `kinit` and every `kalloc` and `kfree` keeps it. -/
namespace Xv6
open ByteMem StateExcept ListFamily

/-- A page the allocator gives out: aligned, from the first page boundary after the kernel
up to `PHYSTOP`. -/
def Managed (kend pa : Nat) : Prop := pa % PGSIZE = 0 ∧ PGROUNDUP kend ≤ pa ∧ pa < PHYSTOP

instance (kend : Nat) : DecidablePred (Managed kend) :=
  fun _ => inferInstanceAs (Decidable (_ ∧ _ ∧ _))

/-- Where `kernel.ld` puts `end`: after the kernel's image at `KERNBASE`, below `PHYSTOP`. -/
def Layout (kend : Nat) : Prop := KERNBASE ≤ kend ∧ kend ≤ PHYSTOP

instance : DecidablePred Layout := fun _ => inferInstanceAs (Decidable (_ ∧ _))

section Pages

variable {kend p q : Nat}

theorem PGROUNDUP_of_layout (hk : Layout kend) :
    PGROUNDUP kend = (kend + 4095) / 4096 * 4096 := by
  obtain ⟨-, hk⟩ := hk
  rw [PGROUNDUP_of_lt (by unfold PHYSTOP KERNBASE at hk; unfold PGSIZE; omega)]
  unfold PGSIZE
  rfl

/-- The pages `kfree` accepts are the managed ones. -/
theorem managed_iff_kfree_ok (hk : Layout kend) :
    Managed kend p ↔ ¬(p % PGSIZE ≠ 0 ∨ p < kend ∨ PHYSTOP ≤ p) := by
  rw [Managed, PGROUNDUP_of_layout hk]
  unfold PGSIZE
  omega

theorem Managed.ne_zero (hp : Managed kend p) (hk : Layout kend) : p ≠ 0 := by
  obtain ⟨-, hp, -⟩ := hp
  rw [PGROUNDUP_of_layout hk] at hp
  obtain ⟨hk, -⟩ := hk
  unfold KERNBASE at hk
  omega

theorem Managed.lt (hp : Managed kend p) : p < 2 ^ 64 := by
  obtain ⟨-, -, hp⟩ := hp
  unfold PHYSTOP KERNBASE at hp
  omega

/-- Two different pages do not overlap. -/
theorem sep_of_ne (hp : p % PGSIZE = 0) (hq : q % PGSIZE = 0) (hne : p ≠ q) :
    p + PGSIZE ≤ q ∨ q + PGSIZE ≤ p := by
  unfold PGSIZE at *
  omega

/-- Different managed pages have different reference counts. -/
theorem PA2INDEX_ne (hp : Managed kend p) (hq : Managed kend q) (hne : p ≠ q) :
    PA2INDEX kend p ≠ PA2INDEX kend q := by
  obtain ⟨hp, hp', -⟩ := hp
  obtain ⟨hq, hq', -⟩ := hq
  have hG := PGROUNDUP_mod kend
  unfold PA2INDEX
  unfold PGSIZE at *
  omega

end Pages

section Frames

variable {s : KState} {id dst src : Fin NCPU} {pa q : Nat} {d : Int}

theorem KState.refCount_addRef (hq : Managed s.kend q) (hpa : Managed s.kend pa) :
    (s.addRef pa d).refCount q = if q = pa then s.refCount pa + d else s.refCount q := by
  by_cases h : q = pa
  · subst h
    simp [KState.refCount, KState.addRef]
  · rw [if_neg h]
    simp only [KState.refCount, KState.addRef]
    rw [Function.update_of_ne (PA2INDEX_ne hq hpa h)]

theorem KState.next_pushFree_self (hv : (s.kmems id).freelist < 2 ^ 64) :
    (s.pushFree id pa).next pa = (s.kmems id).freelist :=
  read64_write64_self _ _ _ hv

theorem KState.next_pushFree_of_ne (hq : q % PGSIZE = 0) (hpa : pa % PGSIZE = 0)
    (hne : q ≠ pa) : (s.pushFree id pa).next q = s.next q := by
  have hsep := sep_of_ne hq hpa hne
  simp only [KState.next, KState.pushFree]
  rw [read64_write64_of_ne _ _ (by unfold PGSIZE at hsep; omega),
    read64_fill_of_disjoint _ _ (by unfold PGSIZE at hsep ⊢; omega)]

theorem KState.next_popFree_of_ne (hq : q % PGSIZE = 0)
    (hr : (s.kmems id).freelist % PGSIZE = 0) (hne : q ≠ (s.kmems id).freelist) :
    (s.popFree id).next q = s.next q := by
  have hsep := sep_of_ne hq hr hne
  simp only [KState.next, KState.popFree]
  rw [read64_fill_of_disjoint _ _ (by unfold PGSIZE at hsep ⊢; omega)]

theorem KState.next_moveTen_self (L : List Nat) :
    (s.moveTen dst src L).next (L.getD 9 0) = 0 :=
  read64_write64_self _ _ _ (by decide)

theorem KState.next_moveTen_of_ne {L : List Nat} (hq : q % PGSIZE = 0)
    (hp : L.getD 9 0 % PGSIZE = 0) (hne : q ≠ L.getD 9 0) :
    (s.moveTen dst src L).next q = s.next q := by
  have hsep := sep_of_ne hq hp hne
  simp only [KState.next, KState.moveTen]
  rw [read64_write64_of_ne _ _ (by unfold PGSIZE at hsep; omega)]

end Frames

/-- The lists `L` are what the heads and the `next` words spell: null-terminated, of the
counted sizes, with no page twice, and of managed pages only. -/
structure ListsWF (s : KState) (L : Fin NCPU → List Nat) : Prop where
  seg : ∀ i, Chain.Seg s.next 0 (s.kmems i).freelist (L i) 0
  size : ∀ i, (s.kmems i).size = (L i).length
  distinct : Distinct L
  managed : ∀ i, ∀ pa ∈ L i, Managed s.kend pa

section ListsWF

variable {s : KState} {L : Fin NCPU → List Nat} {id dst src : Fin NCPU} {pa r : Nat}
  {rest : List Nat}

theorem ListsWF.head_eq_zero_iff (h : ListsWF s L) (i : Fin NCPU) :
    (s.kmems i).freelist = 0 ↔ L i = [] :=
  (h.seg i).head_eq_null_iff

theorem ListsWF.head_eq (h : ListsWF s L) (hL : L id = r :: rest) : (s.kmems id).freelist = r := by
  have hs := h.seg id
  rw [hL] at hs
  exact hs.cons_inv.1

theorem ListsWF.head_lt (h : ListsWF s L) (i : Fin NCPU) : (s.kmems i).freelist < 2 ^ 64 := by
  cases hL : L i with
  | nil =>
    rw [(h.head_eq_zero_iff i).mpr hL]
    decide
  | cons r rest =>
    rw [h.head_eq hL]
    exact (h.managed i r (by rw [hL]; exact List.mem_cons_self)).lt

theorem ListsWF.not_mem_zero (h : ListsWF s L) : ¬ Mem L 0 := by
  rintro ⟨i, hi⟩
  exact (h.seg i).ne_null hi rfl

/-- The lists only read the memory, the heads and sizes, and `end`. -/
theorem ListsWF.of_eq {t : KState} (h : ListsWF s L) (hm : t.mem = s.mem)
    (hk : t.kmems = s.kmems) (he : t.kend = s.kend) : ListsWF t L := by
  have hn : t.next = s.next := by
    funext q
    simp only [KState.next, hm]
  exact ⟨by simpa [hn, hk] using h.seg, by simpa [hk] using h.size, h.distinct,
    by simpa [he] using h.managed⟩

theorem ListsWF.addRef (h : ListsWF s L) (pa : Nat) (d : Int) : ListsWF (s.addRef pa d) L :=
  h.of_eq rfl rfl rfl

/-- `kfree`'s push of a page that is on no list. -/
theorem ListsWF.pushFree (h : ListsWF s L) (hpa : Managed s.kend pa) (hpa0 : pa ≠ 0)
    (hnot : ¬ Mem L pa) : ListsWF (s.pushFree id pa) (Function.update L id (pa :: L id)) := by
  have hnext : ∀ i, ∀ q ∈ L i, (s.pushFree id pa).next q = s.next q := fun i q hq =>
    KState.next_pushFree_of_ne (h.managed i q hq).1 hpa.1 (fun he => hnot ⟨i, he ▸ hq⟩)
  refine ⟨fun i => ?_, fun i => ?_, h.distinct.cons hnot, fun i q hq => ?_⟩
  · by_cases hi : i = id
    · subst hi
      simp only [KState.pushFree_kmems, Function.update_self]
      refine .cons hpa0 ?_
      rw [KState.next_pushFree_self (h.head_lt i)]
      exact (h.seg i).congr (hnext i)
    · simp only [KState.pushFree_kmems, Function.update_of_ne hi]
      exact (h.seg i).congr (hnext i)
  · by_cases hi : i = id
    · subst hi
      simp [h.size i]
    · simp [Function.update_of_ne hi, h.size i]
  · rw [KState.pushFree_kend]
    by_cases hi : i = id
    · subst hi
      rw [Function.update_self] at hq
      rcases List.mem_cons.mp hq with rfl | hq
      · exact hpa
      · exact h.managed i q hq
    · rw [Function.update_of_ne hi] at hq
      exact h.managed i q hq

/-- `kalloc`'s pop of the head `r` of CPU `id`'s list. -/
theorem ListsWF.popFree (h : ListsWF s L) (hL : L id = r :: rest) :
    ListsWF (s.popFree id) (Function.update L id rest) := by
  have hr := h.head_eq hL
  have hrm : Managed s.kend r := h.managed id r (by rw [hL]; exact List.mem_cons_self)
  have hnext : ∀ i, ∀ q ∈ (Function.update L id rest) i, (s.popFree id).next q = s.next q := by
    intro i q hq
    have hq' : Mem (Function.update L id rest) q := ⟨i, hq⟩
    rw [mem_update_tail h.distinct hL] at hq'
    obtain ⟨⟨j, hj⟩, hne⟩ := hq'
    exact KState.next_popFree_of_ne (h.managed j q hj).1 (hr ▸ hrm.1) (hr ▸ hne)
  have hseg := h.seg id
  rw [hL] at hseg
  refine ⟨fun i => ?_, fun i => ?_, h.distinct.tail hL, fun i q hq => ?_⟩
  · refine (?_ : Chain.Seg s.next 0 _ _ 0).congr (hnext i)
    by_cases hi : i = id
    · subst hi
      simp only [KState.popFree_kmems, Function.update_self, hr]
      exact hseg.cons_inv.2.2
    · simp only [KState.popFree_kmems, Function.update_of_ne hi]
      exact h.seg i
  · by_cases hi : i = id
    · subst hi
      simp [h.size i, hL]
    · simp [Function.update_of_ne hi, h.size i]
  · rw [KState.popFree_kend]
    by_cases hi : i = id
    · subst hi
      rw [Function.update_self] at hq
      exact h.managed i q (by rw [hL]; exact List.mem_cons_of_mem _ hq)
    · rw [Function.update_of_ne hi] at hq
      exact h.managed i q hq

/-- The lists after `move_freelist` hands ten pages of `src` to `dst`. -/
def moveLists (L : Fin NCPU → List Nat) (dst src : Fin NCPU) : Fin NCPU → List Nat :=
  Function.update (Function.update L src ((L src).drop 10)) dst ((L src).take 10)

theorem ListsWF.moveTen (h : ListsWF s L) (hne : dst ≠ src) (hdst : L dst = [])
    (hlen : 10 < (L src).length) :
    ListsWF (s.moveTen dst src (L src)) (moveLists L dst src) := by
  set p := (L src).getD 9 0 with hp
  have h9 : 9 < (L src).length := by omega
  have hpget : p = (L src)[9] := List.getD_eq_getElem _ _ h9
  have hsplit : L src = (L src).take 9 ++ p :: (L src).drop 10 := by
    rw [hpget, ← List.drop_eq_getElem_cons h9, List.take_append_drop]
  have hpm : Managed s.kend p :=
    h.managed src p (by rw [hpget]; exact List.getElem_mem h9)
  have hnd : (L src).Nodup := h.distinct.nodup src
  have hother : ∀ q, q ∈ (L src).take 9 ∨ q ∈ (L src).drop 10 →
      (s.moveTen dst src (L src)).next q = s.next q := by
    intro q hq
    have hqL : q ∈ L src := by
      rcases hq with hq | hq
      · exact List.take_subset _ _ hq
      · exact List.drop_subset _ _ hq
    have hne : q ≠ p := by
      intro he
      rw [he] at hq
      rw [hsplit, List.nodup_append] at hnd
      rcases hq with hq | hq
      · exact hnd.2.2 p hq p List.mem_cons_self rfl
      · exact (List.nodup_cons.mp hnd.2.1).1 hq
    exact KState.next_moveTen_of_ne (h.managed src q hqL).1 hpm.1 hne
  have hseg := h.seg src
  rw [hsplit] at hseg
  obtain ⟨hfront, hback⟩ := hseg.cut (KState.next_moveTen_self (L src)) hother
  have htake : (L src).take 10 = (L src).take 9 ++ [p] := by
    rw [hpget, List.take_append_getElem h9]
  have hnextp : s.next p = (L src).getD 10 0 := by
    have hback' := hback
    rw [List.drop_eq_getElem_cons (by omega : 10 < (L src).length)] at hback'
    rw [hback'.cons_inv.1, List.getD_eq_getElem _ _ (by omega : 10 < (L src).length)]
  have hmoved : ∀ i, ∀ q ∈ moveLists L dst src i, q ∈ L i ∨ q ∈ L src := by
    intro i q hq
    unfold moveLists at hq
    by_cases hid : i = dst
    · subst hid
      rw [Function.update_self] at hq
      exact .inr (List.take_subset _ _ hq)
    · rw [Function.update_of_ne hid] at hq
      by_cases his : i = src
      · subst his
        rw [Function.update_self] at hq
        exact .inr (List.drop_subset _ _ hq)
      · rw [Function.update_of_ne his] at hq
        exact .inl hq
  refine ⟨fun i => ?_, fun i => ?_, h.distinct.movePrefix 10, fun i q hq => ?_⟩
  · unfold moveLists
    by_cases hid : i = dst
    · subst hid
      simp only [KState.moveTen_kmems, Function.update_of_ne hne, Function.update_self, htake]
      exact hfront
    · by_cases his : i = src
      · subst his
        simp only [KState.moveTen_kmems, Function.update_of_ne hid, Function.update_self]
        rw [← hnextp]
        exact hback
      · simp only [KState.moveTen_kmems, Function.update_of_ne hid, Function.update_of_ne his]
        refine (h.seg i).congr fun q hq => ?_
        have hqp : q ≠ p := fun he =>
          h.distinct.not_mem_of_ne (Ne.symm his) (hpget ▸ List.getElem_mem h9) (he ▸ hq)
        exact KState.next_moveTen_of_ne (h.managed i q hq).1 hpm.1 hqp
  · unfold moveLists
    have hsd : (s.kmems dst).size = 0 := by rw [h.size dst, hdst]; rfl
    by_cases hid : i = dst
    · subst hid
      simp only [KState.moveTen_kmems, Function.update_of_ne hne, Function.update_self, hsd,
        List.length_take, NPGTOMOVE]
      omega
    · by_cases his : i = src
      · subst his
        simp only [KState.moveTen_kmems, Function.update_of_ne hid, Function.update_self,
          List.length_drop, NPGTOMOVE, h.size i]
        omega
      · simp only [KState.moveTen_kmems, Function.update_of_ne hid, Function.update_of_ne his]
        exact h.size i
  · rcases hmoved i q hq with hq | hq
    · exact h.managed i q hq
    · exact h.managed src q hq

end ListsWF

section Steal

variable {s : KState} {L : Fin NCPU → List Nat} {id : Fin NCPU}

/-- The borrowing loop over the CPU ids `ids`, from an empty list: it either changes
nothing, every other list having ten pages or fewer, or takes ten pages from the first CPU
with more. -/
theorem stealFrom_run (h : ListsWF s L) : ∀ ids : List (Fin NCPU),
    ((stealFrom id ids).run s = .ok ((), s) ∧ ∀ i ∈ ids, i ≠ id → (L i).length ≤ 10) ∨
      ∃ i ∈ ids, i ≠ id ∧ 10 < (L i).length ∧
        (stealFrom id ids).run s = .ok ((), s.moveTen id i (L i))
  | [] => .inl ⟨rfl, by simp⟩
  | i :: rest => by
    rw [stealFrom_cons_run]
    by_cases hc : i ≠ id ∧ (s.kmems i).freelist ≠ 0
    · have hL : L i ≠ [] := fun he => hc.2 ((h.head_eq_zero_iff i).mpr he)
      rw [if_pos hc, moveFreelist_run (Ne.symm hc.1) (h.seg i) (h.size i) hL]
      by_cases hl : (L i).length ≤ 10
      · -- `move_freelist` failed: go on with the next id
        simp only [if_pos hl, Int.reduceNeg, Int.reduceEq, if_false]
        rcases stealFrom_run h rest with ⟨hr, hall⟩ | ⟨j, hj, hjid, hjl, hr⟩
        · refine .inl ⟨hr, fun j hj hjid => ?_⟩
          rcases List.mem_cons.mp hj with rfl | hj
          · exact hl
          · exact hall j hj hjid
        · exact .inr ⟨j, List.mem_cons_of_mem _ hj, hjid, hjl, hr⟩
      · rw [if_neg hl]
        exact .inr ⟨i, List.mem_cons_self, hc.1, by omega, rfl⟩
    · rw [if_neg hc]
      rcases stealFrom_run h rest with ⟨hr, hall⟩ | ⟨j, hj, hjid, hjl, hr⟩
      · refine .inl ⟨hr, fun j hj hjid => ?_⟩
        rcases List.mem_cons.mp hj with rfl | hj
        · -- skipped: either `j` is `id` or its list is empty
          have hz : (s.kmems j).freelist = 0 := by
            by_contra hz
            exact hc ⟨hjid, hz⟩
          rw [(h.head_eq_zero_iff j).mp hz]
          exact Nat.zero_le _
        · exact hall j hj hjid
      · exact .inr ⟨j, List.mem_cons_of_mem _ hj, hjid, hjl, hr⟩

/-- A CPU with an empty list borrows only from a list of more than ten pages: when every
other list has ten or fewer, `kalloc` returns 0 and changes nothing, however many pages
those lists hold between them. -/
theorem ListsWF.kalloc_of_small (h : ListsWF s L) (hid : L id = [])
    (hsmall : ∀ i, i ≠ id → (L i).length ≤ 10) : (kalloc id).run s = .ok (0, s) := by
  have hz : (s.kmems id).size = 0 := by
    rw [h.size id, hid]
    rfl
  have h0 : (s.kmems id).freelist = 0 := (h.head_eq_zero_iff id).mpr hid
  have hsteal : (if (s.kmems id).size = 0 then stealFrom id (List.finRange NCPU)
      else pure ()).run s = .ok ((), s) := by
    rw [if_pos hz]
    rcases stealFrom_run h (List.finRange NCPU) with ⟨hr, -⟩ | ⟨i, -, hi, hlen, -⟩
    · exact hr
    · exact absurd (hsmall i hi) (by omega)
  rw [kalloc_run hsteal, kallocPop_run (fun h' => absurd h0 h'), if_pos h0]

end Steal

/-- The lists are well formed, and a managed page is on one exactly when its count is
zero; `kinit` is over, and the kernel's image ends where the layout says. -/
structure AllocInv (s : KState) (L : Fin NCPU → List Nat) : Prop extends ListsWF s L where
  free : ∀ pa, Managed s.kend pa → (Mem L pa ↔ s.refCount pa = 0)
  running : s.isInitializing = false
  layout : Layout s.kend

section AllocInv

variable {s s' : KState} {L : Fin NCPU → List Nat} {id : Fin NCPU} {pa : Nat}

theorem AllocInv.moveTen (h : AllocInv s L) {i : Fin NCPU} (hne : id ≠ i)
    (hdst : L id = []) (hlen : 10 < (L i).length) :
    AllocInv (s.moveTen id i (L i)) (moveLists L id i) := by
  refine ⟨h.toListsWF.moveTen hne hdst hlen, fun pa hpa => ?_, h.running, h.layout⟩
  rw [KState.moveTen_kend] at hpa
  rw [moveLists, mem_movePrefix hne hdst, h.free pa hpa,
    KState.refCount_of_pageRefCount (KState.moveTen_pageRefCount _ _ _ _)
      (KState.moveTen_kend _ _ _ _)]

/-- The first half of `kalloc`: the borrowing, if any, keeps the invariant and the set of
free pages. -/
theorem AllocInv.steal (h : AllocInv s L) (id : Fin NCPU) :
    ∃ s₁ L₁, (if (s.kmems id).size = 0 then stealFrom id (List.finRange NCPU)
      else pure ()).run s = .ok ((), s₁) ∧ AllocInv s₁ L₁ ∧ ∀ q, Mem L₁ q ↔ Mem L q := by
  by_cases hz : (s.kmems id).size = 0
  · rw [if_pos hz]
    have hid : L id = [] := by
      rw [← List.length_eq_zero_iff]
      have := h.size id
      omega
    rcases stealFrom_run h.toListsWF (List.finRange NCPU) with ⟨hr, -⟩ | ⟨i, -, hi, hlen, hr⟩
    · exact ⟨s, L, hr, h, fun _ => Iff.rfl⟩
    · exact ⟨_, _, hr, h.moveTen (Ne.symm hi) hid hlen,
        fun q => mem_movePrefix (Ne.symm hi) hid 10⟩
  · rw [if_neg hz]
    exact ⟨s, L, rfl, h, fun _ => Iff.rfl⟩

/-- The head of a nonempty list is a page `kalloc` may hand out. -/
theorem AllocInv.head_bounds (h : AllocInv s L) (id : Fin NCPU) :
    (s.kmems id).freelist ≠ 0 →
      s.kend ≤ (s.kmems id).freelist ∧ (s.kmems id).freelist < PHYSTOP := by
  intro h0
  obtain ⟨r, rest, hL⟩ := List.exists_cons_of_ne_nil
    (fun he => h0 ((h.head_eq_zero_iff id).mpr he))
  rw [h.head_eq hL]
  have hm := (managed_iff_kfree_ok h.layout).mp
    (h.managed id r (by rw [hL]; exact List.mem_cons_self))
  omega

/-- The second half of `kalloc`: the popped page leaves the lists and gets its first
reference. -/
theorem AllocInv.kallocPop (h : AllocInv s L) (id : Fin NCPU) :
    ∃ r s' L', (kallocPop id).run s = .ok (r, s') ∧ AllocInv s' L' ∧
      (∀ q, Mem L' q ↔ Mem L q ∧ q ≠ r) ∧ (r ≠ 0 → Mem L r) := by
  rw [kallocPop_run (h.head_bounds id)]
  cases hL : L id with
  | nil =>
    have h0 : (s.kmems id).freelist = 0 := (h.head_eq_zero_iff id).mpr hL
    refine ⟨0, s, L, by rw [if_pos h0], h, fun q => ?_, fun h => absurd rfl h⟩
    constructor
    · intro hq
      exact ⟨hq, fun he => h.not_mem_zero (he ▸ hq)⟩
    · exact fun hq => hq.1
  | cons r rest =>
    have h0 := h.head_eq hL
    have hrm : Managed s.kend r := h.managed id r (by rw [hL]; exact List.mem_cons_self)
    have hrmem : Mem L r := ⟨id, by rw [hL]; exact List.mem_cons_self⟩
    have hr0 : (s.kmems id).freelist ≠ 0 := by rw [h0]; exact hrm.ne_zero h.layout
    refine ⟨r, (s.popFree id).addRef r 1, Function.update L id rest,
      by rw [if_neg hr0, h0], ⟨(h.toListsWF.popFree hL).addRef r 1, fun q hq => ?_,
        by simpa using h.running, by simpa using h.layout⟩,
      fun q => mem_update_tail h.distinct hL, fun _ => hrmem⟩
    simp only [KState.addRef_kend, KState.popFree_kend] at hq
    rw [mem_update_tail h.distinct hL,
      KState.refCount_addRef (by simpa using hq) (by simpa using hrm),
      KState.refCount_of_pageRefCount (KState.popFree_pageRefCount _ _)
        (KState.popFree_kend _ _),
      KState.refCount_of_pageRefCount (KState.popFree_pageRefCount _ _)
        (KState.popFree_kend _ _)]
    by_cases hqr : q = r
    · -- the popped page was free, so its count goes from zero to one
      subst hqr
      have hz := (h.free q hrm).mp hrmem
      simp [hz]
    · simp only [hqr, ne_eq, not_false_eq_true, and_true]
      exact h.free q hq

theorem AllocInv.kalloc (h : AllocInv s L) (id : Fin NCPU) :
    ∃ r s' L', (kalloc id).run s = .ok (r, s') ∧ AllocInv s' L' ∧
      (∀ q, Mem L' q ↔ Mem L q ∧ q ≠ r) ∧ (r ≠ 0 → Mem L r) := by
  obtain ⟨s₁, L₁, hsteal, h₁, hmem₁⟩ := h.steal id
  obtain ⟨r, s', L', hpop, h', hmem', hr⟩ := h₁.kallocPop id
  refine ⟨r, s', L', by rw [kalloc_run hsteal, hpop], h', fun q => ?_, fun h0 => ?_⟩
  · rw [hmem', hmem₁]
  · exact (hmem₁ r).mp (hr h0)

/-- `kalloc` of a run that returned `r`: the facts of `AllocInv.kalloc` about that run. -/
theorem AllocInv.kalloc_of_run {r : Nat} (h : AllocInv s L)
    (hk : (Xv6.kalloc id).run s = .ok (r, s')) :
    ∃ L', AllocInv s' L' ∧ (∀ q, Mem L' q ↔ Mem L q ∧ q ≠ r) ∧ (r ≠ 0 → Mem L r) := by
  obtain ⟨r', s'', L', hrun, hinv, hmem, hr⟩ := h.kalloc id
  rw [hk] at hrun
  cases hrun
  exact ⟨L', hinv, hmem, hr⟩

/-! ### What `kalloc` and `kfree` store

`kalloc` writes only into free pages: the `next` word that `move_freelist` cuts, and the
junk it fills the popped page with. `kfree` writes only into the page it frees. -/

/-- `m'` agrees with `m` on every page `P` holds of. -/
def AgreeOn (m m' : Memory) (P : Nat → Prop) : Prop :=
  ∀ p, P p → ∀ x, p ≤ x → x < p + PGSIZE → m' x = m x

/-- No page on the lists `L` covers the address `x`. -/
def OutsideFree (L : Fin NCPU → List Nat) (x : Nat) : Prop :=
  ∀ q, Mem L q → x < q ∨ q + PGSIZE ≤ x

/-- The lists read only the first word of each listed page. -/
theorem AllocInv.of_agree {t : KState} (h : AllocInv s L) (hm : AgreeOn s.mem t.mem (Mem L))
    (hk : t.kmems = s.kmems) (hr : t.pageRefCount = s.pageRefCount) (he : t.kend = s.kend)
    (hi : t.isInitializing = s.isInitializing) : AllocInv t L := by
  have hn : ∀ i, ∀ q ∈ L i, t.next q = s.next q := fun i q hq =>
    readLE_congr 8 fun x h1 h2 => hm q ⟨i, hq⟩ x h1 (by unfold PGSIZE; omega)
  have hc : ∀ q, t.refCount q = s.refCount q := KState.refCount_of_pageRefCount hr he
  refine ⟨⟨fun i => ?_, fun i => ?_, h.distinct, fun i q hq => ?_⟩, fun q hq => ?_, ?_, ?_⟩
  · rw [hk]
    exact (h.seg i).congr (hn i)
  · rw [hk]
    exact h.size i
  · rw [he]
    exact h.managed i q hq
  · rw [he] at hq
    rw [hc q]
    exact h.free q hq
  · rw [hi]
    exact h.running
  · rw [he]
    exact h.layout

/-- A page `x` is in that is on no list is outside every listed page. -/
theorem ListsWF.outsideFree {p : Nat} (h : ListsWF s L) (hp : p % PGSIZE = 0) (hnot : ¬ Mem L p)
    {x : Nat} (h1 : p ≤ x) (h2 : x < p + PGSIZE) : OutsideFree L x := by
  intro q hq
  obtain ⟨i, hqi⟩ := hq
  have hsep := sep_of_ne hp (h.managed i q hqi).1 (fun he => hnot ⟨i, he ▸ hqi⟩)
  omega

theorem ListsWF.steal_frame {s₁ : KState} (h : ListsWF s L)
    (hs : (if (s.kmems id).size = 0 then stealFrom id (List.finRange NCPU)
      else pure ()).run s = .ok ((), s₁)) :
    s₁.kend = s.kend ∧ ∀ x, OutsideFree L x → s₁.mem x = s.mem x := by
  split_ifs at hs
  · rcases @stealFrom_run s L id h (List.finRange NCPU) with ⟨hr, -⟩ | ⟨i, -, -, hlen, hr⟩
    · rw [hr] at hs
      cases hs
      exact ⟨rfl, fun _ _ => rfl⟩
    · rw [hr] at hs
      cases hs
      -- `move_freelist` cuts the list after its tenth page, which is free
      have h9 : (L i).getD 9 0 ∈ L i := by
        rw [List.getD_eq_getElem?_getD, List.getElem?_eq_getElem (by omega)]
        exact List.getElem_mem _
      refine ⟨rfl, fun x hx => ?_⟩
      have := hx _ ⟨i, h9⟩
      exact writeLE_of_outside (by unfold PGSIZE at this; omega)
  · cases hs
    exact ⟨rfl, fun _ _ => rfl⟩

theorem AllocInv.kallocPop_frame {r : Nat} (h : AllocInv s L)
    (hk : (Xv6.kallocPop id).run s = .ok (r, s')) :
    s'.kend = s.kend ∧ ∀ x, OutsideFree L x → s'.mem x = s.mem x := by
  rw [kallocPop_run (h.head_bounds id)] at hk
  split_ifs at hk with h0
  · cases hk
    exact ⟨rfl, fun _ _ => rfl⟩
  · cases hk
    obtain ⟨q, rest, hL⟩ := List.exists_cons_of_ne_nil
      (fun he => h0 ((h.head_eq_zero_iff id).mpr he))
    refine ⟨rfl, fun x hx => ?_⟩
    have hq := hx q ⟨id, by rw [hL]; exact List.mem_cons_self⟩
    rw [← h.head_eq hL] at hq
    exact fill_of_outside _ hq

/-- `kalloc` stores only into pages that were free. -/
theorem AllocInv.kalloc_frame {r : Nat} (h : AllocInv s L)
    (hk : (Xv6.kalloc id).run s = .ok (r, s')) :
    s'.kend = s.kend ∧ ∀ x, OutsideFree L x → s'.mem x = s.mem x := by
  obtain ⟨s₁, L₁, hsteal, h₁, hmem₁⟩ := h.steal id
  obtain ⟨hk₁, hm₁⟩ := h.toListsWF.steal_frame hsteal
  rw [kalloc_run hsteal] at hk
  obtain ⟨hk₂, hm₂⟩ := h₁.kallocPop_frame hk
  exact ⟨hk₂.trans hk₁, fun x hx =>
    (hm₂ x fun q hq => hx q ((hmem₁ q).mp hq)).trans (hm₁ x hx)⟩

/-- A push stores only into the pushed page. -/
theorem KState.pushFree_mem_of_outside {s : KState} {pa x : Nat} (h : x < pa ∨ pa + PGSIZE ≤ x) :
    (s.pushFree id pa).mem x = s.mem x := by
  show writeLE (fill s.mem pa PGSIZE (UInt8.ofInt 1)) pa (s.kmems id).freelist 8 x = s.mem x
  exact (writeLE_of_outside (by unfold PGSIZE at h; omega)).trans (fill_of_outside _ h)

/-- `kfree` stores only into the page it frees, and returns only for a page it accepts. -/
theorem kfree_frame {s : KState} {pa : Nat} (hk : (kfree id pa).run s = .ok ((), s')) :
    ¬ (pa % PGSIZE ≠ 0 ∨ pa < s.kend ∨ PHYSTOP ≤ pa) ∧ s'.kend = s.kend ∧
      ∀ x, x < pa ∨ pa + PGSIZE ≤ x → s'.mem x = s.mem x := by
  rw [kfree_run] at hk
  split_ifs at hk with hbad
  · cases hk
    exact ⟨hbad, rfl, fun x hx => KState.pushFree_mem_of_outside hx⟩
  · cases hk
    exact ⟨hbad, rfl, fun x _ => rfl⟩
  · cases hk
    exact ⟨hbad, rfl, fun x hx => KState.pushFree_mem_of_outside hx⟩

/-- Dropping one of several references to a page keeps the invariant and the lists. -/
theorem AllocInv.dropRef (h : AllocInv s L) (hpa : Managed s.kend pa) (hlast : 1 < s.refCount pa) :
    AllocInv (s.addRef pa (-1)) L := by
  have hnot : ¬ Mem L pa := fun hm => by
    have := (h.free pa hpa).mp hm
    omega
  refine ⟨h.toListsWF.addRef pa (-1), fun q hq => ?_, h.running, h.layout⟩
  rw [KState.addRef_kend] at hq
  rw [KState.refCount_addRef hq hpa]
  by_cases hqp : q = pa
  · subst hqp
    rw [if_pos rfl]
    exact iff_of_false hnot (by omega)
  · rw [if_neg hqp]
    exact h.free q hq

/-- `kfree` of a page the caller holds a reference to: the page joins CPU `id`'s list
exactly when that was its last reference. -/
theorem AllocInv.kfree (h : AllocInv s L) (hpos : 0 < s.refCount pa)
    (hrun : (kfree id pa).run s = .ok ((), s')) :
    ∃ L', AllocInv s' L' ∧ ∀ q, Mem L' q ↔ Mem L q ∨ (q = pa ∧ s.refCount pa = 1) := by
  rw [kfree_run] at hrun
  by_cases hbad : pa % PGSIZE ≠ 0 ∨ pa < s.kend ∨ PHYSTOP ≤ pa
  · rw [if_pos hbad] at hrun
    cases hrun
  have hpa : Managed s.kend pa := (managed_iff_kfree_ok h.layout).mpr hbad
  have hnot : ¬ Mem L pa := fun hm => by
    have := (h.free pa hpa).mp hm
    omega
  have hrefs : ∀ q, Managed s.kend q →
      (s.addRef pa (-1)).refCount q = if q = pa then s.refCount pa - 1 else s.refCount q :=
    fun q hq => by rw [KState.refCount_addRef hq hpa]; rfl
  rw [if_neg hbad, h.running, if_neg Bool.false_ne_true] at hrun
  by_cases hlast : 1 < s.refCount pa
  · -- other references remain: only the count drops
    rw [if_pos hlast] at hrun
    cases hrun
    refine ⟨L, h.dropRef hpa hlast, fun q => ?_⟩
    constructor
    · exact fun hq => .inl hq
    · rintro (hq | ⟨-, h1⟩)
      · exact hq
      · omega
  · rw [if_neg hlast] at hrun
    cases hrun
    have hone : s.refCount pa = 1 := by omega
    refine ⟨Function.update L id (pa :: L id),
      ⟨(h.toListsWF.addRef pa (-1)).pushFree (by simpa using hpa)
        (hpa.ne_zero h.layout) hnot, fun q hq => ?_, by simpa using h.running,
        by simpa using h.layout⟩, fun q => ?_⟩
    · simp only [KState.pushFree_kend, KState.addRef_kend] at hq
      rw [mem_update_cons, KState.refCount_of_pageRefCount
        (KState.pushFree_pageRefCount _ _ _) (KState.pushFree_kend _ _ _), hrefs q hq]
      by_cases hqp : q = pa
      · subst hqp
        simp [hone]
      · rw [if_neg hqp, ← h.free q hq]
        simp [hqp]
    · rw [mem_update_cons]
      constructor
      · rintro (rfl | hq)
        · exact .inr ⟨rfl, hone⟩
        · exact .inl hq
      · rintro (hq | ⟨rfl, -⟩)
        · exact .inr hq
        · exact .inl rfl

end AllocInv

/-! ### Boot and the reachable states -/

/-- While `kinit` runs, `freerange` from `p` pushes every page from `p` up to `PHYSTOP` on
CPU 0's list. -/
theorem freerange_run {s : KState} {L : Fin NCPU → List Nat} (h : ListsWF s L) (hinit : s.isInitializing = true) (hk : Layout s.kend)
    (p : Nat) (hp : p % PGSIZE = 0) (hp' : PGROUNDUP s.kend ≤ p)
    (hfresh : ∀ q, Mem L q → q < p) :
    ∃ s' L', (freerange 0 p PHYSTOP).run s = .ok ((), s') ∧ ListsWF s' L' ∧
      s'.kend = s.kend ∧ s'.isInitializing = true ∧
      ∀ q, Mem L' q ↔ Mem L q ∨ (Managed s.kend q ∧ p ≤ q) := by
  rw [freerange]
  by_cases hend : p + PGSIZE ≤ PHYSTOP
  · rw [dif_pos hend]
    have hpm : Managed s.kend p := ⟨hp, hp', by unfold PGSIZE at hend; omega⟩
    have hfree : (kfree 0 p).run s = .ok ((), s.pushFree 0 p) := by
      rw [kfree_run, if_neg ((managed_iff_kfree_ok hk).mp hpm), if_pos hinit]
    have hnot : ¬ Mem L p := fun hm => Nat.lt_irrefl p (hfresh p hm)
    have hfresh' : ∀ q, Mem (Function.update L 0 (p :: L 0)) q → q < p + PGSIZE := by
      intro q hq
      rcases mem_update_cons.mp hq with rfl | hq
      · unfold PGSIZE; omega
      · have := hfresh q hq
        unfold PGSIZE; omega
    obtain ⟨s', L', hrun, h', hkend, hinit', hmem⟩ :=
      freerange_run (h.pushFree hpm (hpm.ne_zero hk) hnot) (by simpa using hinit)
        (by simpa using hk) (p + PGSIZE) (by unfold PGSIZE at hp ⊢; omega)
        (by simp only [KState.pushFree_kend]; omega) hfresh'
    simp only [KState.pushFree_kend] at hkend hmem
    refine ⟨s', L', by rw [run_bind_of_ok hfree, hrun], h', hkend, hinit', fun q => ?_⟩
    rw [hmem, mem_update_cons]
    constructor
    · rintro ((rfl | hq) | ⟨hq, hle⟩)
      · exact .inr ⟨hpm, Nat.le_refl _⟩
      · exact .inl hq
      · exact .inr ⟨hq, by omega⟩
    · rintro (hq | ⟨hq, hle⟩)
      · exact .inl (.inr hq)
      · by_cases hqp : q = p
        · exact .inl (.inl hqp)
        · have hsep := sep_of_ne hq.1 hp hqp
          exact .inr ⟨hq, by omega⟩
  · rw [dif_neg hend]
    refine ⟨s, L, rfl, h, rfl, hinit, fun q => ?_⟩
    -- `PHYSTOP` is a page boundary, so no page is left from `p` on
    have hnone : ¬ (Managed s.kend q ∧ p ≤ q) := by
      rintro ⟨⟨hq, -, hlt⟩, hle⟩
      unfold PHYSTOP KERNBASE PGSIZE at *
      omega
    simp [hnone]
termination_by PHYSTOP - p
decreasing_by
  have : 0 < PGSIZE := by decide
  omega

/-- `kinit` frees every managed page onto CPU 0's list and leaves the invariant. -/
theorem kinit_run (mem : Memory) (refs : Nat → Int) {kend : Nat} (hk : Layout kend) :
    ∃ s L, kinit.run (bootState mem refs kend) = .ok ((), s) ∧ AllocInv s L ∧
      ∀ q, Mem L q ↔ Managed kend q := by
  have hboot : ListsWF (bootState mem refs kend) (fun _ => []) :=
    ⟨fun _ => .nil 0, fun _ => rfl,
      ⟨fun _ => List.nodup_nil, fun _ _ _ => List.disjoint_nil_left _⟩,
      fun _ _ hq => absurd hq List.not_mem_nil⟩
  obtain ⟨s', L', hrun, h', hkend, -, hmem⟩ :=
    freerange_run hboot rfl hk (PGROUNDUP kend) (PGROUNDUP_mod kend) (Nat.le_refl _)
      (fun q hq => absurd hq not_mem_nil)
  simp only [bootState_kend, not_mem_nil, false_or] at hkend hmem
  have hall : ∀ q, Mem L' q ↔ Managed kend q := fun q => by
    rw [hmem q]
    exact and_iff_left_of_imp fun hq => hq.2.1
  refine ⟨{ s' with pageRefCount := fun _ => 0, isInitializing := false }, L', ?_, ⟨
    h'.of_eq rfl rfl rfl, fun q hq => ?_, rfl, by simpa [hkend] using hk⟩, hall⟩
  · simp only [kinit, StateT.run_bind, StateT.run_get, pure_bind]
    rw [bootState_kend, hrun]
    rfl
  · have hq' : Managed kend q := by simpa [hkend] using hq
    simp only [KState.refCount, iff_true]
    exact (hall q).mpr hq'

/-- The allocator states the kernel can reach: `kinit` at boot, then any sequence of
`kalloc` and `kfree` calls on any CPUs, each `kfree` dropping a reference its caller
holds. -/
inductive KReachable : KState → Prop
  | kinit {mem : Memory} {refs : Nat → Int} {kend : Nat} {s : KState} :
      Layout kend → kinit.run (bootState mem refs kend) = .ok ((), s) → KReachable s
  | kalloc {s s' : KState} {id : Fin NCPU} {r : Nat} :
      KReachable s → (kalloc id).run s = .ok (r, s') → KReachable s'
  | kfree {s s' : KState} {id : Fin NCPU} {pa : Nat} :
      KReachable s → 0 < s.refCount pa → (kfree id pa).run s = .ok ((), s') → KReachable s'

theorem KReachable.inv {s : KState} (h : KReachable s) : ∃ L, AllocInv s L := by
  induction h with
  | kinit hk hrun =>
    obtain ⟨s', L, hrun', hinv, -⟩ := kinit_run _ _ hk
    rw [hrun] at hrun'
    cases hrun'
    exact ⟨L, hinv⟩
  | kalloc _ hrun ih =>
    obtain ⟨L, hL⟩ := ih
    obtain ⟨r', s'', L', hrun', hinv, -⟩ := hL.kalloc _
    rw [hrun] at hrun'
    cases hrun'
    exact ⟨L', hinv⟩
  | kfree _ hpos hrun ih =>
    obtain ⟨L, hL⟩ := ih
    obtain ⟨L', hinv, -⟩ := hL.kfree hpos hrun
    exact ⟨L', hinv⟩

/-- In every reachable state the free lists are well formed and hold exactly the free
pages; from it `kalloc` succeeds on every CPU and takes exactly the page it returns off the
lists, and a `kfree` that succeeds puts exactly `pa` on them when it dropped the last
reference. -/
theorem kalloc_kfree_keep_freelists {s : KState} (hs : KReachable s) :
    ∃ L, AllocInv s L ∧
      (∀ id, ∃ r s' L', (kalloc id).run s = .ok (r, s') ∧ AllocInv s' L' ∧
        (∀ q, Mem L' q ↔ Mem L q ∧ q ≠ r) ∧ (r ≠ 0 → Mem L r)) ∧
      (∀ id pa s', 0 < s.refCount pa → (kfree id pa).run s = .ok ((), s') →
        ∃ L', AllocInv s' L' ∧ ∀ q, Mem L' q ↔ Mem L q ∨ (q = pa ∧ s.refCount pa = 1)) := by
  obtain ⟨L, hL⟩ := hs.inv
  exact ⟨L, hL, fun id => hL.kalloc id, fun _ _ _ hpos hrun => hL.kfree hpos hrun⟩

/-- The state `kinit` leaves when the kernel's image ends one page below `PHYSTOP`. -/
def onePageBoot : KState :=
  { (bootState (fun _ => 0) (fun _ => 0) (PHYSTOP - PGSIZE)).pushFree 0 (PHYSTOP - PGSIZE) with
    pageRefCount := fun _ => 0, isInitializing := false }

theorem onePageBoot_reachable : KReachable onePageBoot := by
  refine @KReachable.kinit (fun _ => 0) (fun _ => 0) (PHYSTOP - PGSIZE) _ (by decide) ?_
  have hup : PGROUNDUP (PHYSTOP - PGSIZE) = PHYSTOP - PGSIZE := by decide
  have hfree : (kfree 0 (PHYSTOP - PGSIZE)).run (bootState (fun _ => 0) (fun _ => 0)
      (PHYSTOP - PGSIZE)) = .ok ((), (bootState (fun _ => 0) (fun _ => 0)
        (PHYSTOP - PGSIZE)).pushFree 0 (PHYSTOP - PGSIZE)) := by
    rw [kfree_run, if_neg (by decide), if_pos (bootState_isInitializing _ _ _)]
  simp only [kinit, StateT.run_bind, StateT.run_get, pure_bind]
  rw [bootState_kend, hup, freerange, dif_pos (by decide), run_bind_of_ok hfree, freerange,
    dif_neg (by decide)]
  rfl

theorem kalloc_kfree_keep_freelists_onePage :
    ∃ L, AllocInv onePageBoot L ∧
      (∀ id, ∃ r s' L', (kalloc id).run onePageBoot = .ok (r, s') ∧ AllocInv s' L' ∧
        (∀ q, Mem L' q ↔ Mem L q ∧ q ≠ r) ∧ (r ≠ 0 → Mem L r)) ∧
      (∀ id pa s', 0 < onePageBoot.refCount pa → (kfree id pa).run onePageBoot = .ok ((), s') →
        ∃ L', AllocInv s' L' ∧
          ∀ q, Mem L' q ↔ Mem L q ∨ (q = pa ∧ onePageBoot.refCount pa = 1)) :=
  kalloc_kfree_keep_freelists onePageBoot_reachable

/-- On `onePageBoot` CPU 0 holds the one free page and CPU 1 none. CPU 1 calls `kalloc`:
`move_freelist` walks the one page of CPU 0's list, finds no node after it and gives up, and
`kalloc` returns 0 with the page still free. -/
theorem kalloc_fails_with_free_page :
    KReachable onePageBoot ∧ (onePageBoot.kmems 0).freelist = PHYSTOP - PGSIZE ∧
      (onePageBoot.kmems 1).freelist = 0 ∧ (kalloc 1).run onePageBoot = .ok (0, onePageBoot) := by
  obtain ⟨L, hL⟩ := onePageBoot_reachable.inv
  have hle : ∀ i : Fin NCPU, (onePageBoot.kmems i).size ≤ 1 := by decide
  have hsize : ∀ i, (L i).length ≤ 1 := by
    intro i
    have hi := hL.size i
    have := hle i
    omega
  have hid : L 1 = [] := by
    rw [← List.length_eq_zero_iff]
    have hi := hL.size 1
    have h0 : (onePageBoot.kmems 1).size = 0 := by decide
    omega
  exact ⟨onePageBoot_reachable, rfl, rfl,
    hL.kalloc_of_small hid fun i _ => (hsize i).trans (by decide)⟩

end Xv6

