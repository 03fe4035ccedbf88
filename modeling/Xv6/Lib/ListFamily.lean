import Mathlib.Data.List.Nodup
import Mathlib.Logic.Function.Basic

/-! Families of lists indexed by a type of owners: which element some owner holds, and
that no element is held twice. Changing one owner's list is a `Function.update`; the
lemmas say what such a change keeps. -/
namespace ListFamily

variable {ι α : Type*}

/-- Some owner holds `a`. -/
def Mem (L : ι → List α) (a : α) : Prop := ∃ i, a ∈ L i

/-- Each list is duplicate-free and no two owners share an element. -/
structure Distinct (L : ι → List α) : Prop where
  nodup : ∀ i, (L i).Nodup
  disjoint : ∀ i j, i ≠ j → (L i).Disjoint (L j)

variable {L : ι → List α} {k : ι} {l : List α} {a : α}

@[simp] theorem not_mem_nil : ¬ Mem (fun _ : ι => ([] : List α)) a :=
  fun ⟨_, h⟩ => List.not_mem_nil h

theorem Distinct.not_mem_of_ne (h : Distinct L) {i j : ι} (hij : i ≠ j) (ha : a ∈ L i) :
    a ∉ L j :=
  fun hb => h.disjoint i j hij ha hb

/-- The values other than `z` that `f` takes along a list without duplicates have none, when `f`
takes each such value at one place of the list only: one owner's list read off a table. -/
theorem nodup_filter_map [DecidableEq α] {l : List ι} (hl : l.Nodup) {f : ι → α} {z : α}
    (hf : ∀ i ∈ l, ∀ j ∈ l, f i ≠ z → f i = f j → i = j) :
    ((l.map f).filter (· ≠ z)).Nodup := by
  induction l with
  | nil => exact List.nodup_nil
  | cons i l ih =>
    obtain ⟨hi, hl'⟩ := List.nodup_cons.mp hl
    have ih' := ih hl' fun a ha b hb => hf a (.tail _ ha) b (.tail _ hb)
    rw [List.map_cons, List.filter_cons]
    split_ifs with hz
    · refine List.nodup_cons.mpr ⟨fun hmem => ?_, ih'⟩
      obtain ⟨j, hj, hfj⟩ := List.mem_map.mp (List.mem_filter.mp hmem).1
      have hij := hf i (.head _) j (.tail _ hj) (of_decide_eq_true hz) hfj.symm
      exact hi (hij ▸ hj)
    · exact ih'

variable [DecidableEq ι]

theorem mem_update : Mem (Function.update L k l) a ↔ a ∈ l ∨ ∃ j, j ≠ k ∧ a ∈ L j := by
  constructor
  · rintro ⟨i, hi⟩
    by_cases hik : i = k
    · subst hik
      rw [Function.update_self] at hi
      exact .inl hi
    · rw [Function.update_of_ne hik] at hi
      exact .inr ⟨i, hik, hi⟩
  · rintro (ha | ⟨j, hjk, hj⟩)
    · exact ⟨k, by rwa [Function.update_self]⟩
    · exact ⟨j, by rwa [Function.update_of_ne hjk]⟩

/-- One owner's list replaced by a duplicate-free list that no other owner shares. -/
theorem Distinct.update (h : Distinct L) (hl : l.Nodup) (hd : ∀ j, j ≠ k → l.Disjoint (L j)) :
    Distinct (Function.update L k l) := by
  constructor
  · intro i
    by_cases hik : i = k
    · subst hik
      rwa [Function.update_self]
    · rw [Function.update_of_ne hik]
      exact h.nodup i
  · intro i j hij
    by_cases hik : i = k
    · subst hik
      rw [Function.update_self, Function.update_of_ne (Ne.symm hij)]
      exact hd j (Ne.symm hij)
    · rw [Function.update_of_ne hik]
      by_cases hjk : j = k
      · subst hjk
        rw [Function.update_self]
        exact List.disjoint_symm (hd i hik)
      · rw [Function.update_of_ne hjk]
        exact h.disjoint i j hij

/-- Putting a fresh element in front of one owner's list. -/
theorem Distinct.cons (h : Distinct L) (ha : ¬ Mem L a) :
    Distinct (Function.update L k (a :: L k)) := by
  refine h.update (List.nodup_cons.mpr ⟨fun hk => ha ⟨k, hk⟩, h.nodup k⟩) ?_
  intro j hjk
  refine List.disjoint_cons_left.mpr ⟨fun hj => ha ⟨j, hj⟩, h.disjoint k j (Ne.symm hjk)⟩

theorem mem_update_cons : Mem (Function.update L k (a :: L k)) a' ↔ a' = a ∨ Mem L a' := by
  rw [mem_update, List.mem_cons, or_assoc]
  constructor
  · rintro (h | h | ⟨j, -, hj⟩)
    · exact .inl h
    · exact .inr ⟨k, h⟩
    · exact .inr ⟨j, hj⟩
  · rintro (h | ⟨j, hj⟩)
    · exact .inl h
    · by_cases hjk : j = k
      · subst hjk
        exact .inr (.inl hj)
      · exact .inr (.inr ⟨j, hjk, hj⟩)

/-- Taking the head off one owner's list. -/
theorem Distinct.tail (h : Distinct L) (hk : L k = a :: l) : Distinct (Function.update L k l) := by
  have hnd := h.nodup k
  rw [hk] at hnd
  refine h.update (List.nodup_cons.mp hnd).2 ?_
  intro j hjk
  have hdj := h.disjoint k j (Ne.symm hjk)
  rw [hk] at hdj
  exact (List.disjoint_cons_left.mp hdj).2

theorem mem_update_tail (h : Distinct L) (hk : L k = a :: l) {a' : α} :
    Mem (Function.update L k l) a' ↔ Mem L a' ∧ a' ≠ a := by
  have hnd := h.nodup k
  rw [hk, List.nodup_cons] at hnd
  rw [mem_update]
  constructor
  · rintro (hl | ⟨j, hjk, hj⟩)
    · refine ⟨⟨k, by rw [hk]; exact List.mem_cons_of_mem _ hl⟩, ?_⟩
      rintro rfl
      exact hnd.1 hl
    · refine ⟨⟨j, hj⟩, ?_⟩
      rintro rfl
      exact h.not_mem_of_ne (Ne.symm hjk) (by rw [hk]; exact List.mem_cons_self) hj
  · rintro ⟨⟨j, hj⟩, hne⟩
    by_cases hjk : j = k
    · subst hjk
      rw [hk] at hj
      exact .inl ((List.mem_cons.mp hj).resolve_left hne)
    · exact .inr ⟨j, hjk, hj⟩

/-- Handing the first `n` elements of owner `src`'s list to another owner `dst`. -/
theorem Distinct.movePrefix (h : Distinct L) {dst src : ι} (n : Nat) :
    Distinct (Function.update (Function.update L src ((L src).drop n)) dst ((L src).take n)) := by
  have h₁ : Distinct (Function.update L src ((L src).drop n)) :=
    h.update ((h.nodup src).sublist (List.drop_sublist n _)) fun j hj =>
      List.disjoint_of_subset_left (List.drop_subset n _) (h.disjoint src j (Ne.symm hj))
  refine h₁.update ((h.nodup src).sublist (List.take_sublist n _)) fun j _ => ?_
  by_cases hjs : j = src
  · subst hjs
    rw [Function.update_self]
    exact List.disjoint_take_drop (h.nodup j) (Nat.le_refl n)
  · rw [Function.update_of_ne hjs]
    exact List.disjoint_of_subset_left (List.take_subset n _) (h.disjoint src j (Ne.symm hjs))

/-- When `dst` held nothing, moving a prefix to it loses and adds no element. -/
theorem mem_movePrefix {dst src : ι} (hne : dst ≠ src) (hdst : L dst = []) (n : Nat) :
    Mem (Function.update (Function.update L src ((L src).drop n)) dst ((L src).take n)) a ↔
      Mem L a := by
  constructor
  · rintro ⟨j, hj⟩
    by_cases hjd : j = dst
    · subst hjd
      rw [Function.update_self] at hj
      exact ⟨src, List.take_subset n _ hj⟩
    · rw [Function.update_of_ne hjd] at hj
      by_cases hjs : j = src
      · subst hjs
        rw [Function.update_self] at hj
        exact ⟨j, List.drop_subset n _ hj⟩
      · rw [Function.update_of_ne hjs] at hj
        exact ⟨j, hj⟩
  · rintro ⟨j, hj⟩
    by_cases hjs : j = src
    · subst hjs
      rw [← List.take_append_drop n (L j), List.mem_append] at hj
      rcases hj with ht | hd
      · exact ⟨dst, by rw [Function.update_self]; exact ht⟩
      · exact ⟨j, by rw [Function.update_of_ne (Ne.symm hne), Function.update_self]; exact hd⟩
    · have hjd : j ≠ dst := by
        rintro rfl
        rw [hdst] at hj
        exact List.not_mem_nil hj
      exact ⟨j, by rw [Function.update_of_ne hjd, Function.update_of_ne hjs]; exact hj⟩

end ListFamily
