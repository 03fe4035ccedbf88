import Mathlib.Logic.Function.Basic
import Mathlib.Data.List.Nodup

/-! Circular doubly-linked lists through a head node, as pointer maps. A node is `none`, the
head, or `some a`; `next` and `prev` are the two link fields. `Seg next prev x l y` says that
the links run from `x` through the elements of `l` to `y`, each way, and `Links next prev l`
that they close into one ring from the head with the elements of `l` in order.

The operations are the pointer stores of the usual code: `pushFront` links a node in after
the head, `unlink` takes one out, and `walk` follows one link field from a node until a test
holds or the head comes back. -/
namespace DList

variable {α : Type*} [DecidableEq α]

/-- The links run from `x` through the elements of `l` to `y`, forward by `next` and back by
`prev`. -/
def Seg (next prev : Option α → Option α) : Option α → List α → Option α → Prop
  | x, [], y => next x = y ∧ prev y = x
  | x, a :: l, y => next x = some a ∧ prev (some a) = x ∧ Seg next prev (some a) l y

/-- One ring from the head through the elements of `l` in order, each once. -/
def Links (next prev : Option α → Option α) (l : List α) : Prop :=
  l.Nodup ∧ Seg next prev none l none

/-- `b->next = head->next; b->prev = head; head->next->prev = b; head->next = b;` -/
def pushFront (next prev : Option α → Option α) (b : α) :
    (Option α → Option α) × (Option α → Option α) :=
  let next1 := Function.update next (some b) (next none)
  let prev1 := Function.update prev (some b) none
  let prev2 := Function.update prev1 (next1 none) (some b)
  (Function.update next1 none (some b), prev2)

/-- `b->next->prev = b->prev; b->prev->next = b->next;` -/
def unlink (next prev : Option α → Option α) (b : α) :
    (Option α → Option α) × (Option α → Option α) :=
  let prev1 := Function.update prev (next (some b)) (prev (some b))
  (Function.update next (prev1 (some b)) (next (some b)), prev1)

/-- `for(x = start; x != head; x = x->next) if(p(x)) return x;`, for at most `fuel` passes;
`none` when the head comes back. -/
def walk (next : Option α → Option α) (p : α → Bool) : Nat → Option α → Option α
  | 0, _ => none
  | _ + 1, none => none
  | fuel + 1, some a => if p a then some a else walk next p fuel (next (some a))

omit [DecidableEq α] in
/-- A segment reads `next` at its start and at its elements, and `prev` at its elements and
at its end; maps that agree there have the same segments. -/
theorem Seg.congr {next prev next' prev' : Option α → Option α} :
    ∀ {x : Option α} {l : List α} {y : Option α}, Seg next prev x l y →
      (∀ z, (z = x ∨ ∃ a ∈ l, z = some a) → next' z = next z) →
      (∀ z, (z = y ∨ ∃ a ∈ l, z = some a) → prev' z = prev z) → Seg next' prev' x l y
  | x, [], y, h, hn, hp => by
    rw [Seg, hn x (.inl rfl), hp y (.inl rfl)]
    exact h
  | x, a :: l, y, ⟨h1, h2, h3⟩, hn, hp => by
    refine ⟨by rw [hn x (.inl rfl)]; exact h1, by rw [hp (some a) (.inr ⟨a, List.mem_cons_self, rfl⟩)]; exact h2,
      Seg.congr h3 (fun z hz => hn z ?_) (fun z hz => hp z ?_)⟩
    · rcases hz with rfl | ⟨b, hb, rfl⟩
      · exact .inr ⟨a, List.mem_cons_self, rfl⟩
      · exact .inr ⟨b, List.mem_cons_of_mem a hb, rfl⟩
    · rcases hz with rfl | ⟨b, hb, rfl⟩
      · exact .inl rfl
      · exact .inr ⟨b, List.mem_cons_of_mem a hb, rfl⟩

omit [DecidableEq α] in
/-- A segment ending with `a` is the segment up to `a` and the two links after it. -/
theorem seg_append_singleton {next prev : Option α → Option α} {a : α} {y : Option α} :
    ∀ {x : Option α} {l : List α},
      Seg next prev x (l ++ [a]) y ↔ Seg next prev x l (some a) ∧ next (some a) = y ∧ prev y = some a
  | x, [] => by simp only [List.nil_append, Seg]; tauto
  | x, b :: l => by
    simp only [List.cons_append, Seg]
    rw [seg_append_singleton]
    tauto

omit [DecidableEq α] in
/-- Read backward, a segment is a segment of the other link field. -/
theorem Seg.reverse {next prev : Option α → Option α} :
    ∀ {x : Option α} {l : List α} {y : Option α}, Seg next prev x l y → Seg prev next y l.reverse x
  | x, [], y, ⟨h1, h2⟩ => ⟨h2, h1⟩
  | x, a :: l, y, ⟨h1, h2, h3⟩ => by
    rw [List.reverse_cons, seg_append_singleton]
    exact ⟨Seg.reverse h3, h2, h1⟩

omit [DecidableEq α] in
theorem Links.reverse {next prev : Option α → Option α} {l : List α} (h : Links next prev l) :
    Links prev next l.reverse :=
  ⟨List.nodup_reverse.mpr h.1, h.2.reverse⟩

omit [DecidableEq α] in
/-- A segment through `b` is the segment up to `b` and the segment from it. -/
theorem seg_split {next prev : Option α → Option α} {b : α} {l₂ : List α} {y : Option α} :
    ∀ {x : Option α} {l₁ : List α},
      Seg next prev x (l₁ ++ b :: l₂) y ↔ Seg next prev x l₁ (some b) ∧ Seg next prev (some b) l₂ y
  | x, [] => by simp only [List.nil_append, Seg]; tauto
  | x, a :: l => by
    simp only [List.cons_append, Seg]
    rw [seg_split]
    tauto

omit [DecidableEq α] in
/-- The node before the end of a segment is its start or one of its elements. -/
theorem Seg.prev_end {next prev : Option α → Option α} :
    ∀ {x : Option α} {l : List α} {y : Option α}, Seg next prev x l y →
      prev y = x ∨ ∃ c ∈ l, prev y = some c
  | _, [], _, ⟨_, h⟩ => .inl h
  | _, a :: _, _, ⟨_, _, h⟩ => by
    rcases h.prev_end with h | ⟨c, hc, h⟩
    · exact .inr ⟨a, List.mem_cons_self, h⟩
    · exact .inr ⟨c, List.mem_cons_of_mem a hc, h⟩

omit [DecidableEq α] in
/-- The node after the start of a segment is its end or one of its elements. -/
theorem Seg.next_start {next prev : Option α → Option α} {x : Option α} {l : List α} {y : Option α}
    (h : Seg next prev x l y) : next x = y ∨ ∃ c ∈ l, next x = some c := by
  cases l with
  | nil => exact .inl h.1
  | cons a l => exact .inr ⟨a, List.mem_cons_self, h.1⟩

omit [DecidableEq α] in
/-- Walking a segment that ends at the head finds the first element that passes the test. -/
theorem walk_seg {next prev : Option α → Option α} (p : α → Bool) :
    ∀ {x : Option α} {l : List α} {fuel : Nat}, Seg next prev x l none → l.length < fuel →
      walk next p fuel (next x) = l.find? p
  | x, [], fuel, ⟨h1, _⟩, hf => by
    obtain ⟨fuel, rfl⟩ := Nat.exists_eq_succ_of_ne_zero (Nat.pos_iff_ne_zero.mp hf)
    rw [h1]
    rfl
  | x, a :: l, fuel, ⟨h1, _, h3⟩, hf => by
    obtain ⟨fuel, rfl⟩ := Nat.exists_eq_succ_of_ne_zero (Nat.pos_iff_ne_zero.mp (Nat.zero_lt_of_lt hf))
    rw [h1, walk, List.find?_cons]
    cases p a with
    | true => rfl
    | false => exact walk_seg p h3 (by simp at hf; omega)

omit [DecidableEq α] in
/-- Walking the ring forward from the head finds the first element of the list that passes. -/
theorem Links.walk_next {next prev : Option α → Option α} {l : List α} (h : Links next prev l)
    (p : α → Bool) {fuel : Nat} (hf : l.length < fuel) : walk next p fuel (next none) = l.find? p :=
  walk_seg p h.2 hf

omit [DecidableEq α] in
/-- Walking the ring backward from the head finds the last element of the list that passes. -/
theorem Links.walk_prev {next prev : Option α → Option α} {l : List α} (h : Links next prev l)
    (p : α → Bool) {fuel : Nat} (hf : l.length < fuel) :
    walk prev p fuel (prev none) = l.reverse.find? p :=
  h.reverse.walk_next p (by rw [List.length_reverse]; exact hf)

/-- Linking a node in after the head puts it first. -/
theorem links_pushFront {next prev : Option α → Option α} {l : List α} (h : Links next prev l)
    {b : α} (hb : b ∉ l) :
    Links (pushFront next prev b).1 (pushFront next prev b).2 (b :: l) := by
  refine ⟨List.nodup_cons.mpr ⟨hb, h.1⟩, ?_⟩
  simp only [pushFront, Seg, Function.update_self, true_and]
  cases l with
  | nil =>
    have h0 : next none = none := h.2.1
    simp [Seg, h0]
  | cons a l =>
    obtain ⟨h0, -, hrest⟩ := h.2
    have hab : a ≠ b := fun e => hb (e ▸ List.mem_cons_self)
    have hnd := (List.nodup_cons.mp h.1).1
    have hbl : ∀ c ∈ l, c ≠ b := fun c hc e => hb (e ▸ List.mem_cons_of_mem a hc)
    refine ⟨by simp [h0, Ne.symm hab], by simp [h0],
      by simp [h0], hrest.congr (fun z hz => ?_) (fun z hz => ?_)⟩
    · -- the rest of the ring is read at nodes other than the head and `b`
      rcases hz with rfl | ⟨c, hc, rfl⟩
      · simp [hab]
      · simp [hbl c hc]
    · rcases hz with rfl | ⟨c, hc, rfl⟩
      · simp [h0]
      · have hca : c ≠ a := fun e => hnd (e ▸ hc)
        simp [h0, hbl c hc, hca]

/-- Unlinking stores the neighbours of `b` in each other, whatever the order of the two
stores. -/
theorem unlink_eq (next prev : Option α → Option α) (b : α) :
    unlink next prev b =
      (Function.update next (prev (some b)) (next (some b)),
        Function.update prev (next (some b)) (prev (some b))) := by
  have hb : Function.update prev (next (some b)) (prev (some b)) (some b) = prev (some b) := by
    rw [Function.update_apply]
    split_ifs <;> rfl
  simp only [unlink]
  rw [hb]

/-- Unlinking `b` from a segment through it, whose start and end are not among its elements,
leaves the segment without `b`. The induction is on the elements before `b`. -/
theorem seg_unlink {next prev : Option α → Option α} {b : α} {l₂ : List α} {y : Option α}
    (hy : ∀ a, y = some a → a ∉ l₂ ∧ a ≠ b) :
    ∀ {x : Option α} {l₁ : List α}, (l₁ ++ b :: l₂).Nodup → (∀ a, x = some a → a ∉ l₁ ++ b :: l₂) →
      (∀ a ∈ l₁, y ≠ some a) → Seg next prev x (l₁ ++ b :: l₂) y →
      Seg (unlink next prev b).1 (unlink next prev b).2 x (l₁ ++ l₂) y := by
  intro x l₁
  rw [unlink_eq]
  dsimp only
  induction l₁ generalizing x with
  | nil =>
    intro hnd hx _ h
    obtain ⟨h1, h2, h3⟩ := h
    rw [h2]
    have hb2 : b ∉ l₂ := (List.nodup_cons.mp hnd).1
    cases l₂ with
    | nil =>
      rw [h3.1]
      exact ⟨Function.update_self .., Function.update_self ..⟩
    | cons c l₂ =>
      obtain ⟨hn, -, hrest⟩ := h3
      rw [hn]
      have hc2 : c ∉ l₂ := (List.nodup_cons.mp (List.nodup_cons.mp hnd).2).1
      refine ⟨Function.update_self .., Function.update_self .., hrest.congr (fun z hz => ?_) (fun z hz => ?_)⟩
      · -- the rest is read at elements, and `x` is not one
        apply Function.update_of_ne
        rintro rfl
        rcases hz with rfl | ⟨d, hd, rfl⟩
        · exact hx c rfl (by simp)
        · exact hx d rfl (by simp [hd])
      · apply Function.update_of_ne
        rcases hz with rfl | ⟨d, hd, rfl⟩
        · intro he
          exact (hy c he).1 List.mem_cons_self
        · intro he
          exact hc2 (Option.some.inj he ▸ hd)
  | cons a l₁ ih =>
    intro hnd hx hyl h
    obtain ⟨h1, h2, h3⟩ := h
    have hnd' := (List.nodup_cons.mp hnd).2
    have ha := (List.nodup_cons.mp hnd).1
    obtain ⟨hpre, hpost⟩ := seg_split.mp h3
    refine ⟨?_, ?_, ih hnd' (fun a' he => by cases he; exact ha) (fun a' ha' => hyl a' (List.mem_cons_of_mem a ha')) h3⟩
    · -- the node before `b` is an element, and `x` is not one
      rw [Function.update_of_ne, h1]
      rcases hpre.prev_end with hp | ⟨c, hc, hp⟩
      · rw [hp]
        intro he
        exact hx a he (by simp)
      · rw [hp]
        intro he
        exact hx c he (by simp [hc])
    · -- the node after `b` is the end or an element after `b`, and `a` is neither
      rw [Function.update_of_ne, h2]
      rcases hpost.next_start with hn | ⟨c, hc, hn⟩
      · rw [hn]
        exact (hyl a List.mem_cons_self).symm
      · rw [hn]
        intro he
        cases he
        exact ha (by simp [hc])

/-- Unlinking an element of the ring leaves the ring of the others. -/
theorem links_unlink {next prev : Option α → Option α} {l : List α} (h : Links next prev l)
    {b : α} (hb : b ∈ l) : Links (unlink next prev b).1 (unlink next prev b).2 (l.erase b) := by
  obtain ⟨l₁, l₂, rfl⟩ := List.append_of_mem hb
  have hb1 : b ∉ l₁ := fun h1 => (List.nodup_append.mp h.1).2.2 b h1 b List.mem_cons_self rfl
  rw [List.erase_append_right _ hb1, List.erase_cons_head]
  exact ⟨h.1.sublist ((List.Sublist.refl l₁).append (List.sublist_cons_self b l₂)),
    seg_unlink (by simp) h.1 (by simp) (by simp) h.2⟩

end DList
