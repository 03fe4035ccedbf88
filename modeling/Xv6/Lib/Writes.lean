import Mathlib.Logic.Function.Basic
import Mathlib.Data.List.Basic
/-! Ordered writes to a store `α → β`, the later winning, as a disk takes block writes.
The lemmas are the ones crash recovery rests on: where no write lands the store is
unchanged, a store written again by a list that covers every address already written
ends as the list alone leaves it (so replaying a log after a partial replay is harmless),
and writing each address its value in a store leaves that store. -/
namespace Writes

variable {α β : Type*} [DecidableEq α]

/-- The store after the writes `ws`, in order. -/
def apply (d : α → β) (ws : List (α × β)) : α → β :=
  ws.foldl (fun d w => Function.update d w.1 w.2) d

@[simp] theorem apply_nil (d : α → β) : apply d [] = d := rfl

@[simp] theorem apply_cons (d : α → β) (w : α × β) (ws : List (α × β)) :
    apply d (w :: ws) = apply (Function.update d w.1 w.2) ws := rfl

theorem apply_append (d : α → β) (ws vs : List (α × β)) :
    apply d (ws ++ vs) = apply (apply d ws) vs :=
  List.foldl_append

/-- Where no write lands the store is unchanged. -/
theorem apply_of_not_mem {d : α → β} {a : α} :
    ∀ {ws : List (α × β)}, a ∉ ws.map Prod.fst → apply d ws a = d a
  | [], _ => rfl
  | w :: ws, h => by
    simp only [List.map_cons, List.mem_cons, not_or] at h
    rw [apply_cons, apply_of_not_mem h.2, Function.update_of_ne h.1]

/-- Stores that agree off the addresses a list writes agree after it. -/
theorem apply_eq_of_agree {d d' : α → β} :
    ∀ {ws : List (α × β)}, (∀ a, a ∉ ws.map Prod.fst → d a = d' a) →
      apply d ws = apply d' ws
  | [], h => funext fun a => h a (List.not_mem_nil)
  | w :: ws, h => by
    rw [apply_cons, apply_cons]
    refine apply_eq_of_agree fun a ha => ?_
    by_cases haw : a = w.1
    · subst haw
      rw [Function.update_self, Function.update_self]
    · rw [Function.update_of_ne haw, Function.update_of_ne haw]
      exact h a (by simp [haw, ha])

/-- A list that writes every address another list wrote overrides it entirely. -/
theorem apply_apply_of_subset {d : α → β} {vs ws : List (α × β)}
    (h : ∀ a ∈ vs.map Prod.fst, a ∈ ws.map Prod.fst) :
    apply (apply d vs) ws = apply d ws :=
  apply_eq_of_agree fun a ha => apply_of_not_mem fun hv => ha (h a hv)

/-- Replaying a whole list after part of it gives what the list alone gives. -/
theorem apply_take_apply (d : α → β) (ws : List (α × β)) (k : Nat) :
    apply (apply d (ws.take k)) ws = apply d ws :=
  apply_apply_of_subset fun _ ha => List.map_subset _ (List.take_subset k ws) ha

/-- Writing each address of `l` its value under `f`. -/
theorem apply_map_self (d f : α → β) (l : List α) (a : α) :
    apply d (l.map fun x => (x, f x)) a = if a ∈ l then f a else d a := by
  induction l generalizing d with
  | nil => simp
  | cons x l ih =>
    rw [List.map_cons, apply_cons, ih]
    by_cases hl : a ∈ l
    · simp [hl]
    · by_cases hx : a = x
      · subst hx
        simp
      · simp [hl, hx]

end Writes

