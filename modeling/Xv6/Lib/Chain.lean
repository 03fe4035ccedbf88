import Mathlib.Logic.Function.Iterate
import Mathlib.Data.List.Basic
/-! Singly linked lists threaded through a successor function. `Seg next null a L b`
says that starting at `a` and following `next`, the nodes visited are `L`, none of
them `null`, and the walk arrives at `b`. A whole list ends at `null`. -/
namespace Chain

variable {α : Type*}

/-- Linked-list segment from `a` visiting `L`, arriving at `b`. -/
inductive Seg (next : α → α) (null : α) : α → List α → α → Prop
  | nil (a : α) : Seg next null a [] a
  | cons {q b : α} {L : List α} : q ≠ null → Seg next null (next q) L b →
      Seg next null q (q :: L) b

namespace Seg

variable {next next' : α → α} {null : α}

theorem cons_inv {a b q : α} {L : List α} (h : Seg next null a (q :: L) b) :
    a = q ∧ q ≠ null ∧ Seg next null (next q) L b := by
  cases h with
  | cons hq h' => exact ⟨rfl, hq, h'⟩

theorem append {a b c : α} {L₁ L₂ : List α} (h₁ : Seg next null a L₁ b)
    (h₂ : Seg next null b L₂ c) : Seg next null a (L₁ ++ L₂) c := by
  induction h₁ with
  | nil => simpa using h₂
  | cons hq _ ih => exact .cons hq (ih h₂)

theorem split {a c : α} {L₁ L₂ : List α} (h : Seg next null a (L₁ ++ L₂) c) :
    ∃ b, Seg next null a L₁ b ∧ Seg next null b L₂ c := by
  induction L₁ generalizing a with
  | nil => exact ⟨a, .nil a, by simpa using h⟩
  | cons q L ih =>
    obtain ⟨rfl, hq, h'⟩ := cons_inv h
    obtain ⟨b, h1, h2⟩ := ih h'
    exact ⟨b, .cons hq h1, h2⟩

theorem ne_null {a b : α} {L : List α} (h : Seg next null a L b) {q : α} (hq : q ∈ L) :
    q ≠ null := by
  induction h with
  | nil => simp at hq
  | cons hq' _ ih =>
    rcases List.mem_cons.mp hq with rfl | h
    · exact hq'
    · exact ih h

/-- A segment only reads the successors of the nodes it visits. -/
theorem congr {a b : α} {L : List α} (h : Seg next null a L b)
    (hc : ∀ q ∈ L, next' q = next q) : Seg next' null a L b := by
  induction h with
  | nil => exact .nil _
  | cons hq _ ih =>
    refine .cons hq ?_
    rw [hc _ List.mem_cons_self]
    exact ih (fun q' hq' => hc q' (List.mem_cons_of_mem _ hq'))

/-- The head of a nonempty whole list is not null, and of an empty one is. -/
theorem head_eq_null_iff {a : α} {L : List α} (h : Seg next null a L null) :
    a = null ↔ L = [] := by
  cases h with
  | nil => simp
  | cons hq _ => simp [hq]

/-- Storing `null` as the successor of the node `p` of a list cuts the list after `p`,
as long as no other node's successor changes. -/
theorem cut {a c p : α} {L₁ L₂ : List α} (h : Seg next null a (L₁ ++ p :: L₂) c)
    (hn : next' p = null)
    (hc : ∀ q, q ∈ L₁ ∨ q ∈ L₂ → next' q = next q) :
    Seg next' null a (L₁ ++ [p]) null ∧ Seg next' null (next p) L₂ c := by
  obtain ⟨b, h₁, h₂⟩ := h.split
  obtain ⟨rfl, hpn, h₃⟩ := h₂.cons_inv
  have hlast : Seg next' null b [b] null := .cons hpn (by rw [hn]; exact .nil null)
  exact ⟨(h₁.congr fun q hq => hc q (.inl hq)).append hlast,
    h₃.congr fun q hq => hc q (.inr hq)⟩

end Seg

end Chain

