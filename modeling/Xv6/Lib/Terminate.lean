import Mathlib.Data.List.Basic

/-! Terminators written into a buffer, and runs read back up to the first terminator.
`Marked z E buf buf'` says that `buf'` is `buf` with `z` at each position of `E` that the buffer
reaches. A run of `buf` with no such position inside it and one at its end reads back whole
from `buf'`. -/
namespace Terminate

variable {α : Type*}

/-- `buf'` is `buf` with `z` at each position of `E` that the buffer reaches. -/
structure Marked (z : α) (E : List Nat) (buf buf' : List α) : Prop where
  length_eq : buf'.length = buf.length
  of_mem : ∀ i ∈ E, i < buf.length → buf'[i]? = some z
  of_not_mem : ∀ i, i ∉ E → buf'[i]? = buf[i]?

variable {z : α} {E E' : List Nat} {buf buf' buf'' : List α}

theorem Marked.refl (z : α) (buf : List α) : Marked z [] buf buf :=
  ⟨rfl, fun _ h => absurd h List.not_mem_nil, fun _ _ => rfl⟩

/-- One more terminator, written with `List.set`. -/
theorem Marked.set (h : Marked z E buf buf') (e : Nat) :
    Marked z (E ++ [e]) buf (buf'.set e z) where
  length_eq := by rw [List.length_set, h.length_eq]
  of_mem i hi hlt := by
    rw [List.getElem?_set]
    by_cases he : e = i
    · rw [if_pos he, if_pos (by rw [h.length_eq, he]; exact hlt)]
    · rw [if_neg he]
      rcases List.mem_append.mp hi with hi | hi
      · exact h.of_mem i hi hlt
      · exact absurd (List.mem_singleton.mp hi).symm he
  of_not_mem i hi := by
    have hne : e ≠ i := fun he => hi (List.mem_append_right _ (List.mem_singleton.mpr he.symm))
    rw [List.getElem?_set, if_neg hne]
    exact h.of_not_mem i fun h' => hi (List.mem_append_left _ h')

theorem Marked.trans (h : Marked z E buf buf') (h' : Marked z E' buf' buf'') :
    Marked z (E ++ E') buf buf'' where
  length_eq := h'.length_eq.trans h.length_eq
  of_mem i hi hlt := by
    by_cases hi' : i ∈ E'
    · exact h'.of_mem i hi' (by rw [h.length_eq]; exact hlt)
    · rw [h'.of_not_mem i hi']
      exact h.of_mem i ((List.mem_append.mp hi).resolve_right hi') hlt
  of_not_mem i hi := by
    rw [h'.of_not_mem i fun h2 => hi (List.mem_append_right _ h2),
      h.of_not_mem i fun h2 => hi (List.mem_append_left _ h2)]

/-- Reading from `q` while `p` holds gives `w` when `w` stands at `q`, all of it passing `p`,
and what follows it fails `p` or is the end. -/
theorem takeWhile_drop_of_getElem? {p : α → Bool} {l : List α} :
    ∀ {w : List α} {q : Nat}, (∀ k < w.length, l[q + k]? = w[k]?) → (∀ a ∈ w, p a = true) →
      (∀ a ∈ l[q + w.length]?, p a = false) → (l.drop q).takeWhile p = w
  | [], q, _, _, hend => by
    by_cases hq : q < l.length
    · have hfail := hend l[q] (by simp [hq])
      rw [List.drop_eq_getElem_cons hq, List.takeWhile_cons_of_neg (by simp [hfail])]
    · rw [List.drop_eq_nil_of_le (by omega), List.takeWhile_nil]
  | a :: w, q, hw, hp, hend => by
    have h0 := hw 0 (Nat.succ_pos _)
    rw [Nat.add_zero, List.getElem?_cons_zero] at h0
    obtain ⟨hq, hqa⟩ := List.getElem?_eq_some_iff.mp h0
    rw [List.drop_eq_getElem_cons hq, hqa, List.takeWhile_cons_of_pos (hp a List.mem_cons_self)]
    have hrest : (l.drop (q + 1)).takeWhile p = w := by
      refine takeWhile_drop_of_getElem? (fun k hk => ?_) (fun b hb => hp b (List.mem_cons_of_mem a hb)) ?_
      · have hk' := hw (k + 1) (by rw [List.length_cons]; omega)
        rw [List.getElem?_cons_succ] at hk'
        rw [show q + 1 + k = q + (k + 1) by omega]
        exact hk'
      · rw [show q + 1 + w.length = q + (a :: w).length by rw [List.length_cons]; omega]
        exact hend
    rw [hrest]

/-- A run `w` of the buffer at `q`, none of it `z`, with a terminator at its end and none inside
it, reads back whole from the marked buffer. -/
theorem Marked.read_run [DecidableEq α] (h : Marked z E buf buf') {w : List α} {q : Nat}
    (hw : ∀ k < w.length, buf[q + k]? = w[k]?) (hz : z ∉ w)
    (hin : ∀ e ∈ E, e < q ∨ q + w.length ≤ e) (hend : q + w.length ∈ E) :
    (buf'.drop q).takeWhile (· ≠ z) = w := by
  refine takeWhile_drop_of_getElem? (fun k hk => ?_) (fun a ha => ?_) (fun a ha => ?_)
  · -- no terminator was written inside the run
    have hk' : q + k ∉ E := fun he => by
      rcases hin _ he with h1 | h1 <;> omega
    rw [h.of_not_mem _ hk', hw k hk]
  · exact decide_eq_true fun he => hz (he ▸ ha)
  · by_cases hlt : q + w.length < buf.length
    · rw [h.of_mem _ hend hlt, Option.mem_some_iff] at ha
      rw [← ha]
      exact decide_eq_false (not_not.mpr rfl)
    · rw [Option.mem_def, List.getElem?_eq_none (by rw [h.length_eq]; omega)] at ha
      cases ha

end Terminate
