import Mathlib.Logic.Basic
/-! Running code in `StateT σ (Except ε)`: a state transformer that may stop with an
error. A sequence runs on while each part returns `.ok`; the first `.error` is the
result of the whole. These rules let a specification lemma peel a `do` block apart one
bind at a time, and let a proof take a successful run apart again. -/
namespace StateExcept

variable {σ ε α β : Type} {s s' : σ}

@[simp] theorem run_throw (e : ε) (s : σ) :
    (throw e : StateT σ (Except ε) α).run s = .error e := rfl

theorem run_ite (c : Prop) [Decidable c] (x y : StateT σ (Except ε) α) (s : σ) :
    (if c then x else y).run s = if c then x.run s else y.run s := by
  split <;> rfl

theorem run_discard (x : StateT σ (Except ε) α) (s : σ) :
    (discard x).run s = x.run s >>= fun p => .ok ((), p.2) := rfl

@[simp] theorem ok_bind (a : α) (f : α → Except ε β) :
    (Except.ok a >>= f : Except ε β) = f a := rfl

@[simp] theorem error_bind (e : ε) (f : α → Except ε β) :
    (Except.error e >>= f : Except ε β) = .error e := rfl

/-- A bind continues in the state its first part leaves. -/
theorem run_bind_of_ok {x : StateT σ (Except ε) α} {a : α} (h : x.run s = .ok (a, s'))
    (f : α → StateT σ (Except ε) β) : (x >>= f).run s = (f a).run s' := by
  simp only [StateT.run_bind, h, ok_bind]

/-- A successful bind is a successful first part followed by a successful rest. -/
theorem run_bind_eq_ok {x : StateT σ (Except ε) α} {f : α → StateT σ (Except ε) β} {b : β}
    {s'' : σ} (h : (x >>= f).run s = .ok (b, s'')) :
    ∃ a s', x.run s = .ok (a, s') ∧ (f a).run s' = .ok (b, s'') := by
  rw [StateT.run_bind] at h
  cases hx : x.run s with
  | error e => rw [hx] at h; cases h
  | ok p => exact ⟨p.1, p.2, rfl, by rw [hx] at h; exact h⟩

/-- A successful bind in `Except` is a successful first part and a successful rest. -/
theorem bind_eq_ok {x : Except ε α} {f : α → Except ε β} {b : β} (h : (x >>= f) = .ok b) :
    ∃ a, x = .ok a ∧ f a = .ok b := by
  cases hx : x with
  | error e => rw [hx] at h; cases h
  | ok a => exact ⟨a, rfl, by rw [hx] at h; exact h⟩

/-- A failed bind in `Except` failed in its first part or in the rest. -/
theorem bind_eq_error {x : Except ε α} {f : α → Except ε β} {e : ε} (h : (x >>= f) = .error e) :
    x = .error e ∨ ∃ a, x = .ok a ∧ f a = .error e := by
  cases hx : x with
  | error e' =>
    rw [hx, error_bind] at h
    cases h
    exact .inl rfl
  | ok a => exact .inr ⟨a, rfl, by rw [hx] at h; exact h⟩

/-- `x` stops with the error `e`, or succeeds with a value that satisfies `P`. -/
def OkOr (e : ε) (x : Except ε α) (P : α → Prop) : Prop :=
  x = .error e ∨ ∃ a, x = .ok a ∧ P a

theorem OkOr.of_ok {e : ε} {a : α} {P : α → Prop} (h : P a) : OkOr e (.ok a) P :=
  .inr ⟨a, rfl, h⟩

/-- The rule for a bind: the first part, then the rest from each value it may give. -/
theorem OkOr.bind {e : ε} {x : Except ε α} {f : α → Except ε β} {P : α → Prop} {Q : β → Prop}
    (hx : OkOr e x P) (hf : ∀ a, P a → OkOr e (f a) Q) : OkOr e (x >>= f) Q := by
  rcases hx with hx | ⟨a, hx, ha⟩
  · rw [hx]
    exact .inl rfl
  · rw [hx]
    exact hf a ha

/-- A bind avoids the error `e` when its first part does and so does the rest after each
value the first part gives. -/
theorem bind_ne_error {e : ε} {x : Except ε α} {f : α → Except ε β} (hx : x ≠ .error e)
    (hf : ∀ a, x = .ok a → f a ≠ .error e) : (x >>= f) ≠ .error e := by
  intro h
  rcases bind_eq_error h with h1 | ⟨a, h1, h2⟩
  · exact hx h1
  · exact hf a h1 h2

/-- The invariant rule for a loop over a list: when each step, from a state where `I` holds,
runs without error to a state where `I` holds, so does the whole loop. -/
theorem forM_run_inv {f : α → StateT σ (Except ε) Unit} {I : σ → Prop} :
    ∀ (l : List α), (∀ a ∈ l, ∀ s, I s → ∃ s', (f a).run s = .ok ((), s') ∧ I s') →
      ∀ s, I s → ∃ s', (l.forM f).run s = .ok ((), s') ∧ I s'
  | [], _, s, hs => ⟨s, rfl, hs⟩
  | a :: l, hstep, s, hs => by
    obtain ⟨s₁, h₁, hs₁⟩ := hstep a (.head _) s hs
    obtain ⟨s₂, h₂, hs₂⟩ := forM_run_inv l (fun b hb => hstep b (.tail _ hb)) s₁ hs₁
    refine ⟨s₂, ?_, hs₂⟩
    show (f a >>= fun _ => l.forM f).run s = _
    rw [run_bind_of_ok h₁]
    exact h₂

end StateExcept

