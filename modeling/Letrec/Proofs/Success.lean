import Mathlib

/-!
# Computations that succeed

Resolution and lowering thread a state and may fail.  A computation that succeeds has succeeded at
every step; these lemmas take it apart.
-/

namespace Letrec

variable {ε σ α β : Type}

/-- The value of a computation that succeeded. -/
def value? : EStateM.Result ε σ α → Option α
  | .ok a _ => some a
  | .error _ _ => none

lemma value?_eq_some {x : EStateM.Result ε σ α} {a : α} :
    value? x = some a ↔ ∃ s, x = .ok a s := by
  cases x with
  | ok b s => simp [value?]
  | error e s => simp [value?]

lemma bind_eq_ok {x : EStateM ε σ α} {f : α → EStateM ε σ β} {s s' : σ} {b : β} :
    (x >>= f) s = .ok b s' ↔ ∃ a s₁, x s = .ok a s₁ ∧ f a s₁ = .ok b s' := by
  show EStateM.bind x f s = .ok b s' ↔ _
  unfold EStateM.bind
  cases h : x s with
  | ok a s₁ =>
    constructor
    · intro hf
      exact ⟨a, s₁, rfl, hf⟩
    · rintro ⟨a', s₁', heq, hf⟩
      obtain ⟨rfl, rfl⟩ := EStateM.Result.ok.inj heq
      exact hf
  | error e s₁ =>
    constructor
    · intro hf
      exact absurd hf (by simp)
    · rintro ⟨a', s₁', heq, -⟩
      exact absurd heq (by simp)

lemma bind_of_ok {x : EStateM ε σ α} {f : α → EStateM ε σ β} {s s₁ : σ} {a : α}
    (h : x s = .ok a s₁) : (x >>= f) s = f a s₁ := by
  show EStateM.bind x f s = _
  rw [EStateM.bind, h]

lemma bind_of_error {x : EStateM ε σ α} {f : α → EStateM ε σ β} {s s₁ : σ} {e : ε}
    (h : x s = .error e s₁) : (x >>= f) s = .error e s₁ := by
  show EStateM.bind x f s = _
  rw [EStateM.bind, h]

lemma bind_eq_error {x : EStateM ε σ α} {f : α → EStateM ε σ β} {s s' : σ} {e : ε}
    (h : (x >>= f) s = .error e s') :
    x s = .error e s' ∨ ∃ a s₁, x s = .ok a s₁ ∧ f a s₁ = .error e s' := by
  change EStateM.bind x f s = .error e s' at h
  unfold EStateM.bind at h
  cases hx : x s with
  | ok a s₁ =>
    rw [hx] at h
    exact Or.inr ⟨a, s₁, rfl, h⟩
  | error e' s₁ =>
    rw [hx] at h
    obtain ⟨rfl, rfl⟩ := EStateM.Result.error.inj h
    exact Or.inl rfl

lemma pure_eq_ok {a b : α} {s s' : σ} :
    (pure a : EStateM ε σ α) s = .ok b s' ↔ a = b ∧ s = s' := by
  show EStateM.Result.ok a s = .ok b s' ↔ _
  rw [EStateM.Result.ok.injEq]

lemma throw_ne_ok {e : ε} {b : α} {s s' : σ} : (throw e : EStateM ε σ α) s ≠ .ok b s' := by
  show EStateM.Result.error e s ≠ .ok b s'
  simp

lemma modify_eq_ok {f : σ → σ} {u : PUnit} {s s' : σ} :
    (modify f : EStateM ε σ PUnit) s = .ok u s' ↔ f s = s' := by
  show EStateM.Result.ok PUnit.unit (f s) = .ok u s' ↔ _
  rw [EStateM.Result.ok.injEq]
  simp

lemma modifyGet_eq_ok {f : σ → α × σ} {a : α} {s s' : σ} :
    (modifyGet f : EStateM ε σ α) s = .ok a s' ↔ (f s).1 = a ∧ (f s).2 = s' := by
  show EStateM.modifyGet f s = .ok a s' ↔ _
  unfold EStateM.modifyGet
  cases h : f s with
  | mk b s₁ =>
    dsimp only
    rw [EStateM.Result.ok.injEq]

lemma get_eq_ok {s s' b : σ} : (get : EStateM ε σ σ) s = .ok b s' ↔ s = b ∧ s = s' := by
  show EStateM.Result.ok s s = .ok b s' ↔ _
  rw [EStateM.Result.ok.injEq]

lemma set_eq_ok {s s₀ s' : σ} {u : PUnit} :
    (set s₀ : EStateM ε σ PUnit) s = .ok u s' ↔ s₀ = s' := by
  show EStateM.Result.ok PUnit.unit s₀ = .ok u s' ↔ _
  rw [EStateM.Result.ok.injEq]
  simp

lemma adaptExcept_eq_ok {ε' : Type} {f : ε → ε'} {x : EStateM ε σ α} {s s' : σ} {a : α} :
    x.adaptExcept f s = .ok a s' ↔ x s = .ok a s' := by
  unfold EStateM.adaptExcept
  cases x s with
  | ok a' s₁ => simp
  | error e s₁ => simp

lemma adaptExcept_eq_error {ε' : Type} {f : ε → ε'} {x : EStateM ε σ α} {s s' : σ} {e' : ε'}
    (h : x.adaptExcept f s = .error e' s') : ∃ e, f e = e' := by
  unfold EStateM.adaptExcept at h
  cases hx : x s with
  | ok a s₁ =>
    rw [hx] at h
    exact absurd h (by simp)
  | error e s₁ =>
    rw [hx] at h
    exact ⟨e, (EStateM.Result.error.inj h).1⟩

end Letrec
