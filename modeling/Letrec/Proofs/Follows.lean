import Mathlib
import Letrec.Proofs.Primitive

/-!
# One semantics follows another

Two semantics with bounds on their recursion are compared computation by computation.  The first one
is run within a fixed bound `n`, the second one is a family.  `Follows n R x y` says two things:
what `x` ends with, the family `y` ends with as well, up to `R`; and if `y` ends within the bound
`n`, then `x` ends.  The second part speaks of ends only, since the first part tells which end it
is.  Proved for every `n`, the two together say that the semantics agree, and one induction on the
bound proves them both.

A family may take more of its bound than the family it is compared with (`Slower`), or spend at
least one unit of it at the start (`Delays`).
-/

namespace Letrec

variable {ε ε' α β γ δ : Type}

/-! ### Slower families -/

/-- The families have the same answers, and the first one needs at least the bound of the second. -/
structure Slower (y y' : ℕ → Partial ε α) : Prop where
  below : ∀ n, (y n).Below (y' n)
  yields : ∀ r, Yields y' r → Yields y r

/-- The families have the same answers, and the first one needs a larger bound than the second. -/
structure Delays (y y' : ℕ → Partial ε α) : Prop where
  zero : ∀ r, ¬ (y 0).Gives r
  below : ∀ n, (y (n + 1)).Below (y' n)
  yields : ∀ r, Yields y' r → Yields y r

lemma Slower.refl (y : ℕ → Partial ε α) : Slower y y := ⟨fun _ => .refl _, fun _ h => h⟩

lemma Slower.trans {y y' y'' : ℕ → Partial ε α} (h : Slower y y') (h' : Slower y' y'') :
    Slower y y'' where
  below n r hr := h'.below n r (h.below n r hr)
  yields r hr := h.yields r (h'.yields r hr)

lemma Delays.of_succ {y y' : ℕ → Partial ε α} (h₀ : ∀ r, ¬ (y 0).Gives r)
    (h : ∀ n, y (n + 1) = y' n) : Delays y y' where
  zero := h₀
  below n := h n ▸ .refl _
  yields := by
    rintro r ⟨n, hn⟩
    exact ⟨n + 1, h n ▸ hn⟩

lemma Delays.slower {y y' : ℕ → Partial ε α} (h : Delays y y') (hy' : Growing y') :
    Slower y y' where
  below n r hr := by
    cases n with
    | zero => exact absurd hr (h.zero r)
    | succ n => exact hy' n.le_succ r (h.below n r hr)
  yields := h.yields

lemma Delays.trans_slower {y y' y'' : ℕ → Partial ε α} (h : Delays y y') (h' : Slower y' y'') :
    Delays y y'' where
  zero := h.zero
  below n r hr := h'.below n r (h.below n r hr)
  yields r hr := h.yields r (h'.yields r hr)

/-- A computation that is known to end with a value can be left out. -/
lemma Slower.bind_value {y : ℕ → Partial ε α} {a : α} {g : ℕ → α → Partial ε β}
    (h : Slower y fun _ => pure a) (hy : Growing y) (hgrow : ∀ a, Growing (g · a)) :
    Slower (fun n => y n >>= g n) (g · a) where
  below n r hr := by
    rcases Partial.bind_gives.1 hr with ⟨b, hb, hr⟩ | ⟨e, he, rfl⟩
    · have heq := Partial.pure_gives.1 (h.below n _ hb)
      obtain rfl := Except.ok.inj heq
      exact hr
    · exact absurd (Partial.pure_gives.1 (h.below n _ he)) (by simp)
  yields r hr := by
    have ha : Yields y (.ok a) := h.yields _ ⟨0, Partial.pure_gives.2 rfl⟩
    exact (Yields.bind_iff hy hgrow).2 (Or.inl ⟨a, ha, hr⟩)

/-! ### Following -/

/-- Two ends are the same, up to a relation of the values and the kind of the errors. -/
def Agree (R : α → β → Prop) (K : ε → ε' → Prop) : Except ε α → Except ε' β → Prop
  | .ok a, .ok b => R a b
  | .error e, .error e' => K e e'
  | _, _ => False

/-- What `x` ends with, the family ends with as well; and where the family ends within the bound
`n`, `x` ends. -/
structure Follows (n : ℕ) (R : α → β → Prop) (K : ε → ε' → Prop) (x : Partial ε α)
    (y : ℕ → Partial ε' β) : Prop where
  answers : ∀ s, x.Gives s → ∃ r, Yields y r ∧ Agree R K s r
  ends : ∀ r, (y n).Gives r → ∃ s, x.Gives s

namespace Follows

variable {n : ℕ} {R : α → β → Prop} {K : ε → ε' → Prop} {x : Partial ε α} {y y' : ℕ → Partial ε' β}

lemma pure {a : α} {b : β} (h : R a b) : Follows n R K (pure a) fun _ => pure b where
  answers s hs := by
    rw [Partial.pure_gives.1 hs]
    exact ⟨.ok b, ⟨0, Partial.pure_gives.2 rfl⟩, h⟩
  ends _ _ := ⟨.ok a, Partial.pure_gives.2 rfl⟩

lemma throw {e : ε} {e' : ε'} (h : K e e') : Follows n R K (throw e) fun _ => throw e' where
  answers s hs := by
    rw [Partial.throw_gives.1 hs]
    exact ⟨.error e', ⟨0, Partial.throw_gives.2 rfl⟩, h⟩
  ends _ _ := ⟨.error e, Partial.throw_gives.2 rfl⟩

lemma zero (h : ∀ r, ¬ (y 0).Gives r) : Follows 0 R K Partial.never y where
  answers _ hs := absurd hs Partial.never_gives
  ends r hr := absurd hr (h r)

lemma of_slower (hy : Slower y y') (h : Follows n R K x y') : Follows n R K x y where
  answers s hs := by
    obtain ⟨r, hr, hagree⟩ := h.answers s hs
    exact ⟨r, hy.yields r hr, hagree⟩
  ends r hr := h.ends r (hy.below n r hr)

lemma of_delays (hy : Delays y y') (h : Follows n R K x y') : Follows (n + 1) R K x y where
  answers s hs := by
    obtain ⟨r, hr, hagree⟩ := h.answers s hs
    exact ⟨r, hy.yields r hr, hagree⟩
  ends r hr := h.ends r (hy.below n r hr)

lemma bind {R' : γ → δ → Prop} {f : α → Partial ε γ} {g : ℕ → β → Partial ε' δ}
    (hx : Follows n R K x y) (hf : ∀ a b, R a b → Follows n R' K (f a) (g · b)) (hy : Growing y)
    (hg : ∀ b, Growing (g · b)) : Follows n R' K (x >>= f) fun k => y k >>= g k where
  answers s hs := by
    rcases Partial.bind_gives.1 hs with ⟨a, ha, hs⟩ | ⟨e, he, rfl⟩
    · obtain ⟨r, hr, hagree⟩ := hx.answers _ ha
      cases r with
      | error e' => exact hagree.elim
      | ok b =>
        obtain ⟨r', hr', hagree'⟩ := (hf a b hagree).answers s hs
        exact ⟨r', (Yields.bind_iff hy hg).2 (Or.inl ⟨b, hr, hr'⟩), hagree'⟩
    · obtain ⟨r, hr, hagree⟩ := hx.answers _ he
      cases r with
      | ok b => exact hagree.elim
      | error e' => exact ⟨.error e', (Yields.bind_iff hy hg).2 (Or.inr ⟨e', hr, rfl⟩), hagree⟩
  ends r hr := by
    -- the first part ends, and its end is the one that the family has
    have hfirst : ∀ r₁, (y n).Gives r₁ → ∃ s₁, x.Gives s₁ ∧ Agree R K s₁ r₁ := by
      intro r₁ hr₁
      obtain ⟨s₁, hs₁⟩ := hx.ends r₁ hr₁
      obtain ⟨r₂, hr₂, hagree⟩ := hx.answers s₁ hs₁
      obtain rfl := Yields.unique hy hr₂ ⟨n, hr₁⟩
      exact ⟨s₁, hs₁, hagree⟩
    rcases Partial.bind_gives.1 hr with ⟨b, hb, hr⟩ | ⟨e', he', rfl⟩
    · obtain ⟨s₁, hs₁, hagree⟩ := hfirst _ hb
      cases s₁ with
      | error e => exact hagree.elim
      | ok a =>
        obtain ⟨s, hs⟩ := (hf a b hagree).ends r hr
        exact ⟨s, Partial.bind_gives.2 (Or.inl ⟨a, hs₁, hs⟩)⟩
    · obtain ⟨s₁, hs₁, hagree⟩ := hfirst _ he'
      cases s₁ with
      | ok a => exact hagree.elim
      | error e => exact ⟨.error e, Partial.bind_gives.2 (Or.inr ⟨e, hs₁, rfl⟩)⟩

/-- If every computation of one family follows the other family, the families have the same
answers. -/
lemma yields {x : ℕ → Partial ε α} (h : ∀ n, Follows n R K (x n) y) {s : Except ε α}
    (hs : Yields x s) : ∃ r, Yields y r ∧ Agree R K s r := by
  obtain ⟨n, hn⟩ := hs
  exact (h n).answers s hn

lemma yields_of_yields {x : ℕ → Partial ε α} (h : ∀ n, Follows n R K (x n) y) (hy : Growing y)
    {r : Except ε' β} (hr : Yields y r) : ∃ s, Yields x s ∧ Agree R K s r := by
  obtain ⟨n, hn⟩ := hr
  obtain ⟨s, hs⟩ := (h n).ends r hn
  obtain ⟨r', hr', hagree⟩ := (h n).answers s hs
  obtain rfl := Yields.unique hy hr' ⟨n, hn⟩
  exact ⟨s, ⟨n, hs⟩, hagree⟩

end Follows

end Letrec
