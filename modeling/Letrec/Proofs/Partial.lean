import Mathlib
import Letrec.Action

/-!
# Computations that may not end

A semantics that is written down as a function of a bound on its recursion is a family of
computations, one for each bound.  An answer within one bound is the answer within every larger one
(`Growing`), so the family as a whole has at most one answer (`Yields.unique`).  The lemmas on
`Yields` take a family apart the way the computations of its members are put together; with them
no proof has to choose a bound.
-/

namespace Letrec

variable {ε α β : Type}

/-- A computation that ends with a value or with an error, or does not end. -/
abbrev Partial (ε α : Type) := ExceptT ε Option α

namespace Partial

/-- The computation that does not end. -/
def never : Partial ε α := ExceptT.mk none

/-- The computation ends, in this way. -/
def Gives (x : Partial ε α) (r : Except ε α) : Prop := x.run = some r

@[simp] lemma pure_gives {a : α} {r : Except ε α} :
    (pure a : Partial ε α).Gives r ↔ r = .ok a := by
  show some (Except.ok a) = some r ↔ _
  rw [Option.some.injEq]
  exact eq_comm

@[simp] lemma throw_gives {e : ε} {r : Except ε α} :
    (throw e : Partial ε α).Gives r ↔ r = .error e := by
  show some (Except.error e) = some r ↔ _
  rw [Option.some.injEq]
  exact eq_comm

@[simp] lemma never_gives {r : Except ε α} : ¬ (never : Partial ε α).Gives r := by
  show ¬ none = some r
  simp

lemma bind_gives {x : Partial ε α} {f : α → Partial ε β} {r : Except ε β} :
    (x >>= f).Gives r ↔
      (∃ a, x.Gives (.ok a) ∧ (f a).Gives r) ∨ ∃ e, x.Gives (.error e) ∧ r = .error e := by
  show Option.bind x.run (fun a => ExceptT.bindCont f a) = some r ↔ _
  unfold Gives
  cases h : x.run with
  | none => simp
  | some s =>
    cases s with
    | ok a =>
      rw [Option.bind_some]
      show (f a).run = some r ↔ _
      simp
    | error e =>
      rw [Option.bind_some]
      show some (Except.error e) = some r ↔ _
      simp [eq_comm]

/-- If the whole ends, so does its first part. -/
lemma gives_of_bind {x : Partial ε α} {f : α → Partial ε β} {r : Except ε β}
    (h : (x >>= f).Gives r) : ∃ s, x.Gives s := by
  rcases bind_gives.1 h with ⟨a, ha, -⟩ | ⟨e, he, -⟩
  · exact ⟨_, ha⟩
  · exact ⟨_, he⟩

/-- The second computation ends wherever the first does, in the same way. -/
def Below (x y : Partial ε α) : Prop := ∀ r, x.Gives r → y.Gives r

lemma Below.refl (x : Partial ε α) : Below x x := fun _ h => h

lemma Below.bind {x x' : Partial ε α} {f f' : α → Partial ε β} (hx : Below x x')
    (hf : ∀ a, Below (f a) (f' a)) : Below (x >>= f) (x' >>= f') := by
  intro r h
  rcases bind_gives.1 h with ⟨a, ha, hr⟩ | ⟨e, he, rfl⟩
  · exact bind_gives.2 (Or.inl ⟨a, hx _ ha, hf a r hr⟩)
  · exact bind_gives.2 (Or.inr ⟨e, hx _ he, rfl⟩)

end Partial

/-! ### Families -/

/-- Within a larger bound a computation ends wherever it did, in the same way. -/
def Growing (x : ℕ → Partial ε α) : Prop := ∀ ⦃n k⦄, n ≤ k → (x n).Below (x k)

/-- Within some bound the computation ends, in this way. -/
def Yields (x : ℕ → Partial ε α) (r : Except ε α) : Prop := ∃ n, (x n).Gives r

lemma growing_const (x : Partial ε α) : Growing fun _ => x := fun _ _ _ => .refl x

lemma Growing.bind {x : ℕ → Partial ε α} {f : ℕ → α → Partial ε β} (hx : Growing x)
    (hf : ∀ a, Growing (f · a)) : Growing fun n => x n >>= f n :=
  fun _ _ hnk => (hx hnk).bind fun a => hf a hnk

lemma growing_of_succ {x : ℕ → Partial ε α} (h : ∀ n, (x n).Below (x (n + 1))) : Growing x := by
  intro n k hnk
  induction hnk with
  | refl => exact .refl _
  | step _ ih => exact fun r hr => h _ r (ih r hr)

namespace Yields

lemma unique {x : ℕ → Partial ε α} (hx : Growing x) {r r' : Except ε α} (h : Yields x r)
    (h' : Yields x r') : r = r' := by
  obtain ⟨n, hn⟩ := h
  obtain ⟨k, hk⟩ := h'
  have hn' := hx (le_max_left n k) r hn
  have hk' := hx (le_max_right n k) r' hk
  exact Option.some.inj (hn'.symm.trans hk')

@[simp] lemma const_iff {x : Partial ε α} {r : Except ε α} :
    Yields (fun _ => x) r ↔ x.Gives r :=
  ⟨fun ⟨_, h⟩ => h, fun h => ⟨0, h⟩⟩

lemma bind_iff {x : ℕ → Partial ε α} {f : ℕ → α → Partial ε β} (hx : Growing x)
    (hf : ∀ a, Growing (f · a)) {r : Except ε β} : Yields (fun n => x n >>= f n) r ↔
      (∃ a, Yields x (.ok a) ∧ Yields (f · a) r) ∨ ∃ e, Yields x (.error e) ∧ r = .error e := by
  constructor
  · rintro ⟨n, hn⟩
    rcases Partial.bind_gives.1 hn with ⟨a, ha, hr⟩ | ⟨e, he, rfl⟩
    · exact Or.inl ⟨a, ⟨n, ha⟩, n, hr⟩
    · exact Or.inr ⟨e, ⟨n, he⟩, rfl⟩
  · rintro (⟨a, ⟨n, ha⟩, k, hr⟩ | ⟨e, ⟨n, he⟩, rfl⟩)
    · exact ⟨max n k, Partial.bind_gives.2
        (Or.inl ⟨a, hx (le_max_left n k) _ ha, hf a (le_max_right n k) _ hr⟩)⟩
    · exact ⟨n, Partial.bind_gives.2 (Or.inr ⟨e, he, rfl⟩)⟩

lemma bind_const_iff {x : ℕ → Partial ε α} {f : α → Partial ε β} (hx : Growing x)
    {r : Except ε β} : Yields (fun n => x n >>= f) r ↔
      (∃ a, Yields x (.ok a) ∧ (f a).Gives r) ∨ ∃ e, Yields x (.error e) ∧ r = .error e := by
  rw [bind_iff (f := fun _ => f) hx fun a => growing_const (f a)]
  simp only [const_iff]

/-- A family whose members from one on are those of another family. -/
lemma succ_iff {x y : ℕ → Partial ε α} (h₀ : ∀ r, ¬ (x 0).Gives r)
    (h : ∀ n, x (n + 1) = y n) {r : Except ε α} : Yields x r ↔ Yields y r := by
  constructor
  · rintro ⟨n, hn⟩
    cases n with
    | zero => exact absurd hn (h₀ r)
    | succ n => exact ⟨n, h n ▸ hn⟩
  · rintro ⟨n, hn⟩
    exact ⟨n + 1, (h n).symm ▸ hn⟩

end Yields

end Letrec
