import Mathlib
import Letrec.Proofs.Follows

/-!
# One semantics answers as another does

`Answered R K x y` is the first half of `Follows`: what the computation `x` ends with, the family
`y` ends with as well, up to `R` and `K`.  It is enough where the two semantics can change places,
and it does not ask how much of their bounds they need.

Operations answer alike on arguments that are related, for every relation that the two semantics
respect when they force and read their objects (`Respects`, `Respects.run`).
-/

namespace Letrec

variable {ε ε' α β γ δ : Type}

/-- What `x` ends with, the family ends with as well. -/
def Answered (R : α → β → Prop) (K : ε → ε' → Prop) (x : Partial ε α) (y : ℕ → Partial ε' β) :
    Prop := ∀ s, x.Gives s → ∃ r, Yields y r ∧ Agree R K s r

namespace Answered

variable {R : α → β → Prop} {K : ε → ε' → Prop} {x x' : Partial ε α} {y y' : ℕ → Partial ε' β}

lemma pure {a : α} {b : β} (h : R a b) : Answered R K (pure a) fun _ => pure b := by
  intro s hs
  rw [Partial.pure_gives.1 hs]
  exact ⟨.ok b, ⟨0, Partial.pure_gives.2 rfl⟩, h⟩

lemma throw {e : ε} {e' : ε'} (h : K e e') : Answered R K (throw e) fun _ => throw e' := by
  intro s hs
  rw [Partial.throw_gives.1 hs]
  exact ⟨.error e', ⟨0, Partial.throw_gives.2 rfl⟩, h⟩

lemma never : Answered R K Partial.never y := fun _ hs => absurd hs Partial.never_gives

lemma of_below (hx : x.Below x') (h : Answered R K x' y) : Answered R K x y :=
  fun s hs => h s (hx s hs)

lemma of_yields (hy : ∀ r, Yields y' r → Yields y r) (h : Answered R K x y') :
    Answered R K x y := by
  intro s hs
  obtain ⟨r, hr, hagree⟩ := h s hs
  exact ⟨r, hy r hr, hagree⟩

lemma bind {R' : γ → δ → Prop} {f : α → Partial ε γ} {g : ℕ → β → Partial ε' δ}
    (hx : Answered R K x y) (hf : ∀ a b, R a b → Answered R' K (f a) (g · b)) (hy : Growing y)
    (hg : ∀ b, Growing (g · b)) : Answered R' K (x >>= f) fun k => y k >>= g k := by
  intro s hs
  rcases Partial.bind_gives.1 hs with ⟨a, ha, hs⟩ | ⟨e, he, rfl⟩
  · obtain ⟨r, hr, hagree⟩ := hx _ ha
    cases r with
    | error e' => exact hagree.elim
    | ok b =>
      obtain ⟨r', hr', hagree'⟩ := hf a b hagree s hs
      exact ⟨r', (Yields.bind_iff hy hg).2 (Or.inl ⟨b, hr, hr'⟩), hagree'⟩
  · obtain ⟨r, hr, hagree⟩ := hx _ he
    cases r with
    | ok b => exact hagree.elim
    | error e' => exact ⟨.error e', (Yields.bind_iff hy hg).2 (Or.inr ⟨e', hr, rfl⟩), hagree⟩

/-- A family that is answered computation by computation is answered as a whole. -/
lemma yields {x : ℕ → Partial ε α} (h : ∀ n, Answered R K (x n) y) {s : Except ε α}
    (hs : Yields x s) : ∃ r, Yields y r ∧ Agree R K s r := by
  obtain ⟨n, hn⟩ := hs
  exact h n s hn

end Answered

/-! ### Operations -/

section Operations

variable {D D' : Type} {R : D → D' → Prop} {K : ε → ε' → Prop} {force : D → Partial ε D}
  {force' : ℕ → D' → Partial ε' D'} {int? : D → Except String Int64}
  {int?' : D' → Except String Int64} {ofInt : Int64 → D} {ofInt' : Int64 → D'}
  {report : EvalError → ε} {report' : EvalError → ε'}

variable (R K force force' int? int?' ofInt ofInt' report report') in
/-- Two semantics that force and read related objects alike. -/
structure Respects : Prop where
  force : ∀ {o o'}, R o o' → Answered R K (force o) (force' · o')
  growing : ∀ o', Growing (force' · o')
  ofInt : ∀ v, R (ofInt v) (ofInt' v)
  /-- Related objects are the same integer, or none is an integer. -/
  int? : ∀ {o o'}, R o o' → (∃ v, int? o = .ok v ∧ int?' o' = .ok v) ∨
    ∃ found found', int? o = .error found ∧ int?' o' = .error found' ∧
      (∀ name, K (report (.expectedInteger name found)) (report' (.expectedInteger name found'))) ∧
      K (report (.conditionNotInteger found)) (report' (.conditionNotInteger found'))
  error : ∀ e, K (report e) (report' e)

namespace Respects

variable (h : Respects R K force force' int? int?' ofInt ofInt' report report')

include h

lemma forceInteger {otherwise : String → EvalError}
    (hother : otherwise = .conditionNotInteger ∨ ∃ name, otherwise = .expectedInteger name)
    {o : D} {o' : D'} (ho : R o o') :
    Answered Eq K (Letrec.forceInteger force int? report otherwise o)
      fun n => Letrec.forceInteger (force' n) int?' report' otherwise o' := by
  unfold Letrec.forceInteger
  refine (h.force ho).bind (fun w w' hw => ?_) (h.growing o') fun w' => growing_const _
  rcases h.int? hw with ⟨v, hv, hv'⟩ | ⟨found, found', hf, hf', hexpected, hcondition⟩
  · simp only [hv, hv']
    exact .pure rfl
  · simp only [hf, hf']
    rcases hother with rfl | ⟨name, rfl⟩
    · exact .throw hcondition
    · exact .throw (hexpected name)

lemma run (p : Primitive) {args : List D} {args' : List D'} (hargs : List.Forall₂ R args args') :
    Answered R K (p.run force int? ofInt report args)
      fun n => p.run (force' n) int?' ofInt' report' args' := by
  unfold Primitive.run
  split
  · rename_i name f a b
    rcases hargs with _ | ⟨ha, _ | ⟨hb, _ | _⟩⟩
    have hgrow : ∀ o', Growing fun n =>
        Letrec.forceInteger (force' n) int?' report' (.expectedInteger name) o' :=
      forceInteger_growing h.growing _
    refine (h.forceInteger (.inr ⟨name, rfl⟩) ha).bind ?_ (hgrow _)
      fun x => (hgrow _).bind fun y => growing_const _
    rintro x _ rfl
    refine (h.forceInteger (.inr ⟨name, rfl⟩) hb).bind ?_ (hgrow _) fun y => growing_const _
    rintro y _ rfl
    cases f x y with
    | ok v => exact .pure (h.ofInt v)
    | error e => exact .throw (h.error e)
  · rcases hargs with _ | ⟨hc, _ | ⟨ht, _ | ⟨he, _ | _⟩⟩⟩
    refine (h.forceInteger (.inl rfl) hc).bind ?_ (forceInteger_growing h.growing _ _)
      fun i => h.growing _
    rintro i _ rfl
    split_ifs
    · exact h.force ht
    · exact h.force he
  · exact .never

end Respects

end Operations

end Letrec
