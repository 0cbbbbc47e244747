import Letrec.Evaluation

/-!
# More fuel and a higher limit keep an answer

The bound on how deeply `evaluate` may call itself is there to make it total.  Once the bound is
large enough for an answer, every larger bound gives the same answer and leaves the same machine.
The limit on the nesting of evaluations is of the same kind: an answer that is not the error of the
limit is the answer under every higher limit, and under none.

`Refines cut x y` says that `y` does whatever `x` does, except that it may go on where `x` has been
cut short.  Every rule of evaluation keeps this relation, so it carries over from one evaluator to
another one that is cut short later: `evaluate_refines`.
-/

namespace Letrec.EvalM

variable {α β : Type} {cut : Halt → Prop}

/-- A result that was not cut short. -/
def Finished (cut : Halt → Prop) (r : EStateM.Result Halt Machine α) : Prop :=
  ∀ e m, r = .error e m → ¬ cut e

/-- Wherever `x` finishes, `y` gives the same result. -/
def Refines (cut : Halt → Prop) (x y : EvalM α) : Prop := ∀ m, Finished cut (x m) → y m = x m

theorem Refines.refl (x : EvalM α) : Refines cut x x := fun _ _ => rfl

theorem Refines.bind {x x' : EvalM α} {f f' : α → EvalM β} (hx : Refines cut x x')
    (hf : ∀ a, Refines cut (f a) (f' a)) : Refines cut (x >>= f) (x' >>= f') := by
  intro m h
  simp only [Bind.bind, EStateM.bind] at h ⊢
  have hfin : Finished cut (x m) := by
    intro e m' hm
    rw [hm] at h
    exact h e m' rfl
  rw [hx m hfin]
  cases hxm : x m with
  | ok a m' =>
    rw [hxm] at h
    exact hf a m' h
  | error e m' => rfl

/-- The second limit stops no evaluation that the first one lets start. -/
def Looser (limit limit' : Option Nat) : Prop := ∀ l', limit' = some l' → ∃ l ≤ l', limit = some l

theorem Refines.nested {x x' : EvalM α} {limit limit' : Option Nat} (hlimit : Looser limit limit')
    (hcut : limit ≠ limit' → ∀ l, cut (.failed (.recursionLimit l))) (h : Refines cut x x') :
    Refines cut (EvalM.nested limit x) (EvalM.nested limit' x') := by
  intro m hm
  unfold EvalM.nested at hm ⊢
  cases hl : limit.filter (· ≤ m.depth) with
  | some l =>
    rw [hl] at hm
    -- the first evaluation does not start, which is an answer only if the limits are the same
    by_cases heq : limit = limit'
    · rw [← heq, hl]
    · exact absurd (hcut heq l) (hm _ _ rfl)
  | none =>
    have hl' : limit'.filter (· ≤ m.depth) = none := by
      rw [Option.filter_eq_none_iff] at hl ⊢
      intro l' hl'
      obtain ⟨l, hle, heq⟩ := hlimit l' hl'
      have hlt := hl l heq
      simp only [decide_eq_true_eq] at hlt ⊢
      omega
    rw [hl] at hm
    rw [hl']
    dsimp only at hm ⊢
    have hfin : Finished cut
        (x { m with depth := m.depth + 1, peak := max m.peak (m.depth + 1) }) := by
      intro e m' hx
      rw [hx] at hm
      exact hm e _ rfl
    rw [h _ hfin]

/-! ### The rules, with a refined evaluator inside -/

section Rules

variable {ev ev' : Evaluator} (hev : ∀ t env, Refines cut (ev t env) (ev' t env))

include hev

theorem forceThunk_refines (a : Addr) : Refines cut (forceThunk ev a) (forceThunk ev' a) := by
  rw [forceThunk]
  refine .bind (.refl _) fun c => ?_
  cases c.memo with
  | some v => exact .refl _
  | none => exact .bind (.refl _) fun _ => .bind (hev _ _) fun _ => .refl _

theorem force_refines (t : Term) : Refines cut (force ev t) (force ev' t) := by
  cases t with
  | thunk a => exact forceThunk_refines hev a
  | _ => exact hev _ _

theorem perform_refines (act : Action) : Refines cut (perform ev act) (perform ev' act) := by
  induction act with
  | done t => exact .refl _
  | fail e => exact .refl _
  | missingOperand => exact .refl _
  | force t next ih => exact .bind (force_refines hev t) ih
  | asInt t otherwise next ih =>
    rw [perform, perform]
    refine .bind (.refl _) fun i => ?_
    cases i with
    | none => exact .refl _
    | some i => exact ih i
  | record label t next ih => exact .bind (.refl _) fun _ => ih

theorem applyBuiltin_refines (a : Addr) (args : List Term) :
    Refines cut (applyBuiltin ev a args) (applyBuiltin ev' a args) := by
  rw [applyBuiltin]
  refine .bind (.refl _) fun b => ?_
  dsimp only
  split
  · exact .refl _
  · split
    · exact .refl _
    · exact .bind (.refl _) fun _ => perform_refines hev _

theorem call_refines {n n' : Nat} (hn : n ≤ n') (hcut : n ≠ n' → cut .outOfFuel) (f arg : Term) :
    Refines cut (call ev n f arg) (call ev' n' f arg) := by
  induction n generalizing n' f with
  | zero =>
    cases f with
    | thunk a =>
      intro m h
      by_cases heq : 0 = n'
      · subst heq
        rfl
      · exact absurd (hcut heq) (h _ _ rfl)
    | closure a => cases n' <;> exact .bind (.refl _) fun _ => hev _ _
    | builtin a => cases n' <;> exact applyBuiltin_refines hev _ _
    | _ => cases n' <;> exact .refl _
  | succ n ih =>
    obtain ⟨k, rfl⟩ : ∃ k, n' = k + 1 := ⟨n' - 1, by omega⟩
    cases f with
    | thunk a =>
      exact .bind (forceThunk_refines hev _) fun f =>
        ih (by omega) (fun hne => hcut (by omega)) f
    | closure a => exact .bind (.refl _) fun _ => hev _ _
    | builtin a => exact applyBuiltin_refines hev _ _
    | _ => exact .refl _

theorem step_refines {n n' : Nat} (hn : n ≤ n') (hcut : n ≠ n' → cut .outOfFuel) (t : Term)
    (env : Env) : Refines cut (step ev n t env) (step ev' n' t env) := by
  unfold step
  cases t with
  | app f a =>
    exact .bind (hev _ _) fun _ => .bind (.refl _) fun _ => call_refines hev hn hcut _ _
  | thunk a => exact forceThunk_refines hev _
  | var x =>
    dsimp only
    cases env.lookup? x with
    | none => exact .refl _
    | some b =>
      cases b with
      | thunk a => exact forceThunk_refines hev _
      | _ => exact hev _ _
  | _ => exact .refl _

end Rules

/-- An evaluator that is not cut short refines to one with more fuel and a higher limit.  Running
out of fuel counts as being cut short if the second one has more of it, and reaching the limit if
the limits differ. -/
theorem evaluate_refines {limit limit' : Option Nat} {n n' : Nat} (hlimit : Looser limit limit')
    (hcut : limit ≠ limit' → ∀ l, cut (.failed (.recursionLimit l))) (hn : n ≤ n')
    (hfuel : n ≠ n' → cut .outOfFuel) (t : Term) (env : Env) :
    Refines cut (evaluate limit n t env) (evaluate limit' n' t env) := by
  induction n generalizing n' t env with
  | zero =>
    intro m h
    by_cases heq : 0 = n'
    · subst heq
      rfl
    · exact absurd (hfuel heq) (h _ _ rfl)
  | succ n ih =>
    obtain ⟨k, rfl⟩ : ∃ k, n' = k + 1 := ⟨n' - 1, by omega⟩
    have hfuel' : n ≠ k → cut .outOfFuel := fun hne => hfuel (by omega)
    exact .nested hlimit hcut
      (step_refines (fun t env => ih (by omega) hfuel' t env) (by omega) hfuel' t env)

/-- Out of fuel. -/
def OutOfFuel (h : Halt) : Prop := h = .outOfFuel

/-- Stopped by a limit on the nesting. -/
def AtLimit (h : Halt) : Prop := ∃ l, h = .failed (.recursionLimit l)

/-- An answer within one bound is the answer within every larger bound. -/
theorem evaluate_more_fuel (limit : Option Nat) {n n' : Nat} (hn : n ≤ n') (t : Term) (env : Env) :
    Refines OutOfFuel (evaluate limit n t env) (evaluate limit n' t env) := by
  have hcut : OutOfFuel .outOfFuel := rfl
  exact evaluate_refines (fun l hl => ⟨l, Nat.le_refl l, hl⟩) (fun h => absurd rfl h) hn
    (fun _ => hcut) t env

/-- An answer under one limit is the answer under every higher limit. -/
theorem evaluate_higher_limit {limit limit' : Option Nat} (hlimit : Looser limit limit') (n : Nat)
    (t : Term) (env : Env) :
    Refines AtLimit (evaluate limit n t env) (evaluate limit' n t env) := by
  have hcut : ∀ l, AtLimit (.failed (.recursionLimit l)) := fun l => ⟨l, rfl⟩
  exact evaluate_refines hlimit (fun _ => hcut) (Nat.le_refl n) (fun h => absurd rfl h) t env

end Letrec.EvalM
