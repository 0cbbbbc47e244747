import Mathlib
import Letrec.Evaluation.Fuel
import Letrec.Proofs.Evaluation.Congruence

/-!
# Evaluations that stay below the limit

Evaluations that are nested are counted on the way in and discounted on the way out, however they
end.  So an evaluator with the bound `n` never has more than `n` evaluations under way, and a limit
that is at least `n` above the depth of the machine never stops it: `evaluate_within`.
-/

namespace Letrec.EvalM

variable {α β : Type}

/-- The depth of the machine that a run has left. -/
def depthAfter : EStateM.Result Halt Machine α → ℕ
  | .ok _ m | .error _ m => m.depth

/-- On machines with room for `k` more evaluations below the limit `l`, the computations are the
same and leave the depth as it was. -/
def Within (l k : ℕ) (x y : EvalM α) : Prop :=
  ∀ m, m.depth + k ≤ l → y m = x m ∧ depthAfter (x m) = m.depth

variable {l k : ℕ}

lemma Within.refl {x : EvalM α} (h : ∀ m, depthAfter (x m) = m.depth) : Within l k x x :=
  fun m _ => ⟨rfl, h m⟩

lemma Within.bind {x x' : EvalM α} {f f' : α → EvalM β} (hx : Within l k x x')
    (hf : ∀ a, Within l k (f a) (f' a)) : Within l k (x >>= f) (x' >>= f') := by
  intro m hm
  obtain ⟨heq, hdepth⟩ := hx m hm
  simp only [Bind.bind, EStateM.bind]
  rw [heq]
  cases hxm : x m with
  | error e m' =>
    rw [hxm] at hdepth
    exact ⟨rfl, hdepth⟩
  | ok a m' =>
    rw [hxm] at hdepth
    have hdepth' : m'.depth = m.depth := hdepth
    obtain ⟨heq', hdepth''⟩ := hf a m' (by omega)
    exact ⟨heq', hdepth''.trans hdepth'⟩

/-- One evaluation takes one unit of the room. -/
lemma Within.nested {x x' : EvalM α} (h : Within l k x x') :
    Within l (k + 1) (EvalM.nested (some l) x) (EvalM.nested none x') := by
  intro m hm
  have hroom : (some l).filter (· ≤ m.depth) = none := by
    rw [Option.filter_eq_none_iff]
    intro l' hl'
    obtain rfl := Option.some.inj hl'
    rw [decide_eq_true_eq]
    omega
  obtain ⟨heq, hdepth⟩ := h { m with depth := m.depth + 1, peak := max m.peak (m.depth + 1) }
    (show m.depth + 1 + k ≤ l by omega)
  unfold EvalM.nested
  rw [hroom, Option.filter_none]
  dsimp only
  rw [heq]
  refine ⟨rfl, ?_⟩
  cases hx : x { m with depth := m.depth + 1, peak := max m.peak (m.depth + 1) } with
  | ok a m' =>
    rw [hx] at hdepth
    have hdepth' : m'.depth = m.depth + 1 := hdepth
    show m'.depth - 1 = m.depth
    omega
  | error e m' =>
    rw [hx] at hdepth
    have hdepth' : m'.depth = m.depth + 1 := hdepth
    show m'.depth - 1 = m.depth
    omega

@[simp] lemma depth_trace (m : Machine) (e : Heap → Event) : (m.trace e).depth = m.depth := by
  unfold Machine.trace
  split <;> rfl

lemma Within.congruence (l k : ℕ) : Congruence (Within l k) where
  pure _ := .refl fun _ => rfl
  throw _ := .refl fun _ => rfl
  readHeap _ := .refl fun _ => rfl
  trace e := .refl fun m => depth_trace m e
  record _ _ := .refl fun _ => rfl
  newClosure _ := .refl fun _ => rfl
  newBuiltin _ := .refl fun _ => rfl
  newThunk _ _ := .refl fun m => depth_trace m _
  memoize _ _ := .refl fun _ => rfl
  bind := .bind

/-- A limit that the bound on the evaluator does not reach does not matter. -/
theorem evaluate_within (l n : ℕ) (t : Term) (env : Env) :
    Within l n (evaluate (some l) n t env) (evaluate none n t env) := by
  induction n generalizing t env with
  | zero => exact .refl fun _ => rfl
  | succ n ih => exact .nested ((Within.congruence l n).step ih n t env)

/-- What a run without a limit can end with, other than being cut short, is what runs with a limit
can end with. -/
theorem exists_limit_iff {t : Term} {env : Env} {m : Machine} (hm : m.depth = 0)
    {Q : EStateM.Result Halt Machine Term → Prop}
    (hQ : ∀ r, Q r → Finished OutOfFuel r ∧ Finished AtLimit r) :
    (∃ l, Q (evaluate (some l) (ampleFuel + l) t env m)) ↔ ∃ n, Q (evaluate none n t env m) := by
  constructor
  · rintro ⟨l, hl⟩
    have hlooser : Looser (some l) none := fun l' hl' => absurd hl' (by simp)
    have heq := evaluate_higher_limit hlooser (ampleFuel + l) t env m (hQ _ hl).2
    exact ⟨ampleFuel + l, heq ▸ hl⟩
  · rintro ⟨n, hn⟩
    -- the bound that was enough is also enough as a limit
    have hwithin := (evaluate_within n n t env m (by omega)).1
    rw [hwithin] at hn
    have heq := evaluate_more_fuel (some n) (Nat.le_add_left n ampleFuel) t env m (hQ _ hn).1
    exact ⟨n, heq ▸ hn⟩

end Letrec.EvalM
