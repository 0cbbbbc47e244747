import Mathlib
import Letrec.Proofs.Evaluation.Once

/-!
# The states of a run by number

A state has at most one successor, so a run is a sequence of states, and what happens in it happens
at a time (`Config.after?`).

The machine goes through a binding `(\y. rest) v` in five steps, from the evaluation of the binding
to that of `rest`, unless the limit on the nesting of evaluations stops it (`Passing`).  So a block
comes to each of its bindings a fixed number of steps after its own evaluation has begun
(`enters_rest`).
-/

namespace Letrec

namespace Config

variable {limit : Option ℕ} {start s s' : Config} {t n : ℕ}

/-- The state of a run after `t` steps, if it goes on for so long. -/
def after? (limit : Option ℕ) (start : Config) : ℕ → Option Config
  | 0 => some start
  | t + 1 => (after? limit start t).bind (next limit)

lemma after?_succ (h : start.after? limit t = some s) :
    start.after? limit (t + 1) = s.next limit := by
  rw [after?, h, Option.bind_some]

lemma exists_of_after?_succ (h : start.after? limit (t + 1) = some s') :
    ∃ s, start.after? limit t = some s ∧ Steps limit s s' := Option.bind_eq_some_iff.1 h

lemma reaches_iff_after? : Reaches limit start s ↔ ∃ t, start.after? limit t = some s := by
  constructor
  · intro h
    induction h with
    | refl => exact ⟨0, rfl⟩
    | tail _ hstep ih =>
      obtain ⟨t, ht⟩ := ih
      exact ⟨t + 1, (after?_succ ht).trans hstep⟩
  · rintro ⟨t, h⟩
    induction t generalizing s with
    | zero =>
      obtain rfl := Option.some.inj h
      exact .refl
    | succ t ih =>
      obtain ⟨s₁, hs₁, hstep⟩ := exists_of_after?_succ h
      exact (ih hs₁).tail hstep

lemma reaches_of_after? (h : start.after? limit t = some s) : Reaches limit start s :=
  reaches_iff_after?.2 ⟨t, h⟩

lemma after?_add (h : start.after? limit t = some s) (n : ℕ) :
    start.after? limit (t + n) = s.after? limit n := by
  induction n with
  | zero => exact h
  | succ n ih => rw [← Nat.add_assoc, after?, ih, after?]

/-- A later state follows on an earlier one. -/
lemma transGen_of_lt {t' : ℕ} (h : start.after? limit t = some s)
    (h' : start.after? limit t' = some s') (hlt : t < t') :
    Relation.TransGen (Steps limit) s s' := by
  obtain ⟨n, rfl⟩ := Nat.exists_eq_add_of_lt hlt
  rw [Nat.add_assoc, after?_add h] at h'
  obtain ⟨s₁, hs₁, hstep⟩ := exists_of_after?_succ h'
  exact .tail' (reaches_of_after? hs₁) hstep

/-- The term is evaluated. -/
def Evaluates (t : Term) (s : Config) : Prop := ∃ env, s.control = .eval t env

/-- The term is evaluated at the time `t`. -/
def EvaluatesAt (limit : Option ℕ) (start : Config) (term : Term) (t : ℕ) : Prop :=
  ∃ s, start.after? limit t = some s ∧ s.Evaluates term

/-- The limit on the nesting of evaluations has been reached. -/
def Limited (s : Config) : Prop := ∃ l, s.control = .fail (.failed (.recursionLimit l))

/-- The run comes to the limit on nesting after the time `t`, not later than at the time `t'`. -/
def LimitedWithin (limit : Option ℕ) (start : Config) (t t' : ℕ) : Prop :=
  ∃ i s, t < i ∧ i ≤ t' ∧ start.after? limit i = some s ∧ s.Limited

/-! ### Through a binding -/

/-- The heap `h` becomes `h'` when the argument `v` is suspended, which gives `u`: a new thunk,
unless the argument is an integer or a variable. -/
def Suspended (h : Heap) (v : Term) (env : Env) (u : Term) (h' : Heap) : Prop :=
  (h' = h ∧ (u = v ∧ v.isReady = true ∨ ∃ x, v = .var x ∧ env.lookup? x = some u)) ∨
    u = .thunk h.thunks.size ∧ h' = h.pushThunk { term := v, env }

/-- The heap with the function that a binding makes. -/
def bindingHeap (y : String) (rest : Term) (env : Env) (h : Heap) : Heap :=
  h.pushClosure { param := y, body := rest, env }

/-- The states from the evaluation of `(\y. rest) v` to that of `rest`, by number.  Here `K` waits
for the value and `h` is the heap at first. -/
inductive Passing (y : String) (rest v : Term) (env : Env) (K : List Frame) (h : Heap) :
    ℕ → Config → Prop
  | binding {m} : m.heap = h → Passing y rest v env K h 0 ⟨.eval (.app (.lam y rest) v) env, K, m⟩
  | function {m} : m.heap = h → Passing y rest v env K h 1
      ⟨.eval (.lam y rest) env, .argument v env :: .leave :: K, m⟩
  | made {m} : m.heap = bindingHeap y rest env h → Passing y rest v env K h 2
      ⟨.value (.closure h.closures.size), .leave :: .argument v env :: .leave :: K, m⟩
  | ready {m} : m.heap = bindingHeap y rest env h → Passing y rest v env K h 3
      ⟨.value (.closure h.closures.size), .argument v env :: .leave :: K, m⟩
  | called {m u} : Suspended (bindingHeap y rest env h) v env u m.heap → Passing y rest v env K h 4
      ⟨.call (.closure h.closures.size) u, .leave :: K, m⟩
  | entered {m u} : Suspended (bindingHeap y rest env h) v env u m.heap →
      Passing y rest v env K h 5 ⟨.eval rest (env.extend y u), .leave :: K, m⟩

section Passing

variable {y : String} {rest v : Term} {env : Env} {K : List Frame} {h : Heap} {i : ℕ}

lemma Suspended.closures {u : Term} {h' : Heap} (hu : Suspended h v env u h') :
    h'.closures = h.closures := by
  rcases hu with ⟨rfl, -⟩ | ⟨-, rfl⟩
  · rfl
  · rfl

/-- An evaluation begins, or the limit is reached. -/
lemma next_eval (limit : Option ℕ) (t : Term) (env : Env) (K : List Frame) (m : Machine) :
    (∃ s', next limit ⟨.eval t env, K, m⟩ = some s' ∧ s'.Limited) ∨
      next limit ⟨.eval t env, K, m⟩ = some (evaluating t env (.leave :: K)
        { m with depth := m.depth + 1, peak := max m.peak (m.depth + 1) }) := by
  rw [Config.next]
  cases limit.filter (· ≤ m.depth) with
  | some l => exact Or.inl ⟨_, rfl, l, rfl⟩
  | none => exact Or.inr rfl

/-- One step further, or the limit is reached. -/
lemma Passing.next (hs : Passing y rest v env K h i s) (hi : i < 5) (limit : Option ℕ) :
    ∃ s', s.next limit = some s' ∧ (s'.Limited ∨ Passing y rest v env K h (i + 1) s') := by
  cases hs with
  | @binding m hm =>
    rcases next_eval limit (.app (.lam y rest) v) env K m with ⟨s', hs', hlimited⟩ | hnext
    · exact ⟨s', hs', Or.inl hlimited⟩
    · exact ⟨_, hnext, Or.inr (.function hm)⟩
  | @function m hm =>
    rcases next_eval limit (.lam y rest) env (.argument v env :: .leave :: K) m with
      ⟨s', hs', hlimited⟩ | hnext
    · exact ⟨s', hs', Or.inl hlimited⟩
    · subst hm
      exact ⟨_, hnext, Or.inr (.made rfl)⟩
  | made hm => exact ⟨_, rfl, Or.inr (.ready hm)⟩
  | @ready m hm =>
    rcases EvalM.suspend_cases v env m with ⟨u, hu, hpassed⟩ | ⟨m', hu, hheap⟩
    · refine ⟨⟨.call (.closure h.closures.size) u, .leave :: K, m⟩, ?_,
        Or.inr (.called (Or.inl ⟨hm, ?_⟩))⟩
      · simp only [Config.next, returning, hu]
      · exact hpassed
    · refine ⟨⟨.call (.closure h.closures.size) (.thunk m.heap.thunks.size), .leave :: K, m'⟩, ?_,
        Or.inr (.called (Or.inr ⟨?_, ?_⟩))⟩
      · simp only [Config.next, returning, hu]
      · rw [hm]
      · rw [hheap, hm]
  | @called m u hu =>
    have hclosure : m.heap.closure h.closures.size = { param := y, body := rest, env } := by
      rw [Heap.closure, hu.closures, bindingHeap, Heap.pushClosure, Array.getElem?_push_size,
        Option.getD_some]
    refine ⟨⟨.eval rest (env.extend y u), .leave :: K, m⟩, ?_, Or.inr (.entered hu)⟩
    simp only [Config.next, hclosure]
  | entered => exact absurd hi (lt_irrefl 5)

/-- A number of steps further, or the limit is reached on the way. -/
lemma Passing.after? (h₀ : start.after? limit t = some s) (hs : Passing y rest v env K h 0 s)
    (hn : n ≤ 5) : LimitedWithin limit start t (t + n) ∨
      ∃ s', start.after? limit (t + n) = some s' ∧ Passing y rest v env K h n s' := by
  induction n with
  | zero => exact Or.inr ⟨s, h₀, hs⟩
  | succ n ih =>
    rcases ih (by omega) with ⟨i, s', hlt, hle, hi⟩ | ⟨s', hs', hpassing⟩
    · exact Or.inl ⟨i, s', hlt, by omega, hi⟩
    · obtain ⟨s'', hnext, hs''⟩ := hpassing.next (by omega) limit
      have hafter : start.after? limit (t + (n + 1)) = some s'' := (after?_succ hs').trans hnext
      rcases hs'' with hlimited | hpassing
      · exact Or.inl ⟨_, s'', by omega, le_rfl, hafter, hlimited⟩
      · exact Or.inr ⟨s'', hafter, hpassing⟩

end Passing

/-! ### Blocks -/

/-- A block comes to what it binds names around, five steps for each binding. -/
lemma enters_rest (bs : List (String × Term)) (rest : Term) {env : Env} {K : List Frame}
    {m : Machine}
    (h : start.after? limit t = some ⟨.eval (LowerContext.chain bs rest) env, K, m⟩) :
    LimitedWithin limit start t (t + 5 * bs.length) ∨
      ∃ env' K' m', start.after? limit (t + 5 * bs.length) = some ⟨.eval rest env', K', m'⟩ ∧
        K <:+ K' := by
  induction bs generalizing t env K m with
  | nil => exact Or.inr ⟨env, K, m, h, List.suffix_rfl⟩
  | cons q bs ih =>
    have hlength : t + 5 * (q :: bs).length = t + 5 + 5 * bs.length := by
      rw [List.length_cons]
      omega
    rw [hlength]
    rcases Passing.after? h (.binding rfl) le_rfl with ⟨i, s, hlt, hle, hi⟩ | ⟨s, hs, hpassing⟩
    · exact Or.inl ⟨i, s, hlt, by omega, hi⟩
    · cases hpassing with
      | entered =>
        rcases ih hs with ⟨i, s, hlt, hle, hi⟩ | ⟨env', K', m', hs', hK⟩
        · exact Or.inl ⟨i, s, by omega, hle, hi⟩
        · exact Or.inr ⟨env', K', m', hs', (List.suffix_cons _ _).trans hK⟩

end Config

end Letrec
