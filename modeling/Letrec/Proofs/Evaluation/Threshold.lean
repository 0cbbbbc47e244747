import Mathlib
import Letrec.Proofs.Evaluation.Congruence
import Letrec.Proofs.Evaluation.Limit
import Letrec.Proofs.Success

/-!
# The limit on the nesting is a threshold

The machine records the peak of the nesting.  A run without a limit thus shows which limits would
have stopped it: exactly those below its peak.  `Sharp l x y` compares a run under the limit `l`
with one under none: up to that peak the limit changes nothing, and below it the run ends with the
error of the limit.  `Balanced` says that nested evaluations are discounted on every way out and
that their number stays within the limit.
-/

namespace Letrec

/-- The machine of a fresh interpreter on the heap, the records and the log of this one. -/
def Machine.fresh (m : Machine) : Machine := { m with depth := 0, peak := 0 }

namespace EvalM

variable {α β : Type}

/-- The peak of the machine that a run has left. -/
def peakAfter : EStateM.Result Halt Machine α → ℕ
  | .ok _ m | .error _ m => m.peak

@[simp] lemma peak_trace (m : Machine) (e : Heap → Event) : (m.trace e).peak = m.peak := by
  unfold Machine.trace
  split <;> rfl

/-! ### Counting up and down -/

/-- The depth is the same before and after, and in between it does not go above the limit. -/
def Balanced (limit : Option ℕ) (x : EvalM α) : Prop :=
  ∀ m, depthAfter (x m) = m.depth ∧ m.peak ≤ peakAfter (x m) ∧
    ∀ l, limit = some l → peakAfter (x m) ≤ max m.peak l

namespace Balanced

variable {limit : Option ℕ}

/-- A computation that does not touch the counters. -/
lemma of_same {x : EvalM α}
    (h : ∀ m, depthAfter (x m) = m.depth ∧ peakAfter (x m) = m.peak) : Balanced limit x :=
  fun m => ⟨(h m).1, (h m).2.ge, fun l _ => (h m).2.le.trans (le_max_left _ l)⟩

lemma bind {x : EvalM α} {f : α → EvalM β} (hx : Balanced limit x)
    (hf : ∀ a, Balanced limit (f a)) : Balanced limit (x >>= f) := by
  intro m
  obtain ⟨hdepth, hpeak, hlimit⟩ := hx m
  simp only [Bind.bind, EStateM.bind]
  cases hxm : x m with
  | error e m' =>
    rw [hxm] at hdepth hpeak hlimit
    exact ⟨hdepth, hpeak, hlimit⟩
  | ok a m' =>
    rw [hxm] at hdepth hpeak hlimit
    obtain ⟨hdepth', hpeak', hlimit'⟩ := hf a m'
    refine ⟨hdepth'.trans hdepth, hpeak.trans hpeak', fun l hl => ?_⟩
    have hmid : m'.peak ≤ max m.peak l := hlimit l hl
    exact (hlimit' l hl).trans (max_le hmid (le_max_right _ _))

lemma nested {x : EvalM α} (h : Balanced limit x) : Balanced limit (EvalM.nested limit x) := by
  intro m
  unfold EvalM.nested
  cases hstop : limit.filter (· ≤ m.depth) with
  | some l => exact ⟨rfl, le_rfl, fun l' _ => le_max_left _ l'⟩
  | none =>
    dsimp only
    obtain ⟨hdepth, hpeak, hlimit⟩ :=
      h { m with depth := m.depth + 1, peak := max m.peak (m.depth + 1) }
    have hroom : ∀ l, limit = some l → m.depth + 1 ≤ l := by
      intro l hl
      have hlt := Option.filter_eq_none_iff.1 hstop l hl
      simpa using hlt
    have hmax : m.peak ≤ max m.peak (m.depth + 1) := le_max_left _ _
    have hbound : ∀ k l, k ≤ max (max m.peak (m.depth + 1)) l → m.depth + 1 ≤ l →
        k ≤ max m.peak l := by
      intro k l hk hl
      omega
    cases hx : x { m with depth := m.depth + 1, peak := max m.peak (m.depth + 1) } with
    | ok a m' =>
      rw [hx] at hdepth hpeak hlimit
      have hdepth' : m'.depth = m.depth + 1 := hdepth
      refine ⟨?_, hmax.trans hpeak, fun l hl => hbound _ l (hlimit l hl) (hroom l hl)⟩
      show m'.depth - 1 = m.depth
      omega
    | error e m' =>
      rw [hx] at hdepth hpeak hlimit
      have hdepth' : m'.depth = m.depth + 1 := hdepth
      refine ⟨?_, hmax.trans hpeak, fun l hl => hbound _ l (hlimit l hl) (hroom l hl)⟩
      show m'.depth - 1 = m.depth
      omega

/-- No rule but the nesting of evaluations touches the counters. -/
lemma congruence (limit : Option ℕ) : Congruence fun x _ => Balanced limit x where
  pure _ := .of_same fun _ => ⟨rfl, rfl⟩
  throw _ := .of_same fun _ => ⟨rfl, rfl⟩
  readHeap _ := .of_same fun _ => ⟨rfl, rfl⟩
  trace _ := .of_same fun m => ⟨depth_trace m _, peak_trace m _⟩
  record _ _ := .of_same fun _ => ⟨rfl, rfl⟩
  newClosure _ := .of_same fun _ => ⟨rfl, rfl⟩
  newBuiltin _ := .of_same fun _ => ⟨rfl, rfl⟩
  newThunk _ _ := .of_same fun m => ⟨depth_trace m _, peak_trace m _⟩
  memoize _ _ := .of_same fun _ => ⟨rfl, rfl⟩
  bind hx hf := hx.bind hf

end Balanced

lemma evaluate_balanced (limit : Option ℕ) (n : ℕ) (t : Term) (env : Env) :
    Balanced limit (evaluate limit n t env) :=
  (Balanced.congruence limit).evaluate limit limit Balanced.nested n t env

/-! ### The threshold -/

/-- With `x` under the limit `l` and `y` under none: if the peak of `y` is within the limit, the two
do the same, and if it is not, `x` ends with the error of the limit. -/
def Sharp (l : ℕ) (x y : EvalM α) : Prop :=
  ∀ m, m.peak ≤ peakAfter (y m) ∧ (m.peak ≤ l → (peakAfter (y m) ≤ l → x m = y m) ∧
    (l < peakAfter (y m) → ∃ m', x m = .error (.failed (.recursionLimit l)) m'))

namespace Sharp

variable {l : ℕ}

lemma of_same {x : EvalM α} (h : ∀ m, peakAfter (x m) = m.peak) : Sharp l x x := by
  intro m
  refine ⟨(h m).ge, fun hm => ⟨fun _ => rfl, fun hlt => ?_⟩⟩
  exact absurd hlt ((h m).le.trans hm).not_gt

lemma bind {x y : EvalM α} {f g : α → EvalM β} (h : Sharp l x y)
    (hf : ∀ a, Sharp l (f a) (g a)) : Sharp l (x >>= f) (y >>= g) := by
  intro m
  obtain ⟨hpeak, hsharp⟩ := h m
  simp only [Bind.bind, EStateM.bind]
  cases hym : y m with
  | error e m' =>
    rw [hym] at hpeak hsharp
    refine ⟨hpeak, fun hm => ⟨fun hle => by rw [(hsharp hm).1 hle], fun hlt => ?_⟩⟩
    obtain ⟨m₁, hx⟩ := (hsharp hm).2 hlt
    exact ⟨m₁, by rw [hx]⟩
  | ok a m' =>
    rw [hym] at hpeak hsharp
    obtain ⟨hrise, hsharp'⟩ := hf a m'
    have hpeak' : m.peak ≤ m'.peak := hpeak
    refine ⟨hpeak'.trans hrise, fun hm => ?_⟩
    -- the peak only rises, so if the first half is above the limit, the whole is
    rcases Nat.lt_or_ge l m'.peak with hlt | hle
    · obtain ⟨m₁, hx⟩ := (hsharp hm).2 hlt
      rw [hx]
      exact ⟨fun hle => absurd (hrise.trans hle) hlt.not_ge, fun _ => ⟨m₁, rfl⟩⟩
    · rw [(hsharp hm).1 hle]
      exact hsharp' hle

/-- An evaluation that the limit does not let start would have raised the peak above it. -/
lemma nested {x y : EvalM α} (h : Sharp l x y) :
    Sharp l (EvalM.nested (some l) x) (EvalM.nested none y) := by
  intro m
  obtain ⟨hpeak, hsharp⟩ := h { m with depth := m.depth + 1, peak := max m.peak (m.depth + 1) }
  have hpeak' : max m.peak (m.depth + 1) ≤
      peakAfter (y { m with depth := m.depth + 1, peak := max m.peak (m.depth + 1) }) := hpeak
  have hafter : peakAfter (EvalM.nested none y m) =
      peakAfter (y { m with depth := m.depth + 1, peak := max m.peak (m.depth + 1) }) := by
    unfold EvalM.nested
    dsimp only [Option.filter_none]
    cases y { m with depth := m.depth + 1, peak := max m.peak (m.depth + 1) } <;> rfl
  rw [hafter]
  refine ⟨(le_max_left _ _).trans hpeak', fun hm => ?_⟩
  by_cases hdepth : l ≤ m.depth
  · have hstop : EvalM.nested (some l) x m = .error (.failed (.recursionLimit l)) m := by
      unfold EvalM.nested
      rw [Option.filter_some_pos (by simpa using hdepth)]
    exact ⟨fun hle => by omega, fun _ => ⟨m, hstop⟩⟩
  · obtain ⟨heq, hstop⟩ := hsharp (show max m.peak (m.depth + 1) ≤ l by omega)
    unfold EvalM.nested
    rw [Option.filter_some_neg (by simpa using hdepth), Option.filter_none]
    dsimp only
    refine ⟨fun hle => by rw [heq hle], fun hlt => ?_⟩
    obtain ⟨m₁, hx⟩ := hstop hlt
    exact ⟨{ m₁ with depth := m₁.depth - 1 }, by rw [hx]⟩

lemma congruence (l : ℕ) : Congruence (Sharp l) where
  pure _ := .of_same fun _ => rfl
  throw _ := .of_same fun _ => rfl
  readHeap _ := .of_same fun _ => rfl
  trace _ := .of_same fun m => peak_trace m _
  record _ _ := .of_same fun _ => rfl
  newClosure _ := .of_same fun _ => rfl
  newBuiltin _ := .of_same fun _ => rfl
  newThunk _ _ := .of_same fun m => peak_trace m _
  memoize _ _ := .of_same fun _ => rfl
  bind := Sharp.bind

end Sharp

lemma evaluate_sharp (l n : ℕ) (t : Term) (env : Env) :
    Sharp l (evaluate (some l) n t env) (evaluate none n t env) :=
  (Sharp.congruence l).evaluate (some l) none Sharp.nested n t env

/-- Evaluation under a limit ends, and with this result. -/
def Returns (limit : Option ℕ) (t : Term) (env : Env) (m : Machine)
    (r : EStateM.Result Halt Machine Term) : Prop :=
  Finished OutOfFuel r ∧ ∃ n, evaluate limit n t env m = r

lemma Returns.higher_limit {limit limit' : Option ℕ} {t : Term} {env : Env} {m : Machine}
    {r : EStateM.Result Halt Machine Term} (h : Returns limit t env m r)
    (hlimit : Finished AtLimit r) (hlooser : Looser limit limit') : Returns limit' t env m r := by
  obtain ⟨hfinished, n, rfl⟩ := h
  exact ⟨hfinished, n, evaluate_higher_limit hlooser n t env m hlimit⟩

/-- Limits from the peak of a run on do not change it. -/
lemma Returns.of_peak_le {t : Term} {env : Env} {m : Machine}
    {r : EStateM.Result Halt Machine Term} (h : Returns none t env m.fresh r) {l : ℕ}
    (hl : peakAfter r ≤ l) : Returns (some l) t env m.fresh r := by
  obtain ⟨hfinished, n, rfl⟩ := h
  exact ⟨hfinished, n, ((evaluate_sharp l n t env m.fresh).2 (Nat.zero_le l)).1 hl⟩

/-- Limits below the peak of a run end it. -/
lemma Returns.of_lt_peak {t : Term} {env : Env} {m : Machine}
    {r : EStateM.Result Halt Machine Term} (h : Returns none t env m.fresh r) {l : ℕ}
    (hl : l < peakAfter r) :
    ∃ m', Returns (some l) t env m.fresh (.error (.failed (.recursionLimit l)) m') := by
  obtain ⟨-, n, rfl⟩ := h
  obtain ⟨m', hx⟩ := ((evaluate_sharp l n t env m.fresh).2 (Nat.zero_le l)).2 hl
  refine ⟨m', fun e m₁ he hfuel => ?_, n, hx⟩
  obtain ⟨rfl, -⟩ := EStateM.Result.error.inj he
  exact absurd hfuel (by simp [OutOfFuel])

/-- A limit on the nesting of evaluations that does not end a run changes nothing about it, and
those that do are the ones below some depth.  On every way out the depth is what it was, and it
has not been above the limit. -/
theorem limit_threshold (t : Term) (env : Env) (m : Machine) :
    (∀ l r, Returns (some l) t env m.fresh r → Finished AtLimit r →
      (∀ l', l ≤ l' → Returns (some l') t env m.fresh r) ∧ Returns none t env m.fresh r) ∧
    (∀ r, Returns none t env m.fresh r →
      ∃ d, (∀ l < d, ∃ m',
          Returns (some l) t env m.fresh (.error (.failed (.recursionLimit l)) m')) ∧
        ∀ l, d ≤ l → Returns (some l) t env m.fresh r) ∧
    ∀ limit n, (∀ t env, Balanced limit (evaluate limit n t env)) ∧
      (∀ t, Balanced limit (force (evaluate limit n) t)) ∧
      (∀ k f args, Balanced limit (apply (evaluate limit n) k f args)) ∧
      ∀ name t, Balanced limit (forceInt (evaluate limit n) name t) := by
  refine ⟨fun l r h hlimit => ⟨fun l' hle => ?_, ?_⟩, fun r h => ⟨peakAfter r, ?_, ?_⟩, ?_⟩
  · refine h.higher_limit hlimit fun l₁ hl₁ => ⟨l, ?_, rfl⟩
    obtain rfl := Option.some.inj hl₁
    exact hle
  · exact h.higher_limit hlimit fun l₁ hl₁ => absurd hl₁ (by simp)
  · exact fun l hl => h.of_lt_peak hl
  · exact fun l hl => h.of_peak_le hl
  · intro limit n
    have hcong := Balanced.congruence limit
    have hev := evaluate_balanced limit n
    exact ⟨hev, @Congruence.force _ hcong (evaluate limit n) (evaluate limit n) hev,
      @Congruence.apply _ hcong (evaluate limit n) (evaluate limit n) hev,
      @Congruence.forceInt _ hcong (evaluate limit n) (evaluate limit n) hev⟩

/-- `(\x. x) 1`, which nests three evaluations: the application, the body and what `x` stands
for. -/
def identityCall : Term := .app (.lam "x" (.var "x")) (.int 1)

theorem limit_threshold_identityCall : ∃ m : Machine,
    Returns (some 3) identityCall [] (Machine.fresh {}) (.ok (.int 1) m) ∧
    (∀ l, 3 ≤ l → Returns (some l) identityCall [] (Machine.fresh {}) (.ok (.int 1) m)) ∧
    Returns none identityCall [] (Machine.fresh {}) (.ok (.int 1) m) ∧
    ∃ d, (∀ l < d, ∃ m', Returns (some l) identityCall [] (Machine.fresh {})
        (.error (.failed (.recursionLimit l)) m')) ∧
      ∀ l, d ≤ l → Returns (some l) identityCall [] (Machine.fresh {}) (.ok (.int 1) m) := by
  have hvalue : value? (evaluate (some 3) 4 identityCall [] (Machine.fresh {}))
      = some (.int 1) := by
    decide +kernel
  obtain ⟨m, hm⟩ := value?_eq_some.1 hvalue
  have hreturns : Returns (some 3) identityCall [] (Machine.fresh {}) (.ok (.int 1) m) :=
    ⟨fun _ _ heq => (nomatch heq), 4, hm⟩
  obtain ⟨hlimits, hnone, -⟩ := limit_threshold identityCall [] {}
  obtain ⟨hhigher, hunlimited⟩ := hlimits 3 _ hreturns fun _ _ heq => nomatch heq
  exact ⟨m, hreturns, hhigher, hunlimited, hnone _ hunlimited⟩

end EvalM

end Letrec
