import Mathlib
import Letrec.Proofs.Meaning

/-!
# Runs without a limit

Without a limit on the nesting, what is left is the bound of the evaluator.  `runWithin` makes it an
argument, so that "the program runs to this result" can be said of all bounds together; `run`
without a limit is `runWithin` at a large bound.

A program is refused when it is resolved or when it is lowered, or else it compiles to a term
(`compile_cases`); then its runs are those of the term (`exists_returns_ok_iff`,
`exists_returns_error_iff`).
-/

namespace Letrec

/-- Compile a program and evaluate its entry point, without a limit on the nesting but with a bound
on the evaluator. -/
def runWithin (n : ℕ) (bs : Builtins) (entry : String) (tracing : Bool) (p : Program Span) :
    Outcome :=
  let m := Machine.ofBuiltins bs tracing
  match compile bs.names entry p m.log with
  | .ok c log =>
    match evaluate none n c.term bs.env { m with log } with
    | .ok v m => ⟨.ok v, m⟩
    | .error h m => ⟨.error (.eval h), m⟩
  | .error e log => ⟨.error e, { m with log }⟩

lemma run_eq_runWithin (bs : Builtins) (entry : String) (tracing : Bool) (p : Program Span) :
    run bs { entry } tracing p = runWithin ampleFuel bs entry tracing p := rfl

/-- A program is refused by resolution, or by lowering, or it compiles. -/
lemma compile_cases (names : List String) (entry : String) (p : Program Span) (log : Array Event) :
    (∃ e log', resolve names 0 p log = .error e log' ∧
      compile names entry p log = .error (.resolve e) log') ∨
    ∃ r log₁ log₂, resolve names 0 p log = .ok r log₁ ∧
      ((∃ e log', r.lower r.classify entry log₂ = .error e log' ∧
          compile names entry p log = .error (.lower e) log') ∨
        ∃ t log₃ log', r.lower r.classify entry log₂ = .ok t log₃ ∧
          compile names entry p log = .ok ⟨r, r.classify, t⟩ log') := by
  cases hresolve : resolve names 0 p log with
  | error e log' =>
    refine Or.inl ⟨e, log', rfl, ?_⟩
    simp only [compile, bind, EStateM.bind, EStateM.adaptExcept, hresolve]
  | ok r log₁ =>
    obtain ⟨_, log₂, hreport⟩ : ∃ u log₂,
        (Reporting.reportAll r.classify.events : Reporting Failure Unit) log₁ = .ok u log₂ :=
      ⟨_, _, rfl⟩
    refine Or.inr ⟨r, log₁, log₂, rfl, ?_⟩
    cases hlower : r.lower r.classify entry log₂ with
    | error e log' =>
      refine Or.inl ⟨e, log', rfl, ?_⟩
      simp only [compile, Resolution.classifyReporting, bind, EStateM.bind, EStateM.adaptExcept,
        hresolve, hreport, hlower, pure, EStateM.pure]
    | ok t log₃ =>
      refine Or.inr ⟨t, log₃, log₃.push (.loweredProgram t.text), rfl, ?_⟩
      simp only [compile, Resolution.classifyReporting, bind, EStateM.bind, EStateM.adaptExcept,
        hresolve, hreport, hlower, pure, EStateM.pure, Reporting.report, modify, modifyGet,
        MonadStateOf.modifyGet, EStateM.modifyGet]

/-- A program that returns something compiles. -/
lemma compiles_of_returns {bs : Builtins} {entry : String} {tracing : Bool} {p : Program Span}
    {n : ℕ} {r : Except EvalError.Kind Int64}
    (h : (runWithin n bs entry tracing p).Returns r) :
    ∃ c log, compile bs.names entry p #[] = .ok c log := by
  have hrefused : ∀ e log, compile bs.names entry p #[] = .error e log →
      (runWithin n bs entry tracing p).result = .error e := by
    intro e log he
    have hlog : (Machine.ofBuiltins bs tracing).log = #[] := rfl
    simp only [runWithin, hlog, he]
  have hreturns : ∀ e, (∀ o, e ≠ .eval o) → (runWithin n bs entry tracing p).result ≠ .error e := by
    intro e hne hresult
    cases r with
    | ok v => exact absurd (hresult.symm.trans h) (by simp)
    | error k =>
      obtain ⟨e', he', -⟩ := h
      exact hne _ (Except.error.inj (hresult.symm.trans he'))
  rcases compile_cases bs.names entry p #[] with
    ⟨e, log, -, he⟩ | ⟨r, log₁, log₂, -, ⟨e, log, -, he⟩ | ⟨t, log₃, log, -, hc⟩⟩
  · exact absurd (hrefused _ _ he) (hreturns _ fun o => by simp)
  · exact absurd (hrefused _ _ he) (hreturns _ fun o => by simp)
  · exact ⟨_, log, hc⟩

section Compiled

variable {entry : String} {p : Program Span} {c : Compiled} {log : Array Event}
  (h : compile Builtins.standard.names entry p #[] = .ok c log) (tracing : Bool)

include h

lemma returns_runWithin_iff {n : ℕ} {r : Except EvalError.Kind Int64} :
    (runWithin n .standard entry tracing p).Returns r ↔
      EndsWith r (evaluate none n c.term Builtins.standard.env
        { Machine.ofBuiltins .standard tracing with log }) := by
  have hlog : (Machine.ofBuiltins .standard tracing).log = #[] := rfl
  simp only [runWithin, hlog, h]
  cases evaluate none n c.term Builtins.standard.env
      { Machine.ofBuiltins .standard tracing with log } with
  | ok v m' => cases r <;> simp [Outcome.Returns, EndsWith]
  | error o m' => cases r <;> simp [Outcome.Returns, EndsWith]

lemma lowered_of_compile : c.term.Lowered :=
  (compile_closed h (by decide +kernel) (by decide +kernel)).lowered

lemma exists_returns_ok_iff {v : Int64} :
    (∃ n, (runWithin n .standard entry tracing p).Returns (.ok v)) ↔
      ByName.Evaluates c.term ByName.standard (.ok (.int v)) := by
  simp only [returns_runWithin_iff h tracing]
  exact endsWith_ok_iff rfl (lowered_of_compile h)

lemma exists_returns_error_iff {k : EvalError.Kind} :
    (∃ n, (runWithin n .standard entry tracing p).Returns (.error k)) ↔
      ∃ e, e.kind = k ∧ ByName.Evaluates c.term ByName.standard (.error e) := by
  simp only [returns_runWithin_iff h tracing]
  exact endsWith_error_iff rfl (lowered_of_compile h)

/-- A program that does not use the names that lowering makes up runs to what it means. -/
lemma exists_returns_iff_means (havoid : ∀ x ∈ p.names, ¬ Generated x)
    {r : Except EvalError.Kind Int64} :
    (∃ n, (runWithin n .standard entry tracing p).Returns r) ↔ Surface.Means p entry r := by
  cases r with
  | ok v => rw [exists_returns_ok_iff h, Surface.means_ok_iff h havoid]
  | error k => rw [exists_returns_error_iff h, Surface.means_error_iff h havoid]

end Compiled

end Letrec
