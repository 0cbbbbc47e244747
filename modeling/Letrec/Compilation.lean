import Letrec.Evaluation
import Letrec.Lowering

/-!
# From program to value

`compile` resolves, classifies and lowers a program.  `run` evaluates the result over a table of
builtin operations.  The names of the table are visible to the program unless it hides them.
-/

namespace Letrec

/-- Everything that compilation finds out about a program. -/
structure Compiled where
  /-- The program with its scopes. -/
  resolution : Resolution
  /-- How its definitions are recursive. -/
  classification : Classification
  /-- The term that evaluates its entry point. -/
  term : Term

/-- Why there is no value. -/
inductive Failure where
  /-- Resolution stopped. -/
  | resolve (e : ResolveFailure)
  /-- Lowering failed. -/
  | lower (e : LowerError)
  /-- Evaluation ended without a value. -/
  | eval (h : Halt)
deriving DecidableEq, Repr

/-- The name of the definition that a program evaluates to unless told otherwise. -/
def defaultEntry : String := "main"

/-- How to run a program. -/
structure Options where
  /-- The definition that the program evaluates to. -/
  entry : String := defaultEntry
  /-- The limit on the nesting of evaluations, if any. -/
  maxDepth : Option Nat := none
deriving DecidableEq, Repr

/-- Classify the definitions of a resolved program and report what was found. -/
def Resolution.classifyReporting {ε : Type} (r : Resolution) : Reporting ε Classification := do
  let c := r.classify
  Reporting.reportAll c.events
  return c

/-- Resolve, classify and lower a program over the given builtin names. -/
def compile (builtins : List String) (entry : String) (p : Program Span) :
    Reporting Failure Compiled := do
  let resolution ← (resolve builtins 0 p).adaptExcept .resolve
  let classification ← resolution.classifyReporting
  let term ← (resolution.lower classification entry).adaptExcept .lower
  Reporting.report (.loweredProgram term.text)
  return { resolution, classification, term }

/-- How a run ended, and the machine it left. -/
structure Outcome where
  /-- The value, or why there is none. -/
  result : Except Failure Term
  /-- The heap, records and reports at the end. -/
  machine : Machine

/-- Evaluate a term over a table of builtin operations, on a machine that starts with the table.
A limit on the nesting is reached before the bound on the evaluator. -/
def evaluateIn (bs : Builtins) (limit : Option Nat) (t : Term) (m : Machine) : Outcome :=
  match evaluate limit (ampleFuel + limit.getD 0) t bs.env m with
  | .ok v m => ⟨.ok v, m⟩
  | .error h m => ⟨.error (.eval h), m⟩

/-- Compile a program and evaluate its entry point. -/
def run (bs : Builtins) (opts : Options) (tracing : Bool) (p : Program Span) : Outcome :=
  let m := Machine.ofBuiltins bs tracing
  match compile bs.names opts.entry p m.log with
  | .ok c log => evaluateIn bs opts.maxDepth c.term { m with log }
  | .error e log => ⟨.error e, { m with log }⟩

end Letrec
