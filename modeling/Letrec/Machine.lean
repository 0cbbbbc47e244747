import Letrec.Builtins
import Letrec.Event
import Letrec.Heap.Text

/-!
# The machine

The state of evaluation: the heap, how deeply evaluations are nested, what probes have recorded
and what has been reported.  The state survives a failure: objects made and memo cells written
before it stay.
-/

namespace Letrec

/-- The state of evaluation. -/
structure Machine where
  /-- The objects. -/
  heap : Heap := {}
  /-- How many evaluations are under way. -/
  depth : Nat := 0
  /-- The most evaluations that have been under way at once. -/
  peak : Nat := 0
  /-- What probes have recorded. -/
  ticks : Array String := #[]
  /-- Whether single steps are reported. -/
  tracing : Bool := false
  /-- What has been reported. -/
  log : Array Event := #[]
deriving Inhabited

namespace Machine

/-- The machine that has a table of builtin operations and nothing else. -/
def ofBuiltins (bs : Builtins) (tracing : Bool) : Machine := { heap := bs.heap, tracing }

/-- Report a step, if steps are reported. -/
@[inline] def trace (m : Machine) (e : Heap → Event) : Machine :=
  if m.tracing then { m with log := m.log.push (e m.heap) } else m

/-- Make a closure. -/
@[inline] def newClosure (m : Machine) (c : Closure) : Term × Machine :=
  (.closure m.heap.closures.size, { m with heap := m.heap.pushClosure c })

/-- Make a builtin operation with some of its arguments. -/
@[inline] def newBuiltin (m : Machine) (b : Builtin) : Term × Machine :=
  (.builtin m.heap.builtins.size, { m with heap := m.heap.pushBuiltin b })

/-- Suspend the evaluation of a term in an environment. -/
@[inline] def newThunk (m : Machine) (t : Term) (env : Env) : Term × Machine :=
  let m := m.trace fun h => .suspending h.thunks.size (h.text t)
  (.thunk m.heap.thunks.size, { m with heap := m.heap.pushThunk { term := t, env } })

/-- Store the value of a thunk, unless it has one, and return the value that it has then. -/
@[inline] def memoize (m : Machine) (a : Addr) (v : Term) : Term × Machine :=
  ((m.heap.memo? a).getD v, { m with heap := m.heap.memoize a v })

/-- Record the text of a term under a label. -/
@[inline] def record (m : Machine) (label : String) (t : Term) : Machine :=
  { m with ticks := m.ticks.push (label ++ " " ++ m.heap.text t) }

end Machine

/-- Why an evaluation ends without a value. -/
inductive Halt where
  /-- It fails. -/
  | failed (e : EvalError)
  /-- A builtin operation was run without an argument that it needs. -/
  | missingOperand
  /-- The bound on the nesting of the evaluator itself is reached. -/
  | outOfFuel
deriving DecidableEq, Repr

/-- A step of evaluation. -/
abbrev EvalM := EStateM Halt Machine

namespace EvalM

/-- End with an error. -/
def fail {α : Type} (e : EvalError) : EvalM α := throw (.failed e)

/-- Read the heap. -/
@[inline] def readHeap {α : Type} (f : Heap → α) : EvalM α := fun m => .ok (f m.heap) m

/-- Count an evaluation as under way while it runs, however it ends.  With a limit, it does not
start when as many are under way already. -/
@[inline] def nested {α : Type} (limit : Option Nat) (body : EvalM α) : EvalM α := fun m =>
  match limit.filter (· ≤ m.depth) with
  | some l => .error (.failed (.recursionLimit l)) m
  | none =>
    match body { m with depth := m.depth + 1, peak := max m.peak (m.depth + 1) } with
    | .ok v m => .ok v { m with depth := m.depth - 1 }
    | .error e m => .error e { m with depth := m.depth - 1 }

end EvalM

end Letrec
