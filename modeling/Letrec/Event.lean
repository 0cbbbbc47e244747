import Letrec.Scope.Tree
import Letrec.Text.Quoted

/-!
# Events

What the stages report while they work, as data.  The wording of every event is in
`Event.message`.  Events of the stages before evaluation are for the developer of a program;
those of evaluation follow every suspended computation and every builtin operation.

`Reporting` is a computation that reports events; what it has reported survives its failure.
-/

namespace Letrec

/-- How fine-grained a report is. -/
inductive Severity where
  /-- One line for each thing of the program. -/
  | debug
  /-- One line for each step of evaluation. -/
  | trace
deriving DecidableEq, Repr

/-- Something that a stage reports. -/
inductive Event where
  /-- Resolution of the program starts in a scope. -/
  | resolvingProgram (scope : ScopeId)
  /-- Resolution of a `let` block starts in a scope. -/
  | resolvingLet (scope : ScopeId)
  /-- A definition got its number. -/
  | registered (name : String) (id : DispatchId) (scope : ScopeId)
  /-- Several definitions of a grouping call one another. -/
  | mutualGroup (scope : ScopeId) (ids : List DispatchId)
  /-- A definition calls itself. -/
  | selfRecursive (scope : ScopeId) (id : DispatchId)
  /-- Lowering starts at an entry point. -/
  | loweringProgram (entry : String) (id : DispatchId)
  /-- A self-recursive definition becomes a fixed point. -/
  | wrappedInY (name : String)
  /-- A mutually recursive group becomes a dispatch table. -/
  | emittedTable (table : String) (members : List (String × DispatchId))
  /-- The term that a program was lowered to. -/
  | loweredProgram (term : String)
  /-- A computation is suspended in the thunk at an address. -/
  | suspending (thunk : Nat) (term : String)
  /-- The evaluation of the thunk at an address starts. -/
  | forcing (thunk : Nat) (term : String)
  /-- A builtin operation has all its arguments. -/
  | invoking (builtin : String)
deriving DecidableEq, Repr

namespace Event

/-- Only evaluation reports single steps. -/
def severity : Event → Severity
  | suspending .. | forcing .. | invoking .. => .trace
  | _ => .debug

/-- The wording of an event. -/
def message : Event → String
  | resolvingProgram scope => "resolving program in scope " ++ toString scope
  | resolvingLet scope => "resolving let block in scope " ++ toString scope
  | registered name id scope =>
    "registered `" ++ name ++ "` as dispatch id " ++ toString id ++ " in scope " ++ toString scope
  | mutualGroup scope ids =>
    "scope " ++ toString scope ++ ": mutually recursive group "
      ++ Text.bracketed (ids.map fun id => toString id)
  | selfRecursive scope id =>
    "scope " ++ toString scope ++ ": dispatch id " ++ toString id ++ " is self-recursive"
  | loweringProgram entry id =>
    "lowering program with entry `" ++ entry ++ "` (dispatch id " ++ toString id ++ ")"
  | wrappedInY name => "`" ++ name ++ "` is self-recursive, wrapping in Y"
  | emittedTable table members =>
    "emitting dispatch table " ++ table ++ " for "
      ++ Text.bracketed (members.map fun m => Text.quote (m.1 ++ "=" ++ toString m.2))
  | loweredProgram term => "lowered program: " ++ term
  | suspending _ term => "suspending " ++ term
  | forcing _ term => "forcing " ++ term
  | invoking builtin => "invoking builtin `" ++ builtin ++ "`"

end Event

/-- A computation that reports events and may fail; the events of a failed one are kept. -/
abbrev Reporting (ε : Type) := EStateM ε (Array Event)

namespace Reporting

variable {ε : Type}

/-- Report an event. -/
def report (e : Event) : Reporting ε Unit := modify (·.push e)

/-- Report events in order. -/
def reportAll (es : List Event) : Reporting ε Unit := modify (· ++ es.toArray)

end Reporting

end Letrec
