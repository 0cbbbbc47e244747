import Letrec.Evaluation
import Letrec.Heap.Sameness
import Letrec.Term.Recursive

/-!
# Sessions

A session keeps one machine and names for terms and environments, and carries out one step after
the other: evaluate a term, force it, apply a function, show or compare terms.  Terms are given by
recipes, which can mention kept terms.  A kept term is the same object at every mention, so a thunk
forced in one step is forced in the next.

A failed evaluation is an answer of its step; the session goes on with the machine as the failure
left it.
-/

namespace Letrec

/-- Which environment is meant. -/
inductive EnvRef where
  /-- The one without bindings. -/
  | empty
  /-- The one of the table of builtin operations. -/
  | builtins
  /-- The one that was kept under a name. -/
  | kept (name : String)
deriving DecidableEq, Repr

/-- How to build a term. -/
inductive Recipe where
  /-- A variable. -/
  | var (name : String)
  /-- An integer. -/
  | int (value : Int64)
  /-- A function of several parameters. -/
  | lams (params : List String) (body : Recipe)
  /-- An application to several arguments. -/
  | apps (fn : Recipe) (args : List Recipe)
  /-- The term that was kept under a name. -/
  | kept (name : String)
  /-- A new thunk. -/
  | thunk (term : Recipe) (env : EnvRef)
  /-- An operation of the table. -/
  | builtin (name : String)
  /-- The fixed-point combinator. -/
  | y
  /-- A fixed point. -/
  | fix (self : String) (body : Recipe)
  /-- A choice between two terms. -/
  | cond (c t e : Recipe)
  /-- A reference to a member of a table. -/
  | dispatch (table : String) (id : DispatchId)
  /-- The table of a group. -/
  | table (name : String) (members : List (DispatchId × Recipe))

/-- A step of a session.  Steps that give a term can keep it under a name. -/
inductive Step where
  /-- Build a term. -/
  | term (t : Recipe) (keep : Option String)
  /-- Extend an environment pair by pair and keep it. -/
  | env (base : EnvRef) (pairs : List (String × Recipe)) (keep : String)
  /-- What a name stands for. -/
  | lookup (env : EnvRef) (name : String) (keep : Option String)
  /-- Evaluate under the limit of the session. -/
  | eval (t : Recipe) (env : EnvRef) (keep : Option String)
  /-- Evaluate without a limit. -/
  | evalUnlimited (t : Recipe) (env : EnvRef) (keep : Option String)
  /-- Force a term. -/
  | force (t : Recipe) (keep : Option String)
  /-- Force a term that has to be an integer. -/
  | forceInt (name : String) (t : Recipe)
  /-- Apply a function to arguments as they are. -/
  | apply (fn : Recipe) (args : List Recipe) (keep : Option String)
  /-- Supply arguments to an operation of the table. -/
  | builtin (name : String) (args : List Recipe) (keep : Option String)
  /-- Show a term and what is known of it. -/
  | inspect (t : Recipe)
  /-- Show a term for debugging. -/
  | debug (t : Recipe)
  /-- Show an environment for debugging. -/
  | debugEnv (env : EnvRef)
  /-- The free variables of a term. -/
  | freeVars (t : Recipe)
  /-- Compare two terms both ways round. -/
  | compare (a b : Recipe)
  /-- Store a value in a thunk. -/
  | memoize (t value : Recipe)
  /-- The name of the table of a group. -/
  | tableName (ids : List DispatchId)
  /-- The names of the table of builtin operations. -/
  | names

/-- The answer to a step. -/
inductive Answer where
  /-- A term, as text and kind. -/
  | term (text : String) (kind : Term.Kind)
  /-- An error of evaluation. -/
  | failed (e : EvalError)
  /-- The names of an environment, innermost first. -/
  | env (names : List String)
  /-- What a name stands for. -/
  | found (text : String) (kind : Term.Kind)
  /-- There is nothing of that name. -/
  | notFound
  /-- An integer. -/
  | int (value : Int64)
  /-- A term and what is known of it. -/
  | inspected (text : String) (kind : Term.Kind) (isValue : Bool) (asInt : Option Int64)
  /-- A text for debugging. -/
  | debug (text : String)
  /-- Free variables in ascending order. -/
  | freeVars (names : List String)
  /-- Whether two terms are the same, asked both ways round. -/
  | compared (same flipped : Bool)
  /-- Whether the thunk had a value before, the value it has, and whether it has one now. -/
  | memoized (before : Bool) (text : String) (after : Bool)
  /-- The name of a table. -/
  | tableName (name : Option String)
  /-- The names of the table of builtin operations, and their text for debugging. -/
  | names (names : List String) (debug : String)
deriving DecidableEq, Repr

/-- The state of a session. -/
structure Session where
  /-- The machine. -/
  machine : Machine
  /-- The table of builtin operations. -/
  builtins : Builtins
  /-- The limit on the nesting of evaluations, if any. -/
  limit : Option Nat
  /-- The kept terms, the latest first. -/
  terms : List (String × Term) := []
  /-- The kept environments, the latest first. -/
  envs : List (String × Env) := []

/-- Why a session cannot go on. -/
inductive SessionFailure where
  /-- A recipe mentions a term, environment or operation that there is not. -/
  | unknownName (name : String)
  /-- A table without members. -/
  | emptyTable
  /-- A value can be stored in a thunk only. -/
  | notAThunk
  /-- A builtin operation was run without an argument that it needs. -/
  | missingOperand
  /-- The bound on the nesting of the evaluator itself is reached. -/
  | outOfFuel
deriving DecidableEq, Repr

/-- A step of a session. -/
abbrev SessionM := EStateM SessionFailure Session

namespace Session

/-- The session that starts with a table of builtin operations. -/
def start (builtins : Builtins) (limit : Option Nat) (tracing : Bool) : Session :=
  { machine := .ofBuiltins builtins tracing, builtins, limit }

/-! ### Building terms -/

/-- Something that has to be there. -/
def require {α : Type} (name : String) : Option α → SessionM α
  | some a => return a
  | none => throw (.unknownName name)

/-- Run a step of evaluation; a failure of evaluation is an answer. -/
def evaluating {α : Type} (x : EvalM α) : SessionM (Except EvalError α) := fun s =>
  match x s.machine with
  | .ok a machine => .ok (.ok a) { s with machine }
  | .error (.failed e) machine => .ok (.error e) { s with machine }
  | .error .missingOperand machine => .error .missingOperand { s with machine }
  | .error .outOfFuel machine => .error .outOfFuel { s with machine }

/-- The environment that is meant. -/
def environment : EnvRef → SessionM Env
  | .empty => return []
  | .builtins => return (← get).builtins.env
  | .kept name => do require name ((← get).envs.lookup name)

/-- Change the machine. -/
def onMachine {α : Type} (f : Machine → α × Machine) : SessionM α :=
  modifyGet fun s =>
    let r := f s.machine
    (r.1, { s with machine := r.2 })

mutual

/-- Build a term, its parts from left to right. -/
def build : Recipe → SessionM Term
  | .var x => return .var x
  | .int v => return .int v
  | .lams ps b => return .lams ps (← build b)
  | .apps f args => do
    let f ← build f
    return .apps f (← buildAll args)
  | .kept name => do require name ((← get).terms.lookup name)
  | .thunk t env => do
    let t ← build t
    let env ← environment env
    onMachine (·.newThunk t env)
  | .builtin name => do
    return .builtin (← require name ((← get).builtins.address? name))
  | .y => return .y
  | .fix self b => return .fix self (← build b)
  | .cond c t e => do
    let c ← build c
    let t ← build t
    return .cond c t (← build e)
  | .dispatch table id => return .dispatch table id
  | .table name members => do
    match Term.dispatchTable? name (← buildMembers members) with
    | some t => return t
    | none => throw .emptyTable

/-- Build terms from left to right. -/
def buildAll : List Recipe → SessionM (List Term)
  | [] => return []
  | r :: rs => do
    let t ← build r
    return t :: (← buildAll rs)

/-- Build the members of a table from left to right. -/
def buildMembers : List (DispatchId × Recipe) → SessionM (List (DispatchId × Term))
  | [] => return []
  | (id, r) :: rs => do
    let t ← build r
    return (id, t) :: (← buildMembers rs)

end

/-! ### Carrying out steps -/

/-- Keep a term under a name, if there is one. -/
def keepTerm (keep : Option String) (t : Term) : SessionM Unit :=
  match keep with
  | some name => modify fun s => { s with terms := (name, t) :: s.terms }
  | none => return

/-- The text of a term as it stands. -/
def text (t : Term) : SessionM String := return (← get).machine.heap.text t

/-- Keep a term and answer with it. -/
def answerTerm (keep : Option String) (t : Term) : SessionM Answer := do
  keepTerm keep t
  return .term (← text t) t.kind

/-- Answer with the result of an evaluation; a value is kept. -/
def answerResult (keep : Option String) : Except EvalError Term → SessionM Answer
  | .ok t => answerTerm keep t
  | .error e => return .failed e

/-- The evaluator of the session. -/
def evaluator (s : Session) : Evaluator := evaluate s.limit ampleFuel

/-- Bind names to terms, one after the other. -/
def extendAll (env : Env) : List (String × Recipe) → SessionM Env
  | [] => return env
  | (name, r) :: rest => do
    let t ← build r
    extendAll (env.extend name t) rest

/-- Carry out a step. -/
def step : Step → SessionM Answer
  | .term t keep => do answerTerm keep (← build t)
  | .env base pairs keep => do
    let env ← extendAll (← environment base) pairs
    modify fun s => { s with envs := (keep, env) :: s.envs }
    return .env env.names
  | .lookup env name keep => do
    match (← environment env).lookup? name with
    | some t =>
      keepTerm keep t
      return .found (← text t) t.kind
    | none => return .notFound
  | .eval t env keep => do
    let t ← build t
    let env ← environment env
    answerResult keep (← evaluating ((← get).evaluator t env))
  | .evalUnlimited t env keep => do
    let t ← build t
    let env ← environment env
    answerResult keep (← evaluating (evaluate none ampleFuel t env))
  | .force t keep => do
    let t ← build t
    answerResult keep (← evaluating (EvalM.force (← get).evaluator t))
  | .forceInt name t => do
    let t ← build t
    match ← evaluating (EvalM.forceInt (← get).evaluator name t) with
    | .ok i => return .int i
    | .error e => return .failed e
  | .apply fn args keep => do
    let f ← build fn
    let args ← buildAll args
    answerResult keep (← evaluating (EvalM.apply (← get).evaluator ampleFuel f args))
  | .builtin name args keep => do
    let args ← buildAll args
    match (← get).builtins.address? name with
    | some a => answerResult keep (← evaluating (EvalM.applyBuiltin (← get).evaluator a args))
    | none => return .notFound
  | .inspect t => do
    let t ← build t
    let h := (← get).machine.heap
    return .inspected (h.text t) t.kind (h.isValue t) (h.asInt? t)
  | .debug t => do
    let t ← build t
    return .debug ((← get).machine.heap.debugText t)
  | .debugEnv env => return .debug (← environment env).debugText
  | .freeVars t => return .freeVars (sortedNames (← build t).freeVars)
  | .compare a b => do
    let a ← build a
    let b ← build b
    let h := (← get).machine.heap
    return .compared (h.same a b) (h.same b a)
  | .memoize t value => do
    let t ← build t
    let v ← build value
    match t with
    | .thunk a =>
      let before := ((← get).machine.heap.memo? a).isSome
      let v ← onMachine (·.memoize a v)
      return .memoized before (← text v) ((← get).machine.heap.memo? a).isSome
    | _ => throw .notAThunk
  | .tableName ids => return .tableName (dispatchAlias? ids)
  | .names => do
    let names := (← get).builtins.names
    return .names names ("\x7b" ++ ", ".intercalate (names.map Text.quote) ++ "\x7d")

/-- Carry out steps in order. -/
def steps : List Step → SessionM (List Answer)
  | [] => return []
  | s :: rest => do
    let a ← step s
    return a :: (← steps rest)

end Session

end Letrec
