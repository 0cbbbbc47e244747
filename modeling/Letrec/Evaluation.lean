import Letrec.Machine

/-!
# Evaluation

Evaluation is lazy: an argument is suspended, and evaluated when its value is first needed; after
that its value is remembered.  The value of a term is an integer, a closure or a builtin operation
that waits for arguments.

The rules are written against an evaluator for the terms inside, `ev`, and `evaluate` closes them:
its first argument bounds how deeply it may call itself.  A bound that is too small is reported as
such and never mistaken for an answer; a limit on the nesting of evaluations, in contrast, is a
feature of evaluation and ends it with an error.
-/

namespace Letrec

/-- Something that evaluates terms in environments. -/
abbrev Evaluator := Term → Env → EvalM Term

/-- A term that means the same in every environment: an integer or an object of the heap. -/
def Term.isReady : Term → Bool
  | .int _ | .closure _ | .thunk _ | .builtin _ => true
  | .var _ | .lam _ _ | .app _ _ => false

namespace EvalM

/-- The argument of a call, unevaluated.  A term that means the same everywhere is passed as it is,
and so is what a variable stands for if it is such a term. -/
def suspend (t : Term) (env : Env) : EvalM Term :=
  if t.isReady then
    return t
  else
    match t with
    | .var x =>
      match env.lookup? x with
      | some b => if b.isReady then return b else modifyGet (·.newThunk t env)
      | none => modifyGet (·.newThunk t env)
    | _ => modifyGet (·.newThunk t env)

section Rules

variable (ev : Evaluator)

/-- The value of a thunk: the one it has, or the one that its term evaluates to, which is
remembered. -/
def forceThunk (a : Addr) : EvalM Term := do
  let c ← readHeap (·.thunk a)
  match c.memo with
  | some v => return v
  | none =>
    modify (·.trace fun h => .forcing a (h.text c.term))
    let v ← ev c.term c.env
    modifyGet (·.memoize a v)

/-- The value of a term that stands on its own. -/
def force : Term → EvalM Term
  | .thunk a => forceThunk ev a
  | t => ev t []

/-- Do what a builtin operation says. -/
def perform : Action → EvalM Term
  | .done t => return t
  | .fail e => fail e
  | .missingOperand => throw .missingOperand
  | .force t next => do
    let v ← force ev t
    perform (next v)
  | .asInt t otherwise next => do
    match ← readHeap (·.asInt? t) with
    | some i => perform (next i)
    | none => fail (otherwise (← readHeap (·.text t)))
  | .record label t next => do
    modify (·.record label t)
    perform next

/-- The value of a term that has to be an integer, on behalf of the operation `name`. -/
def forceInt (name : String) (t : Term) : EvalM Int64 := do
  let v ← force ev t
  match ← readHeap (·.asInt? v) with
  | some i => return i
  | none => fail (.expectedInteger name (← readHeap (·.text v)))

/-- Supply arguments to a builtin operation: with too few it waits for more, with all of them it
runs, with too many it fails. -/
def applyBuiltin (a : Addr) (args : List Term) : EvalM Term := do
  let b ← readHeap (·.builtin a)
  let all := b.supplied ++ args
  if b.arity < all.length then
    fail (.tooManyArguments b.name b.arity all.length)
  else if all.length < b.arity then
    modifyGet (·.newBuiltin { b with supplied := all })
  else
    modify (·.trace fun _ => .invoking b.name)
    perform ev (b.op all)

/-- Call a function with one argument.  A thunk in place of the function is forced first, through
at most `n` thunks. -/
def call : Nat → Term → Term → EvalM Term
  | _, .closure a, arg => do
    let c ← readHeap (·.closure a)
    ev c.body (c.env.extend c.param arg)
  | _, .builtin a, arg => applyBuiltin ev a [arg]
  | n + 1, .thunk a, arg => do
    let f ← forceThunk ev a
    call n f arg
  | 0, .thunk _, _ => throw .outOfFuel
  | _, f, _ => do fail (.notAFunction (← readHeap (·.text f)))

/-- Call a function that has been forced with several arguments.  A closure takes one at a time, a
builtin operation all that are left. -/
def applyForced (n : Nat) : Term → List Term → EvalM Term
  | f, [] => return f
  | f, arg :: args =>
    match f with
    | .builtin a => applyBuiltin ev a (arg :: args)
    | _ => do
      let g ← call ev n f arg
      applyForced n g args

/-- Call a function with several arguments, which are passed as they are. -/
def apply (n : Nat) (f : Term) (args : List Term) : EvalM Term := do
  let f ← force ev f
  applyForced ev n f args

/-- Evaluate a term whose parts are evaluated by `ev`. -/
def step (n : Nat) (t : Term) (env : Env) : EvalM Term :=
  match t with
  | .int _ | .closure _ | .builtin _ => return t
  | .thunk a => forceThunk ev a
  | .lam x b => modifyGet (·.newClosure { param := x, body := b, env })
  | .var x =>
    match env.lookup? x with
    | some (.thunk a) => forceThunk ev a
    | some b => ev b env
    | none => fail (.unboundVariable x)
  | .app f a => do
    let f ← ev f env
    let a ← suspend a env
    call ev n f a

end Rules

end EvalM

/-- Evaluate a term in an environment, with a limit on the nesting of evaluations or none. -/
def evaluate (limit : Option Nat) : Nat → Evaluator
  | 0, _, _ => throw .outOfFuel
  | n + 1, t, env => EvalM.nested limit (EvalM.step (evaluate limit n) n t env)

/-- A bound for `evaluate` that no memory is large enough to reach. -/
def ampleFuel : Nat := 1000000000000000000

end Letrec
