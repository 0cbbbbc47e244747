import Letrec.Term

/-!
# Actions of builtin operations

A builtin operation gets its arguments unevaluated and says what to do with them.  What it can do
is data: force a term and go on with its value, read an integer, leave a record, end with a term
or with an error.  So an operation passes every error of a term it forces on, and it sees nothing of
evaluation but the values it asked for.
-/

namespace Letrec

/-- Why an evaluation fails. -/
inductive EvalError where
  /-- A variable is bound nowhere. -/
  | unboundVariable (name : String)
  /-- Something that is no function is applied. -/
  | notAFunction (found : String)
  /-- A condition is no integer. -/
  | conditionNotInteger (found : String)
  /-- A builtin operation gets more arguments than it takes. -/
  | tooManyArguments (name : String) (arity supplied : Nat)
  /-- An operand is no integer. -/
  | expectedInteger (name found : String)
  /-- The divisor is zero. -/
  | divisionByZero
  /-- Evaluations are nested more deeply than allowed. -/
  | recursionLimit (limit : Nat)
deriving DecidableEq, Repr

/-- The wording of an error. -/
def EvalError.message : EvalError → String
  | unboundVariable name => "unbound variable `" ++ name ++ "`"
  | notAFunction found => "cannot apply " ++ found ++ ": not a function"
  | conditionNotInteger found => "condition of `if` must be an integer, found " ++ found
  | tooManyArguments name arity supplied =>
    "builtin `" ++ name ++ "` takes " ++ toString arity ++ " argument(s) but "
      ++ toString supplied ++ " were supplied"
  | expectedInteger name found =>
    "builtin `" ++ name ++ "` expects integer operands, found " ++ found
  | divisionByZero => "division by zero"
  | recursionLimit limit => "evaluation exceeded the depth limit of " ++ toString limit

/-- What an operation does. -/
inductive Action where
  /-- End with a term. -/
  | done (result : Term)
  /-- End with an error. -/
  | fail (error : EvalError)
  /-- An argument that the operation needs was not supplied. -/
  | missingOperand
  /-- Force a term and go on with its value. -/
  | force (t : Term) (next : Term → Action)
  /-- Go on with the integer that a term is, or end with an error about the text of the term. -/
  | asInt (t : Term) (otherwise : String → EvalError) (next : Int64 → Action)
  /-- Leave a record of a term as it stands, under a label. -/
  | record (label : String) (t : Term) (next : Action)

/-- An operation, given all its arguments. -/
abbrev Operation := List Term → Action

namespace Action

/-- Force a term that has to be an integer, on behalf of the operation `name`. -/
def forceInt (name : String) (t : Term) (next : Int64 → Action) : Action :=
  .force t fun v => .asInt v (.expectedInteger name) next

end Action

end Letrec
