import Letrec.Heap
import Letrec.Text.Quoted

/-!
# The text of terms

Terms are shown in two ways.  `Heap.text` is for users: applications and functions in parentheses,
a forced thunk as its value, other objects of the heap between angle brackets.  `Heap.debugText`
names every form and shows what is suspended in a thunk.

An object is shown through the objects it refers to.  Where that goes round in a circle, the text
ends in dots.
-/

namespace Letrec

namespace Term

/-- The text of a term, given the text of the objects of the heap. -/
def textWith (object : Term → String) : Term → String
  | var x => x
  | int v => toString v.toInt
  | lam x b => "(\\" ++ x ++ ". " ++ b.textWith object ++ ")"
  | app f a => "(" ++ f.textWith object ++ " " ++ a.textWith object ++ ")"
  | closure a => object (closure a)
  | thunk a => object (thunk a)
  | builtin a => object (builtin a)

/-- The text of a function for debugging, given the text of its body. -/
def debugLambda (param body : String) : String :=
  "Lambda \x7b param: " ++ Text.quote param ++ ", body: " ++ body ++ " \x7d"

/-- The text of a term for debugging, given that of the objects of the heap. -/
def debugWith (object : Term → String) : Term → String
  | var x => "Variable(" ++ Text.quote x ++ ")"
  | int v => "IntLiteral(" ++ toString v.toInt ++ ")"
  | lam x b => "Lambda(" ++ debugLambda x (b.debugWith object) ++ ")"
  | app f a => "Application(" ++ f.debugWith object ++ ", " ++ a.debugWith object ++ ")"
  | closure a => object (closure a)
  | thunk a => object (thunk a)
  | builtin a => object (builtin a)

end Term

/-- The text of a builtin operation, with the count of its arguments once there are any. -/
def Builtin.text (b : Builtin) : String :=
  if b.supplied.isEmpty then
    "<builtin " ++ b.name ++ ">"
  else
    "<builtin " ++ b.name ++ " " ++ toString b.supplied.length ++ "/" ++ toString b.arity ++ ">"

/-- The text of a builtin operation for debugging. -/
def Builtin.debugText (b : Builtin) : String :=
  "BuiltinFunction \x7b name: " ++ Text.quote b.name ++ ", arity: " ++ toString b.arity
    ++ ", partial: " ++ toString b.supplied.length ++ ", .. \x7d"

namespace Heap

/-- The text of an object, given the text of the terms inside. -/
def objectText (h : Heap) (inner : Term → String) : Term → String
  | .closure a => "<closure " ++ inner (.lam (h.closure a).param (h.closure a).body) ++ ">"
  | .thunk a => (h.memo? a).elim "<thunk>" inner
  | .builtin a => (h.builtin a).text
  | t => inner t

/-- The text of a term, through at most `n` objects. -/
def textUpTo (h : Heap) : Nat → Term → String
  | 0 => Term.textWith fun _ => "..."
  | n + 1 => Term.textWith (h.objectText (h.textUpTo n))

/-- The text of a term. -/
def text (h : Heap) (t : Term) : String := h.textUpTo h.hops t

/-- The text of an object for debugging, given that of the terms inside. -/
def objectDebugText (h : Heap) (inner : Term → String) : Term → String
  | .closure a =>
    "Closure(" ++ Term.debugLambda (h.closure a).param (inner (h.closure a).body) ++ ")"
  | .thunk a =>
    "Thunk(Thunk \x7b term: " ++ inner (h.thunk a).term ++ ", memo: "
      ++ (h.memo? a).elim "None" (fun v => "Some(" ++ inner v ++ ")") ++ ", .. \x7d)"
  | .builtin a => "Builtin(" ++ (h.builtin a).debugText ++ ")"
  | t => inner t

/-- The text of a term for debugging, through at most `n` objects. -/
def debugTextUpTo (h : Heap) : Nat → Term → String
  | 0 => Term.debugWith fun _ => "..."
  | n + 1 => Term.debugWith (h.objectDebugText (h.debugTextUpTo n))

/-- The text of a term for debugging. -/
def debugText (h : Heap) (t : Term) : String := h.debugTextUpTo h.hops t

end Heap

/-- The text of a term without objects of a heap. -/
def Term.text (t : Term) : String := Heap.text {} t

/-- The names of an environment for debugging, innermost first. -/
def Env.debugText (env : Env) : String := Text.bracketed (env.names.map Text.quote)

end Letrec
