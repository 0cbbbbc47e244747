/-!
# Terms

The terms that programs are lowered to and that evaluation works on.  Lowering builds variables,
integers, functions of one parameter and applications to one argument.  Evaluation adds three
forms that refer to objects of its heap by address: a function together with the environment that
it was made in, a suspended computation, and a builtin operation with the arguments it has so far.

An environment says what variables stand for; a later binding hides an earlier one of the same
name.
-/

namespace Letrec

/-- The address of an object of the heap. -/
abbrev Addr := Nat

/-- A term. -/
inductive Term where
  /-- A variable. -/
  | var (name : String)
  /-- An integer of 64 bits. -/
  | int (value : Int64)
  /-- A function of one parameter. -/
  | lam (param : String) (body : Term)
  /-- An application to one argument. -/
  | app (fn arg : Term)
  /-- A function with its environment. -/
  | closure (addr : Addr)
  /-- A suspended computation. -/
  | thunk (addr : Addr)
  /-- A builtin operation with the arguments supplied so far. -/
  | builtin (addr : Addr)
deriving DecidableEq, Repr, Inhabited

namespace Term

/-- The form of a term, by its outermost constructor. -/
inductive Kind where
  | var | int | lam | app | closure | thunk | builtin
deriving DecidableEq, Repr

/-- The form of a term. -/
def kind : Term → Kind
  | var _ => .var
  | int _ => .int
  | lam _ _ => .lam
  | app _ _ => .app
  | closure _ => .closure
  | thunk _ => .thunk
  | builtin _ => .builtin

/-- The word for a form. -/
def Kind.text : Kind → String
  | .var => "variable"
  | .int => "int"
  | .lam => "lambda"
  | .app => "application"
  | .closure => "closure"
  | .thunk => "thunk"
  | .builtin => "builtin"

/-- A function of several parameters, the outermost first. -/
def lams (params : List String) (body : Term) : Term := params.foldr lam body

/-- An application to one argument after the other: `((fn a) b) …`. -/
def apps (fn : Term) (args : List Term) : Term := args.foldl app fn

/-- The variables that occur free, once for each occurrence.  Objects of the heap have
environments of their own and contribute none. -/
def freeVars : Term → List String
  | var x => [x]
  | lam x b => b.freeVars.filter (· ≠ x)
  | app f a => f.freeVars ++ a.freeVars
  | int _ | closure _ | thunk _ | builtin _ => []

end Term

/-! ### Environments -/

/-- What variables stand for, the innermost binding first. -/
abbrev Env := List (String × Term)

namespace Env

/-- The term that a name stands for. -/
def lookup? (env : Env) (name : String) : Option Term := env.lookup name

/-- Bind a name, hiding what it stood for. -/
def extend (env : Env) (name : String) (t : Term) : Env := (name, t) :: env

/-- The bound names, innermost first, once for each binding. -/
def names (env : Env) : List String := env.map Prod.fst

end Env

/-! ### Sorted names -/

/-- Insert a name into a list in ascending order, unless it is there. -/
def insertName (x : String) : List String → List String
  | [] => [x]
  | y :: ys =>
    if x < y then x :: y :: ys
    else if x = y then y :: ys
    else y :: insertName x ys

/-- The names of a list in ascending order, each once. -/
def sortedNames (xs : List String) : List String := xs.foldr insertName []

end Letrec
