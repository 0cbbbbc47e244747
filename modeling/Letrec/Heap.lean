import Letrec.Action

/-!
# The heap

The objects that evaluation makes, by address.  An object is never removed and, the memo cell of a
thunk apart, never changes.  A memo cell is written once: it is empty until the thunk has been
forced, and holds its value from then on.

Two objects are the same only if they have the same address.
-/

namespace Letrec

/-- A function with the environment that it was made in. -/
structure Closure where
  /-- The parameter. -/
  param : String
  /-- The body. -/
  body : Term
  /-- What the other variables of the body stand for. -/
  env : Env
deriving DecidableEq, Repr, Inhabited

/-- A suspended computation. -/
structure Thunk where
  /-- The term to evaluate. -/
  term : Term
  /-- What its variables stand for. -/
  env : Env
  /-- The value, once the thunk has been forced. -/
  memo : Option Term := none
deriving DecidableEq, Repr, Inhabited

/-- A builtin operation with the arguments supplied so far. -/
structure Builtin where
  /-- Its name in messages. -/
  name : String
  /-- The number of arguments it takes. -/
  arity : Nat
  /-- What it does with all its arguments. -/
  op : Operation
  /-- The arguments supplied so far. -/
  supplied : List Term := []

instance : Inhabited Builtin := ⟨{ name := "", arity := 0, op := fun _ => .missingOperand }⟩

/-- The objects of evaluation. -/
structure Heap where
  /-- The functions with environments. -/
  closures : Array Closure := #[]
  /-- The suspended computations. -/
  thunks : Array Thunk := #[]
  /-- The builtin operations. -/
  builtins : Array Builtin := #[]
deriving Inhabited

namespace Heap

/-! ### Reading

An address that has not been given out reads as an object without content. -/

/-- The closure at an address. -/
def closure (h : Heap) (a : Addr) : Closure := h.closures[a]?.getD default

/-- The thunk at an address. -/
def thunk (h : Heap) (a : Addr) : Thunk := h.thunks[a]?.getD default

/-- The builtin operation at an address. -/
def builtin (h : Heap) (a : Addr) : Builtin := h.builtins[a]?.getD default

/-- The value of a thunk that has been forced. -/
def memo? (h : Heap) (a : Addr) : Option Term := h.thunks[a]?.bind Thunk.memo

/-- The number of hops from object to object that a chain without repetition can have. -/
def hops (h : Heap) : Nat := h.closures.size + h.thunks.size + 1

/-- The integer that a term is, through at most `n` memo cells. -/
def asIntUpTo (h : Heap) : Nat → Term → Option Int64
  | _, .int v => some v
  | n + 1, .thunk a => (h.memo? a).bind (h.asIntUpTo n)
  | _, _ => none

/-- The integer that a term is; a forced thunk is what its value is. -/
def asInt? (h : Heap) (t : Term) : Option Int64 := h.asIntUpTo h.hops t

/-- Whether a term needs no further evaluation. -/
def isValue (h : Heap) : Term → Bool
  | .int _ | .closure _ | .builtin _ => true
  | .thunk a => (h.memo? a).isSome
  | .var _ | .lam _ _ | .app _ _ => false

/-! ### Writing -/

/-- Add a closure; its address is the number of closures so far. -/
def pushClosure (h : Heap) (c : Closure) : Heap := { h with closures := h.closures.push c }

/-- Add a thunk; its address is the number of thunks so far. -/
def pushThunk (h : Heap) (c : Thunk) : Heap := { h with thunks := h.thunks.push c }

/-- Add a builtin operation; its address is the number of builtin operations so far. -/
def pushBuiltin (h : Heap) (b : Builtin) : Heap := { h with builtins := h.builtins.push b }

/-- Store the value of a thunk, unless it has one. -/
def memoize (h : Heap) (a : Addr) (v : Term) : Heap :=
  { h with thunks := h.thunks.modify a fun c => { c with memo := c.memo.or (some v) } }

end Heap

end Letrec
