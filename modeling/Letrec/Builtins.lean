import Letrec.Heap

/-!
# Builtin operations

The table of builtin operations that a program is evaluated with, in the order of their names.
The standard table has arithmetic and comparison on integers and a conditional that evaluates one
of its branches only.  Arithmetic wraps around; comparisons answer one or zero; zero is false and
any other integer is true.

Probes are further operations for observing evaluation from outside: they record what they are
given.
-/

namespace Letrec

/-- A table of builtin operations, ascending by name, each name once. -/
structure Builtins where
  /-- The operations, without arguments. -/
  entries : List Builtin := []

namespace Builtins

/-- The table without operations. -/
def empty : Builtins := {}

/-- Insert an operation into an ascending list, in place of one of the same name. -/
def insertInto (b : Builtin) : List Builtin → List Builtin
  | [] => [b]
  | c :: cs =>
    if b.name < c.name then b :: c :: cs
    else if b.name = c.name then b :: cs
    else c :: insertInto b cs

/-- Add an operation, in place of one of the same name. -/
def insert (bs : Builtins) (name : String) (arity : Nat) (op : Operation) : Builtins :=
  ⟨insertInto { name, arity, op } bs.entries⟩

/-- The names in ascending order. -/
def names (bs : Builtins) : List String := bs.entries.map Builtin.name

/-- The address of the operation of that name in a heap that starts with the table. -/
def address? (bs : Builtins) (name : String) : Option Addr := bs.names.idxOf? name

/-- The heap that has the table and nothing else. -/
def heap (bs : Builtins) : Heap := { builtins := bs.entries.toArray }

/-- The environment that binds every name of the table to its operation. -/
def env (bs : Builtins) : Env :=
  (bs.entries.mapIdx fun i b => (b.name, Term.builtin i)).reverse

end Builtins

/-! ### Standard operations -/

namespace Operation

/-- An operation on two integers. -/
def binary (name : String) (f : Int64 → Int64 → Action) : Operation
  | a :: b :: _ => .forceInt name a fun x => .forceInt name b fun y => f x y
  | _ => .missingOperand

/-- Arithmetic that always has a result. -/
def arithmetic (name : String) (f : Int64 → Int64 → Int64) : Operation :=
  binary name fun x y => .done (.int (f x y))

/-- Division toward zero. -/
def division (name : String) : Operation :=
  binary name fun x y => if y = 0 then .fail .divisionByZero else .done (.int (x / y))

/-- A comparison, as one or zero. -/
def comparison (name : String) (f : Int64 → Int64 → Bool) : Operation :=
  binary name fun x y => .done (.int (if f x y then 1 else 0))

/-- Force the condition, then one of the branches. -/
def conditional : Operation
  | c :: t :: e :: _ =>
    .force c fun v => .asInt v .conditionNotInteger fun i =>
      .force (if i ≠ 0 then t else e) .done
  | _ => .missingOperand

end Operation

/-- Arithmetic, comparison and the conditional. -/
def Builtins.standard : Builtins :=
  empty
    |>.insert "+" 2 (Operation.arithmetic "+" (· + ·))
    |>.insert "-" 2 (Operation.arithmetic "-" (· - ·))
    |>.insert "*" 2 (Operation.arithmetic "*" (· * ·))
    |>.insert "/" 2 (Operation.division "/")
    |>.insert "==" 2 (Operation.comparison "==" (· == ·))
    |>.insert "/=" 2 (Operation.comparison "/=" (· != ·))
    |>.insert "!=" 2 (Operation.comparison "!=" (· != ·))
    |>.insert "<" 2 (Operation.comparison "<" (· < ·))
    |>.insert "<=" 2 (Operation.comparison "<=" (· ≤ ·))
    |>.insert ">" 2 (Operation.comparison ">" (· > ·))
    |>.insert ">=" 2 (Operation.comparison ">=" (· ≥ ·))
    |>.insert "if" 3 Operation.conditional

/-! ### Probes -/

/-- The operations that observe evaluation. -/
inductive Probe where
  /-- Force the first argument, record its value and return it. -/
  | tick
  /-- Record the first argument as it stands and return it unforced. -/
  | raw
  /-- Force and record every argument in order and return the last value, or zero. -/
  | seq
  /-- The number of arguments, none of them forced. -/
  | count
  /-- The first argument, which has to be an integer. -/
  | int
deriving DecidableEq, Repr

namespace Probe

/-- Force and record the terms in order and end with the last value. -/
def sequence (name : String) (last : Term) : List Term → Action
  | [] => .done last
  | t :: ts => .force t fun v => .record name v (sequence name v ts)

/-- What a probe of that name does. -/
def op (name : String) : Probe → Operation
  | .tick => fun
    | t :: _ => .force t fun v => .record name v (.done v)
    | [] => .missingOperand
  | .raw => fun
    | t :: _ => .record name t (.done t)
    | [] => .missingOperand
  | .seq => sequence name (.int 0)
  | .count => fun ts => .done (.int (Int64.ofNat ts.length))
  | .int => fun
    | t :: _ => .forceInt name t fun i => .done (.int i)
    | [] => .missingOperand

end Probe

end Letrec
