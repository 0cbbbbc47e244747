import Letrec.Compilation
import Letrec.Expr.Printer

/-!
# Demonstration

Two programs, one with a self-recursive definition and one with a mutually recursive pair, shown
with their text, their lowered term and their value.
-/

namespace Letrec.Demo

/-- A use of a name. -/
def use (x : String) : Expr Span := .ident ⟨x, .nowhere⟩

/-- An integer. -/
def lit (n : Int64) : Expr Span := .int n .nowhere

/-- A call with one argument. -/
def app (f x : Expr Span) : Expr Span := .call f x .nowhere

/-- A call of an operator. -/
def op (name : String) (l r : Expr Span) : Expr Span := app (app (use name) l) r

/-- A definition. -/
def define (name : String) (params : List String) (body : Expr Span) : Definition Span :=
  ⟨⟨name, .nowhere⟩, params.map (⟨·, .nowhere⟩), body, .nowhere⟩

/-- The factorial of ten. -/
def factorial : Program Span where
  defs := [
    define "fact" ["n"]
      (.ite (op "==" (use "n") (lit 0)) (lit 1)
        (op "*" (use "n") (app (use "fact") (op "-" (use "n") (lit 1)))) .nowhere),
    define "main" [] (app (use "fact") (lit 10))]
  ann := .nowhere

/-- Whether seven is odd, by two definitions that call each other. -/
def parity : Program Span where
  defs := [
    define "isEven" ["n"]
      (.ite (op "==" (use "n") (lit 0)) (lit 1)
        (app (use "isOdd") (op "-" (use "n") (lit 1))) .nowhere),
    define "isOdd" ["n"]
      (.ite (op "==" (use "n") (lit 0)) (lit 0)
        (app (use "isEven") (op "-" (use "n") (lit 1))) .nowhere),
    define "main" [] (.letIn [define "x" [] (lit 7)] (app (use "isOdd") (use "x")) .nowhere)]
  ann := .nowhere

/-- The text, term and value of a program; nothing if it does not compile or has no value. -/
def report? (p : Program Span) : Option String := do
  let bs := Builtins.standard
  match compile bs.names defaultEntry p #[] with
  | .error _ _ => none
  | .ok c _ =>
    let o := evaluateIn bs none c.term (.ofBuiltins bs false)
    match o.result with
    | .error _ => none
    | .ok v =>
      return p.text ++ "\n" ++ "-- lowered\n" ++ c.term.text ++ "\n\n" ++ "-- result\n"
        ++ o.machine.heap.text v ++ "\n\n"

/-- The whole demonstration. -/
def text? : Option String := do
  return (← report? factorial) ++ (← report? parity)

end Letrec.Demo
