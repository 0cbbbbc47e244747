import Letrec.Term
import Letrec.Scope.Tree

/-!
# Terms that encode recursion

Lowered terms have no recursive bindings.  A definition that refers to itself becomes a fixed
point, and the definitions of a mutually recursive group become one fixed point that they share: a
table that maps the number of a definition to its body.  The table goes by an alias, and a
reference to a member is the alias applied to the member's number.

The terms use `if` and `==` under names that no program can hide.
-/

namespace Letrec

/-- The name under which lowered terms use the builtin `if`. -/
def ifAlias : String := "<if>"

/-- The name under which lowered terms use the builtin `==`. -/
def eqAlias : String := "<==>"

/-- The parameter of a dispatch table. -/
def tagName : String := "<tag>"

/-- The name of the table of a group whose lowest number is `id`. -/
def tableAlias (id : DispatchId) : String := "<dispatch:" ++ toString id ++ ">"

/-- The name of the table of a group; an empty group has none. -/
def dispatchAlias? (group : List DispatchId) : Option String := group.min?.map tableAlias

namespace Term

/-- The number of a definition as a term. -/
def ofId (id : DispatchId) : Term := .int (Int64.ofNat id)

/-- One half of the fixed-point combinator: `\x. f (x x)`. -/
def yHalf : Term := .lam "x" (.app (.var "f") (.app (.var "x") (.var "x")))

/-- The fixed-point combinator: `\f. (\x. f (x x)) (\x. f (x x))`. -/
def y : Term := .lam "f" (.app yHalf yHalf)

/-- A term that may refer to itself by the name `self`. -/
def fix (self : String) (body : Term) : Term := .app y (.lam self body)

/-- The choice between two terms. -/
def cond (c t e : Term) : Term := .apps (.var ifAlias) [c, t, e]

/-- A reference to a member of a table. -/
def dispatch (table : String) (id : DispatchId) : Term := .app (.var table) (.ofId id)

/-- Whether the tag is the number of a member. -/
def tagIs (id : DispatchId) : Term := .apps (.var eqAlias) [.var tagName, .ofId id]

/-- The member that the tag selects: members are tried in order, and the last one is taken without
a test. -/
def selection : (DispatchId × Term) → List (DispatchId × Term) → Term
  | m, [] => m.2
  | m, n :: ms => cond (tagIs m.1) m.2 (selection n ms)

/-- The table of a group: a function from the number of a member to the member. -/
def dispatchTable (table : String) (m : DispatchId × Term) (ms : List (DispatchId × Term)) : Term :=
  fix table (.lam tagName (selection m ms))

/-- The table of a list of members.  An empty group has none. -/
def dispatchTable? (table : String) : List (DispatchId × Term) → Option Term
  | [] => none
  | m :: ms => some (dispatchTable table m ms)

end Term

end Letrec
