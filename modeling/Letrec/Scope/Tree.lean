import Letrec.Expr

/-!
# The tree of scopes

Every place where names can be bound is a scope: the builtin operations at the root, the
definitions of the program, the parameters of a definition, the parameters of an anonymous
function, the bindings of a `let` block.  Scopes are numbered in the order in which they are
opened, so the parent of a scope always has a smaller number than the scope itself.

A name denotes what the innermost scope that knows it says.  `ScopeTree.lookup` finds it on the way
from a scope to the root.

Definitions are told apart by a number of their own, the dispatch id, whatever their names are.
-/

namespace Letrec

/-- The number of a scope. -/
abbrev ScopeId := Nat

/-- The number of a definition. -/
abbrev DispatchId := Nat

/-- Dispatch ids are 32-bit numbers; the counter that issues them stays below this bound. -/
def dispatchIdBound : Nat := 4294967296

/-- What kind of names a scope holds. -/
inductive ScopeKind where
  /-- The builtin operations. -/
  | builtins
  /-- The definitions of a program. -/
  | program
  /-- The parameters of a definition. -/
  | function
  /-- The parameters of an anonymous function. -/
  | lambda
  /-- The bindings of a `let` block. -/
  | letBlock
deriving DecidableEq, Repr, Inhabited

/-- A scope whose definitions may all refer to one another. -/
def ScopeKind.isGrouping : ScopeKind → Bool
  | .program | .letBlock => true
  | .builtins | .function | .lambda => false

/-- What a name denotes. -/
inductive Entry where
  /-- A parameter of the enclosing function. -/
  | parameter
  /-- The definition of that number. -/
  | binding (id : DispatchId)
  /-- A builtin operation. -/
  | builtin
deriving DecidableEq, Repr, Inhabited

/-- One scope of the tree. -/
structure Scope where
  /-- What kind of names it holds. -/
  kind : ScopeKind
  /-- The enclosing scope; only the root has none. -/
  parent : Option ScopeId
  /-- The definition whose parameters it holds. -/
  owner : Option DispatchId := none
  /-- What its names denote. -/
  entries : List (String × Entry) := []
  /-- The definitions declared in it, in declaration order, also those that bind no name. -/
  declared : List DispatchId := []
deriving DecidableEq, Repr, Inhabited

/-- What a name denotes in the scope itself. -/
def Scope.get? (s : Scope) (name : String) : Option Entry := s.entries.lookup name

/-- What is known of a definition. -/
structure Binding where
  /-- Its number. -/
  id : DispatchId
  /-- Its name, possibly the discard. -/
  name : String
  /-- The scope that declares it. -/
  scope : ScopeId
  /-- The scope of its parameters. -/
  paramScope : ScopeId
  /-- The number of its parameters. -/
  arity : Nat
  /-- Where it stands. -/
  span : Span
deriving DecidableEq, Repr, Inhabited

/-- All scopes by number, and all definitions in the order of their numbers. -/
structure ScopeTree where
  /-- The scopes; a scope's number is its index. -/
  scopes : Array Scope
  /-- The definitions, in the order in which they got their numbers. -/
  bindings : Array Binding := #[]
deriving DecidableEq, Repr, Inhabited

namespace ScopeTree

/-- The number of the scope of the builtin operations. -/
def root : ScopeId := 0

/-- The tree that has only the scope of the given builtin names. -/
def ofBuiltins (names : List String) : ScopeTree where
  scopes := #[{ kind := .builtins, parent := none, entries := names.map (·, .builtin) }]

/-! ### Reading -/

/-- What a name denotes in one scope, enclosing scopes left aside. -/
def entry? (t : ScopeTree) (s : ScopeId) (name : String) : Option Entry :=
  t.scopes[s]?.bind (·.get? name)

/-- The scope around a scope. -/
def parent? (t : ScopeTree) (s : ScopeId) : Option ScopeId :=
  t.scopes[s]?.bind (·.parent)

/-- At most `n` scopes on the way from `s` to the root. -/
def chain (t : ScopeTree) : Nat → ScopeId → List ScopeId
  | 0, _ => []
  | n + 1, s => s :: ((t.parent? s).elim [] (t.chain n))

/-- The scopes from `s` to the root, `s` first.  Parents have smaller numbers, so there are at
most `s + 1` of them. -/
def ancestors (t : ScopeTree) (s : ScopeId) : List ScopeId := t.chain (s + 1) s

/-- What a name denotes in a scope: the innermost scope that has the name decides. -/
def lookup (t : ScopeTree) (s : ScopeId) (name : String) : Option Entry :=
  (t.ancestors s).findSome? (t.entry? · name)

/-- The definition of that number. -/
def binding? (t : ScopeTree) (id : DispatchId) : Option Binding :=
  t.bindings.find? (·.id == id)

/-- The definition whose parameters a scope holds. -/
def ownerOf? (t : ScopeTree) (s : ScopeId) : Option Binding :=
  (t.scopes[s]?.bind (·.owner)).bind t.binding?

/-! ### Growing -/

/-- Add a scope; its number is the number of scopes so far. -/
def push (t : ScopeTree) (kind : ScopeKind) (parent : ScopeId) : ScopeTree :=
  { t with scopes := t.scopes.push { kind, parent := some parent } }

/-- Let a name denote something in a scope. -/
def enter (t : ScopeTree) (s : ScopeId) (name : String) (e : Entry) : ScopeTree :=
  { t with scopes := t.scopes.modify s fun sc => { sc with entries := sc.entries ++ [(name, e)] } }

/-- Record a definition: its scope declares it, and it owns the scope of its parameters. -/
def register (t : ScopeTree) (b : Binding) : ScopeTree where
  scopes := (t.scopes.modify b.scope fun sc => { sc with declared := sc.declared ++ [b.id] }).modify
    b.paramScope fun sc => { sc with owner := some b.id }
  bindings := t.bindings.push b

end ScopeTree

end Letrec
