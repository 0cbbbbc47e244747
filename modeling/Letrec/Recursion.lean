import Letrec.Scope.Resolution
import Letrec.CallGraph.Components

/-!
# Recursion

The definitions of a program form a grouping, and so do the bindings of every `let` block.  Inside
a grouping, one definition refers to another when an identifier anywhere in its body (also inside
anonymous functions and nested `let` blocks) denotes it.  The components of that relation say which
definitions are recursive:

* the members of a component of two or more are mutually recursive;
* a definition that refers to itself is self-recursive.

A definition may be both.  References never count across groupings.
-/

namespace Letrec

/-- In which ways a definition is recursive. -/
structure Flags where
  /-- It refers to itself. -/
  selfRecursive : Bool := false
  /-- It is on a cycle with another definition of its grouping. -/
  mutuallyRecursive : Bool := false
deriving DecidableEq, Repr, Inhabited

/-- Recursive in at least one way. -/
def Flags.isRecursive (f : Flags) : Bool := f.selfRecursive || f.mutuallyRecursive

/-- The definitions of one grouping, by their references to one another. -/
structure Grouping where
  /-- The scope that declares the definitions. -/
  scope : ScopeId
  /-- Which definition refers to which. -/
  graph : CallGraph
  /-- The components of the graph, callees before callers. -/
  components : List (List DispatchId) := graph.components
deriving DecidableEq, Repr, Inhabited

namespace Grouping

/-- The flags of a definition of the grouping. -/
def flags? (g : Grouping) (id : DispatchId) : Option Flags :=
  (g.components.find? (·.contains id)).map fun c =>
    { selfRecursive := g.graph.hasSelfLoop id, mutuallyRecursive := 1 < c.length }

/-- What is reported of one component: that it is a group, and which of its members are
self-recursive. -/
def componentEvents (g : Grouping) (c : List DispatchId) : List Event :=
  (if 1 < c.length then [.mutualGroup g.scope c] else [])
    ++ (c.filter g.graph.hasSelfLoop).map (.selfRecursive g.scope)

/-- What is reported of the grouping. -/
def events (g : Grouping) : List Event := g.components.flatMap g.componentEvents

end Grouping

/-! ### Groupings of a resolved program -/

namespace ScopeTree

/-- The definitions that the identifiers of an expression denote. -/
def references (t : ScopeTree) (e : Expr Scoped) : List DispatchId :=
  e.idents.filterMap fun i =>
    match t.denotes i with
    | some (.binding id) => some id
    | _ => none

/-- A list of definitions, each with its number. -/
def numbered (t : ScopeTree) (ds : List (Definition Scoped)) :
    List (DispatchId × Definition Scoped) :=
  ds.filterMap fun d => (t.ownerOf? d.ann.scope).map fun b => (b.id, d)

/-- The references of the definitions of a grouping to one another. -/
def callGraph (t : ScopeTree) (ds : List (Definition Scoped)) : CallGraph :=
  let members := t.numbered ds
  let nodes := members.foldl (fun g m => g.addNode m.1) CallGraph.empty
  members.foldl
    (fun g m => ((t.references m.2.body).filter nodes.contains).foldl (·.addEdge m.1 ·) g) nodes

/-- The grouping of a list of definitions. -/
def grouping (t : ScopeTree) (scope : ScopeId) (ds : List (Definition Scoped)) : Grouping :=
  { scope, graph := t.callGraph ds }

mutual

/-- The groupings inside an expression, outer ones first. -/
def groupingsIn (t : ScopeTree) : Expr Scoped → List Grouping
  | .ident _ | .int _ _ => []
  | .lam _ b _ => t.groupingsIn b
  | .call f x _ => t.groupingsIn f ++ t.groupingsIn x
  | .ite c p n _ => t.groupingsIn c ++ t.groupingsIn p ++ t.groupingsIn n
  | .letIn ds b a => t.grouping a.scope ds :: t.groupingsInDefs ds ++ t.groupingsIn b

/-- The groupings inside the bodies of a list of definitions, outer ones first. -/
def groupingsInDefs (t : ScopeTree) : List (Definition Scoped) → List Grouping
  | [] => []
  | ⟨_, _, b, _⟩ :: ds => t.groupingsIn b ++ t.groupingsInDefs ds

end

end ScopeTree

/-! ### Classification -/

/-- The recursion in a program: all its groupings. -/
structure Classification where
  /-- The groupings, outer ones first. -/
  groupings : List Grouping := []
deriving DecidableEq, Repr, Inhabited

/-- Classify the definitions of a resolved program. -/
def Resolution.classify (r : Resolution) : Classification where
  groupings := r.tree.grouping r.program.ann.scope r.program.defs
    :: r.tree.groupingsInDefs r.program.defs

namespace Classification

/-- The flags of a definition; an unknown one is not recursive. -/
def flags (c : Classification) (id : DispatchId) : Flags :=
  (c.groupings.findSome? (·.flags? id)).getD {}

/-- All classified definitions with their flags, by number. -/
def toList (c : Classification) : List (DispatchId × Flags) :=
  (ascending (c.groupings.flatMap (·.components.flatten))).map fun id => (id, c.flags id)

/-- The components of a grouping, callees before callers; none for an unknown grouping. -/
def components (c : Classification) (scope : ScopeId) : List (List DispatchId) :=
  ((c.groupings.find? (·.scope == scope)).map Grouping.components).getD []

/-- The mutually recursive groups of all groupings. -/
def mutualGroups (c : Classification) : List (List DispatchId) :=
  (c.groupings.flatMap Grouping.components).filter (1 < ·.length)

/-- What is reported of the classification. -/
def events (c : Classification) : List Event := c.groupings.flatMap Grouping.events

end Classification

end Letrec
