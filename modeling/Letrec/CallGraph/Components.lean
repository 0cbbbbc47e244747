import Letrec.CallGraph

/-!
# Strongly connected components

The components of a call graph by one depth-first search.  Nodes are numbered in the order in
which the search reaches them.  A node stays on the stack until its component is complete, which
is when the search has returned to the member that it reached first: that member is the one from
which no edge leads back to an earlier node of the stack.

A component is emitted only after every component that it has an edge into, so callees come before
their callers.
-/

namespace Letrec.CallGraph

/-- The state of the search. -/
structure Search where
  /-- The nodes reached so far with their numbers, the latest first. -/
  index : List (Nat × Nat) := []
  /-- The nodes whose component is not complete, the latest first. -/
  stack : List Nat := []
  /-- The complete components in the order of their completion. -/
  components : List (List Nat) := []
deriving DecidableEq, Repr, Inhabited

namespace Search

/-- The number of a node that has been reached. -/
def index? (s : Search) (v : Nat) : Option Nat := s.index.lookup v

/-- Number a node and put it on the stack. -/
def enter (s : Search) (v : Nat) : Search :=
  { s with index := (v, s.index.length) :: s.index, stack := v :: s.stack }

/-- Take the nodes down to `v` off the stack; they are a component. -/
def emit (s : Search) (v : Nat) : Search :=
  { s with
    stack := (s.stack.dropWhile (· ≠ v)).tail
    components := s.components ++ [ascending (v :: s.stack.takeWhile (· ≠ v))] }

/-- Look at one edge.  `low` is the least number seen so far on the stack from the node that the
edge leaves; a node that is new is searched first, with `visit`. -/
def edge (visit : Nat → Search → Search × Nat) (acc : Search × Nat) (w : Nat) : Search × Nat :=
  match acc.1.index? w with
  | none =>
    let r := visit w acc.1
    (r.1, min acc.2 r.2)
  | some j => if acc.1.stack.contains w then (acc.1, min acc.2 j) else acc

/-- Search from a new node.  The answer is the least number of a node on the stack that was found
from it.  `fuel` bounds the depth of the search. -/
def visit (g : CallGraph) : Nat → Nat → Search → Search × Nat
  | 0, _, s => (s, s.index.length)
  | fuel + 1, v, s =>
    let number := s.index.length
    let r := (g.successors v).foldl (edge (visit g fuel)) (s.enter v, number)
    if r.2 = number then (r.1.emit v, r.2) else r

end Search

/-- The state after a search from every node in ascending order.  The nodes on a path of the search
are distinct, so the number of nodes bounds its depth. -/
def search (g : CallGraph) : Search :=
  g.nodes.foldl
    (fun s v => if (s.index? v).isSome then s else (Search.visit g g.nodes.length v s).1) {}

/-- The strongly connected components, each in ascending order, callees before callers. -/
def components (g : CallGraph) : List (List Nat) := g.search.components

end Letrec.CallGraph
