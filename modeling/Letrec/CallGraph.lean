/-!
# Call graphs

A directed graph on numbers: the nodes are definitions, an edge says that the body of one refers to
the other.  Nodes are kept in ascending order, and so are the successors of every node, so the
graph does not remember in which order it was built.
-/

namespace Letrec

/-- Insert a number into an ascending list, unless it is there. -/
def insertAscending (a : Nat) : List Nat → List Nat
  | [] => [a]
  | b :: bs =>
    if a < b then a :: b :: bs
    else if a = b then b :: bs
    else b :: insertAscending a bs

/-- The numbers of a list in ascending order, each once. -/
def ascending (as : List Nat) : List Nat := as.foldr insertAscending []

/-- A directed graph on numbers. -/
structure CallGraph where
  /-- The nodes in ascending order, each with its successors in ascending order. -/
  adjacency : List (Nat × List Nat) := []
deriving DecidableEq, Repr, Inhabited

namespace CallGraph

/-- The graph without nodes. -/
def empty : CallGraph := {}

/-- Change the successors of a node in an adjacency list, adding the node if it is missing. -/
def alter (a : Nat) (f : List Nat → List Nat) : List (Nat × List Nat) → List (Nat × List Nat)
  | [] => [(a, f [])]
  | (b, ts) :: rest =>
    if a < b then (a, f []) :: (b, ts) :: rest
    else if a = b then (b, f ts) :: rest
    else (b, ts) :: alter a f rest

/-- Add a node. -/
def addNode (g : CallGraph) (a : Nat) : CallGraph := ⟨alter a id g.adjacency⟩

/-- Add an edge and, if needed, its ends. -/
def addEdge (g : CallGraph) (a b : Nat) : CallGraph :=
  ⟨alter a (insertAscending b) (g.addNode b).adjacency⟩

/-- The nodes in ascending order. -/
def nodes (g : CallGraph) : List Nat := g.adjacency.map Prod.fst

/-- Whether a number is a node. -/
def contains (g : CallGraph) (a : Nat) : Bool := g.nodes.contains a

/-- The successors of a node in ascending order. -/
def successors (g : CallGraph) (a : Nat) : List Nat := (g.adjacency.lookup a).getD []

/-- Whether a node has an edge to itself. -/
def hasSelfLoop (g : CallGraph) (a : Nat) : Bool := (g.successors a).contains a

end CallGraph

end Letrec
