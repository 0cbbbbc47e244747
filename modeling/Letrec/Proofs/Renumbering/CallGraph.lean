import Mathlib
import Letrec.CallGraph.Components
import Letrec.Proofs.Lookup

/-!
# Renumbering a call graph

The nodes of a call graph are numbers, and their order decides in which order the search visits
them.  Numbers that are changed by a strictly monotone function are compared as before, so building
the graph, the search and its components all commute with such a change.  Main result:
`CallGraph.components_map`.
-/

namespace Letrec

variable {f : ℕ → ℕ}

/-! ### Lists of numbers -/

section Lists

variable (hf : StrictMono f)

include hf

lemma insertAscending_map (a : ℕ) (l : List ℕ) :
    insertAscending (f a) (l.map f) = (insertAscending a l).map f := by
  induction l with
  | nil => rfl
  | cons b l ih =>
    rw [List.map_cons, insertAscending, insertAscending]
    simp only [hf.lt_iff_lt, hf.injective.eq_iff, ih]
    split_ifs <;> rfl

lemma ascending_map (l : List ℕ) : ascending (l.map f) = (ascending l).map f := by
  induction l with
  | nil => rfl
  | cons a l ih =>
    show insertAscending (f a) (ascending (l.map f)) = (insertAscending a (ascending l)).map f
    rw [ih, insertAscending_map hf]

lemma contains_map_map (a : ℕ) (l : List ℕ) : (l.map f).contains (f a) = l.contains a := by
  rw [Bool.eq_iff_iff, List.contains_iff_mem, List.contains_iff_mem,
    List.mem_map_of_injective hf.injective]

end Lists

namespace CallGraph

/-- The graph with other numbers for its nodes. -/
def map (f : ℕ → ℕ) (g : CallGraph) : CallGraph := ⟨g.adjacency.map (Prod.map f (List.map f))⟩

variable (hf : StrictMono f)

include hf

/-! ### Building a graph -/

lemma alter_map {u u' : List ℕ → List ℕ} (hu : ∀ ts, u' (ts.map f) = (u ts).map f) (a : ℕ)
    (l : List (ℕ × List ℕ)) :
    alter (f a) u' (l.map (Prod.map f (List.map f)))
      = (alter a u l).map (Prod.map f (List.map f)) := by
  have hnil : u' [] = (u []).map f := hu []
  induction l with
  | nil => simp [alter, hnil]
  | cons p l ih =>
    obtain ⟨b, ts⟩ := p
    rw [List.map_cons, Prod.map_apply, alter, alter]
    simp only [hf.lt_iff_lt, hf.injective.eq_iff, ih, hnil, hu]
    split_ifs <;> rfl

lemma addNode_map (g : CallGraph) (a : ℕ) : (g.map f).addNode (f a) = (g.addNode a).map f := by
  have hid : ∀ ts : List ℕ, id (ts.map f) = (id ts).map f := fun _ => rfl
  exact congrArg CallGraph.mk (alter_map hf hid a g.adjacency)

lemma addEdge_map (g : CallGraph) (a b : ℕ) :
    (g.map f).addEdge (f a) (f b) = (g.addEdge a b).map f := by
  rw [addEdge, addNode_map hf, map, alter_map hf fun ts => insertAscending_map hf b ts]
  rfl

/-! ### Reading a graph -/

omit hf in
lemma nodes_map (g : CallGraph) : (g.map f).nodes = g.nodes.map f := by
  rw [nodes, nodes, map, List.map_map, List.map_map]
  rfl

lemma contains_map (g : CallGraph) (a : ℕ) : (g.map f).contains (f a) = g.contains a := by
  rw [contains, nodes_map, contains_map_map hf, contains]

lemma successors_map (g : CallGraph) (a : ℕ) :
    (g.map f).successors (f a) = (g.successors a).map f := by
  rw [successors, map, lookup_map_map hf.injective, successors]
  cases g.adjacency.lookup a <;> rfl

lemma hasSelfLoop_map (g : CallGraph) (a : ℕ) : (g.map f).hasSelfLoop (f a) = g.hasSelfLoop a := by
  rw [hasSelfLoop, successors_map hf, contains_map_map hf, hasSelfLoop]

/-! ### The search -/

namespace Search

/-- The state of the search with other numbers for the nodes. -/
def map (f : ℕ → ℕ) (s : Search) : Search where
  index := s.index.map (Prod.map f id)
  stack := s.stack.map f
  components := s.components.map (List.map f)

omit hf in
lemma length_index_map (s : Search) : (s.map f).index.length = s.index.length := List.length_map _

lemma index?_map (s : Search) (v : ℕ) : (s.map f).index? (f v) = s.index? v := by
  rw [index?, map, lookup_map_map hf.injective, Option.map_id, index?]
  rfl

omit hf in
lemma enter_map (s : Search) (v : ℕ) : (s.map f).enter (f v) = (s.enter v).map f := by
  rw [enter, length_index_map]
  rfl

lemma emit_map (s : Search) (v : ℕ) : (s.map f).emit (f v) = (s.emit v).map f := by
  have hne : (fun a => decide (a ≠ f v)) ∘ f = fun a => decide (a ≠ v) := by
    funext a
    simp [hf.injective.eq_iff]
  simp only [emit, map, List.dropWhile_map, List.takeWhile_map, hne, List.map_append,
    List.map_tail, List.map_cons, List.map_nil, ← ascending_map hf]

/-- Looking at an edge commutes with the change of numbers if searching a new node does. -/
lemma edge_map {visit visit' : ℕ → Search → Search × ℕ}
    (hvisit : ∀ v s, visit' (f v) (s.map f) = Prod.map (map f) id (visit v s)) (acc : Search × ℕ)
    (w : ℕ) : edge visit' (Prod.map (map f) id acc) (f w)
      = Prod.map (map f) id (edge visit acc w) := by
  obtain ⟨s, low⟩ := acc
  have hstack : (s.map f).stack.contains (f w) = s.stack.contains w :=
    contains_map_map hf w s.stack
  simp only [edge, Prod.map_fst, Prod.map_snd, id_eq, index?_map hf, hvisit, hstack]
  cases s.index? w with
  | none => rfl
  | some j =>
    dsimp only
    split_ifs <;> rfl

lemma visit_map (g : CallGraph) (fuel v : ℕ) (s : Search) :
    visit (g.map f) fuel (f v) (s.map f) = Prod.map (map f) id (visit g fuel v s) := by
  induction fuel generalizing v s with
  | zero =>
    rw [visit, visit, length_index_map]
    rfl
  | succ fuel ih =>
    have hfold : ((g.map f).successors (f v)).foldl (edge (visit (g.map f) fuel))
        ((s.map f).enter (f v), s.index.length)
        = Prod.map (map f) id
          ((g.successors v).foldl (edge (visit g fuel)) (s.enter v, s.index.length)) := by
      rw [successors_map hf, List.foldl_map, enter_map]
      show List.foldl _ (Prod.map (map f) id (s.enter v, s.index.length)) _ = _
      exact List.foldl_hom (Prod.map (map f) id) fun acc w => edge_map hf ih acc w
    rw [visit, visit]
    simp only [length_index_map, hfold, Prod.map_snd, Prod.map_fst, id_eq, emit_map hf]
    split_ifs <;> rfl

end Search

lemma search_map (g : CallGraph) : (g.map f).search = g.search.map f := by
  rw [search, search, nodes_map, List.foldl_map, List.length_map]
  show List.foldl _ (Search.map f {}) _ = _
  refine List.foldl_hom (Search.map f) fun s v => ?_
  simp only [Search.index?_map hf, Search.visit_map hf]
  split_ifs <;> rfl

/-- The components of a renumbered graph are those of the graph, renumbered: they come in the same
order, and so do their members. -/
lemma components_map (g : CallGraph) : (g.map f).components = g.components.map (List.map f) := by
  rw [components, search_map hf]
  rfl

end CallGraph

end Letrec
