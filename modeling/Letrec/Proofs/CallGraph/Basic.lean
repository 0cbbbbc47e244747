import Mathlib
import Letrec.CallGraph
import Letrec.Proofs.Lookup

/-!
# Edges and paths of a call graph

A call graph is built by adding nodes and edges, one at a time.  Whatever the order, the nodes stay
in strictly ascending order and every edge ends in a node: the graph is `WellFormed`.  The lemmas
of this file say what adding a node or an edge does to the nodes and to the edges, so that later
files need not look at adjacency lists.

`Reaches` is the existence of a path and `Mutual` its symmetric part.
-/

namespace Letrec

/-! ### Ascending lists -/

@[simp] lemma mem_insertAscending {a b : ℕ} {l : List ℕ} :
    b ∈ insertAscending a l ↔ b = a ∨ b ∈ l := by
  induction l with
  | nil => simp [insertAscending]
  | cons c l ih =>
    rw [insertAscending]
    split_ifs with h₁ h₂
    · simp
    · subst h₂
      simp
    · simp only [List.mem_cons, ih]
      tauto

lemma insertAscending_sorted {a : ℕ} {l : List ℕ} (h : l.Pairwise (· < ·)) :
    (insertAscending a l).Pairwise (· < ·) := by
  induction l with
  | nil => simp [insertAscending]
  | cons c l ih =>
    rw [List.pairwise_cons] at h
    rw [insertAscending]
    split_ifs with h₁ h₂
    · refine List.pairwise_cons.2 ⟨?_, List.pairwise_cons.2 h⟩
      intro b hb
      rcases List.mem_cons.1 hb with rfl | hb
      · exact h₁
      · exact h₁.trans (h.1 b hb)
    · exact List.pairwise_cons.2 h
    · refine List.pairwise_cons.2 ⟨?_, ih h.2⟩
      intro b hb
      rcases mem_insertAscending.1 hb with rfl | hb
      · omega
      · exact h.1 b hb

@[simp] lemma mem_ascending {a : ℕ} {l : List ℕ} : a ∈ ascending l ↔ a ∈ l := by
  induction l with
  | nil => simp [ascending]
  | cons b l ih =>
    rw [ascending, List.foldr_cons, ← ascending, mem_insertAscending, ih, List.mem_cons]

lemma ascending_sorted (l : List ℕ) : (ascending l).Pairwise (· < ·) := by
  induction l with
  | nil => simp [ascending]
  | cons b l ih =>
    rw [ascending, List.foldr_cons, ← ascending]
    exact insertAscending_sorted ih

lemma ascending_nodup (l : List ℕ) : (ascending l).Nodup :=
  (ascending_sorted l).imp (fun h => h.ne)

namespace CallGraph

/-! ### Adjacency lists -/

lemma map_fst_alter (a : ℕ) (f : List ℕ → List ℕ) (l : List (ℕ × List ℕ)) :
    (alter a f l).map Prod.fst = insertAscending a (l.map Prod.fst) := by
  induction l with
  | nil => simp [alter, insertAscending]
  | cons p l ih =>
    obtain ⟨b, ts⟩ := p
    rw [alter, List.map_cons, insertAscending]
    split_ifs with h₁ h₂
    · simp
    · simp
    · simp [ih]

lemma lookup_eq_none_of_lt {a : ℕ} {l : List (ℕ × List ℕ)}
    (h : ∀ b ∈ l.map Prod.fst, a < b) : l.lookup a = none :=
  lookup_eq_none_iff_notMem.2 fun ha => (h a ha).false

lemma lookup_alter {a b : ℕ} {f : List ℕ → List ℕ} {l : List (ℕ × List ℕ)}
    (h : (l.map Prod.fst).Pairwise (· < ·)) :
    (alter a f l).lookup b = if b = a then some (f ((l.lookup a).getD [])) else l.lookup b := by
  induction l with
  | nil => rw [alter, lookup_cons_ite, List.lookup_nil, List.lookup_nil, Option.getD_none]
  | cons p l ih =>
    obtain ⟨c, ts⟩ := p
    rw [List.map_cons, List.pairwise_cons] at h
    rw [alter]
    by_cases h₁ : a < c
    · -- the node comes before all others
      have hn : ((c, ts) :: l).lookup a = none :=
        lookup_eq_none_of_lt (List.forall_mem_cons.2 ⟨h₁, fun d hd => h₁.trans (h.1 d hd)⟩)
      rw [if_pos h₁, lookup_cons_ite, hn, Option.getD_none]
    · by_cases h₂ : a = c
      · subst h₂
        rw [if_neg h₁, if_pos rfl]
        simp only [lookup_cons_ite]
        split_ifs <;> simp
      · rw [if_neg h₁, if_neg h₂]
        simp only [lookup_cons_ite, ih h.2, if_neg h₂]
        split_ifs with hc hb
        · exact absurd (hb.symm.trans hc) h₂
        · rfl
        · rfl
        · rfl

/-! ### Nodes, edges and paths -/

/-- There is an edge from `a` to `b`. -/
def Edge (g : CallGraph) (a b : ℕ) : Prop := b ∈ g.successors a

/-- There is a path, possibly without an edge. -/
abbrev Reaches (g : CallGraph) : ℕ → ℕ → Prop := Relation.ReflTransGen g.Edge

/-- Two nodes reach each other. -/
def Mutual (g : CallGraph) (a b : ℕ) : Prop := g.Reaches a b ∧ g.Reaches b a

/-- The nodes ascend and every edge ends in a node. -/
structure WellFormed (g : CallGraph) : Prop where
  sorted : g.nodes.Pairwise (· < ·)
  closed : ∀ a b, g.Edge a b → b ∈ g.nodes

@[simp] lemma contains_iff {g : CallGraph} {a : ℕ} : g.contains a = true ↔ a ∈ g.nodes := by
  simp [contains]

lemma hasSelfLoop_iff {g : CallGraph} {a : ℕ} : g.hasSelfLoop a = true ↔ g.Edge a a := by
  simp [hasSelfLoop, Edge]

lemma wellFormed_empty : empty.WellFormed where
  sorted := by simp [empty, nodes]
  closed := by
    intro a b h
    simp [empty, Edge, successors] at h

/-! ### Adding nodes and edges -/

@[simp] lemma mem_nodes_addNode {g : CallGraph} {a b : ℕ} :
    b ∈ (g.addNode a).nodes ↔ b = a ∨ b ∈ g.nodes := by
  rw [nodes, addNode, map_fst_alter, mem_insertAscending, nodes]

lemma successors_addNode {g : CallGraph} (h : g.WellFormed) (a b : ℕ) :
    (g.addNode a).successors b = g.successors b := by
  rw [successors, addNode, lookup_alter h.sorted, successors]
  split_ifs with hb
  · subst hb
    simp
  · rfl

@[simp] lemma edge_addNode {g : CallGraph} (h : g.WellFormed) {a b c : ℕ} :
    (g.addNode a).Edge b c ↔ g.Edge b c := by
  rw [Edge, successors_addNode h, Edge]

lemma WellFormed.addNode {g : CallGraph} (h : g.WellFormed) (a : ℕ) : (g.addNode a).WellFormed where
  sorted := by
    rw [nodes, CallGraph.addNode, map_fst_alter]
    exact insertAscending_sorted h.sorted
  closed := by
    intro b c hbc
    exact mem_nodes_addNode.2 (Or.inr (h.closed b c ((edge_addNode h).1 hbc)))

@[simp] lemma mem_nodes_addEdge {g : CallGraph} {a b c : ℕ} :
    c ∈ (g.addEdge a b).nodes ↔ c = a ∨ c = b ∨ c ∈ g.nodes := by
  rw [nodes, addEdge, map_fst_alter, mem_insertAscending, ← nodes, mem_nodes_addNode]

lemma edge_addEdge {g : CallGraph} (h : g.WellFormed) {a b c d : ℕ} :
    (g.addEdge a b).Edge c d ↔ (c = a ∧ d = b) ∨ g.Edge c d := by
  have hs : ((g.addNode b).adjacency.map Prod.fst).Pairwise (· < ·) := (h.addNode b).sorted
  have hsucc : (g.addEdge a b).successors c
      = if c = a then insertAscending b (g.successors a) else g.successors c := by
    rw [successors, addEdge, lookup_alter hs]
    split_ifs with hc
    · rw [Option.getD_some, ← successors, successors_addNode h]
    · rw [← successors, successors_addNode h]
  rw [Edge, hsucc]
  split_ifs with hc
  · subst hc
    simp [Edge]
  · simp [Edge, hc]

lemma WellFormed.addEdge {g : CallGraph} (h : g.WellFormed) (a b : ℕ) :
    (g.addEdge a b).WellFormed where
  sorted := by
    rw [nodes, CallGraph.addEdge, map_fst_alter]
    exact insertAscending_sorted (h.addNode b).sorted
  closed := by
    intro c d hcd
    rcases (edge_addEdge h).1 hcd with ⟨-, rfl⟩ | hcd
    · simp
    · simp [h.closed c d hcd]

/-! ### Adding several -/

lemma foldl_addNode {α : Type*} (f : α → ℕ) (l : List α) {g : CallGraph} (h : g.WellFormed) :
    (l.foldl (fun g m => g.addNode (f m)) g).WellFormed ∧
      (∀ a, a ∈ (l.foldl (fun g m => g.addNode (f m)) g).nodes ↔ a ∈ l.map f ∨ a ∈ g.nodes) ∧
      ∀ a b, (l.foldl (fun g m => g.addNode (f m)) g).Edge a b ↔ g.Edge a b := by
  induction l generalizing g with
  | nil => exact ⟨h, by simp, by simp⟩
  | cons m l ih =>
    obtain ⟨h₁, h₂, h₃⟩ := ih (h.addNode (f m))
    refine ⟨h₁, fun a => ?_, fun a b => ?_⟩
    · rw [List.foldl_cons, h₂, mem_nodes_addNode, List.map_cons, List.mem_cons]
      tauto
    · rw [List.foldl_cons, h₃, edge_addNode h]

lemma foldl_addEdge (a : ℕ) (l : List ℕ) {g : CallGraph} (h : g.WellFormed) (ha : a ∈ g.nodes)
    (hl : ∀ b ∈ l, b ∈ g.nodes) :
    (l.foldl (·.addEdge a ·) g).WellFormed ∧
      (∀ c, c ∈ (l.foldl (·.addEdge a ·) g).nodes ↔ c ∈ g.nodes) ∧
      ∀ c d, (l.foldl (·.addEdge a ·) g).Edge c d ↔ (c = a ∧ d ∈ l) ∨ g.Edge c d := by
  induction l generalizing g with
  | nil => exact ⟨h, by simp, by simp⟩
  | cons b l ih =>
    have hn : ∀ c, c ∈ (g.addEdge a b).nodes ↔ c ∈ g.nodes := by
      intro c
      rw [mem_nodes_addEdge]
      constructor
      · rintro (rfl | rfl | hc)
        · exact ha
        · exact hl c (by simp)
        · exact hc
      · exact fun hc => Or.inr (Or.inr hc)
    obtain ⟨h₁, h₂, h₃⟩ := ih (h.addEdge a b) ((hn a).2 ha)
      (fun c hc => (hn c).2 (hl c (List.mem_cons_of_mem b hc)))
    refine ⟨h₁, fun c => ?_, fun c d => ?_⟩
    · rw [List.foldl_cons, h₂, hn]
    · rw [List.foldl_cons, h₃, edge_addEdge h, List.mem_cons]
      tauto

end CallGraph

end Letrec
