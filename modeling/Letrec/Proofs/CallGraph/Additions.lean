import Mathlib
import Letrec.Proofs.CallGraph.Components

/-!
# Graphs built by additions, and the search without a bound

A call graph is made by adding nodes and edges to the empty graph, in any order.  What it is depends
only on which nodes and edges have been added (`mem_nodes_ofAdditions`, `edge_ofAdditions`), and so
do its components: `components_ofAdditions`.

The depth-first search is written with a bound on its depth.  `Visits`, `Scans` and `Sweeps` are the
rules of the search without a bound, so a derivation is a search that ends.  The bound that the
search is run with is never reached: what it computes is derived by the rules (`sweeps_search`), and
nothing else is (`Sweeps.unique`).
-/

namespace Letrec.CallGraph

/-! ### Additions -/

/-- A node or an edge that is added to a graph. -/
inductive Addition where
  | node (a : ℕ)
  | edge (a b : ℕ)
deriving DecidableEq, Repr

/-- Make an addition. -/
def add (g : CallGraph) : Addition → CallGraph
  | .node a => g.addNode a
  | .edge a b => g.addEdge a b

/-- The graph that additions to the empty graph make. -/
def ofAdditions (adds : List Addition) : CallGraph := adds.foldl add empty

/-- The number has been added as a node or as an end of an edge. -/
def Added (adds : List Addition) (a : ℕ) : Prop :=
  .node a ∈ adds ∨ (∃ b, .edge a b ∈ adds) ∨ ∃ b, .edge b a ∈ adds

lemma WellFormed.add {g : CallGraph} (h : g.WellFormed) (x : Addition) : (g.add x).WellFormed := by
  cases x with
  | node a => exact h.addNode a
  | edge a b => exact h.addEdge a b

lemma wellFormed_foldl_add (adds : List Addition) {g : CallGraph} (h : g.WellFormed) :
    (adds.foldl CallGraph.add g).WellFormed := by
  induction adds generalizing g with
  | nil => exact h
  | cons x adds ih => exact ih (h.add x)

lemma wellFormed_ofAdditions (adds : List Addition) : (ofAdditions adds).WellFormed :=
  wellFormed_foldl_add adds wellFormed_empty

lemma mem_nodes_foldl_add (adds : List Addition) (g : CallGraph) (a : ℕ) :
    a ∈ (adds.foldl add g).nodes ↔ Added adds a ∨ a ∈ g.nodes := by
  induction adds generalizing g with
  | nil => simp [Added]
  | cons x adds ih =>
    rw [List.foldl_cons, ih]
    cases x with
    | node b =>
      simp only [add, mem_nodes_addNode, Added, List.mem_cons, Addition.node.injEq, reduceCtorEq,
        false_or]
      tauto
    | edge b c =>
      simp only [add, mem_nodes_addEdge, Added, List.mem_cons, Addition.edge.injEq, reduceCtorEq,
        false_or, exists_or, exists_eq_right, exists_eq_left]
      tauto

lemma mem_nodes_ofAdditions (adds : List Addition) (a : ℕ) :
    a ∈ (ofAdditions adds).nodes ↔ Added adds a := by
  have hempty : empty.nodes = [] := rfl
  rw [ofAdditions, mem_nodes_foldl_add, hempty]
  simp

lemma edge_foldl_add (adds : List Addition) {g : CallGraph} (h : g.WellFormed) (a b : ℕ) :
    (adds.foldl add g).Edge a b ↔ .edge a b ∈ adds ∨ g.Edge a b := by
  induction adds generalizing g with
  | nil => simp
  | cons x adds ih =>
    rw [List.foldl_cons, ih (h.add x)]
    cases x with
    | node c => simp [add, edge_addNode h]
    | edge c d =>
      simp only [add, edge_addEdge h, List.mem_cons, Addition.edge.injEq]
      tauto

lemma edge_ofAdditions (adds : List Addition) (a b : ℕ) :
    (ofAdditions adds).Edge a b ↔ .edge a b ∈ adds := by
  have hempty : ¬ empty.Edge a b := by simp [Edge, successors, empty]
  rw [ofAdditions, edge_foldl_add adds wellFormed_empty]
  simp [hempty]

/-! ### The search without a bound -/

namespace Search

mutual

/-- A search from a new node that ends in this state and with this answer. -/
inductive Visits (g : CallGraph) : ℕ → Search → Search × ℕ → Prop
  | closed {v s r} : Scans g (g.successors v) (s.enter v, s.index.length) r →
      r.2 = s.index.length → Visits g v s (r.1.emit v, r.2)
  | «open» {v s r} : Scans g (g.successors v) (s.enter v, s.index.length) r →
      r.2 ≠ s.index.length → Visits g v s r

/-- A look at edges, to these nodes, that ends in this state and with this least number. -/
inductive Scans (g : CallGraph) : List ℕ → Search × ℕ → Search × ℕ → Prop
  | nil {r} : Scans g [] r r
  | new {w ws r r₁ r'} : r.1.index? w = none → Visits g w r.1 r₁ →
      Scans g ws (r₁.1, min r.2 r₁.2) r' → Scans g (w :: ws) r r'
  | reached {w ws r j r'} : r.1.index? w = some j →
      Scans g ws (if r.1.stack.contains w then (r.1, min r.2 j) else r) r' →
      Scans g (w :: ws) r r'

end

/-- A search from those of the nodes that have not been reached, that ends in this state. -/
inductive Sweeps (g : CallGraph) : List ℕ → Search → Search → Prop
  | nil {s} : Sweeps g [] s s
  | new {v vs s r s'} : s.index? v = none → Visits g v s r → Sweeps g vs r.1 s' →
      Sweeps g (v :: vs) s s'
  | reached {v vs s j s'} : s.index? v = some j → Sweeps g vs s s' → Sweeps g (v :: vs) s s'

variable {g : CallGraph}

mutual

lemma Visits.unique {v : ℕ} {s : Search} {r r' : Search × ℕ} :
    Visits g v s r → Visits g v s r' → r = r'
  | .closed h hlow, .closed h' _ => by
    obtain rfl := h.unique h'
    rfl
  | .closed h hlow, .open h' hlow' => by
    obtain rfl := h.unique h'
    exact absurd hlow hlow'
  | .open h hlow, .closed h' hlow' => by
    obtain rfl := h.unique h'
    exact absurd hlow' hlow
  | .open h _, .open h' _ => h.unique h'

lemma Scans.unique {ws : List ℕ} {r r' r'' : Search × ℕ} :
    Scans g ws r r' → Scans g ws r r'' → r' = r''
  | .nil, .nil => rfl
  | .new _ hv h, .new _ hv' h' => by
    obtain rfl := hv.unique hv'
    exact h.unique h'
  | .new hw _ _, .reached hw' _ => nomatch hw.symm.trans hw'
  | .reached hw _, .new hw' _ _ => nomatch hw.symm.trans hw'
  | .reached hw h, .reached hw' h' => by
    obtain rfl := Option.some.inj (hw.symm.trans hw')
    exact h.unique h'

end

lemma Sweeps.unique {vs : List ℕ} {s s' s'' : Search} (h : Sweeps g vs s s')
    (h' : Sweeps g vs s s'') : s' = s'' := by
  induction h with
  | nil =>
    cases h'
    rfl
  | new hv hvisit _ ih =>
    cases h' with
    | new _ hvisit' h' =>
      obtain rfl := hvisit.unique hvisit'
      exact ih h'
    | reached hv' _ => exact nomatch hv.symm.trans hv'
  | reached hv _ ih =>
    cases h' with
    | new hv' _ _ => exact nomatch hv.symm.trans hv'
    | reached _ h' => exact ih h'

/-- A search within the bound is one without, wherever a search from a new node can start. -/
def DerivesVisits (g : CallGraph) (fuel : ℕ) : Prop :=
  ∀ (path : List ℕ) (s : Search) (v : ℕ), Invariant g path s → s.index? v = none → v ∈ g.nodes →
    (∀ z ∈ path, g.Reaches z v) → g.nodes.length ≤ s.index.length + fuel →
    Visits g v s (visit g fuel v s)

lemma scans_foldl {fuel : ℕ} (hvisits : DerivesVisits g fuel) (hg : g.WellFormed) {path : List ℕ}
    {s : Search} {v : ℕ} (hpath : ∀ z ∈ path, g.Reaches z v)
    (hfuel : g.nodes.length ≤ s.index.length + (fuel + 1)) {done : List ℕ} {r : Search × ℕ}
    (h : Scanned g path s v done r) (ws : List ℕ) (hws : ∀ w ∈ ws, g.Edge v w) :
    Scans g ws r (ws.foldl (edge (visit g fuel)) r) := by
  induction ws generalizing done r with
  | nil => exact .nil
  | cons w ws ih =>
    have hvw : g.Edge v w := hws w List.mem_cons_self
    have hrest := ih (h.edge (visitsTo hg fuel) hg hvw hpath hfuel)
      (fun u hu => hws u (List.mem_cons_of_mem w hu))
    rw [List.foldl_cons]
    unfold edge at hrest ⊢
    cases hw : r.1.index? w with
    | none =>
      rw [hw] at hrest
      refine .new hw (hvisits (v :: path) r.1 w h.invariant hw (hg.closed v w hvw) ?_ ?_) hrest
      · intro z hz
        rcases List.mem_cons.1 hz with rfl | hz
        · exact Relation.ReflTransGen.single hvw
        · exact (hpath z hz).tail hvw
      · -- `v` itself has been reached since, which makes up for the depth
        have hlen := h.later.length_le
        rw [enter, List.length_cons] at hlen
        omega
    | some j =>
      rw [hw] at hrest
      exact .reached hw hrest

lemma derivesVisits (hg : g.WellFormed) (fuel : ℕ) : DerivesVisits g fuel := by
  induction fuel with
  | zero =>
    intro path s v hs hnew hv hpath hfuel
    -- all nodes but `v` would have been reached, and `v` is a node
    have hvisited := visitsTo hg 0 path s v hs hnew hv hpath hfuel
    obtain ⟨i, hi⟩ := hvisited.reached
    exact nomatch hnew.symm.trans hi
  | succ fuel ih =>
    intro path s v hs hnew hv hpath hfuel
    have hscans := scans_foldl ih hg hpath hfuel (scanned_nil hs hnew hv hpath) (g.successors v)
      (fun w hw => hw)
    rw [visit]
    split_ifs with hlow
    · exact .closed hscans hlow
    · exact .open hscans hlow

lemma sweeps_foldl (hg : g.WellFormed) (vs : List ℕ) (hvs : ∀ v ∈ vs, v ∈ g.nodes) {s : Search}
    (hs : Invariant g [] s) :
    Sweeps g vs s (vs.foldl
      (fun s v => if (s.index? v).isSome then s else (visit g g.nodes.length v s).1) s) := by
  induction vs generalizing s with
  | nil => exact .nil
  | cons v vs ih =>
    have hv : v ∈ g.nodes := hvs v List.mem_cons_self
    have hvs' : ∀ u ∈ vs, u ∈ g.nodes := fun u hu => hvs u (List.mem_cons_of_mem v hu)
    rw [List.foldl_cons]
    cases hindex : s.index? v with
    | none =>
      have hfuel : g.nodes.length ≤ s.index.length + g.nodes.length := Nat.le_add_left _ _
      have hvisited := visitsTo hg _ [] s v hs hindex hv (by simp) hfuel
      exact .new hindex (derivesVisits hg _ [] s v hs hindex hv (by simp) hfuel)
        (ih hvs' hvisited.invariant)
    | some j => exact .reached hindex (ih hvs' hs)

/-- The search ends by its own rules, not by its bound. -/
lemma sweeps_search (hg : g.WellFormed) : Sweeps g g.nodes {} g.search :=
  sweeps_foldl hg g.nodes (fun _ hv => hv) (invariant_init g)

end Search

/-! ### Components -/

lemma mem_getElem_unique {cs : List (List ℕ)} (h : cs.flatten.Nodup) {i j : ℕ} (hi : i < cs.length)
    (hj : j < cs.length) {v : ℕ} (hvi : v ∈ cs[i]) (hvj : v ∈ cs[j]) : i = j := by
  have hdisjoint := (List.nodup_flatten.1 h).2
  by_contra hne
  rcases lt_or_gt_of_ne hne with hlt | hlt
  · exact List.pairwise_iff_getElem.1 hdisjoint i j hi hj hlt hvi hvj
  · exact List.pairwise_iff_getElem.1 hdisjoint j i hj hi hlt hvj hvi

/-- An edge between different components leads into the earlier one. -/
lemma lt_of_edge {g : CallGraph} (hg : g.WellFormed) {i j : ℕ} (hi : i < g.components.length)
    (hj : j < g.components.length) (hij : i ≠ j) {u v : ℕ} (hu : u ∈ g.components[i])
    (hv : v ∈ g.components[j]) (huv : g.Edge u v) : j < i := by
  have hsplit : g.components
      = g.components.take i ++ g.components[i] :: g.components.drop (i + 1) := by
    rw [← List.drop_eq_getElem_cons hi, List.take_append_drop]
  rcases calleesFirst_components hg _ _ _ hsplit u hu v huv with hvi | hvb
  · exact absurd (mem_getElem_unique (nodup_flatten_components hg) hi hj hvi hv) hij
  · obtain ⟨c, hc, hvc⟩ := List.mem_flatten.1 hvb
    obtain ⟨k, hk, rfl⟩ := List.mem_iff_getElem.1 hc
    rw [List.length_take] at hk
    rw [List.getElem_take] at hvc
    obtain rfl := mem_getElem_unique (nodup_flatten_components hg) (by omega) hj hvc hv
    omega

/-- However a graph has been built, the search for its components ends, and they are a partition of
what has been added: every node is in one component, at one position; no component is empty, and
each ascends.  Two nodes share a component if and only if each can be reached from the other by
edges that have been added, and an edge between different components leads into the earlier one. -/
theorem components_ofAdditions (adds : List Addition) :
    (∀ s, Search.Sweeps (ofAdditions adds) (ofAdditions adds).nodes {} s ↔
      s = (ofAdditions adds).search) ∧
    (∀ v, (∃ i, ∃ hi : i < (ofAdditions adds).components.length,
      v ∈ (ofAdditions adds).components[i]) ↔ Added adds v) ∧
    (ofAdditions adds).components.flatten.Nodup ∧
    (∀ c ∈ (ofAdditions adds).components, c ≠ [] ∧ c.Pairwise (· < ·)) ∧
    (∀ u v, Added adds u → Added adds v →
      ((∃ c ∈ (ofAdditions adds).components, u ∈ c ∧ v ∈ c) ↔
        Relation.ReflTransGen (fun a b => .edge a b ∈ adds) u v ∧
          Relation.ReflTransGen (fun a b => .edge a b ∈ adds) v u)) ∧
    ∀ i j (hi : i < (ofAdditions adds).components.length)
      (hj : j < (ofAdditions adds).components.length), i ≠ j →
      ∀ u ∈ (ofAdditions adds).components[i], ∀ v ∈ (ofAdditions adds).components[j],
        .edge u v ∈ adds → j < i := by
  have hg := wellFormed_ofAdditions adds
  have hedge : (ofAdditions adds).Edge = fun a b => .edge a b ∈ adds := by
    funext a b
    exact propext (edge_ofAdditions adds a b)
  have hmem : ∀ v, v ∈ (ofAdditions adds).components.flatten ↔ Added adds v := fun v =>
    (mem_flatten_components hg).trans (mem_nodes_ofAdditions adds v)
  have hcomplete := complete_components hg
  refine ⟨fun s => ⟨fun hs => hs.unique (Search.sweeps_search hg), ?_⟩, fun v => ?_,
    hcomplete.nodup, fun c hc => ⟨hcomplete.ne_nil c hc, hcomplete.sorted c hc⟩,
    fun u v hu _ => ?_, fun i j hi hj hij u hu v hv huv => ?_⟩
  · rintro rfl
    exact Search.sweeps_search hg
  · rw [← hmem v, List.mem_flatten]
    constructor
    · rintro ⟨i, hi, hv⟩
      exact ⟨_, List.getElem_mem hi, hv⟩
    · rintro ⟨c, hc, hv⟩
      obtain ⟨i, hi, rfl⟩ := List.mem_iff_getElem.1 hc
      exact ⟨i, hi, hv⟩
  · rw [← hedge]
    constructor
    · rintro ⟨c, hc, huc, hvc⟩
      exact (mutual_iff_mem_component hg hc huc).2 hvc
    · intro hmutual
      obtain ⟨c, hc, huc⟩ := List.mem_flatten.1 ((hmem u).2 hu)
      exact ⟨c, hc, huc, (mutual_iff_mem_component hg hc huc).1 hmutual⟩
  · exact lt_of_edge hg hi hj hij hu hv ((edge_ofAdditions adds u v).2 huv)

end Letrec.CallGraph
