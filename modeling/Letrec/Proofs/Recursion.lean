import Mathlib
import Letrec.Recursion
import Letrec.Proofs.CallGraph.Components
import Letrec.Proofs.Scope.Groups

/-!
# Classification is lexical recursion

The call graph of a grouping is built from the identifiers of its definitions, with their names
looked up in the finished tree.  `callGraph_edge_iff` says that it is the relation "contains an
identifier that denotes" restricted to the grouping, neither more nor less.

From there on a definition is found by its number alone: it is a node of the graph of its own
grouping and of no other (`flags_eq`, `components_eq`), so what the components say of a node is what
the classification says of the definition.  `classify_lexical` puts this together for every
definition at every depth.
-/

namespace Letrec

namespace ScopeTree

/-! ### References between definitions -/

/-- The number of a definition is that of the owner of its parameter scope. -/
def Numbers (t : ScopeTree) (id : DispatchId) (d : Definition Scoped) : Prop :=
  ∃ b, t.ownerOf? d.ann.scope = some b ∧ b.id = id

/-- An identifier somewhere in the body of `d` denotes the definition of that number. -/
def Mentions (t : ScopeTree) (d : Definition Scoped) (id : DispatchId) : Prop :=
  ∃ i, (Expr.ident i).Within d.body ∧ t.lookup i.ann.scope i.name = some (.binding id)

/-- One definition of the grouping `ds` mentions another one, or itself. -/
def RefersWithin (t : ScopeTree) (ds : List (Definition Scoped)) (id id' : DispatchId) : Prop :=
  ∃ d ∈ ds, ∃ d' ∈ ds, t.Numbers id d ∧ t.Numbers id' d' ∧ t.Mentions d id'

lemma mem_references_iff {t : ScopeTree} {d : Definition Scoped} {id : DispatchId} :
    id ∈ t.references d.body ↔ t.Mentions d id := by
  rw [references, List.mem_filterMap]
  constructor
  · rintro ⟨i, hi, hid⟩
    refine ⟨i, (Expr.mem_idents_iff i d.body).1 hi, ?_⟩
    show t.denotes i = _
    split at hid
    · rename_i heq
      rw [heq, Option.some.inj hid]
    · exact absurd hid (by simp)
  · rintro ⟨i, hi, hid⟩
    change t.denotes i = _ at hid
    exact ⟨i, (Expr.mem_idents_iff i d.body).2 hi, by rw [hid]⟩

end ScopeTree

namespace Group

variable {t : ScopeTree} {g : ScopeId} {ids : List DispatchId} {ds : List (Definition Scoped)}

lemma numbers_iff (h : Group t g ids ds) {id : DispatchId} {d : Definition Scoped} (hd : d ∈ ds) :
    t.Numbers id d ↔ (id, d) ∈ ids.zip ds := by
  obtain ⟨id', hd'⟩ := exists_mem_zip_of_mem_right h.length hd
  have howner := (h.defs.of_mem_zip hd').ownerOf?
  constructor
  · rintro ⟨b, hb, rfl⟩
    rw [howner, Option.some.injEq] at hb
    subst hb
    exact hd'
  · intro hid
    exact ⟨_, (h.defs.of_mem_zip hid).ownerOf?, rfl⟩

lemma eq_of_mem_zip (h : Group t g ids ds) {id : DispatchId} {d d' : Definition Scoped}
    (hd : (id, d) ∈ ids.zip ds) (hd' : (id, d') ∈ ids.zip ds) : d = d' := by
  have hnodup : ((ids.zip ds).map Prod.fst).Nodup := by
    rw [List.map_fst_zip h.length.le]
    exact h.nodup
  exact (Prod.mk.inj (List.inj_on_of_nodup_map hnodup hd hd' rfl)).2

/-- The numbers of a grouping, in the order of its definitions. -/
lemma numbered_eq (h : DefsWellScoped t g ids ds) : t.numbered ds = ids.zip ds := by
  induction h using DefsWellScoped.induction with
  | nil => simp [ScopeTree.numbered]
  | cons id d ids ds hd hds ih =>
    rw [ScopeTree.numbered] at ih
    rw [ScopeTree.numbered, List.filterMap_cons, hd.ownerOf?, Option.map_some, ih,
      List.zip_cons_cons]
    rfl

end Group

/-! ### The call graph of a grouping -/

section CallGraph

variable {t : ScopeTree}

/-- Adding the references of some definitions to a graph that has all nodes. -/
lemma foldl_references {nodes : CallGraph} (ms : List (DispatchId × Definition Scoped))
    {graph : CallGraph} (hgraph : graph.WellFormed)
    (hnodes : ∀ a, a ∈ graph.nodes ↔ a ∈ nodes.nodes) (hms : ∀ m ∈ ms, m.1 ∈ nodes.nodes) :
    let result := ms.foldl (fun g m =>
      ((t.references m.2.body).filter nodes.contains).foldl (·.addEdge m.1 ·) g) graph
    result.WellFormed ∧ (∀ a, a ∈ result.nodes ↔ a ∈ nodes.nodes) ∧
      ∀ a b, result.Edge a b ↔
        (∃ d, (a, d) ∈ ms ∧ t.Mentions d b ∧ b ∈ nodes.nodes) ∨ graph.Edge a b := by
  induction ms generalizing graph with
  | nil => exact ⟨hgraph, hnodes, by simp⟩
  | cons m ms ih =>
    obtain ⟨id, d⟩ := m
    obtain ⟨h₁, h₂, h₃⟩ := CallGraph.foldl_addEdge id
      ((t.references d.body).filter nodes.contains) hgraph
      ((hnodes id).2 (hms _ List.mem_cons_self))
      (fun b hb => (hnodes b).2 (CallGraph.contains_iff.1 (List.mem_filter.1 hb).2))
    obtain ⟨h₄, h₅, h₆⟩ := ih h₁ (fun a => (h₂ a).trans (hnodes a))
      (fun m hm => hms m (List.mem_cons_of_mem _ hm))
    refine ⟨h₄, h₅, fun a b => ?_⟩
    rw [List.foldl_cons, h₆, h₃, List.mem_filter, CallGraph.contains_iff,
      ScopeTree.mem_references_iff]
    simp only [List.mem_cons, Prod.mk.injEq]
    constructor
    · rintro (⟨d', hd', hb⟩ | ⟨rfl, hb⟩ | hedge)
      · exact Or.inl ⟨d', Or.inr hd', hb⟩
      · exact Or.inl ⟨d, Or.inl ⟨rfl, rfl⟩, hb⟩
      · exact Or.inr hedge
    · rintro (⟨d', ⟨rfl, rfl⟩ | hd', hb⟩ | hedge)
      · exact Or.inr (Or.inl ⟨rfl, hb⟩)
      · exact Or.inl ⟨d', hd', hb⟩
      · exact Or.inr (Or.inr hedge)

variable {g : ScopeId} {ids : List DispatchId} {ds : List (Definition Scoped)}
  (h : Group t g ids ds)

include h

lemma callGraph_wellFormed : (t.callGraph ds).WellFormed ∧
    (∀ a, a ∈ (t.callGraph ds).nodes ↔ a ∈ ids) ∧
    ∀ a b, (t.callGraph ds).Edge a b ↔ ∃ d, (a, d) ∈ ids.zip ds ∧ t.Mentions d b ∧ b ∈ ids := by
  obtain ⟨h₁, h₂, h₃⟩ :=
    CallGraph.foldl_addNode Prod.fst (t.numbered ds) CallGraph.wellFormed_empty
  have hfst : (ids.zip ds).map Prod.fst = ids := List.map_fst_zip h.length.le
  rw [Group.numbered_eq h.defs] at h₁ h₂ h₃
  rw [hfst] at h₂
  have hnodes : ∀ a, a ∈ ((ids.zip ds).foldl (fun g m => g.addNode m.1) CallGraph.empty).nodes ↔
      a ∈ ids := by
    intro a
    rw [h₂ a]
    simp [CallGraph.nodes, CallGraph.empty]
  obtain ⟨h₄, h₅, h₆⟩ := foldl_references (t := t) (ids.zip ds) h₁ (fun a => Iff.rfl)
    (fun m hm => (hnodes m.1).2 (List.of_mem_zip hm).1)
  rw [ScopeTree.callGraph, Group.numbered_eq h.defs]
  refine ⟨h₄, fun a => (h₅ a).trans (hnodes a), fun a b => (h₆ a b).trans ?_⟩
  have hempty : ¬ CallGraph.empty.Edge a b := by
    simp [CallGraph.Edge, CallGraph.successors, CallGraph.empty]
  simp only [hnodes, h₃, hempty, or_false]

/-- An edge is a reference of one definition of the grouping to another. -/
theorem callGraph_edge_iff {a b : ℕ} : (t.callGraph ds).Edge a b ↔ t.RefersWithin ds a b := by
  rw [(callGraph_wellFormed h).2.2]
  constructor
  · rintro ⟨d, hd, hm, hb⟩
    obtain ⟨d', hd'⟩ := exists_mem_zip_of_mem_left h.length hb
    have hmem := (List.of_mem_zip hd).2
    have hmem' := (List.of_mem_zip hd').2
    exact ⟨d, hmem, d', hmem', (h.numbers_iff hmem).2 hd, (h.numbers_iff hmem').2 hd', hm⟩
  · rintro ⟨d, hd, d', hd', ha, hb, hm⟩
    exact ⟨d, (h.numbers_iff hd).1 ha, hm, (List.of_mem_zip ((h.numbers_iff hd').1 hb)).1⟩

end CallGraph

/-! ### The groupings of a classification -/

mutual

lemma groupingsIn_eq (t : ScopeTree) : ∀ e : Expr Scoped,
    t.groupingsIn e = e.groups.map fun g => t.grouping g.1 g.2
  | .ident _ => by simp [ScopeTree.groupingsIn, Expr.groups]
  | .int _ _ => by simp [ScopeTree.groupingsIn, Expr.groups]
  | .lam ps b a => by rw [ScopeTree.groupingsIn, Expr.groups, groupingsIn_eq t b]
  | .call f x a => by
    rw [ScopeTree.groupingsIn, Expr.groups, List.map_append, groupingsIn_eq t f,
      groupingsIn_eq t x]
  | .ite c p n a => by
    rw [ScopeTree.groupingsIn, Expr.groups, List.map_append, List.map_append, groupingsIn_eq t c,
      groupingsIn_eq t p, groupingsIn_eq t n]
  | .letIn ds b a => by
    rw [ScopeTree.groupingsIn, Expr.groups, List.map_append, List.map_cons,
      groupingsInDefs_eq t ds, groupingsIn_eq t b]

lemma groupingsInDefs_eq (t : ScopeTree) : ∀ ds : List (Definition Scoped),
    t.groupingsInDefs ds = (groupsOfDefs ds).map fun g => t.grouping g.1 g.2
  | [] => by simp [ScopeTree.groupingsInDefs, groupsOfDefs]
  | ⟨n, ps, b, a⟩ :: ds => by
    rw [ScopeTree.groupingsInDefs, groupsOfDefs, List.map_append, groupingsIn_eq t b,
      groupingsInDefs_eq t ds]

end

lemma classify_groupings (r : Resolution) :
    r.classify.groupings = r.program.groups.map fun g => r.tree.grouping g.1 g.2 := by
  rw [Resolution.classify, groupingsInDefs_eq, Program.groups, List.map_cons]

lemma find?_map_of_nodup {β γ : Type*} {l : List (ℕ × β)} (f : ℕ × β → γ) (key : γ → ℕ)
    (hkey : ∀ p, key (f p) = p.1) (hl : (l.map Prod.fst).Nodup) {p : ℕ × β} (hp : p ∈ l) :
    (l.map f).find? (key · == p.1) = some (f p) := by
  induction l with
  | nil => simp at hp
  | cons q l ih =>
    rw [List.map_cons, List.nodup_cons] at hl
    rw [List.map_cons, List.find?_cons, hkey]
    rcases List.mem_cons.1 hp with rfl | hmem
    · simp
    · have hne : q.1 ≠ p.1 := by
        rintro heq
        exact hl.1 (heq ▸ List.mem_map_of_mem hmem)
      rw [beq_eq_false_iff_ne.2 hne]
      exact ih hl.2 hmem

lemma findSome?_eq_of_unique {β γ : Type*} {f : β → Option γ} {l : List β} {a : β} (ha : a ∈ l)
    {c : γ} (hc : f a = some c) (hl : ∀ b ∈ l, f b = none ∨ f b = some c) :
    l.findSome? f = some c := by
  induction l with
  | nil => simp at ha
  | cons b l ih =>
    rw [List.findSome?_cons]
    rcases hl b List.mem_cons_self with hb | hb
    · rw [hb]
      rcases List.mem_cons.1 ha with rfl | hmem
      · exact absurd (hb.symm.trans hc) (by simp)
      · exact ih hmem fun d hd => hl d (List.mem_cons_of_mem _ hd)
    · rw [hb]

lemma flags?_eq_none {t : ScopeTree} {g : ScopeId} {ids : List DispatchId}
    {ds : List (Definition Scoped)} (h : Group t g ids ds) {id : DispatchId} (hid : id ∉ ids) :
    (t.grouping g ds).flags? id = none := by
  obtain ⟨hw, hn, -⟩ := callGraph_wellFormed h
  rw [Grouping.flags?, Option.map_eq_none_iff, List.find?_eq_none]
  intro c hc hcontains
  refine hid ((hn id).1 ((CallGraph.mem_flatten_components hw).1 ?_))
  exact List.mem_flatten.2 ⟨c, hc, List.contains_iff_mem.1 hcontains⟩

lemma one_lt_length_iff_exists_ne {c : List ℕ} (hc : c.Nodup) {a : ℕ} (ha : a ∈ c) :
    1 < c.length ↔ ∃ b ∈ c, b ≠ a := by
  constructor
  · intro hlen
    by_contra hall
    push Not at hall
    have hrep : c = List.replicate c.length a := List.eq_replicate_iff.2 ⟨rfl, hall⟩
    rw [hrep, List.nodup_replicate] at hc
    omega
  · rintro ⟨b, hb, hne⟩
    have hsub : [a, b].Subperm c :=
      List.subperm_of_subset (by simp [hne.symm]) (by simp [ha, hb])
    exact hsub.length_le

namespace Resolution.WellScoped

variable {names : List String} {r : Resolution} {ids₀ ids : List DispatchId} {g : ScopeId}
  {ds : List (Definition Scoped)} (hr : r.WellScoped names ids₀)
  (hmem : (g, ds) ∈ r.program.groups) (hg : Group r.tree g ids ds)

include hr hmem

lemma components_eq : r.classify.components g = (r.tree.callGraph ds).components := by
  rw [Classification.components, classify_groupings,
    find?_map_of_nodup (fun p : ScopeId × List (Definition Scoped) => r.tree.grouping p.1 p.2)
      Grouping.scope (fun _ => rfl) hr.nodup_groups hmem]
  rfl

include hg

/-- A number of a grouping is a number of no other grouping. -/
lemma eq_of_mem {g' : ScopeId} {ids' : List DispatchId} {ds' : List (Definition Scoped)}
    (hmem' : (g', ds') ∈ r.program.groups) (hg' : Group r.tree g' ids' ds') {id : DispatchId}
    (hid : id ∈ ids) (hid' : id ∈ ids') : g = g' ∧ ds = ds' := by
  obtain ⟨d, hd⟩ := exists_mem_zip_of_mem_left hg.length hid
  obtain ⟨d', hd'⟩ := exists_mem_zip_of_mem_left hg'.length hid'
  obtain ⟨rfl, -⟩ := hg.unique hg' hd hd'
  have heq := List.inj_on_of_nodup_map hr.nodup_groups hmem hmem' rfl
  exact ⟨rfl, (Prod.mk.inj heq).2⟩

/-- The flags of a definition are those that its own grouping gives. -/
lemma flags_eq {c : List DispatchId} (hc : c ∈ (r.tree.callGraph ds).components)
    {id : DispatchId} (hid : id ∈ c) : r.classify.flags id =
      { selfRecursive := (r.tree.callGraph ds).hasSelfLoop id
        mutuallyRecursive := 1 < c.length } := by
  obtain ⟨hw, hn, -⟩ := callGraph_wellFormed hg
  have hids : id ∈ ids :=
    (hn id).1 ((CallGraph.mem_flatten_components hw).1 (List.mem_flatten.2 ⟨c, hc, hid⟩))
  have hfind : (r.tree.callGraph ds).components.find? (·.contains id) = some c := by
    have hsome : ((r.tree.callGraph ds).components.find? (·.contains id)).isSome :=
      List.find?_isSome.2 ⟨c, hc, by simpa using hid⟩
    obtain ⟨c', hc'⟩ := Option.isSome_iff_exists.1 hsome
    have hmem' := List.mem_of_find?_eq_some hc'
    have hid' : id ∈ c' := by simpa using List.find?_some hc'
    rw [hc', Option.some.injEq]
    have hiff : ∀ w, w ∈ c' ↔ w ∈ c := fun w =>
      (CallGraph.mutual_iff_mem_component hw hmem' hid').symm.trans
        (CallGraph.mutual_iff_mem_component hw hc hid)
    have hcomplete := CallGraph.complete_components hw
    exact (hcomplete.sorted c' hmem').eq_of_mem_iff (hcomplete.sorted c hc) hiff
  have hown : (r.tree.grouping g ds).flags? id = some
      { selfRecursive := (r.tree.callGraph ds).hasSelfLoop id
        mutuallyRecursive := 1 < c.length } := by
    show ((r.tree.callGraph ds).components.find? (·.contains id)).map _ = _
    rw [hfind]
    rfl
  rw [Classification.flags, classify_groupings, findSome?_eq_of_unique
    (List.mem_map_of_mem hmem) hown, Option.getD_some]
  intro gr hgr
  obtain ⟨⟨g', ds'⟩, hmem', rfl⟩ := List.mem_map.1 hgr
  obtain ⟨ids', hg'⟩ := hr.group hmem'
  by_cases hid' : id ∈ ids'
  · obtain ⟨rfl, rfl⟩ := eq_of_mem hr hmem hg hmem' hg' hids hid'
    exact Or.inr hown
  · exact Or.inl (flags?_eq_none hg' hid')

omit hmem hg in
/-- No number is in two components, of one grouping or of two. -/
lemma nodup_components :
    (r.classify.groupings.flatMap Grouping.components).flatten.Nodup := by
  rw [classify_groupings, List.flatMap_map, ← List.flatMap_id, List.flatMap_assoc,
    List.nodup_flatMap]
  have hnodes : ∀ p ∈ r.program.groups, ∃ ids, Group r.tree p.1 ids p.2 ∧
      ∀ a, a ∈ (r.tree.callGraph p.2).components.flatMap id ↔ a ∈ ids := by
    rintro ⟨g', ds'⟩ hp
    obtain ⟨ids', hg'⟩ := hr.group hp
    obtain ⟨hw, hn, -⟩ := callGraph_wellFormed hg'
    refine ⟨ids', hg', fun a => ?_⟩
    rw [List.flatMap_id, CallGraph.mem_flatten_components hw, hn]
  constructor
  · rintro ⟨g', ds'⟩ hp
    obtain ⟨ids', hg'⟩ := hr.group hp
    rw [List.flatMap_id]
    exact CallGraph.nodup_flatten_components (callGraph_wellFormed hg').1
  · refine (List.pairwise_map.1 hr.nodup_groups).imp_of_mem ?_
    intro p q hp hq hne a hap haq
    obtain ⟨ids₁, hg₁, h₁⟩ := hnodes p hp
    obtain ⟨ids₂, hg₂, h₂⟩ := hnodes q hq
    exact hne (eq_of_mem hr hp hg₁ hq hg₂ ((h₁ a).1 hap) ((h₂ a).1 haq)).1

omit hmem in
/-- A definition that binds no name is mentioned nowhere. -/
lemma isDiscard_of_mentions {id : DispatchId} {d d' : Definition Scoped}
    (hd : (id, d) ∈ ids.zip ds) (h : r.tree.Mentions d' id) : d.isDiscard = false := by
  obtain ⟨i, -, hi⟩ := h
  obtain ⟨g', -, ds', ids', d₁, -, hg', hd₁, -, hdisc⟩ := hr.lookup_eq_binding hi
  rw [Definition.isDiscard, (hg.unique hg' hd hd₁).2]
  exact hdisc

variable {id : DispatchId} {d : Definition Scoped} (hid : (id, d) ∈ ids.zip ds)

omit hr hmem in
include hid in
lemma exists_mem_component : ∃ c ∈ (r.tree.callGraph ds).components, id ∈ c := by
  obtain ⟨hw, hn, -⟩ := callGraph_wellFormed hg
  refine List.mem_flatten.1 ((CallGraph.mem_flatten_components hw).2 ((hn id).2 ?_))
  exact (List.of_mem_zip hid).1

omit hr hmem in
lemma reaches_iff (a b : ℕ) : (r.tree.callGraph ds).Reaches a b ↔
    Relation.ReflTransGen (r.tree.RefersWithin ds) a b := by
  have hedge : (r.tree.callGraph ds).Edge = r.tree.RefersWithin ds := by
    funext a b
    exact propext (callGraph_edge_iff hg)
  rw [CallGraph.Reaches, hedge]

include hid

lemma selfRecursive_iff : (r.classify.flags id).selfRecursive = true ↔ r.tree.Mentions d id := by
  obtain ⟨c, hc, hidc⟩ := exists_mem_component hg hid
  rw [flags_eq hr hmem hg hc hidc, CallGraph.hasSelfLoop_iff, (callGraph_wellFormed hg).2.2]
  constructor
  · rintro ⟨d', hd', hm, -⟩
    rwa [hg.eq_of_mem_zip hid hd']
  · intro hm
    exact ⟨d, hid, hm, (List.of_mem_zip hid).1⟩

lemma mutuallyRecursive_iff : (r.classify.flags id).mutuallyRecursive = true ↔
    ∃ id', ∃ d' ∈ ds, r.tree.Numbers id' d' ∧ id' ≠ id ∧
      Relation.ReflTransGen (r.tree.RefersWithin ds) id id' ∧
      Relation.ReflTransGen (r.tree.RefersWithin ds) id' id := by
  obtain ⟨hw, hn, -⟩ := callGraph_wellFormed hg
  obtain ⟨c, hc, hidc⟩ := exists_mem_component hg hid
  have hsorted := (CallGraph.complete_components hw).sorted c hc
  rw [flags_eq hr hmem hg hc hidc, decide_eq_true_iff,
    one_lt_length_iff_exists_ne (hsorted.imp fun h => h.ne) hidc]
  constructor
  · rintro ⟨id', hid', hne⟩
    have hids : id' ∈ ids :=
      (hn id').1 ((CallGraph.mem_flatten_components hw).1 (List.mem_flatten.2 ⟨c, hc, hid'⟩))
    obtain ⟨d', hd'⟩ := exists_mem_zip_of_mem_left hg.length hids
    have hmutual := (CallGraph.mutual_iff_mem_component hw hc hidc).2 hid'
    have hmem' := (List.of_mem_zip hd').2
    exact ⟨id', d', hmem', (hg.numbers_iff hmem').2 hd', hne, (reaches_iff hg _ _).1 hmutual.1,
      (reaches_iff hg _ _).1 hmutual.2⟩
  · rintro ⟨id', d', hd', -, hne, hto, hback⟩
    exact ⟨id', (CallGraph.mutual_iff_mem_component hw hc hidc).1
      ⟨(reaches_iff hg _ _).2 hto, (reaches_iff hg _ _).2 hback⟩, hne⟩

lemma flags_discard (hdisc : d.isDiscard = true) : r.classify.flags id = {} := by
  have hno : ∀ d', ¬ r.tree.Mentions d' id := by
    intro d' hm
    exact absurd hdisc (by simp [isDiscard_of_mentions hr hg hid hm])
  have hself : ¬ (r.classify.flags id).selfRecursive = true :=
    fun h => hno d ((selfRecursive_iff hr hmem hg hid).1 h)
  have hmutual : ¬ (r.classify.flags id).mutuallyRecursive = true := by
    intro h
    obtain ⟨id', d', -, -, hne, -, hback⟩ := (mutuallyRecursive_iff hr hmem hg hid).1 h
    -- the way back ends with a reference to the definition
    rcases Relation.ReflTransGen.cases_tail hback with heq | ⟨_, -, d₁, -, _, -, -, -, hm⟩
    · exact hne heq.symm
    · exact hno d₁ hm
  cases hflags : r.classify.flags id with
  | mk self mutually =>
    rw [hflags, Bool.not_eq_true] at hself hmutual
    rw [Flags.mk.injEq]
    exact ⟨hself, hmutual⟩

lemma mentions_earlier {id' : DispatchId} (hid' : id' ∈ ids) (hm : r.tree.Mentions d id')
    {before after : List (List DispatchId)} {k : List DispatchId}
    (hsplit : r.classify.components g = before ++ k :: after) (hk : id ∈ k) (hk' : id' ∉ k) :
    id' ∈ before.flatten := by
  obtain ⟨hw, -, hedge⟩ := callGraph_wellFormed hg
  rw [components_eq hr hmem] at hsplit
  have hfirst := CallGraph.calleesFirst_components hw before k after hsplit id hk id'
    ((hedge id id').2 ⟨d, hid, hm, hid'⟩)
  exact hfirst.resolve_left hk'

end Resolution.WellScoped

/-! ### Classification -/

/-- The classification of one definition of the grouping `ds` with the scope `s`. -/
structure ClassifiedLexically (t : ScopeTree) (c : Classification) (s : ScopeId)
    (ds : List (Definition Scoped)) (id : DispatchId) (d : Definition Scoped) : Prop where
  /-- The number is that of the definition. -/
  numbers : t.Numbers id d
  /-- There is one entry for it. -/
  entry : (c.toList.map Prod.fst).count id = 1 ∧ (id, c.flags id) ∈ c.toList
  /-- It is in one component of all groupings, and that is one of its own grouping. -/
  component : (c.groupings.flatMap Grouping.components).flatten.count id = 1 ∧
    id ∈ (c.components s).flatten
  /-- It is self-recursive if its body mentions it. -/
  selfRecursive : (c.flags id).selfRecursive = true ↔ t.Mentions d id
  /-- It is mutually recursive if references inside the grouping lead from it to another definition
  and back. -/
  mutuallyRecursive : (c.flags id).mutuallyRecursive = true ↔
    ∃ id', ∃ d' ∈ ds, t.Numbers id' d' ∧ id' ≠ id ∧
      Relation.ReflTransGen (t.RefersWithin ds) id id' ∧
      Relation.ReflTransGen (t.RefersWithin ds) id' id
  /-- A definition that binds no name is not recursive. -/
  discard : d.isDiscard = true → c.flags id = {}
  /-- The component of a definition that it mentions comes earlier, unless it is its own. -/
  calleesFirst : ∀ id', ∀ d' ∈ ds, t.Numbers id' d' → t.Mentions d id' →
    ∀ before k after, c.components s = before ++ k :: after → id ∈ k → id' ∉ k →
      id' ∈ before.flatten

/-- In a program that resolves, every definition of every grouping is classified by the identifiers
in its body, and its number is its own. -/
theorem classify_lexical {names : List String} {seed : ℕ} {p : Program Span}
    {log log' : Array Event} {r : Resolution} (h : resolve names seed p log = .ok r log')
    {s : ScopeId} {ds : List (Definition Scoped)} (hs : r.program.IsGroup s ds)
    {d : Definition Scoped} (hd : d ∈ ds) :
    ∃ id, ClassifiedLexically r.tree r.classify s ds id d ∧
      ∀ s' ds', r.program.IsGroup s' ds' → ∀ d' ∈ ds', r.tree.Numbers id d' → s' = s ∧ d' = d := by
  obtain ⟨-, ids₀, hr⟩ := resolve_wellScoped h
  have hmem := (r.program.mem_groups_iff s ds).2 hs
  obtain ⟨ids, hg⟩ := hr.group hmem
  obtain ⟨id, hid⟩ := exists_mem_zip_of_mem_right hg.length hd
  obtain ⟨c, hc, hidc⟩ := Resolution.WellScoped.exists_mem_component hg hid
  have hgrouping : r.tree.grouping s ds ∈ r.classify.groupings := by
    rw [classify_groupings]
    exact List.mem_map_of_mem hmem
  have hlisted : id ∈ ascending (r.classify.groupings.flatMap (·.components.flatten)) :=
    mem_ascending.2 (List.mem_flatMap.2 ⟨_, hgrouping, List.mem_flatten.2 ⟨c, hc, hidc⟩⟩)
  refine ⟨id, ⟨(hg.numbers_iff hd).2 hid, ⟨?_, ?_⟩, ⟨?_, ?_⟩, hr.selfRecursive_iff hmem hg hid,
    hr.mutuallyRecursive_iff hmem hg hid, hr.flags_discard hmem hg hid, ?_⟩, ?_⟩
  · have hfst : r.classify.toList.map Prod.fst
        = ascending (r.classify.groupings.flatMap (·.components.flatten)) := by
      rw [Classification.toList, List.map_map]
      exact List.map_id _
    rw [hfst]
    exact List.count_eq_one_of_mem (ascending_nodup _) hlisted
  · exact List.mem_map_of_mem (f := fun id => (id, r.classify.flags id)) hlisted
  · exact List.count_eq_one_of_mem hr.nodup_components
      (List.mem_flatten.2 ⟨c, List.mem_flatMap.2 ⟨_, hgrouping, hc⟩, hidc⟩)
  · rw [hr.components_eq hmem]
    exact List.mem_flatten.2 ⟨c, hc, hidc⟩
  · intro id' d' hd' hnum hm before k after hsplit hk hk'
    exact hr.mentions_earlier hmem hg hid (List.of_mem_zip ((hg.numbers_iff hd').1 hnum)).1 hm
      hsplit hk hk'
  · intro s' ds' hs' d' hd' hnum
    have hmem' := (r.program.mem_groups_iff s' ds').2 hs'
    obtain ⟨ids', hg'⟩ := hr.group hmem'
    have hid' := (hg'.numbers_iff hd').1 hnum
    obtain ⟨rfl, rfl⟩ :=
      hr.eq_of_mem hmem hg hmem' hg' (List.of_mem_zip hid).1 (List.of_mem_zip hid').1
    exact ⟨rfl, (hg.eq_of_mem_zip hid ((hg.numbers_iff hd').1 hnum)).symm⟩

/-- Two definitions that call each other, one of them through a local definition. -/
def evenOdd : Program Span where
  defs :=
    [⟨⟨"even", .nowhere⟩, [⟨"x", .nowhere⟩],
      .call (.ident ⟨"odd", .nowhere⟩) (.ident ⟨"x", .nowhere⟩) .nowhere, .nowhere⟩,
     ⟨⟨"odd", .nowhere⟩, [⟨"x", .nowhere⟩],
      .letIn [⟨⟨"f", .nowhere⟩, [], .ident ⟨"even", .nowhere⟩, .nowhere⟩]
        (.call (.ident ⟨"f", .nowhere⟩) (.ident ⟨"x", .nowhere⟩) .nowhere) .nowhere, .nowhere⟩]
  ann := .nowhere

theorem classify_lexical_evenOdd : ∃ r log d id, resolve [] 0 evenOdd #[] = .ok r log ∧
    r.program.defs.head? = some d ∧
    ClassifiedLexically r.tree r.classify r.program.ann.scope r.program.defs id d ∧
    (r.classify.flags id).mutuallyRecursive = true := by
  have hflags : (match resolve [] 0 evenOdd #[] with
      | .ok r _ => r.program.defs.head?.bind fun d =>
        (r.tree.ownerOf? d.ann.scope).map fun b => (r.classify.flags b.id).mutuallyRecursive
      | .error _ _ => none) = some true := by
    decide +kernel
  cases hr : resolve [] 0 evenOdd #[] with
  | error e log =>
    rw [hr] at hflags
    exact absurd hflags (by simp)
  | ok r log =>
    rw [hr] at hflags
    obtain ⟨d, hd, hflags⟩ := Option.bind_eq_some_iff.1 hflags
    obtain ⟨id, h, -⟩ := classify_lexical hr (Or.inl ⟨rfl, rfl⟩) (List.mem_of_mem_head? hd)
    obtain ⟨b, hb, rfl⟩ := h.numbers
    rw [hb, Option.map_some, Option.some.injEq] at hflags
    exact ⟨r, log, d, b.id, rfl, hd, h, hflags⟩

end Letrec
