import Mathlib
import Letrec.Proofs.Lowering.Reading
import Letrec.Proofs.Lowering.Shape
import Letrec.Proofs.Surface.Relation

/-!
# The order of the groupings

A classification lists groupings, and the names of the tables are entered group after group, so
the order of the list could show: where two groups had a member in common, the table entered last
would take the calls of both, and where two tables had one name, the inner one would hide the outer
one.

In the classification of a resolved program a scope belongs to one grouping and a number to one
component (`Classification.Unambiguous`).  Then at most one grouping answers any question that is
asked of the classification, and it does not matter when it is met (`findSome?_perm`): every order
of the groupings gives the same components, flags and tables, and lowering reads nothing else.

Main result: `groupings_in_any_order`.
-/

namespace Letrec

/-- Where at most one element answers, all orders of a list give the same answer. -/
lemma findSome?_perm {β γ : Type*} {f : β → Option γ} {l l' : List β} (h : l'.Perm l)
    (hl : ∀ a ∈ l, ∀ b ∈ l, (f a).isSome → (f b).isSome → a = b) :
    l'.findSome? f = l.findSome? f := by
  cases hfind : l.findSome? f with
  | none =>
    rw [List.findSome?_eq_none_iff] at hfind ⊢
    exact fun a ha => hfind a (h.mem_iff.1 ha)
  | some c =>
    obtain ⟨a, ha, hc⟩ := List.exists_of_findSome?_eq_some hfind
    refine findSome?_eq_of_unique (h.mem_iff.2 ha) hc fun b hb => ?_
    cases hfb : f b with
    | none => exact Or.inl rfl
    | some d =>
      obtain rfl := hl b (h.mem_iff.1 hb) a ha (by simp [hfb]) (by simp [hc])
      exact Or.inr (hfb ▸ hc)

lemma exists_dispatchAlias? {group : List DispatchId} (h : group ≠ []) :
    ∃ first ∈ group, dispatchAlias? group = some (tableAlias first) := by
  cases hmin : group.min? with
  | none => exact absurd (List.min?_eq_none_iff.1 hmin) h
  | some first =>
    exact ⟨first, (List.min?_eq_some_iff.1 hmin).1, by rw [dispatchAlias?, hmin, Option.map_some]⟩

namespace Classification

/-! ### Entering the tables -/

/-- Enter the members of a group with the name of its table.  The latest entry for a number
counts. -/
def enterGroup (tables : List (DispatchId × String)) (group : List DispatchId) :
    List (DispatchId × String) :=
  match dispatchAlias? group with
  | some table => group.foldl (fun tables id => (id, table) :: tables) tables
  | none => tables

/-- The tables by member, entered group after group. -/
def enteredTables (c : Classification) : List (DispatchId × String) :=
  c.mutualGroups.foldl enterGroup []

lemma enterGroup_eq (tables : List (DispatchId × String)) (group : List DispatchId) :
    enterGroup tables group
      = (((dispatchAlias? group).map fun table => group.map (·, table)).getD []).reverse
        ++ tables := by
  rw [enterGroup]
  cases dispatchAlias? group with
  | none => rfl
  | some table =>
    change group.foldl _ tables = (group.map _).reverse ++ tables
    induction group generalizing tables with
    | nil => rfl
    | cons id group ih =>
      rw [List.foldl_cons, ih, List.map_cons, List.reverse_cons, List.append_assoc,
        List.singleton_append]

lemma foldl_enterGroup (groups : List (List DispatchId)) (tables : List (DispatchId × String)) :
    groups.foldl enterGroup tables = (groups.flatMap fun group =>
      ((dispatchAlias? group).map fun table => group.map (·, table)).getD []).reverse
        ++ tables := by
  induction groups generalizing tables with
  | nil => rfl
  | cons group groups ih =>
    rw [List.foldl_cons, ih, enterGroup_eq, List.flatMap_cons, List.reverse_append,
      List.append_assoc]

/-- What is entered last comes first. -/
lemma enteredTables_eq (c : Classification) : c.enteredTables = c.tables.reverse := by
  rw [enteredTables, foldl_enterGroup, List.append_nil, tables]

/-- The tables have the members of the groups for keys. -/
lemma map_fst_tables (c : Classification) : c.tables.map Prod.fst = c.mutualGroups.flatten := by
  rw [tables, List.map_flatMap, ← List.flatMap_id]
  refine congrArg (c.mutualGroups.flatMap ·) (funext fun group => ?_)
  cases group with
  | nil => rfl
  | cons id group =>
    obtain ⟨first, -, halias⟩ := exists_dispatchAlias? (List.cons_ne_nil id group)
    rw [halias, Option.map_some, Option.getD_some, List.map_map]
    exact List.map_id _

/-! ### Classifications in which everything is in one place -/

/-- Every grouping has a scope of its own, and every number is in one component at most. -/
structure Unambiguous (c : Classification) : Prop where
  scopes : (c.groupings.map Grouping.scope).Nodup
  components : (c.groupings.flatMap Grouping.components).flatten.Nodup

/-- The mutually recursive groups are told apart by their members and by their tables. -/
structure GroupsApart (c : Classification) : Prop where
  /-- No two groupings have one scope. -/
  scopes : (c.groupings.map Grouping.scope).Nodup
  /-- No definition is in two groups. -/
  disjoint : c.mutualGroups.Pairwise List.Disjoint
  /-- Every group has a table. -/
  named : ∀ group ∈ c.mutualGroups, (dispatchAlias? group).isSome
  /-- No two groups have tables of one name. -/
  aliases : (c.mutualGroups.map dispatchAlias?).Nodup
  /-- In no grouping is a member of a group a component by itself. -/
  together : ∀ group ∈ c.mutualGroups, ∀ id ∈ group, ∀ g ∈ c.groupings, ∀ k ∈ g.components,
    k.length = 1 → id ∉ k

lemma mem_mutualGroups {c : Classification} {group : List DispatchId} :
    group ∈ c.mutualGroups ↔
      group ∈ c.groupings.flatMap Grouping.components ∧ 1 < group.length := by
  rw [mutualGroups, List.mem_filter, decide_eq_true_iff]

variable {c c' : Classification}

lemma tables_perm (h : c'.groupings.Perm c.groupings) : c'.tables.Perm c.tables :=
  ((h.flatMap_right _).filter _).flatMap_right _

namespace Unambiguous

variable (hc : c.Unambiguous)

include hc

lemma disjoint_mutualGroups : c.mutualGroups.Pairwise List.Disjoint :=
  (List.nodup_flatten.1 hc.components).2.filter _

lemma nodup_keys_tables : (c.tables.map Prod.fst).Nodup := by
  rw [c.map_fst_tables]
  exact hc.components.sublist List.filter_sublist.flatten

/-- A number tells its grouping. -/
lemma grouping_eq {g g' : Grouping} (hg : g ∈ c.groupings) (hg' : g' ∈ c.groupings)
    {id : DispatchId} (hid : id ∈ g.components.flatten) (hid' : id ∈ g'.components.flatten) :
    g = g' := by
  by_contra hne
  have hnodup : (c.groupings.flatMap fun g => g.components.flatten).Nodup := by
    have hcomponents := hc.components
    rw [← List.flatMap_id, List.flatMap_assoc] at hcomponents
    simpa only [List.flatMap_id] using hcomponents
  have hsymm : Std.Symm (Function.onFun List.Disjoint fun g : Grouping => g.components.flatten) :=
    ⟨fun _ _ h => h.symm⟩
  exact (List.nodup_flatMap.1 hnodup).2.forall hg hg' hne hid hid'

lemma groupsApart : c.GroupsApart where
  scopes := hc.scopes
  disjoint := hc.disjoint_mutualGroups
  named := by
    intro group hgroup
    have hne := List.ne_nil_of_length_pos (Nat.zero_lt_of_lt (mem_mutualGroups.1 hgroup).2)
    obtain ⟨first, -, halias⟩ := exists_dispatchAlias? hne
    rw [halias]
    rfl
  aliases := by
    rw [List.Nodup, List.pairwise_map]
    refine hc.disjoint_mutualGroups.imp_of_mem fun {k k'} hk hk' hdisjoint heq => ?_
    have hne := List.ne_nil_of_length_pos (Nat.zero_lt_of_lt (mem_mutualGroups.1 hk).2)
    have hne' := List.ne_nil_of_length_pos (Nat.zero_lt_of_lt (mem_mutualGroups.1 hk').2)
    obtain ⟨first, hfirst, halias⟩ := exists_dispatchAlias? hne
    obtain ⟨first', hfirst', halias'⟩ := exists_dispatchAlias? hne'
    -- a table is named after a member, so groups with one table would share that member
    rw [halias, halias', Option.some.injEq] at heq
    obtain rfl := tableAlias_injective heq
    exact hdisjoint hfirst hfirst'
  together := by
    intro group hgroup id hid g hg k hk hlen hmem
    obtain ⟨hcomponent, hlen'⟩ := mem_mutualGroups.1 hgroup
    obtain rfl := eq_of_mem_of_nodup_flatten hc.components hcomponent
      (List.mem_flatMap.2 ⟨g, hg, hk⟩) hid hmem
    omega

/-! ### Reading in any order -/

variable (h : c'.groupings.Perm c.groupings)

include h

lemma components_perm (s : ScopeId) : c'.components s = c.components s := by
  rw [Classification.components, Classification.components, List.find?_eq_findSome?_guard,
    List.find?_eq_findSome?_guard, findSome?_perm h]
  intro g hg g' hg' hs hs'
  simp only [Option.isSome_guard, beq_iff_eq] at hs hs'
  exact List.inj_on_of_nodup_map hc.scopes hg hg' (hs.trans hs'.symm)

lemma flags_perm (id : DispatchId) : c'.flags id = c.flags id := by
  have hmem : ∀ g : Grouping, (g.flags? id).isSome → id ∈ g.components.flatten := by
    intro g hg
    rw [Grouping.flags?, Option.isSome_map, List.find?_isSome] at hg
    obtain ⟨k, hk, hid⟩ := hg
    exact List.mem_flatten.2 ⟨k, hk, List.contains_iff_mem.1 hid⟩
  rw [Classification.flags, Classification.flags, findSome?_perm h]
  exact fun g hg g' hg' hid hid' => hc.grouping_eq hg hg' (hmem g hid) (hmem g' hid')

omit h in
/-- No number is entered twice, so any order of the entries says the same. -/
lemma lookup_tables_perm {tables : List (DispatchId × String)} (htables : tables.Perm c.tables)
    (id : DispatchId) : tables.lookup id = c.tables.lookup id := by
  rw [List.lookup_eq_findSome?, List.lookup_eq_findSome?, findSome?_perm htables]
  intro m hm m' hm' hid hid'
  have hkey : ∀ m : DispatchId × String,
      (if id == m.1 then some m.2 else none).isSome → id = m.1 := by
    intro m hm
    simpa using hm
  have hsame : m.1 = m'.1 := (hkey m hid).symm.trans (hkey m' hid')
  exact List.inj_on_of_nodup_map hc.nodup_keys_tables hm hm' hsame

/-- Lowering reads the same of the groupings in another order, with the same tables entered in any
order. -/
lemma agrees (t : ScopeTree) {tables : List (DispatchId × String)}
    (htables : tables.Perm c.tables) :
    (LowerContext.mk t c' tables).Agrees (LowerContext.of t c) where
  tree := rfl
  components := hc.components_perm h
  selfRecursive := fun id => congrArg Flags.selfRecursive (hc.flags_perm h id)
  table? := hc.lookup_tables_perm htables

end Unambiguous

end Classification

lemma Resolution.WellScoped.unambiguous {names : List String} {r : Resolution}
    {ids₀ : List DispatchId} (hr : r.WellScoped names ids₀) : r.classify.Unambiguous where
  scopes := by
    rw [classify_groupings, List.map_map]
    exact hr.nodup_groups
  components := hr.nodup_components

/-- What lowering knows of a program if the tables are entered group after group. -/
def LowerContext.entering (tree : ScopeTree) (c : Classification) : LowerContext :=
  { tree, classification := c, tables := c.enteredTables }

/-- In a program that resolves, the mutually recursive groups of all groupings have their members
and tables to themselves.  So in whatever order the groupings are met, the same tables are entered,
and with them any program is lowered to the same term or fails with the same error. -/
theorem groupings_in_any_order {names : List String} {seed : DispatchId} {p : Program Span}
    {log log' : Array Event} {r : Resolution} (hresolve : resolve names seed p log = .ok r log') :
    r.classify.GroupsApart ∧ ∀ gs : List Grouping, gs.Perm r.classify.groupings →
      (∀ id, (Classification.mk gs).enteredTables.lookup id = r.classify.tables.lookup id) ∧
      ∀ (q : Resolution) (entry : String),
        (LowerContext.entering q.tree ⟨gs⟩).program q.program entry = q.lower r.classify entry ∧
        q.lower ⟨gs⟩ entry = q.lower r.classify entry := by
  obtain ⟨-, ids, hr⟩ := resolve_wellScoped hresolve
  have hc := hr.unambiguous
  refine ⟨hc.groupsApart, fun gs hgs => ?_⟩
  have hperm : (Classification.mk gs).tables.Perm r.classify.tables :=
    Classification.tables_perm hgs
  have hentered : (Classification.mk gs).enteredTables.Perm r.classify.tables := by
    rw [Classification.enteredTables_eq]
    exact (List.reverse_perm _).trans hperm
  exact ⟨hc.lookup_tables_perm hentered, fun q entry =>
    ⟨(hc.agrees hgs q.tree hentered).program q.program entry,
      (hc.agrees hgs q.tree hperm).program q.program entry⟩⟩

/-- `even n = odd (let c x = d x; d x = c x in c n)`, `odd n = even n` and
`main = let a x = b x; b x = a x in a (even 1)`: one group around a second, and a third apart. -/
def threePairs : Program Span where
  defs :=
    [⟨⟨"even", .nowhere⟩, [⟨"n", .nowhere⟩],
      .call (.ident ⟨"odd", .nowhere⟩)
        (.letIn
          [⟨⟨"c", .nowhere⟩, [⟨"x", .nowhere⟩],
            .call (.ident ⟨"d", .nowhere⟩) (.ident ⟨"x", .nowhere⟩) .nowhere, .nowhere⟩,
           ⟨⟨"d", .nowhere⟩, [⟨"x", .nowhere⟩],
            .call (.ident ⟨"c", .nowhere⟩) (.ident ⟨"x", .nowhere⟩) .nowhere, .nowhere⟩]
          (.call (.ident ⟨"c", .nowhere⟩) (.ident ⟨"n", .nowhere⟩) .nowhere) .nowhere) .nowhere,
      .nowhere⟩,
     ⟨⟨"odd", .nowhere⟩, [⟨"n", .nowhere⟩],
      .call (.ident ⟨"even", .nowhere⟩) (.ident ⟨"n", .nowhere⟩) .nowhere, .nowhere⟩,
     ⟨⟨"main", .nowhere⟩, [],
      .letIn
        [⟨⟨"a", .nowhere⟩, [⟨"x", .nowhere⟩],
          .call (.ident ⟨"b", .nowhere⟩) (.ident ⟨"x", .nowhere⟩) .nowhere, .nowhere⟩,
         ⟨⟨"b", .nowhere⟩, [⟨"x", .nowhere⟩],
          .call (.ident ⟨"a", .nowhere⟩) (.ident ⟨"x", .nowhere⟩) .nowhere, .nowhere⟩]
        (.call (.ident ⟨"a", .nowhere⟩)
          (.call (.ident ⟨"even", .nowhere⟩) (.int 1 .nowhere) .nowhere) .nowhere) .nowhere,
      .nowhere⟩]
  ann := .nowhere

theorem groupings_in_any_order_threePairs : ∃ r log gs, resolve [] 0 threePairs #[] = .ok r log ∧
    gs.Perm r.classify.groupings ∧ r.classify.mutualGroups = [[2, 3], [0, 1], [4, 5]] ∧
    (Classification.mk gs).mutualGroups = [[4, 5], [0, 1], [2, 3]] ∧ r.classify.GroupsApart ∧
    (∀ id, (Classification.mk gs).enteredTables.lookup id = r.classify.tables.lookup id) ∧
    (value? (r.lower r.classify "main" #[])).isSome ∧
    (LowerContext.entering r.tree ⟨gs⟩).program r.program "main" = r.lower r.classify "main" ∧
    r.lower ⟨gs⟩ "main" = r.lower r.classify "main" := by
  have hgroups : (value? (resolve [] 0 threePairs #[])).map (fun r =>
      (r.classify.mutualGroups,
        (Classification.mk r.classify.groupings.reverse).mutualGroups,
        (value? (r.lower r.classify "main" #[])).isSome))
      = some ([[2, 3], [0, 1], [4, 5]], [[4, 5], [0, 1], [2, 3]], true) := by
    decide +kernel
  obtain ⟨r, hr, hgroups⟩ := Option.map_eq_some_iff.1 hgroups
  obtain ⟨log, hr⟩ := value?_eq_some.1 hr
  simp only [Prod.mk.injEq] at hgroups
  obtain ⟨hlisted, hreversed, hlowers⟩ := hgroups
  have hperm := List.reverse_perm r.classify.groupings
  obtain ⟨hapart, horder⟩ := groupings_in_any_order hr
  obtain ⟨htables, hlower⟩ := horder _ hperm
  exact ⟨r, log, _, hr, hperm, hlisted, hreversed, hapart, htables, hlowers, hlower r "main"⟩

end Letrec
