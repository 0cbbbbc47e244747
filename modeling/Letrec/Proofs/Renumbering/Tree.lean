import Mathlib
import Letrec.Recursion
import Letrec.Proofs.Expr
import Letrec.Proofs.Renumbering.CallGraph

/-!
# Renumbering the definitions of a program

The numbers of definitions occur in the scope tree, in the call graphs of the groupings and in the
classification, and nowhere in the program.  A strictly monotone change of the numbers in the tree
changes the numbers in all that is computed from it, and nothing else (`classify_renumber`).
-/

namespace Letrec

variable {f : DispatchId → DispatchId}

/-! ### The scope tree -/

/-- An entry under another numbering. -/
def Entry.renumber (f : DispatchId → DispatchId) : Entry → Entry
  | .parameter => .parameter
  | .binding id => .binding (f id)
  | .builtin => .builtin

/-- A scope under another numbering. -/
def Scope.renumber (f : DispatchId → DispatchId) (sc : Scope) : Scope :=
  { sc with
    owner := sc.owner.map f
    entries := sc.entries.map (Prod.map id (Entry.renumber f))
    declared := sc.declared.map f }

/-- The record of a definition under another number. -/
def Binding.renumber (f : DispatchId → DispatchId) (b : Binding) : Binding :=
  { b with id := f b.id }

/-- A scope tree under another numbering. -/
def ScopeTree.renumber (f : DispatchId → DispatchId) (t : ScopeTree) : ScopeTree where
  scopes := t.scopes.map (Scope.renumber f)
  bindings := t.bindings.map (Binding.renumber f)

/-- A resolution under another numbering. -/
def Resolution.renumber (f : DispatchId → DispatchId) (r : Resolution) : Resolution :=
  { r with tree := r.tree.renumber f }

namespace ScopeTree

variable (t : ScopeTree)

lemma scopes_renumber (s : ScopeId) :
    (t.renumber f).scopes[s]? = t.scopes[s]?.map (Scope.renumber f) := by
  rw [renumber, Array.getElem?_map]

lemma size_renumber : (t.renumber f).scopes.size = t.scopes.size := by rw [renumber, Array.size_map]

lemma entry?_renumber (s : ScopeId) (x : String) :
    ScopeTree.entry? (t.renumber f) s x = (t.entry? s x).map (Entry.renumber f) := by
  have hget : ∀ sc : Scope, (sc.renumber f).get? x = (sc.get? x).map (Entry.renumber f) :=
    fun sc => lookup_map_map Function.injective_id (Entry.renumber f) x sc.entries
  rw [ entry?, scopes_renumber, entry?]
  cases t.scopes[s]? with
  | none => rfl
  | some sc => exact hget sc

lemma parent?_renumber (s : ScopeId) : (t.renumber f).parent? s = t.parent? s := by
  rw [parent?, scopes_renumber, parent?]
  cases t.scopes[s]? <;> rfl

lemma ancestors_renumber (s : ScopeId) : (t.renumber f).ancestors s = t.ancestors s := by
  have hchain : ∀ n s, (t.renumber f).chain n s = t.chain n s := by
    intro n
    induction n with
    | zero => exact fun s => rfl
    | succ n ih =>
      intro s
      rw [chain, chain, parent?_renumber, funext ih]
  exact hchain (s + 1) s

lemma lookup_renumber (s : ScopeId) (x : String) :
    (t.renumber f).lookup s x = (t.lookup s x).map (Entry.renumber f) := by
  rw [lookup, lookup, ancestors_renumber, List.map_findSome?]
  exact congrArg (fun u => List.findSome? u _) (funext fun k => t.entry?_renumber k x)

lemma denotes_renumber (i : Ident Scoped) :
    (t.renumber f).denotes i = (t.denotes i).map (Entry.renumber f) := t.lookup_renumber _ _

lemma binding?_renumber (hf : f.Injective) (id : DispatchId) :
    (t.renumber f).binding? (f id) = (t.binding? id).map (Binding.renumber f) := by
  have hid : (fun b : Binding => b.id == f id) ∘ Binding.renumber f = fun b => b.id == id := by
    funext b
    simp [Binding.renumber, hf.eq_iff]
  rw [binding?, renumber, Array.find?_map, hid, binding?]

lemma ownerOf?_renumber (hf : f.Injective) (s : ScopeId) :
    (t.renumber f).ownerOf? s = (t.ownerOf? s).map (Binding.renumber f) := by
  rw [ownerOf?, scopes_renumber, ownerOf?]
  cases t.scopes[s]? with
  | none => rfl
  | some sc =>
    show (sc.owner.map f).bind (t.renumber f).binding? = _
    cases hid : sc.owner with
    | none => simp [hid]
    | some id => simpa [hid] using t.binding?_renumber hf id

/-! ### Growth -/

/-- Changing one element and changing all elements commute if the two changes do. -/
lemma map_modify {α β : Type*} {v : α → β} (u : α → α) (u' : β → β) (h : ∀ a, v (u a) = u' (v a))
    (l : Array α) (i : ℕ) : (l.modify i u).map v = (l.map v).modify i u' := by
  refine Array.ext_getElem? fun j => ?_
  rw [Array.getElem?_map, Array.getElem?_modify, Array.getElem?_modify, Array.getElem?_map]
  split_ifs with hij
  · cases l[j]? with
    | none => rfl
    | some a => exact congrArg some (h a)
  · rfl

lemma push_renumber (kind : ScopeKind) (parent : ScopeId) :
    (t.push kind parent).renumber f = (t.renumber f).push kind parent := by
  rw [renumber, push, push, Array.map_push]
  rfl

lemma enter_renumber (s : ScopeId) (x : String) (e : Entry) :
    (t.enter s x e).renumber f = (t.renumber f).enter s x (e.renumber f) := by
  have hscopes := map_modify (v := Scope.renumber f)
    (fun sc => { sc with entries := sc.entries ++ [(x, e)] })
    (fun sc => { sc with entries := sc.entries ++ [(x, e.renumber f)] })
    (fun sc => by simp only [Scope.renumber, List.map_append]; rfl) t.scopes s
  rw [renumber, enter, hscopes]
  rfl

lemma register_renumber (b : Binding) :
    (t.register b).renumber f = (t.renumber f).register (b.renumber f) := by
  have hdeclared := map_modify (v := Scope.renumber f)
    (fun sc => { sc with declared := sc.declared ++ [b.id] })
    (fun sc => { sc with declared := sc.declared ++ [f b.id] })
    (fun sc => by simp only [Scope.renumber, List.map_append]; rfl) t.scopes b.scope
  have howner := map_modify (v := Scope.renumber f)
    (fun sc => { sc with owner := some b.id }) (fun sc => { sc with owner := some (f b.id) })
    (fun sc => rfl)
  rw [renumber, register, howner, hdeclared, Array.map_push]
  rfl

lemma ofBuiltins_renumber (names : List String) :
    (ofBuiltins names).renumber f = ofBuiltins names := by
  simp [renumber, ofBuiltins, Scope.renumber, Entry.renumber]

end ScopeTree

/-! ### Groupings -/

/-- A grouping under another numbering. -/
def Grouping.renumber (f : DispatchId → DispatchId) (g : Grouping) : Grouping where
  scope := g.scope
  graph := g.graph.map f
  components := g.components.map (List.map f)

/-- A classification under another numbering. -/
def Classification.renumber (f : DispatchId → DispatchId) (c : Classification) :
    Classification where
  groupings := c.groupings.map (Grouping.renumber f)

variable (hf : StrictMono f)

include hf

namespace ScopeTree

variable (t : ScopeTree)

omit hf in
lemma references_renumber (e : Expr Scoped) :
    (t.renumber f).references e = (t.references e).map f := by
  rw [references, references, List.map_filterMap]
  refine List.filterMap_congr fun i _ => ?_
  rw [denotes_renumber]
  rcases t.denotes i with _ | ⟨_ | id | _⟩ <;> rfl

lemma numbered_renumber (ds : List (Definition Scoped)) :
    (t.renumber f).numbered ds = (t.numbered ds).map (Prod.map f id) := by
  rw [numbered, numbered, List.map_filterMap]
  refine List.filterMap_congr fun d _ => ?_
  rw [ownerOf?_renumber t hf.injective]
  cases t.ownerOf? d.ann.scope <;> rfl

lemma callGraph_renumber (ds : List (Definition Scoped)) :
    (t.renumber f).callGraph ds = (t.callGraph ds).map f := by
  let nodes : CallGraph := (t.numbered ds).foldl (fun g m => g.addNode m.1) CallGraph.empty
  have hnodes : ((t.renumber f).numbered ds).foldl (fun g m => g.addNode m.1) CallGraph.empty
      = nodes.map f := by
    rw [numbered_renumber hf t, List.foldl_map]
    show List.foldl _ (CallGraph.map f CallGraph.empty) _ = _
    exact List.foldl_hom (CallGraph.map f) fun g m => CallGraph.addNode_map hf g m.1
  have hcontains : (nodes.map f).contains ∘ f = nodes.contains :=
    funext fun id => CallGraph.contains_map hf nodes id
  rw [callGraph, hnodes, numbered_renumber hf t, List.foldl_map]
  refine List.foldl_hom (CallGraph.map f) fun g m => ?_
  -- the references that count are those to nodes, and they are added one by one
  show (((t.renumber f).references m.2.body).filter (nodes.map f).contains).foldl
    (fun g id => g.addEdge (f m.1) id) (g.map f) = _
  rw [references_renumber, List.filter_map, hcontains, List.foldl_map]
  exact List.foldl_hom (CallGraph.map f) fun g id => CallGraph.addEdge_map hf g m.1 id

lemma grouping_renumber (s : ScopeId) (ds : List (Definition Scoped)) :
    (t.renumber f).grouping s ds = (t.grouping s ds).renumber f := by
  rw [grouping, callGraph_renumber hf t, CallGraph.components_map hf]
  rfl

omit hf in
lemma groupingsInDefs_renumber_of {ds : List (Definition Scoped)}
    (h : ∀ d ∈ ds, (t.renumber f).groupingsIn d.body
      = (t.groupingsIn d.body).map (Grouping.renumber f)) :
    (t.renumber f).groupingsInDefs ds = (t.groupingsInDefs ds).map (Grouping.renumber f) := by
  induction ds with
  | nil => rfl
  | cons d ds ih =>
    obtain ⟨n, ps, b, a⟩ := d
    rw [List.forall_mem_cons] at h
    rw [groupingsInDefs, groupingsInDefs, h.1, ih h.2, List.map_append]

lemma groupingsIn_renumber (e : Expr Scoped) :
    (t.renumber f).groupingsIn e = (t.groupingsIn e).map (Grouping.renumber f) := by
  induction e using Expr.induction with
  | ident i => rfl
  | int v a => rfl
  | lam ps b a ih => exact ih
  | call g x a ihg ihx => rw [groupingsIn, groupingsIn, ihg, ihx, List.map_append]
  | ite c p n a ihc ihp ihn =>
    rw [groupingsIn, groupingsIn, ihc, ihp, ihn, List.map_append, List.map_append]
  | letIn ds b a ihds ihb =>
    rw [groupingsIn, groupingsIn, grouping_renumber hf t, groupingsInDefs_renumber_of t ihds, ihb,
      List.map_append, List.map_cons]

lemma groupingsInDefs_renumber (ds : List (Definition Scoped)) :
    (t.renumber f).groupingsInDefs ds = (t.groupingsInDefs ds).map (Grouping.renumber f) :=
  groupingsInDefs_renumber_of t fun d _ => groupingsIn_renumber hf t d.body

end ScopeTree

/-- The classification changes with the numbers. -/
lemma Resolution.classify_renumber (r : Resolution) :
    (r.renumber f).classify = r.classify.renumber f := by
  rw [classify, renumber, ScopeTree.grouping_renumber hf, ScopeTree.groupingsInDefs_renumber hf]
  rfl

/-! ### Reading a classification -/

namespace Classification

variable (c : Classification)

omit hf in
lemma components_renumber (s : ScopeId) :
    (c.renumber f).components s = (c.components s).map (List.map f) := by
  rw [components, renumber, List.find?_map, components]
  show ((c.groupings.find? (·.scope == s)).map _ |>.map _).getD _ = _
  cases c.groupings.find? (·.scope == s) <;> rfl

lemma flags_renumber (id : DispatchId) : (c.renumber f).flags (f id) = c.flags id := by
  have hflags : ∀ g : Grouping, (g.renumber f).flags? (f id) = g.flags? id := by
    intro g
    have hmem : (fun c : List ℕ => c.contains (f id)) ∘ List.map f = fun c => c.contains id :=
      funext fun c => contains_map_map hf id c
    rw [Grouping.flags?, Grouping.renumber, List.find?_map, hmem, Grouping.flags?]
    cases g.components.find? (·.contains id) with
    | none => rfl
    | some c => simp [CallGraph.hasSelfLoop_map hf]
  rw [flags, renumber, List.findSome?_map, flags]
  exact congrArg (fun u => (List.findSome? u c.groupings).getD {}) (funext hflags)

lemma toList_renumber : (c.renumber f).toList = c.toList.map (Prod.map f id) := by
  have hids : (c.renumber f).groupings.flatMap (·.components.flatten)
      = (c.groupings.flatMap (·.components.flatten)).map f := by
    rw [renumber, List.flatMap_map, List.map_flatMap]
    exact congrArg (c.groupings.flatMap ·) (funext fun g => List.map_flatten.symm)
  rw [toList, toList, hids, ascending_map hf, List.map_map, List.map_map]
  refine List.map_congr_left fun id _ => ?_
  exact Prod.ext rfl (flags_renumber hf c id)

end Classification

end Letrec
