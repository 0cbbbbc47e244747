import Mathlib
import Letrec.Proofs.Scope.Distinct
import Letrec.Proofs.Lowering.Capture

/-!
# Renaming a parameter or a definition

What a program binds is told apart by a scope and a name of it.  A `Renaming` gives one of them a
fresh name: its binder changes, and so do the identifiers that it is the home of; all other names
stay.  What is renamed is read off the resolved program, and the renamed program resolves to the
resolution renamed (`resolve_rename`): the scopes and numbers are the same.

Every identifier denotes what it did (`denotes_use`), so the classification is the same, too.
-/

namespace Letrec

variable {α β : Type}

/-! ### Renaming everywhere -/

/-- Change the name at an occurrence. -/
def Ident.rename (f : Ident α → String) (i : Ident α) : Ident α := ⟨f i, i.ann⟩

mutual

/-- Change the names of an expression, those of binders by `bind` and those of identifiers by
`use`. -/
def Expr.rename (bind use : Ident α → String) : Expr α → Expr α
  | .ident i => .ident (i.rename use)
  | .int v a => .int v a
  | .lam ps b a => .lam (ps.map (Ident.rename bind)) (b.rename bind use) a
  | .call f x a => .call (f.rename bind use) (x.rename bind use) a
  | .ite c p n a => .ite (c.rename bind use) (p.rename bind use) (n.rename bind use) a
  | .letIn ds b a => .letIn (renameDefs bind use ds) (b.rename bind use) a

/-- Change the names of a list of definitions. -/
def renameDefs (bind use : Ident α → String) : List (Definition α) → List (Definition α)
  | [] => []
  | ⟨n, ps, b, a⟩ :: ds =>
    ⟨n.rename bind, ps.map (Ident.rename bind), b.rename bind use, a⟩ :: renameDefs bind use ds

end

/-- Change the names of a definition. -/
def Definition.rename (bind use : Ident α → String) (d : Definition α) : Definition α :=
  ⟨d.name.rename bind, d.params.map (Ident.rename bind), d.body.rename bind use, d.ann⟩

lemma renameDefs_eq_map (bind use : Ident α → String) (ds : List (Definition α)) :
    renameDefs bind use ds = ds.map (Definition.rename bind use) := by
  induction ds with
  | nil => rfl
  | cons d ds ih =>
    obtain ⟨n, ps, b, a⟩ := d
    rw [renameDefs, ih, List.map_cons]
    rfl

/-- Change the names of a program. -/
def Program.rename (bind use : Ident α → String) (p : Program α) : Program α :=
  ⟨p.defs.map (Definition.rename bind use), p.ann⟩

lemma mem_names_of_mem_idents {e : Expr α} {i : Ident α} (hi : i ∈ e.idents) :
    i.name ∈ e.names := by
  rw [Expr.mem_idents_iff] at hi
  induction hi with
  | refl => exact List.mem_singleton_self _
  | lam _ ih => exact List.mem_append_right _ ih
  | fn _ ih => exact List.mem_append_left _ ih
  | arg _ ih => exact List.mem_append_right _ ih
  | cond _ ih => exact List.mem_append_left _ (List.mem_append_left _ ih)
  | pos _ ih => exact List.mem_append_left _ (List.mem_append_right _ ih)
  | neg _ ih => exact List.mem_append_right _ ih
  | binding hd _ ih =>
    exact List.mem_append_left _ (mem_namesOfDefs.2 ⟨_, hd, Or.inr (List.mem_append_right _ ih)⟩)
  | body _ ih => exact List.mem_append_right _ ih

section Idents

variable (bind use : Ident α → String)

mutual

lemma Expr.idents_rename : ∀ e : Expr α,
    (e.rename bind use).idents = e.idents.map (Ident.rename use)
  | .ident i => rfl
  | .int v a => rfl
  | .lam ps b a => b.idents_rename
  | .call f x a => by
    rw [Expr.rename, Expr.idents, Expr.idents, f.idents_rename, x.idents_rename, List.map_append]
  | .ite c p n a => by
    rw [Expr.rename, Expr.idents, Expr.idents, c.idents_rename, p.idents_rename, n.idents_rename,
      List.map_append, List.map_append]
  | .letIn ds b a => by
    rw [Expr.rename, Expr.idents, Expr.idents, identsOfDefs_rename ds, b.idents_rename,
      List.map_append]

lemma identsOfDefs_rename : ∀ ds : List (Definition α),
    identsOfDefs (renameDefs bind use ds) = (identsOfDefs ds).map (Ident.rename use)
  | [] => rfl
  | ⟨n, ps, b, a⟩ :: ds => by
    rw [renameDefs, identsOfDefs, identsOfDefs, b.idents_rename, identsOfDefs_rename ds,
      List.map_append]

end

variable (hbind : ∀ i, isDiscard (bind i) = isDiscard i.name)

include hbind

lemma liveIdentsOfDefs_rename_of {ds : List (Definition α)}
    (h : ∀ d ∈ ds, (d.body.rename bind use).liveIdents = d.body.liveIdents.map (Ident.rename use)) :
    liveIdentsOfDefs (renameDefs bind use ds) = (liveIdentsOfDefs ds).map (Ident.rename use) := by
  induction ds with
  | nil => rfl
  | cons d ds ih =>
    obtain ⟨n, ps, b, a⟩ := d
    rw [List.forall_mem_cons] at h
    rw [renameDefs, liveIdentsOfDefs, liveIdentsOfDefs, h.1, ih h.2, List.map_append, Ident.rename,
      hbind]
    split_ifs <;> rfl

lemma Expr.liveIdents_rename (e : Expr α) :
    (e.rename bind use).liveIdents = e.liveIdents.map (Ident.rename use) := by
  induction e using Expr.induction with
  | ident i => rfl
  | int v a => rfl
  | lam ps b a ih => exact ih
  | call f x a ihf ihx =>
    rw [Expr.rename, Expr.liveIdents, Expr.liveIdents, ihf, ihx, List.map_append]
  | ite c p n a ihc ihp ihn =>
    rw [Expr.rename, Expr.liveIdents, Expr.liveIdents, ihc, ihp, ihn, List.map_append,
      List.map_append]
  | letIn ds b a ihds ihb =>
    rw [Expr.rename, Expr.liveIdents, Expr.liveIdents,
      liveIdentsOfDefs_rename_of bind use hbind ihds, ihb, List.map_append]

lemma liveIdentsOfDefs_rename (ds : List (Definition α)) :
    liveIdentsOfDefs (renameDefs bind use ds) = (liveIdentsOfDefs ds).map (Ident.rename use) :=
  liveIdentsOfDefs_rename_of bind use hbind fun d _ => d.body.liveIdents_rename bind use hbind

end Idents

/-! ### Renaming one binder -/

/-- A fresh name for a name of a scope. -/
structure Renaming where
  /-- The scope that binds the name. -/
  scope : ScopeId
  /-- The name. -/
  name : String
  /-- The name in its place. -/
  fresh : String

namespace Renaming

variable (ν : Renaming)

/-- What a name that the scope `k` binds is called. -/
def bound (k : ScopeId) (z : String) : String := if k = ν.scope ∧ z = ν.name then ν.fresh else z

/-- What a binder is called. -/
def binder (i : Ident Scoped) : String := ν.bound i.ann.scope i.name

/-- What a name is called that is used in the scope `k`. -/
def seen (t : ScopeTree) (k : ScopeId) (z : String) : String :=
  if t.home? k z = some ν.scope ∧ z = ν.name then ν.fresh else z

/-- What an identifier is called. -/
def use (t : ScopeTree) (i : Ident Scoped) : String := ν.seen t i.ann.scope i.name

/-- The scope with its names changed. -/
def scopeAt (k : ScopeId) (sc : Scope) : Scope :=
  { sc with entries := sc.entries.map fun p => (ν.bound k p.1, p.2) }

/-- The record of a definition with its name changed. -/
def binding (b : Binding) : Binding := { b with name := ν.bound b.scope b.name }

/-- The tree with its names changed. -/
def tree (t : ScopeTree) : ScopeTree where
  scopes := t.scopes.mapIdx ν.scopeAt
  bindings := t.bindings.map ν.binding

/-- The resolved program with its names changed. -/
def resolution (r : Resolution) : Resolution where
  tree := ν.tree r.tree
  program := r.program.rename ν.binder (ν.use r.tree)

/-- The program that a resolved program is when the names are changed. -/
def program (r : Resolution) : Program Span :=
  (r.program.rename ν.binder (ν.use r.tree)).map Scoped.span

variable {ν}

lemma bound_of_ne_name {k : ScopeId} {z : String} (h : z ≠ ν.name) : ν.bound k z = z :=
  if_neg fun h' => h h'.2

lemma bound_of_ne_scope {k : ScopeId} {z : String} (h : k ≠ ν.scope) : ν.bound k z = z :=
  if_neg fun h' => h h'.1

lemma bound_self : ν.bound ν.scope ν.name = ν.fresh := if_pos ⟨rfl, rfl⟩

/-- In one scope different names stay different. -/
lemma bound_inj {k : ScopeId} {y z : String} (hy : y ≠ ν.fresh) (hz : z ≠ ν.fresh) :
    ν.bound k y = ν.bound k z ↔ y = z := by
  constructor
  · intro h
    unfold bound at h
    split_ifs at h with hy' hz' hz'
    · exact hy'.2.trans hz'.2.symm
    · exact absurd h.symm hz
    · exact absurd h hy
    · exact h
  · exact congrArg _

/-! ### The tree -/

lemma scopes_tree (t : ScopeTree) (k : ℕ) :
    (ν.tree t).scopes[k]? = t.scopes[k]?.map (ν.scopeAt k) := by
  rw [tree, Array.getElem?_mapIdx]

lemma tree_push (t : ScopeTree) (kind : ScopeKind) (parent : ScopeId) :
    ν.tree (t.push kind parent) = (ν.tree t).push kind parent := by
  unfold tree ScopeTree.push
  rw [Array.mapIdx_push]
  rfl

lemma tree_enter (t : ScopeTree) (k : ScopeId) (z : String) (e : Entry) :
    ν.tree (t.enter k z e) = (ν.tree t).enter k (ν.bound k z) e := by
  have hscopes : (ν.tree (t.enter k z e)).scopes = ((ν.tree t).enter k (ν.bound k z) e).scopes := by
    refine Array.ext_getElem? fun i => ?_
    rw [scopes_tree, ScopeTree.scopes_enter, ScopeTree.scopes_enter, scopes_tree]
    split_ifs with hi
    · subst hi
      cases t.scopes[k]? with
      | none => rfl
      | some sc => simp [scopeAt]
    · rfl
  exact congrArg (ScopeTree.mk · _) hscopes

lemma tree_register (t : ScopeTree) (b : Binding) :
    ν.tree (t.register b) = (ν.tree t).register (ν.binding b) := by
  have hmodify : ∀ (scopes : Array Scope) (k : ℕ) (f : Scope → Scope),
      (∀ i sc, ν.scopeAt i (f sc) = f (ν.scopeAt i sc)) →
      (scopes.modify k f).mapIdx ν.scopeAt = (scopes.mapIdx ν.scopeAt).modify k f := by
    intro scopes k f hf
    refine Array.ext_getElem? fun i => ?_
    simp only [Array.getElem?_mapIdx, Array.getElem?_modify]
    split_ifs
    · simp only [Option.map_map, Function.comp_def, hf]
    · rfl
  unfold tree ScopeTree.register
  rw [hmodify, hmodify, Array.map_push]
  · rfl
  · exact fun i sc => rfl
  · exact fun i sc => rfl

lemma entry_register (t : ScopeTree) (b : Binding) (k : ScopeId) (z : String) :
    ScopeTree.entry? (t.register b) k z = t.entry? k z := by
  unfold ScopeTree.entry? ScopeTree.register
  simp only [Array.getElem?_modify]
  cases t.scopes[k]? with
  | none => split_ifs <;> rfl
  | some sc => split_ifs <;> rfl

lemma lookup_map_bound {k : ScopeId} {l : List (String × Entry)} (hl : ν.fresh ∉ l.map Prod.fst)
    {z : String} (hz : z ≠ ν.fresh) :
    (l.map fun p => (ν.bound k p.1, p.2)).lookup (ν.bound k z) = l.lookup z := by
  induction l with
  | nil => rfl
  | cons p l ih =>
    obtain ⟨y, e⟩ := p
    rw [List.map_cons, List.mem_cons, not_or] at hl
    rw [List.map_cons, lookup_cons_ite, lookup_cons_ite, ih hl.2]
    simp only [bound_inj hz (Ne.symm hl.1)]

/-- In the scope itself a name denotes what it did before it was changed. -/
lemma entry_tree {t : ScopeTree} (hfresh : ∀ k, t.entry? k ν.fresh = none) (k : ScopeId)
    {z : String} (hz : z ≠ ν.fresh) :
    ScopeTree.entry? (ν.tree t) k (ν.bound k z) = t.entry? k z := by
  have hk := hfresh k
  unfold ScopeTree.entry? at hk ⊢
  rw [scopes_tree]
  cases hsc : t.scopes[k]? with
  | none => rfl
  | some sc =>
    rw [hsc] at hk
    exact lookup_map_bound (lookup_eq_none_iff_notMem.1 hk) hz

/-! ### Resolution -/

variable (ν) in
/-- Resolution of the program and of the renamed one are at the same point. -/
structure Mirrors (r r' : Resolving) : Prop where
  tree : r'.tree = ν.tree r.tree
  nextId : r'.nextId = r.nextId
  fresh : ∀ k, r.tree.entry? k ν.fresh = none

variable (ν) in
/-- Neither the old name nor the new one is the discard. -/
structure Binds : Prop where
  name : isDiscard ν.name = false
  fresh : isDiscard ν.fresh = false

lemma Binds.isDiscard_bound (h : ν.Binds) (k : ScopeId) (z : String) :
    isDiscard (ν.bound k z) = isDiscard z := by
  unfold bound
  split_ifs with hz
  · rw [h.fresh, hz.2, h.name]
  · rfl

namespace Mirrors

variable {r r' r₁ : Resolving} (h : ν.Mirrors r r')

include h

lemma size : r'.size = r.size := by
  show r'.tree.scopes.size = _
  rw [h.tree, Renaming.tree, Array.size_mapIdx]

lemma report (e e' : Event) : ν.Mirrors { r with log := r.log.push e }
    { r' with log := r'.log.push e' } := ⟨h.tree, h.nextId, h.fresh⟩

lemma openScope {kind : ScopeKind} {k inner : ScopeId}
    (hrun : ResolveM.openScope kind k r = .ok inner r₁) :
    ∃ r₁', ResolveM.openScope kind k r' = .ok inner r₁' ∧ ν.Mirrors r₁ r₁' := by
  obtain ⟨rfl, rfl⟩ := ResolveM.openScope_eq_ok hrun
  refine ⟨{ r' with tree := r'.tree.push kind k }, ?_, ?_, h.nextId, fun i => ?_⟩
  · exact modifyGet_eq_ok.2 ⟨h.size, rfl⟩
  · rw [h.tree, tree_push]
  · have hi := h.fresh i
    unfold ScopeTree.entry? at hi ⊢
    rw [ScopeTree.scopes_push]
    split_ifs
    · rfl
    · exact hi

lemma freshId {id : DispatchId} (hrun : ResolveM.freshId r = .ok id r₁) :
    ∃ r₁', ResolveM.freshId r' = .ok id r₁' ∧ ν.Mirrors r₁ r₁' := by
  have hroom : ResolveM.Succeeds ResolveM.freshId r' := by
    rw [ResolveM.succeeds_freshId, h.nextId]
    exact ResolveM.succeeds_freshId.1 ⟨id, r₁, hrun⟩
  obtain ⟨id', r₁', hrun'⟩ := hroom
  obtain ⟨rfl, rfl, -⟩ := ResolveM.freshId_eq_ok hrun
  obtain ⟨rfl, rfl, -⟩ := ResolveM.freshId_eq_ok hrun'
  refine ⟨{ r' with nextId := r'.nextId + 1 }, ?_, h.tree, ?_, h.fresh⟩
  · rw [h.nextId] at hrun' ⊢
    exact hrun'
  · show r'.nextId + 1 = r.nextId + 1
    rw [h.nextId]

lemma enter {k : ScopeId} {z : String} (hz : z ≠ ν.fresh) (e : Entry) :
    ν.Mirrors { r with tree := r.tree.enter k z e }
      { r' with tree := r'.tree.enter k (ν.bound k z) e } := by
  refine ⟨?_, h.nextId, fun i => ?_⟩
  · rw [h.tree, tree_enter]
  · have hi := h.fresh i
    unfold ScopeTree.entry? at hi ⊢
    rw [ScopeTree.scopes_enter]
    split_ifs
    · cases hsc : r.tree.scopes[i]? with
      | none => rfl
      | some sc =>
        rw [hsc] at hi
        show (sc.entries ++ [(z, e)]).lookup ν.fresh = none
        rw [lookup_append_or, lookup_cons_ite, if_neg (Ne.symm hz)]
        exact Option.or_eq_none_iff.2 ⟨hi, rfl⟩
    · exact hi

lemma bindName (hν : ν.Binds) {k : ScopeId} {z : String} (hz : z ≠ ν.fresh) {span : Span}
    {kind : BinderKind} {e : Entry} (hrun : ResolveM.bindName k z span kind e r = .ok () r₁) :
    ∃ r₁', ResolveM.bindName k (ν.bound k z) span kind e r' = .ok () r₁' ∧ ν.Mirrors r₁ r₁' := by
  unfold ResolveM.bindName
  rcases ResolveM.bindName_eq_ok hrun with ⟨hdisc, rfl⟩ | ⟨hdisc, hnone, rfl⟩
  · rw [hν.isDiscard_bound, if_pos hdisc]
    exact ⟨r', rfl, h⟩
  · rw [hν.isDiscard_bound, if_neg (by simp [hdisc])]
    refine ⟨_, bind_eq_ok.2 ⟨r', r', rfl, ?_⟩, h.enter hz e⟩
    have hnone' : r'.tree.entry? k (ν.bound k z) = none := by
      rw [h.tree, entry_tree h.fresh k hz]
      exact hnone
    rw [hnone']
    rfl

lemma parameters (hν : ν.Binds) {k : ScopeId} {ps : List (Ident Span)}
    (hps : ν.fresh ∉ ps.map Ident.name) {ps₁ : List (Ident Scoped)}
    (hrun : ResolveM.parameters k ps r = .ok ps₁ r₁) :
    ∃ r₁', ResolveM.parameters k ((ps₁.map (Ident.rename ν.binder)).map (Ident.map Scoped.span)) r'
      = .ok (ps₁.map (Ident.rename ν.binder)) r₁' ∧ ν.Mirrors r₁ r₁' := by
  induction ps generalizing r r' ps₁ with
  | nil =>
    obtain ⟨rfl, rfl⟩ := pure_eq_ok.1 hrun
    exact ⟨r', rfl, h⟩
  | cons p ps ih =>
    rw [List.map_cons, List.mem_cons, not_or] at hps
    rw [ResolveM.parameters] at hrun
    simp only [bind_eq_ok, pure_eq_ok] at hrun
    obtain ⟨⟨⟩, r₂, hbind, ps₂, r₃, hrest, rfl, rfl⟩ := hrun
    obtain ⟨r₂', hbind', h₂⟩ := h.bindName hν (Ne.symm hps.1) hbind
    obtain ⟨r₃', hrest', h₃⟩ := ih h₂ hps.2 hrest
    exact ⟨r₃', bind_eq_ok.2 ⟨(), r₂', hbind', bind_eq_ok.2 ⟨_, r₃', hrest', rfl⟩⟩, h₃⟩

lemma register {b : Binding} (hrun : ResolveM.register b r = .ok () r₁) :
    ∃ r₁', ResolveM.register (ν.binding b) r' = .ok () r₁' ∧ ν.Mirrors r₁ r₁' := by
  obtain ⟨hnext, htree⟩ := ResolveM.register_eq_ok hrun
  refine ⟨_, rfl, ?_, h.nextId.trans hnext.symm, fun i => ?_⟩
  · show r'.tree.register (ν.binding b) = _
    rw [h.tree, htree, tree_register]
  · rw [htree, entry_register]
    exact h.fresh i

end Mirrors

variable (ν) in
/-- Resolution of an expression is mirrored, whatever the identifiers are called. -/
def MirrorsExpr (e : Expr Span) : Prop :=
  ν.fresh ∉ e.names → ∀ (use : Ident Scoped → String) ⦃k : ScopeId⦄ ⦃r r' r₁ : Resolving⦄
    ⦃e₁ : Expr Scoped⦄, ν.Mirrors r r' → ResolveM.expression k e r = .ok e₁ r₁ →
    ∃ r₁', ResolveM.expression k ((e₁.rename ν.binder use).map Scoped.span) r'
      = .ok (e₁.rename ν.binder use) r₁' ∧ ν.Mirrors r₁ r₁'

variable (ν) in
/-- Resolution of definitions is mirrored, whatever the identifiers are called. -/
def MirrorsDefs (ds : List (Definition Span)) : Prop :=
  ν.fresh ∉ namesOfDefs ds → ∀ (use : Ident Scoped → String) ⦃g : ScopeId⦄ ⦃r r' r₁ : Resolving⦄
    ⦃ds₁ : List (Definition Scoped)⦄, ν.Mirrors r r' → ResolveM.definitions g ds r = .ok ds₁ r₁ →
    ∃ r₁', ResolveM.definitions g (mapDefs Scoped.span (renameDefs ν.binder use ds₁)) r'
      = .ok (renameDefs ν.binder use ds₁) r₁' ∧ ν.Mirrors r₁ r₁'

section Mirrored

variable (hν : ν.Binds)

include hν

lemma mirrorsExpr_lam {ps : List (Ident Span)} {b : Expr Span} {a : Span} (hb : ν.MirrorsExpr b) :
    ν.MirrorsExpr (.lam ps b a) := by
  intro hnames use k r r' r₁ e₁ h hrun
  rw [Expr.names, List.mem_append, not_or] at hnames
  rw [ResolveM.expression] at hrun
  simp only [bind_eq_ok, pure_eq_ok] at hrun
  obtain ⟨inner, r₂, hopen, ps₁, r₃, hps, b₁, r₄, hrest, rfl, rfl⟩ := hrun
  obtain ⟨r₂', hopen', h₂⟩ := h.openScope hopen
  obtain ⟨r₃', hps', h₃⟩ := h₂.parameters hν hnames.1 hps
  obtain ⟨r₄', hrest', h₄⟩ := hb hnames.2 use h₃ hrest
  refine ⟨r₄', ?_, h₄⟩
  rw [Expr.rename, Expr.map, ResolveM.expression]
  exact bind_eq_ok.2 ⟨_, _, hopen', bind_eq_ok.2 ⟨_, _, hps', bind_eq_ok.2 ⟨_, _, hrest', rfl⟩⟩⟩

omit hν in
lemma mirrorsExpr_call {f x : Expr Span} {a : Span} (hf : ν.MirrorsExpr f) (hx : ν.MirrorsExpr x) :
    ν.MirrorsExpr (.call f x a) := by
  intro hnames use k r r' r₁ e₁ h hrun
  rw [Expr.names, List.mem_append, not_or] at hnames
  rw [ResolveM.expression] at hrun
  simp only [bind_eq_ok, pure_eq_ok] at hrun
  obtain ⟨f₁, r₂, hrun₁, x₁, r₃, hrun₂, rfl, rfl⟩ := hrun
  obtain ⟨r₂', hrun₁', h₂⟩ := hf hnames.1 use h hrun₁
  obtain ⟨r₃', hrun₂', h₃⟩ := hx hnames.2 use h₂ hrun₂
  refine ⟨r₃', ?_, h₃⟩
  rw [Expr.rename, Expr.map, ResolveM.expression]
  exact bind_eq_ok.2 ⟨_, _, hrun₁', bind_eq_ok.2 ⟨_, _, hrun₂', rfl⟩⟩

omit hν in
lemma mirrorsExpr_ite {c p n : Expr Span} {a : Span} (hc : ν.MirrorsExpr c)
    (hp : ν.MirrorsExpr p) (hn : ν.MirrorsExpr n) : ν.MirrorsExpr (.ite c p n a) := by
  intro hnames use k r r' r₁ e₁ h hrun
  rw [Expr.names, List.mem_append, List.mem_append, not_or, not_or] at hnames
  rw [ResolveM.expression] at hrun
  simp only [bind_eq_ok, pure_eq_ok] at hrun
  obtain ⟨c₁, r₂, hrun₁, p₁, r₃, hrun₂, n₁, r₄, hrun₃, rfl, rfl⟩ := hrun
  obtain ⟨r₂', hrun₁', h₂⟩ := hc hnames.1.1 use h hrun₁
  obtain ⟨r₃', hrun₂', h₃⟩ := hp hnames.1.2 use h₂ hrun₂
  obtain ⟨r₄', hrun₃', h₄⟩ := hn hnames.2 use h₃ hrun₃
  refine ⟨r₄', ?_, h₄⟩
  rw [Expr.rename, Expr.map, ResolveM.expression]
  exact bind_eq_ok.2 ⟨_, _, hrun₁', bind_eq_ok.2 ⟨_, _, hrun₂', bind_eq_ok.2 ⟨_, _, hrun₃', rfl⟩⟩⟩

omit hν in
lemma mirrorsExpr_letIn {ds : List (Definition Span)} {b : Expr Span} {a : Span}
    (hds : ν.MirrorsDefs ds) (hb : ν.MirrorsExpr b) : ν.MirrorsExpr (.letIn ds b a) := by
  intro hnames use k r r' r₁ e₁ h hrun
  rw [Expr.names, List.mem_append, not_or] at hnames
  rw [ResolveM.expression] at hrun
  simp only [bind_eq_ok, pure_eq_ok, ResolveM.report, modify_eq_ok] at hrun
  obtain ⟨inner, r₂, hopen, -, _, rfl, ds₁, r₃, hdefs, b₁, r₄, hrest, rfl, rfl⟩ := hrun
  obtain ⟨r₂', hopen', h₂⟩ := h.openScope hopen
  obtain ⟨r₃', hdefs', h₃⟩ := hds hnames.1 use (h₂.report _ (.resolvingLet inner)) hdefs
  obtain ⟨r₄', hrest', h₄⟩ := hb hnames.2 use h₃ hrest
  refine ⟨r₄', ?_, h₄⟩
  rw [Expr.rename, Expr.map, ResolveM.expression]
  exact bind_eq_ok.2 ⟨_, _, hopen', bind_eq_ok.2 ⟨_, _, rfl,
    bind_eq_ok.2 ⟨_, _, hdefs', bind_eq_ok.2 ⟨_, _, hrest', rfl⟩⟩⟩⟩

lemma mirrorsDefs_cons {n : Ident Span} {ps : List (Ident Span)} {b : Expr Span} {a : Span}
    {ds : List (Definition Span)} (hb : ν.MirrorsExpr b) (hds : ν.MirrorsDefs ds) :
    ν.MirrorsDefs (⟨n, ps, b, a⟩ :: ds) := by
  intro hnames use g r r' r₁ ds₁ h hrun
  rw [namesOfDefs, Definition.names, List.mem_append, List.cons_append, List.mem_cons,
    List.mem_append, not_or, not_or, not_or] at hnames
  obtain ⟨⟨hname, hps, hbody⟩, hrest⟩ := hnames
  rw [ResolveM.definitions, ResolveM.definition] at hrun
  simp only [bind_eq_ok, pure_eq_ok] at hrun
  obtain ⟨d₁, r₂, ⟨inner, r₃, hrun₁, ps₁, r₄, hrun₂, b₁, r₅, hrun₃, id, r₆, hrun₄, ⟨⟩, r₇, hrun₅,
    ⟨⟩, r₈, hrun₆, rfl, rfl⟩, ds₂, r₉, hrun₇, rfl, rfl⟩ := hrun
  obtain ⟨r₃', hrun₁', h₃⟩ := h.openScope hrun₁
  obtain ⟨r₄', hrun₂', h₄⟩ := h₃.parameters hν hps hrun₂
  obtain ⟨r₅', hrun₃', h₅⟩ := hb hbody use h₄ hrun₃
  obtain ⟨r₆', hrun₄', h₆⟩ := h₅.freshId hrun₄
  obtain ⟨r₇', hrun₅', h₇⟩ := h₆.bindName hν (Ne.symm hname) hrun₅
  obtain ⟨r₈', hrun₆', h₈⟩ := h₇.register hrun₆
  obtain ⟨r₉', hrun₇', h₉⟩ := hds hrest use h₈ hrun₇
  have hlen : ((ps₁.map (Ident.rename ν.binder)).map (Ident.map Scoped.span)).length
      = ps.length := by
    rw [List.length_map, List.length_map, ← (ResolveM.parameters_eq_ok hrun₂).1, List.length_map]
  refine ⟨r₉', ?_, h₉⟩
  rw [renameDefs, mapDefs, Definition.map, ResolveM.definitions, ResolveM.definition]
  refine bind_eq_ok.2 ⟨_, _, ?_, bind_eq_ok.2 ⟨_, _, hrun₇', rfl⟩⟩
  rw [hlen]
  exact bind_eq_ok.2 ⟨_, _, hrun₁', bind_eq_ok.2 ⟨_, _, hrun₂', bind_eq_ok.2 ⟨_, _, hrun₃',
    bind_eq_ok.2 ⟨_, _, hrun₄', bind_eq_ok.2 ⟨_, _, hrun₅', bind_eq_ok.2 ⟨_, _, hrun₆', rfl⟩⟩⟩⟩⟩⟩

mutual

lemma mirrorsExpr : ∀ e : Expr Span, ν.MirrorsExpr e
  | .ident i => by
    intro _ use k r r' r₁ e₁ h hrun
    rw [ResolveM.expression, pure_eq_ok] at hrun
    obtain ⟨rfl, rfl⟩ := hrun
    exact ⟨r', rfl, h⟩
  | .int v a => by
    intro _ use k r r' r₁ e₁ h hrun
    rw [ResolveM.expression, pure_eq_ok] at hrun
    obtain ⟨rfl, rfl⟩ := hrun
    exact ⟨r', rfl, h⟩
  | .lam _ b _ => mirrorsExpr_lam hν (mirrorsExpr b)
  | .call f x _ => mirrorsExpr_call (mirrorsExpr f) (mirrorsExpr x)
  | .ite c p n _ => mirrorsExpr_ite (mirrorsExpr c) (mirrorsExpr p) (mirrorsExpr n)
  | .letIn ds b _ => mirrorsExpr_letIn (mirrorsDefs ds) (mirrorsExpr b)

lemma mirrorsDefs : ∀ ds : List (Definition Span), ν.MirrorsDefs ds
  | [] => by
    intro _ use g r r' r₁ ds₁ h hrun
    rw [ResolveM.definitions, pure_eq_ok] at hrun
    obtain ⟨rfl, rfl⟩ := hrun
    exact ⟨r', rfl, h⟩
  | ⟨_, _, b, _⟩ :: ds => mirrorsDefs_cons hν (mirrorsExpr b) (mirrorsDefs ds)

end

end Mirrored

lemma tree_ofBuiltins (hscope : ν.scope ≠ ScopeTree.root) (names : List String) :
    ν.tree (.ofBuiltins names) = .ofBuiltins names := by
  have hne : 0 ≠ ν.scope := Ne.symm hscope
  have hentries : (names.map (·, Entry.builtin)).map (fun p => (ν.bound 0 p.1, p.2))
      = names.map (·, Entry.builtin) := by
    simp only [bound_of_ne_scope hne, List.map_id']
  simp [tree, ScopeTree.ofBuiltins, scopeAt, hentries]

/-- The renamed program resolves, to the resolution renamed. -/
theorem resolve_rename (hν : ν.Binds) (hscope : ν.scope ≠ ScopeTree.root) {names : List String}
    {seed : DispatchId} {p : Program Span} {log log' : Array Event} {r : Resolution}
    (h : resolve names seed p log = .ok r log') (hp : ν.fresh ∉ p.names) (hnames : ν.fresh ∉ names)
    (log₁ : Array Event) :
    (∀ k, r.tree.entry? k ν.fresh = none) ∧
      ∃ log₂, resolve names seed (ν.program r) log₁ = .ok (ν.resolution r) log₂ := by
  obtain ⟨ds, r', hrun, rfl⟩ := resolve_eq_ok h
  have hstart : ν.Mirrors (.start names seed log) (.start names seed log₁) := by
    refine ⟨(tree_ofBuiltins hscope names).symm, rfl, fun k => ?_⟩
    rcases k with _ | k
    · have hnone : (names.map (·, Entry.builtin)).lookup ν.fresh = none := by
        rw [lookup_eq_none_iff_notMem, List.map_map]
        simpa using hnames
      exact hnone
    · rfl
  have hopen : ResolveM.openScope .program ScopeTree.root (.start names seed log) = .ok 1 _ := rfl
  obtain ⟨r₁', hopen', hopened⟩ := hstart.openScope hopen
  obtain ⟨-, rfl⟩ := ResolveM.openScope_eq_ok hopen'
  have hmirrors : ν.Mirrors (.opened names seed log) (.opened names seed log₁) :=
    hopened.report (.resolvingProgram 1) (.resolvingProgram 1)
  obtain ⟨r₂', hrun', h'⟩ := mirrorsDefs hν p.defs hp (ν.use r'.tree) hmirrors hrun
  rw [mapDefs_eq_map, renameDefs_eq_map] at hrun'
  have hdefs : ResolveM.definitions 1 (ν.program ⟨r'.tree, ds, p.ann, 1⟩).defs
      (.opened names seed log₁) = .ok (ds.map (Definition.rename ν.binder (ν.use r'.tree))) r₂' :=
    hrun'
  refine ⟨h'.fresh, r₂'.log, ?_⟩
  rw [resolve_eq, hdefs]
  dsimp only
  rw [h'.tree]
  rfl

/-! ### What names denote -/

section Lookup

variable {t : ScopeTree} (hfresh : ∀ k, t.entry? k ν.fresh = none)

lemma ancestors_tree (k : ScopeId) : (ν.tree t).ancestors k = t.ancestors k := by
  have hparent : ∀ s, (ν.tree t).parent? s = t.parent? s := by
    intro s
    unfold ScopeTree.parent?
    rw [scopes_tree]
    cases t.scopes[s]? <;> rfl
  have hchain : ∀ n s, (ν.tree t).chain n s = t.chain n s := by
    intro n
    induction n with
    | zero => exact fun _ => rfl
    | succ n ih =>
      intro s
      rw [ScopeTree.chain, ScopeTree.chain, hparent]
      cases t.parent? s with
      | none => rfl
      | some q => exact congrArg (s :: ·) (ih q)
  exact hchain _ k

lemma entry_tree_of_ne {k : ScopeId} (hk : k ≠ ν.scope) (z : String) :
    ScopeTree.entry? (ν.tree t) k z = t.entry? k z := by
  unfold ScopeTree.entry?
  rw [scopes_tree]
  cases t.scopes[k]? with
  | none => rfl
  | some sc =>
    show (sc.entries.map fun p => (ν.bound k p.1, p.2)).lookup z = sc.entries.lookup z
    simp only [bound_of_ne_scope hk, List.map_id']

lemma entry_tree_name (hne : ν.name ≠ ν.fresh) :
    ScopeTree.entry? (ν.tree t) ν.scope ν.name = none := by
  unfold ScopeTree.entry?
  rw [scopes_tree]
  cases t.scopes[ν.scope]? with
  | none => rfl
  | some sc =>
    refine lookup_eq_none_iff_notMem.2 fun hmem => ?_
    obtain ⟨q, hq, hname⟩ := List.mem_map.1 hmem
    obtain ⟨p, -, rfl⟩ := List.mem_map.1 hq
    by_cases hp : p.1 = ν.name
    · dsimp only at hname
      rw [hp, bound_self] at hname
      exact hne hname.symm
    · exact hp ((bound_of_ne_name hp).symm.trans hname)

include hfresh

/-- A name denotes in its scope what it denoted before it was changed. -/
lemma lookup_seen (hne : ν.name ≠ ν.fresh) (k : ScopeId) {z : String} (hz : z ≠ ν.fresh) :
    (ν.tree t).lookup k (ν.seen t k z) = t.lookup k z := by
  unfold ScopeTree.lookup seen ScopeTree.home?
  rw [ancestors_tree]
  by_cases hname : z = ν.name
  · subst hname
    simp only [and_true]
    -- on the way to the root the first scope that has the name decides
    induction t.ancestors k with
    | nil => rfl
    | cons s l ih =>
      cases hs : t.entry? s ν.name with
      | some e =>
        simp only [List.find?_cons, hs, Option.isSome_some, List.findSome?_cons, Option.some.injEq]
        by_cases hscope : s = ν.scope
        · subst hscope
          have hentry := entry_tree hfresh ν.scope hne
          rw [bound_self, hs] at hentry
          rw [if_pos rfl, hentry]
        · rw [if_neg hscope, entry_tree_of_ne hscope, hs]
      | none =>
        simp only [List.find?_cons, hs, Option.isSome_none, List.findSome?_cons]
        have hnone : ∀ y, y = ν.name ∨ y = ν.fresh → ScopeTree.entry? (ν.tree t) s y = none := by
          intro y hy
          by_cases hscope : s = ν.scope
          · subst hscope
            rcases hy with rfl | rfl
            · exact entry_tree_name hne
            · have hentry := entry_tree hfresh ν.scope hne
              rwa [bound_self, hs] at hentry
          · rw [entry_tree_of_ne hscope]
            rcases hy with rfl | rfl
            · exact hs
            · exact hfresh s
        rw [hnone, ih]
        split_ifs
        · exact Or.inr rfl
        · exact Or.inl rfl
  · rw [if_neg fun h => hname h.2]
    refine congrArg (List.findSome? · _) (funext fun s => ?_)
    rw [← entry_tree hfresh s hz, bound_of_ne_name hname]

end Lookup

/-! ### Classification -/

section Classification

variable {t : ScopeTree} (hfresh : ∀ k, t.entry? k ν.fresh = none) (hne : ν.name ≠ ν.fresh)

lemma ownerOf_tree (t : ScopeTree) (k : ScopeId) :
    (ν.tree t).ownerOf? k = (t.ownerOf? k).map ν.binding := by
  have howner : (ν.tree t).scopes[k]?.bind (·.owner) = t.scopes[k]?.bind (·.owner) := by
    rw [scopes_tree]
    cases t.scopes[k]? <;> rfl
  unfold ScopeTree.ownerOf?
  rw [howner]
  cases t.scopes[k]?.bind (·.owner) with
  | none => rfl
  | some id =>
    show (t.bindings.map ν.binding).find? (·.id == id) = _
    rw [Array.find?_map]
    rfl

include hfresh hne

/-- An identifier denotes what it did. -/
lemma denotes_use {i : Ident Scoped} (hi : i.name ≠ ν.fresh) :
    (ν.tree t).denotes (i.rename (ν.use t)) = t.denotes i := lookup_seen hfresh hne _ hi

lemma references_rename {e : Expr Scoped} (he : ν.fresh ∉ e.names) :
    (ν.tree t).references (e.rename ν.binder (ν.use t)) = t.references e := by
  unfold ScopeTree.references
  rw [Expr.idents_rename, List.filterMap_map]
  refine List.filterMap_congr fun i hi => ?_
  have hname : i.name ≠ ν.fresh := fun h => he (h ▸ mem_names_of_mem_idents hi)
  rw [Function.comp_apply, denotes_use hfresh hne hname]

lemma callGraph_rename {ds : List (Definition Scoped)} (hds : ν.fresh ∉ namesOfDefs ds) :
    (ν.tree t).callGraph (ds.map (Definition.rename ν.binder (ν.use t))) = t.callGraph ds := by
  have hnumbered : (ν.tree t).numbered (ds.map (Definition.rename ν.binder (ν.use t)))
      = (t.numbered ds).map fun m => (m.1, m.2.rename ν.binder (ν.use t)) := by
    unfold ScopeTree.numbered
    rw [List.filterMap_map, List.map_filterMap]
    refine List.filterMap_congr fun d _ => ?_
    show ((ν.tree t).ownerOf? d.ann.scope).map _ = _
    rw [ownerOf_tree]
    cases t.ownerOf? d.ann.scope <;> rfl
  unfold ScopeTree.callGraph
  simp only [hnumbered, List.foldl_map]
  refine List.foldl_ext _ _ _ fun g m hm => ?_
  have hbody : ν.fresh ∉ m.2.body.names := by
    obtain ⟨d, hd, heq⟩ := List.mem_filterMap.1 hm
    obtain ⟨b, -, rfl⟩ := Option.map_eq_some_iff.1 heq
    exact fun h => hds (mem_namesOfDefs.2 ⟨d, hd, Or.inr (List.mem_append_right _ h)⟩)
  show List.foldl _ g (((ν.tree t).references (m.2.body.rename _ _)).filter _) = _
  rw [references_rename hfresh hne hbody]

omit hfresh hne in
lemma groupingsInDefs_rename_of {ds : List (Definition Scoped)} (hds : ν.fresh ∉ namesOfDefs ds)
    (h : ∀ d ∈ ds, ν.fresh ∉ d.body.names →
      (ν.tree t).groupingsIn (d.body.rename ν.binder (ν.use t)) = t.groupingsIn d.body) :
    (ν.tree t).groupingsInDefs (renameDefs ν.binder (ν.use t) ds) = t.groupingsInDefs ds := by
  induction ds with
  | nil => rfl
  | cons d ds ih =>
    obtain ⟨n, ps, b, a⟩ := d
    rw [namesOfDefs, Definition.names, List.mem_append, List.mem_append, not_or, not_or] at hds
    rw [List.forall_mem_cons] at h
    rw [renameDefs, ScopeTree.groupingsInDefs, ScopeTree.groupingsInDefs, h.1 hds.1.2,
      ih hds.2 h.2]

lemma groupingsIn_rename {e : Expr Scoped} (he : ν.fresh ∉ e.names) :
    (ν.tree t).groupingsIn (e.rename ν.binder (ν.use t)) = t.groupingsIn e := by
  induction e using Expr.induction with
  | ident i => rfl
  | int v a => rfl
  | lam ps b a ih =>
    rw [Expr.names, List.mem_append, not_or] at he
    exact ih he.2
  | call f x a ihf ihx =>
    rw [Expr.names, List.mem_append, not_or] at he
    rw [Expr.rename, ScopeTree.groupingsIn, ScopeTree.groupingsIn, ihf he.1, ihx he.2]
  | ite c p n a ihc ihp ihn =>
    rw [Expr.names, List.mem_append, List.mem_append, not_or, not_or] at he
    rw [Expr.rename, ScopeTree.groupingsIn, ScopeTree.groupingsIn, ihc he.1.1, ihp he.1.2,
      ihn he.2]
  | letIn ds b a ihds ihb =>
    rw [Expr.names, List.mem_append, not_or] at he
    rw [Expr.rename, ScopeTree.groupingsIn, ScopeTree.groupingsIn,
      groupingsInDefs_rename_of he.1 ihds, ihb he.2, ScopeTree.grouping, renameDefs_eq_map,
      callGraph_rename hfresh hne he.1]
    rfl

lemma groupingsInDefs_rename {ds : List (Definition Scoped)} (hds : ν.fresh ∉ namesOfDefs ds) :
    (ν.tree t).groupingsInDefs (renameDefs ν.binder (ν.use t) ds) = t.groupingsInDefs ds :=
  groupingsInDefs_rename_of hds fun _ _ => groupingsIn_rename hfresh hne

end Classification

/-- The definitions are recursive in the same ways, under the same numbers. -/
lemma classify_rename {r : Resolution} (hfresh : ∀ k, r.tree.entry? k ν.fresh = none)
    (hne : ν.name ≠ ν.fresh) (hnames : ν.fresh ∉ r.program.names) :
    (ν.resolution r).classify = r.classify := by
  have hdefs := groupingsInDefs_rename hfresh hne hnames
  rw [renameDefs_eq_map] at hdefs
  have hgroup : (ν.tree r.tree).grouping r.program.ann.scope
      (r.program.defs.map (Definition.rename ν.binder (ν.use r.tree)))
      = r.tree.grouping r.program.ann.scope r.program.defs := by
    rw [ScopeTree.grouping, callGraph_rename hfresh hne hnames]
    rfl
  unfold Resolution.classify
  exact congrArg Classification.mk (congrArg₂ List.cons hgroup hdefs)

end Renaming

end Letrec
