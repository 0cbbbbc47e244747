import Mathlib
import Letrec.Proofs.Scope.Free

/-!
# Lexical scoping

What a name stands for can be said without a tree of scopes.  An environment is passed down the
program: it starts with the builtin names; a grouping adds all its definitions at once, for their
bodies and for the body of the block; a function adds its parameters for its body; what is added
last hides what was there.  The environment says which node of the program binds a name, and it
looks at names only, so the annotations of the program do not matter (`Program.binders_map`).

Resolution works the other way round: it records where an identifier stands, and the name is looked
up when the tree is finished.  Main result: `resolve_lexical`, both find the same.
-/

namespace Letrec

variable {α β : Type}

/-! ### Environments of nodes -/

/-- What binds a name. -/
inductive Binder (α : Type) where
  /-- A builtin operation. -/
  | builtin
  /-- A parameter of a function. -/
  | parameter (p : Ident α)
  /-- A definition of a grouping. -/
  | definition (d : Definition α)

/-- Change the annotations of the node that binds a name. -/
def Binder.map (f : α → β) : Binder α → Binder β
  | .builtin => .builtin
  | .parameter p => .parameter (p.map f)
  | .definition d => .definition (d.map f)

namespace Lexical

/-- What binds the names that are visible, the innermost first. -/
abbrev Env (α : Type) := List (String × Binder α)

/-- Only the builtin names are visible. -/
def ofBuiltins (names : List String) : Env α := names.map (·, .builtin)

/-- Inside of a function its parameters are visible. -/
def bindParams (ps : List (Ident α)) (E : Env α) : Env α :=
  ((ps.filter fun p => !isDiscard p.name).map fun p => (p.name, .parameter p)) ++ E

/-- Inside of a grouping all its definitions are visible. -/
def bindDefs (ds : List (Definition α)) (E : Env α) : Env α :=
  ((ds.filter fun d => !d.isDiscard).map fun d => (d.name.name, .definition d)) ++ E

/-- Change the annotations of all nodes of an environment. -/
def Env.map (f : α → β) (E : Env α) : Env β := List.map (Prod.map id (Binder.map f)) E

end Lexical

open Lexical

mutual

/-- The identifiers of an expression in source order, each with what binds it. -/
def Expr.binders (E : Lexical.Env α) : Expr α → List (Ident α × Option (Binder α))
  | .ident i => [(i, E.lookup i.name)]
  | .int _ _ => []
  | .lam ps b _ => b.binders (bindParams ps E)
  | .call f x _ => f.binders E ++ x.binders E
  | .ite c p n _ => c.binders E ++ p.binders E ++ n.binders E
  | .letIn ds b _ => bindersOfDefs (bindDefs ds E) ds ++ b.binders (bindDefs ds E)

/-- The identifiers in the bodies of a list of definitions, each with what binds it. -/
def bindersOfDefs (E : Lexical.Env α) : List (Definition α) → List (Ident α × Option (Binder α))
  | [] => []
  | ⟨_, ps, b, _⟩ :: ds => b.binders (bindParams ps E) ++ bindersOfDefs E ds

end

/-- The identifiers of a program in source order, each with what binds it. -/
def Program.binders (builtins : List String) (p : Program α) :
    List (Ident α × Option (Binder α)) :=
  bindersOfDefs (bindDefs p.defs (ofBuiltins builtins)) p.defs

lemma mem_bindersOfDefs {E : Lexical.Env α} {ds : List (Definition α)}
    {q : Ident α × Option (Binder α)} :
    q ∈ bindersOfDefs E ds ↔ ∃ d ∈ ds, q ∈ d.body.binders (bindParams d.params E) := by
  induction ds with
  | nil => simp [bindersOfDefs]
  | cons d ds ih =>
    obtain ⟨n, ps, b, a⟩ := d
    rw [bindersOfDefs, List.mem_append, ih, List.exists_mem_cons_iff]

/-! ### All identifiers, whatever the annotations -/

lemma fst_bindersOfDefs {ds : List (Definition α)} {E : Lexical.Env α}
    (h : ∀ d ∈ ds, ∀ E : Lexical.Env α, (d.body.binders E).map Prod.fst = d.body.idents) :
    (bindersOfDefs E ds).map Prod.fst = identsOfDefs ds := by
  induction ds with
  | nil => rfl
  | cons d ds ih =>
    rw [List.forall_mem_cons] at h
    obtain ⟨n, ps, b, a⟩ := d
    rw [bindersOfDefs, identsOfDefs, List.map_append, h.1, ih h.2]

lemma Expr.fst_binders (e : Expr α) (E : Lexical.Env α) :
    (e.binders E).map Prod.fst = e.idents := by
  induction e using Expr.induction generalizing E with
  | ident i => rfl
  | int v a => rfl
  | lam ps b a ih => exact ih _
  | call f x a ihf ihx => rw [binders, idents, List.map_append, ihf, ihx]
  | ite c p n a ihc ihp ihn =>
    rw [binders, idents, List.map_append, List.map_append, ihc, ihp, ihn]
  | letIn ds b a ihds ihb =>
    rw [binders, idents, List.map_append, fst_bindersOfDefs ihds, ihb]

/-- Change the annotations of an identifier and of what binds it. -/
def mapFound (f : α → β) (q : Ident α × Option (Binder α)) :
    Ident β × Option (Binder β) := (q.1.map f, q.2.map (Binder.map f))

section Map

variable (f : α → β)

lemma Lexical.map_bindParams (ps : List (Ident α)) (E : Lexical.Env α) :
    bindParams (ps.map (Ident.map f)) (E.map f) = (bindParams ps E).map f := by
  unfold bindParams Lexical.Env.map
  rw [List.map_append, List.filter_map, List.map_map, List.map_map]
  rfl

lemma Lexical.map_bindDefs (ds : List (Definition α)) (E : Lexical.Env α) :
    bindDefs (mapDefs f ds) (E.map f) = (bindDefs ds E).map f := by
  have hname : ∀ d : Definition α, (d.map f).name = d.name.map f := by
    rintro ⟨n, ps, b, a⟩
    rfl
  unfold bindDefs Lexical.Env.map
  rw [mapDefs_eq_map, List.map_append, List.filter_map, List.map_map, List.map_map]
  simp [Function.comp_def, Definition.isDiscard, hname, Ident.map, Binder.map]

lemma Lexical.lookup_map (x : String) (E : Lexical.Env α) :
    (E.map f).lookup x = (E.lookup x).map (Binder.map f) := by
  induction E with
  | nil => rfl
  | cons q E ih =>
    obtain ⟨y, o⟩ := q
    show ((y, o.map f) :: Lexical.Env.map f E).lookup x = _
    rw [lookup_cons_ite, lookup_cons_ite, ih]
    split_ifs <;> rfl

lemma bindersOfDefs_map {ds : List (Definition α)} (E : Lexical.Env α)
    (h : ∀ d ∈ ds, ∀ E : Lexical.Env α,
      (d.body.map f).binders (E.map f) = (d.body.binders E).map (mapFound f)) :
    bindersOfDefs (E.map f) (mapDefs f ds) = (bindersOfDefs E ds).map (mapFound f) := by
  induction ds with
  | nil => rfl
  | cons d ds ih =>
    rw [List.forall_mem_cons] at h
    obtain ⟨n, ps, b, a⟩ := d
    rw [mapDefs, Definition.map, bindersOfDefs, bindersOfDefs, map_bindParams, h.1, ih h.2,
      List.map_append]

lemma Expr.binders_map (e : Expr α) (E : Lexical.Env α) :
    (e.map f).binders (E.map f) = (e.binders E).map (mapFound f) := by
  induction e using Expr.induction generalizing E with
  | ident i =>
    rw [Expr.map, binders, binders, lookup_map]
    rfl
  | int v a => rfl
  | lam ps b a ih => rw [Expr.map, binders, binders, map_bindParams, ih]
  | call g x a ihg ihx =>
    rw [Expr.map, binders, binders, ihg, ihx, List.map_append]
  | ite c p n a ihc ihp ihn =>
    rw [Expr.map, binders, binders, ihc, ihp, ihn, List.map_append, List.map_append]
  | letIn ds b a ihds ihb =>
    rw [Expr.map, binders, binders, map_bindDefs, bindersOfDefs_map f _ ihds, ihb,
      List.map_append]

/-- What binds the names of a program does not depend on its annotations. -/
lemma Program.binders_map (builtins : List String) (p : Program α) :
    (p.map f).binders builtins = (p.binders builtins).map (mapFound f) := by
  have hstart : (ofBuiltins builtins : Lexical.Env β)
      = (ofBuiltins builtins : Lexical.Env α).map f := by
    unfold ofBuiltins Lexical.Env.map
    rw [List.map_map]
    rfl
  unfold Program.binders Program.map
  rw [← mapDefs_eq_map, hstart, map_bindDefs]
  exact bindersOfDefs_map f _ fun d _ => d.body.binders_map f

end Map

/-! ### What is found in the tree -/

/-- The tree has for a name what binds it: a definition under the number that is registered for that
very node. -/
inductive ScopeTree.Finds (t : ScopeTree) : Option (Binder Scoped) → Option Entry → Prop
  | nothing : Finds t none none
  | builtin : Finds t (some .builtin) (some .builtin)
  | parameter {p} : Finds t (some (.parameter p)) (some .parameter)
  | definition {d b} : t.ownerOf? d.ann.scope = some b → b.paramScope = d.ann.scope →
      Finds t (some (.definition d)) (some (.binding b.id))

/-- In the scope `s` the tree has for every name what binds it in the environment. -/
def Lexical.Describes (t : ScopeTree) (s : ScopeId) (E : Lexical.Env Scoped) : Prop :=
  ∀ x, t.Finds (E.lookup x) (t.lookup s x)

section Found

variable {t : ScopeTree} (ht : t.ParentsBefore) {s a : ScopeId} {E : Lexical.Env Scoped}

/-- A function whose parameters have the scope `a`. -/
lemma Lexical.Describes.params {ps : List (Ident Scoped)} (h : Describes t s E)
    (hlookup : ∀ x, t.lookup a x
      = if x ∈ boundParams ps then some .parameter else t.lookup s x) :
    Describes t a (bindParams ps E) := by
  intro x
  have hkeys : ((ps.filter fun p => !isDiscard p.name).map
      fun p => (p.name, Binder.parameter p)).map Prod.fst = boundParams ps := by
    rw [List.map_map]
    rfl
  rw [hlookup, bindParams, lookup_append_or]
  split_ifs with hx
  · rw [← hkeys] at hx
    obtain ⟨o, ho⟩ := lookup_isSome_of_mem hx
    obtain ⟨p, -, hp⟩ := List.mem_map.1 (mem_of_lookup_eq_some ho)
    rw [ho, ← (Prod.mk.inj hp).2]
    exact .parameter
  · rw [← hkeys] at hx
    rw [lookup_eq_none_iff_notMem.2 hx, Option.none_or]
    exact h x

include ht

/-- A grouping whose definitions have the scope `a`. -/
lemma Lexical.Describes.defs {kind : ScopeKind} {ids : List DispatchId}
    {ds : List (Definition Scoped)} (h : Describes t s E) (hdecl : DeclaredIn t kind s a ids ds)
    (hdefs : DefsWellScoped t a ids ds) : Describes t a (bindDefs ds E) := by
  intro x
  have hkeys : ((ds.filter fun d => !d.isDiscard).map
      fun d => (d.name.name, Binder.definition d)).map Prod.fst = boundNames ds := by
    rw [List.map_map]
    rfl
  rw [bindDefs, lookup_append_or]
  by_cases hx : x ∈ boundNames ds
  · rw [← hkeys] at hx
    obtain ⟨o, ho⟩ := lookup_isSome_of_mem hx
    obtain ⟨d, hd, heq⟩ := List.mem_map.1 (mem_of_lookup_eq_some ho)
    obtain ⟨hd, hdisc⟩ := List.mem_filter.1 hd
    obtain ⟨rfl, rfl⟩ := Prod.mk.inj heq
    obtain ⟨id, hid⟩ := exists_mem_zip_of_mem_right hdefs.length hd
    rw [ho, lookup_group_of_mem ht hdecl hdefs.length hid (by simpa using hdisc)]
    exact .definition (hdefs.of_mem_zip hid).ownerOf? rfl
  · rw [lookup_group_of_notMem ht hdecl hdefs.length hx]
    rw [← hkeys] at hx
    rw [lookup_eq_none_iff_notMem.2 hx, Option.none_or]
    exact h x

/-- What is found in the bodies of the definitions of a grouping, if it is what binds the names of
every body. -/
lemma DefsWellScoped.finds {ids : List DispatchId} {ds : List (Definition Scoped)}
    (hdefs : DefsWellScoped t a ids ds) (h : Describes t a E)
    (hbody : ∀ d ∈ ds, ∀ s E, d.body.WellScoped t s → Describes t s E →
      ∀ q ∈ d.body.binders E, t.Finds q.2 (t.denotes q.1)) :
    ∀ q ∈ bindersOfDefs E ds, t.Finds q.2 (t.denotes q.1) := by
  intro q hq
  obtain ⟨d, hd, hq⟩ := mem_bindersOfDefs.1 hq
  obtain ⟨id, hid⟩ := exists_mem_zip_of_mem_right hdefs.length hd
  have hdef := hdefs.of_mem_zip hid
  exact hbody d hd _ _ hdef.body (h.params fun x => lookup_function ht hdef.scope) q hq

lemma Expr.WellScoped.finds {e : Expr Scoped} (hs : e.WellScoped t s) (h : Describes t s E) :
    ∀ q ∈ e.binders E, t.Finds q.2 (t.denotes q.1) := by
  induction e using Expr.induction generalizing s E with
  | ident i =>
    rw [Expr.WellScoped] at hs
    intro q hq
    obtain rfl := List.mem_singleton.1 hq
    show t.Finds _ (t.lookup i.ann.scope i.name)
    rw [hs]
    exact h i.name
  | int v a => exact fun q hq => absurd hq (by simp [Expr.binders])
  | lam ps b a ih =>
    rw [Expr.WellScoped] at hs
    exact ih hs.2.2 (h.params fun x => lookup_lambda ht hs.2.1)
  | call f x a ihf ihx =>
    rw [Expr.WellScoped] at hs
    rw [Expr.binders, List.forall_mem_append]
    exact ⟨ihf hs.2.1 h, ihx hs.2.2 h⟩
  | ite c p n a ihc ihp ihn =>
    rw [Expr.WellScoped] at hs
    rw [Expr.binders, List.forall_mem_append, List.forall_mem_append]
    exact ⟨⟨ihc hs.2.1 h, ihp hs.2.2.1 h⟩, ihn hs.2.2.2 h⟩
  | letIn ds b a ihds ihb =>
    rw [Expr.WellScoped] at hs
    obtain ⟨ids, hdecl, hdefs, hb⟩ := hs
    -- the definitions and the body see the same environment
    have hgroup := h.defs ht hdecl hdefs
    rw [Expr.binders, List.forall_mem_append]
    exact ⟨hdefs.finds ht hgroup fun d hd s E hs h => ihds d hd hs h, ihb hb hgroup⟩

end Found

/-! ### Programs -/

lemma Resolution.WellScoped.describes_root {names : List String} {r : Resolution}
    {ids : List DispatchId} (hr : r.WellScoped names ids) :
    Describes r.tree ScopeTree.root (ofBuiltins names) := by
  intro x
  rw [r.tree.lookup_eq hr.parents hr.root, Option.bind_none, Option.or_none]
  show r.tree.Finds ((names.map (·, .builtin)).lookup x)
    ((names.map fun y => (y, Entry.builtin)).lookup x)
  -- of names that occur twice both sides take the first
  clear hr
  induction names with
  | nil => exact .nothing
  | cons y names ih =>
    rw [List.map_cons, List.map_cons, lookup_cons_ite, lookup_cons_ite]
    split_ifs
    · exact .builtin
    · exact ih

/-- In a program that resolves, every identifier denotes in the finished tree what binds it when an
environment is passed down the program as it was written. -/
theorem resolve_lexical {names : List String} {seed : DispatchId} {p : Program Span}
    {log log' : Array Event} {r : Resolution} (h : resolve names seed p log = .ok r log') :
    (r.program.binders names).map (mapFound Scoped.span) = p.binders names ∧
      (r.program.binders names).map Prod.fst = identsOfDefs r.program.defs ∧
      ∀ q ∈ r.program.binders names,
        r.tree.Finds q.2 (r.tree.lookup q.1.ann.scope q.1.name) := by
  obtain ⟨rfl, ids, hr⟩ := resolve_wellScoped h
  have hgroup := hr.describes_root.defs hr.parents hr.declared hr.defs
  refine ⟨(r.program.binders_map Scoped.span names).symm, ?_, ?_⟩
  · exact fst_bindersOfDefs fun d _ => d.body.fst_binders
  · exact hr.defs.finds hr.parents hgroup fun d _ s E hs h => hs.finds hr.parents h

/-- `main = let y = g; g x = x; _ = y in g y` and `g _ = main`: the inner `g` is used before it is
declared and hides the outer one, which hides a builtin operation. -/
def hidingInner : Program Span where
  defs :=
    [⟨⟨"main", .nowhere⟩, [],
      .letIn
        [⟨⟨"y", .nowhere⟩, [], .ident ⟨"g", .nowhere⟩, .nowhere⟩,
         ⟨⟨"g", .nowhere⟩, [⟨"x", .nowhere⟩], .ident ⟨"x", .nowhere⟩, .nowhere⟩,
         ⟨⟨"_", .nowhere⟩, [], .ident ⟨"y", .nowhere⟩, .nowhere⟩]
        (.call (.ident ⟨"g", .nowhere⟩) (.ident ⟨"y", .nowhere⟩) .nowhere) .nowhere, .nowhere⟩,
     ⟨⟨"g", .nowhere⟩, [⟨"_", .nowhere⟩], .ident ⟨"main", .nowhere⟩, .nowhere⟩]
  ann := .nowhere

theorem resolve_lexical_hidingInner : ∃ r log, resolve ["g"] 0 hidingInner #[] = .ok r log ∧
    (r.program.binders ["g"]).map (fun q => r.tree.lookup q.1.ann.scope q.1.name)
      = [some (.binding 1), some .parameter, some (.binding 0), some (.binding 1),
        some (.binding 0), some (.binding 3)] ∧
    (r.program.binders ["g"]).map (mapFound Scoped.span) = hidingInner.binders ["g"] ∧
      (r.program.binders ["g"]).map Prod.fst = identsOfDefs r.program.defs ∧
      ∀ q ∈ r.program.binders ["g"],
        r.tree.Finds q.2 (r.tree.lookup q.1.ann.scope q.1.name) := by
  have hlookups : (value? (resolve ["g"] 0 hidingInner #[])).map (fun r =>
      (r.program.binders ["g"]).map fun q => r.tree.lookup q.1.ann.scope q.1.name)
      = some [some (.binding 1), some .parameter, some (.binding 0), some (.binding 1),
        some (.binding 0), some (.binding 3)] := by
    decide +kernel
  obtain ⟨r, hr, hlookups⟩ := Option.map_eq_some_iff.1 hlookups
  obtain ⟨log, hr⟩ := value?_eq_some.1 hr
  exact ⟨r, log, hr, hlookups, resolve_lexical hr⟩

end Letrec
