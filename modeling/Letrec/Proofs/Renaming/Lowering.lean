import Mathlib
import Letrec.Proofs.Lowering.Failure
import Letrec.Proofs.Recursion.Names
import Letrec.Proofs.Renaming.Alpha
import Letrec.Proofs.Renaming.Resolution

/-!
# Lowering a renamed program

Where neither the old name nor the new one is made up by lowering, the terms of a program and of the
renamed one differ only in the names of variables (`alpha_lower`).  The names that lowering makes up
may well be used elsewhere in the program: they are not changed, and both terms treat them alike.

Inside of a scope a variable is called what a name is called that is used there (`Called`).  Two
scopes differ in that for the renamed name alone, so a term fits a scope around its own as soon as
the renamed name is not free in it.
-/

namespace Letrec

lemma Term.notMem_of_mem_freeVars_lams {xs : List String} {f : Term} {z : String}
    (h : z ∈ (Term.lams xs f).freeVars) : z ∉ xs := by
  induction xs with
  | nil => simp
  | cons x xs ih =>
    obtain ⟨hz, hne⟩ := List.mem_filter.1 h
    rw [List.mem_cons, not_or]
    exact ⟨by simpa using hne, ih hz⟩

namespace Renaming

variable {ν : Renaming} {t : ScopeTree} {k : ScopeId}

variable (ν t k) in
/-- What a variable is called in a term of the scope `k`. -/
def Called (z z' : String) : Prop := z ≠ ν.fresh ∧ z' = ν.seen t k z

variable (ν) in
/-- Neither the old name nor the new one is made up by lowering. -/
structure Apart : Prop where
  name : ¬ Generated ν.name
  fresh : ¬ Generated ν.fresh

lemma seen_of_ne {z : String} (h : z ≠ ν.name) : ν.seen t k z = z := if_neg fun h' => h h'.2

lemma seen_congr {s : ScopeId} {z : String} (h : t.home? k z = t.home? s z) :
    ν.seen t k z = ν.seen t s z := by
  unfold seen
  rw [h]

lemma seen_inj {y z : String} (hy : y ≠ ν.fresh) (hz : z ≠ ν.fresh) :
    ν.seen t k y = ν.seen t k z ↔ y = z := by
  constructor
  · intro h
    unfold seen at h
    split_ifs at h with hy' hz' hz'
    · exact hy'.2.trans hz'.2.symm
    · exact absurd h.symm hz
    · exact absurd h hy
    · exact h
  · rintro rfl
    rfl

/-- Names that lowering makes up stay. -/
lemma Apart.called (h : ν.Apart) {z : String} (hz : Generated z) : ν.Called t k z z :=
  ⟨fun heq => h.fresh (heq ▸ hz), (seen_of_ne fun heq => h.name (heq ▸ hz)).symm⟩

/-! ### The terms that lowering builds -/

open Term (Alpha)

section Terms

variable {f f' : Term}

lemma alpha_lam (h : f.Alpha (ν.Called t k) f') {y : String} (hy : y ≠ ν.fresh) :
    (Term.lam y f).Alpha (ν.Called t k) (.lam (ν.seen t k y) f') := by
  refine .lam (h.mono fun z z' _ hz => ?_)
  obtain ⟨hz, rfl⟩ := hz
  by_cases hzy : z = y
  · exact Or.inl ⟨hzy, by rw [hzy]⟩
  · exact Or.inr ⟨hzy, fun heq => hzy ((seen_inj hz hy).1 heq), hz, rfl⟩

lemma alpha_lams (h : f.Alpha (ν.Called t k) f') {ys : List String} (hys : ν.fresh ∉ ys) :
    (Term.lams ys f).Alpha (ν.Called t k) (.lams (ys.map (ν.seen t k)) f') := by
  induction ys with
  | nil => exact h
  | cons y ys ih =>
    rw [List.mem_cons, not_or] at hys
    exact alpha_lam (ih hys.2) (Ne.symm hys.1)

lemma alpha_fix (h : f.Alpha (ν.Called t k) f') {y : String} (hy : y ≠ ν.fresh) :
    (Term.fix y f).Alpha (ν.Called t k) (.fix (ν.seen t k y) f') := by
  refine .app (.of_freeVars (by decide) ?_) (alpha_lam h hy)
  simp [Term.y, Term.yHalf, Term.freeVars]

variable (hν : ν.Apart)

include hν

lemma alpha_cond {c c' p p' n n' : Term} (hc : c.Alpha (ν.Called t k) c')
    (hp : p.Alpha (ν.Called t k) p') (hn : n.Alpha (ν.Called t k) n') :
    (Term.cond c p n).Alpha (ν.Called t k) (.cond c' p' n') :=
  .app (.app (.app (.var (hν.called (Or.inl rfl))) hc) hp) hn

lemma alpha_selection {m m' : DispatchId × Term} {ms ms' : List (DispatchId × Term)}
    (h : List.Forall₂ (fun q q' => q.1 = q'.1 ∧ q.2.Alpha (ν.Called t k) q'.2) (m :: ms)
      (m' :: ms')) :
    (Term.selection m ms).Alpha (ν.Called t k) (.selection m' ms') := by
  induction ms generalizing m m' ms' with
  | nil =>
    obtain _ | ⟨hm, _ | _⟩ := h
    exact hm.2
  | cons n ms ih =>
    obtain _ | ⟨hm, hms⟩ := h
    obtain _ | ⟨hn, hms⟩ := hms
    refine alpha_cond hν ?_ hm.2 (ih (.cons hn hms))
    rw [hm.1]
    exact .app (.app (.var (hν.called (Or.inr (Or.inl rfl))))
      (.var (hν.called (Or.inr (Or.inr (Or.inl rfl)))))) .int

lemma alpha_dispatchTable {id : DispatchId} {m m' : DispatchId × Term}
    {ms ms' : List (DispatchId × Term)}
    (h : List.Forall₂ (fun q q' => q.1 = q'.1 ∧ q.2.Alpha (ν.Called t k) q'.2) (m :: ms)
      (m' :: ms')) :
    (Term.dispatchTable (tableAlias id) m ms).Alpha (ν.Called t k)
      (.dispatchTable (tableAlias id) m' ms') := by
  have htable : ν.Called t k (tableAlias id) (tableAlias id) :=
    hν.called (Or.inr (Or.inr (Or.inr ⟨id, rfl⟩)))
  have htag : ν.Called t k tagName tagName := hν.called (Or.inr (Or.inr (Or.inl rfl)))
  have hselection := alpha_fix (alpha_lam (alpha_selection hν h) htag.1) htable.1
  rwa [← htag.2, ← htable.2] at hselection

omit hν in
lemma alpha_chain {bs bs' : List (String × Term)} (hf : f.Alpha (ν.Called t k) f')
    (h : List.Forall₂ (fun b b' => ν.Called t k b.1 b'.1 ∧ b.2.Alpha (ν.Called t k) b'.2) bs bs') :
    (LowerContext.chain bs f).Alpha (ν.Called t k) (LowerContext.chain bs' f') := by
  induction h with
  | nil => exact hf
  | @cons b b' bs bs' hb _ ih =>
    have hlam := alpha_lam ih hb.1.1
    rw [← hb.1.2] at hlam
    exact .app hlam hb.2

omit hν in
/-- A term of one scope is one of another scope as well, if its free variables are called the same
there. -/
lemma alpha_congr {s : ScopeId} (h : f.Alpha (ν.Called t k) f')
    (hseen : ∀ z ∈ f.freeVars, ν.seen t k z = ν.seen t s z) : f.Alpha (ν.Called t s) f' :=
  h.mono fun z _ hz hcalled => ⟨hcalled.1, hcalled.2.trans (hseen z hz)⟩

end Terms

/-! ### Names of scopes -/

variable (ν) in
/-- The renaming fits the program: the new name does not occur in it, and neither name is the
discard or made up by lowering. -/
structure Suits (r : Resolution) : Prop where
  binds : ν.Binds
  apart : ν.Apart
  ne : ν.name ≠ ν.fresh
  unbound : ∀ k, r.tree.entry? k ν.fresh = none
  unused : ν.fresh ∉ r.program.names

lemma home?_self {z : String} (h : t.entry? k z ≠ none) : t.home? k z = some k := by
  have hsome : (t.entry? k z).isSome = true := Option.isSome_iff_ne_none.2 h
  rw [ScopeTree.home?, ScopeTree.ancestors, ScopeTree.chain, List.find?_cons, hsome]

/-- A scope calls a name that it binds as its uses are called there. -/
lemma bound_eq_seen {z : String} (h : t.entry? k z ≠ none) : ν.bound k z = ν.seen t k z := by
  unfold bound seen
  rw [home?_self h]
  simp only [Option.some.injEq]

section Scopes

variable (ht : t.ParentsBefore) (hν : ν.Binds) {a s : ScopeId} {sc : Scope}
  {ps : List (Ident Scoped)} (ha : t.scopes[a]? = some sc) (hparent : sc.parent = some s)
  (hentries : sc.entries = paramEntries ps) (hps : ∀ p ∈ ps, p.ann.scope = a)

include hν ha hentries hps

lemma names_params : (ps.map (Ident.rename ν.binder)).map Ident.name
    = (ps.map Ident.name).map (ν.seen t a) := by
  rw [List.map_map, List.map_map]
  refine List.map_congr_left fun p hp => ?_
  show ν.bound p.ann.scope p.name = ν.seen t a p.name
  rw [hps p hp]
  by_cases hname : p.name = ν.name
  · refine bound_eq_seen ?_
    have hbound : p.name ∈ boundParams ps :=
      mem_boundParams.2 ⟨List.mem_map_of_mem hp, by rw [hname]; exact hν.name⟩
    rw [t.entry_of_scope ha, Scope.get?, hentries, lookup_paramEntries, if_pos hbound]
    simp
  · rw [bound_of_ne_name hname, seen_of_ne hname]

include ht hparent

/-- A function in the scope `s` whose parameters have the scope `a`. -/
lemma alpha_function {f f' : Term} (h : f.Alpha (ν.Called t a) f')
    (hfresh : ν.fresh ∉ ps.map Ident.name) :
    (Term.lams (ps.map Ident.name) f).Alpha (ν.Called t s)
      (.lams ((ps.map (Ident.rename ν.binder)).map Ident.name) f') := by
  rw [names_params hν ha hentries hps]
  refine alpha_congr (alpha_lams h hfresh) fun z hz => seen_congr ?_
  rw [ScopeTree.home?_of_params ht ha hparent hentries, if_neg]
  exact fun hbound => Term.notMem_of_mem_freeVars_lams hz (mem_boundParams.1 hbound).1

end Scopes

/-! ### Groupings -/

variable {names : List String} {r : Resolution} {ids₀ : List DispatchId}

lemma Suits.classify_eq (hs : ν.Suits r) : (ν.resolution r).classify = r.classify :=
  classify_rename hs.unbound hs.ne hs.unused

lemma Suits.table?_eq (hs : ν.Suits r) (id : DispatchId) :
    (ν.resolution r).context.table? id = r.context.table? id := by
  show (ν.resolution r).classify.tables.lookup id = r.classify.tables.lookup id
  rw [hs.classify_eq]

lemma Suits.isDiscard_rename (hs : ν.Suits r) (d : Definition Scoped)
    (use : Ident Scoped → String) :
    (d.rename ν.binder use).isDiscard = d.isDiscard := hs.binds.isDiscard_bound _ _

/-- A reference stays a reference to the same thing. -/
lemma alpha_refer (hr : r.WellScoped names ids₀) (hs : ν.Suits r) {y : String} (hy : y ≠ ν.fresh)
    (e : Entry) : (r.context.refer y e).Alpha (ν.Called r.tree k)
      ((ν.resolution r).context.refer (ν.seen r.tree k y) e) := by
  cases e with
  | parameter => exact .var ⟨hy, rfl⟩
  | builtin => exact .var ⟨hy, rfl⟩
  | binding id =>
    simp only [LowerContext.refer, LowerContext.reference, hs.table?_eq]
    cases htable : r.context.table? id with
    | none => exact .var ⟨hy, rfl⟩
    | some table =>
      obtain ⟨first, rest, -, -, rfl⟩ := hr.mem_tables_iff.1 (mem_of_lookup_eq_some htable)
      exact .app (.var (hs.apart.called (Or.inr (Or.inr (Or.inr ⟨first, rfl⟩))))) .int

lemma mem_zip_rename {use : Ident Scoped → String} {ids : List DispatchId}
    {ds : List (Definition Scoped)} {id : DispatchId} {d : Definition Scoped}
    (hd : (id, d) ∈ ids.zip ds) :
    (id, d.rename ν.binder use) ∈ ids.zip (ds.map (Definition.rename ν.binder use)) := by
  rw [List.zip_map_right]
  exact List.mem_map.2 ⟨(id, d), hd, rfl⟩

/-- The definitions of a grouping keep their numbers. -/
lemma group_ids_eq {g : ScopeId} {ids ids' : List DispatchId} {ds ds' : List (Definition Scoped)}
    (hg : Group r.tree g ids ds) (hg' : Group (ν.resolution r).tree g ids' ds') : ids' = ids := by
  obtain ⟨_, _, hdecl⟩ := hg.declared
  obtain ⟨_, _, hdecl'⟩ := hg'.declared
  have hscope := hdecl'.scope
  rw [resolution, scopes_tree, hdecl.scope] at hscope
  exact (congrArg Scope.declared (Option.some.inj hscope)).symm

section Group

variable (hr : r.WellScoped names ids₀) (hs : ν.Suits r) {kind : ScopeKind} {s g : ScopeId}
  {ids : List DispatchId} {ds : List (Definition Scoped)}
  (hdecl : DeclaredIn r.tree kind s g ids ds) (hg : Group r.tree g ids ds)
  (hg' : Group (ν.resolution r).tree g ids (ds.map (Definition.rename ν.binder (ν.use r.tree))))
  (hds : ν.fresh ∉ namesOfDefs ds)
  (hcodes : ∀ id d code code', (id, d) ∈ ids.zip ds → r.context.DefLowers d code →
    (ν.resolution r).context.DefLowers (d.rename ν.binder (ν.use r.tree)) code' →
    code.Alpha (ν.Called r.tree g) code')

include hdecl hg hds in
/-- A definition is called as its uses are called in its grouping. -/
lemma called_name {id : DispatchId} {d : Definition Scoped} (hd : (id, d) ∈ ids.zip ds)
    (hdisc : d.isDiscard = false) :
    ν.Called r.tree g d.name.name (d.rename ν.binder (ν.use r.tree)).name.name := by
  have hmem := (List.of_mem_zip hd).2
  refine ⟨fun heq => hds (heq ▸ name_mem_namesOfDefs hmem), ?_⟩
  show ν.bound d.name.ann.scope d.name.name = _
  rw [(hg.defs.of_mem_zip hd).name]
  refine bound_eq_seen ?_
  have hkey : d.name.name ∈ (groupEntries ids ds).map Prod.fst := by
    rw [map_fst_groupEntries hg.length]
    exact mem_boundNames.2 ⟨d, hmem, rfl, hdisc⟩
  obtain ⟨e, he⟩ := lookup_isSome_of_mem hkey
  rw [ScopeTree.entry_of_scope hdecl.scope]
  show (groupEntries ids ds).lookup d.name.name ≠ none
  rw [he]
  simp

include hs hdecl hg hg' hds hcodes

/-- The variable and the value of a component. -/
lemma alpha_component {c : List DispatchId} (hc : c ≠ []) (hids : ∀ id ∈ c, id ∈ ids)
    {o o' : Option (String × Term)} (h : ComponentLowers r.context ids ds c o)
    (h' : ComponentLowers (ν.resolution r).context ids
      (ds.map (Definition.rename ν.binder (ν.use r.tree))) c o') :
    Option.Rel (fun b b' => ν.Called r.tree g b.1 b'.1 ∧ b.2.Alpha (ν.Called r.tree g) b'.2)
      o o' := by
  match c with
  | [] => exact absurd rfl hc
  | [id] =>
    obtain ⟨d, hd⟩ := exists_mem_zip_of_mem_left hg.length (hids id (by simp))
    rcases h.single hg hd with ⟨hdisc, rfl⟩ | ⟨hdisc, code, hcode, rfl⟩
    · rcases h'.single hg' (mem_zip_rename hd) with ⟨-, rfl⟩ | ⟨hdisc', -⟩
      · exact .none
      · rw [hs.isDiscard_rename, hdisc] at hdisc'
        exact absurd hdisc' (by simp)
    · rcases h'.single hg' (mem_zip_rename hd) with ⟨hdisc', -⟩ | ⟨-, code', hcode', rfl⟩
      · rw [hs.isDiscard_rename, hdisc] at hdisc'
        exact absurd hdisc' (by simp)
      · have hcalled := called_name hdecl hg hds hd hdisc
        have halpha := hcodes id d code code' hd hcode hcode'
        have hflags : (ν.resolution r).context.classification.flags id
            = r.context.classification.flags id := congrArg (·.flags id) hs.classify_eq
        refine .some ⟨hcalled, ?_⟩
        rw [hflags]
        dsimp only
        split_ifs
        · rw [hcalled.2]
          exact alpha_fix halpha hcalled.1
        · exact halpha
  | i :: j :: c =>
    obtain ⟨q, qs, rfl, hqs⟩ := h.several
    obtain ⟨q', qs', rfl, hqs'⟩ := h'.several
    refine .some ⟨hs.apart.called (Or.inr (Or.inr (Or.inr ⟨i, rfl⟩))), ?_⟩
    refine alpha_dispatchTable hs.apart (forall₂_of_common hqs hqs' ?_)
    rintro id - q q' ⟨rfl, d, hd, hcode⟩ ⟨heq, d', hd', hcode'⟩
    obtain rfl := hg'.eq_of_mem_zip hd' (mem_zip_rename hd)
    exact ⟨heq, hcodes _ d _ _ hd hcode hcode'⟩

include hr in
/-- The bindings of a grouping around a body. -/
lemma alpha_grouping (hmem : (g, ds) ∈ r.program.groups) {cs : List (List DispatchId)}
    (hcs : ∀ c ∈ cs, c ∈ r.classify.components g) {os os' : List (Option (String × Term))}
    (hos : List.Forall₂ (ComponentLowers r.context ids ds) cs os)
    (hos' : List.Forall₂ (ComponentLowers (ν.resolution r).context ids
      (ds.map (Definition.rename ν.binder (ν.use r.tree)))) cs os') {b b' : Term}
    (hb : b.Alpha (ν.Called r.tree g) b') :
    (LowerContext.chain os.reduceOption b).Alpha (ν.Called r.tree g)
      (LowerContext.chain os'.reduceOption b') := by
  refine alpha_chain hb (List.rel_filterMap (fun o o' ho => ho) (forall₂_of_common hos hos' ?_))
  intro c hc o o' ho ho'
  exact alpha_component hs hdecl hg hg' hds hcodes (hr.mem_components hmem hg (hcs c hc)).2
    (fun id hid => Surface.mem_ids_of_component hr hmem hg (hcs c hc) hid) ho ho'

end Group

/-- A term of a grouping is one of the scope around it, if the renamed name is not free in it where
the grouping binds that name. -/
lemma alpha_outside (ht : r.tree.ParentsBefore) {kind : ScopeKind} {s g : ScopeId}
    {ids : List DispatchId} {ds : List (Definition Scoped)}
    (hdecl : DeclaredIn r.tree kind s g ids ds) (hlen : ids.length = ds.length) {f f' : Term}
    (h : f.Alpha (ν.Called r.tree g) f')
    (hclosed : ν.name ∈ boundNames ds → f.ClosedIn {z | z ≠ ν.name}) :
    f.Alpha (ν.Called r.tree s) f' := by
  refine alpha_congr h fun z hz => ?_
  by_cases hbound : z ∈ boundNames ds
  · have hne : z ≠ ν.name := by
      rintro rfl
      exact (hclosed hbound).free _ hz rfl
    rw [seen_of_ne hne, seen_of_ne hne]
  · exact seen_congr (ScopeTree.home?_group_of_notMem ht hdecl hlen hbound)

/-! ### Expressions -/

variable (ν r) in
/-- An expression and the renamed one become terms that differ only in the names of variables. -/
def LowersAlpha (e : Expr Scoped) : Prop :=
  ν.fresh ∉ e.names → ∀ ⦃s : ScopeId⦄ ⦃f f' : Term⦄, r.HasPart s e →
    (ν.resolution r).HasPart s (e.rename ν.binder (ν.use r.tree)) →
    Lowers (r.context.expression e) f →
    Lowers ((ν.resolution r).context.expression (e.rename ν.binder (ν.use r.tree))) f' →
    f.Alpha (ν.Called r.tree s) f'

section Lowered

variable {ids₀' : List DispatchId} (hr : r.WellScoped names ids₀)
  (hr' : (ν.resolution r).WellScoped names ids₀') (hs : ν.Suits r)

include hr hs

lemma alpha_definition {g : ScopeId} {ids : List DispatchId} {ds : List (Definition Scoped)}
    (hg : Group r.tree g ids ds)
    (hg' : Group (ν.resolution r).tree g ids (ds.map (Definition.rename ν.binder (ν.use r.tree))))
    (hmem : (g, ds) ∈ r.program.groups)
    (hmem' : (g, ds.map (Definition.rename ν.binder (ν.use r.tree)))
      ∈ (ν.resolution r).program.groups) (hds : ν.fresh ∉ namesOfDefs ds)
    (ih : ∀ d ∈ ds, LowersAlpha ν r d.body) {id : DispatchId} {d : Definition Scoped}
    (hd : (id, d) ∈ ids.zip ds) {code code' : Term} (hcode : r.context.DefLowers d code)
    (hcode' : (ν.resolution r).context.DefLowers (d.rename ν.binder (ν.use r.tree)) code') :
    code.Alpha (ν.Called r.tree g) code' := by
  obtain ⟨b, hb, rfl⟩ := hcode
  obtain ⟨b', hb', rfl⟩ := hcode'
  have hmemd := (List.of_mem_zip hd).2
  have hnames : ν.fresh ∉ d.params.map Ident.name ++ d.body.names :=
    fun h => hds (mem_namesOfDefs.2 ⟨d, hmemd, Or.inr h⟩)
  rw [List.mem_append, not_or] at hnames
  have hdef := hg.defs.of_mem_zip hd
  exact alpha_function hr.parents hs.binds hdef.scope rfl rfl hdef.params
    (ih d hmemd hnames.2 (hg.hasPart hmem hd) (hg'.hasPart hmem' (mem_zip_rename hd)) hb hb')
    hnames.1

include hr'

lemma lowersAlpha (e : Expr Scoped) : LowersAlpha ν r e := by
  induction e using Expr.induction with
  | ident i =>
    intro hnames s f f' hpart _ hf hf'
    have hscope := hpart.wellScoped
    rw [Expr.WellScoped] at hscope
    have hname : i.name ≠ ν.fresh := fun h => hnames (by simp [Expr.names, h])
    obtain ⟨e, he, rfl⟩ := LowerContext.lowers_ident hf
    obtain ⟨e', he', rfl⟩ := LowerContext.lowers_ident hf'
    have hdenotes := denotes_use hs.unbound hs.ne hname
    obtain rfl : e' = e := Option.some.inj (he'.symm.trans (hdenotes.trans he))
    rw [← hscope]
    exact alpha_refer hr hs hname e'
  | int v a =>
    intro _ s f f' _ _ hf hf'
    obtain rfl := LowerContext.lowers_int hf
    obtain rfl := LowerContext.lowers_int hf'
    exact .int
  | lam ps b a ih =>
    intro hnames s f f' hpart hpart' hf hf'
    rw [Expr.names, List.mem_append, not_or] at hnames
    obtain ⟨b₁, hb, rfl⟩ := LowerContext.lowers_lam hf
    obtain ⟨b₁', hb', rfl⟩ := LowerContext.lowers_lam hf'
    obtain ⟨hscope, hpartb⟩ := hpart.lam
    have hscoped := hpart.wellScoped
    rw [Expr.WellScoped] at hscoped
    exact alpha_function hr.parents hs.binds hscope rfl rfl hscoped.1
      (ih hnames.2 hpartb hpart'.lam.2 hb hb') hnames.1
  | call f x a ihf ihx =>
    intro hnames s u u' hpart hpart' hu hu'
    rw [Expr.names, List.mem_append, not_or] at hnames
    obtain ⟨f₁, x₁, hf, hx, rfl⟩ := LowerContext.lowers_call hu
    obtain ⟨f₁', x₁', hf', hx', rfl⟩ := LowerContext.lowers_call hu'
    exact .app (ihf hnames.1 hpart.call.1 hpart'.call.1 hf hf')
      (ihx hnames.2 hpart.call.2 hpart'.call.2 hx hx')
  | ite c p n a ihc ihp ihn =>
    intro hnames s u u' hpart hpart' hu hu'
    rw [Expr.names, List.mem_append, List.mem_append, not_or, not_or] at hnames
    obtain ⟨c₁, p₁, n₁, hc, hp, hn, rfl⟩ := LowerContext.lowers_ite hu
    obtain ⟨c₁', p₁', n₁', hc', hp', hn', rfl⟩ := LowerContext.lowers_ite hu'
    exact alpha_cond hs.apart (ihc hnames.1.1 hpart.ite.1 hpart'.ite.1 hc hc')
      (ihp hnames.1.2 hpart.ite.2.1 hpart'.ite.2.1 hp hp')
      (ihn hnames.2 hpart.ite.2.2 hpart'.ite.2.2 hn hn')
  | letIn ds b a ihds ihb =>
    intro hnames s u u' hpart hpart' hu hu'
    rw [Expr.names, List.mem_append, not_or] at hnames
    rw [Expr.rename, renameDefs_eq_map] at hpart' hu'
    obtain ⟨hmem, hpartb, ids, hdecl, hg⟩ := hpart.letIn
    obtain ⟨hmem', hpartb', ids', -, hg'⟩ := hpart'.letIn
    obtain rfl := group_ids_eq hg hg'
    obtain ⟨b₁, hb, hgroup⟩ := LowerContext.lowers_letIn hu
    obtain ⟨b₁', hb', hgroup'⟩ := LowerContext.lowers_letIn hu'
    -- a name of the block is not free in its term
    have hclosed : ν.name ∈ boundNames ds → u.ClosedIn {z | z ≠ ν.name} := by
      intro hbound
      refine lowersClosed hr (.letIn ds b a) hpart hu (fun h => hs.apart.name (Or.inl h.symm))
        (fun h => hs.apart.name (Or.inr (Or.inl h.symm))) fun y hy e _ => ?_
      refine Surface.closedIn_refer_ne hr hs.apart.name ?_ e
      rintro rfl
      cases hy with
      | binding _ _ _ hnot => exact hnot hbound
      | body _ hnot => exact hnot hbound
    obtain ⟨os, hos, rfl⟩ := hr.lowers_grouping hmem hg hgroup
    obtain ⟨os', hos', rfl⟩ := hr'.lowers_grouping hmem' hg' hgroup'
    rw [hs.classify_eq] at hos'
    have halpha := alpha_grouping hr hs hdecl hg hg' hnames.1
      (fun id d code code' hd hcode hcode' =>
        alpha_definition hr hs hg hg' hmem hmem' hnames.1 ihds hd hcode hcode')
      hmem (fun c hc => hc) hos hos' (ihb hnames.2 hpartb hpartb' hb hb')
    exact alpha_outside hr.parents hdecl hg.length halpha hclosed

end Lowered

/-! ### Programs -/

lemma seen_root (hscope : ν.scope ≠ ScopeTree.root) (z : String) :
    ν.seen t ScopeTree.root z = z := by
  refine if_neg fun h => hscope ?_
  have hmem := List.mem_of_find?_eq_some h.1
  rw [ScopeTree.ancestors, ScopeTree.chain, List.mem_cons] at hmem
  rcases hmem with hroot | hmem
  · exact hroot
  · cases hparent : t.parent? ScopeTree.root with
    | none => simp [hparent] at hmem
    | some s =>
      rw [hparent] at hmem
      exact absurd hmem List.not_mem_nil

section Program

variable {entry : String} {ids₀' : List DispatchId} (hr : r.WellScoped names ids₀)
  (hentry : ν.scope = r.program.ann.scope → ν.name ≠ entry ∧ ν.fresh ≠ entry)

include hr hentry

/-- The definition of the entry point keeps its name, and no other one gets it. -/
lemma name_eq_entry_iff {id : DispatchId} {d : Definition Scoped}
    (hd : (id, d) ∈ ids₀.zip r.program.defs) :
    (d.rename ν.binder (ν.use r.tree)).name.name = entry ↔ d.name.name = entry := by
  show ν.bound d.name.ann.scope d.name.name = entry ↔ _
  rw [(hr.defs.of_mem_zip hd).name, bound]
  split_ifs with hren
  · obtain ⟨hscope, hname⟩ := hren
    obtain ⟨hne, hne'⟩ := hentry hscope.symm
    rw [hname]
    exact iff_of_false hne' hne
  · rfl

variable (hr' : (ν.resolution r).WellScoped names ids₀') (hs : ν.Suits r)

include hr' hs

/-- The terms of a program and of the renamed one differ only in the names of variables. -/
lemma alpha_lower (hscope : ν.scope ≠ ScopeTree.root) (hif : "if" ≠ ν.fresh) (heq : "==" ≠ ν.fresh)
    {f f' : Term} (hf : Lowers (r.lower r.classify entry) f)
    (hf' : Lowers ((ν.resolution r).lower (ν.resolution r).classify entry) f') :
    f.Alpha (· = ·) f' := by
  have hg := hr.program_group
  have hg' : Group (ν.resolution r).tree r.program.ann.scope ids₀'
    (r.program.defs.map (Definition.rename ν.binder (ν.use r.tree))) := hr'.program_group
  obtain rfl := group_ids_eq hg hg'
  have hmem : (r.program.ann.scope, r.program.defs) ∈ r.program.groups := List.mem_cons_self
  obtain ⟨id, d, os, hd, hname, hdisc, hos, rfl⟩ := hr.lowers_program hf
  obtain ⟨id', d', os', hd', hname', hdisc', hos', rfl⟩ := hr'.lowers_program hf'
  rw [hs.classify_eq] at hos'
  -- both programs start with the same definition
  obtain rfl : id' = id := by
    change (id', d') ∈ ids₀'.zip (r.program.defs.map _) at hd'
    rw [List.zip_map_right] at hd'
    obtain ⟨⟨i, d₀⟩, hd₀, hpair⟩ := List.mem_map.1 hd'
    obtain ⟨rfl, rfl⟩ := Prod.mk.inj hpair
    have hname₀ := (name_eq_entry_iff hr hentry hd₀).1 hname'
    rw [hs.isDiscard_rename] at hdisc'
    exact Resolution.WellScoped.number_eq_of_name hg hd₀ hd hdisc' (hname₀.trans hname.symm)
  have hseen : entry = ν.seen r.tree r.program.ann.scope entry := by
    have hcalled := (called_name hr.declared hg hs.unused hd hdisc).2
    rwa [(name_eq_entry_iff hr hentry hd).2 hname, hname] at hcalled
  have hfresh : entry ≠ ν.fresh := by
    rintro rfl
    exact hs.unused (hname ▸ name_mem_namesOfDefs (List.of_mem_zip hd).2)
  have hrefer := alpha_refer (k := r.program.ann.scope) hr hs hfresh (.binding id')
  rw [← hseen] at hrefer
  have hgrouping := alpha_grouping hr hs hr.declared hg hg' hs.unused
    (fun id d code code' hd hcode hcode' =>
      alpha_definition hr hs hg hg' hmem List.mem_cons_self hs.unused
        (fun d _ => lowersAlpha hr hr' hs d.body) hd hcode hcode')
    hmem (fun c hc => hc) hos hos' hrefer
  -- a name of the program is not free in the chain of its definitions
  have hclosed : ν.name ∈ boundNames r.program.defs →
      (LowerContext.chain os.reduceOption (r.context.refer entry (.binding id'))).ClosedIn
        {z | z ≠ ν.name} := by
    intro hbound
    refine closedIn_grouping hr hr.declared hg hmem (fun d _ => lowersClosed hr d.body)
      (fun h => hs.apart.name (Or.inl h.symm)) (fun h => hs.apart.name (Or.inr (Or.inl h.symm)))
      hos (List.nil_append _).symm (by simp) (fun d _ x _ _ hx e _ => ?_)
      (fun B' _ hdefs => hname ▸ hdefs id' d hd hdisc)
    refine Surface.closedIn_refer_ne hr hs.apart.name ?_ e
    rintro rfl
    exact hx hbound
  have hchain := alpha_outside hr.parents hr.declared hg.length hgrouping hclosed
  have hroot : ∀ z, z ≠ ν.fresh → ν.Called r.tree ScopeTree.root z z :=
    fun z hz => ⟨hz, (seen_root hscope z).symm⟩
  have hifAlias := hs.apart.called (t := r.tree) (k := ScopeTree.root) (Or.inl rfl)
  have heqAlias := hs.apart.called (t := r.tree) (k := ScopeTree.root) (Or.inr (Or.inl rfl))
  have hlam := alpha_lam hchain heqAlias.1
  rw [← heqAlias.2] at hlam
  have hprogram := alpha_lam (.app hlam (.var (hroot _ heq))) hifAlias.1
  rw [← hifAlias.2] at hprogram
  exact (Alpha.app hprogram (.var (hroot _ hif))).mono
    fun z z' _ hz => (seen_root hscope z).symm.trans hz.2.symm

end Program

end Renaming

end Letrec
