import Mathlib
import Letrec.Proofs.Lowering.Trace
import Letrec.Proofs.Surface.Program

/-!
# Lowering does not capture

Lowering emits names, and it binds some of its own between those of the program.  Still every
identifier is bound in the lowered program by the function that was made for what the identifier
denotes: by that of the parameter, or by one of the two that bind a definition, the one around the
rest of the grouping and the one of its fixed point.  For a member of a mutually recursive group it
is the table of the group that is bound.

`BoundFor` is what has to be found among the functions around.  An expression is lowered to a term
where all is bound as it has to be if its free names are bound so (`lowersBound`).  For a grouping
this goes from one component to the next; `Reached` is what holds between them.

Main result: `lower_capture_free`.
-/

namespace Letrec

/-! ### What an identifier has to become -/

/-- The scope that says what a name denotes: the innermost one that has the name. -/
def ScopeTree.home? (t : ScopeTree) (s : ScopeId) (name : String) : Option ScopeId :=
  (t.ancestors s).find? fun k => (t.entry? k name).isSome

/-- Under the functions `Γ`, the term `u` is bound as the name `x` of the scope `s` demands. -/
inductive BoundFor (r : Resolution) (s : ScopeId) (x : String) (u : Term) (Γ : Lambdas) : Prop
  | parameter {home} : r.tree.lookup s x = some .parameter → r.tree.home? s x = some home →
      u = .var x → Γ.lookup x = some (.parameter home x) → BoundFor r s x u Γ
  | definition {id} : r.tree.lookup s x = some (.binding id) →
      (∀ c ∈ r.classify.mutualGroups, id ∉ c) → u = .var x →
      Γ.lookup x = some (.definition id) ∨ Γ.lookup x = some (.ownDefinition id) →
      BoundFor r s x u Γ
  | member {id c z} : r.tree.lookup s x = some (.binding id) →
      c ∈ r.classify.mutualGroups → id ∈ c → dispatchAlias? c = some z →
      u = .app (.var z) (.ofId id) →
      Γ.lookup z = some (.table c) ∨ Γ.lookup z = some (.ownTable c) →
      BoundFor r s x u Γ
  | builtin : r.tree.lookup s x = some .builtin → u = .var x → Γ.lookup x = none →
      BoundFor r s x u Γ

/-- An identifier is bound as what it denotes demands. -/
def Occurrence.Bound (r : Resolution) (o : Occurrence) : Prop :=
  BoundFor r o.ident.ann.scope o.ident.name o.term o.around

/-- The occurrences are those of the identifiers, and all are bound. -/
structure Accounts (r : Resolution) (os : List Occurrence) (is : List (Ident Scoped)) : Prop where
  idents : (os.map Occurrence.ident).Perm is
  bound : ∀ o ∈ os, o.Bound r

lemma Accounts.nil {r : Resolution} : Accounts r [] [] := ⟨.refl _, by simp⟩

lemma Accounts.append {r : Resolution} {os os' : List Occurrence} {is is' : List (Ident Scoped)}
    (h : Accounts r os is) (h' : Accounts r os' is') : Accounts r (os ++ os') (is ++ is') := by
  refine ⟨?_, List.forall_mem_append.2 ⟨h.bound, h'.bound⟩⟩
  rw [List.map_append]
  exact h.idents.append h'.idents

lemma Accounts.perm {r : Resolution} {os : List Occurrence} {is is' : List (Ident Scoped)}
    (h : Accounts r os is) (his : is.Perm is') : Accounts r os is' := ⟨h.idents.trans his, h.bound⟩

/-! ### Home scopes -/

namespace ScopeTree

variable {t : ScopeTree} (ht : t.ParentsBefore) {s a : ScopeId} {x : String}

include ht

lemma home?_eq {sc : Scope} (ha : t.scopes[a]? = some sc) (hparent : sc.parent = some s) :
    t.home? a x = if (sc.get? x).isSome then some a else t.home? s x := by
  have hparent' : t.parent? a = some s := by rw [parent?, ha, Option.bind_some, hparent]
  have hlt := ht a sc s ha hparent
  rw [home?, ancestors, chain, List.find?_cons, entry_of_scope ha, hparent', Option.elim_some,
    chain_eq_chain ht hlt (Nat.lt_succ_self s)]
  cases (sc.get? x).isSome <;> rfl

/-- The scope of a function is the home of its parameters. -/
lemma home?_of_params {sc : Scope} {ps : List (Ident Scoped)} (ha : t.scopes[a]? = some sc)
    (hparent : sc.parent = some s) (hentries : sc.entries = paramEntries ps) :
    t.home? a x = if x ∈ boundParams ps then some a else t.home? s x := by
  rw [home?_eq ht ha hparent, Scope.get?, hentries, lookup_paramEntries]
  by_cases hx : x ∈ boundParams ps
  · rw [if_pos hx, if_pos hx, Option.isSome_some, if_pos rfl]
  · rw [if_neg hx, if_neg hx, Option.isSome_none, if_neg Bool.false_ne_true]

lemma home?_group_of_notMem {kind : ScopeKind} {ids : List DispatchId}
    {ds : List (Definition Scoped)} (hdecl : DeclaredIn t kind s a ids ds)
    (hlen : ids.length = ds.length) (hx : x ∉ boundNames ds) : t.home? a x = t.home? s x := by
  have hnone : (groupEntries ids ds).lookup x = none := by
    rw [lookup_eq_none_iff_notMem, map_fst_groupEntries hlen]
    exact hx
  rw [home?_eq ht hdecl.scope rfl, Scope.get?]
  show (if ((groupEntries ids ds).lookup x).isSome then _ else _) = _
  rw [hnone]
  rfl

end ScopeTree

/-! ### Changing the functions around -/

section Change

variable {r : Resolution} {s a : ScopeId} {x : String} {u : Term} {Γ Γ' : Lambdas}

lemma BoundFor.congr (h : BoundFor r s x u Γ) (hlookup : r.tree.lookup a x = r.tree.lookup s x)
    (hhome : r.tree.home? a x = r.tree.home? s x) : BoundFor r a x u Γ := by
  cases h with
  | parameter hx hs hu hΓ => exact .parameter (hlookup.trans hx) (hhome.trans hs) hu hΓ
  | definition hx hc hu hΓ => exact .definition (hlookup.trans hx) hc hu hΓ
  | member hx hc hid hz hu hΓ => exact .member (hlookup.trans hx) hc hid hz hu hΓ
  | builtin hx hu hΓ => exact .builtin (hlookup.trans hx) hu hΓ

/-- Only the functions that bind variables of the term matter. -/
lemma BoundFor.of_lookup (h : BoundFor r s x u Γ)
    (hΓ : ∀ y ∈ u.freeVars, Γ'.lookup y = Γ.lookup y) : BoundFor r s x u Γ' := by
  cases h with
  | parameter hx hs hu hx' =>
    exact .parameter hx hs hu ((hΓ x (by simp [hu, Term.freeVars])).trans hx')
  | definition hx hc hu hx' =>
    rw [← hΓ x (by simp [hu, Term.freeVars])] at hx'
    exact .definition hx hc hu hx'
  | @member id c z hx hc hid hz hu hz' =>
    rw [← hΓ z (by simp [hu, Term.freeVars])] at hz'
    exact .member hx hc hid hz hu hz'
  | builtin hx hu hx' => exact .builtin hx hu ((hΓ x (by simp [hu, Term.freeVars])).trans hx')

/-- A function that binds another variable does not matter. -/
lemma BoundFor.extend (h : BoundFor r s x u Γ) {z : String} (hz : z ∉ u.freeVars) (o : Origin) :
    BoundFor r s x u ((z, o) :: Γ) := by
  refine h.of_lookup fun y hy => ?_
  have hne : y ≠ z := by
    rintro rfl
    exact hz hy
  rw [lookup_cons_ite, if_neg hne]

lemma lookup_underParams_of_mem {ps : List (Ident Scoped)} (hx : x ∈ ps.map Ident.name) :
    (underParams a ps Γ).lookup x = some (.parameter a x) := by
  rw [← List.mem_reverse, ← map_fst_underParams a] at hx
  obtain ⟨o, ho⟩ := lookup_isSome_of_mem hx
  obtain ⟨p, -, hp⟩ := List.mem_map.1 (List.mem_reverse.1 (mem_of_lookup_eq_some ho))
  obtain ⟨rfl, rfl⟩ := Prod.mk.inj hp
  rw [underParams, lookup_append_or, ho, Option.some_or]

lemma lookup_underParams_of_notMem {ps : List (Ident Scoped)} (hx : x ∉ ps.map Ident.name) :
    (underParams a ps Γ).lookup x = Γ.lookup x := by
  rw [← List.mem_reverse, ← map_fst_underParams a] at hx
  rw [underParams, lookup_append_or, lookup_eq_none_iff_notMem.2 hx, Option.none_or]

end Change

/-! ### Names that are bound -/

/-- Under the functions `Γ`, a reference to the name `x` of the scope `s` is bound as it has to
be. -/
def Known (r : Resolution) (Γ : Lambdas) (s : ScopeId) (x : String) : Prop :=
  ∀ e, r.tree.lookup s x = some e → BoundFor r s x (r.context.refer x e) Γ

/-- Wherever the free names of an expression are known, its identifiers become bound. -/
def LowersBound (r : Resolution) (e : Expr Scoped) : Prop :=
  ∀ ⦃s : ScopeId⦄ ⦃t : Term⦄ ⦃Γ : Lambdas⦄, r.HasPart s e → Lowers (r.context.expression e) t →
    (∀ x ∈ e.names, ¬ Generated x) → r.tree.lookup s discard = none →
    (∀ x, e.Free x → Known r Γ s x) → ∃ os, Traced r Γ e t os ∧ Accounts r os e.liveIdents

/-- Some of the definitions of a grouping in the scope `s` are bound: those with the numbers `done`.
Of the names from outside only those in `F` matter. -/
structure Reached (r : Resolution) (s g : ScopeId) (ids : List DispatchId)
    (ds : List (Definition Scoped)) (F : Set String) (done : List DispatchId) (Γ : Lambdas) :
    Prop where
  outer : ∀ x ∈ F, x ∉ boundNames ds → Known r Γ s x
  bound : ∀ id d, (id, d) ∈ ids.zip ds → d.isDiscard = false → id ∈ done →
    BoundFor r g d.name.name (r.context.refer d.name.name (.binding id)) Γ

section Lowered

variable {names : List String} {r : Resolution} {ids₀ : List DispatchId}
  (hr : r.WellScoped names ids₀) {Γ : Lambdas}

include hr

/-- The names of the body of a function whose parameters have the scope `a`. -/
lemma known_params {ps : List (Ident Scoped)} {a s : ScopeId} {sc : Scope}
    (ha : r.tree.scopes[a]? = some sc) (hparent : sc.parent = some s)
    (hentries : sc.entries = paramEntries ps) (hps : ∀ x ∈ ps.map Ident.name, ¬ Generated x)
    (hdiscard : r.tree.lookup s discard = none) {x : String}
    (hx : x ∉ boundParams ps → Known r Γ s x) : Known r (underParams a ps Γ) a x := by
  have hlookup : r.tree.lookup a x
      = if x ∈ boundParams ps then some .parameter else r.tree.lookup s x := by
    rw [r.tree.lookup_eq hr.parents ha, Scope.get?, hentries, lookup_paramEntries, hparent]
    split_ifs <;> rfl
  have hhome := ScopeTree.home?_of_params (x := x) hr.parents ha hparent hentries
  intro e he
  by_cases hp : x ∈ boundParams ps
  · rw [if_pos hp] at hlookup hhome
    obtain rfl := Option.some.inj (hlookup.symm.trans he)
    exact .parameter hlookup hhome rfl (lookup_underParams_of_mem (mem_boundParams.1 hp).1)
  · rw [if_neg hp] at hlookup hhome
    rw [hlookup] at he
    refine ((hx hp e he).congr hlookup hhome).of_lookup fun y hy => ?_
    refine lookup_underParams_of_notMem fun hmem => ?_
    rcases hr.mem_freeVars_refer hy with rfl | ⟨id, first, rest, -, -, rfl, -⟩
    · -- a parameter that does not bind its name is the discard, which denotes nothing
      have hdisc : isDiscard y = true := by
        by_contra hne
        exact hp (mem_boundParams.2 ⟨hmem, by simpa using hne⟩)
      obtain rfl : y = discard := by simpa [isDiscard] using hdisc
      rw [hdiscard] at he
      exact absurd he (by simp)
    · exact hps _ hmem (Or.inr (Or.inr (Or.inr ⟨first, rfl⟩)))

/-- A definition that is a component of its own is in no group. -/
lemma notMem_mutualGroups {id : DispatchId}
    (hid : [id] ∈ r.classify.groupings.flatMap Grouping.components) :
    ∀ c ∈ r.classify.mutualGroups, id ∉ c := by
  intro c hc hmem
  obtain ⟨hc, hlen⟩ := List.mem_filter.1 hc
  obtain rfl := eq_of_mem_of_nodup_flatten hr.nodup_components hid hc
    (List.mem_singleton_self id) hmem
  exact absurd hlen (by simp)

section Group

variable {kind : ScopeKind} {s g : ScopeId} {ids : List DispatchId} {ds : List (Definition Scoped)}
  (hdecl : DeclaredIn r.tree kind s g ids ds) (hg : Group r.tree g ids ds)
  (hmem : (g, ds) ∈ r.program.groups)

include hdecl hg hmem

/-- The variable of a component is what its definitions are referred to by. -/
lemma boundFor_component {c : List DispatchId} (hc : c ∈ r.classify.components g)
    {b : String × Term} (hlowers : ComponentLowers r.context ids ds c (some b)) {o : Origin}
    (ho : o = .ofComponent c ∨ o = .ofFixedPoint c) {id : DispatchId} {d : Definition Scoped}
    (hd : (id, d) ∈ ids.zip ds) (hdisc : d.isDiscard = false) (hid : id ∈ c) :
    BoundFor r g d.name.name (r.context.refer d.name.name (.binding id)) ((b.1, o) :: Γ) := by
  have hlookup := lookup_group_of_mem hr.parents hdecl hg.length hd hdisc
  have hcmem := (hr.mem_components hmem hg hc).1
  -- a definition that is a component of its own
  have hsingle : ∀ {id'}, c = [id'] → b.1 = d.name.name →
      BoundFor r g d.name.name (r.context.refer d.name.name (.binding id)) ((b.1, o) :: Γ) := by
    rintro id' rfl hb
    obtain rfl := List.mem_singleton.1 hid
    refine .definition hlookup (notMem_mutualGroups hr hcmem) (hr.refer_eq_var hcmem _) ?_
    rw [hb, List.lookup_cons_self]
    exact ho.imp (congrArg some) (congrArg some)
  cases hlowers with
  | plain hd' =>
    obtain rfl := List.mem_singleton.1 hid
    obtain rfl := hg.eq_of_mem_zip hd hd'
    exact hsingle rfl rfl
  | fixed hd' =>
    obtain rfl := List.mem_singleton.1 hid
    obtain rfl := hg.eq_of_mem_zip hd hd'
    exact hsingle rfl rfl
  | @table m n l =>
    have hz : dispatchAlias? ((m :: n :: l).map Prod.fst) = some (tableAlias m.1) := by
      rw [dispatchAlias?, List.map_cons, min?_eq_head (hr.sorted_of_mem hcmem), Option.map_some]
    refine .member hlookup (List.mem_filter.2 ⟨hcmem, by simp⟩) hid hz
      (hr.refer_eq_dispatch hcmem hid _) ?_
    rw [List.lookup_cons_self]
    exact ho.imp (congrArg some) (congrArg some)

omit hdecl in
/-- A definition of a group of several is not discarded. -/
lemma isDiscard_of_mem_group {c : List DispatchId} (hc : c ∈ r.classify.components g)
    (hlen : 1 < c.length) {id : DispatchId} {d : Definition Scoped} (hd : (id, d) ∈ ids.zip ds)
    (hid : id ∈ c) : d.isDiscard = false := by
  rw [hr.components_eq hmem] at hc
  by_contra hdisc
  have hflags := hr.flags_eq hmem hg hc hid
  rw [hr.flags_discard hmem hg hd (by simpa using hdisc)] at hflags
  exact absurd (congrArg Flags.mutuallyRecursive hflags) (by simp [hlen])

variable {F : Set String} {done : List DispatchId}

omit hr hdecl hg hmem in
lemma Reached.mono {done' : List DispatchId} (h : Reached r s g ids ds F done Γ)
    (hdone : ∀ id d, (id, d) ∈ ids.zip ds → d.isDiscard = false → id ∈ done' → id ∈ done) :
    Reached r s g ids ds F done' Γ :=
  ⟨h.outer, fun id d hd hdisc hid => h.bound id d hd hdisc (hdone id d hd hdisc hid)⟩

omit hr hdecl hmem in
/-- A discarded definition is not bound. -/
lemma Reached.skip (h : Reached r s g ids ds F done Γ) {id : DispatchId} {d : Definition Scoped}
    (hd : (id, d) ∈ ids.zip ds) (hdisc : d.isDiscard = true) :
    Reached r s g ids ds F (done ++ [id]) Γ := by
  refine h.mono fun id' d' hd' hdisc' hid' => ?_
  refine (List.mem_append.1 hid').resolve_right fun hid' => ?_
  obtain rfl := List.mem_singleton.1 hid'
  obtain rfl := hg.eq_of_mem_zip hd hd'
  exact absurd hdisc (by simp [hdisc'])

variable (havoid : ∀ x ∈ namesOfDefs ds, ¬ Generated x) (hF : ∀ x ∈ F, ¬ Generated x)

include havoid hF

omit hdecl hg hmem in
/-- The tag of a table does not matter. -/
lemma Reached.tag (h : Reached r s g ids ds F done Γ) :
    Reached r s g ids ds F done ((tagName, .hidden) :: Γ) where
  outer x hx hbound e he :=
    (h.outer x hx hbound e he).extend (Surface.tag_notMem_freeVars_refer hr (hF x hx)) _
  bound id d hd hdisc hid := by
    have hname := havoid _ (name_mem_namesOfDefs (List.of_mem_zip hd).2)
    exact (h.bound id d hd hdisc hid).extend (Surface.tag_notMem_freeVars_refer hr hname) _

variable {before after : List (List DispatchId)} {c : List DispatchId}

/-- One more component is bound. -/
lemma Reached.push (h : Reached r s g ids ds F before.flatten Γ)
    (hsplit : r.classify.components g = before ++ c :: after) {b : String × Term}
    (hlowers : ComponentLowers r.context ids ds c (some b)) {o : Origin}
    (ho : o = .ofComponent c ∨ o = .ofFixedPoint c) :
    Reached r s g ids ds F (before ++ [c]).flatten ((b.1, o) :: Γ) := by
  have hc : c ∈ r.classify.components g := by rw [hsplit]; simp
  constructor
  · intro x hx hbound e he
    exact (h.outer x hx hbound e he).extend (Surface.component_notMem_freeVars_outer hr hdecl hg
      hmem havoid hc hlowers (hF x hx) hbound he) _
  · intro id d hd hdisc hid
    by_cases hidc : id ∈ c
    · exact boundFor_component hr hdecl hg hmem hc hlowers ho hd hdisc hidc
    · rw [List.flatten_append, List.flatten_singleton] at hid
      have hid' : id ∈ before.flatten := (List.mem_append.1 hid).resolve_right hidc
      exact (h.bound id d hd hdisc hid').extend (Surface.component_notMem_freeVars_member hr hdecl
        hg hmem havoid hc hlowers hd hdisc hidc) _

variable (hdiscard : r.tree.lookup g discard = none)
  (hfree : ∀ d ∈ ds, ∀ x, d.body.Free x → x ∉ boundParams d.params → x ∉ boundNames ds → x ∈ F)
  (ih : ∀ d ∈ ds, LowersBound r d.body)

include hdiscard hfree ih

omit hF in
/-- A definition is bound where the definitions that it mentions are. -/
lemma Reached.definition (h : Reached r s g ids ds F done Γ) {id : DispatchId}
    {d : Definition Scoped} (hd : (id, d) ∈ ids.zip ds)
    (hdone : ∀ id' ∈ ids, r.tree.Mentions d id' → id' ∈ done) {code : Term}
    (hcode : r.context.DefLowers d code) :
    ∃ b os, code = .lams (d.params.map Ident.name) b ∧
      Traced r (underParams d.ann.scope d.params Γ) d.body b os ∧
      Accounts r os d.body.liveIdents := by
  obtain ⟨b, hb, rfl⟩ := hcode
  have hds := (List.of_mem_zip hd).2
  have hscope := (hg.defs.of_mem_zip hd).scope
  have hnames : ∀ x ∈ d.params.map Ident.name ++ d.body.names, ¬ Generated x :=
    fun x hx => havoid x (mem_namesOfDefs.2 ⟨d, hds, Or.inr hx⟩)
  have hlookup : ∀ x, r.tree.lookup d.ann.scope x
      = if x ∈ boundParams d.params then some .parameter else r.tree.lookup g x :=
    fun x => lookup_function hr.parents hscope
  have hdiscard' : r.tree.lookup d.ann.scope discard = none := by
    rw [hlookup, if_neg notMem_boundParams_discard, hdiscard]
  have hknown : ∀ x, d.body.Free x →
      Known r (underParams d.ann.scope d.params Γ) d.ann.scope x := by
    intro x hx
    refine known_params hr hscope rfl rfl (fun y hy => hnames y (List.mem_append_left _ hy))
      hdiscard fun hparams e he => ?_
    have he' : r.tree.lookup d.ann.scope x = some e := by rw [hlookup, if_neg hparams, he]
    rcases hg.free_cases hr.parents hdecl hd hx hparams he' with
      ⟨id', d', hd', rfl, hdisc, rfl, hm⟩ | ⟨hbound, he⟩
    · exact h.bound id' d' hd' hdisc (hdone id' (List.of_mem_zip hd').1 hm)
    · exact (h.outer x (hfree d hds x hx hparams hbound) hbound e he).congr
        (lookup_group_of_notMem hr.parents hdecl hg.length hbound)
        (ScopeTree.home?_group_of_notMem hr.parents hdecl hg.length hbound)
  obtain ⟨os, htraced, haccounts⟩ := ih d hds (hg.hasPart hmem hd) hb
    (fun x hx => hnames x (List.mem_append_right _ hx)) hdiscard' hknown
  exact ⟨b, os, rfl, htraced, haccounts⟩

omit hF in
/-- The members of a table are bound where the definitions that they mention are. -/
lemma Reached.members (h : Reached r s g ids ds F done Γ)
    {l : List (DispatchId × Definition Scoped)} {qs : List (DispatchId × Term)}
    (hcodes : List.Forall₂ (fun p q => p.1 = q.1 ∧ r.context.DefLowers p.2 q.2) l qs)
    (hl : ∀ p ∈ l, p ∈ ids.zip ds)
    (hdone : ∀ p ∈ l, ∀ id' ∈ ids, r.tree.Mentions p.2 id' → id' ∈ done) :
    ∃ os, MembersTraced r ds Γ (l.map Prod.fst) qs os ∧
      Accounts r os (l.flatMap fun p => p.2.body.liveIdents) := by
  induction hcodes with
  | nil => exact ⟨[], .nil, .nil⟩
  | @cons p q l qs hpq _ ihl =>
    obtain ⟨id, d⟩ := p
    obtain ⟨_, code⟩ := q
    obtain ⟨rfl, hcode⟩ := hpq
    rw [List.forall_mem_cons] at hl hdone
    obtain ⟨b, os, rfl, htraced, haccounts⟩ :=
      h.definition hr hdecl hg hmem havoid hdiscard hfree ih hl.1 hdone.1 hcode
    obtain ⟨os', htraced', haccounts'⟩ := ihl hl.2 hdone.2
    have hds := (List.of_mem_zip hl.1).2
    exact ⟨os ++ os', .cons hds ((hg.numbers_iff hds).2 hl.1) htraced htraced',
      haccounts.append haccounts'⟩

/-- A component is bound where the components before it are. -/
lemma Reached.component (h : Reached r s g ids ds F before.flatten Γ)
    (hsplit : r.classify.components g = before ++ c :: after) {b : String × Term}
    (hlowers : ComponentLowers r.context ids ds c (some b)) :
    ∃ os, ComponentTraced r ds Γ c b os ∧ Accounts r os (c.flatMap (liveIdentsOf ids ds)) := by
  have hc : c ∈ r.classify.components g := by rw [hsplit]; simp
  -- where the component may refer to itself
  have hown := h.push hr hdecl hg hmem havoid hF hsplit hlowers (Or.inr rfl)
  -- a definition of the component mentions only the component and those before it
  have hdone : ∀ {id d}, (id, d) ∈ ids.zip ds → id ∈ c → ∀ id' ∈ ids, r.tree.Mentions d id' →
      id' ∈ (before ++ [c]).flatten := by
    intro id d hd hid id' hid' hm
    rw [List.flatten_append, List.flatten_singleton, List.mem_append]
    by_cases hidc : id' ∈ c
    · exact Or.inr hidc
    · exact Or.inl (hr.mentions_earlier hmem hg hd hid' hm hsplit hid hidc)
  cases hlowers with
  | @plain id d code hd hdisc hcode hself =>
    have hds := (List.of_mem_zip hd).2
    have hearlier : ∀ id' ∈ ids, r.tree.Mentions d id' → id' ∈ before.flatten := by
      intro id' hid' hm
      refine hr.mentions_earlier hmem hg hd hid' hm hsplit (List.mem_singleton_self id) ?_
      rw [List.mem_singleton]
      rintro rfl
      exact absurd ((hr.selfRecursive_iff hmem hg hd).2 hm) (by rw [Bool.not_eq_true]; exact hself)
    obtain ⟨b, os, rfl, htraced, haccounts⟩ :=
      h.definition hr hdecl hg hmem havoid hdiscard hfree ih hd hearlier hcode
    refine ⟨os, .plain hds ((hg.numbers_iff hds).2 hd) htraced, ?_⟩
    rw [List.flatMap_singleton, hg.liveIdentsOf_eq hd, Definition.liveIdents, hdisc]
    exact haccounts
  | @fixed id d code hd hdisc hcode hself =>
    have hds := (List.of_mem_zip hd).2
    obtain ⟨b, os, rfl, htraced, haccounts⟩ := hown.definition hr hdecl hg hmem havoid hdiscard
      hfree ih hd (hdone hd (List.mem_singleton_self id)) hcode
    refine ⟨os, .fixed hds ((hg.numbers_iff hds).2 hd) htraced, ?_⟩
    rw [List.flatMap_singleton, hg.liveIdentsOf_eq hd, Definition.liveIdents, hdisc]
    exact haccounts
  | @table m n l q qs hl hcodes =>
    have hz : dispatchAlias? ((m :: n :: l).map Prod.fst) = some (tableAlias m.1) := by
      rw [dispatchAlias?, List.map_cons,
        min?_eq_head (hr.sorted_of_mem (hr.mem_components hmem hg hc).1), Option.map_some]
    obtain ⟨os, htraced, haccounts⟩ :=
      (hown.tag hr havoid hF).members hr hdecl hg hmem havoid hdiscard hfree ih hcodes hl
        fun p hp => hdone (hl p hp) (List.mem_map_of_mem hp)
    refine ⟨os, .table hz htraced, ?_⟩
    have hlive : ((m :: n :: l).map Prod.fst).flatMap (liveIdentsOf ids ds)
        = (m :: n :: l).flatMap fun p => p.2.body.liveIdents := by
      rw [List.flatMap_map]
      refine List.flatMap_congr fun p hp => ?_
      have hdisc := isDiscard_of_mem_group hr hg hmem hc (by simp) (hl p hp)
        (List.mem_map_of_mem hp)
      rw [hg.liveIdentsOf_eq (hl p hp), Definition.liveIdents, hdisc]
      rfl
    rw [hlive]
    exact haccounts

/-- A grouping is bound where the names from outside are. -/
lemma Reached.bindings {bs : List (Option (String × Term))}
    (hbs : List.Forall₂ (ComponentLowers r.context ids ds) after bs)
    (hsplit : r.classify.components g = before ++ after)
    (h : Reached r s g ids ds F before.flatten Γ) :
    ∃ os Γ', BindingsTraced r ds Γ after bs.reduceOption os Γ' ∧
      Accounts r os (after.flatten.flatMap (liveIdentsOf ids ds)) ∧
      Reached r s g ids ds F ids Γ' := by
  induction hbs generalizing before Γ with
  | nil =>
    refine ⟨[], Γ, .nil, .nil, h.mono fun id d hd _ hid => ?_⟩
    obtain ⟨hw, hn, -⟩ := callGraph_wellFormed hg
    rw [List.append_nil] at hsplit
    rw [← hsplit, hr.components_eq hmem, CallGraph.mem_flatten_components hw, hn]
    exact hid
  | @cons c b after bs hlowers _ ihbs =>
    have hsplit' : r.classify.components g = (before ++ [c]) ++ after := by simp [hsplit]
    rw [List.flatten_cons, List.flatMap_append]
    cases b with
    | some b =>
      obtain ⟨os, htraced, haccounts⟩ := h.component hr hdecl hg hmem havoid hF hdiscard hfree ih
        hsplit hlowers
      obtain ⟨os', Γ', htraced', haccounts', hreached⟩ := ihbs hsplit'
        (h.push hr hdecl hg hmem havoid hF hsplit hlowers (Or.inl rfl))
      exact ⟨os ++ os', Γ', .cons htraced htraced', haccounts.append haccounts', hreached⟩
    | none =>
      obtain @⟨id, d, hd, hdisc⟩ := hlowers
      have hds := (List.of_mem_zip hd).2
      have hskip := h.skip hg hd hdisc
      rw [← List.flatten_singleton (l := [id]), ← List.flatten_append] at hskip
      obtain ⟨os, Γ', htraced, haccounts, hreached⟩ := ihbs hsplit' hskip
      refine ⟨os, Γ', .discarded hds ((hg.numbers_iff hds).2 hd) hdisc htraced, ?_, hreached⟩
      have hnone : liveIdentsOf ids ds id = [] := by
        rw [hg.liveIdentsOf_eq hd, Definition.liveIdents, if_pos hdisc]
      rw [List.flatMap_singleton, hnone]
      exact haccounts

/-- A `let` block is bound if its body is, wherever all definitions are bound. -/
lemma traced_letIn {bs : List (Option (String × Term))}
    (hbs : List.Forall₂ (ComponentLowers r.context ids ds) (r.classify.components g) bs)
    (houter : ∀ x ∈ F, x ∉ boundNames ds → Known r Γ s x) {b : Expr Scoped} {a : Scoped}
    (ha : a.scope = g) {b' : Term}
    (hb : ∀ Γ', Reached r s g ids ds F ids Γ' →
      ∃ os, Traced r Γ' b b' os ∧ Accounts r os b.liveIdents) :
    ∃ os, Traced r Γ (.letIn ds b a) (LowerContext.chain bs.reduceOption b') os ∧
      Accounts r os (Expr.letIn ds b a).liveIdents := by
  subst ha
  have hstart : Reached r s a.scope ids ds F (List.flatten []) Γ :=
    ⟨houter, fun id d _ _ hid => absurd hid (by simp)⟩
  obtain ⟨os, Γ', htraced, haccounts, hreached⟩ :=
    hstart.bindings hr hdecl hg hmem havoid hF hdiscard hfree ih hbs rfl
  obtain ⟨os', htraced', haccounts'⟩ := hb Γ' hreached
  refine ⟨os ++ os', .letIn htraced htraced', Accounts.append ?_ haccounts'⟩
  obtain ⟨hw, hn, -⟩ := callGraph_wellFormed hg
  have hperm : (r.classify.components a.scope).flatten.Perm ids := by
    rw [hr.components_eq hmem,
      List.perm_ext_iff_of_nodup (CallGraph.nodup_flatten_components hw) hg.nodup]
    exact fun id => (CallGraph.mem_flatten_components hw).trans (hn id)
  rw [← hg.flatMap_liveIdentsOf]
  exact haccounts.perm (hperm.flatMap_right _)

end Group

/-- In a lowered expression every identifier is bound as it has to be, if its free names are. -/
lemma lowersBound (e : Expr Scoped) : LowersBound r e := by
  induction e using Expr.induction with
  | ident i =>
    intro s t Γ hpart hlowers _ _ hfree
    have hscope := hpart.wellScoped
    rw [Expr.WellScoped] at hscope
    obtain ⟨e, he, rfl⟩ := LowerContext.lowers_ident hlowers
    subst hscope
    exact ⟨_, .ident, .refl _, List.forall_mem_singleton.2 (hfree i.name (.ident rfl) e he)⟩
  | int v a =>
    intro s t Γ _ hlowers _ _ _
    obtain rfl := LowerContext.lowers_int hlowers
    exact ⟨_, .int, .nil⟩
  | lam ps b a ih =>
    intro s t Γ hpart hlowers hnames hdiscard hfree
    obtain ⟨b', hb, rfl⟩ := LowerContext.lowers_lam hlowers
    obtain ⟨hscope, hpart⟩ := hpart.lam
    rw [Expr.names, List.forall_mem_append] at hnames
    have hdiscard' : r.tree.lookup a.scope discard = none := by
      rw [lookup_lambda hr.parents hscope, if_neg notMem_boundParams_discard, hdiscard]
    obtain ⟨os, htraced, haccounts⟩ := ih hpart hb hnames.2 hdiscard' fun x hx =>
      known_params hr hscope rfl rfl hnames.1 hdiscard fun hparams => hfree x (.lam hx hparams)
    exact ⟨os, .lam htraced, haccounts⟩
  | call f x a ihf ihx =>
    intro s t Γ hpart hlowers hnames hdiscard hfree
    obtain ⟨f', x', hf, hx, rfl⟩ := LowerContext.lowers_call hlowers
    rw [Expr.names, List.forall_mem_append] at hnames
    obtain ⟨os, htraced, haccounts⟩ :=
      ihf hpart.call.1 hf hnames.1 hdiscard fun y hy => hfree y (.fn hy)
    obtain ⟨os', htraced', haccounts'⟩ :=
      ihx hpart.call.2 hx hnames.2 hdiscard fun y hy => hfree y (.arg hy)
    exact ⟨_, .call htraced htraced', haccounts.append haccounts'⟩
  | ite c p n a ihc ihp ihn =>
    intro s t Γ hpart hlowers hnames hdiscard hfree
    obtain ⟨c', p', n', hc, hp, hn, rfl⟩ := LowerContext.lowers_ite hlowers
    rw [Expr.names, List.forall_mem_append, List.forall_mem_append] at hnames
    obtain ⟨os, htraced, haccounts⟩ :=
      ihc hpart.ite.1 hc hnames.1.1 hdiscard fun y hy => hfree y (.cond hy)
    obtain ⟨os', htraced', haccounts'⟩ :=
      ihp hpart.ite.2.1 hp hnames.1.2 hdiscard fun y hy => hfree y (.pos hy)
    obtain ⟨os'', htraced'', haccounts''⟩ :=
      ihn hpart.ite.2.2 hn hnames.2 hdiscard fun y hy => hfree y (.neg hy)
    exact ⟨_, .ite htraced htraced' htraced'', (haccounts.append haccounts').append haccounts''⟩
  | letIn ds b a ihds ihb =>
    intro s t Γ hpart hlowers hnames hdiscard hfree
    obtain ⟨hmem, hpartb, ids, hdecl, hg⟩ := hpart.letIn
    obtain ⟨b', hb, hlowers⟩ := LowerContext.lowers_letIn hlowers
    obtain ⟨bs, hbs, rfl⟩ := hr.lowers_grouping hmem hg hlowers
    have hF : ∀ x ∈ {x | (Expr.letIn ds b a).Free x}, ¬ Generated x :=
      fun x hx => hnames x (Expr.Free.mem_names hx)
    rw [Expr.names, List.forall_mem_append] at hnames
    have hdiscard' : r.tree.lookup a.scope discard = none := by
      rw [lookup_group_of_notMem hr.parents hdecl hg.length notMem_boundNames_discard, hdiscard]
    refine traced_letIn hr hdecl hg hmem hnames.1 hF hdiscard'
      (fun d hd x hx hparams hbound => .binding hd hx hparams hbound) ihds hbs
      (fun x hx _ => hfree x hx) rfl fun Γ' hreached => ?_
    refine ihb hpartb hb hnames.2 hdiscard' fun x hx e he => ?_
    -- a name of the body is one of the grouping, or it is free in the whole block
    by_cases hbound : x ∈ boundNames ds
    · obtain ⟨d, hd, rfl, hdisc⟩ := mem_boundNames.1 hbound
      obtain ⟨id, hid⟩ := exists_mem_zip_of_mem_right hg.length hd
      rw [lookup_group_of_mem hr.parents hdecl hg.length hid hdisc] at he
      obtain rfl := Option.some.inj he
      exact hreached.bound id d hid hdisc (List.of_mem_zip hid).1
    · have hlookup := lookup_group_of_notMem hr.parents hdecl hg.length hbound
      rw [hlookup] at he
      exact (hreached.outer x (.body hx hbound) hbound e he).congr hlookup
        (ScopeTree.home?_group_of_notMem hr.parents hdecl hg.length hbound)

end Lowered

/-! ### Programs -/

/-- In a lowered program whose names are not made up, every identifier is bound by the function that
was made for what it denotes, and so is the reference to the entry point. -/
theorem lower_capture_free {names : List String} {seed : DispatchId} {p : Program Span}
    {entry : String} {log log' log₁ log₂ : Array Event} {r : Resolution} {t : Term}
    (hresolve : resolve names seed p log = .ok r log')
    (hlower : r.lower r.classify entry log₁ = .ok t log₂) (hp : ∀ x ∈ p.names, ¬ Generated x)
    (hnames : ∀ x ∈ names, x ≠ discard ∧ ¬ Generated x) :
    ∃ body os, t = .app (.lam ifAlias (.app (.lam eqAlias body) (.var "=="))) (.var "if") ∧
      Traced r [(eqAlias, .hidden), (ifAlias, .hidden)]
        (.letIn r.program.defs (.ident ⟨entry, r.program.ann⟩) r.program.ann) body os ∧
      (os.map Occurrence.ident).Perm
        (liveIdentsOfDefs r.program.defs ++ [⟨entry, r.program.ann⟩]) ∧
      ∀ o ∈ os, o.term.Inside (o.around.map Prod.fst) [] t ∧ o.Bound r := by
  obtain ⟨rfl, ids, hr⟩ := resolve_wellScoped hresolve
  obtain ⟨id, d, bs, hd, rfl, hdisc, hbs, rfl⟩ := hr.lowers_program ⟨log₁, log₂, hlower⟩
  rw [Program.names_map] at hp
  have hg := hr.program_group
  have hdiscard : r.tree.lookup ScopeTree.root discard = none := by
    by_contra hne
    obtain ⟨e, he⟩ := Option.ne_none_iff_exists'.1 hne
    exact (hnames _ (hr.lookup_root he).2).1 rfl
  have hdiscard' : r.tree.lookup r.program.ann.scope discard = none := by
    rw [lookup_group_of_notMem hr.parents hr.declared hg.length notMem_boundNames_discard, hdiscard]
  -- outside of the program there are only builtin operations, under names that are not made up
  have houter : ∀ x ∈ {x | ¬ Generated x}, x ∉ boundNames r.program.defs →
      Known r [(eqAlias, .hidden), (ifAlias, .hidden)] ScopeTree.root x := by
    intro x hx _ e he
    obtain ⟨rfl, -⟩ := hr.lookup_root he
    refine .builtin he rfl ?_
    rw [lookup_cons_ite, if_neg, lookup_cons_ite, if_neg]
    · rfl
    · rintro rfl
      exact hx (Or.inl rfl)
    · rintro rfl
      exact hx (Or.inr (Or.inl rfl))
  have hentry : ∀ Γ', Reached r ScopeTree.root r.program.ann.scope ids r.program.defs
      {x | ¬ Generated x} ids Γ' →
      ∃ os, Traced r Γ' (.ident ⟨d.name.name, r.program.ann⟩)
        (r.context.refer d.name.name (.binding id)) os ∧
        Accounts r os [⟨d.name.name, r.program.ann⟩] := by
    intro Γ' hreached
    refine ⟨_, .ident, .refl _, List.forall_mem_singleton.2 ?_⟩
    exact hreached.bound id d hd hdisc (List.of_mem_zip hd).1
  obtain ⟨os, htraced, haccounts⟩ := traced_letIn hr hr.declared hg List.mem_cons_self hp
    (fun x hx => hx) hdiscard' (fun d hd x hx _ _ => hp x (hx.mem_namesOfDefs hd))
    (fun d _ => lowersBound hr d.body) hbs houter rfl hentry
  refine ⟨_, os, rfl, htraced, haccounts.idents, fun o ho => ⟨?_, haccounts.bound o ho⟩⟩
  exact .fn (.lam (.fn (.lam (htraced.inside o ho))))

/-- `even x = odd x`, `odd x = (let even = x; f y = f (+ even y); _ = f in f) (even x)` and
`main _ = even 1`, where the inner `even` hides a member of the group of `even` and `odd`. -/
def hiddenMember : Program Span where
  defs :=
    [⟨⟨"even", .nowhere⟩, [⟨"x", .nowhere⟩],
      .call (.ident ⟨"odd", .nowhere⟩) (.ident ⟨"x", .nowhere⟩) .nowhere, .nowhere⟩,
     ⟨⟨"odd", .nowhere⟩, [⟨"x", .nowhere⟩],
      .call
        (.letIn
          [⟨⟨"even", .nowhere⟩, [], .ident ⟨"x", .nowhere⟩, .nowhere⟩,
           ⟨⟨"f", .nowhere⟩, [⟨"y", .nowhere⟩],
            .call (.ident ⟨"f", .nowhere⟩)
              (.callAll (.ident ⟨"+", .nowhere⟩)
                [.ident ⟨"even", .nowhere⟩, .ident ⟨"y", .nowhere⟩] .nowhere) .nowhere, .nowhere⟩,
           ⟨⟨"_", .nowhere⟩, [], .ident ⟨"f", .nowhere⟩, .nowhere⟩]
          (.ident ⟨"f", .nowhere⟩) .nowhere)
        (.call (.ident ⟨"even", .nowhere⟩) (.ident ⟨"x", .nowhere⟩) .nowhere) .nowhere, .nowhere⟩,
     ⟨⟨"main", .nowhere⟩, [⟨"_", .nowhere⟩],
      .call (.ident ⟨"even", .nowhere⟩) (.int 1 .nowhere) .nowhere, .nowhere⟩]
  ann := .nowhere

theorem lower_capture_free_hiddenMember : ∃ r log t log',
    resolve ["+"] 7 hiddenMember #[] = .ok r log ∧ r.lower r.classify "main" #[] = .ok t log' ∧
    (liveIdentsOfDefs r.program.defs).map Ident.name
      = ["odd", "x", "x", "f", "+", "even", "y", "f", "even", "x", "even"] ∧
    ∃ body os, t = .app (.lam ifAlias (.app (.lam eqAlias body) (.var "=="))) (.var "if") ∧
      Traced r [(eqAlias, .hidden), (ifAlias, .hidden)]
        (.letIn r.program.defs (.ident ⟨"main", r.program.ann⟩) r.program.ann) body os ∧
      (os.map Occurrence.ident).Perm
        (liveIdentsOfDefs r.program.defs ++ [⟨"main", r.program.ann⟩]) ∧
      ∀ o ∈ os, o.term.Inside (o.around.map Prod.fst) [] t ∧ o.Bound r := by
  have hfirst : ∀ x ∈ hiddenMember.names, x.toList.head? ≠ some '<' := by decide +kernel
  have hplus : "+" ≠ discard ∧ "+".toList.head? ≠ some '<' := by decide +kernel
  have hidents : ((value? (resolve ["+"] 7 hiddenMember #[])).bind fun r =>
      (value? (r.lower r.classify "main" #[])).map fun _ =>
        (liveIdentsOfDefs r.program.defs).map Ident.name)
      = some ["odd", "x", "x", "f", "+", "even", "y", "f", "even", "x", "even"] := by
    decide +kernel
  obtain ⟨r, hr, hidents⟩ := Option.bind_eq_some_iff.1 hidents
  obtain ⟨t, ht, hidents⟩ := Option.map_eq_some_iff.1 hidents
  obtain ⟨log, hr⟩ := value?_eq_some.1 hr
  obtain ⟨log', ht⟩ := value?_eq_some.1 ht
  exact ⟨r, log, t, log', hr, ht, hidents,
    lower_capture_free hr ht (fun x hx h => hfirst x hx h.head?)
      (List.forall_mem_singleton.2 ⟨hplus.1, fun h => hplus.2 h.head?⟩)⟩

end Letrec
