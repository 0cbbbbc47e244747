import Mathlib
import Letrec.Proofs.Surface.Relation

/-!
# Groupings

A frame of definitions and the chain of bindings that a grouping is lowered to refer to the same
definitions: `slower_chain`.  The bindings are taken in the order of the components.  A component
that is not recursive finds all definitions that it mentions in the environment already; a recursive
one finds those outside of it, and its own through its fixed point (`member_delays`).
-/

namespace Letrec.Surface

variable {names : List String} {r : Resolution} {ids₀ : List DispatchId}
  (hr : r.WellScoped names ids₀)

include hr

section Definitions

variable {g : ScopeId} {ids : List DispatchId} {ds : List (Definition Scoped)}
  (hmem : (g, ds) ∈ r.program.groups) (hg : Group r.tree g ids ds)

include hmem hg

lemma mem_ids_of_component {c : List DispatchId} (hc : c ∈ r.classify.components g)
    {id : DispatchId} (hid : id ∈ c) : id ∈ ids := by
  obtain ⟨hw, hn, -⟩ := callGraph_wellFormed hg
  rw [hr.components_eq hmem] at hc
  exact (hn id).1 ((CallGraph.mem_flatten_components hw).1 (List.mem_flatten_of_mem hc hid))

omit hmem in
/-- A name that denotes a definition of the grouping is the name of that definition. -/
lemma exists_def_of_lookup {k : ScopeId} {y : String} {id : DispatchId}
    (h : r.tree.lookup k y = some (.binding id)) (hid : id ∈ ids) :
    ∃ d, (id, d) ∈ ids.zip ds ∧ d.name.name = y ∧ d.isDiscard = false := by
  obtain ⟨d, hd⟩ := exists_mem_zip_of_mem_left hg.length hid
  obtain ⟨g', -, ds', ids', d', -, hg', hd', rfl, hdisc⟩ := hr.lookup_eq_binding h
  obtain ⟨rfl, hname⟩ := hg.unique hg' hd hd'
  refine ⟨d, hd, hname, ?_⟩
  rw [Definition.isDiscard, hname]
  exact hdisc

omit hmem in
lemma id_lt {id : DispatchId} {d : Definition Scoped} (hd : (id, d) ∈ ids.zip ds) :
    id < dispatchIdBound := by
  have hfind : r.tree.bindings.find? (·.id == id) = some (bindingOf g id d) :=
    (hg.defs.of_mem_zip hd).binding
  have hid : (bindingOf g id d).id = id := rfl
  rw [← hid]
  exact hr.ids_lt _ (Array.mem_of_find?_eq_some hfind)

omit hmem in
/-- The members of a table have different numbers, all of them small. -/
lemma table_numbers {l : List (DispatchId × Definition Scoped)} {qs : List (DispatchId × Term)}
    (hc : l.map Prod.fst ∈ r.classify.groupings.flatMap Grouping.components)
    (hl : ∀ p ∈ l, p ∈ ids.zip ds)
    (hcodes : List.Forall₂ (fun p q => p.1 = q.1 ∧ r.context.DefLowers p.2 q.2) l qs) :
    (qs.map Prod.fst).Nodup ∧ ∀ q ∈ qs, q.1 < dispatchIdBound := by
  have hids : l.map Prod.fst = qs.map Prod.fst := by
    rw [← List.forall₂_eq_eq_eq, List.forall₂_map_left_iff, List.forall₂_map_right_iff]
    exact hcodes.imp fun _ _ h => h.1
  constructor
  · rw [← hids]
    exact (hr.sorted_of_mem hc).imp fun h => h.ne
  · intro q hq
    obtain ⟨p, hp, heq, -⟩ := forall₂_mem_right hcodes hq
    rw [← heq]
    exact id_lt hr hg (hl p hp)

/-- A definition of a grouping is a part of the program. -/
lemma definition_part (havoid : ∀ x ∈ namesOfDefs ds, ¬ Generated x)
    (hdiscard : r.tree.lookup g discard = none) {id : DispatchId} {d : Definition Scoped}
    (hd : (id, d) ∈ ids.zip ds) {b' : Term} (hb : Lowers (r.context.expression d.body) b') :
    Part r (d.params.map Ident.name) d.ann.scope d.body b' where
  part := hg.hasPart hmem hd
  lowers := hb
  avoids x hx := havoid x (mem_namesOfDefs.2 ⟨d, (List.of_mem_zip hd).2, Or.inr hx⟩)
  params x hx hdisc := by
    rw [lookup_function hr.parents (hg.defs.of_mem_zip hd).scope,
      if_pos (mem_boundParams.2 ⟨hx, hdisc⟩)]
  discards := by
    rw [lookup_function hr.parents (hg.defs.of_mem_zip hd).scope,
      if_neg notMem_boundParams_discard, hdiscard]

end Definitions

/-! ### Recursive references -/

section Recursive

variable {g : ScopeId} {ids : List DispatchId} {ds : List (Definition Scoped)}
  {c : List DispatchId} {z : String} {body : Term}
  (hc : RecursiveComponent r g ids ds c z body) {ρ₀ : Env} {ρ₀' : ByName.Env}
  (haliased : ByName.Aliased ρ₀')
  (houter : ∀ i d y e, (i, d) ∈ ids.zip ds → i ∈ c → d.body.Free y →
    y ∉ d.params.map Ident.name → r.tree.lookup d.ann.scope y = some e →
    (∀ j ∈ c, e ≠ .binding j) → Refers r y e (groupFrame ds :: ρ₀) ρ₀')

include hc haliased houter

/-- The free names of a member refer to the same things wherever the component is bound to its fixed
point and nothing else has changed. -/
lemma member_matches {id : DispatchId} {d : Definition Scoped} (hd : (id, d) ∈ ids.zip ds)
    (hid : id ∈ c) {b' : Term} (hb : Lowers (r.context.expression d.body) b') {ρ' : ByName.Env}
    {o : ByName.Object} (hz : ρ'.lookup z = some o) (ho : ByName.IsFix z body ρ₀' o)
    (hrefers : ∀ y e, d.body.Free y → y ∉ d.params.map Ident.name →
      r.tree.lookup d.ann.scope y = some e → (∀ j ∈ c, e ≠ .binding j) →
      Refers r y e (groupFrame ds :: ρ₀) ρ₀' → Refers r y e (groupFrame ds :: ρ₀) ρ')
    (haliased' : ByName.Aliased ρ') :
    Matches r (d.params.map Ident.name) d.body b' (groupFrame ds :: ρ₀) ρ' := by
  refine .intro (definition_part hr hc.mem hc.group hc.avoids hc.discards hd hb) haliased' ?_
  intro y e hy hparams he
  by_cases hin : ∃ j ∈ c, e = .binding j
  · -- a reference inside of the component
    obtain ⟨j, hj, rfl⟩ := hin
    have hj' := mem_ids_of_component hr hc.mem hc.group hc.component hj
    obtain ⟨d', hd', rfl, hdisc'⟩ := exists_def_of_lookup hr hc.group he hj'
    obtain ⟨kind, s, hdecl⟩ := hc.group.declared
    have hlookup := lookup_groupFrame_of_mem (ρ := ρ₀) hdecl.nodup (List.of_mem_zip hd').2 hdisc'
    exact .member hc hd' hj hlookup hz ho haliased houter
  · have hout : ∀ j ∈ c, e ≠ .binding j := fun j hj heq => hin ⟨j, hj, heq⟩
    exact hrefers y e hy hparams he hout (houter id d y e hd hid hy hparams he hout)

/-- A reference to a member of a recursive component is the code of the member, in an environment
that matches that of the definition. -/
lemma member_delays {id : DispatchId} {d : Definition Scoped} (hd : (id, d) ∈ ids.zip ds)
    (hid : id ∈ c) {ρ' : ByName.Env} {o : ByName.Object} (hz : ρ'.lookup z = some o)
    (ho : ByName.IsFix z body ρ₀' o) :
    ∃ b' ρ₁', Matches r (d.params.map Ident.name) d.body b' (groupFrame ds :: ρ₀) ρ₁' ∧
      Delays (fun n => ByName.evaluate n (r.context.refer d.name.name (.binding id)) ρ')
        fun n => ByName.evaluate n (.lams (d.params.map Ident.name) b') ρ₁' := by
  have hcmem := (hr.mem_components hc.mem hc.group hc.component).1
  have hfresh : ∀ y, d.body.Free y → ¬ Generated y := fun y hy =>
    hc.avoids y (hy.mem_namesOfDefs (List.of_mem_zip hd).2)
  cases hlowers : hc.lowers with
  | @single id' d' code hd' hdisc hcode =>
    obtain rfl := List.mem_singleton.1 hid
    obtain rfl := hc.group.eq_of_mem_zip hd hd'
    obtain ⟨b', hb, rfl⟩ := hcode
    obtain ⟨o', ho', hunfold⟩ := ho.unfold
    have hz' : ¬ Generated d.name.name :=
      hc.avoids _ (name_mem_namesOfDefs (List.of_mem_zip hd).2)
    refine ⟨b', (d.name.name, o') :: ρ₀', ?_, ?_⟩
    · refine member_matches hr hc haliased houter hd hid hb List.lookup_cons_self ho' ?_
        (haliased.extend_name hz' o')
      intro y e hy hparams he hout hrefers
      refine hrefers.extend_right hr (notMem_freeVars_refer hr hz' ?_) o'
      -- the name of the definition denotes the definition itself, unless a parameter hides it
      rintro rfl
      obtain ⟨kind, s, hdecl⟩ := hc.group.declared
      rw [lookup_function hr.parents (hc.group.defs.of_mem_zip hd).scope,
        if_neg fun h => hparams (mem_boundParams.1 h).1,
        lookup_group_of_mem hr.parents hdecl hc.group.length hd hdisc] at he
      exact hout id (List.mem_singleton_self _) (Option.some.inj he).symm
    · rw [hr.refer_eq_var hcmem]
      exact (ByName.delays_var hz).trans_slower hunfold
  | @table m n l q qs hl hcodes =>
    -- the member of the table that has the number, and its code
    obtain ⟨⟨id', d'⟩, hp, rfl⟩ := List.mem_map.1 hid
    obtain rfl := hc.group.eq_of_mem_zip hd (hl _ hp)
    obtain ⟨⟨id₁, code⟩, hq, rfl, b', hb, rfl⟩ := forall₂_mem_left hcodes hp
    obtain ⟨hnodup, hbound⟩ := table_numbers hr hc.group hcmem hl hcodes
    obtain ⟨hif, heq, htag⟩ := tableAlias_ne m.1
    obtain ⟨o', ho', hdelays⟩ :=
      ByName.delays_dispatch hz ho haliased hif.symm heq.symm hbound hnodup hq
    have haliased' :
        ByName.Aliased ((tagName, .pair (.ofId id') ρ') :: (tableAlias m.1, o') :: ρ₀') :=
      (haliased.extend hif.symm heq.symm o').extend (by decide) (by decide) _
    refine ⟨b', (tagName, .pair (.ofId id') ρ') :: (tableAlias m.1, o') :: ρ₀', ?_, ?_⟩
    · refine member_matches hr hc haliased houter hd hid hb ?_ ho' ?_ haliased'
      · rw [lookup_cons_ite, if_neg htag]
        exact List.lookup_cons_self
      · intro y e hy hparams he hout hrefers
        have htable := alias_notMem_freeVars_refer hr hcmem (hfresh y hy) hout
        exact (hrefers.extend_right hr htable o').extend_right hr
          (tag_notMem_freeVars_refer hr (hfresh y hy)) _
    · rw [hr.refer_eq_dispatch hcmem hid]
      exact hdelays

end Recursive

/-! ### Chains of bindings -/

omit hr

/-- The environments after some of the definitions of a grouping in the scope `s` are bound: those
with the numbers `done`.  Of the names from outside only those in `F` matter. -/
structure Binds (r : Resolution) (s : ScopeId) (ids : List DispatchId)
    (ds : List (Definition Scoped)) (F : Set String) (done : List DispatchId) (ρ : Env)
    (ρ' : ByName.Env) : Prop where
  aliased : ByName.Aliased ρ'
  outer : ∀ y e, y ∈ F → y ∉ boundNames ds → r.tree.lookup s y = some e →
    Refers r y e (groupFrame ds :: ρ) ρ'
  bound : ∀ id d, (id, d) ∈ ids.zip ds → d.isDiscard = false → id ∈ done →
    Refers r d.name.name (.binding id) (groupFrame ds :: ρ) ρ'

lemma Binds.mono {s : ScopeId} {ids : List DispatchId} {ds : List (Definition Scoped)}
    {F : Set String} {done done' : List DispatchId} {ρ : Env} {ρ' : ByName.Env}
    (h : Binds r s ids ds F done ρ ρ')
    (hdone : ∀ id d, (id, d) ∈ ids.zip ds → d.isDiscard = false → id ∈ done' → id ∈ done) :
    Binds r s ids ds F done' ρ ρ' :=
  ⟨h.aliased, h.outer, fun id d hd hdisc hid => h.bound id d hd hdisc (hdone id d hd hdisc hid)⟩

include hr

section Chain

variable {kind : ScopeKind} {s g : ScopeId} {ids : List DispatchId} {ds : List (Definition Scoped)}
  (hdecl : DeclaredIn r.tree kind s g ids ds) (hg : Group r.tree g ids ds)
  (hmem : (g, ds) ∈ r.program.groups) (havoid : ∀ x ∈ namesOfDefs ds, ¬ Generated x)
  (hdiscard : r.tree.lookup g discard = none) {F : Set String} (hF : ∀ y ∈ F, ¬ Generated y)
  (hfree : ∀ d ∈ ds, ∀ y, d.body.Free y → y ∉ boundParams d.params → y ∉ boundNames ds → y ∈ F)
  {before after : List (List DispatchId)} {c : List DispatchId} {ρ : Env} {ρ' : ByName.Env}

include hg hmem

/-- The variable that a component binds is not used by references to anything else. -/
lemma component_notMem_freeVars (havoid : ∀ x ∈ namesOfDefs ds, ¬ Generated x)
    (hc : c ∈ r.classify.components g) {b : String × Term}
    (hlowers : ComponentLowers r.context ids ds c (some b)) {y : String} {e : Entry}
    (hy : ¬ Generated y) (he : ∀ j ∈ c, e ≠ .binding j)
    (hne : ∀ d ∈ ds, d.isDiscard = false → ∀ id ∈ c, (id, d) ∈ ids.zip ds → d.name.name ≠ y) :
    b.1 ∉ (r.context.refer y e).freeVars := by
  have hsingle : ∀ id d, (id, d) ∈ ids.zip ds → d.isDiscard = false → id ∈ c →
      d.name.name ∉ (r.context.refer y e).freeVars := by
    intro id d hd hdisc hid
    have hds := (List.of_mem_zip hd).2
    exact notMem_freeVars_refer hr (havoid _ (name_mem_namesOfDefs hds)) (hne d hds hdisc id hid hd)
  cases hlowers with
  | plain hd hdisc => exact hsingle _ _ hd hdisc (List.mem_singleton_self _)
  | fixed hd hdisc => exact hsingle _ _ hd hdisc (List.mem_singleton_self _)
  | table => exact alias_notMem_freeVars_refer hr (hr.mem_components hmem hg hc).1 hy he

include hdecl

/-- It is not used by references to what stands around the definitions. -/
lemma component_notMem_freeVars_outer (havoid : ∀ x ∈ namesOfDefs ds, ¬ Generated x)
    (hc : c ∈ r.classify.components g) {b : String × Term}
    (hlowers : ComponentLowers r.context ids ds c (some b)) {y : String} {e : Entry}
    (hy : ¬ Generated y) (hbound : y ∉ boundNames ds) (he : r.tree.lookup s y = some e) :
    b.1 ∉ (r.context.refer y e).freeVars := by
  refine component_notMem_freeVars hr hg hmem havoid hc hlowers hy ?_ ?_
  · rintro j hj rfl
    exact hr.notMem_of_lookup_outside hdecl hg he (mem_ids_of_component hr hmem hg hc hj)
  · rintro d hd hdisc - - - rfl
    exact hbound (mem_boundNames.2 ⟨d, hd, rfl, hdisc⟩)

/-- It is not used by references to definitions of other components. -/
lemma component_notMem_freeVars_member (havoid : ∀ x ∈ namesOfDefs ds, ¬ Generated x)
    (hc : c ∈ r.classify.components g) {b : String × Term}
    (hlowers : ComponentLowers r.context ids ds c (some b)) {id : DispatchId}
    {d : Definition Scoped} (hd : (id, d) ∈ ids.zip ds) (hdisc : d.isDiscard = false)
    (hid : id ∉ c) : b.1 ∉ (r.context.refer d.name.name (.binding id)).freeVars := by
  refine component_notMem_freeVars hr hg hmem havoid hc hlowers
    (havoid _ (name_mem_namesOfDefs (List.of_mem_zip hd).2)) ?_ ?_
  · rintro j hj heq
    obtain rfl := Entry.binding.inj heq
    exact hid hj
  · -- definitions with one name have one number
    intro d' _ hdisc' id' hid' hd' heq
    have hlookup := lookup_group_of_mem hr.parents hdecl hg.length hd hdisc
    rw [← heq, lookup_group_of_mem hr.parents hdecl hg.length hd' hdisc'] at hlookup
    obtain rfl := Entry.binding.inj (Option.some.inj hlookup)
    exact hid hid'

include hfree

/-- What a definition finds in the environment when its component is bound: everything but its own
component. -/
lemma Binds.refers (h : Binds r s ids ds F before.flatten ρ ρ')
    (hsplit : r.classify.components g = before ++ c :: after) {id : DispatchId}
    {d : Definition Scoped} (hd : (id, d) ∈ ids.zip ds) (hid : id ∈ c) {y : String}
    (hy : d.body.Free y) (hparams : y ∉ d.params.map Ident.name) {e : Entry}
    (he : r.tree.lookup d.ann.scope y = some e) (hout : ∀ j ∈ c, e ≠ .binding j) :
    Refers r y e (groupFrame ds :: ρ) ρ' := by
  have hparams' : y ∉ boundParams d.params := fun h => hparams (mem_boundParams.1 h).1
  rcases hg.free_cases hr.parents hdecl hd hy hparams' he with
    ⟨id', d', hd', rfl, hdisc, rfl, hm⟩ | ⟨hbound, he⟩
  · have hid' : id' ∉ c := fun hid' => hout id' hid' rfl
    exact h.bound id' d' hd' hdisc
      (hr.mentions_earlier hmem hg hd (List.of_mem_zip hd').1 hm hsplit hid hid')
  · exact h.outer y e (hfree d (List.of_mem_zip hd).2 y hy hparams' hbound) hbound he

include havoid hdiscard

/-- A component is bound: its members can be referred to. -/
lemma Binds.member (h : Binds r s ids ds F before.flatten ρ ρ')
    (hsplit : r.classify.components g = before ++ c :: after) {b : String × Term}
    (hlowers : ComponentLowers r.context ids ds c (some b)) {id : DispatchId}
    {d : Definition Scoped} (hd : (id, d) ∈ ids.zip ds) (hdisc : d.isDiscard = false)
    (hid : id ∈ c) :
    Refers r d.name.name (.binding id) (groupFrame ds :: ρ) ((b.1, .pair b.2 ρ') :: ρ') := by
  have hc : c ∈ r.classify.components g := by rw [hsplit]; simp
  have hcmem := (hr.mem_components hmem hg hc).1
  have hlookup := lookup_groupFrame_of_mem (ρ := ρ) hdecl.nodup (List.of_mem_zip hd).2 hdisc
  have houter : ∀ i d y e, (i, d) ∈ ids.zip ds → i ∈ c → d.body.Free y →
      y ∉ d.params.map Ident.name → r.tree.lookup d.ann.scope y = some e →
      (∀ j ∈ c, e ≠ .binding j) → Refers r y e (groupFrame ds :: ρ) ρ' :=
    fun i d y e hd hi hy hparams he hout =>
      h.refers hr hdecl hg hmem hfree hsplit hd hi hy hparams he hout
  -- a fixed point finds the rest of what it needs where it is made
  have hrecursive : ∀ {z body}, LowersToFix r ids ds c z body →
      RecursiveComponent r g ids ds c z body := fun h => ⟨hmem, hg, hc, h, havoid, hdiscard⟩
  cases hlowers with
  | @plain id' d' code hd' _ hcode hself =>
    obtain rfl := List.mem_singleton.1 hid
    obtain rfl := hg.eq_of_mem_zip hd hd'
    obtain ⟨b', hb, rfl⟩ := hcode
    have hself' : ¬ r.tree.Mentions d id := by
      rw [← hr.selfRecursive_iff hmem hg hd, Bool.not_eq_true]
      exact hself
    refine .object (hr.refer_eq_var hcmem _) hlookup List.lookup_cons_self (.suspended ?_)
    refine .intro (definition_part hr hmem hg havoid hdiscard hd hb) h.aliased ?_
    intro y e hy hparams he
    refine houter id d y e hd hid hy hparams he fun j hj heq => hself' ?_
    -- a definition that is not recursive does not find itself
    obtain rfl := List.mem_singleton.1 hj
    obtain ⟨i, hi, hname, hi'⟩ := hy.exists_ident hr.parents (hg.defs.of_mem_zip hd).body
    exact ⟨i, hi, by rw [hname, hi', he, heq]⟩
  | @fixed id' d' code hd' _ hcode hself =>
    obtain rfl := List.mem_singleton.1 hid
    obtain rfl := hg.eq_of_mem_zip hd hd'
    exact .member (hrecursive (.single hd hdisc hcode)) hd hid hlookup List.lookup_cons_self .whole
      h.aliased houter
  | table hl hcodes =>
    exact .member (hrecursive (.table hl hcodes)) hd hid hlookup List.lookup_cons_self .whole
      h.aliased houter

include hF

/-- One more component is bound. -/
lemma Binds.extend (h : Binds r s ids ds F before.flatten ρ ρ')
    (hsplit : r.classify.components g = before ++ c :: after) {b : String × Term}
    (hlowers : ComponentLowers r.context ids ds c (some b)) :
    Binds r s ids ds F (before ++ [c]).flatten ρ ((b.1, .pair b.2 ρ') :: ρ') := by
  have hc : c ∈ r.classify.components g := by rw [hsplit]; simp
  have hname : ∀ {id d}, (id, d) ∈ ids.zip ds → ¬ Generated d.name.name := fun hd =>
    havoid _ (name_mem_namesOfDefs (List.of_mem_zip hd).2)
  constructor
  · cases hlowers with
    | plain hd => exact h.aliased.extend_name (hname hd) _
    | fixed hd => exact h.aliased.extend_name (hname hd) _
    | @table m =>
      obtain ⟨hif, heq, -⟩ := tableAlias_ne m.1
      exact h.aliased.extend hif.symm heq.symm _
  · intro y e hy hbound he
    exact (h.outer y e hy hbound he).extend_right hr
      (component_notMem_freeVars_outer hr hdecl hg hmem havoid hc hlowers (hF y hy) hbound he) _
  · intro id d hd hdisc hid
    by_cases hidc : id ∈ c
    · exact h.member hr hdecl hg hmem havoid hdiscard hfree hsplit hlowers hd hdisc hidc
    · rw [List.flatten_append, List.flatten_singleton] at hid
      have hid' : id ∈ before.flatten := (List.mem_append.1 hid).resolve_right hidc
      exact (h.bound id d hd hdisc hid').extend_right hr
        (component_notMem_freeVars_member hr hdecl hg hmem havoid hc hlowers hd hdisc hidc) _

/-- A chain of bindings is its body, where all definitions are bound. -/
lemma slower_chain {os : List (Option (String × Term))} (body : Term)
    (hos : List.Forall₂ (ComponentLowers r.context ids ds) after os)
    (hsplit : r.classify.components g = before ++ after)
    (h : Binds r s ids ds F before.flatten ρ ρ') :
    ∃ ρ'', Binds r s ids ds F ids ρ ρ'' ∧
      Slower (fun n => ByName.evaluate n (LowerContext.chain os.reduceOption body) ρ')
        fun n => ByName.evaluate n body ρ'' := by
  induction hos generalizing before ρ' with
  | nil =>
    refine ⟨ρ', h.mono fun id d hd _ hid => ?_, .refl _⟩
    obtain ⟨hw, hn, -⟩ := callGraph_wellFormed hg
    rw [List.append_nil] at hsplit
    rw [← hsplit, hr.components_eq hmem, CallGraph.mem_flatten_components hw, hn]
    exact hid
  | @cons c o after os hlowers _ ih =>
    have hsplit' : r.classify.components g = (before ++ [c]) ++ after := by simp [hsplit]
    cases o with
    | none =>
      refine ih hsplit' (h.mono fun id d hd hdisc hid => ?_)
      -- a definition that is discarded is the only one of its component
      cases hlowers with
      | discarded hd' hdisc' =>
        rw [List.flatten_append, List.flatten_singleton] at hid
        refine (List.mem_append.1 hid).resolve_right fun hid => ?_
        obtain rfl := List.mem_singleton.1 hid
        obtain rfl := hg.eq_of_mem_zip hd hd'
        rw [hdisc] at hdisc'
        exact Bool.false_ne_true hdisc'
    | some b =>
      obtain ⟨ρ'', hbinds, hslower⟩ :=
        ih hsplit' (h.extend hr hdecl hg hmem havoid hdiscard hF hfree hsplit hlowers)
      refine ⟨ρ'', hbinds, Slower.trans ?_ hslower⟩
      exact ByName.delays_redex.slower (ByName.evaluate_growing _ _)

end Chain

end Letrec.Surface
