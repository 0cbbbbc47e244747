import Mathlib
import Letrec.Proofs.ByName.Recursive
import Letrec.Proofs.Lowering.Shape
import Letrec.Proofs.Surface.Evaluation

/-!
# Programs and lowered programs

How the objects of a program correspond to those of the term that it is lowered to.  A suspended
expression corresponds to its lowered form, in an environment in which every free name refers to the
same thing (`Matches`).  A name refers to an object directly, or it is the name of a member of a
recursive component: then the surface environment has the definition in a frame of definitions, and
the other environment has a fixed point from which the definition can be got (`Refers`).

The relation is a finite tree although the definitions are recursive: what a recursive component
says about its members leaves out the references inside of the component.
-/

namespace Letrec

/-! ### Names that lowering makes up -/

/-- The name is one that lowering uses for its own bindings. -/
def Generated (x : String) : Prop :=
  x = ifAlias ∨ x = eqAlias ∨ x = tagName ∨ ∃ id, x = tableAlias id

lemma tableAlias_injective {i j : DispatchId} (h : tableAlias i = tableAlias j) : i = j := by
  have hlist := congrArg String.toList h
  unfold tableAlias at hlist
  simp only [String.toList_append] at hlist
  have hdigits : (Nat.repr i).toList = (Nat.repr j).toList :=
    List.append_cancel_left (List.append_cancel_right hlist)
  rw [Nat.toList_repr, Nat.toList_repr] at hdigits
  simpa using congrArg (Nat.ofDigitChars 10 · 0) hdigits

lemma tableAlias_ne (i : DispatchId) :
    tableAlias i ≠ ifAlias ∧ tableAlias i ≠ eqAlias ∧ tableAlias i ≠ tagName := by
  refine ⟨fun h => ?_, fun h => ?_, fun h => ?_⟩ <;>
    exact absurd (congrArg String.toList h) (by simp [tableAlias, ifAlias, eqAlias, tagName])

lemma Generated.head? {x : String} (h : Generated x) : x.toList.head? = some '<' := by
  rcases h with rfl | rfl | rfl | ⟨id, rfl⟩
  · rfl
  · rfl
  · rfl
  · simp [tableAlias]

/-- A name that is not made up does not hide the aliases. -/
lemma ByName.Aliased.extend_name {ρ : ByName.Env} (h : ByName.Aliased ρ) {x : String}
    (hx : ¬ Generated x) (o : ByName.Object) : ByName.Aliased ((x, o) :: ρ) := by
  refine h.extend ?_ ?_ o
  · rintro rfl
    exact hx (Or.inl rfl)
  · rintro rfl
    exact hx (Or.inr (Or.inl rfl))

/-- The variables of a reference: the name itself, or the alias of the table of its component. -/
lemma Resolution.WellScoped.mem_freeVars_refer {names : List String} {r : Resolution}
    {ids : List DispatchId} (hr : r.WellScoped names ids) {y x : String} {e : Entry}
    (hx : x ∈ (r.context.refer y e).freeVars) :
    x = y ∨ ∃ id first rest, e = .binding id ∧ id ∈ first :: rest ∧ x = tableAlias first ∧
      first :: rest ∈ r.classify.groupings.flatMap Grouping.components := by
  cases e with
  | parameter => exact Or.inl (by simpa [LowerContext.refer, Term.freeVars] using hx)
  | builtin => exact Or.inl (by simpa [LowerContext.refer, Term.freeVars] using hx)
  | binding id =>
    rw [LowerContext.refer, LowerContext.reference] at hx
    cases htable : r.context.table? id with
    | none =>
      rw [htable] at hx
      exact Or.inl (by simpa [Term.freeVars] using hx)
    | some table =>
      rw [htable] at hx
      have hx' : x = table := by simpa [Term.dispatch, Term.ofId, Term.freeVars] using hx
      obtain ⟨first, rest, hmem, hid, rfl⟩ := hr.mem_tables_iff.1 (mem_of_lookup_eq_some htable)
      exact Or.inr ⟨id, first, rest, rfl, hid, hx', List.mem_of_mem_filter hmem⟩

/-! ### Recursive components -/

/-- A component of a grouping is lowered to the fixed point `z = body`: one definition under its own
name, or a table. -/
inductive LowersToFix (r : Resolution) (ids : List DispatchId) (ds : List (Definition Scoped)) :
    List DispatchId → String → Term → Prop
  | single {id d code} : (id, d) ∈ ids.zip ds → d.isDiscard = false → r.context.DefLowers d code →
      LowersToFix r ids ds [id] d.name.name code
  | table {m n l q qs} : (∀ p ∈ m :: n :: l, p ∈ ids.zip ds) →
      List.Forall₂ (fun p q => p.1 = q.1 ∧ r.context.DefLowers p.2 q.2) (m :: n :: l) (q :: qs) →
      LowersToFix r ids ds ((m :: n :: l).map Prod.fst) (tableAlias m.1)
        (.lam tagName (.selection q qs))

/-- What is known of a recursive component of a program whose names are not made up. -/
structure RecursiveComponent (r : Resolution) (g : ScopeId) (ids : List DispatchId)
    (ds : List (Definition Scoped)) (c : List DispatchId) (z : String) (body : Term) : Prop where
  mem : (g, ds) ∈ r.program.groups
  group : Group r.tree g ids ds
  component : c ∈ r.classify.components g
  lowers : LowersToFix r ids ds c z body
  avoids : ∀ x ∈ namesOfDefs ds, ¬ Generated x
  discards : r.tree.lookup g discard = none

namespace Surface

/-! ### The relation -/

/-- The function with the parameters `xs` and the body `b` is lowered to a function with the body
`b'`; the scope `a` is that of the body. -/
structure Part (r : Resolution) (xs : List String) (a : ScopeId) (b : Expr Scoped) (b' : Term) :
    Prop where
  part : r.HasPart a b
  lowers : Lowers (r.context.expression b) b'
  avoids : ∀ x ∈ xs ++ b.names, ¬ Generated x
  params : ∀ x ∈ xs, isDiscard x = false → r.tree.lookup a x = some .parameter
  discards : r.tree.lookup a discard = none

/-- The frame of the definitions of a grouping. -/
def groupFrame (ds : List (Definition Scoped)) : Frame := .recursive (mapDefs Scoped.span ds)

/-- A definition of a grouping, suspended. -/
def definition (d : Definition Scoped) (ρ : Env) : Object :=
  .suspended (d.params.map Ident.name) (d.body.map Scoped.span) ρ

mutual

/-- An object of a program and an object of its lowered form are the same. -/
inductive Sim (r : Resolution) : Object → ByName.Object → Prop
  | int (v : Int64) : Sim r (.int v) (.int v)
  | builtin {p args args'} : args.length = args'.length →
      (∀ (i : ℕ) o o', args[i]? = some o → args'[i]? = some o' → Sim r o o') →
      Sim r (.builtin p args) (.builtin p args')
  | fn {x xs b b' ρ ρ'} : Matches r (x :: xs) b b' ρ ρ' →
      Sim r (.fn x xs (b.map Scoped.span) ρ) (.closure x (.lams xs b') ρ')
  | suspended {xs b b' ρ ρ'} : Matches r xs b b' ρ ρ' →
      Sim r (.suspended xs (b.map Scoped.span) ρ) (.pair (.lams xs b') ρ')

/-- A function is lowered, and its free names refer to the same things in both environments. -/
inductive Matches (r : Resolution) :
    List String → Expr Scoped → Term → Env → ByName.Env → Prop
  | intro {xs a b b' ρ ρ'} : Part r xs a b b' → ByName.Aliased ρ' →
      (∀ y e, b.Free y → y ∉ xs → r.tree.lookup a y = some e → Refers r y e ρ ρ') →
      Matches r xs b b' ρ ρ'

/-- A name that denotes `e` refers to the same thing in both environments. -/
inductive Refers (r : Resolution) : String → Entry → Env → ByName.Env → Prop
  /-- The name stands for an object. -/
  | object {y e o o' ρ ρ'} : r.context.refer y e = .var y → lookup y ρ = some o →
      ρ'.lookup y = some o' → Sim r o o' → Refers r y e ρ ρ'
  /-- The name is that of a member of a recursive component, and `o` is its fixed point. -/
  | member {g ids ds c z body id d ρ ρ' ρ₀ ρ₀' o} : RecursiveComponent r g ids ds c z body →
      (id, d) ∈ ids.zip ds → id ∈ c →
      lookup d.name.name ρ = some (definition d (groupFrame ds :: ρ₀)) →
      ρ'.lookup z = some o → ByName.IsFix z body ρ₀' o → ByName.Aliased ρ₀' →
      (∀ i d y e, (i, d) ∈ ids.zip ds → i ∈ c → d.body.Free y → y ∉ d.params.map Ident.name →
        r.tree.lookup d.ann.scope y = some e → (∀ j ∈ c, e ≠ .binding j) →
        Refers r y e (groupFrame ds :: ρ₀) ρ₀') →
      Refers r d.name.name (.binding id) ρ ρ'

end

/-! ### Looking up names -/

lemma lookup_extend_of_ne {x y : String} (h : x ≠ y) (o : Object) (ρ : Env) :
    lookup y (extend x o ρ) = lookup y ρ := by
  unfold extend
  split_ifs
  · rfl
  · rw [lookup, if_neg h.symm]

lemma lookup_extend_self {x : String} (h : isDiscard x = false) (o : Object) (ρ : Env) :
    lookup x (extend x o ρ) = some o := by
  rw [extend, h, if_neg Bool.false_ne_true, lookup, if_pos rfl]

section Group

variable {ds : List (Definition Scoped)} {ρ : Env} {y : String}

lemma lookup_groupFrame : lookup y (groupFrame ds :: ρ) =
    match ds.find? fun d => !d.isDiscard && d.name.name == y with
    | some d => some (definition d (groupFrame ds :: ρ))
    | none => lookup y ρ := by
  have hfind : (mapDefs Scoped.span ds).find? (fun d => !d.isDiscard && d.name.name == y)
      = (ds.find? fun d => !d.isDiscard && d.name.name == y).map (Definition.map Scoped.span) := by
    rw [mapDefs_eq_map, List.find?_map]
    congr 2
    funext d
    obtain ⟨n, ps, b, a⟩ := d
    rfl
  rw [groupFrame, lookup, hfind]
  cases ds.find? fun d => !d.isDiscard && d.name.name == y with
  | none => rfl
  | some d =>
    obtain ⟨n, ps, b, a⟩ := d
    simp [definition, Definition.map, Ident.map, Function.comp_def]

lemma lookup_groupFrame_of_notMem (h : y ∉ boundNames ds) :
    lookup y (groupFrame ds :: ρ) = lookup y ρ := by
  have hfind : (ds.find? fun d => !d.isDiscard && d.name.name == y) = none := by
    refine List.find?_eq_none.2 fun d hd hp => h (mem_boundNames.2 ⟨d, hd, ?_⟩)
    simpa [and_comm] using hp
  rw [lookup_groupFrame, hfind]

lemma lookup_groupFrame_of_mem (hnodup : (boundNames ds).Nodup) {d : Definition Scoped}
    (hd : d ∈ ds) (hdisc : d.isDiscard = false) :
    lookup d.name.name (groupFrame ds :: ρ) = some (definition d (groupFrame ds :: ρ)) := by
  have hfind : (ds.find? fun d' => !d'.isDiscard && d'.name.name == d.name.name) = some d := by
    cases hfind : ds.find? fun d' => !d'.isDiscard && d'.name.name == d.name.name with
    | none => exact absurd (List.find?_eq_none.1 hfind d hd) (by simp [hdisc])
    | some d' =>
      have hd' := List.mem_of_find?_eq_some hfind
      have hp : d'.isDiscard = false ∧ d'.name.name = d.name.name := by
        simpa using List.find?_some hfind
      have hmem : ∀ d'' ∈ ds, d''.isDiscard = false → d'' ∈ ds.filter fun d => !d.isDiscard :=
        fun d'' h hdisc'' => List.mem_filter.2 ⟨h, by simp [hdisc'']⟩
      rw [List.inj_on_of_nodup_map hnodup (hmem d' hd' hp.1) (hmem d hd hdisc) hp.2]
  rw [lookup_groupFrame, hfind]

end Group

/-! ### Changing environments -/

section Change

variable {names : List String} {r : Resolution} {ids₀ : List DispatchId}
  (hr : r.WellScoped names ids₀)

include hr

/-- A member of a recursive component is referred to by the variable of the component. -/
lemma mem_freeVars_of_component {g : ScopeId} {ids : List DispatchId}
    {ds : List (Definition Scoped)} {c : List DispatchId} {z : String} {body : Term}
    (hc : RecursiveComponent r g ids ds c z body) {id : DispatchId} {d : Definition Scoped}
    (hd : (id, d) ∈ ids.zip ds) (hid : id ∈ c) :
    z ∈ (r.context.refer d.name.name (.binding id)).freeVars := by
  have hmem := (hr.mem_components hc.mem hc.group hc.component).1
  cases hc.lowers with
  | single hd' =>
    obtain rfl := List.mem_singleton.1 hid
    obtain rfl := hc.group.eq_of_mem_zip hd hd'
    rw [hr.refer_eq_var hmem]
    exact List.mem_singleton_self _
  | table =>
    rw [hr.refer_eq_dispatch hmem hid]
    exact List.mem_append_left _ (List.mem_singleton_self _)

lemma Refers.congr {y : String} {e : Entry} {ρ ρ₁ : Env} {ρ' ρ₁' : ByName.Env}
    (h : Refers r y e ρ ρ') (hleft : lookup y ρ₁ = lookup y ρ)
    (hright : ∀ x ∈ (r.context.refer y e).freeVars, ρ₁'.lookup x = ρ'.lookup x) :
    Refers r y e ρ₁ ρ₁' := by
  cases h with
  | object hrefer hy hy' hsim =>
    have hfree : y ∈ (r.context.refer y e).freeVars := by rw [hrefer]; simp [Term.freeVars]
    exact .object hrefer (hleft.trans hy) ((hright y hfree).trans hy') hsim
  | member hc hd hid hy hz ho haliased houter =>
    have hfree := mem_freeVars_of_component hr hc hd hid
    exact .member hc hd hid (hleft.trans hy) ((hright _ hfree).trans hz) ho haliased houter

/-- A binding of another variable does not matter. -/
lemma Refers.extend_right {x y : String} {e : Entry} {ρ : Env} {ρ' : ByName.Env}
    (h : Refers r y e ρ ρ') (hx : x ∉ (r.context.refer y e).freeVars) (o : ByName.Object) :
    Refers r y e ρ ((x, o) :: ρ') := by
  refine h.congr hr rfl fun x' hx' => ?_
  have hne : x' ≠ x := by
    rintro rfl
    exact hx hx'
  rw [lookup_cons_ite, if_neg hne]

/-- A name of the program that is not the one looked for is not a variable of the reference. -/
lemma notMem_freeVars_refer {x y : String} {e : Entry} (hx : ¬ Generated x) (hne : x ≠ y) :
    x ∉ (r.context.refer y e).freeVars := by
  intro hmem
  rcases hr.mem_freeVars_refer hmem with rfl | ⟨id, first, rest, -, -, rfl, -⟩
  · exact hne rfl
  · exact hx (Or.inr (Or.inr (Or.inr ⟨first, rfl⟩)))

lemma tag_notMem_freeVars_refer {y : String} {e : Entry} (hy : ¬ Generated y) :
    tagName ∉ (r.context.refer y e).freeVars := by
  intro hmem
  rcases hr.mem_freeVars_refer hmem with rfl | ⟨id, first, rest, -, -, heq, -⟩
  · exact hy (Or.inr (Or.inr (Or.inl rfl)))
  · exact (tableAlias_ne first).2.2 heq.symm

/-- The table of a component is not used by references to other definitions. -/
lemma alias_notMem_freeVars_refer {first : DispatchId} {rest : List DispatchId}
    (hc : first :: rest ∈ r.classify.groupings.flatMap Grouping.components) {y : String} {e : Entry}
    (hy : ¬ Generated y) (he : ∀ j ∈ first :: rest, e ≠ .binding j) :
    tableAlias first ∉ (r.context.refer y e).freeVars := by
  intro hmem
  rcases hr.mem_freeVars_refer hmem with rfl | ⟨id, first', rest', rfl, hid, heq, hc'⟩
  · exact hy (Or.inr (Or.inr (Or.inr ⟨first, rfl⟩)))
  · obtain rfl := tableAlias_injective heq
    have hsame := eq_of_mem_of_nodup_flatten hr.nodup_components hc' hc List.mem_cons_self
      List.mem_cons_self
    exact he id (hsame ▸ hid) rfl

end Change

end Surface

end Letrec
