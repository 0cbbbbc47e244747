import Mathlib
import Letrec.Lowering
import Letrec.Proofs.Success
import Letrec.Proofs.Renumbering.Template
import Letrec.Proofs.Renumbering.Tree

/-!
# Lowering under another numbering

Lowering looks definitions up by their numbers, sorts the members of a group by them and names a
table after the lowest.  A strictly monotone change of the numbers takes part in all that, so the
two lowerings go through the same steps: they end in two terms of one template or in the same error.
Main result: `lower_renumber`.
-/

namespace Letrec

variable {α β α' β' : Type} {f : DispatchId → DispatchId}

/-! ### The tables -/

/-- For every member of a mutually recursive group the lowest number of the group. -/
def Classification.firsts (c : Classification) : List (DispatchId × DispatchId) :=
  c.mutualGroups.flatMap fun group => (group.min?.map fun first => group.map (·, first)).getD []

lemma Classification.tables_eq (c : Classification) :
    c.tables = c.firsts.map (Prod.map id tableAlias) := by
  rw [tables, firsts, List.map_flatMap]
  refine congrArg (c.mutualGroups.flatMap ·) (funext fun group => ?_)
  rw [dispatchAlias?]
  cases group.min? with
  | none => rfl
  | some first =>
    show group.map _ = (group.map _).map _
    rw [List.map_map]
    rfl

lemma min?_map (hf : Monotone f) (l : List ℕ) : (l.map f).min? = l.min?.map f := by
  cases l with
  | nil => rfl
  | cons a l =>
    rw [List.map_cons, List.min?_cons', List.min?_cons', List.foldl_map, Option.map_some]
    exact congrArg some (List.foldl_hom f fun a b => (hf.map_min).symm)

lemma Classification.firsts_renumber (hf : Monotone f) (c : Classification) :
    (c.renumber f).firsts = c.firsts.map (Prod.map f f) := by
  have hgroups : (c.renumber f).mutualGroups = c.mutualGroups.map (List.map f) := by
    have hcomponents : (c.renumber f).groupings.flatMap Grouping.components
        = (c.groupings.flatMap Grouping.components).map (List.map f) := by
      rw [renumber, List.flatMap_map, List.map_flatMap]
      rfl
    have hlength : (fun c : List ℕ => decide (1 < c.length)) ∘ List.map f
        = fun c => decide (1 < c.length) := by
      funext c
      simp
    rw [mutualGroups, hcomponents, List.filter_map, hlength, mutualGroups]
  rw [firsts, hgroups, List.flatMap_map, firsts, List.map_flatMap]
  refine congrArg (c.mutualGroups.flatMap ·) (funext fun group => ?_)
  rw [min?_map hf]
  cases group.min? with
  | none => rfl
  | some first =>
    show (group.map f).map _ = (group.map _).map _
    rw [List.map_map, List.map_map]
    rfl

namespace LowerContext

variable (t : ScopeTree) (c : Classification)

lemma table?_of (id : DispatchId) : (of t c).table? id = (c.firsts.lookup id).map tableAlias := by
  rw [table?, of, c.tables_eq]
  exact lookup_map_map Function.injective_id tableAlias id c.firsts

lemma table?_renumber (hf : StrictMono f) (id : DispatchId) :
    (of (t.renumber f) (c.renumber f)).table? (f id)
      = (c.firsts.lookup id).map fun first => tableAlias (f first) := by
  rw [table?_of, c.firsts_renumber hf.monotone, lookup_map_map hf.injective, Option.map_map]
  rfl

end LowerContext

/-! ### Steps side by side -/

/-- An error under another numbering. -/
def LowerError.renumber (f : DispatchId → DispatchId) : LowerError → LowerError
  | .missingMain entry span => .missingMain entry span
  | .unboundIdentifier name span => .unboundIdentifier name span
  | .unknownDefinition id span => .unknownDefinition (f id) span
  | .emptyGroup span => .emptyGroup span

/-- Two steps end alike: both succeed with related results, or both fail with the same error, up to
the numbers in it. -/
def LowersAlike (f : DispatchId → DispatchId) (R : α → α' → Prop) (x : LowerM α) (x' : LowerM α') :
    Prop :=
  ∀ log log', (∃ a a' log₁ log₁', x log = .ok a log₁ ∧ x' log' = .ok a' log₁' ∧ R a a') ∨
    ∃ e log₁ log₁', x log = .error e log₁ ∧ x' log' = .error (e.renumber f) log₁'

namespace LowersAlike

variable {R : α → α' → Prop} {S : β → β' → Prop}

lemma pure {a : α} {a' : α'} (h : R a a') : LowersAlike f R (pure a) (pure a') :=
  fun log log' => Or.inl ⟨a, a', log, log', rfl, rfl, h⟩

lemma throw (e : LowerError) : LowersAlike f R (throw e) (throw (e.renumber f)) :=
  fun log log' => Or.inr ⟨e, log, log', rfl, rfl⟩

lemma bind {x : LowerM α} {x' : LowerM α'} {g : α → LowerM β} {g' : α' → LowerM β'}
    (hx : LowersAlike f R x x') (hg : ∀ a a', R a a' → LowersAlike f S (g a) (g' a')) :
    LowersAlike f S (x >>= g) (x' >>= g') := by
  intro log log'
  rcases hx log log' with ⟨a, a', log₁, log₁', h, h', hR⟩ | ⟨e, log₁, log₁', h, h'⟩
  · rw [bind_of_ok h, bind_of_ok h']
    exact hg a a' hR log₁ log₁'
  · exact Or.inr ⟨e, log₁, log₁', bind_of_error h, bind_of_error h'⟩

lemma report {e e' : Event} {x : LowerM α} {x' : LowerM α'} (hx : LowersAlike f R x x') :
    LowersAlike f R (do Reporting.report e; x) (do Reporting.report e'; x') :=
  fun log log' => hx (log.push e) (log'.push e')

end LowersAlike

/-! ### Definitions -/

section Definitions

variable (f : DispatchId → DispatchId) (xs : List String) (vs : List Int64)

/-- The same definition under its two numbers. -/
structure SameMember (m m' : Member) : Prop where
  id : m'.id = f m.id
  name : m'.name = m.name
  span : m'.span = m.span
  mem : m.name ∈ xs
  code : LowersAlike f (Filled f xs vs) m.code m'.code

/-- Two bindings of a grouping: what they are bound around stays the same. -/
def SameBinding (b b' : String × Term) : Prop :=
  ∀ t t', Filled f xs vs t t' → Filled f xs vs (.app (.lam b.1 t) b.2) (.app (.lam b'.1 t') b'.2)

variable {f xs vs}

lemma sameBinding_chain {bs bs' : List (String × Term)}
    (h : List.Forall₂ (SameBinding f xs vs) bs bs') {t t' : Term} (ht : Filled f xs vs t t') :
    Filled f xs vs (LowerContext.chain bs t) (LowerContext.chain bs' t') := by
  induction h with
  | nil => exact ht
  | cons hb _ ih => exact hb _ _ ih

variable (hf : StrictMono f)

include hf

lemma forall₂_insertMember {m m' : Member} {ms ms' : List Member} (hm : SameMember f xs vs m m')
    (hms : List.Forall₂ (SameMember f xs vs) ms ms') :
    List.Forall₂ (SameMember f xs vs) (LowerContext.insertMember m ms)
      (LowerContext.insertMember m' ms') := by
  induction hms with
  | nil => exact .cons hm .nil
  | @cons n n' ms ms' hn hms ih =>
    rw [LowerContext.insertMember, LowerContext.insertMember]
    simp only [hm.id, hn.id, hf.le_iff_le]
    split_ifs
    · exact .cons hm (.cons hn hms)
    · exact .cons hn ih

lemma forall₂_sorted {ms ms' : List Member} (h : List.Forall₂ (SameMember f xs vs) ms ms') :
    List.Forall₂ (SameMember f xs vs) (ms.foldr LowerContext.insertMember [])
      (ms'.foldr LowerContext.insertMember []) := by
  induction h with
  | nil => exact .nil
  | cons hm _ ih => exact forall₂_insertMember hf hm ih

lemma find?_sameMember {ms ms' : List Member} (h : List.Forall₂ (SameMember f xs vs) ms ms')
    (id : DispatchId) :
    Option.Rel (SameMember f xs vs) (ms.find? (·.id == id)) (ms'.find? (·.id == f id)) := by
  induction h with
  | nil => exact .none
  | @cons m m' ms ms' hm _ ih =>
    have hid : (m'.id == f id) = (m.id == id) := by simp [hm.id, hf.injective.eq_iff]
    rw [List.find?_cons, List.find?_cons, hid]
    cases m.id == id with
    | true => exact .some hm
    | false => exact ih

lemma alike_membersOf {ms ms' : List Member} (h : List.Forall₂ (SameMember f xs vs) ms ms')
    (ids : List DispatchId) : LowersAlike f (List.Forall₂ (SameMember f xs vs))
      (LowerContext.membersOf ms ids) (LowerContext.membersOf ms' (ids.map f)) := by
  induction ids with
  | nil => exact .pure .nil
  | cons id ids ih =>
    rw [List.map_cons, LowerContext.membersOf, LowerContext.membersOf]
    have hfind := find?_sameMember hf h id
    generalize ms.find? (·.id == id) = o at hfind ⊢
    generalize ms'.find? (·.id == f id) = o' at hfind ⊢
    cases hfind with
    | none => exact .throw (.unknownDefinition id .nowhere)
    | some hm => exact ih.bind fun rest rest' hrest => .pure (.cons hm hrest)

omit hf in
lemma alike_codes {ms ms' : List Member} (h : List.Forall₂ (SameMember f xs vs) ms ms') :
    LowersAlike f (List.Forall₂ (Filled.Numbered f xs vs)) (LowerContext.codes ms)
      (LowerContext.codes ms') := by
  induction h with
  | nil => exact .pure .nil
  | cons hm _ ih =>
    rw [LowerContext.codes, LowerContext.codes]
    exact hm.code.bind fun code code' hcode => ih.bind fun rest rest' hrest =>
      .pure (.cons ⟨hm.id, hcode⟩ hrest)

variable (t : ScopeTree) (c : Classification)

/-- A reference to a definition by its name or through its table. -/
lemma filled_reference {x : String} (hx : x ∈ xs) (id : DispatchId) :
    Filled f xs vs ((LowerContext.of t c).reference id x)
      ((LowerContext.of (t.renumber f) (c.renumber f)).reference (f id) x) := by
  rw [LowerContext.reference, LowerContext.reference, LowerContext.table?_of,
    LowerContext.table?_renumber t c hf]
  cases c.firsts.lookup id with
  | none => exact .var hx
  | some first => exact .reference first id

lemma alike_single {m m' : Member} (h : SameMember f xs vs m m') :
    LowersAlike f (Filled f xs vs) ((LowerContext.of t c).single m)
      ((LowerContext.of (t.renumber f) (c.renumber f)).single m') := by
  have hflags : ((LowerContext.of (t.renumber f) (c.renumber f)).classification.flags m'.id)
      = (LowerContext.of t c).classification.flags m.id := by
    rw [h.id]
    exact c.flags_renumber hf m.id
  unfold LowerContext.single
  refine h.code.bind fun code code' hcode => ?_
  rw [hflags, h.name]
  split_ifs
  · exact .report (.pure (.fix h.mem hcode))
  · exact .pure hcode

lemma alike_group {ms ms' : List Member} (h : List.Forall₂ (SameMember f xs vs) ms ms') :
    LowersAlike f (SameBinding f xs vs) ((LowerContext.of t c).group ms)
      ((LowerContext.of (t.renumber f) (c.renumber f)).group ms') := by
  unfold LowerContext.group
  have hsorted := forall₂_sorted hf h
  generalize ms.foldr LowerContext.insertMember [] = sorted at hsorted ⊢
  generalize ms'.foldr LowerContext.insertMember [] = sorted' at hsorted ⊢
  cases hsorted with
  | nil => exact .throw (.emptyGroup .nowhere)
  | @cons m m' ms ms' hm hms =>
    dsimp only
    rw [hm.id, hm.span, LowerContext.table?_of, LowerContext.table?_renumber t c hf]
    cases c.firsts.lookup m.id with
    | none => exact .throw (.unknownDefinition m.id m.span)
    | some first =>
      refine .report (hm.code.bind fun code code' hcode => ?_)
      refine (alike_codes hms).bind fun codes codes' hcodes => .pure fun t t' ht => ?_
      exact .table first ⟨rfl, hcode⟩ hcodes ht

lemma alike_component {ms ms' : List Member} (h : List.Forall₂ (SameMember f xs vs) ms ms') :
    LowersAlike f (Option.Rel (SameBinding f xs vs)) ((LowerContext.of t c).component ms)
      ((LowerContext.of (t.renumber f) (c.renumber f)).component ms') := by
  have hgroup : ∀ {ms ms' : List Member}, List.Forall₂ (SameMember f xs vs) ms ms' →
      LowersAlike f (Option.Rel (SameBinding f xs vs))
        (do return some (← (LowerContext.of t c).group ms))
        (do return some (← (LowerContext.of (t.renumber f) (c.renumber f)).group ms')) :=
    fun h => (alike_group hf t c h).bind fun b b' hb => .pure (.some hb)
  rcases h with _ | ⟨hm, _ | ⟨hn, hms⟩⟩
  · exact .pure .none
  · unfold LowerContext.component
    dsimp only
    rw [hm.id, hm.name, LowerContext.table?_of, LowerContext.table?_renumber t c hf,
      Option.isSome_map, Option.isSome_map]
    split_ifs
    · exact hgroup (.cons hm .nil)
    · exact .pure .none
    · refine (alike_single hf t c hm).bind fun value value' hvalue => .pure (.some ?_)
      exact fun t t' ht => .app (.lam hm.mem ht) hvalue
  · exact hgroup (.cons hm (.cons hn hms))

lemma alike_bindings {ms ms' : List Member} (h : List.Forall₂ (SameMember f xs vs) ms ms')
    (cs : List (List DispatchId)) : LowersAlike f (List.Forall₂ (SameBinding f xs vs))
      ((LowerContext.of t c).bindings ms cs)
      ((LowerContext.of (t.renumber f) (c.renumber f)).bindings ms' (cs.map (List.map f))) := by
  induction cs with
  | nil => exact .pure .nil
  | cons ids cs ih =>
    rw [List.map_cons, LowerContext.bindings, LowerContext.bindings]
    refine (alike_membersOf hf h ids).bind fun ns ns' hns => ?_
    refine (alike_component hf t c hns).bind fun o o' ho => ?_
    refine ih.bind fun rest rest' hrest => .pure ?_
    cases ho with
    | none => exact hrest
    | some hb => exact .cons hb hrest

lemma alike_grouping {ms ms' : List Member} (h : List.Forall₂ (SameMember f xs vs) ms ms')
    (s : ScopeId) {b b' : Term} (hb : Filled f xs vs b b') : LowersAlike f (Filled f xs vs)
      ((LowerContext.of t c).grouping s ms b)
      ((LowerContext.of (t.renumber f) (c.renumber f)).grouping s ms' b') := by
  have hbindings := alike_bindings hf t c h (c.components s)
  rw [← c.components_renumber s] at hbindings
  exact hbindings.bind fun bs bs' hbs => .pure (sameBinding_chain hbs hb)

lemma alike_identifier {i : Ident Scoped} (hi : i.name ∈ xs) : LowersAlike f (Filled f xs vs)
    ((LowerContext.of t c).identifier i)
    ((LowerContext.of (t.renumber f) (c.renumber f)).identifier i) := by
  have hdenotes : (LowerContext.of (t.renumber f) (c.renumber f)).tree.denotes i
      = ((LowerContext.of t c).tree.denotes i).map (Entry.renumber f) := t.denotes_renumber i
  unfold LowerContext.identifier
  rw [hdenotes]
  rcases (LowerContext.of t c).tree.denotes i with _ | ⟨_ | id | _⟩
  · exact .throw (.unboundIdentifier i.name i.ann.span)
  · exact .pure (.var hi)
  · exact .pure (filled_reference hf t c hi id)
  · exact .pure (.var hi)

/-! ### Expressions -/

mutual

lemma alike_expression : ∀ e : Expr Scoped, e.names ⊆ xs → e.ints ⊆ vs →
    LowersAlike f (Filled f xs vs) ((LowerContext.of t c).expression e)
      ((LowerContext.of (t.renumber f) (c.renumber f)).expression e)
  | .ident i, hxs, _ => by
    rw [LowerContext.expression, LowerContext.expression]
    exact alike_identifier hf t c (hxs (List.mem_singleton_self _))
  | .int v _, _, hvs => by
    rw [LowerContext.expression, LowerContext.expression]
    exact .pure (.int (hvs (List.mem_singleton_self _)))
  | .lam ps b _, hxs, hvs => by
    rw [Expr.names, List.append_subset] at hxs
    rw [LowerContext.expression, LowerContext.expression]
    exact (alike_expression b hxs.2 hvs).bind fun b b' hb => .pure (.lams hxs.1 hb)
  | .call g x _, hxs, hvs => by
    rw [Expr.names, List.append_subset] at hxs
    rw [Expr.ints, List.append_subset] at hvs
    rw [LowerContext.expression, LowerContext.expression]
    refine (alike_expression g hxs.1 hvs.1).bind fun g g' hg => ?_
    exact (alike_expression x hxs.2 hvs.2).bind fun x x' hx => .pure (.app hg hx)
  | .ite d p n _, hxs, hvs => by
    rw [Expr.names, List.append_subset, List.append_subset] at hxs
    rw [Expr.ints, List.append_subset, List.append_subset] at hvs
    rw [LowerContext.expression, LowerContext.expression]
    refine (alike_expression d hxs.1.1 hvs.1.1).bind fun d d' hd => ?_
    refine (alike_expression p hxs.1.2 hvs.1.2).bind fun p p' hp => ?_
    exact (alike_expression n hxs.2 hvs.2).bind fun n n' hn => .pure (.cond hd hp hn)
  | .letIn ds b a, hxs, hvs => by
    rw [Expr.names, List.append_subset] at hxs
    rw [Expr.ints, List.append_subset] at hvs
    rw [LowerContext.expression, LowerContext.expression]
    refine (alike_expression b hxs.2 hvs.2).bind fun b b' hb => ?_
    exact alike_grouping hf t c (sameMember_members ds hxs.1 hvs.1) a.scope hb

lemma sameMember_members : ∀ ds : List (Definition Scoped), namesOfDefs ds ⊆ xs →
    intsOfDefs ds ⊆ vs → List.Forall₂ (SameMember f xs vs) ((LowerContext.of t c).members ds)
      ((LowerContext.of (t.renumber f) (c.renumber f)).members ds)
  | [], _, _ => by
    rw [LowerContext.members, LowerContext.members]
    exact .nil
  | ⟨n, ps, b, a⟩ :: ds, hxs, hvs => by
    rw [namesOfDefs, List.append_subset, Definition.names, List.cons_append, List.cons_subset,
      List.append_subset] at hxs
    rw [intsOfDefs, List.append_subset] at hvs
    obtain ⟨⟨hname, hparams, hbody⟩, hrest⟩ := hxs
    have hds := sameMember_members ds hrest hvs.2
    have howner : (LowerContext.of (t.renumber f) (c.renumber f)).tree.ownerOf? a.scope
        = ((LowerContext.of t c).tree.ownerOf? a.scope).map (Binding.renumber f) :=
      t.ownerOf?_renumber hf.injective a.scope
    rw [LowerContext.members, LowerContext.members, howner]
    cases (LowerContext.of t c).tree.ownerOf? a.scope with
    | none => exact hds
    | some d =>
      refine .cons ⟨rfl, rfl, rfl, hname, ?_⟩ hds
      exact (alike_expression b hbody hvs.1).bind fun b b' hb => .pure (.lams hparams hb)

end

end Definitions

/-! ### Programs -/

/-- The body of a lowered program under the aliases of `if` and `==`. -/
def underAliases (body : Term) : Term :=
  .app (.lam ifAlias (.app (.lam eqAlias body) (.var "=="))) (.var "if")

/-- A resolution lowers like the same resolution under another numbering. -/
lemma lower_renumber (hf : StrictMono f) (r : Resolution) (entry : String) :
    LowersAlike f (fun t t' => ∃ τ : Template, τ.From (entry :: r.program.names) r.program.ints ∧
        t = underAliases (τ.fill id) ∧ t' = underAliases (τ.fill f))
      (r.lower r.classify entry) ((r.renumber f).lower (r.renumber f).classify entry) := by
  let ctx := LowerContext.of r.tree r.classify
  let ctx' := LowerContext.of (r.renumber f).tree (r.classify.renumber f)
  have hentry : ctx'.tree.entry? (r.renumber f).program.ann.scope entry
      = (ctx.tree.entry? r.program.ann.scope entry).map (Entry.renumber f) :=
    r.tree.entry?_renumber _ _
  rw [r.classify_renumber hf]
  unfold Resolution.lower LowerContext.program
  rw [hentry]
  rcases ctx.tree.entry? r.program.ann.scope entry with _ | ⟨_ | id | _⟩
  · exact .throw (.missingMain entry r.program.ann.span)
  · exact .throw (.missingMain entry r.program.ann.span)
  · have hmembers : List.Forall₂ (SameMember f (entry :: r.program.names) r.program.ints)
        ((LowerContext.of r.tree r.classify).members r.program.defs) _ :=
      sameMember_members hf r.tree r.classify r.program.defs (List.subset_cons_self _ _)
        (List.Subset.refl _)
    refine .report ((alike_grouping hf r.tree r.classify hmembers _
      (filled_reference hf r.tree r.classify List.mem_cons_self id)).bind
      fun body body' hbody => .pure ?_)
    obtain ⟨τ, hτ, rfl, rfl⟩ := hbody
    exact ⟨τ, hτ, rfl, rfl⟩
  · exact .throw (.missingMain entry r.program.ann.span)

end Letrec
