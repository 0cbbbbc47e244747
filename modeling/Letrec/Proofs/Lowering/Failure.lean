import Mathlib
import Letrec.Proofs.Lowering.Capture

/-!
# How lowering fails

Lowering visits the definitions of a grouping in the order of their components and leaves the
discarded ones out; the sweep for unbound identifiers visits everything in source order.  Still the
two agree: `Meets t is x` says that the step `x` fails just when one of the identifiers `is` denotes
nothing, and a whole grouping meets the live identifiers of its definitions (`meets_grouping`).

The errors about the classification are not among those that remain: the components of a grouping
are made of its definitions, and every group of several has a table.
-/

namespace Letrec

variable {α β : Type}

/-- The error of a computation that failed. -/
def error? {ε σ : Type} : EStateM.Result ε σ α → Option ε
  | .ok _ _ => none
  | .error e _ => some e

/-- A step of lowering succeeds if all of these identifiers denote something, and else it reports
one that does not. -/
def Meets (t : ScopeTree) (is : List (Ident Scoped)) (x : LowerM α) : Prop :=
  ∀ log, (∃ a log', x log = .ok a log' ∧ ∀ i ∈ is, t.denotes i ≠ none) ∨
    ∃ i ∈ is, t.denotes i = none ∧
      ∃ log', x log = .error (.unboundIdentifier i.name i.ann.span) log'

namespace Meets

variable {t : ScopeTree} {is js : List (Ident Scoped)} {x : LowerM α}

lemma pure (a : α) : Meets t [] (pure a : LowerM α) :=
  fun log => Or.inl ⟨a, log, rfl, by simp⟩

lemma report (e : Event) : Meets t [] (Reporting.report e : LowerM Unit) :=
  fun log => Or.inl ⟨(), log.push e, rfl, by simp⟩

lemma congr (h : Meets t is x) (hmem : ∀ i, i ∈ is ↔ i ∈ js) : Meets t js x := by
  intro log
  rcases h log with ⟨a, log', hx, hall⟩ | ⟨i, hi, hnone, herror⟩
  · exact Or.inl ⟨a, log', hx, fun i hi => hall i ((hmem i).2 hi)⟩
  · exact Or.inr ⟨i, (hmem i).1 hi, hnone, herror⟩

/-- Two steps one after the other meet the identifiers of both. -/
lemma bind {f : α → LowerM β} (hx : Meets t is x) (hf : ∀ a, Lowers x a → Meets t js (f a)) :
    Meets t (is ++ js) (x >>= f) := by
  intro log
  rcases hx log with ⟨a, log₁, hok, hall⟩ | ⟨i, hi, hnone, log₁, herror⟩
  · rw [bind_of_ok hok]
    rcases hf a ⟨log, log₁, hok⟩ log₁ with ⟨b, log₂, hok', hall'⟩ | ⟨i, hi, hnone, herror⟩
    · exact Or.inl ⟨b, log₂, hok', List.forall_mem_append.2 ⟨hall, hall'⟩⟩
    · exact Or.inr ⟨i, List.mem_append_right is hi, hnone, herror⟩
  · exact Or.inr ⟨i, List.mem_append_left js hi, hnone, log₁, bind_of_error herror⟩

lemma map (f : α → β) (hx : Meets t is x) :
    Meets t is (x >>= fun a => Pure.pure (f a)) :=
  (hx.bind fun a _ => .pure (f a)).congr fun i => by rw [List.append_nil]

end Meets

/-! ### Definitions -/

namespace LowerContext

variable (ctx : LowerContext)

lemma meets_identifier (i : Ident Scoped) : Meets ctx.tree [i] (ctx.identifier i) := by
  have hok : ∀ e, ctx.tree.denotes i = some e → ∀ u : Term,
      Meets ctx.tree [i] (Pure.pure u : LowerM Term) :=
    fun e he u log => Or.inl ⟨u, log, rfl, by simp [he]⟩
  unfold identifier
  split
  · exact hok _ ‹_› _
  · exact hok _ ‹_› _
  · exact hok _ ‹_› _
  · exact fun log => Or.inr ⟨i, by simp, ‹_›, log, rfl⟩

/-- A definition meets the identifiers of its body. -/
lemma meets_code {m : DispatchId × Definition Scoped}
    (h : Meets ctx.tree m.2.body.liveIdents (ctx.expression m.2.body)) :
    Meets ctx.tree m.2.body.liveIdents (ctx.member m).code :=
  h.map _

lemma meets_single {m : DispatchId × Definition Scoped}
    (h : Meets ctx.tree m.2.body.liveIdents (ctx.expression m.2.body)) :
    Meets ctx.tree m.2.body.liveIdents (ctx.single (ctx.member m)) := by
  have hcode : Meets ctx.tree (m.2.body.liveIdents ++ []) (ctx.single (ctx.member m)) := by
    refine (ctx.meets_code h).bind fun code _ => ?_
    split
    · exact (Meets.report _).bind fun _ _ => .pure _
    · exact .pure _
  rwa [List.append_nil] at hcode

lemma meets_codes {l : List (DispatchId × Definition Scoped)}
    (h : ∀ m ∈ l, Meets ctx.tree m.2.body.liveIdents (ctx.expression m.2.body)) :
    Meets ctx.tree (l.flatMap fun m => m.2.body.liveIdents) (codes (l.map ctx.member)) := by
  induction l with
  | nil => exact .pure []
  | cons m l ih =>
    rw [List.forall_mem_cons] at h
    rw [List.flatMap_cons, List.map_cons, codes]
    exact (ctx.meets_code h.1).bind fun code _ => (ih h.2).map _

/-- Every number of a grouping is found. -/
lemma meets_membersOf {l : List (DispatchId × Definition Scoped)} {c : List DispatchId}
    (h : ∀ id ∈ c, id ∈ l.map Prod.fst) :
    Meets ctx.tree [] (membersOf (l.map ctx.member) c) := by
  induction c with
  | nil => exact .pure []
  | cons id c ih =>
    rw [List.forall_mem_cons] at h
    obtain ⟨m, hm, hid⟩ := List.mem_map.1 h.1
    rw [membersOf]
    cases hfind : (l.map ctx.member).find? (·.id == id) with
    | none =>
      have hne := List.find?_eq_none.1 hfind _ (List.mem_map_of_mem hm)
      exact absurd (beq_iff_eq.2 hid) hne
    | some n => exact (ih h.2).map _

end LowerContext

/-! ### Groupings -/

namespace Group

variable {names : List String} {r : Resolution} {ids₀ ids : List DispatchId} {g : ScopeId}
  {ds : List (Definition Scoped)} (hr : r.WellScoped names ids₀) (hg : Group r.tree g ids ds)
  (hmem : (g, ds) ∈ r.program.groups)
  (hbodies : ∀ d ∈ ds, Meets r.tree d.body.liveIdents (r.context.expression d.body))

include hr hg hmem hbodies

lemma meets_group {m n : DispatchId × Definition Scoped}
    {l : List (DispatchId × Definition Scoped)}
    (hc : (m :: n :: l).map Prod.fst ∈ r.classify.components g)
    (hl : ∀ p ∈ m :: n :: l, p ∈ ids.zip ds) :
    Meets r.tree ((m :: n :: l).flatMap fun p => p.2.body.liveIdents)
      (r.context.group ((m :: n :: l).map r.context.member)) := by
  have hc' := (hr.mem_components hmem hg hc).1
  have htable : r.context.table? (r.context.member m).id = some (tableAlias m.1) := by
    show r.context.table? m.1 = _
    rw [hr.table?_eq hc' (by simp), if_pos (by simp)]
    rfl
  have hcodes : ∀ p ∈ m :: n :: l,
      Meets r.tree p.2.body.liveIdents (r.context.expression p.2.body) :=
    fun p hp => hbodies p.2 (List.of_mem_zip (hl p hp)).2
  rw [List.forall_mem_cons] at hcodes
  unfold LowerContext.group
  rw [LowerContext.foldr_insertMember (hr.sorted_of_mem hc'), List.map_cons]
  dsimp only
  rw [htable, List.flatMap_cons]
  refine (Meets.report _).bind fun _ _ => ?_
  exact (r.context.meets_code hcodes.1).bind fun code _ =>
    (r.context.meets_codes hcodes.2).map _

/-- A component meets the identifiers of its definitions, none if it is a discarded one. -/
lemma meets_component {l : List (DispatchId × Definition Scoped)}
    (hc : l.map Prod.fst ∈ r.classify.components g) (hl : ∀ p ∈ l, p ∈ ids.zip ds) :
    Meets r.tree ((l.map Prod.fst).flatMap (liveIdentsOf ids ds))
      (r.context.component (l.map r.context.member)) := by
  have hlive : (l.map Prod.fst).flatMap (liveIdentsOf ids ds)
      = l.flatMap fun p => p.2.liveIdents := by
    rw [List.flatMap_map]
    exact List.flatMap_congr fun p hp => hg.liveIdentsOf_eq (hl p hp)
  rw [hlive]
  match l, hc, hl with
  | [], _, _ => exact .pure none
  | [m], hc, hl =>
    have htable : r.context.table? m.1 = none := by
      rw [hr.table?_eq (hr.mem_components hmem hg hc).1 (by simp), if_neg (by simp)]
    have hd : m ∈ ids.zip ds := hl m (by simp)
    rw [List.flatMap_singleton, List.map_singleton]
    show Meets _ _ (if (r.context.table? m.1).isSome then _ else if m.2.isDiscard then _ else _)
    rw [htable, if_neg (by simp), Definition.liveIdents]
    by_cases hdisc : m.2.isDiscard = true
    · rw [if_pos hdisc, if_pos hdisc]
      exact .pure none
    · rw [if_neg hdisc, if_neg hdisc]
      have hbody := hbodies m.2 (List.of_mem_zip hd).2
      exact (r.context.meets_single hbody).map _
  | m :: n :: l, hc, hl =>
    -- no definition of a group of several is discarded
    have hbody : ((m :: n :: l).flatMap fun p => p.2.liveIdents)
        = (m :: n :: l).flatMap fun p => p.2.body.liveIdents := by
      refine List.flatMap_congr fun p hp => ?_
      have hdisc := isDiscard_of_mem_group hr hg hmem hc (by simp) (hl p hp)
        (List.mem_map_of_mem hp)
      rw [Definition.liveIdents, hdisc]
      rfl
    rw [hbody]
    exact (meets_group hr hg hmem hbodies hc hl).map _

lemma meets_bindings {cs : List (List DispatchId)} (hcs : ∀ c ∈ cs, c ∈ r.classify.components g) :
    Meets r.tree (cs.flatten.flatMap (liveIdentsOf ids ds))
      (r.context.bindings ((ids.zip ds).map r.context.member) cs) := by
  induction cs with
  | nil => exact .pure []
  | cons c cs ih =>
    rw [List.forall_mem_cons] at hcs
    have hfound : ∀ id ∈ c, id ∈ (ids.zip ds).map Prod.fst := by
      intro id hid
      rw [List.map_fst_zip hg.length.le]
      exact Surface.mem_ids_of_component hr hmem hg hcs.1 hid
    rw [LowerContext.bindings, List.flatten_cons, List.flatMap_append]
    refine (r.context.meets_membersOf hfound).bind fun ms hms => ?_
    obtain ⟨l, hl, rfl, rfl⟩ := LowerContext.lowers_membersOf hms
    exact (meets_component hr hg hmem hbodies hcs.1 hl).bind fun b _ => (ih hcs.2).map _

/-- A grouping meets the live identifiers of its definitions, in whatever order. -/
lemma meets_grouping (body : Term) :
    Meets r.tree (liveIdentsOfDefs ds)
      (r.context.grouping g (r.context.members ds) body) := by
  have hdefs : DefsWellScoped r.context.tree g ids ds := hg.defs
  rw [LowerContext.members_eq hdefs]
  refine ((meets_bindings hr hg hmem hbodies fun c hc => hc).map _).congr fun i => ?_
  obtain ⟨hw, hn, -⟩ := callGraph_wellFormed hg
  -- the components are made of the numbers of the grouping
  rw [← hg.flatMap_liveIdentsOf, List.mem_flatMap, List.mem_flatMap]
  refine exists_congr fun id => and_congr_left fun _ => ?_
  show id ∈ (r.classify.components g).flatten ↔ _
  rw [hr.components_eq hmem, CallGraph.mem_flatten_components hw, hn]

end Group

/-! ### Programs -/

section Program

variable {names : List String} {r : Resolution} {ids : List DispatchId}
  (hr : r.WellScoped names ids)

include hr

/-- An expression meets its live identifiers. -/
lemma meets_expression (e : Expr Scoped) : ∀ {s : ScopeId}, r.HasPart s e →
    Meets r.tree e.liveIdents (r.context.expression e) := by
  induction e using Expr.induction with
  | ident i =>
    intro s _
    rw [LowerContext.expression]
    exact r.context.meets_identifier i
  | int v a =>
    intro s _
    rw [LowerContext.expression]
    exact .pure _
  | lam ps b a ih =>
    intro s hpart
    rw [LowerContext.expression]
    exact (ih hpart.lam.2).map _
  | call f x a ihf ihx =>
    intro s hpart
    rw [LowerContext.expression, Expr.liveIdents]
    exact (ihf hpart.call.1).bind fun f' _ => (ihx hpart.call.2).map _
  | ite c p n a ihc ihp ihn =>
    intro s hpart
    rw [LowerContext.expression, Expr.liveIdents, List.append_assoc]
    exact (ihc hpart.ite.1).bind fun c' _ =>
      (ihp hpart.ite.2.1).bind fun p' _ => (ihn hpart.ite.2.2).map _
  | letIn ds b a ihds ihb =>
    intro s hpart
    obtain ⟨hmem, hpartb, ids', -, hg⟩ := hpart.letIn
    rw [LowerContext.expression]
    have hgrouping : ∀ b', Meets r.tree (liveIdentsOfDefs ds)
        (r.context.grouping a.scope (r.context.members ds) b') := by
      refine Group.meets_grouping hr hg hmem fun d hd => ?_
      obtain ⟨id, hid⟩ := exists_mem_zip_of_mem_right hg.length hd
      exact ihds d hd (hg.hasPart hmem hid)
    -- the body comes before the definitions here, in the source after them
    refine ((ihb hpartb).bind fun b' _ => hgrouping b').congr fun i => ?_
    rw [Expr.liveIdents, List.mem_append, List.mem_append, or_comm]

/-- A program has no entry point, or it meets its live identifiers. -/
lemma lower_cases (entry : String) :
    (entry ∉ boundNames r.program.defs ∧
      r.lower r.classify entry = throw (.missingMain entry r.program.ann.span)) ∨
    (entry ∈ boundNames r.program.defs ∧
      Meets r.tree (liveIdentsOfDefs r.program.defs) (r.lower r.classify entry)) := by
  have hg := hr.program_group
  have hentry : r.context.tree.entry? r.program.ann.scope entry
      = (groupEntries ids r.program.defs).lookup entry :=
    ScopeTree.entry_of_scope hr.declared.scope entry
  have hlower : r.lower r.classify entry = r.context.program r.program entry := rfl
  unfold LowerContext.program at hlower
  rw [hlower, hentry, ← map_fst_groupEntries hg.length]
  cases hlookup : (groupEntries ids r.program.defs).lookup entry with
  | none => exact Or.inl ⟨lookup_eq_none_iff_notMem.1 hlookup, rfl⟩
  | some e =>
    have he := mem_of_lookup_eq_some hlookup
    obtain ⟨id, d, rfl, -⟩ := mem_groupEntries.1 he
    refine Or.inr ⟨List.mem_map_of_mem he, ?_⟩
    have hbodies : ∀ d ∈ r.program.defs,
        Meets r.tree d.body.liveIdents (r.context.expression d.body) := by
      intro d hd
      obtain ⟨id', hid'⟩ := exists_mem_zip_of_mem_right hg.length hd
      exact meets_expression hr d.body (hg.hasPart List.mem_cons_self hid')
    exact (Meets.report _).bind fun _ _ =>
      (Group.meets_grouping hr hg List.mem_cons_self hbodies _).map _

end Program

/-! ### The sweep for unbound identifiers -/

mutual

/-- The identifiers of an expression in the order of the sweep, each with whether it is inside of a
discarded definition.  If `inside` holds, then the whole expression is. -/
def Expr.sweptIdents {α : Type} (inside : Bool) : Expr α → List (Ident α × Bool)
  | .ident i => [(i, inside)]
  | .int _ _ => []
  | .lam _ b _ => b.sweptIdents inside
  | .call f x _ => f.sweptIdents inside ++ x.sweptIdents inside
  | .ite c p n _ => c.sweptIdents inside ++ p.sweptIdents inside ++ n.sweptIdents inside
  | .letIn ds b _ => sweptIdentsOfDefs inside ds ++ b.sweptIdents inside

/-- The identifiers in the bodies of definitions, each with whether it is inside of a discarded
one. -/
def sweptIdentsOfDefs {α : Type} (inside : Bool) : List (Definition α) → List (Ident α × Bool)
  | [] => []
  | ⟨n, _, b, _⟩ :: ds =>
    b.sweptIdents (inside || isDiscard n.name) ++ sweptIdentsOfDefs inside ds

end

mutual

/-- The sweep visits all identifiers. -/
lemma Expr.map_fst_sweptIdents {α : Type} (inside : Bool) : ∀ e : Expr α,
    (e.sweptIdents inside).map Prod.fst = e.idents
  | .ident _ => rfl
  | .int _ _ => rfl
  | .lam _ b _ => b.map_fst_sweptIdents inside
  | .call f x _ => by
    rw [Expr.sweptIdents, List.map_append, f.map_fst_sweptIdents, x.map_fst_sweptIdents,
      Expr.idents]
  | .ite c p n _ => by
    rw [Expr.sweptIdents, List.map_append, List.map_append, c.map_fst_sweptIdents,
      p.map_fst_sweptIdents, n.map_fst_sweptIdents, Expr.idents]
  | .letIn ds b _ => by
    rw [Expr.sweptIdents, List.map_append, map_fst_sweptIdentsOfDefs inside ds,
      b.map_fst_sweptIdents, Expr.idents]

lemma map_fst_sweptIdentsOfDefs {α : Type} (inside : Bool) : ∀ ds : List (Definition α),
    (sweptIdentsOfDefs inside ds).map Prod.fst = identsOfDefs ds
  | [] => rfl
  | ⟨n, ps, b, a⟩ :: ds => by
    rw [sweptIdentsOfDefs, List.map_append, b.map_fst_sweptIdents,
      map_fst_sweptIdentsOfDefs inside ds, identsOfDefs]

end

/-- The identifiers that are not inside of a discarded definition. -/
def keptIdents {α : Type} (l : List (Ident α × Bool)) : List (Ident α) :=
  (l.filter fun p => !p.2).map Prod.fst

lemma keptIdents_append {α : Type} (l l' : List (Ident α × Bool)) :
    keptIdents (l ++ l') = keptIdents l ++ keptIdents l' := by
  rw [keptIdents, List.filter_append, List.map_append]
  rfl

mutual

/-- The identifiers that are not inside of a discarded definition are the live ones. -/
lemma Expr.keptIdents_sweptIdents {α : Type} (inside : Bool) : ∀ e : Expr α,
    keptIdents (e.sweptIdents inside) = if inside then [] else e.liveIdents
  | .ident _ => by cases inside <;> rfl
  | .int _ _ => by cases inside <;> rfl
  | .lam _ b _ => b.keptIdents_sweptIdents inside
  | .call f x _ => by
    rw [Expr.sweptIdents, keptIdents_append, f.keptIdents_sweptIdents, x.keptIdents_sweptIdents]
    cases inside <;> rfl
  | .ite c p n _ => by
    rw [Expr.sweptIdents, keptIdents_append, keptIdents_append, c.keptIdents_sweptIdents,
      p.keptIdents_sweptIdents, n.keptIdents_sweptIdents]
    cases inside <;> rfl
  | .letIn ds b _ => by
    rw [Expr.sweptIdents, keptIdents_append, keptIdents_sweptIdentsOfDefs inside ds,
      b.keptIdents_sweptIdents]
    cases inside <;> rfl

lemma keptIdents_sweptIdentsOfDefs {α : Type} (inside : Bool) : ∀ ds : List (Definition α),
    keptIdents (sweptIdentsOfDefs inside ds) = if inside then [] else liveIdentsOfDefs ds
  | [] => by cases inside <;> rfl
  | ⟨n, ps, b, a⟩ :: ds => by
    rw [sweptIdentsOfDefs, keptIdents_append, b.keptIdents_sweptIdents,
      keptIdents_sweptIdentsOfDefs inside ds, liveIdentsOfDefs]
    cases inside <;> rfl

end

lemma liveIdentsOfDefs_sublist {α : Type} (ds : List (Definition α)) :
    (liveIdentsOfDefs ds).Sublist (identsOfDefs ds) := by
  have hkept : keptIdents (sweptIdentsOfDefs false ds) = liveIdentsOfDefs ds :=
    keptIdents_sweptIdentsOfDefs false ds
  rw [← hkept, ← map_fst_sweptIdentsOfDefs false ds]
  exact List.filter_sublist.map _

namespace Resolution

/-- The identifiers that the sweep reports, each with whether it is inside of a discarded
definition. -/
def reported (r : Resolution) : List (Ident Scoped × Bool) :=
  (sweptIdentsOfDefs false r.program.defs).filter fun p => (r.tree.denotes p.1).isNone

/-- The sweep reports these identifiers and nothing else, in this order. -/
lemma unboundIdentifiers_eq (r : Resolution) : r.unboundIdentifiers
    = r.reported.map fun p => .unboundIdentifier p.1.name p.1.ann.span := by
  rw [unboundIdentifiers, reported, ← map_fst_sweptIdentsOfDefs false]
  induction sweptIdentsOfDefs false r.program.defs with
  | nil => rfl
  | cons p l ih =>
    rw [List.map_cons, List.filterMap_cons, List.filter_cons, ih]
    cases r.tree.denotes p.1 <;> rfl

/-- The live identifiers that denote nothing are those of the reports. -/
lemma mem_reported_iff {r : Resolution} {i : Ident Scoped} :
    (i, false) ∈ r.reported ↔ i ∈ liveIdentsOfDefs r.program.defs ∧ r.tree.denotes i = none := by
  have hkept : keptIdents (sweptIdentsOfDefs false r.program.defs)
      = liveIdentsOfDefs r.program.defs := keptIdents_sweptIdentsOfDefs false _
  rw [← hkept, keptIdents, reported]
  simp

end Resolution

/-- The sweep reports the identifiers of `Resolution.reported`, which says of each whether it is
inside of a discarded definition.  A program is refused for want of an entry point, else for a
reported identifier that is not inside of a discarded definition, and for nothing else. -/
theorem lower_error_iff {names : List String} {seed : DispatchId} {p : Program Span}
    {log log' : Array Event} {r : Resolution} (hresolve : resolve names seed p log = .ok r log')
    (entry : String) (log₁ : Array Event) :
    r.unboundIdentifiers
      = (r.reported.map fun q => .unboundIdentifier q.1.name q.1.ann.span) ∧
    (error? (r.lower r.classify entry log₁) = some (.missingMain entry p.ann) ↔
      ¬ ∃ d ∈ p.defs, d.name.name = entry ∧ d.isDiscard = false) ∧
    ((∃ d ∈ p.defs, d.name.name = entry ∧ d.isDiscard = false) →
      ((∃ name span, error? (r.lower r.classify entry log₁) = some (.unboundIdentifier name span)) ↔
        ∃ q ∈ r.reported, q.2 = false) ∧
      ((∃ t log₂, r.lower r.classify entry log₁ = .ok t log₂) ↔ ∀ q ∈ r.reported, q.2 = true)) ∧
    ∀ e, error? (r.lower r.classify entry log₁) = some e →
      e = .missingMain entry p.ann ∨
      ∃ q ∈ r.reported, q.2 = false ∧ e = .unboundIdentifier q.1.name q.1.ann.span := by
  obtain ⟨rfl, ids, hr⟩ := resolve_wellScoped hresolve
  rw [← mem_boundNames, Program.map, boundNames_map]
  refine ⟨r.unboundIdentifiers_eq, ?_⟩
  rcases lower_cases hr entry with ⟨hnone, hlower⟩ | ⟨hsome, hmeets⟩
  · have herror : error? (r.lower r.classify entry log₁)
        = some (.missingMain entry r.program.ann.span) := by
      rw [hlower]
      rfl
    refine ⟨iff_of_true herror hnone, fun h => absurd h hnone, fun e he => Or.inl ?_⟩
    exact Option.some.inj (he.symm.trans herror)
  · rcases hmeets log₁ with ⟨t, log₂, hok, hall⟩ | ⟨i, hi, hdenotes, log₂, herror⟩
    · have hinside : ∀ q ∈ r.reported, q.2 = true := by
        rintro ⟨i, inside⟩ hq
        cases inside with
        | true => rfl
        | false =>
          obtain ⟨hi, hdenotes⟩ := Resolution.mem_reported_iff.1 hq
          exact absurd hdenotes (hall i hi)
      have hnone : ¬ ∃ q ∈ r.reported, q.2 = false := by
        rintro ⟨q, hq, hlive⟩
        exact absurd ((hinside q hq).symm.trans hlive) (by simp)
      rw [hok]
      refine ⟨by simp [error?, hsome], fun _ => ⟨iff_of_false (by simp [error?]) hnone,
        iff_of_true ⟨_, _, rfl⟩ hinside⟩, by simp [error?]⟩
    · have hreported := Resolution.mem_reported_iff.2 ⟨hi, hdenotes⟩
      have hlive : ∃ q ∈ r.reported, q.2 = false := ⟨_, hreported, rfl⟩
      have hnot : ¬ ∀ q ∈ r.reported, q.2 = true := fun h => absurd (h _ hreported) (by simp)
      rw [herror]
      refine ⟨by simp [error?, hsome], fun _ => ⟨iff_of_true ⟨_, _, rfl⟩ hlive,
        iff_of_false (by simp) hnot⟩, fun e he => Or.inr ⟨_, hreported, rfl, ?_⟩⟩
      exact (Option.some.inj he).symm

/-- `f x = let _ = a; g = b in g`, `_ = c` and `main = f d`, where only `b` and `d` are met. -/
def strayNames : Program Span where
  defs :=
    [⟨⟨"f", .nowhere⟩, [⟨"x", .nowhere⟩],
      .letIn
        [⟨⟨"_", .nowhere⟩, [], .ident ⟨"a", .nowhere⟩, .nowhere⟩,
         ⟨⟨"g", .nowhere⟩, [], .ident ⟨"b", .nowhere⟩, .nowhere⟩]
        (.ident ⟨"g", .nowhere⟩) .nowhere, .nowhere⟩,
     ⟨⟨"_", .nowhere⟩, [], .ident ⟨"c", .nowhere⟩, .nowhere⟩,
     ⟨⟨"main", .nowhere⟩, [],
      .call (.ident ⟨"f", .nowhere⟩) (.ident ⟨"d", .nowhere⟩) .nowhere, .nowhere⟩]
  ann := .nowhere

theorem lower_error_iff_strayNames : ∃ r log, resolve [] 7 strayNames #[] = .ok r log ∧
    r.unboundIdentifiers = ["a", "b", "c", "d"].map (.unboundIdentifier · .nowhere) ∧
    r.reported.map (fun q => (q.1.name, q.2))
      = [("a", true), ("b", false), ("c", true), ("d", false)] ∧
    error? (r.lower r.classify "_" #[]) = some (.missingMain "_" .nowhere) ∧
    ∃ name span, error? (r.lower r.classify "main" #[]) = some (.unboundIdentifier name span) := by
  have hsweep : (value? (resolve [] 7 strayNames #[])).map
      (fun r => (r.unboundIdentifiers, r.reported.map fun q => (q.1.name, q.2)))
      = some (["a", "b", "c", "d"].map (.unboundIdentifier · .nowhere),
        [("a", true), ("b", false), ("c", true), ("d", false)]) := by
    decide +kernel
  obtain ⟨r, hr, hsweep⟩ := Option.map_eq_some_iff.1 hsweep
  obtain ⟨hall, hreported⟩ := Prod.mk.inj hsweep
  obtain ⟨log, hr⟩ := value?_eq_some.1 hr
  refine ⟨r, log, hr, hall, hreported, ?_, ?_⟩
  · exact (lower_error_iff hr "_" #[]).2.1.2 (by decide)
  · refine ((lower_error_iff hr "main" #[]).2.2.1 (by decide)).1.2 ?_
    have hmem : ("b", false) ∈ r.reported.map fun q => (q.1.name, q.2) := by
      rw [hreported]
      decide
    obtain ⟨q, hq, heq⟩ := List.mem_map.1 hmem
    exact ⟨q, hq, congrArg Prod.snd heq⟩

end Letrec
