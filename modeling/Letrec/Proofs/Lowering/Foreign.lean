import Mathlib
import Letrec.Proofs.Lowering.Failure

/-!
# Lowering with the classification of another program

Lowering reads three things of a classification: the components of the groupings that the program
has, whether a definition of the program is self-recursive, and which table it is in.  Where another
classification says the same about them, the program is lowered as with its own.  Where it names
in a component a number that the grouping does not have, lowering is refused (`Survives`).

Nothing else is noticed.  A definition that the other classification does not list is dropped, and
the program that comes out may have lost the definition that its entry point refers to
(`dropped_definition`).
-/

namespace Letrec

variable {α β : Type}

/-! ### Steps that may be refused -/

/-- The step is refused because the classification names an unknown definition. -/
def Refused (x : LowerM α) (log : Array Event) : Prop :=
  ∃ id span log', x log = .error (.unknownDefinition id span) log'

/-- The step ends with a result unless it is refused. -/
def Settles (x : LowerM α) : Prop := ∀ log, (∃ a log', x log = .ok a log') ∨ Refused x log

/-- The first step ends as the second one unless it is refused, for which there must be a reason. -/
def Survives (reason : Prop) (x x' : LowerM α) : Prop :=
  ∀ log, x log = x' log ∨ reason ∧ Refused x log

lemma Refused.bind {x : LowerM α} {log : Array Event} (h : Refused x log) (f : α → LowerM β) :
    Refused (x >>= f) log := by
  obtain ⟨id, span, log', hx⟩ := h
  exact ⟨id, span, log', bind_of_error hx⟩

lemma Refused.of_bind {x : LowerM α} {f : α → LowerM β} {a : α} {log log' : Array Event}
    (hx : x log = .ok a log') (h : Refused (f a) log') : Refused (x >>= f) log := by
  obtain ⟨id, span, log'', hf⟩ := h
  exact ⟨id, span, log'', (bind_of_ok hx).trans hf⟩

namespace Settles

variable {x : LowerM α} {f : α → LowerM β}

lemma pure (a : α) : Settles (pure a : LowerM α) := fun log => .inl ⟨a, log, rfl⟩

lemma report (e : Event) : Settles (Reporting.report e : LowerM Unit) :=
  fun log => .inl ⟨(), log.push e, rfl⟩

lemma refuse (id : DispatchId) (span : Span) :
    Settles (throw (.unknownDefinition id span) : LowerM α) := fun log => .inr ⟨id, span, log, rfl⟩

lemma bind (hx : Settles x) (hf : ∀ a, Lowers x a → Settles (f a)) : Settles (x >>= f) := by
  intro log
  rcases hx log with ⟨a, log₁, hok⟩ | hrefused
  · rcases hf a ⟨log, log₁, hok⟩ log₁ with ⟨b, log₂, hok'⟩ | hrefused
    · exact .inl ⟨b, log₂, (bind_of_ok hok).trans hok'⟩
    · exact .inr (.of_bind hok hrefused)
  · exact .inr (hrefused.bind f)

lemma map (hx : Settles x) (g : α → β) : Settles (x >>= fun a => Pure.pure (g a)) :=
  hx.bind fun a _ => .pure (g a)

/-- A step without a result is refused. -/
lemma refused (hx : Settles x) (hnot : ∀ a, ¬ Lowers x a) (log : Array Event) : Refused x log := by
  rcases hx log with ⟨a, log', hok⟩ | hrefused
  · exact absurd ⟨log, log', hok⟩ (hnot a)
  · exact hrefused

end Settles

namespace Survives

variable {reason : Prop} {x x' : LowerM α} {f f' : α → LowerM β}

lemma refl (x : LowerM α) : Survives reason x x := fun _ => .inl rfl

lemma bind (hx : Survives reason x x') (hf : ∀ a, Lowers x' a → Survives reason (f a) (f' a)) :
    Survives reason (x >>= f) (x' >>= f') := by
  intro log
  rcases hx log with heq | ⟨hreason, hrefused⟩
  · cases hx' : x' log with
    | ok a log₁ =>
      rw [hx'] at heq
      rw [bind_of_ok heq, bind_of_ok hx']
      rcases hf a ⟨log, log₁, hx'⟩ log₁ with heq' | ⟨hreason, hrefused⟩
      · exact .inl heq'
      · exact .inr ⟨hreason, .of_bind heq hrefused⟩
    | error e log₁ =>
      rw [hx'] at heq
      exact .inl ((bind_of_error heq).trans (bind_of_error hx').symm)
  · exact .inr ⟨hreason, hrefused.bind f⟩

lemma map (hx : Survives reason x x') (g : α → β) :
    Survives reason (x >>= fun a => Pure.pure (g a)) (x' >>= fun a => Pure.pure (g a)) :=
  hx.bind fun _ _ => .refl _

end Survives

/-! ### Any components -/

namespace LowerContext

variable {ctx : LowerContext} {ms : List Member}

lemma settles_codes (hms : ∀ m ∈ ms, Settles m.code) : Settles (codes ms) := by
  induction ms with
  | nil => exact .pure []
  | cons m ms ih =>
    obtain ⟨hm, hms⟩ := List.forall_mem_cons.1 hms
    exact hm.bind fun code _ => (ih hms).map _

lemma settles_single {m : Member} (hm : Settles m.code) : Settles (ctx.single m) := by
  refine hm.bind fun code _ => ?_
  split
  · exact (Settles.report _).bind fun _ _ => .pure _
  · exact .pure _

lemma insertMember_perm (m : Member) (ms : List Member) : (insertMember m ms).Perm (m :: ms) := by
  induction ms with
  | nil => exact .refl _
  | cons n ms ih =>
    rw [insertMember]
    split
    · exact .refl _
    · exact (ih.cons n).trans (.swap m n ms)

lemma foldr_insertMember_perm (ms : List Member) : (ms.foldr insertMember []).Perm ms := by
  induction ms with
  | nil => exact .refl _
  | cons m ms ih => exact (insertMember_perm m _).trans (ih.cons m)

/-- A group is refused if its first member is in no table. -/
lemma settles_group (hne : ms ≠ []) (hms : ∀ m ∈ ms, Settles m.code) : Settles (ctx.group ms) := by
  have hperm := foldr_insertMember_perm ms
  unfold group
  split
  · next hnil => exact absurd (hnil ▸ hperm).nil_eq.symm hne
  · next first rest hcons =>
    have hsorted : ∀ m ∈ first :: rest, Settles m.code :=
      fun m hm => hms m (hperm.mem_iff.1 (hcons ▸ hm))
    obtain ⟨hfirst, hrest⟩ := List.forall_mem_cons.1 hsorted
    split
    · exact .refuse _ _
    · exact (Settles.report _).bind fun _ _ =>
        hfirst.bind fun code _ => (settles_codes hrest).map _

lemma settles_component (hms : ∀ m ∈ ms, Settles m.code) : Settles (ctx.component ms) := by
  unfold component
  split
  · exact .pure none
  · next m =>
    have hm : Settles m.code := hms m List.mem_cons_self
    split_ifs
    · exact (settles_group (List.cons_ne_nil _ _) hms).map _
    · exact .pure none
    · exact (settles_single hm).map _
  · next hnil _ => exact (settles_group hnil hms).map _

lemma settles_membersOf (ms : List Member) (c : List DispatchId) : Settles (membersOf ms c) := by
  induction c with
  | nil => exact .pure []
  | cons id c ih =>
    rw [membersOf]
    split
    · exact .refuse _ _
    · exact ih.map _

/-- Whatever components a classification lists, binding them is settled. -/
lemma settles_bindings {l : List (DispatchId × Definition Scoped)}
    (hl : ∀ m ∈ l, Settles (ctx.member m).code) (cs : List (List DispatchId)) :
    Settles (ctx.bindings (l.map ctx.member) cs) := by
  induction cs with
  | nil => exact .pure []
  | cons c cs ih =>
    rw [bindings]
    refine (settles_membersOf _ c).bind fun ms hms => ?_
    obtain ⟨found, hfound, -, rfl⟩ := lowers_membersOf hms
    have hcodes : ∀ m ∈ found.map ctx.member, Settles m.code :=
      List.forall_mem_map.2 fun m hm => hl m (hfound m hm)
    exact (settles_component hcodes).bind fun b _ => ih.map _

/-- Components are bound only if the grouping has all the definitions that they name. -/
lemma mem_of_lowers_bindings {l : List (DispatchId × Definition Scoped)}
    {cs : List (List DispatchId)} {bs : List (String × Term)}
    (h : Lowers (ctx.bindings (l.map ctx.member) cs) bs) :
    ∀ id ∈ cs.flatten, id ∈ l.map Prod.fst := by
  induction cs generalizing bs with
  | nil => exact fun id hid => absurd hid List.not_mem_nil
  | cons c cs ih =>
    rw [bindings] at h
    obtain ⟨ms, hms, h⟩ := lowers_bind h
    obtain ⟨b, -, h⟩ := lowers_bind h
    obtain ⟨rest, hrest, -⟩ := lowers_bind h
    obtain ⟨found, hfound, rfl, -⟩ := lowers_membersOf hms
    rw [List.flatten_cons]
    exact List.forall_mem_append.2
      ⟨List.forall_mem_map.2 fun m hm => List.mem_map_of_mem (hfound m hm), ih hrest⟩

end LowerContext

/-! ### Classifications that cover a program -/

/-- The numbers of the definitions of a grouping. -/
def ScopeTree.numbers (t : ScopeTree) (ds : List (Definition Scoped)) : List DispatchId :=
  (t.numbered ds).map Prod.fst

/-- In a component of the grouping, the classification names a number that the grouping does not
have. -/
def Classification.NamesStranger (c : Classification) (t : ScopeTree) (g : ScopeId)
    (ds : List (Definition Scoped)) : Prop :=
  ∃ id ∈ (c.components g).flatten, id ∉ t.numbers ds

/-- The classification says of a grouping of the program what its own classification says. -/
structure Classification.Matches (c : Classification) (r : Resolution) (g : ScopeId)
    (ds : List (Definition Scoped)) : Prop where
  components : c.components g = r.classify.components g
  selfRecursive : ∀ id ∈ r.tree.numbers ds,
    (c.flags id).selfRecursive = (r.classify.flags id).selfRecursive
  tables : ∀ id ∈ r.tree.numbers ds, c.tables.lookup id = r.classify.tables.lookup id

/-- The classification matches every grouping of the program, except for groupings where it names a
stranger.  These are allowed if no identifier is unbound. -/
def Classification.Covers (c : Classification) (r : Resolution) : Prop :=
  ∀ g ds, (g, ds) ∈ r.program.groups →
    c.Matches r g ds ∨ c.NamesStranger r.tree g ds ∧ r.unboundIdentifiers = []

section Decidable

variable {c : Classification} {r : Resolution}

instance {t : ScopeTree} {g : ScopeId} {ds : List (Definition Scoped)} :
    Decidable (c.NamesStranger t g ds) := inferInstanceAs (Decidable (∃ id ∈ _, id ∉ _))

instance {g : ScopeId} {ds : List (Definition Scoped)} : Decidable (c.Matches r g ds) :=
  decidable_of_iff (c.components g = r.classify.components g ∧
      (∀ id ∈ r.tree.numbers ds,
        (c.flags id).selfRecursive = (r.classify.flags id).selfRecursive) ∧
      ∀ id ∈ r.tree.numbers ds, c.tables.lookup id = r.classify.tables.lookup id)
    ⟨fun ⟨hcomponents, hself, htables⟩ => ⟨hcomponents, hself, htables⟩,
      fun ⟨hcomponents, hself, htables⟩ => ⟨hcomponents, hself, htables⟩⟩

instance : Decidable (c.Covers r) :=
  decidable_of_iff (∀ q ∈ r.program.groups, c.Matches r q.1 q.2 ∨
      c.NamesStranger r.tree q.1 q.2 ∧ r.unboundIdentifiers = [])
    ⟨fun h g ds => h (g, ds), fun h q => h q.1 q.2⟩

end Decidable

/-- There is a grouping for which the classification names a stranger. -/
def Classification.NamesStrangers (c : Classification) (r : Resolution) : Prop :=
  ∃ g ds, (g, ds) ∈ r.program.groups ∧ c.NamesStranger r.tree g ds

/-! ### The same components -/

namespace LowerContext

/-- The definitions of a component, in order. -/
def pick (l : List (DispatchId × Definition Scoped)) :
    List DispatchId → LowerM (List (DispatchId × Definition Scoped))
  | [] => return []
  | id :: ids =>
    match l.find? (·.1 == id) with
    | none => throw (.unknownDefinition id .nowhere)
    | some m => do return m :: (← pick l ids)

lemma membersOf_map (ctx : LowerContext) (l : List (DispatchId × Definition Scoped))
    (c : List DispatchId) :
    membersOf (l.map ctx.member) c = do return (← pick l c).map ctx.member := by
  induction c with
  | nil => rfl
  | cons id c ih =>
    have hfind : (l.map ctx.member).find? (·.id == id) = (l.find? (·.1 == id)).map ctx.member :=
      List.find?_map ..
    rw [membersOf, hfind, pick, ih]
    cases l.find? (·.1 == id) with
    | none => rfl
    | some m => simp only [Option.map_some, bind_assoc, pure_bind, List.map_cons]

lemma lowers_pick {l found : List (DispatchId × Definition Scoped)} {c : List DispatchId}
    (h : Lowers (pick l c) found) : (∀ m ∈ found, m ∈ l) ∧ found.map Prod.fst = c := by
  induction c generalizing found with
  | nil =>
    obtain rfl := lowers_pure h
    exact ⟨fun m hm => absurd hm List.not_mem_nil, rfl⟩
  | cons id c ih =>
    rw [pick] at h
    cases hfind : l.find? (·.1 == id) with
    | none =>
      rw [hfind] at h
      exact absurd h not_lowers_throw
    | some m =>
      rw [hfind] at h
      obtain ⟨rest, hrest, h⟩ := lowers_bind h
      obtain rfl := lowers_pure h
      obtain ⟨hmem, rfl⟩ := ih hrest
      have hid : m.1 = id := by simpa using List.find?_some hfind
      refine ⟨List.forall_mem_cons.2 ⟨List.mem_of_find?_eq_some hfind, hmem⟩, ?_⟩
      rw [List.map_cons, hid]

/-! Two contexts that agree on the definitions at hand. -/

variable {ctx ctx' : LowerContext} {reason : Prop} {m : DispatchId × Definition Scoped}
  {l : List (DispatchId × Definition Scoped)}

lemma survives_code
    (h : Survives reason (ctx.expression m.2.body) (ctx'.expression m.2.body)) :
    Survives reason (ctx.member m).code (ctx'.member m).code := h.map _

lemma survives_codes
    (h : ∀ m ∈ l, Survives reason (ctx.member m).code (ctx'.member m).code) :
    Survives reason (codes (l.map ctx.member)) (codes (l.map ctx'.member)) := by
  induction l with
  | nil => exact .refl _
  | cons m l ih =>
    obtain ⟨hm, hl⟩ := List.forall_mem_cons.1 h
    exact hm.bind fun code _ => (ih hl).map _

lemma survives_single
    (hself : (ctx.classification.flags m.1).selfRecursive
      = (ctx'.classification.flags m.1).selfRecursive)
    (h : Survives reason (ctx.member m).code (ctx'.member m).code) :
    Survives reason (ctx.single (ctx.member m)) (ctx'.single (ctx'.member m)) := by
  refine h.bind fun code _ => ?_
  change Survives reason (if (ctx.classification.flags m.1).selfRecursive then _ else _) _
  rw [hself]
  exact .refl _

lemma survives_group (htable : ∀ m ∈ l, ctx.table? m.1 = ctx'.table? m.1)
    (hsorted : (l.map Prod.fst).Pairwise (· < ·))
    (h : ∀ m ∈ l, Survives reason (ctx.member m).code (ctx'.member m).code) :
    Survives reason (ctx.group (l.map ctx.member)) (ctx'.group (l.map ctx'.member)) := by
  unfold group
  rw [foldr_insertMember hsorted, foldr_insertMember hsorted]
  cases l with
  | nil => exact .refl _
  | cons m l =>
    have hm : ctx.table? (ctx.member m).id = ctx'.table? (ctx'.member m).id :=
      htable m List.mem_cons_self
    have hheads : (l.map ctx.member).map (fun m => (m.name, m.id))
        = (l.map ctx'.member).map fun m => (m.name, m.id) := by
      rw [List.map_map, List.map_map]
      rfl
    obtain ⟨hfirst, hrest⟩ := List.forall_mem_cons.1 h
    simp only [List.map_cons, hm, hheads]
    cases ctx'.table? (ctx'.member m).id with
    | none => exact .refl _
    | some table =>
      exact (Survives.refl _).bind fun _ _ =>
        hfirst.bind fun code _ => (survives_codes hrest).map _

lemma survives_component (htable : ∀ m ∈ l, ctx.table? m.1 = ctx'.table? m.1)
    (hself : ∀ m ∈ l, (ctx.classification.flags m.1).selfRecursive
      = (ctx'.classification.flags m.1).selfRecursive)
    (hsorted : (l.map Prod.fst).Pairwise (· < ·))
    (h : ∀ m ∈ l, Survives reason (ctx.member m).code (ctx'.member m).code) :
    Survives reason (ctx.component (l.map ctx.member)) (ctx'.component (l.map ctx'.member)) := by
  match l with
  | [] => exact .refl _
  | [m] =>
    have hm : ctx.table? (ctx.member m).id = ctx'.table? (ctx'.member m).id :=
      htable m List.mem_cons_self
    have hname : (ctx.member m).name = (ctx'.member m).name := rfl
    have hgroup := survives_group htable hsorted h
    have hsingle := survives_single (hself m List.mem_cons_self) (h m List.mem_cons_self)
    simp only [List.map_cons, List.map_nil, component, hm, hname] at hgroup ⊢
    split_ifs
    · exact hgroup.map _
    · exact .refl _
    · exact hsingle.map _
  | m :: n :: l => exact (survives_group htable hsorted h).map _

end LowerContext

/-! ### Groupings -/

/-- The numbers of a grouping that fits the tree. -/
lemma Group.numbers_eq {t : ScopeTree} {g : ScopeId} {ids : List DispatchId}
    {ds : List (Definition Scoped)} (hg : Group t g ids ds) : t.numbers ds = ids := by
  rw [ScopeTree.numbers, Group.numbered_eq hg.defs, List.map_fst_zip hg.length.le]

section Program

variable {names : List String} {r : Resolution} {ids₀ ids : List DispatchId} {c : Classification}
  {g : ScopeId} {ds : List (Definition Scoped)}

lemma settles_grouping (hg : Group r.tree g ids ds)
    (hbodies : ∀ d ∈ ds, Settles ((LowerContext.of r.tree c).expression d.body)) (body : Term) :
    Settles ((LowerContext.of r.tree c).grouping g ((LowerContext.of r.tree c).members ds)
      body) := by
  have hdefs : DefsWellScoped (LowerContext.of r.tree c).tree g ids ds := hg.defs
  rw [LowerContext.members_eq hdefs]
  refine (LowerContext.settles_bindings (fun m hm => ?_) _).map _
  exact (hbodies m.2 (List.of_mem_zip hm).2).map _

/-- A grouping for which a stranger is named is not lowered. -/
lemma not_lowers_grouping (hg : Group r.tree g ids ds) (hstranger : c.NamesStranger r.tree g ds)
    (body t : Term) :
    ¬ Lowers ((LowerContext.of r.tree c).grouping g ((LowerContext.of r.tree c).members ds) body)
      t := by
  intro h
  have hdefs : DefsWellScoped (LowerContext.of r.tree c).tree g ids ds := hg.defs
  rw [LowerContext.members_eq hdefs] at h
  obtain ⟨bs, hbs, -⟩ := lowers_bind h
  obtain ⟨id, hid, hnot⟩ := hstranger
  have hfound := LowerContext.mem_of_lowers_bindings hbs id hid
  rw [List.map_fst_zip hg.length.le] at hfound
  exact hnot (hg.numbers_eq ▸ hfound)

/-- Where no identifier is unbound, lowering with any classification is settled. -/
lemma settles_expression (e : Expr Scoped) : ∀ {s : ScopeId}, r.HasPart s e →
    (∀ i ∈ e.idents, r.tree.denotes i ≠ none) →
    Settles ((LowerContext.of r.tree c).expression e) := by
  induction e using Expr.induction with
  | ident i =>
    intro s _ hok
    obtain ⟨e, he⟩ := Option.ne_none_iff_exists'.1 (hok i List.mem_cons_self)
    have hdenotes : (LowerContext.of r.tree c).tree.denotes i = some e := he
    rw [LowerContext.expression, LowerContext.identifier, hdenotes]
    cases e <;> exact .pure _
  | int v a =>
    intro s _ _
    rw [LowerContext.expression]
    exact .pure _
  | lam ps b a ih =>
    intro s hpart hok
    rw [LowerContext.expression]
    exact (ih hpart.lam.2 hok).map _
  | call f x a ihf ihx =>
    intro s hpart hok
    obtain ⟨hf, hx⟩ := List.forall_mem_append.1 hok
    rw [LowerContext.expression]
    exact (ihf hpart.call.1 hf).bind fun f' _ => (ihx hpart.call.2 hx).map _
  | ite b p n a ihb ihp ihn =>
    intro s hpart hok
    obtain ⟨hbp, hn⟩ := List.forall_mem_append.1 hok
    obtain ⟨hb, hp⟩ := List.forall_mem_append.1 hbp
    rw [LowerContext.expression]
    exact (ihb hpart.ite.1 hb).bind fun b' _ =>
      (ihp hpart.ite.2.1 hp).bind fun p' _ => (ihn hpart.ite.2.2 hn).map _
  | letIn ds b a ihds ihb =>
    intro s hpart hok
    obtain ⟨hdefs, hb⟩ := List.forall_mem_append.1 hok
    obtain ⟨hmem, hpartb, ids, -, hg⟩ := hpart.letIn
    rw [LowerContext.expression]
    refine (ihb hpartb hb).bind fun body _ => settles_grouping hg (fun d hd => ?_) body
    obtain ⟨id, hid⟩ := exists_mem_zip_of_mem_right hg.length hd
    exact ihds d hd (hg.hasPart hmem hid) fun i hi => hdefs i (mem_identsOfDefs.2 ⟨d, hd, hi⟩)

/-! ### Groupings that the classification matches -/

variable (hr : r.WellScoped names ids₀)

include hr

lemma survives_bindings (hg : Group r.tree g ids ds) (hmem : (g, ds) ∈ r.program.groups)
    (hmatch : c.Matches r g ds) {reason : Prop}
    (hbodies : ∀ d ∈ ds, Survives reason ((LowerContext.of r.tree c).expression d.body)
      (r.context.expression d.body))
    {cs : List (List DispatchId)}
    (hcs : ∀ component ∈ cs, component ∈ r.classify.components g) :
    Survives reason
      ((LowerContext.of r.tree c).bindings
        ((ids.zip ds).map (LowerContext.of r.tree c).member) cs)
      (r.context.bindings ((ids.zip ds).map r.context.member) cs) := by
  induction cs with
  | nil => exact .refl _
  | cons component cs ih =>
    obtain ⟨hcomponent, hrest⟩ := List.forall_mem_cons.1 hcs
    simp only [LowerContext.bindings, LowerContext.membersOf_map, bind_assoc, pure_bind]
    refine (Survives.refl _).bind fun found hfound => ?_
    obtain ⟨hin, rfl⟩ := LowerContext.lowers_pick hfound
    have hnumber : ∀ m ∈ found, m.1 ∈ r.tree.numbers ds := fun m hm =>
      hg.numbers_eq ▸ (List.of_mem_zip (hin m hm)).1
    have hsorted := hr.sorted_of_mem (hr.mem_components hmem hg hcomponent).1
    have htable : ∀ m ∈ found,
        (LowerContext.of r.tree c).table? m.1 = r.context.table? m.1 :=
      fun m hm => hmatch.tables _ (hnumber m hm)
    refine (LowerContext.survives_component htable
      (fun m hm => hmatch.selfRecursive _ (hnumber m hm)) hsorted fun m hm => ?_).bind
      fun b _ => (ih hrest).map _
    exact LowerContext.survives_code (hbodies _ (List.of_mem_zip (hin m hm)).2)

/-- A grouping that the classification matches is lowered as it should be. -/
lemma survives_grouping (hg : Group r.tree g ids ds) (hmem : (g, ds) ∈ r.program.groups)
    (hmatch : c.Matches r g ds) {reason : Prop}
    (hbodies : ∀ d ∈ ds, Survives reason ((LowerContext.of r.tree c).expression d.body)
      (r.context.expression d.body)) (body : Term) :
    Survives reason
      ((LowerContext.of r.tree c).grouping g ((LowerContext.of r.tree c).members ds) body)
      (r.context.grouping g (r.context.members ds) body) := by
  have hdefs : DefsWellScoped (LowerContext.of r.tree c).tree g ids ds := hg.defs
  have hdefs' : DefsWellScoped r.context.tree g ids ds := hg.defs
  rw [LowerContext.members_eq hdefs, LowerContext.members_eq hdefs']
  refine Survives.map ?_ fun bs => LowerContext.chain bs body
  change Survives _ (LowerContext.bindings _ _ (c.components g)) _
  rw [hmatch.components]
  exact survives_bindings hr hg hmem hmatch hbodies fun _ h => h

/-! ### Expressions -/

/-- What a name denotes in the scope is referred to through the same table. -/
def SameTables (r : Resolution) (c : Classification) (s : ScopeId) : Prop :=
  ∀ x id, r.tree.lookup s x = some (.binding id) → c.tables.lookup id = r.classify.tables.lookup id

omit hr in
lemma SameTables.function {s a : ScopeId} (hs : SameTables r c s) {ps : List (Ident Scoped)}
    (hlookup : ∀ x, r.tree.lookup a x
      = if x ∈ boundParams ps then some .parameter else r.tree.lookup s x) :
    SameTables r c a := by
  intro x id hx
  rw [hlookup] at hx
  split_ifs at hx
  · cases hx
  · exact hs x id hx

/-- The definitions of a grouping that the classification matches come to those around. -/
lemma SameTables.group {kind : ScopeKind} {s : ScopeId} (hs : SameTables r c s)
    (hdecl : DeclaredIn r.tree kind s g ids ds) (hg : Group r.tree g ids ds)
    (hmatch : c.Matches r g ds) : SameTables r c g := by
  intro x id hx
  rcases lookup_group_cases hr.parents hdecl hg.length x with
    ⟨-, heq⟩ | ⟨id', d, hd, -, -, heq⟩
  · exact hs x id (heq ▸ hx)
  · obtain rfl := Entry.binding.inj (Option.some.inj (hx.symm.trans heq))
    exact hmatch.tables id (hg.numbers_eq ▸ (List.of_mem_zip hd).1)

omit hr in
lemma identifier_eq {i : Ident Scoped} (hs : SameTables r c i.ann.scope) :
    (LowerContext.of r.tree c).identifier i = r.context.identifier i := by
  have htree : (LowerContext.of r.tree c).tree.denotes i = r.context.tree.denotes i := rfl
  rw [LowerContext.identifier, LowerContext.identifier, htree]
  cases hdenotes : r.context.tree.denotes i with
  | none => rfl
  | some e =>
    cases e with
    | binding id =>
      have htable : (LowerContext.of r.tree c).table? id = r.context.table? id :=
        hs i.name id hdenotes
      simp only [LowerContext.reference, htable]
    | parameter => rfl
    | builtin => rfl

/-- With a classification that covers the program, lowering an expression is refused or does as it
should. -/
lemma survives_expression (hc : c.Covers r) (e : Expr Scoped) : ∀ {s : ScopeId}, r.HasPart s e →
    SameTables r c s → (r.unboundIdentifiers = [] → ∀ i ∈ e.idents, r.tree.denotes i ≠ none) →
    Survives (c.NamesStrangers r) ((LowerContext.of r.tree c).expression e)
      (r.context.expression e) := by
  induction e using Expr.induction with
  | ident i =>
    intro s hpart hs _
    have hscope : i.ann.scope = s := by simpa [Expr.WellScoped] using hpart.wellScoped
    rw [LowerContext.expression, LowerContext.expression, identifier_eq (hscope ▸ hs)]
    exact .refl _
  | int v a =>
    intro s _ _ _
    rw [LowerContext.expression, LowerContext.expression]
    exact .refl _
  | lam ps b a ih =>
    intro s hpart hs hok
    have hlambda := hs.function fun x => lookup_lambda hr.parents hpart.lam.1
    rw [LowerContext.expression, LowerContext.expression]
    exact (ih hpart.lam.2 hlambda hok).map _
  | call f x a ihf ihx =>
    intro s hpart hs hok
    simp only [Expr.idents, List.forall_mem_append] at hok
    rw [LowerContext.expression, LowerContext.expression]
    exact (ihf hpart.call.1 hs fun h => (hok h).1).bind fun f' _ =>
      (ihx hpart.call.2 hs fun h => (hok h).2).map _
  | ite b p n a ihb ihp ihn =>
    intro s hpart hs hok
    simp only [Expr.idents, List.forall_mem_append] at hok
    rw [LowerContext.expression, LowerContext.expression]
    exact (ihb hpart.ite.1 hs fun h => (hok h).1.1).bind fun b' _ =>
      (ihp hpart.ite.2.1 hs fun h => (hok h).1.2).bind fun p' _ =>
        (ihn hpart.ite.2.2 hs fun h => (hok h).2).map _
  | letIn ds b a ihds ihb =>
    intro s hpart hs hok
    obtain ⟨hmem, hpartb, ids, hdecl, hg⟩ := hpart.letIn
    rcases hc _ _ hmem with hmatch | ⟨hstranger, hbound⟩
    · have hgroup := hs.group hr hdecl hg hmatch
      simp only [Expr.idents, List.forall_mem_append] at hok
      rw [LowerContext.expression, LowerContext.expression]
      refine (ihb hpartb hgroup fun h => (hok h).2).bind fun body _ =>
        survives_grouping hr hg hmem hmatch (fun d hd => ?_) body
      obtain ⟨id, hid⟩ := exists_mem_zip_of_mem_right hg.length hd
      have hfunction := hgroup.function fun x =>
        lookup_function hr.parents (hg.defs.of_mem_zip hid).scope
      exact ihds d hd (hg.hasPart hmem hid) hfunction fun h i hi =>
        (hok h).1 i (mem_identsOfDefs.2 ⟨d, hd, hi⟩)
    · -- the block is not lowered, and it cannot fail for another reason
      refine fun log => .inr ⟨⟨_, _, hmem, hstranger⟩,
        (settles_expression _ hpart (hok hbound)).refused (fun t ht => ?_) log⟩
      obtain ⟨body, -, hgrouping⟩ := LowerContext.lowers_letIn ht
      exact not_lowers_grouping hg hstranger body t hgrouping

/-! ### Programs -/

lemma survives_program (hc : c.Covers r) (entry : String) :
    Survives (c.NamesStrangers r) (r.lower c entry) (r.lower r.classify entry) := by
  have hg := hr.program_group
  have hmem : (r.program.ann.scope, r.program.defs) ∈ r.program.groups := List.mem_cons_self
  have hok : r.unboundIdentifiers = [] →
      ∀ d ∈ r.program.defs, ∀ i ∈ d.body.idents, r.tree.denotes i ≠ none := by
    intro h d hd i hi hnone
    have hunbound := List.filterMap_eq_nil_iff.1 h i (mem_identsOfDefs.2 ⟨d, hd, hi⟩)
    simp [hnone] at hunbound
  have hroot : SameTables r c ScopeTree.root := by
    intro x id hx
    cases (hr.lookup_root hx).1
  have hentry : (LowerContext.of r.tree c).tree.entry? r.program.ann.scope entry
      = r.context.tree.entry? r.program.ann.scope entry := rfl
  change Survives _ ((LowerContext.of r.tree c).program r.program entry)
    (r.context.program r.program entry)
  rw [LowerContext.program, LowerContext.program, hentry]
  split
  · next id hid =>
    refine (Survives.refl _).bind fun _ _ => Survives.map ?_ _
    rcases hc _ _ hmem with hmatch | ⟨hstranger, hbound⟩
    · have hgroup := hroot.group hr hr.declared hg hmatch
      have hlookup : r.tree.lookup r.program.ann.scope entry = some (.binding id) := by
        have hgroup := (ScopeTree.entry_of_scope hr.declared.scope entry).symm.trans hid
        rw [r.tree.lookup_eq hr.parents hr.declared.scope, hgroup, Option.some_or]
      have htable : (LowerContext.of r.tree c).table? id = r.context.table? id :=
        hgroup entry id hlookup
      simp only [LowerContext.reference, htable]
      refine survives_grouping hr hg hmem hmatch (fun d hd => ?_) _
      obtain ⟨id, hid⟩ := exists_mem_zip_of_mem_right hg.length hd
      have hfunction := hgroup.function fun x =>
        lookup_function hr.parents (hg.defs.of_mem_zip hid).scope
      exact survives_expression hr hc d.body (hg.hasPart hmem hid) hfunction fun h => hok h d hd
    · refine fun log => .inr ⟨⟨_, _, hmem, hstranger⟩,
        (settles_grouping hg (fun d hd => ?_) _).refused
          (not_lowers_grouping hg hstranger _) log⟩
      obtain ⟨id, hid⟩ := exists_mem_zip_of_mem_right hg.length hd
      exact settles_expression d.body (hg.hasPart hmem hid) (hok hbound d hd)
  · exact .refl _

end Program

/-- A program is lowered with a classification that covers it as with its own, unless the
classification names a stranger and the program is refused for an unknown definition. -/
theorem lower_foreign {names : List String} {seed : DispatchId} {p : Program Span}
    {log log' : Array Event} {r : Resolution} (hresolve : resolve names seed p log = .ok r log')
    {c : Classification} (hc : c.Covers r) (entry : String) (log₁ : Array Event) :
    r.lower c entry log₁ = r.lower r.classify entry log₁ ∨
      c.NamesStrangers r ∧
        ∃ id span log₂, r.lower c entry log₁ = .error (.unknownDefinition id span) log₂ := by
  obtain ⟨-, ids, hr⟩ := resolve_wellScoped hresolve
  exact survives_program hr hc entry log₁

/-- `main = let a = 1 in a`. -/
def localOne : Program Span where
  defs :=
    [⟨⟨"main", .nowhere⟩, [],
      .letIn [⟨⟨"a", .nowhere⟩, [], .int 1 .nowhere, .nowhere⟩] (.ident ⟨"a", .nowhere⟩) .nowhere,
      .nowhere⟩]
  ann := .nowhere

/-- `main = let a = b; b = 2 in a`. -/
def localTwo : Program Span where
  defs :=
    [⟨⟨"main", .nowhere⟩, [],
      .letIn
        [⟨⟨"a", .nowhere⟩, [], .ident ⟨"b", .nowhere⟩, .nowhere⟩,
         ⟨⟨"b", .nowhere⟩, [], .int 2 .nowhere, .nowhere⟩]
        (.ident ⟨"a", .nowhere⟩) .nowhere,
      .nowhere⟩]
  ann := .nowhere

theorem lower_foreign_localTwo : ∃ r q log log', resolve [] 1 localOne #[] = .ok r log ∧
    resolve [] 0 localTwo #[] = .ok q log' ∧ q.classify.Covers r ∧
    (r.lower q.classify "main" #[] = r.lower r.classify "main" #[] ∨
      q.classify.NamesStrangers r ∧
        ∃ id span log₂,
          r.lower q.classify "main" #[] = .error (.unknownDefinition id span) log₂) := by
  have hcovers : ((value? (resolve [] 1 localOne #[])).bind fun r =>
      (value? (resolve [] 0 localTwo #[])).map fun q => decide (q.classify.Covers r))
      = some true := by
    decide +kernel
  obtain ⟨r, hr, hcovers⟩ := Option.bind_eq_some_iff.1 hcovers
  obtain ⟨q, hq, hcovers⟩ := Option.map_eq_some_iff.1 hcovers
  obtain ⟨log, hr⟩ := value?_eq_some.1 hr
  obtain ⟨log', hq⟩ := value?_eq_some.1 hq
  have hc := of_decide_eq_true hcovers
  exact ⟨r, q, log, log', hr, hq, hc, lower_foreign hr hc "main" #[]⟩

/-- `main = f` and `f = 1`. -/
def constantCallee : Program Span where
  defs :=
    [⟨⟨"main", .nowhere⟩, [], .ident ⟨"f", .nowhere⟩, .nowhere⟩,
     ⟨⟨"f", .nowhere⟩, [], .int 1 .nowhere, .nowhere⟩]
  ann := .nowhere

/-- `main = 1`. -/
def constantMain : Program Span where
  defs := [⟨⟨"main", .nowhere⟩, [], .int 1 .nowhere, .nowhere⟩]
  ann := .nowhere

/-- The classification of a program with fewer definitions makes lowering drop a definition and
leave its name free. -/
theorem dropped_definition : ∃ r q log log' log₁ log₂ t t',
    resolve Builtins.standard.names 0 constantCallee #[] = .ok r log ∧
    resolve Builtins.standard.names 0 constantMain #[] = .ok q log' ∧
    r.lower q.classify "main" #[] = .ok t log₁ ∧ r.lower r.classify "main" #[] = .ok t' log₂ ∧
    t.freeVars = ["f", "==", "if"] ∧ t'.freeVars = ["==", "if"] := by
  have hfree : ((value? (resolve Builtins.standard.names 0 constantCallee #[])).bind fun r =>
      (value? (resolve Builtins.standard.names 0 constantMain #[])).bind fun q =>
      (value? (r.lower q.classify "main" #[])).bind fun t =>
      (value? (r.lower r.classify "main" #[])).map fun t' => (t.freeVars, t'.freeVars))
      = some (["f", "==", "if"], ["==", "if"]) := by
    decide +kernel
  obtain ⟨r, hr, hfree⟩ := Option.bind_eq_some_iff.1 hfree
  obtain ⟨q, hq, hfree⟩ := Option.bind_eq_some_iff.1 hfree
  obtain ⟨t, ht, hfree⟩ := Option.bind_eq_some_iff.1 hfree
  obtain ⟨t', ht', hfree⟩ := Option.map_eq_some_iff.1 hfree
  obtain ⟨log, hr⟩ := value?_eq_some.1 hr
  obtain ⟨log', hq⟩ := value?_eq_some.1 hq
  obtain ⟨log₁, ht⟩ := value?_eq_some.1 ht
  obtain ⟨log₂, ht'⟩ := value?_eq_some.1 ht'
  obtain ⟨hfree, hfree'⟩ := Prod.mk.inj hfree
  exact ⟨r, q, log, log', log₁, log₂, t, t', hr, hq, ht, ht', hfree, hfree'⟩

end Letrec
