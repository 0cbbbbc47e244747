import Mathlib
import Letrec.Compilation
import Letrec.Proofs.Success
import Letrec.Proofs.Recursion
import Letrec.Proofs.Scope.Free

/-!
# The shape of lowered programs

Lowering reports events, may fail, and finds the definitions of a component by their numbers.  Here
its results are described without all that.  `Lowers x t` says that a lowering step succeeds with
`t`; `ComponentLowers` says what a component becomes: nothing, a definition, a fixed point or a
table.  A member of a table is referred to through the table, every other definition by its name
(`table?_eq`).
-/

namespace Letrec

variable {α β : Type}

/-- A step of lowering may end with this result. -/
def Lowers (x : LowerM α) (a : α) : Prop := ∃ log log', x log = .ok a log'

lemma lowers_bind {x : LowerM α} {f : α → LowerM β} {b : β} (h : Lowers (x >>= f) b) :
    ∃ a, Lowers x a ∧ Lowers (f a) b := by
  obtain ⟨log, log', h⟩ := h
  obtain ⟨a, log₁, hx, hf⟩ := bind_eq_ok.1 h
  exact ⟨a, ⟨log, log₁, hx⟩, log₁, log', hf⟩

lemma lowers_pure {a b : α} (h : Lowers (pure a) b) : a = b := by
  obtain ⟨log, log', h⟩ := h
  exact (pure_eq_ok.1 h).1

lemma not_lowers_throw {e : LowerError} {a : α} : ¬ Lowers (throw e) a := by
  rintro ⟨log, log', h⟩
  exact throw_ne_ok h

namespace LowerContext

variable {ctx : LowerContext}

/-! ### Expressions -/

/-- The term that refers to what a name denotes. -/
def refer (ctx : LowerContext) (x : String) : Entry → Term
  | .binding id => ctx.reference id x
  | .parameter | .builtin => .var x

lemma lowers_ident {i : Ident Scoped} {t : Term} (h : Lowers (ctx.expression (.ident i)) t) :
    ∃ e, ctx.tree.lookup i.ann.scope i.name = some e ∧ t = ctx.refer i.name e := by
  rw [expression] at h
  unfold identifier at h
  show ∃ e, ctx.tree.denotes i = some e ∧ _
  split at h
  · rename_i id hid
    exact ⟨.binding id, hid, (lowers_pure h).symm⟩
  · rename_i hp
    exact ⟨.parameter, hp, (lowers_pure h).symm⟩
  · rename_i hb
    exact ⟨.builtin, hb, (lowers_pure h).symm⟩
  · exact absurd h not_lowers_throw

lemma lowers_int {v : Int64} {a : Scoped} {t : Term} (h : Lowers (ctx.expression (.int v a)) t) :
    t = .int v := by
  rw [expression] at h
  exact (lowers_pure h).symm

lemma lowers_lam {ps : List (Ident Scoped)} {b : Expr Scoped} {a : Scoped} {t : Term}
    (h : Lowers (ctx.expression (.lam ps b a)) t) :
    ∃ b', Lowers (ctx.expression b) b' ∧ t = .lams (ps.map Ident.name) b' := by
  rw [expression] at h
  obtain ⟨b', hb, h⟩ := lowers_bind h
  exact ⟨b', hb, (lowers_pure h).symm⟩

lemma lowers_call {f x : Expr Scoped} {a : Scoped} {t : Term}
    (h : Lowers (ctx.expression (.call f x a)) t) :
    ∃ f' x', Lowers (ctx.expression f) f' ∧ Lowers (ctx.expression x) x' ∧ t = .app f' x' := by
  rw [expression] at h
  obtain ⟨f', hf, h⟩ := lowers_bind h
  obtain ⟨x', hx, h⟩ := lowers_bind h
  exact ⟨f', x', hf, hx, (lowers_pure h).symm⟩

lemma lowers_ite {c p n : Expr Scoped} {a : Scoped} {t : Term}
    (h : Lowers (ctx.expression (.ite c p n a)) t) :
    ∃ c' p' n', Lowers (ctx.expression c) c' ∧ Lowers (ctx.expression p) p' ∧
      Lowers (ctx.expression n) n' ∧ t = .cond c' p' n' := by
  rw [expression] at h
  obtain ⟨c', hc, h⟩ := lowers_bind h
  obtain ⟨p', hp, h⟩ := lowers_bind h
  obtain ⟨n', hn, h⟩ := lowers_bind h
  exact ⟨c', p', n', hc, hp, hn, (lowers_pure h).symm⟩

lemma lowers_letIn {ds : List (Definition Scoped)} {b : Expr Scoped} {a : Scoped} {t : Term}
    (h : Lowers (ctx.expression (.letIn ds b a)) t) :
    ∃ b', Lowers (ctx.expression b) b' ∧ Lowers (ctx.grouping a.scope (ctx.members ds) b') t := by
  rw [expression] at h
  exact lowers_bind h

/-! ### Definitions -/

/-- The function of a definition. -/
def DefLowers (ctx : LowerContext) (d : Definition Scoped) (code : Term) : Prop :=
  ∃ b, Lowers (ctx.expression d.body) b ∧ code = .lams (d.params.map Ident.name) b

/-- A definition with its number, ready to be lowered. -/
def member (ctx : LowerContext) (m : DispatchId × Definition Scoped) : Member where
  id := m.1
  name := m.2.name.name
  span := m.2.ann.span
  code := do
    let b ← ctx.expression m.2.body
    return .lams (m.2.params.map Ident.name) b

lemma lowers_code {m : DispatchId × Definition Scoped} {code : Term}
    (h : Lowers (ctx.member m).code code) : ctx.DefLowers m.2 code := by
  obtain ⟨b, hb, h⟩ := lowers_bind h
  exact ⟨b, hb, (lowers_pure h).symm⟩

lemma members_eq {g : ScopeId} {ids : List DispatchId} {ds : List (Definition Scoped)}
    (h : DefsWellScoped ctx.tree g ids ds) : ctx.members ds = (ids.zip ds).map ctx.member := by
  induction h using DefsWellScoped.induction with
  | nil => simp [members]
  | cons id d ids ds hd hds ih =>
    have howner := hd.ownerOf?
    obtain ⟨n, ps, b, a⟩ := d
    rw [members, howner, ih, List.zip_cons_cons, List.map_cons]
    rfl

/-- The members of a component that are found are its definitions, in order. -/
lemma lowers_membersOf {l : List (DispatchId × Definition Scoped)} {c : List DispatchId}
    {ms : List Member} (h : Lowers (membersOf (l.map ctx.member) c) ms) :
    ∃ l' : List (DispatchId × Definition Scoped), (∀ m ∈ l', m ∈ l) ∧ l'.map Prod.fst = c ∧
      ms = l'.map ctx.member := by
  induction c generalizing ms with
  | nil =>
    rw [membersOf] at h
    exact ⟨[], by simp, rfl, (lowers_pure h).symm⟩
  | cons id c ih =>
    rw [membersOf] at h
    cases hfind : (l.map ctx.member).find? (·.id == id) with
    | none =>
      rw [hfind] at h
      exact absurd h not_lowers_throw
    | some m =>
      rw [hfind] at h
      obtain ⟨ms', hms', h⟩ := lowers_bind h
      obtain ⟨l', hl', hids, rfl⟩ := ih hms'
      obtain ⟨p, hp, rfl⟩ := List.mem_map.1 (List.mem_of_find?_eq_some hfind)
      have hid : (ctx.member p).id = id := by simpa using List.find?_some hfind
      refine ⟨p :: l', ?_, ?_, (lowers_pure h).symm⟩
      · exact List.forall_mem_cons.2 ⟨hp, hl'⟩
      · rw [List.map_cons, hids, ← hid]
        rfl

lemma lowers_codes {l : List (DispatchId × Definition Scoped)} {cs : List (DispatchId × Term)}
    (h : Lowers (codes (l.map ctx.member)) cs) :
    List.Forall₂ (fun m c => m.1 = c.1 ∧ ctx.DefLowers m.2 c.2) l cs := by
  induction l generalizing cs with
  | nil =>
    obtain rfl := lowers_pure h
    exact .nil
  | cons m l ih =>
    rw [List.map_cons, codes] at h
    obtain ⟨code, hcode, h⟩ := lowers_bind h
    obtain ⟨rest, hrest, h⟩ := lowers_bind h
    obtain rfl := lowers_pure h
    exact .cons ⟨rfl, lowers_code hcode⟩ (ih hrest)

/-- A group that ascends by number is taken as it is. -/
lemma foldr_insertMember {l : List (DispatchId × Definition Scoped)}
    (h : (l.map Prod.fst).Pairwise (· < ·)) :
    (l.map ctx.member).foldr insertMember [] = l.map ctx.member := by
  induction l with
  | nil => rfl
  | cons m l ih =>
    rw [List.map_cons, List.pairwise_cons] at h
    rw [List.map_cons, List.foldr_cons, ih h.2]
    cases l with
    | nil => rfl
    | cons n l =>
      have hle : (ctx.member m).id ≤ (ctx.member n).id := (h.1 n.1 (by simp)).le
      rw [List.map_cons, insertMember, if_pos hle]

end LowerContext

/-- What lowering knows of a program with its own classification. -/
def Resolution.context (r : Resolution) : LowerContext := .of r.tree r.classify

/-! ### Tables -/

lemma min?_eq_head {id : ℕ} {c : List ℕ} (h : (id :: c).Pairwise (· < ·)) :
    (id :: c).min? = some id := by
  rw [List.min?_eq_some_iff]
  refine ⟨List.mem_cons_self, fun b hb => ?_⟩
  rcases List.mem_cons.1 hb with rfl | hb
  · exact le_rfl
  · exact ((List.pairwise_cons.1 h).1 b hb).le

lemma eq_of_mem_of_nodup_flatten {cs : List (List ℕ)} (h : cs.flatten.Nodup) {c c' : List ℕ}
    (hc : c ∈ cs) (hc' : c' ∈ cs) {a : ℕ} (ha : a ∈ c) (ha' : a ∈ c') : c = c' := by
  by_contra hne
  have hsymm : Std.Symm (List.Disjoint : List ℕ → List ℕ → Prop) := ⟨fun _ _ h => h.symm⟩
  have hdisjoint := (List.nodup_flatten.1 h).2.forall hc hc' hne
  exact hdisjoint ha ha'

namespace Resolution.WellScoped

variable {names : List String} {r : Resolution} {ids₀ ids : List DispatchId} {g : ScopeId}
  {ds : List (Definition Scoped)} (hr : r.WellScoped names ids₀)

include hr

lemma sorted_of_mem {c : List DispatchId}
    (hc : c ∈ r.classify.groupings.flatMap Grouping.components) : c.Pairwise (· < ·) := by
  obtain ⟨gr, hgr, hc⟩ := List.mem_flatMap.1 hc
  rw [classify_groupings] at hgr
  obtain ⟨⟨g, ds⟩, hmem, rfl⟩ := List.mem_map.1 hgr
  obtain ⟨ids, hg⟩ := hr.group hmem
  exact (CallGraph.complete_components (callGraph_wellFormed hg).1).sorted c hc

lemma mem_components (hmem : (g, ds) ∈ r.program.groups) (hg : Group r.tree g ids ds)
    {c : List DispatchId} (hc : c ∈ r.classify.components g) :
    c ∈ r.classify.groupings.flatMap Grouping.components ∧ c ≠ [] := by
  rw [hr.components_eq hmem] at hc
  constructor
  · refine List.mem_flatMap.2 ⟨r.tree.grouping g ds, ?_, hc⟩
    rw [classify_groupings]
    exact List.mem_map_of_mem hmem
  · exact (CallGraph.complete_components (callGraph_wellFormed hg).1).ne_nil c hc

lemma mem_tables_iff {id : DispatchId} {table : String} :
    (id, table) ∈ r.classify.tables ↔
      ∃ first rest, first :: rest ∈ r.classify.mutualGroups ∧ id ∈ first :: rest ∧
        table = tableAlias first := by
  rw [Classification.tables, List.mem_flatMap]
  constructor
  · rintro ⟨c, hc, hid⟩
    cases c with
    | nil => simp [dispatchAlias?] at hid
    | cons first rest =>
      have hsorted := hr.sorted_of_mem (List.mem_of_mem_filter hc)
      rw [dispatchAlias?, min?_eq_head hsorted, Option.map_some, Option.map_some,
        Option.getD_some] at hid
      obtain ⟨i, hi, heq⟩ := List.mem_map.1 hid
      obtain ⟨rfl, rfl⟩ := Prod.mk.inj heq
      exact ⟨first, rest, hc, hi, rfl⟩
  · rintro ⟨first, rest, hc, hid, rfl⟩
    have hsorted := hr.sorted_of_mem (List.mem_of_mem_filter hc)
    refine ⟨first :: rest, hc, ?_⟩
    rw [dispatchAlias?, min?_eq_head hsorted, Option.map_some, Option.map_some, Option.getD_some]
    exact List.mem_map_of_mem (f := fun i => (i, tableAlias first)) hid

/-- Members of a component of two or more are referred to through the table of its first member,
all other definitions by name. -/
lemma table?_eq {c : List DispatchId}
    (hc : c ∈ r.classify.groupings.flatMap Grouping.components) {id : DispatchId} (hid : id ∈ c) :
    r.context.table? id =
      if 1 < c.length then c.head?.map tableAlias else none := by
  show r.classify.tables.lookup id = _
  -- components are disjoint, so the number has one table at most
  have hunique : ∀ table, (id, table) ∈ r.classify.tables →
      1 < c.length ∧ c.head?.map tableAlias = some table := by
    intro table htable
    obtain ⟨first, rest, hc', hid', rfl⟩ := hr.mem_tables_iff.1 htable
    obtain ⟨hmem, hlen⟩ := List.mem_filter.1 hc'
    obtain rfl := eq_of_mem_of_nodup_flatten hr.nodup_components hc hmem hid hid'
    exact ⟨by simpa using hlen, rfl⟩
  split_ifs with hlen
  · obtain ⟨first, rest, rfl⟩ := List.exists_cons_of_length_pos (Nat.zero_lt_of_lt hlen)
    have hmem : (id, tableAlias first) ∈ r.classify.tables :=
      hr.mem_tables_iff.2 ⟨first, rest, List.mem_filter.2 ⟨hc, by simpa using hlen⟩, hid, rfl⟩
    obtain ⟨table, htable⟩ := lookup_isSome_of_mem (List.mem_map_of_mem (f := Prod.fst) hmem)
    rw [htable]
    exact (hunique table (mem_of_lookup_eq_some htable)).2.symm
  · cases htable : r.classify.tables.lookup id with
    | none => rfl
    | some table => exact absurd (hunique table (mem_of_lookup_eq_some htable)).1 hlen

lemma refer_eq_var {id : DispatchId}
    (hc : [id] ∈ r.classify.groupings.flatMap Grouping.components) (x : String) :
    r.context.refer x (.binding id) = .var x := by
  rw [LowerContext.refer, LowerContext.reference, hr.table?_eq hc (by simp), if_neg (by simp)]

lemma refer_eq_dispatch {first second : DispatchId} {rest : List DispatchId}
    (hc : first :: second :: rest ∈ r.classify.groupings.flatMap Grouping.components)
    {id : DispatchId} (hid : id ∈ first :: second :: rest) (x : String) :
    r.context.refer x (.binding id) = .dispatch (tableAlias first) id := by
  rw [LowerContext.refer, LowerContext.reference, hr.table?_eq hc hid, if_pos (by simp)]
  rfl

end Resolution.WellScoped

/-! ### Components -/

lemma forall₂_mem_left {β γ : Type*} {R : β → γ → Prop} {l : List β} {l' : List γ}
    (h : List.Forall₂ R l l') {a : β} (ha : a ∈ l) : ∃ b ∈ l', R a b := by
  induction h with
  | nil => simp at ha
  | @cons a' b l l' hab _ ih =>
    rcases List.mem_cons.1 ha with rfl | ha
    · exact ⟨b, by simp, hab⟩
    · obtain ⟨b', hb', hR⟩ := ih ha
      exact ⟨b', List.mem_cons_of_mem b hb', hR⟩

lemma forall₂_mem_right {β γ : Type*} {R : β → γ → Prop} {l : List β} {l' : List γ}
    (h : List.Forall₂ R l l') {b : γ} (hb : b ∈ l') : ∃ a ∈ l, R a b :=
  forall₂_mem_left h.flip hb

/-- What a component of the grouping of `ds` becomes: nothing if it binds no name, else a name and a
term. -/
inductive ComponentLowers (ctx : LowerContext) (ids : List DispatchId)
    (ds : List (Definition Scoped)) : List DispatchId → Option (String × Term) → Prop
  | discarded {id d} : (id, d) ∈ ids.zip ds → d.isDiscard = true →
      ComponentLowers ctx ids ds [id] none
  | plain {id d code} : (id, d) ∈ ids.zip ds → d.isDiscard = false → ctx.DefLowers d code →
      (ctx.classification.flags id).selfRecursive = false →
      ComponentLowers ctx ids ds [id] (some (d.name.name, code))
  | fixed {id d code} : (id, d) ∈ ids.zip ds → d.isDiscard = false → ctx.DefLowers d code →
      (ctx.classification.flags id).selfRecursive = true →
      ComponentLowers ctx ids ds [id] (some (d.name.name, .fix d.name.name code))
  | table {m n l c cs} : (∀ p ∈ m :: n :: l, p ∈ ids.zip ds) →
      List.Forall₂ (fun p q => p.1 = q.1 ∧ ctx.DefLowers p.2 q.2) (m :: n :: l) (c :: cs) →
      ComponentLowers ctx ids ds ((m :: n :: l).map Prod.fst)
        (some (tableAlias m.1, .dispatchTable (tableAlias m.1) c cs))

/-- What two lists have in common with a third one relates them. -/
lemma forall₂_of_common {α β γ : Type} {P : α → β → Prop} {Q : α → γ → Prop} {S : β → γ → Prop}
    {l : List α} {xs : List β} {ys : List γ} (hP : List.Forall₂ P l xs) (hQ : List.Forall₂ Q l ys)
    (h : ∀ a ∈ l, ∀ x y, P a x → Q a y → S x y) : List.Forall₂ S xs ys := by
  induction hP generalizing ys with
  | nil =>
    cases hQ
    exact .nil
  | @cons a x l xs hax _ ih =>
    obtain _ | ⟨hay, hQ⟩ := hQ
    rw [List.forall_mem_cons] at h
    exact .cons (h.1 _ _ hax hay) (ih hQ h.2)

/-- What a definition becomes that is a component of its own. -/
lemma ComponentLowers.single {ctx : LowerContext} {t : ScopeTree} {g : ScopeId}
    {ids : List DispatchId} {ds : List (Definition Scoped)} (hg : Group t g ids ds)
    {id : DispatchId} {o : Option (String × Term)} (h : ComponentLowers ctx ids ds [id] o)
    {d : Definition Scoped} (hd : (id, d) ∈ ids.zip ds) :
    (d.isDiscard = true ∧ o = none) ∨
    (d.isDiscard = false ∧ ∃ code, ctx.DefLowers d code ∧
      o = some (d.name.name, if (ctx.classification.flags id).selfRecursive = true
        then .fix d.name.name code else code)) := by
  cases h with
  | discarded hd' hdisc =>
    obtain rfl := hg.eq_of_mem_zip hd hd'
    exact Or.inl ⟨hdisc, rfl⟩
  | plain hd' hdisc hcode hself =>
    obtain rfl := hg.eq_of_mem_zip hd hd'
    exact Or.inr ⟨hdisc, _, hcode, by simp [hself]⟩
  | fixed hd' hdisc hcode hself =>
    obtain rfl := hg.eq_of_mem_zip hd hd'
    exact Or.inr ⟨hdisc, _, hcode, by simp [hself]⟩

/-- What a component of several definitions becomes. -/
lemma ComponentLowers.several {ctx : LowerContext} {ids : List DispatchId}
    {ds : List (Definition Scoped)} {i j : DispatchId} {c : List DispatchId}
    {o : Option (String × Term)} (h : ComponentLowers ctx ids ds (i :: j :: c) o) :
    ∃ q qs, o = some (tableAlias i, .dispatchTable (tableAlias i) q qs) ∧
      List.Forall₂ (fun id q => id = q.1 ∧ ∃ d, (id, d) ∈ ids.zip ds ∧ ctx.DefLowers d q.2)
        (i :: j :: c) (q :: qs) := by
  generalize hc : i :: j :: c = c' at h
  cases h with
  | discarded => exact absurd hc (by simp)
  | plain => exact absurd hc (by simp)
  | fixed => exact absurd hc (by simp)
  | @table m n l q qs hl hcodes =>
    obtain rfl : i = m.1 := (List.cons.inj hc).1
    refine ⟨q, qs, rfl, ?_⟩
    rw [List.forall₂_map_left_iff]
    exact List.Forall₂.mp (fun p q hp hq => ⟨hq.1, p.2, hp, hq.2⟩)
      (List.forall₂_iff_zip.2 ⟨hcodes.length_eq, fun hpq => hl _ (List.of_mem_zip hpq).1⟩) hcodes

namespace Resolution.WellScoped

variable {names : List String} {r : Resolution} {ids₀ ids : List DispatchId} {g : ScopeId}
  {ds : List (Definition Scoped)} (hr : r.WellScoped names ids₀)

include hr

lemma lowers_group {m n : DispatchId × Definition Scoped}
    {l : List (DispatchId × Definition Scoped)} {b : String × Term}
    (hc : (m :: n :: l).map Prod.fst ∈ r.classify.groupings.flatMap Grouping.components)
    (hl : ∀ p ∈ m :: n :: l, p ∈ ids.zip ds)
    (h : Lowers (r.context.group ((m :: n :: l).map r.context.member)) b) :
    ComponentLowers r.context ids ds ((m :: n :: l).map Prod.fst) (some b) := by
  have htable : r.context.table? (r.context.member m).id = some (tableAlias m.1) := by
    show r.context.table? m.1 = _
    rw [hr.table?_eq hc (by simp), if_pos (by simp)]
    rfl
  unfold LowerContext.group at h
  rw [LowerContext.foldr_insertMember (hr.sorted_of_mem hc), List.map_cons] at h
  dsimp only at h
  rw [htable] at h
  obtain ⟨_, -, h⟩ := lowers_bind h
  obtain ⟨code, hcode, h⟩ := lowers_bind h
  obtain ⟨codes, hcodes, h⟩ := lowers_bind h
  obtain rfl := lowers_pure h
  exact .table hl (.cons ⟨rfl, LowerContext.lowers_code hcode⟩ (LowerContext.lowers_codes hcodes))

lemma lowers_component {c : List DispatchId} {o : Option (String × Term)} {ms : List Member}
    (hc : c ∈ r.classify.groupings.flatMap Grouping.components) (hne : c ≠ [])
    (hms : Lowers (LowerContext.membersOf ((ids.zip ds).map r.context.member) c) ms)
    (h : Lowers (r.context.component ms) o) : ComponentLowers r.context ids ds c o := by
  obtain ⟨l, hl, rfl, rfl⟩ := LowerContext.lowers_membersOf hms
  match l with
  | [] => exact absurd rfl hne
  | m :: n :: l =>
    obtain ⟨b, hb, h⟩ := lowers_bind h
    obtain rfl := lowers_pure h
    exact hr.lowers_group hc hl hb
  | [m] =>
    have htable : r.context.table? m.1 = none := by
      rw [hr.table?_eq hc (by simp), if_neg (by simp)]
    obtain ⟨id, d⟩ := m
    change Lowers (if (r.context.table? id).isSome then _ else if d.isDiscard then _ else _) o at h
    rw [htable, if_neg (by simp)] at h
    have hd : (id, d) ∈ ids.zip ds := hl _ (by simp)
    by_cases hdisc : d.isDiscard = true
    · rw [if_pos hdisc] at h
      obtain rfl := lowers_pure h
      exact .discarded hd hdisc
    · rw [if_neg hdisc] at h
      rw [Bool.not_eq_true] at hdisc
      obtain ⟨value, hvalue, h⟩ := lowers_bind h
      obtain rfl := lowers_pure h
      obtain ⟨code, hcode, hvalue⟩ := lowers_bind hvalue
      have hcode := LowerContext.lowers_code hcode
      change Lowers (if (r.context.classification.flags id).selfRecursive then _ else _) value
        at hvalue
      by_cases hself : (r.context.classification.flags id).selfRecursive = true
      · rw [if_pos hself] at hvalue
        obtain ⟨_, -, hvalue⟩ := lowers_bind hvalue
        obtain rfl := lowers_pure hvalue
        exact .fixed hd hdisc hcode hself
      · rw [if_neg hself] at hvalue
        obtain rfl := lowers_pure hvalue
        exact .plain hd hdisc hcode (by simpa using hself)

/-- The bindings of a grouping are those of its components, in order. -/
lemma lowers_bindings {cs : List (List DispatchId)} {bs : List (String × Term)}
    (hcs : ∀ c ∈ cs, c ∈ r.classify.groupings.flatMap Grouping.components ∧ c ≠ [])
    (h : Lowers (r.context.bindings ((ids.zip ds).map r.context.member) cs) bs) :
    ∃ os, List.Forall₂ (ComponentLowers r.context ids ds) cs os ∧ bs = os.reduceOption := by
  induction cs generalizing bs with
  | nil =>
    obtain rfl := lowers_pure h
    exact ⟨[], .nil, rfl⟩
  | cons c cs ih =>
    rw [LowerContext.bindings] at h
    obtain ⟨ms, hms, h⟩ := lowers_bind h
    obtain ⟨o, ho, h⟩ := lowers_bind h
    obtain ⟨rest, hrest, h⟩ := lowers_bind h
    obtain rfl := lowers_pure h
    rw [List.forall_mem_cons] at hcs
    obtain ⟨os, hos, rfl⟩ := ih hcs.2 hrest
    refine ⟨o :: os, .cons (hr.lowers_component hcs.1.1 hcs.1.2 hms ho) hos, ?_⟩
    cases o with
    | none => rfl
    | some b => rfl

/-- A grouping becomes a chain of bindings, one for each component that binds a name. -/
lemma lowers_grouping (hmem : (g, ds) ∈ r.program.groups) (hg : Group r.tree g ids ds)
    {body t : Term} (h : Lowers (r.context.grouping g (r.context.members ds) body) t) :
    ∃ os, List.Forall₂ (ComponentLowers r.context ids ds) (r.classify.components g) os ∧
      t = LowerContext.chain os.reduceOption body := by
  have hdefs : DefsWellScoped r.context.tree g ids ds := hg.defs
  obtain ⟨bs, hbs, h⟩ := lowers_bind h
  obtain rfl := lowers_pure h
  rw [LowerContext.members_eq hdefs] at hbs
  obtain ⟨os, hos, rfl⟩ := hr.lowers_bindings (fun c hc => hr.mem_components hmem hg hc) hbs
  exact ⟨os, hos, rfl⟩

lemma program_group : Group r.tree r.program.ann.scope ids₀ r.program.defs :=
  ⟨⟨_, _, hr.declared⟩, hr.defs⟩

/-- A program becomes the reference to its entry point, under the bindings of its definitions and
the aliases of `if` and `==`. -/
lemma lowers_program {entry : String} {t : Term} (h : Lowers (r.lower r.classify entry) t) :
    ∃ id d os, (id, d) ∈ ids₀.zip r.program.defs ∧ d.name.name = entry ∧ d.isDiscard = false ∧
      List.Forall₂ (ComponentLowers r.context ids₀ r.program.defs)
        (r.classify.components r.program.ann.scope) os ∧
      t = .app (.lam ifAlias (.app (.lam eqAlias (LowerContext.chain os.reduceOption
        (r.context.refer entry (.binding id)))) (.var "=="))) (.var "if") := by
  change Lowers (r.context.program r.program entry) t at h
  unfold LowerContext.program at h
  split at h
  · rename_i id hid
    obtain ⟨_, -, h⟩ := lowers_bind h
    obtain ⟨body, hbody, h⟩ := lowers_bind h
    obtain rfl := lowers_pure h
    obtain ⟨os, hos, rfl⟩ := hr.lowers_grouping List.mem_cons_self hr.program_group hbody
    have hentry : r.tree.entry? r.program.ann.scope entry = some (.binding id) := hid
    rw [ScopeTree.entry_of_scope hr.declared.scope] at hentry
    obtain ⟨id', d, he, hd, hname, hdisc⟩ := mem_groupEntries.1 (mem_of_lookup_eq_some hentry)
    obtain rfl := Entry.binding.inj he
    exact ⟨id, d, os, hd, hname, hdisc, hos, rfl⟩
  · exact absurd h not_lowers_throw

end Resolution.WellScoped

/-! ### Free names of definitions -/

/-- A free name of a definition is that of a definition it mentions, or it comes from outside of the
grouping. -/
lemma Group.free_cases {r : Resolution} (hparents : r.tree.ParentsBefore) {kind : ScopeKind}
    {s g : ScopeId} {ids : List DispatchId} {ds : List (Definition Scoped)}
    (hdecl : DeclaredIn r.tree kind s g ids ds) (hg : Group r.tree g ids ds) {id : DispatchId}
    {d : Definition Scoped} (hd : (id, d) ∈ ids.zip ds) {y : String} (hy : d.body.Free y)
    (hparams : y ∉ boundParams d.params) {e : Entry} (he : r.tree.lookup d.ann.scope y = some e) :
    (∃ id' d', (id', d') ∈ ids.zip ds ∧ d'.name.name = y ∧ d'.isDiscard = false ∧
      e = .binding id' ∧ r.tree.Mentions d id') ∨
    (y ∉ boundNames ds ∧ r.tree.lookup s y = some e) := by
  have hdef := hg.defs.of_mem_zip hd
  have hlookup : r.tree.lookup g y = some e := by
    rwa [lookup_function hparents hdef.scope, if_neg hparams] at he
  by_cases hbound : y ∈ boundNames ds
  · left
    obtain ⟨d', hd', rfl, hdisc⟩ := mem_boundNames.1 hbound
    obtain ⟨id', hid'⟩ := exists_mem_zip_of_mem_right hg.length hd'
    rw [lookup_group_of_mem hparents hdecl hg.length hid' hdisc] at hlookup
    obtain rfl := Option.some.inj hlookup
    obtain ⟨i, hi, hname, hi'⟩ := hy.exists_ident hparents hdef.body
    refine ⟨id', d', hid', rfl, hdisc, rfl, i, hi, ?_⟩
    rw [hname, hi', he]
  · right
    rw [lookup_group_of_notMem hparents hdecl hg.length hbound] at hlookup
    exact ⟨hbound, hlookup⟩

/-! ### Compilation -/

/-- A program that compiles is well-scoped, and its term is what it lowers to with its own
classification. -/
lemma compile_eq_ok {names : List String} {entry : String} {p : Program Span}
    {log log' : Array Event} {c : Compiled} (h : compile names entry p log = .ok c log') :
    c.resolution.program.map Scoped.span = p ∧ ∃ ids, c.resolution.WellScoped names ids ∧
      Lowers (c.resolution.lower c.resolution.classify entry) c.term := by
  unfold compile at h
  obtain ⟨r, log₁, hr, h⟩ := bind_eq_ok.1 h
  obtain ⟨cl, log₂, hcl, h⟩ := bind_eq_ok.1 h
  obtain ⟨t, log₃, ht, h⟩ := bind_eq_ok.1 h
  obtain ⟨_, log₄, -, h⟩ := bind_eq_ok.1 h
  obtain ⟨rfl, -⟩ := pure_eq_ok.1 h
  obtain ⟨_, log₅, -, hcl⟩ := bind_eq_ok.1 hcl
  obtain ⟨rfl, -⟩ := pure_eq_ok.1 hcl
  obtain ⟨hmap, ids, hscoped⟩ := resolve_wellScoped (adaptExcept_eq_ok.1 hr)
  exact ⟨hmap, ids, hscoped, log₂, log₃, adaptExcept_eq_ok.1 ht⟩

end Letrec
