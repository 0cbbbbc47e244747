import Mathlib
import Letrec.Proofs.Scope.Groups
import Letrec.Proofs.Scope.Repetition

/-!
# The numbers of definitions

The definitions of a program in post-order are all its definitions, at any depth, those in the body
of a definition before the definition itself and those of a grouping in the order of the source.
That order can be read off the program; resolution numbers the definitions in just that order, one
number after the other, and the table of definitions is the list of them with their numbers
(`resolve_bindings`).

`Records` says of one step of resolution which definitions it adds to the table.
-/

namespace Letrec

variable {α β : Type}

/-! ### Post-order -/

mutual

/-- The definitions inside an expression in post-order. -/
def Expr.postorder : Expr α → List (Definition α)
  | .ident _ | .int _ _ => []
  | .lam _ b _ => b.postorder
  | .call f x _ => f.postorder ++ x.postorder
  | .ite c p n _ => c.postorder ++ p.postorder ++ n.postorder
  | .letIn ds b _ => postorderOfDefs ds ++ b.postorder

/-- The definitions of a list and those inside of them in post-order. -/
def postorderOfDefs : List (Definition α) → List (Definition α)
  | [] => []
  | ⟨n, ps, b, a⟩ :: ds => b.postorder ++ ⟨n, ps, b, a⟩ :: postorderOfDefs ds

end

/-- All definitions of a program in post-order. -/
def Program.postorder (p : Program α) : List (Definition α) := postorderOfDefs p.defs

/-- A list of definitions with their numbers, from `n` on. -/
def recordsFrom (n : DispatchId) : List (Definition Scoped) → List Binding
  | [] => []
  | d :: ds => bindingOf d.name.ann.scope n d :: recordsFrom (n + 1) ds

lemma recordsFrom_append (n : DispatchId) (ds ds' : List (Definition Scoped)) :
    recordsFrom n (ds ++ ds') = recordsFrom n ds ++ recordsFrom (n + ds.length) ds' := by
  induction ds generalizing n with
  | nil => rfl
  | cons d ds ih =>
    rw [List.cons_append, recordsFrom, recordsFrom, ih, List.cons_append, List.length_cons,
      Nat.add_assoc, Nat.add_comm 1]

lemma length_recordsFrom (n : DispatchId) (ds : List (Definition Scoped)) :
    (recordsFrom n ds).length = ds.length := by
  induction ds generalizing n with
  | nil => rfl
  | cons d ds ih => rw [recordsFrom, List.length_cons, ih, List.length_cons]

lemma getElem_recordsFrom {n : DispatchId} {ds : List (Definition Scoped)} {i : ℕ}
    (hi : i < ds.length) :
    (recordsFrom n ds)[i]? = some (bindingOf ds[i].name.ann.scope (n + i) ds[i]) := by
  induction ds generalizing n i with
  | nil => exact absurd hi (Nat.not_lt_zero _)
  | cons d ds ih =>
    cases i with
    | zero => rfl
    | succ i =>
      rw [recordsFrom, List.getElem?_cons_succ, ih (Nat.lt_of_succ_lt_succ hi),
        List.getElem_cons_succ, Nat.add_assoc, Nat.add_comm 1]

/-- The numbers of a list of definitions follow one another. -/
lemma ids_recordsFrom (n : DispatchId) (ds : List (Definition Scoped)) :
    (recordsFrom n ds).map (·.id) = List.range' n ds.length := by
  induction ds generalizing n with
  | nil => rfl
  | cons d ds ih => rw [recordsFrom, List.map_cons, ih, List.length_cons, List.range'_succ]; rfl

/-- All definitions are counted. -/
lemma length_postorderOfDefs_of {ds : List (Definition α)}
    (h : ∀ d ∈ ds, d.body.postorder.length = d.body.defCount) :
    (postorderOfDefs ds).length = defCountOfDefs ds := by
  induction ds with
  | nil => rfl
  | cons d ds ih =>
    obtain ⟨n, ps, b, a⟩ := d
    rw [List.forall_mem_cons] at h
    have hbody : b.postorder.length = b.defCount := h.1
    rw [postorderOfDefs, List.length_append, List.length_cons, hbody, ih h.2, defCountOfDefs]
    omega

lemma Expr.length_postorder (e : Expr α) : e.postorder.length = e.defCount := by
  induction e using Expr.induction with
  | ident i => rfl
  | int v a => rfl
  | lam ps b a ih => rw [postorder, ih, defCount]
  | call f x a ihf ihx => rw [postorder, List.length_append, ihf, ihx, defCount]
  | ite c p n a ihc ihp ihn =>
    rw [postorder, List.length_append, List.length_append, ihc, ihp, ihn, defCount]
  | letIn ds b a ihds ihb =>
    rw [postorder, List.length_append, length_postorderOfDefs_of ihds, ihb, defCount]

lemma Program.length_postorder (p : Program α) : p.postorder.length = defCountOfDefs p.defs :=
  length_postorderOfDefs_of fun d _ => d.body.length_postorder

/-- Annotations play no part in the order. -/
lemma postorderOfDefs_map_of {f : α → β} {ds : List (Definition α)}
    (h : ∀ d ∈ ds, (d.body.map f).postorder = d.body.postorder.map (Definition.map f)) :
    postorderOfDefs (mapDefs f ds) = (postorderOfDefs ds).map (Definition.map f) := by
  induction ds with
  | nil => rfl
  | cons d ds ih =>
    obtain ⟨n, ps, b, a⟩ := d
    rw [List.forall_mem_cons] at h
    rw [mapDefs, Definition.map, postorderOfDefs, h.1, ih h.2, postorderOfDefs, List.map_append,
      List.map_cons, Definition.map]

lemma Expr.postorder_map (f : α → β) (e : Expr α) :
    (e.map f).postorder = e.postorder.map (Definition.map f) := by
  induction e using Expr.induction with
  | ident i => rfl
  | int v a => rfl
  | lam ps b a ih => rw [map, postorder, ih, postorder]
  | call g x a ihg ihx => rw [map, postorder, ihg, ihx, postorder, List.map_append]
  | ite c p n a ihc ihp ihn =>
    rw [map, postorder, ihc, ihp, ihn, postorder, List.map_append, List.map_append]
  | letIn ds b a ihds ihb =>
    rw [map, postorder, postorderOfDefs_map_of ihds, ihb, postorder, List.map_append]

lemma Program.postorder_map (f : α → β) (p : Program α) :
    (p.map f).postorder = p.postorder.map (Definition.map f) := by
  rw [postorder, map, ← mapDefs_eq_map]
  exact postorderOfDefs_map_of fun d _ => d.body.postorder_map f

/-! ### The definitions of a program are those of its groupings -/

lemma mem_postorderOfDefs_of {d : Definition Scoped} {ds : List (Definition Scoped)}
    (h : ∀ d' ∈ ds, d ∈ d'.body.postorder ↔ ∃ q ∈ d'.body.groups, d ∈ q.2) :
    d ∈ postorderOfDefs ds ↔ d ∈ ds ∨ ∃ q ∈ groupsOfDefs ds, d ∈ q.2 := by
  induction ds with
  | nil => simp [postorderOfDefs, groupsOfDefs]
  | cons d' ds ih =>
    obtain ⟨n, ps, b, a⟩ := d'
    rw [List.forall_mem_cons] at h
    rw [postorderOfDefs, List.mem_append, List.mem_cons, h.1, ih h.2, groupsOfDefs, List.mem_cons]
    simp only [List.mem_append, or_and_right, exists_or]
    constructor
    · rintro (hq | hd | hd | hq)
      · exact Or.inr (Or.inl hq)
      · exact Or.inl (Or.inl hd)
      · exact Or.inl (Or.inr hd)
      · exact Or.inr (Or.inr hq)
    · rintro ((hd | hd) | hq | hq)
      · exact Or.inr (Or.inl hd)
      · exact Or.inr (Or.inr (Or.inl hd))
      · exact Or.inl hq
      · exact Or.inr (Or.inr (Or.inr hq))

lemma Expr.mem_postorder_iff (d : Definition Scoped) (e : Expr Scoped) :
    d ∈ e.postorder ↔ ∃ q ∈ e.groups, d ∈ q.2 := by
  induction e using Expr.induction with
  | ident i => simp [postorder, groups]
  | int v a => simp [postorder, groups]
  | lam ps b a ih => rw [postorder, ih, groups]
  | call f x a ihf ihx =>
    rw [postorder, List.mem_append, ihf, ihx, groups]
    simp only [List.mem_append, or_and_right, exists_or]
  | ite c p n a ihc ihp ihn =>
    rw [postorder, List.mem_append, List.mem_append, ihc, ihp, ihn, groups]
    simp only [List.mem_append, or_and_right, exists_or]
  | letIn ds b a ihds ihb =>
    rw [postorder, List.mem_append, mem_postorderOfDefs_of ihds, ihb, groups, List.cons_append,
      List.exists_mem_cons_iff, or_assoc]
    simp only [List.mem_append, or_and_right, exists_or]

lemma Program.mem_postorder_iff (d : Definition Scoped) (p : Program Scoped) :
    d ∈ p.postorder ↔ ∃ q ∈ p.groups, d ∈ q.2 := by
  rw [postorder, groups, List.exists_mem_cons_iff]
  exact mem_postorderOfDefs_of fun d' _ => d'.body.mem_postorder_iff d

mutual

/-- The scopes of the definitions are among those that are opened, each as often. -/
lemma Expr.postorder_subperm_opened : ∀ e : Expr Scoped,
    (e.postorder.map (·.ann.scope)).Subperm e.opened
  | .ident _ => List.nil_subperm
  | .int _ _ => List.nil_subperm
  | .lam _ b a => by
    rw [Expr.postorder, Expr.opened]
    exact b.postorder_subperm_opened.trans List.subperm_cons_self
  | .call f x _ => by
    rw [Expr.postorder, Expr.opened, List.map_append]
    exact f.postorder_subperm_opened.append x.postorder_subperm_opened
  | .ite c p n _ => by
    rw [Expr.postorder, Expr.opened, List.map_append, List.map_append]
    exact (c.postorder_subperm_opened.append p.postorder_subperm_opened).append
      n.postorder_subperm_opened
  | .letIn ds b a => by
    rw [Expr.postorder, Expr.opened, List.map_append, List.cons_append]
    exact ((postorderOfDefs_subperm_opened ds).append b.postorder_subperm_opened).trans
      List.subperm_cons_self

lemma postorderOfDefs_subperm_opened : ∀ ds : List (Definition Scoped),
    ((postorderOfDefs ds).map (·.ann.scope)).Subperm (openedByDefs ds)
  | [] => List.nil_subperm
  | ⟨n, ps, b, a⟩ :: ds => by
    rw [postorderOfDefs, openedByDefs, List.map_append, List.map_cons, List.cons_append]
    refine List.perm_middle.subperm.trans ?_
    exact (List.subperm_cons _).2
      (b.postorder_subperm_opened.append (postorderOfDefs_subperm_opened ds))

end

namespace Resolution.WellScoped

variable {names : List String} {r : Resolution} {ids₀ : List DispatchId}
  (hr : r.WellScoped names ids₀)

include hr

/-- Different definitions have different scopes. -/
lemma nodup_postorder : (r.program.postorder.map (·.ann.scope)).Nodup := by
  have hsub : (r.program.postorder.map (·.ann.scope)).Subperm
      (r.program.ann.scope :: openedByDefs r.program.defs) :=
    (postorderOfDefs_subperm_opened _).trans List.subperm_cons_self
  rw [hr.opened] at hsub
  obtain ⟨l, hperm, hsub⟩ := hsub
  exact hperm.nodup_iff.1 (hsub.nodup List.nodup_range')

/-- Every definition of the program is well-scoped, in its grouping and with its number. -/
lemma exists_of_mem_postorder {d : Definition Scoped} (hd : d ∈ r.program.postorder) :
    ∃ g id, DefWellScoped r.tree g id d := by
  obtain ⟨⟨g, ds⟩, hmem, hd⟩ := (r.program.mem_postorder_iff d).1 hd
  obtain ⟨ids, hg⟩ := hr.group hmem
  obtain ⟨id, hid⟩ := exists_mem_zip_of_mem_right hg.length hd
  exact ⟨g, id, hg.defs.of_mem_zip hid⟩

end Resolution.WellScoped

/-! ### What a step records -/

namespace ResolveM

open Resolving

variable {r r₁ r' : Resolving}

/-- A step has recorded these definitions, and nothing else. -/
structure Records (ds : List (Definition Scoped)) (r r' : Resolving) : Prop where
  bindings : r'.tree.bindings.toList = r.tree.bindings.toList ++ recordsFrom r.nextId ds
  nextId : r'.nextId = r.nextId + ds.length

lemma Records.refl : Records [] r r := ⟨(List.append_nil _).symm, rfl⟩

lemma Records.trans {ds ds' : List (Definition Scoped)} (h : Records ds r r₁)
    (h' : Records ds' r₁ r') : Records (ds ++ ds') r r' where
  bindings := by
    rw [h'.bindings, h.bindings, h.nextId, recordsFrom_append, List.append_assoc]
  nextId := by rw [h'.nextId, h.nextId, List.length_append, Nat.add_assoc]

/-- Opening a scope and binding the parameters in it records nothing. -/
lemma records_open {kind : ScopeKind} {s inner : ℕ} {ps : List (Ident Span)}
    {ps' : List (Ident Scoped)} (h₁ : openScope kind s r = .ok inner r₁)
    (h₂ : parameters inner ps r₁ = .ok ps' r') : Records [] r r' := by
  obtain ⟨-, rfl⟩ := openScope_eq_ok h₁
  obtain ⟨-, -, hch⟩ := parameters_eq_ok h₂
  exact ⟨by rw [hch.bindings, recordsFrom, List.append_nil]; rfl, hch.nextId⟩

/-- A definition that gets its number is recorded under it. -/
lemma records_record {g inner arity : ℕ} {n : Ident Span} {span : Span} {id : DispatchId}
    {r₂ : Resolving} {d' : Definition Scoped} (h₁ : freshId r = .ok id r₁)
    (h₂ : bindName g n.name n.ann .definition (.binding id) r₁ = .ok () r₂)
    (h₃ : register { id, name := n.name, scope := g, paramScope := inner, arity, span := span } r₂
      = .ok () r')
    (hd : bindingOf d'.name.ann.scope id d'
      = { id, name := n.name, scope := g, paramScope := inner, arity, span := span }) :
    Records [d'] r r' := by
  obtain ⟨rfl, rfl, -⟩ := freshId_eq_ok h₁
  have hch := bindName_changes h₂
  obtain ⟨hnext, htree⟩ := register_eq_ok h₃
  refine ⟨?_, hnext.trans hch.nextId⟩
  rw [htree, ScopeTree.register, Array.toList_push, hch.bindings, recordsFrom, recordsFrom, hd]

/-- A resolved expression has recorded the definitions inside of it. -/
def RecordsExpr (e : Expr Span) : Prop :=
  ∀ (s : ℕ) (r : Resolving) (e' : Expr Scoped) (r' : Resolving),
    expression s e r = .ok e' r' → Records e'.postorder r r'

/-- The resolved definitions of a grouping have been recorded, with those inside of them. -/
def RecordsDefs (ds : List (Definition Span)) : Prop :=
  ∀ (g : ℕ) (r : Resolving) (ds' : List (Definition Scoped)) (r' : Resolving),
    definitions g ds r = .ok ds' r' → Records (postorderOfDefs ds') r r'

lemma recordsExpr_lam {ps : List (Ident Span)} {b : Expr Span} {a : Span} (hb : RecordsExpr b) :
    RecordsExpr (.lam ps b a) := by
  intro s r e' r' h
  rw [expression] at h
  simp only [bind_eq_ok, pure_eq_ok] at h
  obtain ⟨inner, r₁, h₁, ps', r₂, h₂, b', r₃, h₃, rfl, rfl⟩ := h
  rw [Expr.postorder]
  exact (records_open h₁ h₂).trans (hb inner r₂ b' r₃ h₃)

lemma recordsExpr_call {f x : Expr Span} {a : Span} (hf : RecordsExpr f) (hx : RecordsExpr x) :
    RecordsExpr (.call f x a) := by
  intro s r e' r' h
  rw [expression] at h
  simp only [bind_eq_ok, pure_eq_ok] at h
  obtain ⟨f', r₁, h₁, x', r₂, h₂, rfl, rfl⟩ := h
  rw [Expr.postorder]
  exact (hf s r f' r₁ h₁).trans (hx s r₁ x' r₂ h₂)

lemma recordsExpr_ite {c t e : Expr Span} {a : Span} (hc : RecordsExpr c) (ht : RecordsExpr t)
    (he : RecordsExpr e) : RecordsExpr (.ite c t e a) := by
  intro s r e' r' h
  rw [expression] at h
  simp only [bind_eq_ok, pure_eq_ok] at h
  obtain ⟨c', r₁, h₁, t', r₂, h₂, e', r₃, h₃, rfl, rfl⟩ := h
  rw [Expr.postorder]
  exact ((hc s r c' r₁ h₁).trans (ht s r₁ t' r₂ h₂)).trans (he s r₂ e' r₃ h₃)

lemma recordsExpr_letIn {ds : List (Definition Span)} {b : Expr Span} {a : Span}
    (hds : RecordsDefs ds) (hb : RecordsExpr b) : RecordsExpr (.letIn ds b a) := by
  intro s r e' r' h
  rw [expression] at h
  simp only [bind_eq_ok, pure_eq_ok, report, modify_eq_ok] at h
  obtain ⟨inner, r₁, h₁, -, r₂, h₂, ds', r₃, h₃, b', r₄, h₄, rfl, rfl⟩ := h
  obtain ⟨-, rfl⟩ := openScope_eq_ok h₁
  subst h₂
  rw [Expr.postorder]
  obtain ⟨hbindings, hnext⟩ := (hds inner _ ds' r₃ h₃).trans (hb inner r₃ b' r₄ h₄)
  exact ⟨hbindings, hnext⟩

lemma recordsDefs_cons {n : Ident Span} {ps : List (Ident Span)} {b : Expr Span} {a : Span}
    {ds : List (Definition Span)} (hb : RecordsExpr b) (hds : RecordsDefs ds) :
    RecordsDefs (⟨n, ps, b, a⟩ :: ds) := by
  intro g r ds' r' h
  rw [definitions, definition] at h
  simp only [bind_eq_ok, pure_eq_ok] at h
  obtain ⟨d', r₇, ⟨inner, r₁, h₁, ps', r₂, h₂, b', r₃, h₃, id, r₄, h₄, ⟨⟩, r₅, h₅, ⟨⟩, r₆, h₆, rfl,
    rfl⟩, ds', r₈, h₈, rfl, rfl⟩ := h
  have hlen : ps'.length = ps.length := by
    rw [← (parameters_eq_ok h₂).1, List.length_map]
  have hself : Records [⟨⟨n.name, n.ann, g⟩, ps', b', ⟨a, inner⟩⟩] r₃ r₆ :=
    records_record h₄ h₅ h₆ (by rw [bindingOf, hlen])
  rw [postorderOfDefs]
  exact ((records_open h₁ h₂).trans (hb inner r₂ b' r₃ h₃)).trans
    (hself.trans (hds g r₆ ds' r₈ h₈))

mutual

lemma recordsExpr : ∀ e : Expr Span, RecordsExpr e
  | .ident i => fun s r e' r' h => by
    rw [expression, pure_eq_ok] at h
    obtain ⟨rfl, rfl⟩ := h
    exact .refl
  | .int v a => fun s r e' r' h => by
    rw [expression, pure_eq_ok] at h
    obtain ⟨rfl, rfl⟩ := h
    exact .refl
  | .lam _ b _ => recordsExpr_lam (recordsExpr b)
  | .call f x _ => recordsExpr_call (recordsExpr f) (recordsExpr x)
  | .ite c t e _ => recordsExpr_ite (recordsExpr c) (recordsExpr t) (recordsExpr e)
  | .letIn ds b _ => recordsExpr_letIn (recordsDefs ds) (recordsExpr b)

lemma recordsDefs : ∀ ds : List (Definition Span), RecordsDefs ds
  | [] => fun g r ds' r' h => by
    rw [definitions, pure_eq_ok] at h
    obtain ⟨rfl, rfl⟩ := h
    exact .refl
  | ⟨_, _, b, _⟩ :: ds => recordsDefs_cons (recordsExpr b) (recordsDefs ds)

end

end ResolveM

/-! ### Programs -/

variable {names : List String} {seed : DispatchId} {p : Program Span} {log log' : Array Event}
  {r : Resolution}

/-- The table of definitions is the list of all definitions in post-order, numbered from the seed
on. -/
lemma resolve_bindings (h : resolve names seed p log = .ok r log') :
    r.tree.bindings.toList = recordsFrom seed r.program.postorder := by
  obtain ⟨ds, r', hrun, rfl⟩ := resolve_eq_ok h
  exact (ResolveM.recordsDefs p.defs 1 _ ds r' hrun).bindings

/-- The numbers that have been issued. -/
def Resolution.ids (r : Resolution) : List DispatchId := r.tree.bindings.toList.map (·.id)

/-- The numbers are those from the seed on. -/
lemma resolve_ids (h : resolve names seed p log = .ok r log') :
    r.ids = List.range' seed p.postorder.length := by
  rw [Resolution.ids, resolve_bindings h, ids_recordsFrom, ← (resolve_wellScoped h).1,
    Program.postorder_map, List.length_map]

/-- A definition owns its scope under the number that its place in the order gives it. -/
lemma resolve_ownerOf? (h : resolve names seed p log = .ok r log') {i : ℕ}
    (hi : i < r.program.postorder.length) :
    r.tree.ownerOf? r.program.postorder[i].ann.scope = some
      (bindingOf r.program.postorder[i].name.ann.scope (seed + i) r.program.postorder[i]) := by
  obtain ⟨-, ids, hr⟩ := resolve_wellScoped h
  obtain ⟨g, id, hd⟩ := hr.exists_of_mem_postorder (List.getElem_mem hi)
  rw [hd.ownerOf?, hd.name]
  -- the number is that of a place in the order, and the scope tells the place
  obtain ⟨j, hj⟩ := List.mem_iff_getElem?.1
    (Array.mem_toList_iff.2 (Array.mem_of_find?_eq_some hd.binding))
  rw [resolve_bindings h] at hj
  have hlt : j < r.program.postorder.length := by
    rw [← length_recordsFrom seed]
    exact (List.getElem?_eq_some_iff.1 hj).1
  rw [getElem_recordsFrom hlt, Option.some.injEq, bindingOf, bindingOf, Binding.mk.injEq] at hj
  obtain ⟨hid, -, -, hscope, -⟩ := hj
  have heq : j = i := by
    have hj' : j < (r.program.postorder.map (·.ann.scope)).length := by simpa using hlt
    have hi' : i < (r.program.postorder.map (·.ann.scope)).length := by simpa using hi
    have hsame : (r.program.postorder.map (·.ann.scope))[j]
        = (r.program.postorder.map (·.ann.scope))[i] := by
      rw [List.getElem_map, List.getElem_map]
      exact hscope
    exact hr.nodup_postorder.getElem_inj_iff.1 hsame
  rw [← hid, heq]

/-- Numbers never run over: the definitions of a program in post-order get one number each, from the
seed on and without a gap, and the table holds them and nothing else; if the last number would
reach the bound, resolution stops instead.  So programs whose seeds are far enough apart share no
number. -/
theorem resolve_numbers_postorder (hseed : seed < dispatchIdBound) (hp : p.Distinct) :
    (seed + p.postorder.length < dispatchIdBound → ∃ r log', resolve names seed p log = .ok r log' ∧
      r.ids = List.range' seed p.postorder.length ∧
      r.program.postorder.map (Definition.map Scoped.span) = p.postorder ∧
      r.tree.bindings.toList = recordsFrom seed r.program.postorder ∧
      ∀ i (hi : i < r.program.postorder.length), ∃ g,
        r.tree.ownerOf? r.program.postorder[i].ann.scope
          = some (bindingOf g (seed + i) r.program.postorder[i])) ∧
    (dispatchIdBound ≤ seed + p.postorder.length →
      ∃ log', resolve names seed p log = .error .idsExhausted log') ∧
    ∀ r log', resolve names seed p log = .ok r log' →
      ∀ names₂ seed₂ p₂ log₂ r₂ log₂', seed + p.postorder.length ≤ seed₂ →
        resolve names₂ seed₂ p₂ log₂ = .ok r₂ log₂' → r.ids.Disjoint r₂.ids := by
  refine ⟨fun hroom => ?_, fun hfull => ?_, ?_⟩
  · rw [p.length_postorder] at hroom
    obtain ⟨r, log', h⟩ : ∃ r log', resolve names seed p log = .ok r log' :=
      resolves_iff.2 ⟨hp, Or.inr hroom⟩
    refine ⟨r, log', h, resolve_ids h, ?_, resolve_bindings h, fun i hi =>
      ⟨_, resolve_ownerOf? h hi⟩⟩
    rw [← Program.postorder_map, (resolve_wellScoped h).1]
  · rw [p.length_postorder] at hfull
    rcases resolve_cases names seed p log with ⟨h, -⟩ | ⟨q, log', -, hq⟩ | ⟨h, -⟩
    · rcases (resolves_iff.1 h).2 with hnone | hroom
      · rw [hnone, Nat.add_zero] at hfull
        exact absurd hseed hfull.not_gt
      · exact absurd hroom hfull.not_gt
    · rw [p.repetitions_eq_nil.2 hp] at hq
      exact absurd hq (by simp)
    · exact h
  · intro r log' h names₂ seed₂ p₂ log₂ r₂ log₂' hle h₂ id hid hid₂
    rw [resolve_ids h, List.mem_range'_1] at hid
    rw [resolve_ids h₂, List.mem_range'_1] at hid₂
    exact (hid.2.trans_le (hle.trans hid₂.1)).false

/-- `f x = let g = 1; _ = let h = 2 in h in g`, `_ = 3`. -/
def nestedNames : Program Span where
  defs :=
    [⟨⟨"f", .nowhere⟩, [⟨"x", .nowhere⟩],
      .letIn
        [⟨⟨"g", .nowhere⟩, [], .int 1 .nowhere, .nowhere⟩,
         ⟨⟨"_", .nowhere⟩, [],
          .letIn [⟨⟨"h", .nowhere⟩, [], .int 2 .nowhere, .nowhere⟩] (.ident ⟨"h", .nowhere⟩)
            .nowhere, .nowhere⟩]
        (.ident ⟨"g", .nowhere⟩) .nowhere, .nowhere⟩,
     ⟨⟨"_", .nowhere⟩, [], .int 3 .nowhere, .nowhere⟩]
  ann := .nowhere

theorem resolve_numbers_postorder_nestedNames :
    4294967291 < dispatchIdBound ∧ nestedNames.Distinct ∧
    nestedNames.postorder.map (·.name.name) = ["g", "h", "_", "f", "_"] ∧
    (∃ r log', resolve [] 4294967290 nestedNames #[] = .ok r log' ∧
      r.ids = [4294967290, 4294967291, 4294967292, 4294967293, 4294967294]) ∧
    ∃ log', resolve [] 4294967291 nestedNames #[] = .error .idsExhausted log' := by
  have hp : nestedNames.Distinct :=
    nestedNames.repetitions_eq_nil.1 (List.isEmpty_iff.1 (by decide +kernel))
  have hlen : nestedNames.postorder.length = 5 := rfl
  refine ⟨by decide, hp, by decide +kernel, ?_, ?_⟩
  · obtain ⟨r, log', h, hids, -⟩ :=
      (@resolve_numbers_postorder [] 4294967290 nestedNames #[] (by decide) hp).1
        (by rw [hlen]; decide)
    exact ⟨r, log', h, by rw [hids, hlen]; rfl⟩
  · exact (@resolve_numbers_postorder [] 4294967291 nestedNames #[] (by decide) hp).2.1
      (by rw [hlen]; decide)

end Letrec
