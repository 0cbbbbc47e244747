import Mathlib
import Letrec.Proofs.Scope.Groups

/-!
# Free names

The names that an expression takes from outside.  In a well-scoped expression a free name stands for
the same thing at each of its free occurrences, namely for what it denotes in the scope of the
expression (`Free.exists_ident`), and a name that a binder of the expression catches denotes what
that binder says (`lookup_function`, `lookup_group_of_mem`).
-/

namespace Letrec

variable {α : Type}

/-- The names that parameters bind. -/
def boundParams (ps : List (Ident α)) : List String :=
  (ps.filter fun p => !isDiscard p.name).map Ident.name

/-- A name occurs in an expression and none of the binders around the occurrence catches it. -/
inductive Expr.Free (x : String) : Expr α → Prop
  | ident {i} : i.name = x → Free x (.ident i)
  | lam {ps b a} : Free x b → x ∉ boundParams ps → Free x (.lam ps b a)
  | fn {f e a} : Free x f → Free x (.call f e a)
  | arg {f e a} : Free x e → Free x (.call f e a)
  | cond {c p n a} : Free x c → Free x (.ite c p n a)
  | pos {c p n a} : Free x p → Free x (.ite c p n a)
  | neg {c p n a} : Free x n → Free x (.ite c p n a)
  | binding {ds b a} {d : Definition α} : d ∈ ds → Free x d.body → x ∉ boundParams d.params →
      x ∉ boundNames ds → Free x (.letIn ds b a)
  | body {ds b a} : Free x b → x ∉ boundNames ds → Free x (.letIn ds b a)

lemma mem_boundParams {ps : List (Ident α)} {x : String} :
    x ∈ boundParams ps ↔ x ∈ ps.map Ident.name ∧ isDiscard x = false := by
  simp only [boundParams, List.mem_map, List.mem_filter, Bool.not_eq_true']
  constructor
  · rintro ⟨p, ⟨hp, hd⟩, rfl⟩
    exact ⟨⟨p, hp, rfl⟩, hd⟩
  · rintro ⟨⟨p, hp, rfl⟩, hd⟩
    exact ⟨p, ⟨hp, hd⟩, rfl⟩

lemma notMem_boundParams_discard {ps : List (Ident α)} : discard ∉ boundParams ps := by
  intro h
  exact absurd (mem_boundParams.1 h).2 (by decide)

lemma mem_boundNames {ds : List (Definition α)} {x : String} :
    x ∈ boundNames ds ↔ ∃ d ∈ ds, d.name.name = x ∧ d.isDiscard = false := by
  simp only [boundNames, List.mem_map, List.mem_filter, Bool.not_eq_true']
  constructor
  · rintro ⟨d, ⟨hd, hdisc⟩, rfl⟩
    exact ⟨d, hd, rfl, hdisc⟩
  · rintro ⟨d, hd, rfl, hdisc⟩
    exact ⟨d, ⟨hd, hdisc⟩, rfl⟩

lemma notMem_boundNames_discard {ds : List (Definition α)} : discard ∉ boundNames ds := by
  intro h
  obtain ⟨d, -, hname, hdisc⟩ := mem_boundNames.1 h
  rw [Definition.isDiscard, hname] at hdisc
  exact absurd hdisc (by decide)

lemma Expr.Free.mem_names {x : String} {e : Expr α} (h : e.Free x) : x ∈ e.names := by
  induction h with
  | ident hi => simp [Expr.names, hi]
  | lam _ _ ih => exact List.mem_append_right _ ih
  | fn _ ih => exact List.mem_append_left _ ih
  | arg _ ih => exact List.mem_append_right _ ih
  | cond _ ih => exact List.mem_append_left _ (List.mem_append_left _ ih)
  | pos _ ih => exact List.mem_append_left _ (List.mem_append_right _ ih)
  | neg _ ih => exact List.mem_append_right _ ih
  | binding hd _ _ _ ih =>
    exact List.mem_append_left _
      (mem_namesOfDefs.2 ⟨_, hd, Or.inr (List.mem_append_right _ ih)⟩)
  | body _ _ ih => exact List.mem_append_right _ ih

/-! ### What binders catch -/

lemma name_mem_namesOfDefs {ds : List (Definition α)} {d : Definition α} (hd : d ∈ ds) :
    d.name.name ∈ namesOfDefs ds := mem_namesOfDefs.2 ⟨d, hd, Or.inl rfl⟩

lemma Expr.Free.mem_namesOfDefs {x : String} {ds : List (Definition α)} {d : Definition α}
    (hd : d ∈ ds) (h : d.body.Free x) : x ∈ namesOfDefs ds :=
  Letrec.mem_namesOfDefs.2 ⟨d, hd, Or.inr (List.mem_append_right _ h.mem_names)⟩

lemma lookup_paramEntries {ps : List (Ident α)} {x : String} :
    (paramEntries ps).lookup x = if x ∈ boundParams ps then some .parameter else none := by
  have hkeys : (paramEntries ps).map Prod.fst = boundParams ps := by
    unfold paramEntries boundParams
    rw [List.map_map]
    rfl
  split_ifs with hx
  · rw [← hkeys] at hx
    obtain ⟨e, he⟩ := lookup_isSome_of_mem hx
    have hmem := mem_of_lookup_eq_some he
    obtain ⟨p, -, hp⟩ := List.mem_map.1 hmem
    rw [he, ← (Prod.mk.inj hp).2]
  · rw [← hkeys] at hx
    exact lookup_eq_none_iff_notMem.2 hx

section Lookup

variable {t : ScopeTree} (ht : t.ParentsBefore) {s a : ScopeId} {x : String}

include ht

lemma lookup_lambda {ps : List (Ident Scoped)} (ha : t.scopes[a]? = some (lambdaScope s ps)) :
    t.lookup a x = if x ∈ boundParams ps then some .parameter else t.lookup s x := by
  rw [t.lookup_eq ht ha]
  show ((paramEntries ps).lookup x).or (t.lookup s x) = _
  rw [lookup_paramEntries]
  split_ifs <;> rfl

lemma lookup_function {id : DispatchId} {ps : List (Ident Scoped)}
    (ha : t.scopes[a]? = some (functionScope s id ps)) :
    t.lookup a x = if x ∈ boundParams ps then some .parameter else t.lookup s x := by
  rw [t.lookup_eq ht ha]
  show ((paramEntries ps).lookup x).or (t.lookup s x) = _
  rw [lookup_paramEntries]
  split_ifs <;> rfl

variable {kind : ScopeKind} {ids : List DispatchId} {ds : List (Definition Scoped)}
  (hdecl : DeclaredIn t kind s a ids ds)

include hdecl

lemma lookup_group_of_notMem (hlen : ids.length = ds.length) (hx : x ∉ boundNames ds) :
    t.lookup a x = t.lookup s x := by
  have hnone : (groupEntries ids ds).lookup x = none := by
    rw [lookup_eq_none_iff_notMem, map_fst_groupEntries hlen]
    exact hx
  rw [t.lookup_eq ht hdecl.scope]
  show ((groupEntries ids ds).lookup x).or (t.lookup s x) = _
  rw [hnone, Option.none_or]

lemma lookup_group_of_mem (hlen : ids.length = ds.length) {id : DispatchId}
    {d : Definition Scoped} (hd : (id, d) ∈ ids.zip ds) (hdisc : d.isDiscard = false) :
    t.lookup a d.name.name = some (.binding id) := by
  have hmem : (d.name.name, Entry.binding id) ∈ groupEntries ids ds :=
    mem_groupEntries.2 ⟨id, d, rfl, hd, rfl, hdisc⟩
  have hnodup : ((groupEntries ids ds).map Prod.fst).Nodup := by
    rw [map_fst_groupEntries hlen]
    exact hdecl.nodup
  rw [t.lookup_eq ht hdecl.scope]
  show ((groupEntries ids ds).lookup d.name.name).or (t.lookup s d.name.name) = _
  rw [lookup_eq_some_of_mem hnodup hmem, Option.some_or]

/-- A name denotes a definition of the grouping, or what it denotes outside of it. -/
lemma lookup_group_cases (hlen : ids.length = ds.length) (x : String) :
    (x ∉ boundNames ds ∧ t.lookup a x = t.lookup s x) ∨
    ∃ id d, (id, d) ∈ ids.zip ds ∧ d.name.name = x ∧ d.isDiscard = false ∧
      t.lookup a x = some (.binding id) := by
  by_cases hx : x ∈ boundNames ds
  · obtain ⟨d, hd, rfl, hdisc⟩ := mem_boundNames.1 hx
    obtain ⟨id, hid⟩ := exists_mem_zip_of_mem_right hlen hd
    exact Or.inr ⟨id, d, hid, rfl, hdisc, lookup_group_of_mem ht hdecl hlen hid hdisc⟩
  · exact Or.inl ⟨hx, lookup_group_of_notMem ht hdecl hlen hx⟩

end Lookup

/-! ### Free occurrences -/

/-- A free name occurs somewhere, with the meaning that it has in the scope of the expression. -/
lemma Expr.Free.exists_ident {t : ScopeTree} (ht : t.ParentsBefore) {x : String} {e : Expr Scoped}
    (hx : e.Free x) {s : ScopeId} (hs : e.WellScoped t s) :
    ∃ i, (Expr.ident i).Within e ∧ i.name = x ∧ t.lookup i.ann.scope x = t.lookup s x := by
  induction hx generalizing s with
  | ident hi =>
    rw [Expr.WellScoped] at hs
    exact ⟨_, .refl, hi, by rw [hs]⟩
  | lam _ hx ih =>
    rw [Expr.WellScoped] at hs
    obtain ⟨i, hi, hname, hlookup⟩ := ih hs.2.2
    rw [lookup_lambda ht hs.2.1, if_neg hx] at hlookup
    exact ⟨i, .lam hi, hname, hlookup⟩
  | fn _ ih =>
    rw [Expr.WellScoped] at hs
    obtain ⟨i, hi, hrest⟩ := ih hs.2.1
    exact ⟨i, .fn hi, hrest⟩
  | arg _ ih =>
    rw [Expr.WellScoped] at hs
    obtain ⟨i, hi, hrest⟩ := ih hs.2.2
    exact ⟨i, .arg hi, hrest⟩
  | cond _ ih =>
    rw [Expr.WellScoped] at hs
    obtain ⟨i, hi, hrest⟩ := ih hs.2.1
    exact ⟨i, .cond hi, hrest⟩
  | pos _ ih =>
    rw [Expr.WellScoped] at hs
    obtain ⟨i, hi, hrest⟩ := ih hs.2.2.1
    exact ⟨i, .pos hi, hrest⟩
  | neg _ ih =>
    rw [Expr.WellScoped] at hs
    obtain ⟨i, hi, hrest⟩ := ih hs.2.2.2
    exact ⟨i, .neg hi, hrest⟩
  | binding hd _ hparams hx ih =>
    rw [Expr.WellScoped] at hs
    obtain ⟨ids, hdecl, hdefs, -⟩ := hs
    obtain ⟨id, hid⟩ := exists_mem_zip_of_mem_right hdefs.length hd
    have hdef := hdefs.of_mem_zip hid
    obtain ⟨i, hi, hname, hlookup⟩ := ih hdef.body
    rw [lookup_function ht hdef.scope, if_neg hparams,
      lookup_group_of_notMem ht hdecl hdefs.length hx] at hlookup
    exact ⟨i, .binding hd hi, hname, hlookup⟩
  | body _ hx ih =>
    rw [Expr.WellScoped] at hs
    obtain ⟨ids, hdecl, hdefs, hb⟩ := hs
    obtain ⟨i, hi, hname, hlookup⟩ := ih hb
    rw [lookup_group_of_notMem ht hdecl hdefs.length hx] at hlookup
    exact ⟨i, .body hi, hname, hlookup⟩

end Letrec
