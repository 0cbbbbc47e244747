import Mathlib
import Letrec.Proofs.Recursion
import Letrec.Proofs.Scope.Free

/-!
# Recursion by name

Classification looks at what the identifiers of a definition denote.  In a well-scoped program it
could as well look at the names that are free in the definition: a definition mentions another one
of its grouping just if the name of that one is free in it (`mentions_iff`).  The flags of a
definition then depend on nothing but the names and the bodies of its grouping (`flags_by_name`),
whatever the numbers of the definitions are and wherever the grouping stands.
-/

namespace Letrec

variable {α : Type}

/-- The definition takes the name from outside. -/
def Definition.Free (x : String) (d : Definition α) : Prop :=
  d.body.Free x ∧ x ∉ boundParams d.params

/-- A definition called `x` of the grouping takes from outside the name `y`, which the grouping
binds. -/
def Uses (ds : List (Definition α)) (x y : String) : Prop :=
  ∃ d ∈ ds, d.name.name = x ∧ d.Free y ∧ y ∈ boundNames ds

/-! ### What identifiers denote -/

/-- An identifier of an expression is free in it, or it denotes a parameter or a definition of a
grouping inside of the expression. -/
lemma Expr.WellScoped.ident_cases {t : ScopeTree} (ht : t.ParentsBefore) {i : Ident Scoped}
    {e : Expr Scoped} (hi : (Expr.ident i).Within e) {s : ScopeId} (hs : e.WellScoped t s) :
    (e.Free i.name ∧ t.lookup i.ann.scope i.name = t.lookup s i.name) ∨
    t.lookup i.ann.scope i.name = some .parameter ∨
    ∃ g ids ds id d, Group t g ids ds ∧ s < g ∧ (id, d) ∈ ids.zip ds ∧
      t.lookup i.ann.scope i.name = some (.binding id) := by
  induction hi generalizing s with
  | refl =>
    rw [Expr.WellScoped] at hs
    exact Or.inl ⟨.ident rfl, by rw [hs]⟩
  | lam _ ih =>
    rw [Expr.WellScoped] at hs
    have hlt := ht _ _ s hs.2.1 rfl
    rcases ih hs.2.2 with ⟨hfree, hlookup⟩ | hparam | ⟨g, ids, ds, id, d, hg, hlt', hrest⟩
    · rw [lookup_lambda ht hs.2.1] at hlookup
      split_ifs at hlookup with hbound
      · exact Or.inr (Or.inl hlookup)
      · exact Or.inl ⟨.lam hfree hbound, hlookup⟩
    · exact Or.inr (Or.inl hparam)
    · exact Or.inr (Or.inr ⟨g, ids, ds, id, d, hg, hlt.trans hlt', hrest⟩)
  | fn _ ih =>
    rw [Expr.WellScoped] at hs
    exact (ih hs.2.1).imp_left fun h => ⟨.fn h.1, h.2⟩
  | arg _ ih =>
    rw [Expr.WellScoped] at hs
    exact (ih hs.2.2).imp_left fun h => ⟨.arg h.1, h.2⟩
  | cond _ ih =>
    rw [Expr.WellScoped] at hs
    exact (ih hs.2.1).imp_left fun h => ⟨.cond h.1, h.2⟩
  | pos _ ih =>
    rw [Expr.WellScoped] at hs
    exact (ih hs.2.2.1).imp_left fun h => ⟨.pos h.1, h.2⟩
  | neg _ ih =>
    rw [Expr.WellScoped] at hs
    exact (ih hs.2.2.2).imp_left fun h => ⟨.neg h.1, h.2⟩
  | @binding ds b a d hd _ ih =>
    rw [Expr.WellScoped] at hs
    obtain ⟨ids, hdecl, hdefs, -⟩ := hs
    obtain ⟨id, hid⟩ := exists_mem_zip_of_mem_right hdefs.length hd
    have hdef := hdefs.of_mem_zip hid
    have hlt : s < a.scope := ht _ _ s hdecl.scope rfl
    have hlt' : a.scope < d.ann.scope := ht _ _ _ hdef.scope rfl
    rcases ih hdef.body with ⟨hfree, hlookup⟩ | hparam | ⟨g, ids', ds', id', d', hg, hlt'', hrest⟩
    · rw [lookup_function ht hdef.scope] at hlookup
      split_ifs at hlookup with hbound
      · exact Or.inr (Or.inl hlookup)
      · rcases lookup_group_cases ht hdecl hdefs.length i.name with
          ⟨hname, heq⟩ | ⟨id', d', hid', -, -, heq⟩
        · exact Or.inl ⟨.binding hd hfree hbound hname, hlookup.trans heq⟩
        · exact Or.inr (Or.inr
            ⟨a.scope, ids, ds, id', d', ⟨⟨_, _, hdecl⟩, hdefs⟩, hlt, hid', hlookup.trans heq⟩)
    · exact Or.inr (Or.inl hparam)
    · exact Or.inr (Or.inr ⟨g, ids', ds', id', d', hg, (hlt.trans hlt').trans hlt'', hrest⟩)
  | @body ds b a _ ih =>
    rw [Expr.WellScoped] at hs
    obtain ⟨ids, hdecl, hdefs, hb⟩ := hs
    have hlt : s < a.scope := ht _ _ s hdecl.scope rfl
    rcases ih hb with ⟨hfree, hlookup⟩ | hparam | ⟨g, ids', ds', id', d', hg, hlt', hrest⟩
    · rcases lookup_group_cases ht hdecl hdefs.length i.name with
        ⟨hname, heq⟩ | ⟨id', d', hid', -, -, heq⟩
      · exact Or.inl ⟨.body hfree hname, hlookup.trans heq⟩
      · exact Or.inr (Or.inr
          ⟨a.scope, ids, ds, id', d', ⟨⟨_, _, hdecl⟩, hdefs⟩, hlt, hid', hlookup.trans heq⟩)
    · exact Or.inr (Or.inl hparam)
    · exact Or.inr (Or.inr ⟨g, ids', ds', id', d', hg, hlt.trans hlt', hrest⟩)

namespace Resolution.WellScoped

variable {names : List String} {r : Resolution} {ids₀ ids : List DispatchId} {g : ScopeId}
  {ds : List (Definition Scoped)} (hr : r.WellScoped names ids₀) (hg : Group r.tree g ids ds)
  {id id' : DispatchId} {d d' : Definition Scoped} (hd : (id, d) ∈ ids.zip ds)
  (hd' : (id', d') ∈ ids.zip ds)

include hr hg hd hd'

/-- A definition mentions another one of its grouping if the name of that one is free in it. -/
lemma mentions_iff : r.tree.Mentions d id' ↔ d'.isDiscard = false ∧ d.Free d'.name.name := by
  obtain ⟨kind, s, hdecl⟩ := hg.declared
  have hdef := hg.defs.of_mem_zip hd
  constructor
  · intro h
    refine ⟨hr.isDiscard_of_mentions hg hd' h, ?_⟩
    obtain ⟨i, hi, hlookup⟩ := h
    rcases hdef.body.ident_cases hr.parents hi with
      ⟨hfree, heq⟩ | hparam | ⟨g', ids', ds', id'', d'', hg', hlt, hd'', hlookup'⟩
    · rw [hlookup, lookup_function hr.parents hdef.scope] at heq
      have hbound : i.name ∉ boundParams d.params := by
        intro hbound
        rw [if_pos hbound] at heq
        exact absurd heq (by simp)
      rw [if_neg hbound] at heq
      rcases lookup_group_cases hr.parents hdecl hg.length i.name with
        ⟨-, heq'⟩ | ⟨id₁, d₁, hid₁, hname, -, heq'⟩
      · rw [heq'] at heq
        exact absurd (List.of_mem_zip hd').1 (hr.notMem_of_lookup_outside hdecl hg heq.symm)
      · obtain rfl := Entry.binding.inj (Option.some.inj (heq.trans heq'))
        obtain rfl := hg.eq_of_mem_zip hd' hid₁
        rw [hname]
        exact ⟨hfree, hbound⟩
    · exact absurd (hlookup.symm.trans hparam) (by simp)
    · -- the definitions of a grouping inside have other numbers
      obtain rfl := Entry.binding.inj (Option.some.inj (hlookup.symm.trans hlookup'))
      obtain ⟨rfl, -⟩ := hg.unique hg' hd' hd''
      have hlt' : g < d.ann.scope := hr.parents _ _ _ hdef.scope rfl
      exact absurd (hlt.trans hlt') (lt_irrefl _)
  · rintro ⟨hdisc, hfree, hbound⟩
    obtain ⟨i, hi, hname, hlookup⟩ := hfree.exists_ident hr.parents hdef.body
    refine ⟨i, hi, ?_⟩
    rw [hname, hlookup, lookup_function hr.parents hdef.scope, if_neg hbound,
      lookup_group_of_mem hr.parents hdecl hg.length hd' hdisc]

omit hr hd hd' in
/-- The definitions of a grouping that bind a name are told apart by it. -/
lemma eq_of_name (hmem : d ∈ ds) (hmem' : d' ∈ ds) (hdisc : d.isDiscard = false)
    (hname : d.name.name = d'.name.name) : d = d' := by
  obtain ⟨kind, s, hdecl⟩ := hg.declared
  have hdisc' : d'.isDiscard = false := by rwa [Definition.isDiscard, ← hname]
  refine List.inj_on_of_nodup_map hdecl.nodup (List.mem_filter.2 ⟨hmem, ?_⟩)
    (List.mem_filter.2 ⟨hmem', ?_⟩) hname
  · simp [hdisc]
  · simp [hdisc']

omit hr in
/-- So are their numbers. -/
lemma number_eq_of_name (hdisc : d.isDiscard = false) (hname : d.name.name = d'.name.name) :
    id = id' := by
  have hmem := (List.of_mem_zip hd).2
  obtain rfl := eq_of_name hg hmem (List.of_mem_zip hd').2 hdisc hname
  obtain ⟨b, hb, rfl⟩ := (hg.numbers_iff hmem).2 hd
  obtain ⟨b', hb', rfl⟩ := (hg.numbers_iff hmem).2 hd'
  rw [Option.some.inj (hb.symm.trans hb')]

omit hd hd' in
lemma refersWithin_iff {a b : DispatchId} : r.tree.RefersWithin ds a b ↔
    ∃ d d', (a, d) ∈ ids.zip ds ∧ (b, d') ∈ ids.zip ds ∧ d'.isDiscard = false ∧
      d.Free d'.name.name := by
  constructor
  · rintro ⟨d, hd, d', hd', ha, hb, hm⟩
    have ha' := (hg.numbers_iff hd).1 ha
    have hb' := (hg.numbers_iff hd').1 hb
    exact ⟨d, d', ha', hb', (hr.mentions_iff hg ha' hb').1 hm⟩
  · rintro ⟨d, d', ha, hb, hfree⟩
    have hmem := (List.of_mem_zip ha).2
    have hmem' := (List.of_mem_zip hb).2
    exact ⟨d, hmem, d', hmem', (hg.numbers_iff hmem).2 ha, (hg.numbers_iff hmem').2 hb,
      (hr.mentions_iff hg ha hb).2 hfree⟩

/-- References lead from one definition to another just as the names do. -/
lemma reaches_by_name (hdisc : d.isDiscard = false) :
    Relation.ReflTransGen (r.tree.RefersWithin ds) id id' ↔
      Relation.ReflTransGen (Uses ds) d.name.name d'.name.name := by
  constructor
  · intro h
    induction h using Relation.ReflTransGen.head_induction_on generalizing d with
    | refl => rw [hg.eq_of_mem_zip hd hd']
    | head hstep _ ih =>
      obtain ⟨d₁, d₂, hd₁, hd₂, hdisc₂, hfree⟩ := (hr.refersWithin_iff hg).1 hstep
      obtain rfl := hg.eq_of_mem_zip hd hd₁
      have hbound : d₂.name.name ∈ boundNames ds :=
        mem_boundNames.2 ⟨d₂, (List.of_mem_zip hd₂).2, rfl, hdisc₂⟩
      exact .head ⟨d, (List.of_mem_zip hd).2, rfl, hfree, hbound⟩ (ih hd₂ hdisc₂)
  · intro h
    generalize hx : d.name.name = x at h
    induction h using Relation.ReflTransGen.head_induction_on generalizing d id with
    | refl => rw [number_eq_of_name hg hd hd' hdisc hx]
    | head hstep _ ih =>
      obtain ⟨d₁, hd₁, hname, hfree, hbound⟩ := hstep
      obtain rfl := eq_of_name hg (List.of_mem_zip hd).2 hd₁ hdisc (hx.trans hname.symm)
      obtain ⟨d₂, hd₂, hname₂, hdisc₂⟩ := mem_boundNames.1 hbound
      obtain ⟨id₂, hid₂⟩ := exists_mem_zip_of_mem_right hg.length hd₂
      refine .head ((hr.refersWithin_iff hg).2 ⟨d, d₂, hd, hid₂, hdisc₂, ?_⟩)
        (ih hid₂ hdisc₂ hname₂)
      rwa [hname₂]

omit hd' in
/-- The flags of a definition that binds a name, by the free names of the grouping. -/
lemma flags_by_name (hmem : (g, ds) ∈ r.program.groups) (hdisc : d.isDiscard = false) :
    ((r.classify.flags id).selfRecursive = true ↔ d.Free d.name.name) ∧
    ((r.classify.flags id).mutuallyRecursive = true ↔ ∃ y ∈ boundNames ds, y ≠ d.name.name ∧
      Relation.ReflTransGen (Uses ds) d.name.name y ∧
      Relation.ReflTransGen (Uses ds) y d.name.name) := by
  constructor
  · rw [hr.selfRecursive_iff hmem hg hd, hr.mentions_iff hg hd hd]
    exact and_iff_right hdisc
  · rw [hr.mutuallyRecursive_iff hmem hg hd]
    constructor
    · rintro ⟨id', d', hd', hnum, hne, hto, hback⟩
      have hid' := (hg.numbers_iff hd').1 hnum
      -- the way back leads to the definition, so the way there does not end with a discarded one
      have hdisc' : d'.isDiscard = false := by
        rcases Relation.ReflTransGen.cases_tail hto with heq | ⟨c, -, hlast⟩
        · exact absurd heq.symm hne.symm
        · obtain ⟨d₁, d₂, -, hd₂, hdisc₂, -⟩ := (hr.refersWithin_iff hg).1 hlast
          rwa [hg.eq_of_mem_zip hid' hd₂]
      refine ⟨d'.name.name, mem_boundNames.2 ⟨d', hd', rfl, hdisc'⟩, fun heq => hne ?_,
        (hr.reaches_by_name hg hd hid' hdisc).1 hto,
        (hr.reaches_by_name hg hid' hd hdisc').1 hback⟩
      obtain rfl := eq_of_name hg (List.of_mem_zip hd).2 hd' hdisc heq.symm
      obtain ⟨b, hb, rfl⟩ := hnum
      obtain ⟨b', hb', rfl⟩ := (hg.numbers_iff hd').2 hd
      rw [Option.some.inj (hb.symm.trans hb')]
    · rintro ⟨y, hy, hne, hto, hback⟩
      obtain ⟨d', hd', rfl, hdisc'⟩ := mem_boundNames.1 hy
      obtain ⟨id', hid'⟩ := exists_mem_zip_of_mem_right hg.length hd'
      refine ⟨id', d', hd', (hg.numbers_iff hd').2 hid', fun heq => hne ?_,
        (hr.reaches_by_name hg hd hid' hdisc).2 hto,
        (hr.reaches_by_name hg hid' hd hdisc').2 hback⟩
      subst heq
      rw [hg.eq_of_mem_zip hid' hd]

end Resolution.WellScoped

end Letrec
