import Mathlib
import Letrec.Proofs.Expr
import Letrec.Proofs.Scope.Resolution

/-!
# The groupings of a program

A grouping is the list of definitions of the program, or of a `let` block at any depth.
`Expr.Within` says that one expression occurs in another, at any depth; the groupings of a program
are found with it (`Program.IsGroup`), and so are the identifiers of a definition.

In a well-scoped program every grouping has a scope and numbers of its own: the number of a
definition tells its grouping (`Group.unique`), and a name denotes a definition only through the
scope of its grouping (`lookup_eq_binding`).
-/

namespace Letrec

variable {α : Type}

/-! ### Occurrences -/

/-- An expression occurs in another one, at any depth. -/
inductive Expr.Within (e : Expr α) : Expr α → Prop
  | refl : Within e e
  | lam {ps b a} : Within e b → Within e (.lam ps b a)
  | fn {f x a} : Within e f → Within e (.call f x a)
  | arg {f x a} : Within e x → Within e (.call f x a)
  | cond {c p n a} : Within e c → Within e (.ite c p n a)
  | pos {c p n a} : Within e p → Within e (.ite c p n a)
  | neg {c p n a} : Within e n → Within e (.ite c p n a)
  | binding {ds b a} {d : Definition α} : d ∈ ds → Within e d.body → Within e (.letIn ds b a)
  | body {ds b a} : Within e b → Within e (.letIn ds b a)

namespace Expr

section Inversion

variable {e : Expr α} {a : α}

lemma within_ident {i : Ident α} : e.Within (.ident i) ↔ e = .ident i := by
  constructor
  · intro h
    cases h
    rfl
  · rintro rfl
    exact .refl

lemma within_int {v : Int64} : e.Within (.int v a) ↔ e = .int v a := by
  constructor
  · intro h
    cases h
    rfl
  · rintro rfl
    exact .refl

lemma within_lam {ps : List (Ident α)} {b : Expr α} :
    e.Within (.lam ps b a) ↔ e = .lam ps b a ∨ e.Within b := by
  constructor
  · intro h
    cases h with
    | refl => exact Or.inl rfl
    | lam h => exact Or.inr h
  · rintro (rfl | h)
    · exact .refl
    · exact .lam h

lemma within_call {f x : Expr α} :
    e.Within (.call f x a) ↔ e = .call f x a ∨ e.Within f ∨ e.Within x := by
  constructor
  · intro h
    cases h with
    | refl => exact Or.inl rfl
    | fn h => exact Or.inr (Or.inl h)
    | arg h => exact Or.inr (Or.inr h)
  · rintro (rfl | h | h)
    · exact .refl
    · exact .fn h
    · exact .arg h

lemma within_ite {c p n : Expr α} :
    e.Within (.ite c p n a) ↔ e = .ite c p n a ∨ e.Within c ∨ e.Within p ∨ e.Within n := by
  constructor
  · intro h
    cases h with
    | refl => exact Or.inl rfl
    | cond h => exact Or.inr (Or.inl h)
    | pos h => exact Or.inr (Or.inr (Or.inl h))
    | neg h => exact Or.inr (Or.inr (Or.inr h))
  · rintro (rfl | h | h | h)
    · exact .refl
    · exact .cond h
    · exact .pos h
    · exact .neg h

lemma within_letIn {ds : List (Definition α)} {b : Expr α} : e.Within (.letIn ds b a) ↔
    e = .letIn ds b a ∨ (∃ d ∈ ds, e.Within d.body) ∨ e.Within b := by
  constructor
  · intro h
    cases h with
    | refl => exact Or.inl rfl
    | binding hd h => exact Or.inr (Or.inl ⟨_, hd, h⟩)
    | body h => exact Or.inr (Or.inr h)
  · rintro (rfl | ⟨d, hd, h⟩ | h)
    · exact .refl
    · exact .binding hd h
    · exact .body h

end Inversion

end Expr

lemma mem_identsOfDefs {i : Ident α} {ds : List (Definition α)} :
    i ∈ identsOfDefs ds ↔ ∃ d ∈ ds, i ∈ d.body.idents := by
  induction ds with
  | nil => simp [identsOfDefs]
  | cons d ds ih =>
    obtain ⟨n, ps, b, a⟩ := d
    rw [identsOfDefs, List.mem_append, ih, List.exists_mem_cons_iff]

lemma Expr.mem_idents_iff (i : Ident α) (e : Expr α) : i ∈ e.idents ↔ (Expr.ident i).Within e := by
  induction e using Expr.induction with
  | ident j => rw [idents, List.mem_singleton, within_ident, Expr.ident.injEq]
  | int v a => simp [idents, within_int]
  | lam ps b a ih => simp [idents, within_lam, ih]
  | call f x a ihf ihx => simp [idents, within_call, ihf, ihx]
  | ite c p n a ihc ihp ihn => simp [idents, within_ite, ihc, ihp, ihn]
  | letIn ds b a ihds ihb =>
    have hdefs : (∃ d ∈ ds, i ∈ d.body.idents) ↔ ∃ d ∈ ds, (Expr.ident i).Within d.body :=
      exists_congr fun d => and_congr_right (ihds d)
    simp [idents, within_letIn, mem_identsOfDefs, hdefs, ihb]

/-! ### Groupings -/

mutual

/-- The groupings inside an expression with their scopes, outer ones first. -/
def Expr.groups : Expr Scoped → List (ScopeId × List (Definition Scoped))
  | .ident _ | .int _ _ => []
  | .lam _ b _ => b.groups
  | .call f x _ => f.groups ++ x.groups
  | .ite c p n _ => c.groups ++ p.groups ++ n.groups
  | .letIn ds b a => (a.scope, ds) :: groupsOfDefs ds ++ b.groups

/-- The groupings inside the bodies of a list of definitions, outer ones first. -/
def groupsOfDefs : List (Definition Scoped) → List (ScopeId × List (Definition Scoped))
  | [] => []
  | ⟨_, _, b, _⟩ :: ds => b.groups ++ groupsOfDefs ds

end

/-- All groupings of a program with their scopes, outer ones first. -/
def Program.groups (p : Program Scoped) : List (ScopeId × List (Definition Scoped)) :=
  (p.ann.scope, p.defs) :: groupsOfDefs p.defs

/-- The definitions `ds` are those of the program, or of a `let` block somewhere in it, with the
scope `s`. -/
def Program.IsGroup (p : Program Scoped) (s : ScopeId) (ds : List (Definition Scoped)) : Prop :=
  (s = p.ann.scope ∧ ds = p.defs) ∨
    ∃ d ∈ p.defs, ∃ b a, a.scope = s ∧ (Expr.letIn ds b a).Within d.body

lemma mem_groupsOfDefs {q : ScopeId × List (Definition Scoped)} {ds : List (Definition Scoped)} :
    q ∈ groupsOfDefs ds ↔ ∃ d ∈ ds, q ∈ d.body.groups := by
  induction ds with
  | nil => simp [groupsOfDefs]
  | cons d ds ih =>
    obtain ⟨n, ps, b, a⟩ := d
    rw [groupsOfDefs, List.mem_append, ih, List.exists_mem_cons_iff]

lemma Expr.mem_groups_iff (s : ScopeId) (ds : List (Definition Scoped)) (e : Expr Scoped) :
    (s, ds) ∈ e.groups ↔ ∃ b a, a.scope = s ∧ (Expr.letIn ds b a).Within e := by
  induction e using Expr.induction with
  | ident j => simp [groups, within_ident]
  | int v a => simp [groups, within_int]
  | lam ps b a ih => simp [groups, within_lam, ih]
  | call f x a ihf ihx => simp [groups, within_call, ihf, ihx, and_or_left, exists_or]
  | ite c p n a ihc ihp ihn =>
    simp [groups, within_ite, ihc, ihp, ihn, and_or_left, exists_or]
  | letIn ds' b a ihds ihb =>
    have hself : (∃ b' a' : _, a'.scope = s ∧ Expr.letIn ds b' a' = .letIn ds' b a) ↔
        (s, ds) = (a.scope, ds') := by
      constructor
      · rintro ⟨b', a', rfl, heq⟩
        obtain ⟨rfl, rfl, rfl⟩ := Expr.letIn.inj heq
        rfl
      · intro heq
        obtain ⟨rfl, rfl⟩ := Prod.mk.inj heq
        exact ⟨b, a, rfl, rfl⟩
    have hdefs : (∃ d ∈ ds', (s, ds) ∈ d.body.groups) ↔
        ∃ b' a' : _, a'.scope = s ∧ ∃ d ∈ ds', (Expr.letIn ds b' a').Within d.body := by
      constructor
      · rintro ⟨d, hd, hmem⟩
        obtain ⟨b', a', ha, h⟩ := (ihds d hd).1 hmem
        exact ⟨b', a', ha, d, hd, h⟩
      · rintro ⟨b', a', ha, d, hd, h⟩
        exact ⟨d, hd, (ihds d hd).2 ⟨b', a', ha, h⟩⟩
    rw [groups, List.cons_append, List.mem_cons, List.mem_append, mem_groupsOfDefs, ihb, hdefs,
      ← hself]
    simp only [within_letIn, and_or_left, exists_or]

lemma Program.mem_groups_iff (p : Program Scoped) (s : ScopeId) (ds : List (Definition Scoped)) :
    (s, ds) ∈ p.groups ↔ p.IsGroup s ds := by
  simp only [Program.groups, List.mem_cons, Prod.mk.injEq, mem_groupsOfDefs, Expr.mem_groups_iff,
    Program.IsGroup]

/-! ### Well-scoped groupings -/

/-- The scope `g` holds the definitions `ds`, numbered `ids`. -/
structure Group (t : ScopeTree) (g : ScopeId) (ids : List DispatchId)
    (ds : List (Definition Scoped)) : Prop where
  declared : ∃ kind s, DeclaredIn t kind s g ids ds
  defs : DefsWellScoped t g ids ds

namespace Group

variable {t : ScopeTree} {g g' : ScopeId} {ids ids' : List DispatchId}
  {ds ds' : List (Definition Scoped)}

lemma length (h : Group t g ids ds) : ids.length = ds.length := h.defs.length

lemma nodup (h : Group t g ids ds) : ids.Nodup := by
  obtain ⟨kind, s, hd⟩ := h.declared
  exact hd.sorted.imp fun h => h.ne

end Group

/-- Every number of a grouping has its definition. -/
lemma exists_mem_zip_of_mem_left {β γ : Type*} {l : List β} {l' : List γ}
    (hlen : l.length = l'.length) {a : β} (h : a ∈ l) : ∃ b, (a, b) ∈ l.zip l' := by
  obtain ⟨i, hi, rfl⟩ := List.getElem_of_mem h
  exact ⟨l'[i], List.mem_iff_getElem.2 ⟨i, by simp; omega, by simp⟩⟩

lemma exists_mem_zip_of_mem_right {β γ : Type*} {l : List β} {l' : List γ}
    (hlen : l.length = l'.length) {b : γ} (h : b ∈ l') : ∃ a, (a, b) ∈ l.zip l' := by
  obtain ⟨i, hi, rfl⟩ := List.getElem_of_mem h
  exact ⟨l[i], List.mem_iff_getElem.2 ⟨i, by simp; omega, by simp⟩⟩

/-- The groupings of the bodies are well-scoped if this is known of every body. -/
lemma DefsWellScoped.group_of_body {t : ScopeTree} {g g' : ScopeId}
    {ds ds' : List (Definition Scoped)} {ids' : List DispatchId} (h : DefsWellScoped t g' ids' ds')
    (hg : (g, ds) ∈ groupsOfDefs ds')
    (hbody : ∀ d ∈ ds', ∀ s, d.body.WellScoped t s → (g, ds) ∈ d.body.groups →
      ∃ ids, Group t g ids ds) : ∃ ids, Group t g ids ds := by
  obtain ⟨d, hd, hg⟩ := mem_groupsOfDefs.1 hg
  obtain ⟨id, hid⟩ := exists_mem_zip_of_mem_right h.length hd
  exact hbody d hd _ (h.of_mem_zip hid).body hg

lemma Expr.WellScoped.group {t : ScopeTree} {g s : ScopeId} {ds : List (Definition Scoped)}
    {e : Expr Scoped} (h : e.WellScoped t s) (hg : (g, ds) ∈ e.groups) :
    ∃ ids, Group t g ids ds := by
  induction e using Expr.induction generalizing s with
  | ident i => exact absurd hg (by simp [Expr.groups])
  | int v a => exact absurd hg (by simp [Expr.groups])
  | lam ps b a ih =>
    rw [Expr.WellScoped] at h
    exact ih h.2.2 hg
  | call f x a ihf ihx =>
    rw [Expr.WellScoped] at h
    rcases List.mem_append.1 hg with hg | hg
    · exact ihf h.2.1 hg
    · exact ihx h.2.2 hg
  | ite c p n a ihc ihp ihn =>
    rw [Expr.WellScoped] at h
    rw [Expr.groups, List.append_assoc] at hg
    rcases List.mem_append.1 hg with hg | hg
    · exact ihc h.2.1 hg
    · rcases List.mem_append.1 hg with hg | hg
      · exact ihp h.2.2.1 hg
      · exact ihn h.2.2.2 hg
  | letIn ds' b a ihds ihb =>
    rw [Expr.WellScoped] at h
    rw [Expr.groups, List.cons_append] at hg
    obtain ⟨ids, hdecl, hdefs, hb⟩ := h
    rcases List.mem_cons.1 hg with heq | hg
    · obtain ⟨rfl, rfl⟩ := Prod.mk.inj heq
      exact ⟨ids, ⟨_, _, hdecl⟩, hdefs⟩
    · rcases List.mem_append.1 hg with hg | hg
      · exact hdefs.group_of_body hg fun d hd s hs => ihds d hd hs
      · exact ihb hb hg

lemma DefsWellScoped.group {t : ScopeTree} {g g' : ScopeId} {ds ds' : List (Definition Scoped)}
    {ids' : List DispatchId} (h : DefsWellScoped t g' ids' ds') (hg : (g, ds) ∈ groupsOfDefs ds') :
    ∃ ids, Group t g ids ds := h.group_of_body hg fun _ _ _ hs => hs.group

mutual

lemma Expr.groups_sublist_opened : ∀ e : Expr Scoped,
    (e.groups.map Prod.fst).Sublist e.opened
  | .ident _ => by simp [Expr.groups, Expr.opened]
  | .int _ _ => by simp [Expr.groups, Expr.opened]
  | .lam ps b a => by
    rw [Expr.groups, Expr.opened]
    exact (b.groups_sublist_opened).cons _
  | .call f x a => by
    rw [Expr.groups, Expr.opened, List.map_append]
    exact f.groups_sublist_opened.append x.groups_sublist_opened
  | .ite c p n a => by
    rw [Expr.groups, Expr.opened, List.map_append, List.map_append]
    exact (c.groups_sublist_opened.append p.groups_sublist_opened).append n.groups_sublist_opened
  | .letIn ds b a => by
    rw [Expr.groups, Expr.opened, List.map_append, List.map_cons]
    exact ((groupsOfDefs_sublist_opened ds).cons_cons _).append b.groups_sublist_opened

lemma groupsOfDefs_sublist_opened : ∀ ds : List (Definition Scoped),
    ((groupsOfDefs ds).map Prod.fst).Sublist (openedByDefs ds)
  | [] => by simp [groupsOfDefs, openedByDefs]
  | ⟨n, ps, b, a⟩ :: ds => by
    rw [groupsOfDefs, openedByDefs, List.map_append]
    exact (b.groups_sublist_opened.append (groupsOfDefs_sublist_opened ds)).cons _

end

/-! ### What a number and a name denote -/

lemma Group.unique {t : ScopeTree} {g g' : ScopeId} {ids ids' : List DispatchId}
    {ds ds' : List (Definition Scoped)} (h : Group t g ids ds) (h' : Group t g' ids' ds')
    {id : DispatchId} {d d' : Definition Scoped} (hd : (id, d) ∈ ids.zip ds)
    (hd' : (id, d') ∈ ids'.zip ds') : g = g' ∧ d.name.name = d'.name.name := by
  have heq := (h.defs.of_mem_zip hd).binding.symm.trans (h'.defs.of_mem_zip hd').binding
  rw [Option.some.injEq, bindingOf, bindingOf, Binding.mk.injEq] at heq
  exact ⟨heq.2.2.1, heq.2.1⟩

lemma mem_groupEntries {ids : List DispatchId} {ds : List (Definition α)} {x : String}
    {e : Entry} : (x, e) ∈ groupEntries ids ds ↔
      ∃ id d, e = .binding id ∧ (id, d) ∈ ids.zip ds ∧ d.name.name = x ∧ d.isDiscard = false := by
  induction ids generalizing ds with
  | nil => simp [groupEntries]
  | cons id ids ih =>
    cases ds with
    | nil => simp [groupEntries]
    | cons d ds =>
      rw [groupEntries_cons, List.mem_append, ih, List.zip_cons_cons]
      constructor
      · rintro (h | ⟨id', d', he, hmem, hname, hdisc⟩)
        · rw [groupEntries] at h
          split_ifs at h with hdisc
          · simp [groupEntries] at h
          · obtain ⟨rfl, rfl⟩ := Prod.mk.inj (List.mem_singleton.1 h)
            exact ⟨id, d, rfl, by simp, rfl, by simpa using hdisc⟩
        · exact ⟨id', d', he, List.mem_cons_of_mem _ hmem, hname, hdisc⟩
      · rintro ⟨id', d', rfl, hmem, rfl, hdisc⟩
        rcases List.mem_cons.1 hmem with heq | hmem
        · obtain ⟨rfl, rfl⟩ := Prod.mk.inj heq
          left
          simp [groupEntries, hdisc]
        · exact Or.inr ⟨id', d', rfl, hmem, rfl, hdisc⟩

lemma lookup_paramEntries_ne_binding {ps : List (Ident α)} {x : String} {id : DispatchId} :
    (paramEntries ps).lookup x ≠ some (.binding id) := by
  intro h
  have hmem := mem_of_lookup_eq_some h
  simp [paramEntries] at hmem

mutual

lemma Expr.WellScoped.mem_groups_of_binding {t : ScopeTree} {k : ScopeId} {x : String}
    {id : DispatchId} (hx : t.entry? k x = some (.binding id)) :
    ∀ {e : Expr Scoped} {s : ScopeId}, e.WellScoped t s → k ∈ e.opened →
      k ∈ e.groups.map Prod.fst
  | .ident _, _, _, hk => by
    rw [Expr.opened] at hk
    exact absurd hk (by simp)
  | .int _ _, _, _, hk => by
    rw [Expr.opened] at hk
    exact absurd hk (by simp)
  | .lam ps b a, s, h, hk => by
    rw [Expr.WellScoped] at h
    rw [Expr.opened] at hk
    rw [Expr.groups]
    rcases List.mem_cons.1 hk with rfl | hk
    · -- the scope of an anonymous function binds parameters only
      rw [ScopeTree.entry_of_scope h.2.1] at hx
      exact absurd hx lookup_paramEntries_ne_binding
    · exact h.2.2.mem_groups_of_binding hx hk
  | .call f y a, s, h, hk => by
    rw [Expr.WellScoped] at h
    rw [Expr.opened] at hk
    rw [Expr.groups, List.map_append]
    rcases List.mem_append.1 hk with hk | hk
    · exact List.mem_append_left _ (h.2.1.mem_groups_of_binding hx hk)
    · exact List.mem_append_right _ (h.2.2.mem_groups_of_binding hx hk)
  | .ite c p n a, s, h, hk => by
    rw [Expr.WellScoped] at h
    rw [Expr.opened, List.append_assoc] at hk
    rw [Expr.groups, List.append_assoc, List.map_append, List.map_append]
    rcases List.mem_append.1 hk with hk | hk
    · exact List.mem_append_left _ (h.2.1.mem_groups_of_binding hx hk)
    · rcases List.mem_append.1 hk with hk | hk
      · exact List.mem_append_right _
          (List.mem_append_left _ (h.2.2.1.mem_groups_of_binding hx hk))
      · exact List.mem_append_right _
          (List.mem_append_right _ (h.2.2.2.mem_groups_of_binding hx hk))
  | .letIn ds b a, s, h, hk => by
    rw [Expr.WellScoped] at h
    rw [Expr.opened, List.cons_append] at hk
    rw [Expr.groups, List.cons_append, List.map_cons, List.map_append]
    obtain ⟨ids, -, hdefs, hb⟩ := h
    rcases List.mem_cons.1 hk with rfl | hk
    · exact List.mem_cons_self
    · rcases List.mem_append.1 hk with hk | hk
      · exact List.mem_cons_of_mem _
          (List.mem_append_left _ (hdefs.mem_groups_of_binding hx hk))
      · exact List.mem_cons_of_mem _ (List.mem_append_right _ (hb.mem_groups_of_binding hx hk))

lemma DefsWellScoped.mem_groups_of_binding {t : ScopeTree} {k : ScopeId} {x : String}
    {id : DispatchId} (hx : t.entry? k x = some (.binding id)) :
    ∀ {ds : List (Definition Scoped)} {g : ScopeId} {ids : List DispatchId},
      DefsWellScoped t g ids ds → k ∈ openedByDefs ds → k ∈ (groupsOfDefs ds).map Prod.fst
  | [], _, _, _, hk => by
    rw [openedByDefs] at hk
    exact absurd hk (by simp)
  | ⟨n, ps, b, a⟩ :: ds, g, [], h, _ => absurd h.length (by simp)
  | ⟨n, ps, b, a⟩ :: ds, g, id' :: ids, h, hk => by
    rw [DefsWellScoped] at h
    rw [openedByDefs, List.cons_append] at hk
    rw [groupsOfDefs, List.map_append]
    rcases List.mem_cons.1 hk with rfl | hk
    · rw [ScopeTree.entry_of_scope h.2.2.1] at hx
      exact absurd hx lookup_paramEntries_ne_binding
    · rcases List.mem_append.1 hk with hk | hk
      · exact List.mem_append_left _ (h.2.2.2.2.1.mem_groups_of_binding hx hk)
      · exact List.mem_append_right _ (h.2.2.2.2.2.mem_groups_of_binding hx hk)

end

namespace Resolution.WellScoped

variable {names : List String} {r : Resolution} {ids₀ : List DispatchId}
  (hr : r.WellScoped names ids₀)

include hr

lemma group {g : ScopeId} {ds : List (Definition Scoped)} (h : (g, ds) ∈ r.program.groups) :
    ∃ ids, Group r.tree g ids ds := by
  rcases List.mem_cons.1 h with heq | h
  · obtain ⟨rfl, rfl⟩ := Prod.mk.inj heq
    exact ⟨ids₀, ⟨_, _, hr.declared⟩, hr.defs⟩
  · exact hr.defs.group h

/-- Different groupings have different scopes. -/
lemma nodup_groups : (r.program.groups.map Prod.fst).Nodup := by
  have hsub : (r.program.groups.map Prod.fst).Sublist
      (r.program.ann.scope :: openedByDefs r.program.defs) :=
    (groupsOfDefs_sublist_opened r.program.defs).cons_cons _
  rw [hr.opened] at hsub
  exact hsub.nodup List.nodup_range'

/-- Only the scope of a grouping makes a name denote a definition. -/
lemma entry_eq_binding {k : ℕ} {x : String} {id : DispatchId}
    (h : r.tree.entry? k x = some (.binding id)) :
    ∃ ds ids d, (k, ds) ∈ r.program.groups ∧ Group r.tree k ids ds ∧ (id, d) ∈ ids.zip ds ∧
      d.name.name = x ∧ d.isDiscard = false := by
  obtain ⟨sc, hsc, hx⟩ := Option.bind_eq_some_iff.1 h
  have hk : k ∈ r.program.groups.map Prod.fst := by
    by_cases hk : k = ScopeTree.root
    · -- the root holds builtin names
      subst hk
      rw [hr.root, Option.some.injEq] at hsc
      subst hsc
      have hmem := mem_of_lookup_eq_some hx
      simp at hmem
    · have hlt : k < r.tree.scopes.size := (Array.getElem?_eq_some_iff.1 hsc).1
      have hmem : k ∈ r.program.ann.scope :: openedByDefs r.program.defs := by
        rw [hr.opened, List.mem_range'_1]
        have : 0 < k := Nat.pos_of_ne_zero hk
        omega
      rcases List.mem_cons.1 hmem with rfl | hmem
      · exact List.mem_cons_self
      · exact List.mem_cons_of_mem _ (hr.defs.mem_groups_of_binding h hmem)
  obtain ⟨⟨g, ds⟩, hmem, rfl⟩ := List.mem_map.1 hk
  obtain ⟨ids, hg⟩ := hr.group hmem
  obtain ⟨kind, s, hdecl⟩ := hg.declared
  rw [hdecl.scope, Option.some.injEq] at hsc
  subst hsc
  obtain ⟨id', d, he, hd, hname, hdisc⟩ := mem_groupEntries.1 (mem_of_lookup_eq_some hx)
  obtain rfl := Entry.binding.inj he
  exact ⟨ds, ids, d, hmem, hg, hd, hname, hdisc⟩

lemma lookup_eq_binding {k : ℕ} {x : String} {id : DispatchId}
    (h : r.tree.lookup k x = some (.binding id)) :
    ∃ g ≤ k, ∃ ds ids d, (g, ds) ∈ r.program.groups ∧ Group r.tree g ids ds ∧ (id, d) ∈ ids.zip ds ∧
      d.name.name = x ∧ d.isDiscard = false := by
  obtain ⟨g, hk, hg⟩ := List.exists_of_findSome?_eq_some h
  exact ⟨g, ScopeTree.le_of_mem_chain hr.parents hk, hr.entry_eq_binding hg⟩

/-- Outside of a grouping no name denotes a definition of it. -/
lemma notMem_of_lookup_outside {kind : ScopeKind} {s g : ℕ} {ids : List DispatchId}
    {ds : List (Definition Scoped)} (hdecl : DeclaredIn r.tree kind s g ids ds)
    (hg : Group r.tree g ids ds) {x : String} {id : DispatchId}
    (h : r.tree.lookup s x = some (.binding id)) : id ∉ ids := by
  intro hid
  obtain ⟨g', hle, ds', ids', d', -, hg', hd', -⟩ := hr.lookup_eq_binding h
  obtain ⟨d, hd⟩ := exists_mem_zip_of_mem_left hg.length hid
  obtain ⟨rfl, -⟩ := hg.unique hg' hd hd'
  have hlt : s < g := hr.parents g _ s hdecl.scope rfl
  omega

end Resolution.WellScoped

/-! ### Parts of a program -/

lemma Expr.Within.trans {e₁ e₂ e₃ : Expr α} (h : e₁.Within e₂) (h' : e₂.Within e₃) :
    e₁.Within e₃ := by
  induction h' with
  | refl => exact h
  | lam _ ih => exact .lam ih
  | fn _ ih => exact .fn ih
  | arg _ ih => exact .arg ih
  | cond _ ih => exact .cond ih
  | pos _ ih => exact .pos ih
  | neg _ ih => exact .neg ih
  | binding hd _ ih => exact .binding hd ih
  | body _ ih => exact .body ih

/-- The groupings inside the definitions of a grouping of the program are groupings of it. -/
lemma Program.mem_groups_of_def {p : Program Scoped} {g : ScopeId} {ds : List (Definition Scoped)}
    (h : (g, ds) ∈ p.groups) {d : Definition Scoped} (hd : d ∈ ds)
    {q : ScopeId × List (Definition Scoped)} (hq : q ∈ d.body.groups) : q ∈ p.groups := by
  obtain ⟨g', ds'⟩ := q
  obtain ⟨b', a', ha', hwithin⟩ := (Expr.mem_groups_iff g' ds' d.body).1 hq
  refine (p.mem_groups_iff g' ds').2 (Or.inr ?_)
  rcases (p.mem_groups_iff g ds).1 h with ⟨-, rfl⟩ | ⟨d₀, hd₀, b, a, -, hlet⟩
  · exact ⟨d, hd, b', a', ha', hwithin⟩
  · exact ⟨d₀, hd₀, b', a', ha', Expr.Within.trans (.binding hd hwithin) hlet⟩

/-- The expression `e` stands in the scope `s` of the program. -/
structure Resolution.HasPart (r : Resolution) (s : ScopeId) (e : Expr Scoped) : Prop where
  wellScoped : e.WellScoped r.tree s
  groups : ∀ p ∈ e.groups, p ∈ r.program.groups

namespace Resolution.HasPart

variable {r : Resolution} {s : ScopeId} {a : Scoped}

lemma lam {ps : List (Ident Scoped)} {b : Expr Scoped} (h : r.HasPart s (.lam ps b a)) :
    r.tree.scopes[a.scope]? = some (lambdaScope s ps) ∧ r.HasPart a.scope b := by
  obtain ⟨hs, hg⟩ := h
  rw [Expr.WellScoped] at hs
  rw [Expr.groups] at hg
  exact ⟨hs.2.1, hs.2.2, hg⟩

lemma call {f x : Expr Scoped} (h : r.HasPart s (.call f x a)) :
    r.HasPart s f ∧ r.HasPart s x := by
  obtain ⟨hs, hg⟩ := h
  rw [Expr.WellScoped] at hs
  rw [Expr.groups, List.forall_mem_append] at hg
  exact ⟨⟨hs.2.1, hg.1⟩, hs.2.2, hg.2⟩

lemma ite {c p n : Expr Scoped} (h : r.HasPart s (.ite c p n a)) :
    r.HasPart s c ∧ r.HasPart s p ∧ r.HasPart s n := by
  obtain ⟨hs, hg⟩ := h
  rw [Expr.WellScoped] at hs
  rw [Expr.groups, List.forall_mem_append, List.forall_mem_append] at hg
  exact ⟨⟨hs.2.1, hg.1.1⟩, ⟨hs.2.2.1, hg.1.2⟩, hs.2.2.2, hg.2⟩

lemma letIn {ds : List (Definition Scoped)} {b : Expr Scoped} (h : r.HasPart s (.letIn ds b a)) :
    (a.scope, ds) ∈ r.program.groups ∧ r.HasPart a.scope b ∧
      ∃ ids, DeclaredIn r.tree .letBlock s a.scope ids ds ∧ Group r.tree a.scope ids ds := by
  obtain ⟨hs, hg⟩ := h
  rw [Expr.WellScoped] at hs
  obtain ⟨ids, hdecl, hdefs, hb⟩ := hs
  rw [Expr.groups, List.cons_append, List.forall_mem_cons, List.forall_mem_append] at hg
  exact ⟨hg.1, ⟨hb, hg.2.2⟩, ids, hdecl, ⟨_, _, hdecl⟩, hdefs⟩

end Resolution.HasPart

/-- The bodies of the definitions of a grouping are parts of the program. -/
lemma Group.hasPart {r : Resolution} {g : ScopeId} {ids : List DispatchId}
    {ds : List (Definition Scoped)} (hg : Group r.tree g ids ds) (h : (g, ds) ∈ r.program.groups)
    {id : DispatchId} {d : Definition Scoped} (hd : (id, d) ∈ ids.zip ds) :
    r.HasPart d.ann.scope d.body where
  wellScoped := (hg.defs.of_mem_zip hd).body
  groups _ hp := Program.mem_groups_of_def h (List.of_mem_zip hd).2 hp

end Letrec
