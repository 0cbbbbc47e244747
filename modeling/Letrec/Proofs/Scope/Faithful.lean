import Mathlib
import Letrec.Proofs.Scope.Numbering

/-!
# The finished scope tree

What can be said of the result of resolution without following it: the annotations leave the program
as it was and refer to scopes that exist, the scopes form a tree with the builtin names at its root,
a definition owns one scope and is the only one that does, and a grouping declares its definitions.
`Resolution.Faithful` puts this together, and `resolve_faithful` proves it of every resolution.

The groupings of a program and its definitions in post-order are those of `Program.IsGroup` and
`Program.postorder`.
-/

namespace Letrec

variable {α : Type}

/-! ### Annotations -/

mutual

/-- All annotations of an expression. -/
def Expr.anns : Expr α → List α
  | .ident i => [i.ann]
  | .int _ a => [a]
  | .lam ps b a => a :: ps.map Ident.ann ++ b.anns
  | .call f x a => a :: f.anns ++ x.anns
  | .ite c p n a => a :: c.anns ++ p.anns ++ n.anns
  | .letIn ds b a => a :: annsOfDefs ds ++ b.anns

/-- All annotations of a list of definitions. -/
def annsOfDefs : List (Definition α) → List α
  | [] => []
  | ⟨n, ps, b, a⟩ :: ds => a :: n.ann :: ps.map Ident.ann ++ b.anns ++ annsOfDefs ds

end

/-- All annotations of a program. -/
def Program.anns (p : Program α) : List α := p.ann :: annsOfDefs p.defs

section Annotations

variable {t : ScopeTree}

/-- The annotations of definitions refer to the grouping or to scopes that are opened, if this is so
for their bodies. -/
lemma DefsWellScoped.anns_of_body {g : ScopeId} {ids : List DispatchId}
    {ds : List (Definition Scoped)} (h : DefsWellScoped t g ids ds)
    (hbody : ∀ d ∈ ds, ∀ s, d.body.WellScoped t s →
      ∀ a ∈ d.body.anns, a.scope = s ∨ a.scope ∈ d.body.opened) :
    ∀ a ∈ annsOfDefs ds, a.scope = g ∨ a.scope ∈ openedByDefs ds := by
  induction h using DefsWellScoped.induction with
  | nil => simp [annsOfDefs]
  | cons id d ids ds hd hds ih =>
    obtain ⟨n, ps, b, a⟩ := d
    rw [List.forall_mem_cons] at hbody
    intro a' ha'
    rw [annsOfDefs, List.append_assoc, List.cons_append, List.cons_append, List.mem_cons,
      List.mem_cons, List.mem_append, List.mem_append, List.mem_map] at ha'
    rw [openedByDefs, List.cons_append, List.mem_cons, List.mem_append]
    rcases ha' with rfl | rfl | ⟨p, hp, rfl⟩ | ha' | ha'
    · exact Or.inr (Or.inl rfl)
    · exact Or.inl hd.name
    · exact Or.inr (Or.inl (hd.params p hp))
    · rcases hbody.1 _ hd.body a' ha' with heq | hmem
      · exact Or.inr (Or.inl heq)
      · exact Or.inr (Or.inr (Or.inl hmem))
    · rcases ih hbody.2 a' ha' with heq | hmem
      · exact Or.inl heq
      · exact Or.inr (Or.inr (Or.inr hmem))

/-- The annotations of an expression refer to the scope it stands in or to scopes it opens. -/
lemma Expr.WellScoped.anns {e : Expr Scoped} {s : ScopeId} (h : e.WellScoped t s) :
    ∀ a ∈ e.anns, a.scope = s ∨ a.scope ∈ e.opened := by
  induction e using Expr.induction generalizing s with
  | ident i =>
    rw [WellScoped] at h
    simpa [Expr.anns] using Or.inl h
  | int v a =>
    rw [WellScoped] at h
    simpa [Expr.anns] using Or.inl h
  | lam ps b a ih =>
    rw [WellScoped] at h
    intro a' ha'
    rw [Expr.anns, List.cons_append, List.mem_cons, List.mem_append, List.mem_map] at ha'
    rw [opened, List.mem_cons]
    rcases ha' with rfl | ⟨p, hp, rfl⟩ | ha'
    · exact Or.inr (Or.inl rfl)
    · exact Or.inr (Or.inl (h.1 p hp))
    · exact Or.inr (ih h.2.2 a' ha')
  | call f x a ihf ihx =>
    rw [WellScoped] at h
    intro a' ha'
    rw [Expr.anns, List.cons_append, List.mem_cons, List.mem_append] at ha'
    rw [opened, List.mem_append]
    rcases ha' with rfl | ha' | ha'
    · exact Or.inl h.1
    · exact (ihf h.2.1 a' ha').imp_right Or.inl
    · exact (ihx h.2.2 a' ha').imp_right Or.inr
  | ite c p n a ihc ihp ihn =>
    rw [WellScoped] at h
    intro a' ha'
    rw [Expr.anns, List.cons_append, List.cons_append, List.mem_cons, List.mem_append,
      List.mem_append] at ha'
    rw [opened, List.mem_append, List.mem_append]
    rcases ha' with rfl | (ha' | ha') | ha'
    · exact Or.inl h.1
    · exact (ihc h.2.1 a' ha').imp_right fun hmem => Or.inl (Or.inl hmem)
    · exact (ihp h.2.2.1 a' ha').imp_right fun hmem => Or.inl (Or.inr hmem)
    · exact (ihn h.2.2.2 a' ha').imp_right Or.inr
  | letIn ds b a ihds ihb =>
    rw [WellScoped] at h
    obtain ⟨ids, -, hds, hb⟩ := h
    intro a' ha'
    rw [Expr.anns, List.cons_append, List.mem_cons, List.mem_append] at ha'
    rw [opened, List.cons_append, List.mem_cons, List.mem_append]
    right
    rcases ha' with rfl | ha' | ha'
    · exact Or.inl rfl
    · exact (hds.anns_of_body (fun d hd _ hd' => ihds d hd hd') a' ha').imp_right Or.inl
    · exact (ihb hb a' ha').imp_right Or.inr

end Annotations

/-! ### What the scopes are like -/

/-- The number of the definition whose parameters a scope holds. -/
def ScopeTree.owner? (t : ScopeTree) (s : ScopeId) : Option DispatchId :=
  t.scopes[s]?.bind (·.owner)

/-- The scope `i` lies in another one, is owned only if it is that of a function, and is a grouping
only if it is among `gs`. -/
def ScopeTree.Inner (t : ScopeTree) (gs : List ScopeId) (i : ScopeId) : Prop :=
  ∃ sc, t.scopes[i]? = some sc ∧ sc.parent ≠ none ∧ (sc.owner ≠ none → sc.kind = .function) ∧
    (sc.kind.isGrouping = true → i ∈ gs)

section Scopes

variable {t : ScopeTree} {gs gs' : List ScopeId}

lemma ScopeTree.Inner.mono {i : ScopeId} (h : t.Inner gs i) (hgs : i ∈ gs → i ∈ gs') :
    t.Inner gs' i := by
  obtain ⟨sc, hsc, hparent, howner, hgroup⟩ := h
  exact ⟨sc, hsc, hparent, howner, fun hkind => hgs (hgroup hkind)⟩

lemma DefsWellScoped.inner_of_body {g : ScopeId} {ids : List DispatchId}
    {ds : List (Definition Scoped)} (h : DefsWellScoped t g ids ds)
    (hbody : ∀ d ∈ ds, ∀ s, d.body.WellScoped t s →
      ∀ i ∈ d.body.opened, t.Inner (d.body.groups.map Prod.fst) i) :
    ∀ i ∈ openedByDefs ds, t.Inner ((groupsOfDefs ds).map Prod.fst) i := by
  induction h using DefsWellScoped.induction with
  | nil => simp [openedByDefs]
  | cons id d ids ds hd hds ih =>
    obtain ⟨n, ps, b, a⟩ := d
    rw [List.forall_mem_cons] at hbody
    rw [openedByDefs, List.cons_append, List.forall_mem_cons, List.forall_mem_append,
      groupsOfDefs, List.map_append]
    refine ⟨⟨_, hd.scope, ?_, fun _ => rfl, fun hkind => ?_⟩, fun i hi => ?_, fun i hi => ?_⟩
    · simp [functionScope]
    · simp [functionScope, ScopeKind.isGrouping] at hkind
    · exact (hbody.1 _ hd.body i hi).mono (List.mem_append_left _)
    · exact (ih hbody.2 i hi).mono (List.mem_append_right _)

lemma Expr.WellScoped.inner {e : Expr Scoped} {s : ScopeId} (h : e.WellScoped t s) :
    ∀ i ∈ e.opened, t.Inner (e.groups.map Prod.fst) i := by
  induction e using Expr.induction generalizing s with
  | ident i => simp [opened]
  | int v a => simp [opened]
  | lam ps b a ih =>
    rw [WellScoped] at h
    rw [opened, List.forall_mem_cons, groups]
    refine ⟨⟨_, h.2.1, ?_, ?_, fun hkind => ?_⟩, ih h.2.2⟩
    · simp [lambdaScope]
    · simp [lambdaScope]
    · simp [lambdaScope, ScopeKind.isGrouping] at hkind
  | call f x a ihf ihx =>
    rw [WellScoped] at h
    rw [opened, List.forall_mem_append, groups, List.map_append]
    exact ⟨fun i hi => (ihf h.2.1 i hi).mono (List.mem_append_left _),
      fun i hi => (ihx h.2.2 i hi).mono (List.mem_append_right _)⟩
  | ite c p n a ihc ihp ihn =>
    rw [WellScoped] at h
    rw [opened, List.append_assoc, List.forall_mem_append, List.forall_mem_append, groups,
      List.append_assoc, List.map_append, List.map_append]
    refine ⟨fun i hi => (ihc h.2.1 i hi).mono (List.mem_append_left _), fun i hi => ?_,
      fun i hi => ?_⟩
    · exact (ihp h.2.2.1 i hi).mono fun hg =>
        List.mem_append_right _ (List.mem_append_left _ hg)
    · exact (ihn h.2.2.2 i hi).mono fun hg =>
        List.mem_append_right _ (List.mem_append_right _ hg)
  | letIn ds b a ihds ihb =>
    rw [WellScoped] at h
    obtain ⟨ids, hdecl, hds, hb⟩ := h
    rw [opened, List.cons_append, List.forall_mem_cons, List.forall_mem_append, groups,
      List.cons_append, List.map_cons, List.map_append]
    refine ⟨⟨_, hdecl.scope, ?_, ?_, fun _ => List.mem_cons_self⟩, fun i hi => ?_, fun i hi => ?_⟩
    · simp [groupScope]
    · simp [groupScope]
    · exact (hds.inner_of_body (fun d hd _ hd' => ihds d hd hd') i hi).mono fun hg =>
        List.mem_cons_of_mem _ (List.mem_append_left _ hg)
    · exact (ihb hb i hi).mono fun hg =>
        List.mem_cons_of_mem _ (List.mem_append_right _ hg)

/-- What occurs in a well-scoped expression is well-scoped. -/
lemma Expr.WellScoped.within {e e' : Expr Scoped} {s : ScopeId} (hw : e'.Within e)
    (h : e.WellScoped t s) : ∃ s', e'.WellScoped t s' := by
  induction hw generalizing s with
  | refl => exact ⟨s, h⟩
  | lam _ ih =>
    rw [WellScoped] at h
    exact ih h.2.2
  | fn _ ih =>
    rw [WellScoped] at h
    exact ih h.2.1
  | arg _ ih =>
    rw [WellScoped] at h
    exact ih h.2.2
  | cond _ ih =>
    rw [WellScoped] at h
    exact ih h.2.1
  | pos _ ih =>
    rw [WellScoped] at h
    exact ih h.2.2.1
  | neg _ ih =>
    rw [WellScoped] at h
    exact ih h.2.2.2
  | binding hd _ ih =>
    rw [WellScoped] at h
    obtain ⟨ids, -, hds, -⟩ := h
    obtain ⟨id, hid⟩ := exists_mem_zip_of_mem_right hds.length hd
    exact ih (hds.of_mem_zip hid).body
  | body _ ih =>
    rw [WellScoped] at h
    obtain ⟨ids, -, -, hb⟩ := h
    exact ih hb

/-- The definitions of a grouping own their scopes, in order. -/
lemma DefsWellScoped.owners {g : ScopeId} {ids : List DispatchId} {ds : List (Definition Scoped)}
    (h : DefsWellScoped t g ids ds) : ds.map (fun d => t.owner? d.ann.scope) = ids.map some := by
  induction h using DefsWellScoped.induction with
  | nil => rfl
  | cons id d ids ds hd hds ih =>
    rw [List.map_cons, List.map_cons, ih, ScopeTree.owner?, hd.scope]
    rfl

/-- The scope of a grouping binds those of its definitions that have names to their owners. -/
lemma DefsWellScoped.entries {g : ScopeId} {ids : List DispatchId} {ds : List (Definition Scoped)}
    (h : DefsWellScoped t g ids ds) : (groupEntries ids ds).map (Prod.map id some)
      = (ds.filter fun d => !d.isDiscard).map fun d =>
          (d.name.name, (t.owner? d.ann.scope).map .binding) := by
  induction h using DefsWellScoped.induction with
  | nil => rfl
  | cons id d ids ds hd hds ih =>
    have howner : t.owner? d.ann.scope = some id := by
      rw [ScopeTree.owner?, hd.scope]
      rfl
    rw [groupEntries_cons, List.map_append, ih]
    cases hdiscard : d.isDiscard <;> simp [groupEntries, hdiscard, howner]

end Scopes

/-! ### The way to the root -/

namespace ScopeTree

/-- Every scope but the root lies in an earlier one. -/
structure Rooted (t : ScopeTree) : Prop where
  parent?_root : t.parent? root = none
  parent?_lt : ∀ s < t.scopes.size, s ≠ root → ∃ q < s, t.parent? s = some q

/-- The way from a scope leads from each scope to the one around it and ends at the root. -/
structure WayUp (t : ScopeTree) (s : ScopeId) (way : List ScopeId) : Prop where
  head? : way.head? = some s
  isChain : way.IsChain fun i j => t.parent? i = some j
  getLast? : way.getLast? = some root

variable {t : ScopeTree}

lemma WayUp.cons {s q : ScopeId} {way : List ScopeId} (h : t.WayUp q way)
    (hq : t.parent? s = some q) : t.WayUp s (s :: way) := by
  obtain ⟨l, rfl⟩ := List.head?_eq_some_iff.1 h.head?
  exact ⟨rfl, List.isChain_cons_cons.2 ⟨hq, h.isChain⟩,
    by rw [List.getLast?_cons_cons, h.getLast?]⟩

lemma Rooted.wayUp_chain (ht : t.Rooted) {n s : ℕ} (hn : s < n) (hs : s < t.scopes.size) :
    t.WayUp s (t.chain n s) := by
  induction n generalizing s with
  | zero => exact absurd hn (Nat.not_lt_zero s)
  | succ n ih =>
    rw [chain]
    by_cases hroot : s = root
    · rw [hroot, ht.parent?_root]
      exact ⟨rfl, List.isChain_singleton _, rfl⟩
    · obtain ⟨q, hlt, hq⟩ := ht.parent?_lt s hs hroot
      rw [hq]
      exact (ih (by omega) (hlt.trans hs)).cons hq

end ScopeTree

/-! ### Faithful resolutions -/

/-- The definition `d` of the grouping `g` owns its scope under the number `id`. -/
structure ScopeTree.Owns (t : ScopeTree) (g : ScopeId) (d : Definition Scoped) (id : DispatchId) :
    Prop where
  scope : ∃ sc, t.scopes[d.ann.scope]? = some sc ∧ sc.kind = .function ∧ sc.parent = some g ∧
    sc.owner = some id
  binding : t.binding? id = some
    { id, name := d.name.name, scope := g, paramScope := d.ann.scope, arity := d.params.length
      span := d.ann.span }

/-- The scope `g` is the grouping of these definitions: it declares the numbers under which they own
their scopes, in order, and binds those that have a name to their numbers. -/
structure ScopeTree.Declares (t : ScopeTree) (g : ScopeId) (ds : List (Definition Scoped))
    (sc : Scope) : Prop where
  scope : t.scopes[g]? = some sc
  isGrouping : sc.kind.isGrouping = true
  declared : sc.declared.map some = ds.map fun d => t.owner? d.ann.scope
  entries : sc.entries.map (Prod.map id some) = (ds.filter fun d => !d.isDiscard).map fun d =>
    (d.name.name, (t.owner? d.ann.scope).map .binding)
  nodup : (sc.entries.map Prod.fst).Nodup

/-- The tree is well formed, and the annotations relate the program `p` to it. -/
structure Resolution.Faithful (r : Resolution) (p : Program Span) : Prop where
  erase : r.program.map Scoped.span = p
  inRange : ∀ a ∈ r.program.anns, a.scope < r.tree.scopes.size
  rooted : r.tree.Rooted
  wayUp : ∀ s < r.tree.scopes.size, r.tree.WayUp s (r.tree.ancestors s)
  owns : ∀ g ds, r.program.IsGroup g ds → ∀ d ∈ ds, ∃ id, r.tree.Owns g d id
  owners : (r.program.postorder.map fun d => r.tree.owner? d.ann.scope).Nodup
  onlyFunctions : ∀ (s : ScopeId) (sc : Scope), r.tree.scopes[s]? = some sc → sc.owner ≠ none →
    sc.kind = .function
  groupings : ∀ (g : ScopeId) (sc : Scope), r.tree.scopes[g]? = some sc →
    sc.kind.isGrouping = true → ∃ ds, r.program.IsGroup g ds
  declares : ∀ g ds, r.program.IsGroup g ds → ∃ sc, r.tree.Declares g ds sc

namespace Resolution.WellScoped

variable {names : List String} {r : Resolution} {ids₀ : List DispatchId}
  (hr : r.WellScoped names ids₀)

include hr

lemma mem_opened_iff {i : ℕ} :
    i ∈ r.program.ann.scope :: openedByDefs r.program.defs ↔
      i ≠ ScopeTree.root ∧ i < r.tree.scopes.size := by
  have hroot : ScopeTree.root < r.tree.scopes.size := (Array.getElem?_eq_some_iff.1 hr.root).1
  rw [hr.opened, List.mem_range'_1]
  constructor
  · rintro ⟨hpos, hlt⟩
    exact ⟨Nat.ne_of_gt hpos, by omega⟩
  · rintro ⟨hne, hlt⟩
    have hpos := Nat.pos_of_ne_zero hne
    omega

lemma inRange : ∀ a ∈ r.program.anns, a.scope < r.tree.scopes.size := by
  intro a ha
  have hmem : a.scope ∈ r.program.ann.scope :: openedByDefs r.program.defs := by
    rw [Program.anns, List.mem_cons] at ha
    rw [List.mem_cons]
    rcases ha with rfl | ha
    · exact Or.inl rfl
    · exact hr.defs.anns_of_body (fun _ _ _ h => h.anns) a ha
  exact (hr.mem_opened_iff.1 hmem).2

/-- Every scope below the root is like those of the program. -/
lemma inner {i : ScopeId} (hi : i < r.tree.scopes.size) (hroot : i ≠ ScopeTree.root) :
    r.tree.Inner (r.program.groups.map Prod.fst) i := by
  rw [Program.groups, List.map_cons]
  rcases List.mem_cons.1 (hr.mem_opened_iff.2 ⟨hroot, hi⟩) with rfl | hmem
  · refine ⟨_, hr.declared.scope, ?_, ?_, fun _ => List.mem_cons_self⟩
    · simp [groupScope]
    · simp [groupScope]
  · exact (hr.defs.inner_of_body (fun _ _ _ h => h.inner) i hmem).mono (List.mem_cons_of_mem _)

lemma rooted : r.tree.Rooted where
  parent?_root := by rw [ScopeTree.parent?, hr.root]; rfl
  parent?_lt := by
    intro s hs hroot
    obtain ⟨sc, hsc, hparent, -⟩ := hr.inner hs hroot
    obtain ⟨q, hq⟩ := Option.ne_none_iff_exists'.1 hparent
    exact ⟨q, hr.parents s sc q hsc hq, by rw [ScopeTree.parent?, hsc, Option.bind_some, hq]⟩

lemma declaredIn {g : ScopeId} {ds : List (Definition Scoped)} (h : r.program.IsGroup g ds) :
    ∃ kind s ids, kind.isGrouping = true ∧ DeclaredIn r.tree kind s g ids ds ∧
      DefsWellScoped r.tree g ids ds := by
  rcases h with ⟨rfl, rfl⟩ | ⟨d, hd, b, a, rfl, hlet⟩
  · exact ⟨_, _, ids₀, rfl, hr.declared, hr.defs⟩
  · obtain ⟨id, hid⟩ := exists_mem_zip_of_mem_right hr.defs.length hd
    obtain ⟨s, hs⟩ := (hr.defs.of_mem_zip hid).body.within hlet
    rw [Expr.WellScoped] at hs
    obtain ⟨ids, hdecl, hds, -⟩ := hs
    exact ⟨_, s, ids, rfl, hdecl, hds⟩

lemma owns {g : ScopeId} {ds : List (Definition Scoped)} (h : r.program.IsGroup g ds)
    {d : Definition Scoped} (hd : d ∈ ds) : ∃ id, r.tree.Owns g d id := by
  obtain ⟨-, -, ids, -, -, hds⟩ := hr.declaredIn h
  obtain ⟨id, hid⟩ := exists_mem_zip_of_mem_right hds.length hd
  have hd' := hds.of_mem_zip hid
  exact ⟨id, ⟨_, hd'.scope, rfl, rfl, rfl⟩, hd'.binding⟩

lemma declares {g : ScopeId} {ds : List (Definition Scoped)} (h : r.program.IsGroup g ds) :
    ∃ sc, r.tree.Declares g ds sc := by
  obtain ⟨kind, s, ids, hkind, hdecl, hds⟩ := hr.declaredIn h
  refine ⟨_, hdecl.scope, hkind, hds.owners.symm, hds.entries, ?_⟩
  show ((groupEntries ids ds).map Prod.fst).Nodup
  rw [map_fst_groupEntries hds.length]
  exact hdecl.nodup

lemma onlyFunctions {s : ScopeId} {sc : Scope} (hsc : r.tree.scopes[s]? = some sc)
    (howner : sc.owner ≠ none) : sc.kind = .function := by
  by_cases hroot : s = ScopeTree.root
  · rw [hroot, hr.root, Option.some.injEq] at hsc
    subst hsc
    exact absurd rfl howner
  · obtain ⟨sc', hsc', -, hfun, -⟩ := hr.inner (Array.getElem?_eq_some_iff.1 hsc).1 hroot
    obtain rfl := Option.some.inj (hsc.symm.trans hsc')
    exact hfun howner

lemma exists_isGroup {g : ScopeId} {sc : Scope} (hsc : r.tree.scopes[g]? = some sc)
    (hkind : sc.kind.isGrouping = true) : ∃ ds, r.program.IsGroup g ds := by
  by_cases hroot : g = ScopeTree.root
  · rw [hroot, hr.root, Option.some.injEq] at hsc
    subst hsc
    simp [ScopeKind.isGrouping] at hkind
  · obtain ⟨sc', hsc', -, -, hgroup⟩ := hr.inner (Array.getElem?_eq_some_iff.1 hsc).1 hroot
    obtain rfl := Option.some.inj (hsc.symm.trans hsc')
    obtain ⟨⟨g', ds⟩, hmem, rfl⟩ := List.mem_map.1 (hgroup hkind)
    exact ⟨ds, (r.program.mem_groups_iff g' ds).1 hmem⟩

end Resolution.WellScoped

variable {names : List String} {seed : DispatchId} {p : Program Span} {log log' : Array Event}
  {r : Resolution}

/-- Different definitions own their scopes under different numbers. -/
lemma resolve_nodup_owners (h : resolve names seed p log = .ok r log') :
    (r.program.postorder.map fun d => r.tree.owner? d.ann.scope).Nodup := by
  -- the records of the owners have different numbers
  refine List.Nodup.of_map (fun o => (o.bind r.tree.binding?).map (·.id)) ?_
  have hids : (r.program.postorder.map fun d => r.tree.owner? d.ann.scope).map
      (fun o => (o.bind r.tree.binding?).map (·.id))
      = (List.range' seed r.program.postorder.length).map some := by
    refine List.ext_getElem (by simp) fun i hi hi' => ?_
    rw [List.length_map, List.length_map] at hi
    rw [List.getElem_map, List.getElem_map, List.getElem_map, List.getElem_range', Nat.one_mul]
    exact congrArg (Option.map Binding.id) (resolve_ownerOf? h hi)
  rw [hids]
  exact List.Nodup.map (Option.some_injective _) List.nodup_range'

/-- Resolution gives back the program it was given, and its annotations fit a well-formed tree. -/
theorem resolve_faithful (h : resolve names seed p log = .ok r log') : r.Faithful p := by
  obtain ⟨herase, ids, hr⟩ := resolve_wellScoped h
  refine ⟨herase, hr.inRange, hr.rooted, fun s hs => ?_, fun g ds hg d hd => hr.owns hg hd,
    resolve_nodup_owners h, fun s sc hsc => hr.onlyFunctions hsc,
    fun g sc hsc => hr.exists_isGroup hsc, fun g ds hg => hr.declares hg⟩
  exact hr.rooted.wayUp_chain (Nat.lt_succ_self s) hs

/-- `f x = let _ = 1; g = \y. x in g` and `_ = f`. -/
def discardedInner : Program Span where
  defs :=
    [⟨⟨"f", .nowhere⟩, [⟨"x", .nowhere⟩],
      .letIn
        [⟨⟨"_", .nowhere⟩, [], .int 1 .nowhere, .nowhere⟩,
         ⟨⟨"g", .nowhere⟩, [], .lam [⟨"y", .nowhere⟩] (.ident ⟨"x", .nowhere⟩) .nowhere, .nowhere⟩]
        (.ident ⟨"g", .nowhere⟩) .nowhere, .nowhere⟩,
     ⟨⟨"_", .nowhere⟩, [], .ident ⟨"f", .nowhere⟩, .nowhere⟩]
  ann := .nowhere

theorem resolve_faithful_discardedInner : ∃ r log, resolve ["f"] 5 discardedInner #[] = .ok r log ∧
    r.tree.scopes.toList.map (fun sc => (sc.kind, sc.parent, sc.owner, sc.declared))
      = [(.builtins, none, none, []), (.program, some 0, none, [7, 8]),
        (.function, some 1, some 7, []), (.letBlock, some 2, none, [5, 6]),
        (.function, some 3, some 5, []), (.function, some 3, some 6, []),
        (.lambda, some 5, none, []), (.function, some 1, some 8, [])] ∧
    r.Faithful discardedInner := by
  have hscopes : (value? (resolve ["f"] 5 discardedInner #[])).map (fun r =>
      r.tree.scopes.toList.map fun sc => (sc.kind, sc.parent, sc.owner, sc.declared))
      = some [(.builtins, none, none, []), (.program, some 0, none, [7, 8]),
        (.function, some 1, some 7, []), (.letBlock, some 2, none, [5, 6]),
        (.function, some 3, some 5, []), (.function, some 3, some 6, []),
        (.lambda, some 5, none, []), (.function, some 1, some 8, [])] := by
    decide +kernel
  obtain ⟨r, hr, hscopes⟩ := Option.map_eq_some_iff.1 hscopes
  obtain ⟨log, hr⟩ := value?_eq_some.1 hr
  exact ⟨r, log, hr, hscopes, resolve_faithful hr⟩

end Letrec
