import Mathlib
import Letrec.Proofs.Lookup
import Letrec.Scope.Resolution

/-!
# Well-scoped programs

A resolved program carries the number of a scope at every node, and the tree says what each scope
binds.  `Expr.WellScoped` says that the two fit: the scope of an anonymous function binds its
parameters, the scope of a `let` block its definitions, every definition owns the scope of its
parameters, and each of these scopes lies in the scope around.  It speaks of the finished tree only,
so nothing that follows has to look at the order in which the tree was built.

`ScopeTree.lookup_eq` unfolds what a name denotes by one scope.
-/

namespace Letrec

variable {α : Type}

/-! ### The scopes of a program -/

/-- What the parameters of a function bind. -/
def paramEntries (ps : List (Ident α)) : List (String × Entry) :=
  (ps.filter fun p => !isDiscard p.name).map fun p => (p.name, .parameter)

/-- What the definitions of a grouping bind, given their numbers. -/
def groupEntries : List DispatchId → List (Definition α) → List (String × Entry)
  | id :: ids, d :: ds =>
    if d.isDiscard then groupEntries ids ds else (d.name.name, .binding id) :: groupEntries ids ds
  | _, _ => []

/-- The names that the definitions of a grouping bind. -/
def boundNames (ds : List (Definition α)) : List String :=
  (ds.filter fun d => !d.isDiscard).map fun d => d.name.name

/-- The scope of an anonymous function in the scope `s`. -/
def lambdaScope (s : ScopeId) (ps : List (Ident α)) : Scope :=
  { kind := .lambda, parent := some s, entries := paramEntries ps }

/-- The scope of a definition of the grouping `g`. -/
def functionScope (g : ScopeId) (id : DispatchId) (ps : List (Ident α)) : Scope :=
  { kind := .function, parent := some g, owner := some id, entries := paramEntries ps }

/-- The scope of a grouping in the scope `s`. -/
def groupScope (kind : ScopeKind) (s : ScopeId) (ids : List DispatchId)
    (ds : List (Definition α)) : Scope :=
  { kind, parent := some s, entries := groupEntries ids ds, declared := ids }

/-- What is known of a definition of the grouping `g`. -/
def bindingOf (g : ScopeId) (id : DispatchId) (d : Definition Scoped) : Binding :=
  { id, name := d.name.name, scope := g, paramScope := d.ann.scope
    arity := d.params.length, span := d.ann.span }

/-- The scope `g` is that of a grouping: it holds the definitions under distinct names, numbered in
ascending order. -/
structure DeclaredIn (t : ScopeTree) (kind : ScopeKind) (s g : ScopeId) (ids : List DispatchId)
    (ds : List (Definition Scoped)) : Prop where
  scope : t.scopes[g]? = some (groupScope kind s ids ds)
  nodup : (boundNames ds).Nodup
  sorted : ids.Pairwise (· < ·)

mutual

/-- The annotations of an expression in the scope `s` fit the tree. -/
def Expr.WellScoped (t : ScopeTree) (s : ScopeId) : Expr Scoped → Prop
  | .ident i => i.ann.scope = s
  | .int _ a => a.scope = s
  | .lam ps b a =>
    (∀ p ∈ ps, p.ann.scope = a.scope) ∧ t.scopes[a.scope]? = some (lambdaScope s ps) ∧
      b.WellScoped t a.scope
  | .call f x a => a.scope = s ∧ f.WellScoped t s ∧ x.WellScoped t s
  | .ite c p n a => a.scope = s ∧ c.WellScoped t s ∧ p.WellScoped t s ∧ n.WellScoped t s
  | .letIn ds b a =>
    ∃ ids, DeclaredIn t .letBlock s a.scope ids ds ∧ DefsWellScoped t a.scope ids ds ∧
      b.WellScoped t a.scope

/-- The annotations of the definitions of the grouping `g` fit the tree, and so do their numbers. -/
def DefsWellScoped (t : ScopeTree) (g : ScopeId) :
    List DispatchId → List (Definition Scoped) → Prop
  | [], [] => True
  | id :: ids, ⟨n, ps, b, a⟩ :: ds =>
    n.ann.scope = g ∧ (∀ p ∈ ps, p.ann.scope = a.scope) ∧
      t.scopes[a.scope]? = some (functionScope g id ps) ∧
      t.binding? id = some (bindingOf g id ⟨n, ps, b, a⟩) ∧ b.WellScoped t a.scope ∧
      DefsWellScoped t g ids ds
  | _, _ => False

end

mutual

/-- The scopes that an expression opens, in the order in which they are opened. -/
def Expr.opened : Expr Scoped → List ScopeId
  | .ident _ | .int _ _ => []
  | .lam _ b a => a.scope :: b.opened
  | .call f x _ => f.opened ++ x.opened
  | .ite c p n _ => c.opened ++ p.opened ++ n.opened
  | .letIn ds b a => a.scope :: openedByDefs ds ++ b.opened

/-- The scopes that a list of definitions opens, in the order in which they are opened. -/
def openedByDefs : List (Definition Scoped) → List ScopeId
  | [] => []
  | ⟨_, _, b, a⟩ :: ds => a.scope :: b.opened ++ openedByDefs ds

end

/-- The scope around a scope has a smaller number. -/
def ScopeTree.ParentsBefore (t : ScopeTree) : Prop :=
  ∀ (i : ℕ) (sc : Scope) (p : ℕ), t.scopes[i]? = some sc → sc.parent = some p → p < i

/-- The program fits its tree: below the scope of the builtin names is that of the program, and all
scopes are opened in the order of their numbers. -/
structure Resolution.WellScoped (names : List String) (r : Resolution) (ids : List DispatchId) :
    Prop where
  parents : r.tree.ParentsBefore
  root : r.tree.scopes[ScopeTree.root]? = some
    { kind := .builtins, parent := none, entries := names.map (·, .builtin) }
  declared : DeclaredIn r.tree .program ScopeTree.root r.program.ann.scope ids r.program.defs
  defs : DefsWellScoped r.tree r.program.ann.scope ids r.program.defs
  opened : r.program.ann.scope :: openedByDefs r.program.defs
    = List.range' 1 (r.tree.scopes.size - 1)
  ids_lt : ∀ b ∈ r.tree.bindings, b.id < dispatchIdBound

/-! ### Definitions and their numbers -/

lemma boundNames_cons (d : Definition α) (ds : List (Definition α)) :
    boundNames (d :: ds) = boundNames [d] ++ boundNames ds := by
  unfold boundNames
  rw [← List.map_append, ← List.filter_append, List.singleton_append]

lemma boundNames_map {α β : Type} (f : α → β) (ds : List (Definition α)) :
    boundNames (ds.map (Definition.map f)) = boundNames ds := by
  have hname : ∀ d : Definition α, (d.map f).name.name = d.name.name := by
    rintro ⟨n, ps, b, a⟩
    rw [Definition.map]
    rfl
  rw [boundNames, List.filter_map, List.map_map, boundNames]
  simp only [Function.comp_def, Definition.isDiscard, hname]

lemma groupEntries_cons (id : DispatchId) (ids : List DispatchId) (d : Definition α)
    (ds : List (Definition α)) :
    groupEntries (id :: ids) (d :: ds) = groupEntries [id] [d] ++ groupEntries ids ds := by
  rw [groupEntries, groupEntries]
  split_ifs <;> rfl

lemma map_fst_groupEntries {ids : List DispatchId} {ds : List (Definition α)}
    (h : ids.length = ds.length) : (groupEntries ids ds).map Prod.fst = boundNames ds := by
  induction ids generalizing ds with
  | nil =>
    obtain rfl := List.length_eq_zero_iff.1 h.symm
    rfl
  | cons id ids ih =>
    cases ds with
    | nil => simp at h
    | cons d ds =>
      rw [groupEntries_cons, boundNames_cons, List.map_append, ih (Nat.succ.inj h)]
      cases hd : d.isDiscard <;> simp [groupEntries, boundNames, hd]

/-! ### The definitions of a grouping, one at a time -/

/-- What is known of one definition of a grouping. -/
structure DefWellScoped (t : ScopeTree) (g : ScopeId) (id : DispatchId) (d : Definition Scoped) :
    Prop where
  name : d.name.ann.scope = g
  params : ∀ p ∈ d.params, p.ann.scope = d.ann.scope
  scope : t.scopes[d.ann.scope]? = some (functionScope g id d.params)
  binding : t.binding? id = some (bindingOf g id d)
  body : d.body.WellScoped t d.ann.scope

namespace DefsWellScoped

variable {t : ScopeTree} {g : ScopeId} {id : DispatchId} {ids : List DispatchId}
  {d : Definition Scoped} {ds : List (Definition Scoped)}

lemma nil : DefsWellScoped t g [] [] := by
  rw [DefsWellScoped]
  trivial

lemma cons_iff : DefsWellScoped t g (id :: ids) (d :: ds) ↔
    DefWellScoped t g id d ∧ DefsWellScoped t g ids ds := by
  obtain ⟨n, ps, b, a⟩ := d
  rw [DefsWellScoped]
  constructor
  · rintro ⟨hname, hparams, hscope, hbinding, hb, hds⟩
    exact ⟨⟨hname, hparams, hscope, hbinding, hb⟩, hds⟩
  · rintro ⟨hd, hds⟩
    exact ⟨hd.name, hd.params, hd.scope, hd.binding, hd.body, hds⟩

/-- Definitions that fit a tree have as many numbers as there are of them, and each one fits the
tree with its own. -/
@[elab_as_elim]
lemma induction {motive : ∀ ids ds, DefsWellScoped t g ids ds → Prop} (nil : motive [] [] .nil)
    (cons : ∀ id d ids ds (hd : DefWellScoped t g id d) (hds : DefsWellScoped t g ids ds),
      motive ids ds hds → motive (id :: ids) (d :: ds) (cons_iff.2 ⟨hd, hds⟩))
    {ids : List DispatchId} {ds : List (Definition Scoped)} (h : DefsWellScoped t g ids ds) :
    motive ids ds h := by
  induction ds generalizing ids with
  | nil =>
    cases ids with
    | nil => exact nil
    | cons id ids => exact absurd h (by simp [DefsWellScoped])
  | cons d ds ih =>
    cases ids with
    | nil => exact absurd h (by simp [DefsWellScoped])
    | cons id ids =>
      obtain ⟨hd, hds⟩ := cons_iff.1 h
      exact cons id d ids ds hd hds (ih hds)

lemma length (h : DefsWellScoped t g ids ds) : ids.length = ds.length := by
  induction h using DefsWellScoped.induction with
  | nil => rfl
  | cons id d ids ds hd hds ih => rw [List.length_cons, List.length_cons, ih]

lemma of_mem_zip (h : DefsWellScoped t g ids ds) (hd : (id, d) ∈ ids.zip ds) :
    DefWellScoped t g id d := by
  induction h using DefsWellScoped.induction with
  | nil => simp at hd
  | cons id' d' ids ds hd' hds ih =>
    rw [List.zip_cons_cons] at hd
    rcases List.mem_cons.1 hd with heq | hd
    · obtain ⟨rfl, rfl⟩ := Prod.mk.inj heq
      exact hd'
    · exact ih hd

end DefsWellScoped

lemma DefWellScoped.ownerOf? {t : ScopeTree} {g : ScopeId} {id : DispatchId}
    {d : Definition Scoped} (h : DefWellScoped t g id d) :
    t.ownerOf? d.ann.scope = some (bindingOf g id d) := by
  rw [ScopeTree.ownerOf?, h.scope]
  exact h.binding

/-! ### Well-scopedness depends only on the scopes that are opened -/

/-- No definition is forgotten. -/
def KeepsBindings (t t' : ScopeTree) : Prop :=
  ∀ id b, t.binding? id = some b → t'.binding? id = some b

mutual

lemma Expr.WellScoped.congr {t t' : ScopeTree} (hb : KeepsBindings t t') :
    ∀ {e : Expr Scoped} {s : ScopeId}, (∀ i ∈ e.opened, t'.scopes[i]? = t.scopes[i]?) →
      e.WellScoped t s → e.WellScoped t' s
  | .ident _, _, _, h => by
    rw [Expr.WellScoped] at h ⊢
    exact h
  | .int _ _, _, _, h => by
    rw [Expr.WellScoped] at h ⊢
    exact h
  | .lam ps b a, s, hs, h => by
    rw [Expr.opened, List.forall_mem_cons] at hs
    rw [Expr.WellScoped] at h ⊢
    exact ⟨h.1, hs.1.trans h.2.1, h.2.2.congr hb hs.2⟩
  | .call f x a, s, hs, h => by
    rw [Expr.opened, List.forall_mem_append] at hs
    rw [Expr.WellScoped] at h ⊢
    exact ⟨h.1, h.2.1.congr hb hs.1, h.2.2.congr hb hs.2⟩
  | .ite c p n a, s, hs, h => by
    rw [Expr.opened, List.forall_mem_append, List.forall_mem_append] at hs
    rw [Expr.WellScoped] at h ⊢
    exact ⟨h.1, h.2.1.congr hb hs.1.1, h.2.2.1.congr hb hs.1.2, h.2.2.2.congr hb hs.2⟩
  | .letIn ds b a, s, hs, h => by
    rw [Expr.opened, List.cons_append, List.forall_mem_cons, List.forall_mem_append] at hs
    rw [Expr.WellScoped] at h ⊢
    obtain ⟨ids, hd, hds, hbody⟩ := h
    exact ⟨ids, ⟨hs.1.trans hd.scope, hd.nodup, hd.sorted⟩, hds.congr hb hs.2.1,
      hbody.congr hb hs.2.2⟩

lemma DefsWellScoped.congr {t t' : ScopeTree} (hb : KeepsBindings t t') :
    ∀ {ds : List (Definition Scoped)} {g : ScopeId} {ids : List DispatchId},
      (∀ i ∈ openedByDefs ds, t'.scopes[i]? = t.scopes[i]?) → DefsWellScoped t g ids ds →
      DefsWellScoped t' g ids ds
  | [], g, [], _, _ => .nil
  | [], g, _ :: _, _, h => absurd h.length (by simp)
  | ⟨n, ps, b, a⟩ :: ds, g, [], _, h => absurd h.length (by simp)
  | ⟨n, ps, b, a⟩ :: ds, g, id :: ids, hs, h => by
    rw [openedByDefs, List.cons_append, List.forall_mem_cons, List.forall_mem_append] at hs
    rw [DefsWellScoped] at h ⊢
    exact ⟨h.1, h.2.1, hs.1.trans h.2.2.1, hb _ _ h.2.2.2.1, h.2.2.2.2.1.congr hb hs.2.1,
      h.2.2.2.2.2.congr hb hs.2.2⟩

end

/-! ### Looking up names -/

namespace ScopeTree

variable {t : ScopeTree}

lemma chain_eq_chain (ht : t.ParentsBefore)
    {n m s : ℕ} (hn : s < n) (hm : s < m) : t.chain n s = t.chain m s := by
  induction n generalizing m s with
  | zero => omega
  | succ n ih =>
    obtain ⟨k, rfl⟩ : ∃ k, m = k + 1 := ⟨m - 1, by omega⟩
    rw [chain, chain]
    congr 1
    cases hp : t.parent? s with
    | none => rfl
    | some p =>
      obtain ⟨sc, hsc, hp⟩ := Option.bind_eq_some_iff.1 hp
      have := ht s sc p hsc hp
      exact ih (by omega) (by omega)

/-- The scopes on the way to the root have smaller numbers. -/
lemma le_of_mem_chain (ht : t.ParentsBefore) {n s k : ℕ} (hk : k ∈ t.chain n s) : k ≤ s := by
  induction n generalizing s with
  | zero => simp [chain] at hk
  | succ n ih =>
    rw [chain] at hk
    rcases List.mem_cons.1 hk with rfl | hk
    · exact le_rfl
    · cases hp : t.parent? s with
      | none => simp [hp] at hk
      | some p =>
        rw [hp] at hk
        obtain ⟨sc, hsc, hparent⟩ := Option.bind_eq_some_iff.1 hp
        exact (ih hk).trans (ht s sc p hsc hparent).le

lemma entry_of_scope {s : ScopeId} {sc : Scope} (hs : t.scopes[s]? = some sc) (x : String) :
    t.entry? s x = sc.get? x := by
  unfold ScopeTree.entry?
  rw [hs, Option.bind_some]

/-- A name denotes what its scope says, and otherwise what it denotes in the scope around. -/
lemma lookup_eq (ht : t.ParentsBefore)
    {s : ScopeId} {sc : Scope} (hs : t.scopes[s]? = some sc) (x : String) :
    t.lookup s x = (sc.get? x).or (sc.parent.bind fun p => t.lookup p x) := by
  have hparent : t.parent? s = sc.parent := by rw [parent?, hs, Option.bind_some]
  rw [lookup, ancestors, chain, List.findSome?_cons, entry_of_scope hs, hparent]
  cases hx : sc.get? x with
  | some e => simp
  | none =>
    cases hp : sc.parent with
    | none => simp
    | some p =>
      have hlt := ht s sc p hs hp
      simp only [Option.elim_some, Option.none_or, Option.bind_some, lookup, ancestors]
      rw [chain_eq_chain ht hlt (Nat.lt_succ_self p)]

end ScopeTree

end Letrec
