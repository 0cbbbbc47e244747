import Mathlib
import Letrec.Proofs.Scope.WellScoped
import Letrec.Proofs.Success

/-!
# Resolution gives well-scoped programs

Resolution only ever adds to the tree: it opens new scopes, adds entries to the scope of the
grouping it is working on, and records definitions under numbers that have not been used.  `Grows`
says so for one piece of resolution, with the scopes it may add to as a parameter; what has been
found well-scoped stays so.

Main result: `resolve_wellScoped`.
-/

namespace Letrec

/-! ### Intervals of scope numbers -/

lemma range'_glue {a b c : ℕ} (hab : a ≤ b) (hbc : b ≤ c) :
    List.range' a (b - a) ++ List.range' b (c - b) = List.range' a (c - a) := by
  have hb : b = a + (b - a) := by omega
  have hc : c - a = (b - a) + (c - b) := by omega
  conv_lhs => rw [show List.range' b (c - b) = List.range' (a + (b - a)) (c - b) by rw [← hb]]
  rw [hc, List.range'_append_1]

lemma range'_cons {a c : ℕ} (h : a < c) :
    a :: List.range' (a + 1) (c - (a + 1)) = List.range' a (c - a) := by
  have hc : c - a = (c - (a + 1)) + 1 := by omega
  rw [hc, List.range'_succ]

/-! ### Changes of the tree -/

namespace ScopeTree

variable {t : ScopeTree}

lemma scopes_push (t : ScopeTree) (kind : ScopeKind) (parent i : ℕ) :
    (t.push kind parent).scopes[i]?
      = if i = t.scopes.size then some { kind, parent := some parent } else t.scopes[i]? := by
  rw [push, Array.getElem?_push]

lemma size_push (t : ScopeTree) (kind : ScopeKind) (parent : ℕ) :
    (t.push kind parent).scopes.size = t.scopes.size + 1 := by
  rw [push, Array.size_push]

lemma scopes_enter (t : ScopeTree) (s : ℕ) (x : String) (e : Entry) (i : ℕ) :
    (t.enter s x e).scopes[i]? = if s = i
      then t.scopes[i]?.map fun sc => { sc with entries := sc.entries ++ [(x, e)] }
      else t.scopes[i]? := by
  rw [enter, Array.getElem?_modify]

lemma size_enter (t : ScopeTree) (s : ℕ) (x : String) (e : Entry) :
    (t.enter s x e).scopes.size = t.scopes.size := by
  rw [enter, Array.size_modify]

lemma scopes_register (t : ScopeTree) (b : Binding) (h : b.scope ≠ b.paramScope) (i : ℕ) :
    (t.register b).scopes[i]? =
      if b.paramScope = i then t.scopes[i]?.map fun sc => { sc with owner := some b.id }
      else if b.scope = i
        then t.scopes[i]?.map fun sc => { sc with declared := sc.declared ++ [b.id] }
      else t.scopes[i]? := by
  rw [register, Array.getElem?_modify, Array.getElem?_modify]
  split_ifs with h₁ h₂
  · exact absurd (h₂.trans h₁.symm) h
  · rfl
  · rfl
  · rfl

lemma size_register (t : ScopeTree) (b : Binding) :
    (t.register b).scopes.size = t.scopes.size := by
  rw [register, Array.size_modify, Array.size_modify]

lemma binding?_register_of_some (t : ScopeTree) (b : Binding) {id : DispatchId} {b' : Binding}
    (h : t.binding? id = some b') : (t.register b).binding? id = some b' := by
  rw [binding?] at h
  rw [binding?, register, Array.find?_push, h, Option.some_or]

lemma binding?_register_self (t : ScopeTree) (b : Binding) (h : ∀ b' ∈ t.bindings, b'.id ≠ b.id) :
    (t.register b).binding? b.id = some b := by
  have hnone : t.bindings.find? (·.id == b.id) = none := by
    rw [Array.find?_eq_none]
    intro b' hb'
    simpa using h b' hb'
  rw [binding?, register, Array.find?_push, hnone]
  simp

lemma ParentsBefore.of_parents {t' : ScopeTree} (h : t.ParentsBefore)
    (hp : ∀ (i : ℕ) (sc' : Scope), t'.scopes[i]? = some sc' →
      ∃ sc : Scope, t.scopes[i]? = some sc ∧ sc.parent = sc'.parent) :
    t'.ParentsBefore := by
  intro i sc' p hsc' hparent
  obtain ⟨sc, hsc, heq⟩ := hp i sc' hsc'
  exact h i sc p hsc (heq.trans hparent)

end ScopeTree

/-! ### Growth of the state -/

namespace Resolving

/-- The number of scopes so far. -/
abbrev size (r : Resolving) : ℕ := r.tree.scopes.size

/-- Scopes lie in earlier ones, and the numbers of definitions are used up in order. -/
structure Sound (r : Resolving) : Prop where
  parents : r.tree.ParentsBefore
  ids : ∀ b ∈ r.tree.bindings, b.id < r.nextId ∧ b.id < dispatchIdBound

/-- A sound state grows into another sound one, in which the old scopes that satisfy `keep` are
unchanged. -/
structure Grows (keep : ℕ → Prop) (r r' : Resolving) : Prop where
  sound : r'.Sound
  size_le : r.size ≤ r'.size
  nextId_le : r.nextId ≤ r'.nextId
  scopes : ∀ i < r.size, keep i → r'.tree.scopes[i]? = r.tree.scopes[i]?
  bindings : KeepsBindings r.tree r'.tree

variable {keep : ℕ → Prop} {r r₁ r₂ : Resolving}

lemma Grows.refl (h : r.Sound) : Grows keep r r :=
  ⟨h, le_rfl, le_rfl, fun _ _ _ => rfl, fun _ _ h => h⟩

lemma Grows.trans (h₁ : Grows keep r r₁) (h₂ : Grows keep r₁ r₂) : Grows keep r r₂ where
  sound := h₂.sound
  size_le := h₁.size_le.trans h₂.size_le
  nextId_le := h₁.nextId_le.trans h₂.nextId_le
  scopes := by
    intro i hi hk
    rw [h₂.scopes i (lt_of_lt_of_le hi h₁.size_le) hk, h₁.scopes i hi hk]
  bindings := fun id b h => h₂.bindings id b (h₁.bindings id b h)

lemma Grows.mono {keep' : ℕ → Prop} (h : Grows keep r r₁) (hk : ∀ i < r.size, keep' i → keep i) :
    Grows keep' r r₁ :=
  { h with scopes := fun i hi hi' => h.scopes i hi (hk i hi hi') }

/-- A change of the scope `s` alone, which leaves the scope around it the same. -/
structure Changes (s : ℕ) (f : Scope → Scope) (r r' : Resolving) : Prop where
  size : r'.size = r.size
  nextId : r'.nextId = r.nextId
  bindings : r'.tree.bindings = r.tree.bindings
  self : r'.tree.scopes[s]? = r.tree.scopes[s]?.map f
  other : ∀ i, i ≠ s → r'.tree.scopes[i]? = r.tree.scopes[i]?
  parent : ∀ sc, (f sc).parent = sc.parent

lemma Changes.grows {s : ℕ} {f : Scope → Scope} {r' : Resolving} (h : Changes s f r r')
    (hr : r.Sound) : Grows (· ≠ s) r r' where
  sound := by
    refine ⟨hr.parents.of_parents ?_, ?_⟩
    · intro i sc' hsc'
      by_cases hi : i = s
      · subst hi
        rw [h.self] at hsc'
        obtain ⟨sc, hsc, rfl⟩ := Option.map_eq_some_iff.1 hsc'
        exact ⟨sc, hsc, (h.parent sc).symm⟩
      · exact ⟨sc', (h.other i hi).symm.trans hsc', rfl⟩
    · rw [h.bindings, h.nextId]
      exact hr.ids
  size_le := h.size.ge
  nextId_le := h.nextId.ge
  scopes := fun i _ hi => h.other i hi
  bindings := by
    intro id b hb
    rw [ScopeTree.binding?, h.bindings]
    exact hb

lemma Changes.trans {s : ℕ} {f f' : Scope → Scope} {r r' r'' : Resolving}
    (h : Changes s f r r') (h' : Changes s f' r' r'') : Changes s (f' ∘ f) r r'' where
  size := h'.size.trans h.size
  nextId := h'.nextId.trans h.nextId
  bindings := h'.bindings.trans h.bindings
  self := by rw [h'.self, h.self, Option.map_map]
  other := fun i hi => (h'.other i hi).trans (h.other i hi)
  parent := fun sc => (h'.parent (f sc)).trans (h.parent sc)

end Resolving

open Resolving

/-- Add entries to a scope. -/
def addEntries (es : List (String × Entry)) (sc : Scope) : Scope :=
  { sc with entries := sc.entries ++ es }

lemma addEntries_nil : addEntries [] = id := by
  funext sc
  simp [addEntries]

lemma addEntries_comp (es fs : List (String × Entry)) :
    addEntries fs ∘ addEntries es = addEntries (es ++ fs) := by
  funext sc
  simp [addEntries]

/-! ### The steps of resolution -/

namespace ResolveM

variable {β : Type} {r r' : Resolving}

lemma openScope_eq_ok {kind : ScopeKind} {parent inner : ℕ}
    (h : openScope kind parent r = .ok inner r') :
    inner = r.size ∧ r' = { r with tree := r.tree.push kind parent } := by
  obtain ⟨h₁, h₂⟩ := modifyGet_eq_ok.1 h
  exact ⟨h₁.symm, h₂.symm⟩

lemma grows_of_push (hr : r.Sound) {kind : ScopeKind} {parent : ℕ} (hp : parent < r.size)
    (htree : r'.tree = r.tree.push kind parent) (hnext : r'.nextId = r.nextId) (keep : ℕ → Prop) :
    Grows keep r r' where
  sound := by
    refine ⟨?_, ?_⟩
    · intro i sc p hsc hparent
      rw [htree, ScopeTree.scopes_push] at hsc
      split_ifs at hsc with hi
      · obtain rfl := Option.some.inj hsc
        obtain rfl := Option.some.inj hparent
        rw [hi]
        exact hp
      · exact hr.parents i sc p hsc hparent
    · rw [htree, hnext]
      exact hr.ids
  size_le := by
    rw [size, size, htree, ScopeTree.size_push]
    exact Nat.le_succ _
  nextId_le := hnext.ge
  scopes := by
    intro i hi _
    rw [htree, ScopeTree.scopes_push, if_neg hi.ne]
  bindings := by
    intro id b hb
    rw [htree]
    exact hb

lemma bind_get {f : Resolving → ResolveM β} : ((get : ResolveM Resolving) >>= f) r = f r r := rfl

lemma freshId_of_lt (h : r.nextId + 1 < dispatchIdBound) :
    freshId r = .ok r.nextId { r with nextId := r.nextId + 1 } := by
  unfold freshId
  refine bind_get.trans ?_
  rw [if_pos h]
  rfl

lemma freshId_of_not_lt (h : ¬ r.nextId + 1 < dispatchIdBound) :
    freshId r = .error .idsExhausted r := by
  unfold freshId
  refine bind_get.trans ?_
  rw [if_neg h]
  rfl

lemma freshId_eq_ok {id : DispatchId} (h : freshId r = .ok id r') :
    id = r.nextId ∧ r' = { r with nextId := r.nextId + 1 } ∧ r.nextId < dispatchIdBound := by
  unfold freshId at h
  simp only [bind_eq_ok, get_eq_ok] at h
  obtain ⟨a, s₁, ⟨rfl, rfl⟩, h⟩ := h
  split_ifs at h with hlt
  · simp only [bind_eq_ok, set_eq_ok, pure_eq_ok] at h
    obtain ⟨-, s₁, rfl, rfl, rfl⟩ := h
    exact ⟨rfl, rfl, Nat.lt_of_succ_lt hlt⟩
  · exact absurd h throw_ne_ok

lemma bindName_eq_ok {s : ℕ} {x : String} {span : Span} {kind : BinderKind} {e : Entry}
    (h : bindName s x span kind e r = .ok () r') :
    (isDiscard x = true ∧ r' = r) ∨
      (isDiscard x = false ∧ r.tree.entry? s x = none ∧
        r' = { r with tree := r.tree.enter s x e }) := by
  unfold bindName at h
  split_ifs at h with hx
  · obtain ⟨-, rfl⟩ := pure_eq_ok.1 h
    exact Or.inl ⟨hx, rfl⟩
  · simp only [bind_eq_ok, get_eq_ok] at h
    obtain ⟨a, s₁, ⟨rfl, rfl⟩, h⟩ := h
    cases he : r.tree.entry? s x with
    | some _ =>
      rw [he] at h
      exact absurd h throw_ne_ok
    | none =>
      rw [he] at h
      exact Or.inr ⟨by simpa using hx, rfl, (set_eq_ok.1 h).symm⟩

/-- What one name binds. -/
def nameEntries (x : String) (e : Entry) : List (String × Entry) :=
  if isDiscard x then [] else [(x, e)]

lemma bindName_changes {s : ℕ} {x : String} {span : Span} {kind : BinderKind} {e : Entry}
    (h : bindName s x span kind e r = .ok () r') :
    Changes s (addEntries (nameEntries x e)) r r' := by
  rcases bindName_eq_ok h with ⟨hx, rfl⟩ | ⟨hx, -, rfl⟩
  · rw [nameEntries, if_pos hx, addEntries_nil]
    exact ⟨rfl, rfl, rfl, by simp, fun _ _ => rfl, fun _ => rfl⟩
  · rw [nameEntries, if_neg (by simp [hx])]
    refine ⟨ScopeTree.size_enter _ _ _ _, rfl, rfl, ?_, fun i hi => ?_, fun _ => rfl⟩
    · rw [ScopeTree.scopes_enter, if_pos rfl]
      rfl
    · rw [ScopeTree.scopes_enter, if_neg (Ne.symm hi)]

lemma paramEntries_cons (p : Ident Scoped) (ps : List (Ident Scoped)) :
    paramEntries (p :: ps) = nameEntries p.name .parameter ++ paramEntries ps := by
  unfold paramEntries nameEntries
  cases hp : isDiscard p.name <;> simp [hp]

lemma parameters_eq_ok {s : ℕ} {ps : List (Ident Span)} {ps' : List (Ident Scoped)}
    (h : parameters s ps r = .ok ps' r') :
    ps'.map (Ident.map Scoped.span) = ps ∧ (∀ p ∈ ps', p.ann.scope = s) ∧
      Changes s (addEntries (paramEntries ps')) r r' := by
  induction ps generalizing r ps' with
  | nil =>
    obtain ⟨rfl, rfl⟩ := pure_eq_ok.1 h
    refine ⟨rfl, by simp, ?_⟩
    rw [show paramEntries ([] : List (Ident Scoped)) = [] from rfl, addEntries_nil]
    exact ⟨rfl, rfl, rfl, by simp, fun _ _ => rfl, fun _ => rfl⟩
  | cons p ps ih =>
    rw [parameters] at h
    simp only [bind_eq_ok, pure_eq_ok] at h
    obtain ⟨⟨⟩, r₁, hbind, ps₁, r₂, hps, rfl, rfl⟩ := h
    obtain ⟨hmap, hscope, hch⟩ := ih hps
    refine ⟨?_, ?_, ?_⟩
    · rw [List.map_cons, hmap]
      rfl
    · intro q hq
      rcases List.mem_cons.1 hq with rfl | hq
      · rfl
      · exact hscope q hq
    · rw [paramEntries_cons, ← addEntries_comp]
      exact (bindName_changes hbind).trans hch

lemma register_eq_ok {b : Binding} (h : register b r = .ok () r') :
    r'.nextId = r.nextId ∧ r'.tree = r.tree.register b := by
  unfold register report at h
  simp only [bind_eq_ok, modify_eq_ok] at h
  obtain ⟨-, s₁, rfl, rfl⟩ := h
  exact ⟨rfl, rfl⟩

/-! ### Expressions and definitions -/

/-- An expression in the scope `s` has been resolved. -/
structure Resolved (s : ℕ) (e : Expr Span) (r : Resolving) (e' : Expr Scoped)
    (r' : Resolving) : Prop where
  grows : Grows (fun _ => True) r r'
  erase : e'.map Scoped.span = e
  opened : e'.opened = List.range' r.size (r'.size - r.size)
  wellScoped : e'.WellScoped r'.tree s

/-- Add definitions to the scope of their grouping. -/
def addDefs (ids : List DispatchId) (ds : List (Definition Scoped)) (sc : Scope) : Scope :=
  { sc with entries := sc.entries ++ groupEntries ids ds, declared := sc.declared ++ ids }

/-- Definitions of the grouping `g` have been resolved. -/
structure ResolvedDefs (g : ℕ) (ds : List (Definition Span)) (r : Resolving)
    (ids : List DispatchId) (ds' : List (Definition Scoped)) (r' : Resolving) : Prop where
  grows : Grows (· ≠ g) r r'
  group : r'.tree.scopes[g]? = r.tree.scopes[g]?.map (addDefs ids ds')
  erase : mapDefs Scoped.span ds' = ds
  opened : openedByDefs ds' = List.range' r.size (r'.size - r.size)
  wellScoped : DefsWellScoped r'.tree g ids ds'
  nodup : (boundNames ds').Nodup
  fresh : ∀ x ∈ boundNames ds', r.tree.entry? g x = none
  sorted : ids.Pairwise (· < ·)
  ids_mem : ∀ id ∈ ids, r.nextId ≤ id ∧ id < r'.nextId

lemma Resolved.later {s : ℕ} {e : Expr Span} {e' : Expr Scoped} {r'' : Resolving}
    {keep : ℕ → Prop} (h : Resolved s e r e' r') (h' : Grows keep r' r'')
    (hkeep : ∀ i, r.size ≤ i → i < r'.size → keep i) : e'.WellScoped r''.tree s := by
  refine h.wellScoped.congr h'.bindings ?_
  intro i hi
  rw [h.opened, List.mem_range'_1] at hi
  have := h.grows.size_le
  exact h'.scopes i (by omega) (hkeep i hi.1 (by omega))

lemma ResolvedDefs.later {g : ℕ} {ds : List (Definition Span)} {ids : List DispatchId}
    {ds' : List (Definition Scoped)} {r'' : Resolving} {keep : ℕ → Prop}
    (h : ResolvedDefs g ds r ids ds' r') (h' : Grows keep r' r'')
    (hkeep : ∀ i, r.size ≤ i → i < r'.size → keep i) : DefsWellScoped r''.tree g ids ds' := by
  refine h.wellScoped.congr h'.bindings ?_
  intro i hi
  rw [h.opened, List.mem_range'_1] at hi
  have := h.grows.size_le
  exact h'.scopes i (by omega) (hkeep i hi.1 (by omega))

/-- What resolution of an expression gives, from any sound state. -/
def ResolvesExpr (e : Expr Span) : Prop :=
  ∀ (s : ℕ) (r : Resolving) (e' : Expr Scoped) (r' : Resolving), r.Sound → s < r.size →
    expression s e r = .ok e' r' → Resolved s e r e' r'

/-- What resolution of the definitions of a grouping gives, from any sound state. -/
def ResolvesDefs (ds : List (Definition Span)) : Prop :=
  ∀ (g : ℕ) (r : Resolving) (ds' : List (Definition Scoped)) (r' : Resolving), r.Sound →
    g < r.size → definitions g ds r = .ok ds' r' → ∃ ids, ResolvedDefs g ds r ids ds' r'

lemma Resolved.refl {s : ℕ} {e : Expr Span} {e' : Expr Scoped} (hr : r.Sound)
    (herase : e'.map Scoped.span = e) (hopened : e'.opened = []) (hws : e'.WellScoped r.tree s) :
    Resolved s e r e' r :=
  ⟨.refl hr, herase, by rw [hopened, Nat.sub_self, List.range'_zero], hws⟩

lemma resolvesExpr_call {f x : Expr Span} {a : Span} (hf : ResolvesExpr f) (hx : ResolvesExpr x) :
    ResolvesExpr (.call f x a) := by
  intro s r e' r' hr hs h
  rw [expression] at h
  simp only [bind_eq_ok, pure_eq_ok] at h
  obtain ⟨f', r₁, h₁, x', r₂, h₂, rfl, rfl⟩ := h
  have hf' := hf s r f' r₁ hr hs h₁
  have hx' := hx s r₁ x' r₂ hf'.grows.sound (lt_of_lt_of_le hs hf'.grows.size_le) h₂
  refine ⟨hf'.grows.trans hx'.grows, ?_, ?_, ?_⟩
  · rw [Expr.map, hf'.erase, hx'.erase]
  · rw [Expr.opened, hf'.opened, hx'.opened, range'_glue hf'.grows.size_le hx'.grows.size_le]
  · rw [Expr.WellScoped]
    exact ⟨rfl, hf'.later hx'.grows (fun _ _ _ => trivial), hx'.wellScoped⟩

lemma resolvesExpr_ite {c t e : Expr Span} {a : Span} (hc : ResolvesExpr c) (ht : ResolvesExpr t)
    (he : ResolvesExpr e) : ResolvesExpr (.ite c t e a) := by
  intro s r e' r' hr hs h
  rw [expression] at h
  simp only [bind_eq_ok, pure_eq_ok] at h
  obtain ⟨c', r₁, h₁, t', r₂, h₂, e', r₃, h₃, rfl, rfl⟩ := h
  have hc' := hc s r c' r₁ hr hs h₁
  have hs₁ := lt_of_lt_of_le hs hc'.grows.size_le
  have ht' := ht s r₁ t' r₂ hc'.grows.sound hs₁ h₂
  have he' := he s r₂ e' r₃ ht'.grows.sound (lt_of_lt_of_le hs₁ ht'.grows.size_le) h₃
  refine ⟨(hc'.grows.trans ht'.grows).trans he'.grows, ?_, ?_, ?_⟩
  · rw [Expr.map, hc'.erase, ht'.erase, he'.erase]
  · rw [Expr.opened, hc'.opened, ht'.opened, he'.opened,
      range'_glue hc'.grows.size_le ht'.grows.size_le,
      range'_glue (hc'.grows.size_le.trans ht'.grows.size_le) he'.grows.size_le]
  · rw [Expr.WellScoped]
    exact ⟨rfl, hc'.later (ht'.grows.trans he'.grows) (fun _ _ _ => trivial),
      ht'.later he'.grows (fun _ _ _ => trivial), he'.wellScoped⟩

/-! ### Constructs that open a scope -/

/-- The scope of a function has been opened and holds its parameters. -/
structure Opened (kind : ScopeKind) (s : ℕ) (ps : List (Ident Span)) (r : Resolving)
    (inner : ℕ) (ps' : List (Ident Scoped)) (r' : Resolving) : Prop where
  inner_eq : inner = r.size
  size : r'.size = r.size + 1
  grows : Grows (fun _ => True) r r'
  erase : ps'.map (Ident.map Scoped.span) = ps
  params : ∀ p ∈ ps', p.ann.scope = inner
  scope : r'.tree.scopes[inner]? = some { kind, parent := some s, entries := paramEntries ps' }

lemma opened_of_eq_ok {kind : ScopeKind} {s inner : ℕ} {ps : List (Ident Span)}
    {ps' : List (Ident Scoped)} {r₁ : Resolving} (hr : r.Sound) (hs : s < r.size)
    (h₁ : openScope kind s r = .ok inner r₁) (h₂ : parameters inner ps r₁ = .ok ps' r') :
    Opened kind s ps r inner ps' r' := by
  obtain ⟨rfl, rfl⟩ := openScope_eq_ok h₁
  obtain ⟨hmap, hparams, hch⟩ := parameters_eq_ok h₂
  have hopen : Grows (· ≠ r.size) r { r with tree := r.tree.push kind s } :=
    grows_of_push hr hs (by rfl) (by rfl) _
  refine ⟨rfl, ?_, ?_, hmap, hparams, ?_⟩
  · rw [hch.size]
    exact ScopeTree.size_push _ _ _
  · exact (hopen.trans (hch.grows hopen.sound)).mono fun i hi _ => Nat.ne_of_lt hi
  · rw [hch.self]
    show Option.map _ (r.tree.push kind s).scopes[r.size]? = _
    rw [ScopeTree.scopes_push, if_pos rfl]
    simp [addEntries]

lemma resolvesExpr_lam {ps : List (Ident Span)} {b : Expr Span} {a : Span} (hb : ResolvesExpr b) :
    ResolvesExpr (.lam ps b a) := by
  intro s r e' r' hr hs h
  rw [expression] at h
  simp only [bind_eq_ok, pure_eq_ok] at h
  obtain ⟨inner, r₁, h₁, ps', r₂, h₂, b', r₃, h₃, rfl, rfl⟩ := h
  have hop := opened_of_eq_ok hr hs h₁ h₂
  have hinner : inner < r₂.size := by
    rw [hop.inner_eq, hop.size]
    exact Nat.lt_succ_self _
  have hb' := hb inner r₂ b' r₃ hop.grows.sound hinner h₃
  refine ⟨hop.grows.trans hb'.grows, ?_, ?_, ?_⟩
  · rw [Expr.map, hop.erase, hb'.erase]
  · have hle := hb'.grows.size_le
    rw [hop.size] at hle
    rw [Expr.opened, hb'.opened, hop.size, hop.inner_eq, range'_cons hle]
  · rw [Expr.WellScoped]
    exact ⟨hop.params, (hb'.grows.scopes inner hinner trivial).trans hop.scope, hb'.wellScoped⟩

/-- Once its body is done, a definition of the grouping `g` has got its number, its name and its
record; `inner` is the scope of its parameters. -/
structure Recorded (g inner : ℕ) (x : String) (b : Binding) (r r' : Resolving) : Prop where
  id_eq : b.id = r.nextId
  bound : r.nextId < dispatchIdBound
  nextId : r'.nextId = r.nextId + 1
  size : r'.size = r.size
  group : r'.tree.scopes[g]? = r.tree.scopes[g]?.map (fun sc => { sc with
    entries := sc.entries ++ nameEntries x (.binding b.id), declared := sc.declared ++ [b.id] })
  owner : r'.tree.scopes[inner]?
    = r.tree.scopes[inner]?.map (fun sc => { sc with owner := some b.id })
  other : ∀ i : ℕ, i ≠ g ∧ i ≠ inner → r'.tree.scopes[i]? = r.tree.scopes[i]?
  registered : ∃ t : ScopeTree, t.bindings = r.tree.bindings ∧ r'.tree = t.register b

lemma recorded_of_eq_ok {g inner : ℕ} {x : String} {span span' : Span} {arity : ℕ}
    {id : DispatchId} {r₁ r₂ : Resolving} (hne : g ≠ inner) (h₁ : freshId r = .ok id r₁)
    (h₂ : bindName g x span .definition (.binding id) r₁ = .ok () r₂)
    (h₃ : register { id, name := x, scope := g, paramScope := inner, arity, span := span' } r₂
      = .ok () r') :
    Recorded g inner x { id, name := x, scope := g, paramScope := inner, arity, span := span' }
      r r' := by
  obtain ⟨rfl, rfl, hbound⟩ := freshId_eq_ok h₁
  have hch := bindName_changes h₂
  obtain ⟨hnext, htree⟩ := register_eq_ok h₃
  have hscopes : ∀ i : ℕ, r'.tree.scopes[i]? =
      if inner = i then r₂.tree.scopes[i]?.map fun sc => { sc with owner := some r.nextId }
      else if g = i
        then r₂.tree.scopes[i]?.map fun sc => { sc with declared := sc.declared ++ [r.nextId] }
      else r₂.tree.scopes[i]? := by
    intro i
    rw [htree]
    exact ScopeTree.scopes_register _ _ hne i
  refine ⟨rfl, hbound, hnext.trans hch.nextId, ?_, ?_, ?_, ?_, r₂.tree, hch.bindings, htree⟩
  · show r'.tree.scopes.size = _
    rw [htree, ScopeTree.size_register]
    exact hch.size
  · rw [hscopes, if_neg hne.symm, if_pos rfl, hch.self, Option.map_map]
    rfl
  · rw [hscopes, if_pos rfl, hch.other inner hne.symm]
  · rintro i ⟨hig, hii⟩
    rw [hscopes, if_neg hii.symm, if_neg hig.symm, hch.other i hig]

section Recorded

variable {g inner : ℕ} {x : String} {b : Binding} (h : Recorded g inner x b r r')

include h

lemma Recorded.binding? (hr : r.Sound) : r'.tree.binding? b.id = some b := by
  obtain ⟨t, ht, htree⟩ := h.registered
  rw [htree]
  refine ScopeTree.binding?_register_self t b fun b' hb' => ?_
  rw [ht] at hb'
  rw [h.id_eq]
  exact (hr.ids b' hb').1.ne

/-- Recording a definition changes no scope but the two. -/
lemma Recorded.grows (hr : r.Sound) : Grows (fun i => i ≠ g ∧ i ≠ inner) r r' := by
  obtain ⟨t, ht, htree⟩ := h.registered
  refine ⟨⟨?_, ?_⟩, h.size.ge, ?_, fun i _ hi => h.other i hi, ?_⟩
  · -- the scopes around are the same, also for the two
    refine hr.parents.of_parents ?_
    intro i sc' hsc'
    by_cases hig : i = g
    · subst hig
      rw [h.group] at hsc'
      obtain ⟨sc, hsc, rfl⟩ := Option.map_eq_some_iff.1 hsc'
      exact ⟨sc, hsc, rfl⟩
    · by_cases hii : i = inner
      · subst hii
        rw [h.owner] at hsc'
        obtain ⟨sc, hsc, rfl⟩ := Option.map_eq_some_iff.1 hsc'
        exact ⟨sc, hsc, rfl⟩
      · exact ⟨sc', (h.other i ⟨hig, hii⟩).symm.trans hsc', rfl⟩
  · intro b' hb'
    rw [htree, ScopeTree.register, Array.mem_push, ht] at hb'
    rw [h.nextId]
    rcases hb' with hb' | rfl
    · exact ⟨(hr.ids b' hb').1.trans (Nat.lt_succ_self _), (hr.ids b' hb').2⟩
    · rw [h.id_eq]
      exact ⟨Nat.lt_succ_self _, h.bound⟩
  · rw [h.nextId]
    exact Nat.le_succ _
  · intro id b' hb'
    rw [htree]
    refine ScopeTree.binding?_register_of_some _ _ ?_
    rw [ScopeTree.binding?, ht]
    exact hb'

end Recorded

lemma resolvedDefs_singleton {g : ℕ} {n : Ident Span} {ps : List (Ident Span)}
    {b : Expr Span} {a : Span} {d' : Definition Scoped} (hb : ResolvesExpr b) (hr : r.Sound)
    (hg : g < r.size) (h : definition g ⟨n, ps, b, a⟩ r = .ok d' r') :
    ∃ id, ResolvedDefs g [⟨n, ps, b, a⟩] r [id] [d'] r' := by
  rw [definition] at h
  simp only [bind_eq_ok, pure_eq_ok] at h
  obtain ⟨inner, r₁, h₁, ps', r₂, h₂, b', r₃, h₃, id, r₄, h₄, ⟨⟩, r₅, h₅, ⟨⟩, r₆, h₆, rfl, rfl⟩ := h
  have hop := opened_of_eq_ok hr hg h₁ h₂
  have hinner : inner < r₂.size := by
    rw [hop.inner_eq, hop.size]
    exact Nat.lt_succ_self _
  have hne : g ≠ inner := by
    rw [hop.inner_eq]
    exact Nat.ne_of_lt hg
  have hb' := hb inner r₂ b' r₃ hop.grows.sound hinner h₃
  have hrec := recorded_of_eq_ok hne h₄ h₅ h₆
  have hgrow := hrec.grows hb'.grows.sound
  have hgrow₃ := hop.grows.trans hb'.grows
  have hg₃ : r₃.tree.scopes[g]? = r.tree.scopes[g]? := hgrow₃.scopes g hg trivial
  have hlen : ps'.length = ps.length := by rw [← hop.erase, List.length_map]
  have hscope : r₆.tree.scopes[inner]? = some (functionScope g id ps') := by
    rw [hrec.owner, hb'.grows.scopes inner hinner trivial, hop.scope]
    rfl
  have hbody : b'.WellScoped r₆.tree inner := by
    refine hb'.later hgrow ?_
    intro i hi _
    rw [hop.size] at hi
    have hi₀ := hop.inner_eq
    exact ⟨by omega, by omega⟩
  -- all parts of the grouping are known once the definition is recorded
  refine ⟨id, ⟨hgrow.sound, ?_, ?_, ?_, ?_⟩, ?_, ?_, ?_, ?_, ?_, ?_, by simp, ?_⟩
  · rw [hrec.size]
    exact hgrow₃.size_le
  · exact hgrow₃.nextId_le.trans hgrow.nextId_le
  · intro i hi hig
    have hi₀ := hop.inner_eq
    rw [hgrow.scopes i (lt_of_lt_of_le hi hgrow₃.size_le) ⟨hig, by omega⟩,
      hgrow₃.scopes i hi trivial]
  · exact fun id b h => hgrow.bindings id b (hgrow₃.bindings id b h)
  · rw [hrec.group, hg₃]
    rfl
  · rw [mapDefs, mapDefs, Definition.map, hop.erase, hb'.erase]
    rfl
  · have hle := hb'.grows.size_le
    rw [hop.size] at hle
    rw [openedByDefs, openedByDefs, List.append_nil, hb'.opened, hrec.size, hop.size,
      hop.inner_eq, range'_cons hle]
  · refine DefsWellScoped.cons_iff.2 ⟨⟨rfl, hop.params, hscope, ?_, hbody⟩, .nil⟩
    rw [hrec.binding? hb'.grows.sound, bindingOf, hlen]
  · rw [boundNames]
    cases hd : isDiscard n.name <;> simp [Definition.isDiscard, hd]
  · intro x hx
    have hx' : isDiscard n.name = false ∧ x = n.name := by
      cases hd : isDiscard n.name <;> simp_all [boundNames, Definition.isDiscard]
    obtain ⟨hd, rfl⟩ := hx'
    obtain ⟨-, rfl, -⟩ := freshId_eq_ok h₄
    rcases bindName_eq_ok h₅ with ⟨hd', -⟩ | ⟨-, hentry, -⟩
    · rw [hd] at hd'
      exact absurd hd' (by simp)
    · unfold ScopeTree.entry?
      rw [← hg₃]
      exact hentry
  · intro i hi
    have hid : id = r₃.nextId := hrec.id_eq
    rw [List.mem_singleton.1 hi, hid, hrec.nextId]
    exact ⟨hgrow₃.nextId_le, Nat.lt_succ_self _⟩

lemma resolvedDefs_nil {g : ℕ} (hr : r.Sound) : ResolvedDefs g [] r [] [] r where
  grows := .refl hr
  group := by
    cases r.tree.scopes[g]? <;> simp [addDefs, groupEntries]
  erase := by rw [mapDefs]
  opened := by rw [openedByDefs, Nat.sub_self, List.range'_zero]
  wellScoped := .nil
  nodup := by simp [boundNames]
  fresh := by simp [boundNames]
  sorted := by simp
  ids_mem := by simp

/-- The names of a grouping that has got some definitions are taken. -/
lemma ResolvedDefs.entry?_eq_none {g : ℕ} {ds : List (Definition Span)} {ids : List DispatchId}
    {ds' : List (Definition Scoped)} (h : ResolvedDefs g ds r ids ds' r') {x : String}
    (hx : r'.tree.entry? g x = none) (hg : g < r.size) :
    r.tree.entry? g x = none ∧ x ∉ boundNames ds' := by
  obtain ⟨sc, hsc⟩ : ∃ sc, r.tree.scopes[g]? = some sc := ⟨_, Array.getElem?_eq_getElem hg⟩
  unfold ScopeTree.entry? at hx
  rw [h.group, hsc] at hx
  have hx' : (sc.entries ++ groupEntries ids ds').lookup x = none := hx
  rw [lookup_append_or, Option.or_eq_none_iff] at hx'
  rw [ScopeTree.entry_of_scope hsc]
  refine ⟨hx'.1, ?_⟩
  rw [← map_fst_groupEntries h.wellScoped.length]
  exact lookup_eq_none_iff_notMem.1 hx'.2

lemma ResolvedDefs.cons {g : ℕ} {d : Definition Span} {ds : List (Definition Span)}
    {id : DispatchId} {ids : List DispatchId} {d' : Definition Scoped}
    {ds' : List (Definition Scoped)} {r₁ : Resolving} (h₁ : ResolvedDefs g [d] r [id] [d'] r₁)
    (h₂ : ResolvedDefs g ds r₁ ids ds' r') (hg : g < r.size) :
    ResolvedDefs g (d :: ds) r (id :: ids) (d' :: ds') r' where
  grows := h₁.grows.trans h₂.grows
  group := by
    rw [h₂.group, h₁.group, Option.map_map]
    congr 1
    funext sc
    simp [addDefs, groupEntries_cons id ids]
  erase := by
    have h := h₁.erase
    rw [mapDefs, mapDefs] at h
    rw [mapDefs, h₂.erase, (List.cons.inj h).1]
  opened := by
    have h := h₁.opened
    obtain ⟨n, ps, b, a⟩ := d'
    rw [openedByDefs, openedByDefs, List.append_nil] at h
    rw [openedByDefs, h, h₂.opened, range'_glue h₁.grows.size_le h₂.grows.size_le]
  wellScoped := by
    have h := h₁.later h₂.grows (fun i hi _ => by omega)
    exact DefsWellScoped.cons_iff.2 ⟨(DefsWellScoped.cons_iff.1 h).1, h₂.wellScoped⟩
  nodup := by
    rw [boundNames_cons]
    refine List.nodup_append.2 ⟨h₁.nodup, h₂.nodup, ?_⟩
    rintro x hx y hy rfl
    exact (h₁.entry?_eq_none (h₂.fresh x hy) hg).2 hx
  fresh := by
    intro x hx
    rw [boundNames_cons] at hx
    rcases List.mem_append.1 hx with hx | hx
    · exact h₁.fresh x hx
    · exact (h₁.entry?_eq_none (h₂.fresh x hx) hg).1
  sorted := by
    refine List.pairwise_cons.2 ⟨fun i hi => ?_, h₂.sorted⟩
    exact lt_of_lt_of_le (h₁.ids_mem id (by simp)).2 (h₂.ids_mem i hi).1
  ids_mem := by
    intro i hi
    rcases List.mem_cons.1 hi with rfl | hi
    · have h := h₁.ids_mem i (by simp)
      exact ⟨h.1, lt_of_lt_of_le h.2 h₂.grows.nextId_le⟩
    · have h := h₂.ids_mem i hi
      exact ⟨h₁.grows.nextId_le.trans h.1, h.2⟩

lemma resolvesDefs_cons {n : Ident Span} {ps : List (Ident Span)} {b : Expr Span} {a : Span}
    {ds : List (Definition Span)} (hb : ResolvesExpr b) (hds : ResolvesDefs ds) :
    ResolvesDefs (⟨n, ps, b, a⟩ :: ds) := by
  intro g r ds' r' hr hg h
  rw [definitions] at h
  simp only [bind_eq_ok, pure_eq_ok] at h
  obtain ⟨d', r₁, h₁, ds', r₂, h₂, rfl, rfl⟩ := h
  obtain ⟨id, hd⟩ := resolvedDefs_singleton hb hr hg h₁
  obtain ⟨ids, hds'⟩ := hds g r₁ ds' r₂ hd.grows.sound (lt_of_lt_of_le hg hd.grows.size_le) h₂
  exact ⟨id :: ids, hd.cons hds' hg⟩

/-- The definitions of a grouping whose scope has just been opened. -/
lemma ResolvedDefs.declaredIn {kind : ScopeKind} {s : ℕ} {ds : List (Definition Span)}
    {ids : List DispatchId} {ds' : List (Definition Scoped)} {r₁ : Resolving}
    (h : ResolvedDefs r.size ds r₁ ids ds' r') (htree : r₁.tree = r.tree.push kind s) :
    DeclaredIn r'.tree kind s r.size ids ds' := by
  refine ⟨?_, h.nodup, h.sorted⟩
  rw [h.group, htree, ScopeTree.scopes_push, if_pos rfl]
  simp [addDefs, groupScope]

lemma resolvesExpr_letIn {ds : List (Definition Span)} {b : Expr Span} {a : Span}
    (hds : ResolvesDefs ds) (hb : ResolvesExpr b) : ResolvesExpr (.letIn ds b a) := by
  intro s r e' r' hr hs h
  rw [expression] at h
  simp only [bind_eq_ok, pure_eq_ok, report, modify_eq_ok] at h
  obtain ⟨inner, r₁, h₁, -, r₂, h₂, ds', r₃, h₃, b', r₄, h₄, rfl, rfl⟩ := h
  obtain ⟨rfl, rfl⟩ := openScope_eq_ok h₁
  have htree : r₂.tree = r.tree.push .letBlock s := by rw [← h₂]
  have hnext : r₂.nextId = r.nextId := by rw [← h₂]
  have hsize : r₂.size = r.size + 1 := by rw [size, htree, ScopeTree.size_push]
  have hopen := grows_of_push hr hs htree hnext (· ≠ r.size)
  obtain ⟨ids, hds'⟩ := hds r.size r₂ ds' r₃ hopen.sound (by omega) h₃
  have hle := hds'.grows.size_le
  have hb' := hb r.size r₃ b' r₄ hds'.grows.sound (by omega) h₄
  have hle' := hb'.grows.size_le
  have hgroup := hds'.declaredIn htree
  have hgrow : Grows (fun _ => True) r r₃ :=
    (hopen.trans hds'.grows).mono fun i hi _ => Nat.ne_of_lt hi
  refine ⟨hgrow.trans hb'.grows, ?_, ?_, ?_⟩
  · rw [Expr.map, hds'.erase, hb'.erase]
  · show r.size :: openedByDefs ds' ++ b'.opened = _
    rw [hds'.opened, hb'.opened, List.cons_append, range'_glue hle hle', hsize,
      range'_cons (by omega)]
  · rw [Expr.WellScoped]
    refine ⟨ids, ⟨?_, hgroup.nodup, hgroup.sorted⟩, ?_, hb'.wellScoped⟩
    · exact (hb'.grows.scopes r.size (by omega) trivial).trans hgroup.scope
    · exact hds'.later hb'.grows fun _ _ _ => trivial

mutual

lemma resolvesExpr : ∀ e : Expr Span, ResolvesExpr e
  | .ident i => by
    intro s r e' r' hr hs h
    rw [expression, pure_eq_ok] at h
    obtain ⟨rfl, rfl⟩ := h
    exact .refl hr rfl rfl rfl
  | .int v a => by
    intro s r e' r' hr hs h
    rw [expression, pure_eq_ok] at h
    obtain ⟨rfl, rfl⟩ := h
    exact .refl hr rfl rfl rfl
  | .lam _ b _ => resolvesExpr_lam (resolvesExpr b)
  | .call f x _ => resolvesExpr_call (resolvesExpr f) (resolvesExpr x)
  | .ite c t e _ => resolvesExpr_ite (resolvesExpr c) (resolvesExpr t) (resolvesExpr e)
  | .letIn ds b _ => resolvesExpr_letIn (resolvesDefs ds) (resolvesExpr b)

lemma resolvesDefs : ∀ ds : List (Definition Span), ResolvesDefs ds
  | [] => by
    intro g r ds' r' hr hg h
    rw [definitions, pure_eq_ok] at h
    obtain ⟨rfl, rfl⟩ := h
    exact ⟨[], resolvedDefs_nil hr⟩
  | ⟨_, _, b, _⟩ :: ds => resolvesDefs_cons (resolvesExpr b) (resolvesDefs ds)

end

end ResolveM

/-! ### Programs -/

namespace Resolving

variable (names : List String) (seed : DispatchId) (log : Array Event)

/-- Where resolution begins. -/
def start : Resolving where
  tree := .ofBuiltins names
  nextId := seed
  log := log

/-- Where the definitions of the program are resolved: its scope has been opened. -/
def opened : Resolving where
  tree := (ScopeTree.ofBuiltins names).push .program ScopeTree.root
  nextId := seed
  log := log.push (.resolvingProgram 1)

lemma sound_start : (start names seed log).Sound where
  parents := by
    intro i sc p hsc hp
    rcases i with _ | i <;> simp [start, ScopeTree.ofBuiltins] at hsc
    subst hsc
    exact absurd hp (by simp)
  ids := by simp [start, ScopeTree.ofBuiltins]

lemma tree_opened : (opened names seed log).tree
    = (start names seed log).tree.push .program ScopeTree.root := rfl

lemma grows_opened : Grows (· ≠ 1) (start names seed log) (opened names seed log) :=
  ResolveM.grows_of_push (sound_start names seed log) Nat.one_pos (tree_opened names seed log)
    rfl _

end Resolving

section Program

variable {names : List String} {seed : DispatchId} {p : Program Span} {log log' : Array Event}
  {r : Resolution}

/-- To resolve a program is to resolve its definitions. -/
lemma resolve_eq (names : List String) (seed : DispatchId) (p : Program Span) (log : Array Event) :
    resolve names seed p log =
      match ResolveM.definitions 1 p.defs (.opened names seed log) with
      | .ok ds r => .ok ⟨r.tree, ds, p.ann, 1⟩ r.log
      | .error e r => .error e r.log := by
  have hprogram : ResolveM.program p { tree := .ofBuiltins names, nextId := seed, log }
      = (ResolveM.definitions 1 p.defs >>= fun ds => pure (⟨ds, p.ann, 1⟩ : Program Scoped))
          (.opened names seed log) := rfl
  unfold resolve
  rw [hprogram]
  cases hrun : ResolveM.definitions 1 p.defs (.opened names seed log) with
  | ok ds r => rw [bind_of_ok hrun]; rfl
  | error e r => rw [bind_of_error hrun]

lemma resolve_eq_ok (h : resolve names seed p log = .ok r log') : ∃ ds r',
    ResolveM.definitions 1 p.defs (.opened names seed log) = .ok ds r' ∧
      r = ⟨r'.tree, ds, p.ann, 1⟩ := by
  rw [resolve_eq] at h
  split at h
  · rename_i ds r' hrun
    exact ⟨ds, r', hrun, (EStateM.Result.ok.inj h).1.symm⟩
  · exact absurd h (by simp)

/-- A program that resolves is well-scoped, and resolution leaves the program itself unchanged. -/
theorem resolve_wellScoped (h : resolve names seed p log = .ok r log') :
    r.program.map Scoped.span = p ∧ ∃ ids, r.WellScoped names ids := by
  obtain ⟨ds, r', hrun, rfl⟩ := resolve_eq_ok h
  have hopen := grows_opened names seed log
  have hsize : (Resolving.opened names seed log).size = 2 := by
    rw [size, Resolving.opened, ScopeTree.size_push]
    rfl
  obtain ⟨ids, hds⟩ := ResolveM.resolvesDefs p.defs 1 _ ds r' hopen.sound (by omega) hrun
  have hle := hds.grows.size_le
  have hgroup : DeclaredIn r'.tree .program ScopeTree.root 1 ids ds :=
    ResolveM.ResolvedDefs.declaredIn (r := .start names seed log) hds (tree_opened names seed log)
  refine ⟨?_, ids, hds.grows.sound.parents, ?_, hgroup, hds.wellScoped, ?_,
    fun b hb => (hds.grows.sound.ids b hb).2⟩
  · rw [Program.map, ← mapDefs_eq_map, hds.erase]
  · exact (hopen.trans hds.grows).scopes 0 Nat.one_pos (by simp)
  · show 1 :: openedByDefs ds = List.range' 1 (r'.size - 1)
    rw [hds.opened, hsize, range'_cons (by omega)]

end Program

end Letrec
