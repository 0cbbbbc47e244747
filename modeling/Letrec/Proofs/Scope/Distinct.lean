import Mathlib
import Letrec.Proofs.Scope.Free

/-!
# When resolution succeeds

Resolution fails for two reasons only: a scope would bind a name twice, or there are not enough
numbers for the definitions.  Neither depends on the tree that resolution builds: the first is a
property of the binders of the program (`Program.Distinct`), the second of the number of its
definitions.  Main result: `resolves_iff`.
-/

namespace Letrec

variable {α β : Type}

/-! ### Distinct binders -/

mutual

/-- No scope of an expression binds a name twice. -/
def Expr.Distinct : Expr α → Prop
  | .ident _ | .int _ _ => True
  | .lam ps b _ => (boundParams ps).Nodup ∧ b.Distinct
  | .call f x _ => f.Distinct ∧ x.Distinct
  | .ite c p n _ => c.Distinct ∧ p.Distinct ∧ n.Distinct
  | .letIn ds b _ => (boundNames ds).Nodup ∧ DefsDistinct ds ∧ b.Distinct

/-- No scope inside of the definitions binds a name twice. -/
def DefsDistinct : List (Definition α) → Prop
  | [] => True
  | ⟨_, ps, b, _⟩ :: ds => (boundParams ps).Nodup ∧ b.Distinct ∧ DefsDistinct ds

end

/-- No scope of a program binds a name twice. -/
def Program.Distinct (p : Program α) : Prop := (boundNames p.defs).Nodup ∧ DefsDistinct p.defs

mutual

/-- The number of definitions in an expression. -/
def Expr.defCount : Expr α → ℕ
  | .ident _ | .int _ _ => 0
  | .lam _ b _ => b.defCount
  | .call f x _ => f.defCount + x.defCount
  | .ite c p n _ => c.defCount + p.defCount + n.defCount
  | .letIn ds b _ => defCountOfDefs ds + b.defCount

/-- The number of definitions in a list of definitions, with those of the list. -/
def defCountOfDefs : List (Definition α) → ℕ
  | [] => 0
  | ⟨_, _, b, _⟩ :: ds => b.defCount + 1 + defCountOfDefs ds

end

lemma defsDistinct_iff {ds : List (Definition α)} :
    DefsDistinct ds ↔ ∀ d ∈ ds, (boundParams d.params).Nodup ∧ d.body.Distinct := by
  induction ds with
  | nil => simp [DefsDistinct]
  | cons d ds ih =>
    obtain ⟨n, ps, b, a⟩ := d
    rw [DefsDistinct, ih, List.forall_mem_cons, and_assoc]

lemma defCountOfDefs_eq_sum (ds : List (Definition α)) :
    defCountOfDefs ds = (ds.map fun d => d.body.defCount + 1).sum := by
  induction ds with
  | nil => simp [defCountOfDefs]
  | cons d ds ih =>
    obtain ⟨n, ps, b, a⟩ := d
    rw [defCountOfDefs, ih, List.map_cons, List.sum_cons]

lemma boundParams_cons (p : Ident α) (ps : List (Ident α)) :
    boundParams (p :: ps)
      = if isDiscard p.name then boundParams ps else p.name :: boundParams ps := by
  unfold boundParams
  cases h : isDiscard p.name <;> simp [h]

lemma boundParams_eq_filter (ps : List (Ident α)) :
    boundParams ps = (ps.map Ident.name).filter fun x => !isDiscard x := by
  unfold boundParams
  rw [List.filter_map]
  rfl

lemma mem_boundNames_singleton {d : Definition α} {x : String} :
    x ∈ boundNames [d] ↔ x = d.name.name ∧ d.isDiscard = false := by
  unfold boundNames
  cases h : d.isDiscard <;> simp [h]

lemma nodup_boundNames_singleton (d : Definition α) : (boundNames [d]).Nodup := by
  unfold boundNames
  cases h : d.isDiscard <;> simp [h]

lemma boundNames_eq_filter (ds : List (Definition α)) :
    boundNames ds = (ds.map fun d => d.name.name).filter fun x => !isDiscard x := by
  unfold boundNames
  rw [List.filter_map]
  rfl

/-! ### Numbers -/

/-- There are `k` more numbers from `n` on. -/
def Room (n k : ℕ) : Prop := k = 0 ∨ n + k < dispatchIdBound

lemma room_add {n k l : ℕ} : Room n (k + l) ↔ Room n k ∧ Room (n + k) l := by
  unfold Room
  omega

/-! ### Steps that succeed -/

namespace ResolveM

open Resolving

variable {r r' : Resolving}

/-- A step of resolution succeeds. -/
def Succeeds (x : ResolveM α) (r : Resolving) : Prop := ∃ a r', x r = .ok a r'

lemma succeeds_bind {x : ResolveM α} {f : α → ResolveM β} :
    Succeeds (x >>= f) r ↔ ∃ a r₁, x r = .ok a r₁ ∧ Succeeds (f a) r₁ := by
  constructor
  · rintro ⟨b, r', h⟩
    obtain ⟨a, r₁, hx, hf⟩ := bind_eq_ok.1 h
    exact ⟨a, r₁, hx, b, r', hf⟩
  · rintro ⟨a, r₁, hx, b, r', hf⟩
    exact ⟨b, r', bind_eq_ok.2 ⟨a, r₁, hx, hf⟩⟩

lemma succeeds_map {x : ResolveM α} {f : α → β} :
    Succeeds (x >>= fun a => pure (f a)) r ↔ Succeeds x r := by
  rw [succeeds_bind]
  exact ⟨fun ⟨a, r₁, hx, _⟩ => ⟨a, r₁, hx⟩, fun ⟨a, r₁, hx⟩ => ⟨a, r₁, hx, _, _, rfl⟩⟩

lemma succeeds_freshId : Succeeds freshId r ↔ r.nextId + 1 < dispatchIdBound := by
  constructor
  · rintro ⟨id, r', h⟩
    by_contra hlt
    rw [freshId_of_not_lt hlt] at h
    exact absurd h (by simp)
  · exact fun hlt => ⟨_, _, freshId_of_lt hlt⟩

lemma succeeds_bindName {s : ℕ} {x : String} {span : Span} {kind : BinderKind} {e : Entry} :
    Succeeds (bindName s x span kind e) r ↔ isDiscard x = true ∨ r.tree.entry? s x = none := by
  constructor
  · rintro ⟨u, r', h⟩
    rcases bindName_eq_ok h with ⟨hx, -⟩ | ⟨-, hx, -⟩
    · exact Or.inl hx
    · exact Or.inr hx
  · intro h
    unfold bindName
    by_cases hx : isDiscard x = true
    · rw [if_pos hx]
      exact ⟨_, _, rfl⟩
    · rw [if_neg hx]
      refine succeeds_bind.2 ⟨r, r, rfl, ?_⟩
      rw [h.resolve_left hx]
      exact ⟨_, _, rfl⟩

lemma lookup_entry_of_changes {s : ℕ} {es : List (String × Entry)}
    (h : Changes s (addEntries es) r r') (hs : s < r.size) (x : String) :
    r'.tree.entry? s x = (r.tree.entry? s x).or (es.lookup x) := by
  obtain ⟨sc, hsc⟩ : ∃ sc, r.tree.scopes[s]? = some sc := ⟨_, Array.getElem?_eq_getElem hs⟩
  have hsc' : r'.tree.scopes[s]? = some (addEntries es sc) := by rw [h.self, hsc, Option.map_some]
  rw [ScopeTree.entry_of_scope hsc, ScopeTree.entry_of_scope hsc', Scope.get?, Scope.get?,
    addEntries, lookup_append_or]

lemma succeeds_parameters {s : ℕ} {ps : List (Ident Span)} (hs : s < r.size) :
    Succeeds (parameters s ps) r ↔
      (boundParams ps).Nodup ∧ ∀ x ∈ boundParams ps, r.tree.entry? s x = none := by
  induction ps generalizing r with
  | nil => exact ⟨fun _ => by simp [boundParams], fun _ => ⟨_, _, rfl⟩⟩
  | cons p ps ih =>
    rw [parameters, succeeds_bind, boundParams_cons]
    simp only [succeeds_map]
    constructor
    · rintro ⟨⟨⟩, r₁, hbind, hps⟩
      have hch := bindName_changes hbind
      obtain ⟨hnodup, hfresh⟩ := (ih (hch.size ▸ hs)).1 hps
      simp only [lookup_entry_of_changes hch hs, Option.or_eq_none_iff] at hfresh
      rcases bindName_eq_ok hbind with ⟨hdisc, -⟩ | ⟨hdisc, hnone, -⟩
      · rw [if_pos hdisc]
        exact ⟨hnodup, fun x hx => (hfresh x hx).1⟩
      · have hp : p.name ∉ boundParams ps := by
          intro hp
          have hlookup := (hfresh _ hp).2
          rw [nameEntries, if_neg (by simp [hdisc]), List.lookup_cons_self] at hlookup
          exact absurd hlookup (by simp)
        rw [if_neg (by simp [hdisc])]
        refine ⟨List.nodup_cons.2 ⟨hp, hnodup⟩, ?_⟩
        exact List.forall_mem_cons.2 ⟨hnone, fun x hx => (hfresh x hx).1⟩
    · rintro ⟨hnodup, hfresh⟩
      have hbinds : Succeeds (bindName s p.name p.ann .parameter .parameter) r := by
        rw [succeeds_bindName]
        by_cases hdisc : isDiscard p.name = true
        · exact Or.inl hdisc
        · rw [if_neg hdisc] at hfresh
          exact Or.inr (hfresh _ List.mem_cons_self)
      obtain ⟨⟨⟩, r₁, hbind⟩ := hbinds
      have hch := bindName_changes hbind
      refine ⟨(), r₁, hbind, (ih (hch.size ▸ hs)).2 ?_⟩
      simp only [lookup_entry_of_changes hch hs, Option.or_eq_none_iff]
      by_cases hdisc : isDiscard p.name = true
      · rw [if_pos hdisc] at hnodup hfresh
        rw [nameEntries, if_pos hdisc]
        exact ⟨hnodup, fun x hx => ⟨hfresh x hx, rfl⟩⟩
      · rw [if_neg hdisc] at hnodup hfresh
        rw [List.nodup_cons] at hnodup
        rw [nameEntries, if_neg hdisc]
        refine ⟨hnodup.2, fun x hx => ⟨hfresh x (List.mem_cons_of_mem _ hx), ?_⟩⟩
        have hne : x ≠ p.name := fun heq => hnodup.1 (heq ▸ hx)
        rw [lookup_cons_ite, if_neg hne]
        rfl

lemma size_lt_of_push {kind : ScopeKind} {s : ℕ} (htree : r'.tree = r.tree.push kind s) :
    r.size < r'.size := by
  rw [Resolving.size, Resolving.size, htree, ScopeTree.size_push]
  exact Nat.lt_succ_self _

/-- A scope that has just been opened binds nothing. -/
lemma entry?_of_push {kind : ScopeKind} {s : ℕ} (htree : r'.tree = r.tree.push kind s)
    (x : String) : r'.tree.entry? r.size x = none := by
  rw [htree, ScopeTree.entry_of_scope (by rw [ScopeTree.scopes_push, if_pos rfl])]
  rfl

/-- The scope of a function can be opened if its parameters are distinct. -/
lemma succeeds_open {kind : ScopeKind} {s : ℕ} {ps : List (Ident Span)} :
    (∃ inner r₁, openScope kind s r = .ok inner r₁ ∧ Succeeds (parameters inner ps) r₁) ↔
      (boundParams ps).Nodup := by
  let r₁ : Resolving := { r with tree := r.tree.push kind s }
  have hsize : r.size < r₁.size := size_lt_of_push rfl
  constructor
  · rintro ⟨inner, r₁, hopen, hps⟩
    obtain ⟨rfl, rfl⟩ := openScope_eq_ok hopen
    exact ((succeeds_parameters hsize).1 hps).1
  · intro hnodup
    exact ⟨r.size, r₁, rfl,
      (succeeds_parameters hsize).2 ⟨hnodup, fun x _ => entry?_of_push rfl x⟩⟩

/-! ### Expressions and definitions -/

/-- When resolution of an expression succeeds, and how many numbers it takes. -/
def SucceedsExpr (e : Expr Span) : Prop :=
  ∀ (s : ℕ) (r : Resolving), r.Sound → s < r.size →
    (Succeeds (expression s e) r ↔ e.Distinct ∧ Room r.nextId e.defCount) ∧
      ∀ e' r', expression s e r = .ok e' r' → r'.nextId = r.nextId + e.defCount

/-- When resolution of the definitions of a grouping succeeds, and how many numbers it takes. -/
def SucceedsDefs (ds : List (Definition Span)) : Prop :=
  ∀ (g : ℕ) (r : Resolving), r.Sound → g < r.size →
    (Succeeds (definitions g ds) r ↔ ((boundNames ds).Nodup ∧
      ∀ x ∈ boundNames ds, r.tree.entry? g x = none) ∧ DefsDistinct ds ∧
        Room r.nextId (defCountOfDefs ds)) ∧
      ∀ ds' r', definitions g ds r = .ok ds' r' → r'.nextId = r.nextId + defCountOfDefs ds

/-- Two steps one after the other, each with its own condition. -/
lemma succeeds_seq {x : ResolveM α} {f : α → ResolveM β} {P Q : Prop} {k l : ℕ}
    (hx : Succeeds x r ↔ P ∧ Room r.nextId k) (hnext : ∀ a r₁, x r = .ok a r₁ →
      r₁.nextId = r.nextId + k ∧ (Succeeds (f a) r₁ ↔ Q ∧ Room r₁.nextId l)) :
    Succeeds (x >>= f) r ↔ (P ∧ Q) ∧ Room r.nextId (k + l) := by
  rw [succeeds_bind, room_add]
  constructor
  · rintro ⟨a, r₁, hok, hf⟩
    obtain ⟨heq, hiff⟩ := hnext a r₁ hok
    obtain ⟨hP, hk⟩ := hx.1 ⟨a, r₁, hok⟩
    obtain ⟨hQ, hl⟩ := hiff.1 hf
    exact ⟨⟨hP, hQ⟩, hk, heq ▸ hl⟩
  · rintro ⟨⟨hP, hQ⟩, hk, hl⟩
    obtain ⟨a, r₁, hok⟩ := hx.2 ⟨hP, hk⟩
    obtain ⟨heq, hiff⟩ := hnext a r₁ hok
    exact ⟨a, r₁, hok, hiff.2 ⟨hQ, heq.symm ▸ hl⟩⟩

/-- The parts of an expression are resolved one after the other. -/
lemma SucceedsExpr.next {e : Expr Span} (he : SucceedsExpr e) {s : ℕ} (hr : r.Sound)
    (hs : s < r.size) {e' : Expr Scoped} (h : expression s e r = .ok e' r') :
    r'.Sound ∧ s < r'.size ∧ r'.nextId = r.nextId + e.defCount := by
  have hgrows := (resolvesExpr e s r e' r' hr hs h).grows
  exact ⟨hgrows.sound, lt_of_lt_of_le hs hgrows.size_le, (he s r hr hs).2 e' r' h⟩

lemma succeedsExpr_call {f x : Expr Span} {a : Span} (hf : SucceedsExpr f) (hx : SucceedsExpr x) :
    SucceedsExpr (.call f x a) := by
  intro s r hr hs
  rw [expression, Expr.Distinct, Expr.defCount]
  constructor
  · refine succeeds_seq (hf s r hr hs).1 fun f' r₁ h₁ => ?_
    obtain ⟨hr₁, hs₁, hnext₁⟩ := hf.next hr hs h₁
    exact ⟨hnext₁, succeeds_map.trans (hx s r₁ hr₁ hs₁).1⟩
  · intro e' r' h
    simp only [bind_eq_ok, pure_eq_ok] at h
    obtain ⟨f', r₁, h₁, x', r₂, h₂, -, rfl⟩ := h
    obtain ⟨hr₁, hs₁, hnext₁⟩ := hf.next hr hs h₁
    rw [(hx.next hr₁ hs₁ h₂).2.2, hnext₁, Nat.add_assoc]

lemma succeedsExpr_ite {c t e : Expr Span} {a : Span} (hc : SucceedsExpr c) (ht : SucceedsExpr t)
    (he : SucceedsExpr e) : SucceedsExpr (.ite c t e a) := by
  intro s r hr hs
  rw [expression, Expr.Distinct, Expr.defCount, Nat.add_assoc]
  constructor
  · refine succeeds_seq (hc s r hr hs).1 fun c' r₁ h₁ => ?_
    obtain ⟨hr₁, hs₁, hnext₁⟩ := hc.next hr hs h₁
    refine ⟨hnext₁, succeeds_seq (ht s r₁ hr₁ hs₁).1 fun t' r₂ h₂ => ?_⟩
    obtain ⟨hr₂, hs₂, hnext₂⟩ := ht.next hr₁ hs₁ h₂
    exact ⟨hnext₂, succeeds_map.trans (he s r₂ hr₂ hs₂).1⟩
  · intro e₀ r' h
    simp only [bind_eq_ok, pure_eq_ok] at h
    obtain ⟨c', r₁, h₁, t', r₂, h₂, e', r₃, h₃, -, rfl⟩ := h
    obtain ⟨hr₁, hs₁, hnext₁⟩ := hc.next hr hs h₁
    obtain ⟨hr₂, hs₂, hnext₂⟩ := ht.next hr₁ hs₁ h₂
    rw [(he.next hr₂ hs₂ h₃).2.2, hnext₂, hnext₁, Nat.add_assoc, Nat.add_assoc]

lemma Opened.next {kind : ScopeKind} {s inner : ℕ} {ps : List (Ident Span)}
    {ps' : List (Ident Scoped)} {r₁ : Resolving} (hr : r.Sound) (hs : s < r.size)
    (h₁ : openScope kind s r = .ok inner r₁) (h₂ : parameters inner ps r₁ = .ok ps' r') :
    r'.Sound ∧ inner < r'.size ∧ r'.nextId = r.nextId := by
  have hop := opened_of_eq_ok hr hs h₁ h₂
  refine ⟨hop.grows.sound, ?_, ?_⟩
  · rw [hop.inner_eq, hop.size]
    exact Nat.lt_succ_self _
  · obtain ⟨rfl, rfl⟩ := openScope_eq_ok h₁
    exact (parameters_eq_ok h₂).2.2.nextId

/-- A function: its scope is opened, and what follows has a condition of its own. -/
lemma succeeds_function {kind : ScopeKind} {s : ℕ} {ps : List (Ident Span)}
    {f : ℕ → List (Ident Scoped) → ResolveM α} {Q : Prop} (hr : r.Sound) (hs : s < r.size)
    (hf : ∀ inner ps' r', r'.Sound → inner < r'.size → r'.nextId = r.nextId →
      Grows (fun _ => True) r r' → (Succeeds (f inner ps') r' ↔ Q)) :
    Succeeds (do let inner ← openScope kind s; let ps' ← parameters inner ps; f inner ps') r ↔
      (boundParams ps).Nodup ∧ Q := by
  rw [succeeds_bind]
  simp only [succeeds_bind]
  constructor
  · rintro ⟨inner, r₁, h₁, ps', r₂, h₂, h⟩
    obtain ⟨hr₂, hinner, hnext⟩ := Opened.next hr hs h₁ h₂
    exact ⟨succeeds_open.1 ⟨inner, r₁, h₁, ps', r₂, h₂⟩,
      (hf inner ps' r₂ hr₂ hinner hnext (opened_of_eq_ok hr hs h₁ h₂).grows).1 h⟩
  · rintro ⟨hnodup, hQ⟩
    obtain ⟨inner, r₁, h₁, ps', r₂, h₂⟩ :
        ∃ inner r₁, openScope kind s r = .ok inner r₁ ∧ Succeeds (parameters inner ps) r₁ :=
      succeeds_open.2 hnodup
    obtain ⟨hr₂, hinner, hnext⟩ := Opened.next hr hs h₁ h₂
    exact ⟨inner, r₁, h₁, ps', r₂, h₂,
      (hf inner ps' r₂ hr₂ hinner hnext (opened_of_eq_ok hr hs h₁ h₂).grows).2 hQ⟩

lemma succeedsExpr_lam {ps : List (Ident Span)} {b : Expr Span} {a : Span} (hb : SucceedsExpr b) :
    SucceedsExpr (.lam ps b a) := by
  intro s r hr hs
  rw [expression, Expr.Distinct, Expr.defCount, and_assoc]
  constructor
  · refine succeeds_function hr hs fun inner ps' r' hr' hinner hnext _ => succeeds_map.trans ?_
    rw [← hnext]
    exact (hb inner r' hr' hinner).1
  · intro e' r' h
    simp only [bind_eq_ok, pure_eq_ok] at h
    obtain ⟨inner, r₁, h₁, ps', r₂, h₂, b', r₃, h₃, -, rfl⟩ := h
    obtain ⟨hr₂, hinner, hnext⟩ := Opened.next hr hs h₁ h₂
    rw [(hb.next hr₂ hinner h₃).2.2, hnext]

/-- A definition of the grouping `g` can be entered. -/
lemma succeeds_record {g inner arity : ℕ} {x : String} {span span' : Span}
    {d' : Definition Scoped} :
    Succeeds (do
        let id ← freshId
        bindName g x span .definition (.binding id)
        register { id, name := x, scope := g, paramScope := inner, arity, span := span' }
        return d') r ↔
      (isDiscard x = false → r.tree.entry? g x = none) ∧ Room r.nextId 1 := by
  have hroom : Room r.nextId 1 ↔ r.nextId + 1 < dispatchIdBound := by simp [Room]
  have hentry : (isDiscard x = false → r.tree.entry? g x = none) ↔
      isDiscard x = true ∨ r.tree.entry? g x = none := by
    cases isDiscard x <;> simp
  rw [hroom, hentry]
  simp only [succeeds_bind]
  constructor
  · rintro ⟨id, r₁, h₁, ⟨⟩, r₂, h₂, -⟩
    refine ⟨?_, succeeds_freshId.1 ⟨id, r₁, h₁⟩⟩
    obtain ⟨-, rfl, -⟩ := freshId_eq_ok h₁
    exact (succeeds_bindName (r := { r with nextId := r.nextId + 1 })).1 ⟨(), r₂, h₂⟩
  · rintro ⟨hx, hlt⟩
    obtain ⟨id, r₁, h₁⟩ := succeeds_freshId.2 hlt
    obtain ⟨-, rfl, -⟩ := freshId_eq_ok h₁
    obtain ⟨⟨⟩, r₂, h₂⟩ : Succeeds (bindName g x span .definition (.binding id))
        { r with nextId := r.nextId + 1 } := succeeds_bindName.2 hx
    exact ⟨id, _, h₁, (), r₂, h₂, (), _, rfl, _, _, rfl⟩

lemma forall_boundNames_singleton {d : Definition α} {P : String → Prop} :
    (∀ x ∈ boundNames [d], P x) ↔ (d.isDiscard = false → P d.name.name) := by
  unfold boundNames
  cases h : d.isDiscard <;> simp [h]

lemma succeeds_definition {g : ℕ} {n : Ident Span} {ps : List (Ident Span)} {b : Expr Span}
    {a : Span} (hb : SucceedsExpr b) (hr : r.Sound) (hg : g < r.size) :
    Succeeds (definition g ⟨n, ps, b, a⟩) r ↔
      ((∀ x ∈ boundNames [(⟨n, ps, b, a⟩ : Definition Span)], r.tree.entry? g x = none) ∧
        (boundParams ps).Nodup ∧ b.Distinct) ∧ Room r.nextId (b.defCount + 1) := by
  have hiff : Succeeds (definition g ⟨n, ps, b, a⟩) r ↔ (boundParams ps).Nodup ∧
      (b.Distinct ∧ (isDiscard n.name = false → r.tree.entry? g n.name = none)) ∧
        Room r.nextId (b.defCount + 1) := by
    rw [definition]
    refine succeeds_function hr hg fun inner ps' r' hr' hinner hnext hgrows => ?_
    rw [← hnext]
    refine succeeds_seq (hb inner r' hr' hinner).1 fun b' r₁ h₁ => ⟨(hb.next hr' hinner h₁).2.2, ?_⟩
    -- the scope of the grouping is as it was
    have hgrows₁ := hgrows.trans (resolvesExpr b inner r' b' r₁ hr' hinner h₁).grows
    have hentry : r₁.tree.entry? g n.name = r.tree.entry? g n.name := by
      rw [ ScopeTree.entry?, ScopeTree.entry?, hgrows₁.scopes g hg trivial]
    rw [← hentry]
    exact succeeds_record
  rw [hiff, forall_boundNames_singleton]
  constructor
  · rintro ⟨hparams, ⟨hbody, hname⟩, hroom⟩
    exact ⟨⟨hname, hparams, hbody⟩, hroom⟩
  · rintro ⟨⟨hname, hparams, hbody⟩, hroom⟩
    exact ⟨hparams, ⟨hbody, hname⟩, hroom⟩

lemma definition_nextId {g : ℕ} {n : Ident Span} {ps : List (Ident Span)} {b : Expr Span}
    {a : Span} (hb : SucceedsExpr b) (hr : r.Sound) (hg : g < r.size) {d' : Definition Scoped}
    (h : definition g ⟨n, ps, b, a⟩ r = .ok d' r') : r'.nextId = r.nextId + (b.defCount + 1) := by
  rw [definition] at h
  simp only [bind_eq_ok, pure_eq_ok] at h
  obtain ⟨inner, r₁, h₁, ps', r₂, h₂, b', r₃, h₃, id, r₄, h₄, ⟨⟩, r₅, h₅, ⟨⟩, r₆, h₆, -, rfl⟩ := h
  obtain ⟨hr₂, hinner, hnext₂⟩ := Opened.next hr hg h₁ h₂
  have hnext₃ := (hb.next hr₂ hinner h₃).2.2
  obtain ⟨-, rfl, -⟩ := freshId_eq_ok h₄
  rw [(register_eq_ok h₆).1, (bindName_changes h₅).nextId, hnext₃, hnext₂, Nat.add_assoc]

lemma boundNames_of_erase {d : Definition Span} {d' : Definition Scoped}
    (h : mapDefs Scoped.span [d'] = [d]) : boundNames [d'] = boundNames [d] := by
  rw [mapDefs_eq_map] at h
  rw [← h, boundNames_map]

/-- The names that are free in a grouping once a definition has been entered. -/
lemma ResolvedDefs.entry?_eq_none_iff {g : ℕ} {d : Definition Span} {id : DispatchId}
    {d' : Definition Scoped} (h : ResolvedDefs g [d] r [id] [d'] r') (hg : g < r.size)
    {x : String} :
    r'.tree.entry? g x = none ↔ r.tree.entry? g x = none ∧ x ∉ boundNames [d] := by
  rw [← boundNames_of_erase h.erase]
  refine ⟨fun hx => h.entry?_eq_none hx hg, fun ⟨hx, hnot⟩ => ?_⟩
  obtain ⟨sc, hsc⟩ : ∃ sc, r.tree.scopes[g]? = some sc := ⟨_, Array.getElem?_eq_getElem hg⟩
  have hsc' : r'.tree.scopes[g]? = some (addDefs [id] [d'] sc) := by
    rw [h.group, hsc, Option.map_some]
  rw [ScopeTree.entry_of_scope hsc, Scope.get?] at hx
  rw [ScopeTree.entry_of_scope hsc', Scope.get?, addDefs, lookup_append_or, hx, Option.none_or,
    lookup_eq_none_iff_notMem, map_fst_groupEntries rfl]
  exact hnot

lemma succeedsDefs_cons {n : Ident Span} {ps : List (Ident Span)} {b : Expr Span} {a : Span}
    {ds : List (Definition Span)} (hb : SucceedsExpr b) (hds : SucceedsDefs ds) :
    SucceedsDefs (⟨n, ps, b, a⟩ :: ds) := by
  intro g r hr hg
  have hnext : ∀ d' r₁, definition g ⟨n, ps, b, a⟩ r = .ok d' r₁ →
      r₁.Sound ∧ g < r₁.size ∧ r₁.nextId = r.nextId + (b.defCount + 1) ∧
        ∀ x, r₁.tree.entry? g x = none ↔
          r.tree.entry? g x = none ∧ x ∉ boundNames [(⟨n, ps, b, a⟩ : Definition Span)] := by
    intro d' r₁ h₁
    obtain ⟨id, hd⟩ := resolvedDefs_singleton (resolvesExpr b) hr hg h₁
    exact ⟨hd.grows.sound, lt_of_lt_of_le hg hd.grows.size_le, definition_nextId hb hr hg h₁,
      fun x => hd.entry?_eq_none_iff hg⟩
  constructor
  · have hiff : Succeeds (definitions g (⟨n, ps, b, a⟩ :: ds)) r ↔
        (((∀ x ∈ boundNames [(⟨n, ps, b, a⟩ : Definition Span)], r.tree.entry? g x = none) ∧
          (boundParams ps).Nodup ∧ b.Distinct) ∧ ((boundNames ds).Nodup ∧
          ∀ x ∈ boundNames ds, r.tree.entry? g x = none ∧
            x ∉ boundNames [(⟨n, ps, b, a⟩ : Definition Span)]) ∧ DefsDistinct ds) ∧
          Room r.nextId (b.defCount + 1 + defCountOfDefs ds) := by
      rw [definitions]
      refine succeeds_seq (succeeds_definition hb hr hg) fun d' r₁ h₁ => ?_
      obtain ⟨hr₁, hg₁, hnext₁, hentry⟩ := hnext d' r₁ h₁
      refine ⟨hnext₁, succeeds_map.trans ?_⟩
      simp only [← hentry]
      exact (hds g r₁ hr₁ hg₁).1.trans and_assoc.symm
    rw [hiff, boundNames_cons ⟨n, ps, b, a⟩ ds, List.nodup_append, DefsDistinct, defCountOfDefs]
    simp only [List.forall_mem_append]
    constructor
    · rintro ⟨⟨⟨hname, hparams, hbody⟩, ⟨hnodup, hfresh⟩, hrest⟩, hroom⟩
      refine ⟨⟨⟨nodup_boundNames_singleton _, hnodup, fun x hx y hy heq => ?_⟩, hname,
        fun x hx => (hfresh x hx).1⟩, ⟨hparams, hbody, hrest⟩, hroom⟩
      exact (hfresh y hy).2 (heq ▸ hx)
    · rintro ⟨⟨⟨-, hnodup, hdisjoint⟩, hname, hfresh⟩, ⟨hparams, hbody, hrest⟩, hroom⟩
      refine ⟨⟨⟨hname, hparams, hbody⟩, ⟨hnodup, fun x hx => ⟨hfresh x hx, fun hx' => ?_⟩⟩, hrest⟩,
        hroom⟩
      exact hdisjoint x hx' x hx rfl
  · intro ds' r' h
    rw [definitions] at h
    simp only [bind_eq_ok, pure_eq_ok] at h
    obtain ⟨d', r₁, h₁, ds', r₂, h₂, -, rfl⟩ := h
    obtain ⟨hr₁, hg₁, hnext₁, -⟩ := hnext d' r₁ h₁
    rw [(hds g r₁ hr₁ hg₁).2 ds' r₂ h₂, hnext₁, defCountOfDefs, Nat.add_assoc]

/-- The scope of a grouping has just been opened. -/
lemma succeeds_definitions_open {ds : List (Definition Span)} (hds : SucceedsDefs ds)
    {kind : ScopeKind} {s : ℕ} {r₁ : Resolving} (hr : r.Sound) (hs : s < r.size)
    (htree : r₁.tree = r.tree.push kind s) (hnext : r₁.nextId = r.nextId) :
    (Succeeds (definitions r.size ds) r₁ ↔
      ((boundNames ds).Nodup ∧ DefsDistinct ds) ∧ Room r.nextId (defCountOfDefs ds)) ∧
    ∀ ds' r', definitions r.size ds r₁ = .ok ds' r' →
      r'.Sound ∧ r.size < r'.size ∧ r'.nextId = r.nextId + defCountOfDefs ds := by
  have hopen := grows_of_push hr hs htree hnext (· ≠ r.size)
  have hsize := size_lt_of_push htree
  have hempty := entry?_of_push htree
  obtain ⟨hiff, hcount⟩ := hds r.size r₁ hopen.sound hsize
  constructor
  · rw [hiff, hnext, ← and_assoc]
    simp only [hempty, implies_true, and_true]
  · intro ds' r' h
    obtain ⟨ids, hds'⟩ := resolvesDefs ds r.size r₁ ds' r' hopen.sound hsize h
    exact ⟨hds'.grows.sound, lt_of_lt_of_le hsize hds'.grows.size_le,
      by rw [hcount ds' r' h, hnext]⟩

lemma succeedsExpr_letIn {ds : List (Definition Span)} {b : Expr Span} {a : Span}
    (hds : SucceedsDefs ds) (hb : SucceedsExpr b) : SucceedsExpr (.letIn ds b a) := by
  intro s r hr hs
  let r₁ : Resolving :=
    { r with tree := r.tree.push .letBlock s, log := r.log.push (.resolvingLet r.size) }
  have htree : r₁.tree = r.tree.push .letBlock s := rfl
  obtain ⟨hiff, hnext⟩ := succeeds_definitions_open hds hr hs htree rfl
  have hexpr : expression s (.letIn ds b a) r
      = (do
          let ds ← definitions r.size ds
          let body ← expression r.size b
          return .letIn ds body ⟨a, r.size⟩ : ResolveM _) r₁ := by
    rw [expression]
    rfl
  rw [Expr.Distinct, Expr.defCount, ← and_assoc (a := (boundNames ds).Nodup)]
  constructor
  · have hseq := succeeds_seq (r := r₁) (f := fun ds' => do
        let body ← expression r.size b
        return Expr.letIn ds' body ⟨a, r.size⟩) (Q := b.Distinct) (l := b.defCount)
      hiff fun ds' r₂ h₂ => by
        obtain ⟨hr₂, hs₂, hnext₂⟩ := hnext ds' r₂ h₂
        exact ⟨hnext₂, succeeds_map.trans (hb r.size r₂ hr₂ hs₂).1⟩
    rw [← show Room r₁.nextId (defCountOfDefs ds + b.defCount)
      ↔ Room r.nextId (defCountOfDefs ds + b.defCount) from Iff.rfl, ← hseq]
    unfold Succeeds
    rw [hexpr]
  · intro e' r' h
    rw [hexpr] at h
    simp only [bind_eq_ok, pure_eq_ok] at h
    obtain ⟨ds', r₂, h₂, b', r₃, h₃, -, rfl⟩ := h
    obtain ⟨hr₂, hs₂, hnext₂⟩ := hnext ds' r₂ h₂
    rw [(hb.next hr₂ hs₂ h₃).2.2, hnext₂, Nat.add_assoc]

mutual

lemma succeedsExpr : ∀ e : Expr Span, SucceedsExpr e
  | .ident i => by
    intro s r hr hs
    rw [expression]
    exact ⟨iff_of_true ⟨_, _, rfl⟩ ⟨trivial, Or.inl rfl⟩, fun e' r' h => by
      rw [← (pure_eq_ok.1 h).2]; rfl⟩
  | .int v a => by
    intro s r hr hs
    rw [expression]
    exact ⟨iff_of_true ⟨_, _, rfl⟩ ⟨trivial, Or.inl rfl⟩, fun e' r' h => by
      rw [← (pure_eq_ok.1 h).2]; rfl⟩
  | .lam _ b _ => succeedsExpr_lam (succeedsExpr b)
  | .call f x _ => succeedsExpr_call (succeedsExpr f) (succeedsExpr x)
  | .ite c t e _ => succeedsExpr_ite (succeedsExpr c) (succeedsExpr t) (succeedsExpr e)
  | .letIn ds b _ => succeedsExpr_letIn (succeedsDefs ds) (succeedsExpr b)

lemma succeedsDefs : ∀ ds : List (Definition Span), SucceedsDefs ds
  | [] => by
    intro g r hr hg
    rw [definitions]
    refine ⟨iff_of_true ⟨_, _, rfl⟩ ⟨?_, trivial, Or.inl rfl⟩, fun ds' r' h => ?_⟩
    · simp [boundNames]
    · rw [← (pure_eq_ok.1 h).2]
      rfl
  | ⟨_, _, b, _⟩ :: ds => succeedsDefs_cons (succeedsExpr b) (succeedsDefs ds)

end

end ResolveM

/-! ### Programs -/

/-- A program resolves if no scope binds a name twice and there are enough numbers. -/
theorem resolves_iff {names : List String} {seed : DispatchId} {p : Program Span}
    {log : Array Event} : (∃ r log', resolve names seed p log = .ok r log') ↔
      p.Distinct ∧ Room seed (defCountOfDefs p.defs) := by
  have hiff : ResolveM.Succeeds (ResolveM.definitions 1 p.defs) (.opened names seed log) ↔
      p.Distinct ∧ Room seed (defCountOfDefs p.defs) :=
    (ResolveM.succeeds_definitions_open (ResolveM.succeedsDefs p.defs)
      (Resolving.sound_start names seed log) Nat.one_pos (Resolving.tree_opened names seed log)
      rfl).1
  rw [← hiff, resolve_eq, ResolveM.Succeeds]
  cases ResolveM.definitions 1 p.defs (.opened names seed log) with
  | ok ds r => exact iff_of_true ⟨_, _, rfl⟩ ⟨_, _, rfl⟩
  | error e r =>
    refine iff_of_false ?_ ?_
    · rintro ⟨_, _, h⟩
      exact absurd h (by simp)
    · rintro ⟨_, _, h⟩
      exact absurd h (by simp)

end Letrec
