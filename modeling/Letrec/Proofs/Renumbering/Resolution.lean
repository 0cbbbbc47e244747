import Mathlib
import Letrec.Proofs.Renumbering.Tree
import Letrec.Proofs.Scope.Resolution

/-!
# Resolution with another seed

Two resolutions of one program, the numbers of the second one ahead by `k`, do the same step by
step: they build the same scopes and stop at the same error, and only the numbers of the definitions
differ.  The one exception is that the second one may run out of numbers.  Main result:
`resolve_add`.
-/

namespace Letrec

namespace Resolving

/-- The second state is the first one with its numbers ahead by `k`. -/
structure Ahead (k : ℕ) (r r' : Resolving) : Prop where
  tree : r'.tree = r.tree.renumber (· + k)
  nextId : r'.nextId = r.nextId + k

end Resolving

namespace ResolveM

open Resolving

variable {α β : Type} {k : ℕ} {r r' r₁ r₁' : Resolving}

/-- What comes of two steps, the second one ahead by `k`: both succeed with the same result, or both
fail with the same error, or the second one runs out of numbers. -/
inductive Alongside (k : ℕ) (x x' : ResolveM α) (r r' : Resolving) : Prop
  | succeed {a : α} {r₁ r₁' : Resolving} :
    x r = .ok a r₁ → x' r' = .ok a r₁' → Ahead k r₁ r₁' → Alongside k x x' r r'
  | fail {e : ResolveError} {r₁ r₁' : Resolving} :
    x r = .error (.error e) r₁ → x' r' = .error (.error e) r₁' → Alongside k x x' r r'
  | exhaust {r₁' : Resolving} : x' r' = .error .idsExhausted r₁' → Alongside k x x' r r'

namespace Alongside

lemma pure (a : α) (h : Ahead k r r') : Alongside k (pure a : ResolveM α) (pure a) r r' :=
  .succeed rfl rfl h

/-- What follows two steps that succeed. -/
lemma step {x x' : ResolveM α} {f f' : α → ResolveM β} {a a' : α} (hx : x r = .ok a r₁)
    (hx' : x' r' = .ok a' r₁') (hf : Alongside k (f a) (f' a') r₁ r₁') :
    Alongside k (x >>= f) (x' >>= f') r r' := by
  cases hf with
  | succeed h h' hahead =>
    exact .succeed ((bind_of_ok hx).trans h) ((bind_of_ok hx').trans h') hahead
  | fail h h' => exact .fail ((bind_of_ok hx).trans h) ((bind_of_ok hx').trans h')
  | exhaust h' => exact .exhaust ((bind_of_ok hx').trans h')

lemma bind {x x' : ResolveM α} {f f' : α → ResolveM β} (hx : Alongside k x x' r r')
    (hf : ∀ a r₁ r₁', Ahead k r₁ r₁' → Alongside k (f a) (f' a) r₁ r₁') :
    Alongside k (x >>= f) (x' >>= f') r r' := by
  cases hx with
  | succeed h h' hahead => exact step h h' (hf _ _ _ hahead)
  | fail h h' => exact .fail (bind_of_error h) (bind_of_error h')
  | exhaust h' => exact .exhaust (bind_of_error h')

end Alongside

/-! ### Steps -/

lemma alongside_openScope (kind : ScopeKind) (s : ScopeId) (h : Ahead k r r') :
    Alongside k (openScope kind s) (openScope kind s) r r' := by
  have hopen : openScope kind s r
      = .ok r.tree.scopes.size { r with tree := r.tree.push kind s } := rfl
  have hopen' : openScope kind s r'
      = .ok r.tree.scopes.size { r' with tree := r'.tree.push kind s } := by
    rw [← r.tree.size_renumber, ← h.tree]
    rfl
  exact .succeed hopen hopen' ⟨by rw [h.tree, ScopeTree.push_renumber], h.nextId⟩

lemma alongside_report (e e' : Event) (h : Ahead k r r') :
    Alongside k (report e) (report e') r r' := .succeed rfl rfl ⟨h.tree, h.nextId⟩

lemma alongside_bindName (s : ScopeId) (x : String) (span : Span) (kind : BinderKind) (e : Entry)
    (h : Ahead k r r') : Alongside k (bindName s x span kind e)
      (bindName s x span kind (e.renumber (· + k))) r r' := by
  unfold bindName
  split_ifs with hdisc
  · exact .pure () h
  · have hget : ∀ r : Resolving, (get : ResolveM Resolving) r = .ok r r := fun r => rfl
    refine .step (hget r) (hget r') ?_
    have hentry : r'.tree.entry? s x = (r.tree.entry? s x).map (Entry.renumber (· + k)) := by
      rw [h.tree, ScopeTree.entry?_renumber]
    rw [hentry]
    cases r.tree.entry? s x with
    | some _ => exact .fail rfl rfl
    | none =>
      refine .succeed rfl rfl ⟨?_, h.nextId⟩
      show r'.tree.enter s x (e.renumber (· + k)) = _
      rw [h.tree, ScopeTree.enter_renumber]

lemma alongside_parameters (s : ScopeId) (ps : List (Ident Span)) (h : Ahead k r r') :
    Alongside k (parameters s ps) (parameters s ps) r r' := by
  induction ps generalizing r r' with
  | nil => exact .pure [] h
  | cons p ps ih =>
    refine (alongside_bindName s p.name p.ann .parameter .parameter h).bind fun _ r₁ r₁' h₁ => ?_
    exact (ih h₁).bind fun ps' r₂ r₂' h₂ => .pure _ h₂

lemma alongside_register (b : Binding) (h : Ahead k r r') :
    Alongside k (register b) (register (b.renumber (· + k))) r r' := by
  refine .succeed rfl rfl ⟨?_, h.nextId⟩
  show r'.tree.register (b.renumber (· + k)) = _
  rw [h.tree, ScopeTree.register_renumber]

/-- The number that a definition gets is ahead, and so is what is recorded under it. -/
lemma alongside_record (g inner arity : ℕ) (n : Ident Span) (span : Span) (d : Definition Scoped)
    (h : Ahead k r r') :
    let record : ResolveM (Definition Scoped) := do
      let id ← freshId
      bindName g n.name n.ann .definition (.binding id)
      register { id, name := n.name, scope := g, paramScope := inner, arity, span := span }
      return d
    Alongside k record record r r' := by
  by_cases hroom : r'.nextId + 1 < dispatchIdBound
  · have hle : r.nextId ≤ r'.nextId := h.nextId ▸ Nat.le_add_right _ _
    have hroom₀ : r.nextId + 1 < dispatchIdBound := (Nat.succ_le_succ hle).trans_lt hroom
    have hfresh : freshId r' = .ok (r.nextId + k) { r' with nextId := r'.nextId + 1 } :=
      (freshId_of_lt hroom).trans (by rw [h.nextId])
    have hahead : Ahead k { r with nextId := r.nextId + 1 } { r' with nextId := r'.nextId + 1 } :=
      ⟨h.tree, by rw [h.nextId, Nat.add_right_comm]⟩
    refine .step (freshId_of_lt hroom₀) hfresh ?_
    refine (alongside_bindName g n.name n.ann .definition (.binding r.nextId) hahead).bind
      fun _ r₁ r₁' h₁ => ?_
    exact (alongside_register _ h₁).bind fun _ r₂ r₂' h₂ => .pure d h₂
  · exact .exhaust (bind_of_error (freshId_of_not_lt hroom))

/-! ### Expressions and definitions -/

mutual

lemma alongside_expression (s : ScopeId) : ∀ (e : Expr Span) {r r' : Resolving}, Ahead k r r' →
    Alongside k (expression s e) (expression s e) r r'
  | .ident i, r, r', h => by
    rw [expression]
    exact .pure _ h
  | .int v a, r, r', h => by
    rw [expression]
    exact .pure _ h
  | .lam ps b a, r, r', h => by
    rw [expression]
    refine (alongside_openScope .lambda s h).bind fun inner r₁ r₁' h₁ => ?_
    refine (alongside_parameters inner ps h₁).bind fun ps' r₂ r₂' h₂ => ?_
    exact (alongside_expression inner b h₂).bind fun b' r₃ r₃' h₃ => .pure _ h₃
  | .call f x a, r, r', h => by
    rw [expression]
    refine (alongside_expression s f h).bind fun f' r₁ r₁' h₁ => ?_
    exact (alongside_expression s x h₁).bind fun x' r₂ r₂' h₂ => .pure _ h₂
  | .ite c t e a, r, r', h => by
    rw [expression]
    refine (alongside_expression s c h).bind fun c' r₁ r₁' h₁ => ?_
    refine (alongside_expression s t h₁).bind fun t' r₂ r₂' h₂ => ?_
    exact (alongside_expression s e h₂).bind fun e' r₃ r₃' h₃ => .pure _ h₃
  | .letIn ds b a, r, r', h => by
    rw [expression]
    refine (alongside_openScope .letBlock s h).bind fun inner r₁ r₁' h₁ => ?_
    refine (alongside_report _ _ h₁).bind fun _ r₂ r₂' h₂ => ?_
    refine (alongside_definitions inner ds h₂).bind fun ds' r₃ r₃' h₃ => ?_
    exact (alongside_expression inner b h₃).bind fun b' r₄ r₄' h₄ => .pure _ h₄

lemma alongside_definitions (g : ScopeId) : ∀ (ds : List (Definition Span)) {r r' : Resolving},
    Ahead k r r' → Alongside k (definitions g ds) (definitions g ds) r r'
  | [], r, r', h => by
    rw [definitions]
    exact .pure _ h
  | ⟨n, ps, b, a⟩ :: ds, r, r', h => by
    rw [definitions, definition]
    refine Alongside.bind ?_ fun d' r₁ r₁' h₁ => ?_
    · refine (alongside_openScope .function g h).bind fun inner r₂ r₂' h₂ => ?_
      refine (alongside_parameters inner ps h₂).bind fun ps' r₃ r₃' h₃ => ?_
      refine (alongside_expression inner b h₃).bind fun b' r₄ r₄' h₄ => ?_
      exact alongside_record g inner ps.length n a _ h₄
    · exact (alongside_definitions g ds h₁).bind fun ds' r₂ r₂' h₂ => .pure _ h₂

end

end ResolveM

/-! ### Programs -/

/-- Resolving with a seed that is ahead by `k` gives the same resolution with its numbers ahead by
`k`, or the same error, or it runs out of numbers. -/
lemma resolve_add (names : List String) (seed k : ℕ) (p : Program Span) (log log' : Array Event) :
    (∃ r log₁ log₁', resolve names seed p log = .ok r log₁ ∧
      resolve names (seed + k) p log' = .ok (r.renumber (· + k)) log₁') ∨
    (∃ e log₁ log₁', resolve names seed p log = .error (.error e) log₁ ∧
      resolve names (seed + k) p log' = .error (.error e) log₁') ∨
    ∃ log₁', resolve names (seed + k) p log' = .error .idsExhausted log₁' := by
  have hahead : (Resolving.opened names seed log).Ahead k (.opened names (seed + k) log') := by
    refine ⟨?_, rfl⟩
    show (ScopeTree.ofBuiltins names).push _ _ = ((ScopeTree.ofBuiltins names).push _ _).renumber _
    rw [ScopeTree.push_renumber, ScopeTree.ofBuiltins_renumber]
  rw [resolve_eq, resolve_eq]
  cases ResolveM.alongside_definitions 1 p.defs hahead with
  | succeed h h' hahead =>
    rw [h, h']
    dsimp only
    rw [hahead.tree]
    exact Or.inl ⟨_, _, _, rfl, rfl⟩
  | fail h h' =>
    rw [h, h']
    exact Or.inr (Or.inl ⟨_, _, _, rfl, rfl⟩)
  | exhaust h' =>
    rw [h']
    exact Or.inr (Or.inr ⟨_, rfl⟩)

end Letrec
