import Mathlib
import Letrec.Evaluation.Fuel
import Letrec.Proofs.Evaluation.Limit
import Letrec.Proofs.Links.Heap

/-!
# Joined machines and matched runs

Machines are joined if their heaps are; where a comparison is exact, they also have reported and
recorded the same.  Two runs match if the second one ends, within every large enough bound, in a
result that is joined to that of the first one: a joined value or the same error.  New objects on
both sides are linked on the way.

The first run is given by its result, the second one by its results within all bounds, so that the
two may take a different number of rounds.
-/

namespace Letrec

open EvalM (Finished OutOfFuel)

variable {S : Comparison} {L L' : Links} {m m' : Machine} {t t' : Term}

/-! ### Counting evaluations -/

/-- One more evaluation is under way. -/
def Machine.entered (m : Machine) : Machine :=
  { m with depth := m.depth + 1, peak := max m.peak (m.depth + 1) }

/-- One evaluation less is under way. -/
def Machine.left (m : Machine) : Machine := { m with depth := m.depth - 1 }

namespace EvalM

/-- The evaluation that has ended is no longer under way. -/
def leaving : EStateM.Result Halt Machine Term → EStateM.Result Halt Machine Term
  | .ok v m => .ok v m.left
  | .error e m => .error e m.left

/-- A run with a value was not cut short. -/
lemma finished_value {v : Term} : Finished OutOfFuel (.ok v m) := by
  intro e m' h
  cases h

lemma finished_leaving {r : EStateM.Result Halt Machine Term} :
    Finished OutOfFuel (leaving r) ↔ Finished OutOfFuel r := by
  cases r with
  | ok v m => exact iff_of_true finished_value finished_value
  | error e m =>
    refine ⟨fun h e' m' heq => ?_, fun h e' m' heq => ?_⟩
    · obtain ⟨rfl, rfl⟩ := EStateM.Result.error.inj heq
      exact h e _ rfl
    · obtain ⟨rfl, rfl⟩ := EStateM.Result.error.inj heq
      exact h e _ rfl

lemma nested_eq_leaving {limit : Option ℕ} {x : EvalM Term}
    (h : limit.filter (· ≤ m.depth) = none) : nested limit x m = leaving (x m.entered) := by
  unfold nested
  rw [h]
  dsimp only
  rw [Machine.entered]
  cases x { m with depth := m.depth + 1, peak := max m.peak (m.depth + 1) } <;> rfl

lemma nested_of_limit {limit : Option ℕ} {x : EvalM Term} {l : ℕ}
    (h : limit.filter (· ≤ m.depth) = some l) :
    nested limit x m = .error (.failed (.recursionLimit l)) m := by
  unfold nested
  rw [h]

end EvalM

/-! ### Joined machines and results -/

/-- The same end without a value.  An error may show a term whose text never ends, and is then cut
off at some length. -/
inductive Heap.HaltsAlike (h h' : Heap) : Halt → Halt → Prop
  | same (e : Halt) : HaltsAlike h h' e e
  | endless {t t' : Term} (f : String → EvalError) : h.TextAlike h' t t' → (∀ n, ¬ h.Reads n t) →
      HaltsAlike h h' (.failed (f (h.text t))) (.failed (f (h'.text t')))

lemma Heap.HaltsAlike.symm {h h' : Heap} {e e' : Halt} (he : h.HaltsAlike h' e e') :
    h'.HaltsAlike h e' e := by
  cases he with
  | same e => exact .same e
  | endless f ht hends => exact .endless f ht.symm fun n hr => hends n ((ht.ends n).2 hr)

/-- The same reports and records so far, and as many objects that texts go through. -/
structure Machine.SameReports (L : Links) (m m' : Machine) : Prop where
  closures : m.heap.closures.size = m'.heap.closures.size
  thunks : m.heap.thunks.size = m'.heap.thunks.size
  address : ∀ a a' : Addr, (.thunk a, .thunk a') ∈ L → a = a'
  tracing : m.tracing = m'.tracing
  log : m.log = m'.log
  ticks : m.ticks = m'.ticks

/-- Nesting is not reported. -/
lemma Machine.SameReports.of_eq {d d' p p' : ℕ} (h : SameReports L m m') :
    SameReports L { m with depth := d, peak := p } { m' with depth := d', peak := p' } :=
  ⟨h.closures, h.thunks, h.address, h.tracing, h.log, h.ticks⟩

namespace Comparison

/-- Machines with joined heaps.  With a limit, as many evaluations are under way. -/
structure JoinsMachine (S : Comparison) (L : Links) (m m' : Machine) : Prop where
  heap : S.JoinsHeap L m.heap m'.heap
  depth : S.limit ≠ none → m.depth = m'.depth
  reports : S.exact → Machine.SameReports L m m'

/-- Joined values, or the same end without one, with some more links. -/
inductive JoinsResult (S : Comparison) (L : Links) : EStateM.Result Halt Machine Term →
    EStateM.Result Halt Machine Term → Prop
  | ok {L' : Links} {v v' : Term} {m m' : Machine} : L ⊆ L' → L'.Joins v v' →
      S.JoinsMachine L' m m' → JoinsResult S L (.ok v m) (.ok v' m')
  | error {L' : Links} {e e' : Halt} {m m' : Machine} : L ⊆ L' →
      m.heap.HaltsAlike m'.heap e e' → (S.exact → e = e') → S.JoinsMachine L' m m' →
      JoinsResult S L (.error e m) (.error e' m')

/-- If a run was not cut short, the results within all large enough bounds are joined to it. -/
def Matched (S : Comparison) (L : Links) (r : EStateM.Result Halt Machine Term)
    (y : ℕ → EStateM.Result Halt Machine Term) : Prop :=
  Finished OutOfFuel r → ∃ r', (∃ k, ∀ j, k ≤ j → y j = r') ∧ S.JoinsResult L r r'

lemma JoinsResult.of_subset {r r' : EStateM.Result Halt Machine Term} (hL : L ⊆ L')
    (h : S.JoinsResult L' r r') : S.JoinsResult L r r' := by
  cases h with
  | ok hL' hv hm => exact .ok (hL.trans hL') hv hm
  | error hL' he hexact hm => exact .error (hL.trans hL') he hexact hm

/-- The evaluations on both sides are no longer under way. -/
lemma JoinsResult.leaving {r r' : EStateM.Result Halt Machine Term} (h : S.JoinsResult L r r') :
    S.JoinsResult L (EvalM.leaving r) (EvalM.leaving r') := by
  have hleft : ∀ {L' : Links} {m m' : Machine}, S.JoinsMachine L' m m' →
      S.JoinsMachine L' m.left m'.left := by
    intro L' m m' hm
    refine ⟨hm.heap, fun hlimit => ?_, fun hexact => (hm.reports hexact).of_eq⟩
    rw [Machine.left, Machine.left, hm.depth hlimit]
  cases h with
  | ok hL hv hm => exact .ok hL hv (hleft hm)
  | error hL he hexact hm => exact .error hL he hexact (hleft hm)

namespace JoinsMachine

lemma entered (hm : S.JoinsMachine L m m') : S.JoinsMachine L m.entered m'.entered := by
  refine ⟨hm.heap, fun hlimit => ?_, fun hexact => (hm.reports hexact).of_eq⟩
  rw [Machine.entered, Machine.entered, hm.depth hlimit]

/-- The heaps change. -/
lemma withHeap (hm : S.JoinsMachine L m m') {h h' : Heap} (hheap : S.JoinsHeap L' h h')
    (hreports : S.exact → h.closures.size = h'.closures.size ∧ h.thunks.size = h'.thunks.size ∧
      ∀ a a' : Addr, (.thunk a, .thunk a') ∈ L' → a = a') :
    S.JoinsMachine L' { m with heap := h } { m' with heap := h' } where
  heap := hheap
  depth := hm.depth
  reports hexact := by
    obtain ⟨hclosures, hthunks, haddress⟩ := hreports hexact
    have hsame := hm.reports hexact
    exact ⟨hclosures, hthunks, haddress, hsame.tracing, hsame.log, hsame.ticks⟩

section Same

variable (hm : S.JoinsMachine L m m')

include hm

/-- Where reports are compared, joined terms have the same text. -/
lemma text_eq (hexact : S.exact) (ht : L.Joins t t') : m.heap.text t = m'.heap.text t' := by
  have hsame := hm.reports hexact
  refine hm.heap.text_eq_of_hops ?_ ht
  unfold Heap.hops
  rw [hsame.closures, hsame.thunks]

lemma trace {e e' : Heap → Event} (he : S.exact → e m.heap = e' m'.heap) :
    S.JoinsMachine L (m.trace e) (m'.trace e') where
  heap := by
    rw [EvalM.heap_trace, EvalM.heap_trace]
    exact hm.heap
  depth hlimit := by
    rw [EvalM.depth_trace, EvalM.depth_trace]
    exact hm.depth hlimit
  reports hexact := by
    have hsame := hm.reports hexact
    have hlog := hsame.log
    have htracing := hsame.tracing
    have hevent := he hexact
    unfold Machine.trace
    rw [← htracing]
    split_ifs
    · refine ⟨hsame.closures, hsame.thunks, hsame.address, rfl, ?_, hsame.ticks⟩
      rw [hlog, hevent]
    · exact hsame

lemma record (label : String) (ht : L.Joins t t') :
    S.JoinsMachine L (m.record label t) (m'.record label t') where
  heap := hm.heap
  depth := hm.depth
  reports hexact := by
    have hsame := hm.reports hexact
    refine ⟨hsame.closures, hsame.thunks, hsame.address, hsame.tracing, hsame.log, ?_⟩
    rw [Machine.record, Machine.record, hm.text_eq hexact ht, hsame.ticks]

lemma newClosure (c c' : Closure)
    (hc : L.JoinsCode (.lam c.param c.body) c.env (.lam c'.param c'.body) c'.env) :
    ∃ L', L ⊆ L' ∧ L'.Joins (m.newClosure c).1 (m'.newClosure c').1 ∧
      S.JoinsMachine L' (m.newClosure c).2 (m'.newClosure c').2 := by
  refine ⟨_, Set.subset_insert _ _, .closure (Set.mem_insert _ _),
    hm.withHeap (hm.heap.pushClosure hc) fun hexact => ?_⟩
  have hsame := hm.reports hexact
  refine ⟨by simp [Heap.pushClosure, hsame.closures], hsame.thunks, fun a a' ha => ?_⟩
  exact hsame.address a a' (Set.mem_of_mem_insert_of_ne ha (by simp))

lemma newBuiltin {b : Builtin} {args : List Term} (hop : b.op.Uniform S.base)
    (hargs : List.Forall₂ L.Joins b.supplied args) :
    ∃ L', L ⊆ L' ∧
      L'.Joins (m.newBuiltin b).1 (m'.newBuiltin { b with supplied := args }).1 ∧
      S.JoinsMachine L' (m.newBuiltin b).2 (m'.newBuiltin { b with supplied := args }).2 := by
  obtain ⟨hnone, hnew⟩ := m.heap.stored?_pushBuiltin b
  obtain ⟨hnone', hnew'⟩ := m'.heap.stored?_pushBuiltin { b with supplied := args }
  have hL := Set.subset_insert (Term.builtin m.heap.builtins.size,
    Term.builtin m'.heap.builtins.size) L
  refine ⟨_, hL, .builtin (Set.mem_insert _ _), hm.withHeap
    (hm.heap.link (ByName.World.keeps_pushBuiltin _ b) (ByName.World.keeps_pushBuiltin _ _)
      hnone hnone' hnew hnew' (.builtin hop (hargs.imp fun _ _ hv => hv.mono hL)))
    fun hexact => ?_⟩
  have hsame := hm.reports hexact
  refine ⟨hsame.closures, hsame.thunks, fun a a' ha => ?_⟩
  exact hsame.address a a' (Set.mem_of_mem_insert_of_ne ha (by simp))

lemma newThunk {env env' : Env} (ht : L.JoinsCode t env t' env') :
    ∃ L', L ⊆ L' ∧ L'.Joins (m.newThunk t env).1 (m'.newThunk t' env').1 ∧
      S.JoinsMachine L' (m.newThunk t env).2 (m'.newThunk t' env').2 := by
  have hm₁ : S.JoinsMachine L (m.trace fun h => .suspending h.thunks.size (h.text t))
      (m'.trace fun h => .suspending h.thunks.size (h.text t')) :=
    hm.trace fun hexact => by rw [hm.text_eq hexact ht.term, (hm.reports hexact).thunks]
  unfold Machine.newThunk
  dsimp only
  generalize m.trace (fun h => .suspending h.thunks.size (h.text t)) = m₁ at hm₁ ⊢
  generalize m'.trace (fun h => .suspending h.thunks.size (h.text t')) = m₁' at hm₁ ⊢
  obtain ⟨hnone, hnew⟩ := m₁.heap.stored?_pushThunk { term := t, env }
  obtain ⟨hnone', hnew'⟩ := m₁'.heap.stored?_pushThunk { term := t', env := env' }
  have hL := Set.subset_insert (Term.thunk m₁.heap.thunks.size, Term.thunk m₁'.heap.thunks.size) L
  refine ⟨_, hL, .thunk (Set.mem_insert _ _), hm₁.withHeap
    (hm₁.heap.link (ByName.World.keeps_pushThunk _ _) (ByName.World.keeps_pushThunk _ _)
      hnone hnone' hnew hnew' (.thunk .none fun _ => Or.inl (ht.mono hL))) fun hexact => ?_⟩
  have hsame := hm₁.reports hexact
  refine ⟨hsame.closures, by simp [Heap.pushThunk, hsame.thunks], fun a a' ha => ?_⟩
  rcases ha with heq | ha
  · obtain ⟨h, h'⟩ := Prod.mk.inj heq
    rw [Term.thunk.inj h, Term.thunk.inj h', hsame.thunks]
  · exact hsame.address a a' ha

lemma memoize {a a' : Addr} {v v' : Term} (ha : (.thunk a, .thunk a') ∈ L) (hv : L.Joins v v') :
    L.Joins (m.memoize a v).1 (m'.memoize a' v').1 ∧
      S.JoinsMachine L (m.memoize a v).2 (m'.memoize a' v').2 := by
  constructor
  · have hmemo := (hm.heap.thunk ha).1
    rw [Heap.memo_thunk, Heap.memo_thunk] at hmemo
    unfold Machine.memoize
    generalize m.heap.memo? a = w at hmemo
    generalize m'.heap.memo? a' = w' at hmemo
    cases hmemo with
    | none => exact hv
    | some hw => exact hw
  · refine hm.withHeap (hm.heap.memoize ha hv) fun hexact => ?_
    have hsame := hm.reports hexact
    exact ⟨hsame.closures, by simp [Heap.memoize, hsame.thunks], hsame.address⟩

end Same

end JoinsMachine

/-! ### Matched runs -/

namespace Matched

lemma ok {v v' : Term} (hv : L.Joins v v') (hm : S.JoinsMachine L m m') :
    S.Matched L (.ok v m) fun _ => .ok v' m' :=
  fun _ => ⟨_, ⟨0, fun _ _ => rfl⟩, .ok (subset_refl L) hv hm⟩

lemma error (e : Halt) (hm : S.JoinsMachine L m m') :
    S.Matched L (.error e m) fun _ => .error e m' :=
  fun _ => ⟨_, ⟨0, fun _ _ => rfl⟩, .error (subset_refl L) (.same e) (fun _ => rfl) hm⟩

/-- An error that shows a term. -/
lemma shown (f : String → EvalError) (ht : L.Joins t t') (hm : S.JoinsMachine L m m') :
    S.Matched L (.error (.failed (f (m.heap.text t))) m)
      fun _ => .error (.failed (f (m'.heap.text t'))) m' := by
  refine fun _ => ⟨_, ⟨0, fun _ _ => rfl⟩, .error (subset_refl L) ?_ (fun hexact => ?_) hm⟩
  · by_cases hends : ∃ n, m.heap.Reads n t
    · obtain ⟨n, hr⟩ := hends
      rw [(hm.heap.textAlike ht).text_eq hr]
      exact .same _
    · exact .endless f (hm.heap.textAlike ht) fun n hr => hends ⟨n, hr⟩
  · rw [hm.text_eq hexact ht]

lemma outOfFuel {y : ℕ → EStateM.Result Halt Machine Term} :
    S.Matched L (.error .outOfFuel m) y := fun h => absurd rfl (h _ _ rfl)

/-- Only large bounds matter. -/
lemma congr {r : EStateM.Result Halt Machine Term} {y y' : ℕ → EStateM.Result Halt Machine Term}
    (h : S.Matched L r y) {i : ℕ} (heq : ∀ j, i ≤ j → y' j = y j) : S.Matched L r y' := by
  intro hr
  obtain ⟨r', ⟨k, hk⟩, hjoins⟩ := h hr
  refine ⟨r', ⟨max i k, fun j hj => ?_⟩, hjoins⟩
  rw [heq j (le_trans (le_max_left i k) hj), hk j (le_trans (le_max_right i k) hj)]

/-- The bound of the second run is one more. -/
lemma succ {r : EStateM.Result Halt Machine Term} {y : ℕ → EStateM.Result Halt Machine Term}
    (h : S.Matched L r fun j => y (j + 1)) : S.Matched L r y := by
  intro hr
  obtain ⟨r', ⟨k, hk⟩, hjoins⟩ := h hr
  refine ⟨r', ⟨k + 1, fun j hj => ?_⟩, hjoins⟩
  obtain ⟨i, rfl⟩ : ∃ i, j = i + 1 := ⟨j - 1, by omega⟩
  exact hk i (by omega)

lemma of_subset {r : EStateM.Result Halt Machine Term} {y : ℕ → EStateM.Result Halt Machine Term}
    (hL : L ⊆ L') (h : S.Matched L' r y) : S.Matched L r y := by
  intro hr
  obtain ⟨r', hk, hjoins⟩ := h hr
  exact ⟨r', hk, hjoins.of_subset hL⟩

/-- One computation after another, where it is known what the first one does on its own. -/
lemma bind_of {x : EvalM Term} {g : Term → EvalM Term} {y : ℕ → EvalM Term}
    {z : ℕ → Term → EvalM Term} (hx : S.Matched L (x m) fun j => y j m')
    (hg : ∀ L' v v' m₁ m₁', L ⊆ L' → L'.Joins v v' → S.JoinsMachine L' m₁ m₁' →
      x m = .ok v m₁ → (∃ k, y k m' = .ok v' m₁') →
      S.Matched L' (g v m₁) fun j => z j v' m₁') :
    S.Matched L ((x >>= g) m) fun j => (y j >>= z j) m' := by
  intro hr
  cases hxm : x m with
  | ok v m₁ =>
    rw [bind_of_ok hxm] at hr ⊢
    rw [hxm] at hx
    obtain ⟨r', ⟨k, hk⟩, hjoins⟩ := hx EvalM.finished_value
    cases hjoins with
    | @ok L' _ v' _ m₁' hL hv hm₁ =>
      obtain ⟨r'', ⟨k', hk'⟩, hjoins'⟩ :=
        hg L' v v' m₁ m₁' hL hv hm₁ hxm ⟨k, hk k le_rfl⟩ hr
      refine ⟨r'', ⟨max k k', fun j hj => ?_⟩, hjoins'.of_subset hL⟩
      exact (bind_of_ok (hk j (le_trans (le_max_left k k') hj))).trans
        (hk' j (le_trans (le_max_right k k') hj))
  | error e m₁ =>
    rw [bind_of_error hxm] at hr ⊢
    rw [hxm] at hx
    obtain ⟨r', ⟨k, hk⟩, hjoins⟩ := hx fun e' m₂ heq => hr e' m₂ (by
      obtain ⟨rfl, rfl⟩ := EStateM.Result.error.inj heq
      rfl)
    cases hjoins with
    | error hL he hexact hm₁ =>
      exact ⟨_, ⟨k, fun j hj => bind_of_error (hk j hj)⟩, .error hL he hexact hm₁⟩

/-- One computation after another. -/
lemma bind {x : EvalM Term} {g : Term → EvalM Term} {y : ℕ → EvalM Term}
    {z : ℕ → Term → EvalM Term} (hx : S.Matched L (x m) fun j => y j m')
    (hg : ∀ L' v v' m₁ m₁', L ⊆ L' → L'.Joins v v' → S.JoinsMachine L' m₁ m₁' →
      S.Matched L' (g v m₁) fun j => z j v' m₁') :
    S.Matched L ((x >>= g) m) fun j => (y j >>= z j) m' :=
  hx.bind_of fun L' v v' m₁ m₁' hL hv hm _ _ => hg L' v v' m₁ m₁' hL hv hm

/-- Evaluations that are no longer counted. -/
lemma leaving {r : EStateM.Result Halt Machine Term} {y : ℕ → EStateM.Result Halt Machine Term}
    (h : S.Matched L r y) : S.Matched L (EvalM.leaving r) fun j => EvalM.leaving (y j) := by
  intro hr
  obtain ⟨r', ⟨k, hk⟩, hjoins⟩ := h (EvalM.finished_leaving.1 hr)
  exact ⟨_, ⟨k, fun j hj => congrArg _ (hk j hj)⟩, hjoins.leaving⟩

/-- Evaluations that are counted. -/
lemma nested {x : EvalM Term} {y : ℕ → EvalM Term} (hm : S.JoinsMachine L m m')
    (hx : ∀ m m', S.JoinsMachine L m m' → S.Matched L (x m) fun j => y j m') :
    S.Matched L (EvalM.nested S.limit x m) fun j => EvalM.nested S.limit (y j) m' := by
  have hfilter : S.limit.filter (· ≤ m'.depth) = S.limit.filter (· ≤ m.depth) := by
    cases hlimit : S.limit with
    | none => rfl
    | some l => rw [hm.depth (by simp [hlimit])]
  cases hl : S.limit.filter (· ≤ m.depth) with
  | some l =>
    rw [EvalM.nested_of_limit hl]
    exact (Matched.error _ hm).congr (i := 0) fun j _ => EvalM.nested_of_limit (hfilter.trans hl)
  | none =>
    rw [EvalM.nested_eq_leaving hl]
    exact (hx _ _ hm.entered).leaving.congr (i := 0) fun j _ =>
      EvalM.nested_eq_leaving (hfilter.trans hl)

end Matched

/-! ### Without a limit

Then it does not matter how many evaluations are under way. -/

section Unlimited

variable (hlimit : S.limit = none)

include hlimit

lemma JoinsMachine.of_depth (hm : S.JoinsMachine L m m') (d d' p p' : ℕ) :
    S.JoinsMachine L { m with depth := d, peak := p } { m' with depth := d', peak := p' } :=
  ⟨hm.heap, fun h => absurd hlimit h, fun hexact => (hm.reports hexact).of_eq⟩

lemma JoinsResult.leaving_left {r r' : EStateM.Result Halt Machine Term}
    (h : S.JoinsResult L r r') : S.JoinsResult L (EvalM.leaving r) r' := by
  cases h with
  | @ok _ _ _ m m' hL hv hm => exact .ok hL hv (hm.of_depth hlimit _ m'.depth _ m'.peak)
  | @error _ _ _ m m' hL he hexact hm =>
    exact .error hL he hexact (hm.of_depth hlimit _ m'.depth _ m'.peak)

lemma JoinsResult.leaving_right {r r' : EStateM.Result Halt Machine Term}
    (h : S.JoinsResult L r r') : S.JoinsResult L r (EvalM.leaving r') := by
  cases h with
  | @ok _ _ _ m m' hL hv hm => exact .ok hL hv (hm.of_depth hlimit m.depth _ m.peak _)
  | @error _ _ _ m m' hL he hexact hm =>
    exact .error hL he hexact (hm.of_depth hlimit m.depth _ m.peak _)

/-- An evaluation that is counted on the right only. -/
lemma Matched.nested_right {r : EStateM.Result Halt Machine Term} {y : ℕ → EvalM Term}
    (hy : S.Matched L r fun j => y j m'.entered) :
    S.Matched L r fun j => EvalM.nested none (y j) m' := by
  intro hr
  obtain ⟨r', ⟨k, hk⟩, hjoins⟩ := hy hr
  refine ⟨_, ⟨k, fun j hj => ?_⟩, hjoins.leaving_right hlimit⟩
  exact (EvalM.nested_eq_leaving rfl).trans (congrArg _ (hk j hj))

end Unlimited

end Comparison

end Letrec
