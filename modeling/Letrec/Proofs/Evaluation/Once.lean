import Mathlib
import Letrec.Proofs.Safety
import Letrec.Proofs.Evaluation.Rank

/-!
# Thunks are evaluated once

A memo cell that is filled stays as it is, and a thunk that has a value is not evaluated again.  So
a thunk could be evaluated twice only if it were forced while its own value is computed, and that is
excluded by the ranks of objects.

Main result: `run_forces_once`, about every state of the run of a program.
-/

namespace Letrec

/-! ### Memo cells -/

namespace Heap

variable {h h' : Heap} {a : Addr} {v : Term}

/-- What one step does to the heap. -/
inductive Grows (h : Heap) : Heap → Prop
  | same : Grows h h
  | closure (c : Closure) : Grows h (h.pushClosure c)
  | thunk (t : Term) (env : Env) : Grows h (h.pushThunk { term := t, env })
  | builtin (b : Builtin) : Grows h (h.pushBuiltin b)
  | memoize (a : Addr) (v : Term) : Grows h (h.memoize a v)

/-- A filled memo cell stays as it is. -/
lemma Grows.memo? (hg : h.Grows h') (hv : h.memo? a = some v) : h'.memo? a = some v := by
  cases hg with
  | same => exact hv
  | closure c => exact hv
  | thunk t env => rwa [memo?_pushThunk]
  | builtin b => exact hv
  | memoize b w =>
    rw [memo?_memoize]
    split_ifs with heq
    · obtain ⟨c, hc, hmemo⟩ := Option.bind_eq_some_iff.1 hv
      rw [hc, Option.bind_some, hmemo]
      rfl
    · exact hv

/-- A thunk that was to get a value has one. -/
lemma memo?_memoize_self (ha : a < h.thunks.size) (v : Term) :
    (h.memoize a v).memo? a ≠ none := by
  rw [memo?_memoize, if_pos rfl, getElem?_thunks ha, Option.bind_some]
  cases (h.thunk a).memo <;> simp

end Heap

/-! ### What a step leaves in place -/

namespace Config

variable {limit : Option ℕ} {s s' : Config} {K : List Frame} {m : Machine}

/-- The heap has only grown, and what waits still waits or is given up. -/
structure Keeps (h : Heap) (K : List Frame) (s : Config) : Prop where
  heap : h.Grows s.machine.heap
  stack : (∃ e, s.control = .fail e) ∨ K ⊆ s.stack

lemma evaluating_keeps (t : Term) (env : Env) : Keeps m.heap K (evaluating t env K m) := by
  cases t with
  | lam x b => exact ⟨.closure _, Or.inr (List.Subset.refl _)⟩
  | app f a => exact ⟨.same, Or.inr (List.subset_cons_self _ _)⟩
  | var x =>
    unfold evaluating
    dsimp only
    split
    · exact ⟨.same, Or.inr (List.Subset.refl _)⟩
    · exact ⟨.same, Or.inr (List.Subset.refl _)⟩
    · exact ⟨.same, Or.inl ⟨_, rfl⟩⟩
  | _ => exact ⟨.same, Or.inr (List.Subset.refl _)⟩

lemma supplying_keeps (a : Addr) (arg : Term) : Keeps m.heap K (supplying a arg K m) := by
  unfold supplying
  dsimp only
  split_ifs
  · exact ⟨.same, Or.inl ⟨_, rfl⟩⟩
  · exact ⟨.builtin _, Or.inr (List.Subset.refl _)⟩
  · refine ⟨?_, Or.inr (List.Subset.refl _)⟩
    rw [EvalM.heap_trace]
    exact .same

lemma performing_keeps (act : Action) : Keeps m.heap K (performing act K m) := by
  cases act with
  | done t => exact ⟨.same, Or.inr (List.Subset.refl _)⟩
  | fail e => exact ⟨.same, Or.inl ⟨_, rfl⟩⟩
  | missingOperand => exact ⟨.same, Or.inl ⟨_, rfl⟩⟩
  | force t next => exact ⟨.same, Or.inr (List.subset_cons_self _ _)⟩
  | asInt t otherwise next =>
    unfold performing
    dsimp only
    split
    · exact ⟨.same, Or.inr (List.Subset.refl _)⟩
    · exact ⟨.same, Or.inl ⟨_, rfl⟩⟩
  | record label t next => exact ⟨.same, Or.inr (List.Subset.refl _)⟩

lemma returning_keeps (v : Term) (f : Frame) : Keeps m.heap K (returning v f K m) := by
  cases f with
  | leave => exact ⟨.same, Or.inr (List.Subset.refl _)⟩
  | argument arg env =>
    rcases EvalM.suspend_cases arg env m with ⟨u, hu, -⟩ | ⟨m', hu, hheap⟩
    · rw [returning, hu]
      exact ⟨.same, Or.inr (List.Subset.refl _)⟩
    · rw [returning, hu]
      exact ⟨hheap ▸ .thunk arg env, Or.inr (List.Subset.refl _)⟩
  | supply arg => exact ⟨.same, Or.inr (List.Subset.refl _)⟩
  | memoize a => exact ⟨.memoize a v, Or.inr (List.Subset.refl _)⟩
  | resume next => exact ⟨.same, Or.inr (List.Subset.refl _)⟩

/-- A step keeps the stack, or it hands a value to the innermost frame, or it gives up. -/
lemma Steps.keeps (h : Steps limit s s') :
    s.machine.heap.Grows s'.machine.heap ∧
      ((∃ e, s'.control = .fail e) ∨ s.stack ⊆ s'.stack ∨
        ∃ v f K, s = ⟨.value v, f :: K, s.machine⟩ ∧ s' = returning v f K s.machine) := by
  have hkept : ∀ {h K}, Keeps h K s' → h = s.machine.heap → s.stack ⊆ K →
      s.machine.heap.Grows s'.machine.heap ∧
        ((∃ e, s'.control = .fail e) ∨ s.stack ⊆ s'.stack ∨
          ∃ v f K, s = ⟨.value v, f :: K, s.machine⟩ ∧ s' = returning v f K s.machine) := by
    rintro h K hkeeps rfl hK
    exact ⟨hkeeps.heap, hkeeps.stack.imp_right fun hstack => Or.inl fun _ hf => hstack (hK hf)⟩
  obtain ⟨c, K, m⟩ := s
  cases c with
  | eval t env =>
    rw [Steps, next] at h
    split at h <;> obtain rfl := Option.some.inj h
    · exact ⟨.same, Or.inl ⟨_, rfl⟩⟩
    · exact hkept (evaluating_keeps t env) rfl (List.subset_cons_self _ _)
  | force a =>
    rw [Steps, next] at h
    split at h <;> obtain rfl := Option.some.inj h
    · exact ⟨.same, Or.inr (Or.inl (List.Subset.refl _))⟩
    · refine ⟨?_, Or.inr (Or.inl (List.subset_cons_self _ _))⟩
      dsimp only
      rw [EvalM.heap_trace]
      exact .same
  | call f arg =>
    cases f with
    | closure a =>
      obtain rfl := Option.some.inj h
      exact ⟨.same, Or.inr (Or.inl (List.Subset.refl _))⟩
    | builtin a =>
      obtain rfl := Option.some.inj h
      exact hkept (supplying_keeps a arg) rfl (List.Subset.refl _)
    | thunk a =>
      obtain rfl := Option.some.inj h
      exact ⟨.same, Or.inr (Or.inl (List.subset_cons_self _ _))⟩
    | _ =>
      obtain rfl := Option.some.inj h
      exact ⟨.same, Or.inl ⟨_, rfl⟩⟩
  | perform act =>
    obtain rfl := Option.some.inj h
    exact hkept (performing_keeps act) rfl (List.Subset.refl _)
  | value v =>
    cases K with
    | nil => exact absurd h (by simp [Steps, next])
    | cons f K =>
      -- the only steps that take a frame away without giving up
      obtain rfl := Option.some.inj h
      exact ⟨(returning_keeps v f).heap, Or.inr (Or.inr ⟨v, f, K, rfl, rfl⟩)⟩
  | fail e =>
    cases K with
    | nil => exact absurd h (by simp [Steps, next])
    | cons f K =>
      cases f <;> obtain rfl := Option.some.inj h <;> exact ⟨.same, Or.inl ⟨_, rfl⟩⟩

/-! ### The evaluation of a thunk -/

/-- A thunk without a value is forced. -/
def Starts (a : Addr) (s : Config) : Prop :=
  s.control = .force a ∧ s.machine.heap.memo? a = none

/-- A thunk has a value, or its value is computed, or that was given up. -/
def Started (a : Addr) (s : Config) : Prop :=
  s.machine.heap.memo? a ≠ none ∨ .memoize a ∈ s.stack ∨ ∃ e, s.control = .fail e

variable {a : Addr}

/-- What follows on the start of an evaluation. -/
lemma Starts.next_eq (hs : s.Starts a) (limit : Option ℕ) : s.next limit
    = some ⟨.eval (s.machine.heap.thunk a).term (s.machine.heap.thunk a).env,
      .memoize a :: s.stack,
      s.machine.trace fun h => .forcing a (h.text (s.machine.heap.thunk a).term)⟩ := by
  obtain ⟨c, K, m⟩ := s
  obtain ⟨rfl, hmemo⟩ := hs
  simp [next, Heap.memo_thunk, hmemo]

lemma Steps.started_of_starts (h : Steps limit s s') (hs : s.Starts a) : s'.Started a := by
  rw [Steps, hs.next_eq] at h
  obtain rfl := Option.some.inj h
  exact Or.inr (Or.inl List.mem_cons_self)

lemma Steps.fail (h : Steps limit s s') {e : Halt} (hs : s.control = .fail e) :
    s'.control = .fail e := by
  obtain ⟨c, K, m⟩ := s
  obtain rfl := hs
  cases K with
  | nil => exact absurd h (by simp [Steps, next])
  | cons f K => cases f <;> obtain rfl := Option.some.inj h <;> rfl

/-- The evaluation of a thunk goes on until the thunk has a value, unless it is given up. -/
lemma Steps.started (h : Steps limit s s') (hranked : s.Ranked) (hs : s.Started a) :
    s'.Started a := by
  obtain ⟨hgrows, hstack⟩ := h.keeps
  rcases hs with hmemo | hmem | ⟨e, he⟩
  · obtain ⟨v, hv⟩ := Option.ne_none_iff_exists'.1 hmemo
    exact Or.inl (by rw [hgrows.memo? hv]; simp)
  · rcases hstack with hfail | hsub | ⟨v, f, K, hs, rfl⟩
    · exact Or.inr (Or.inr hfail)
    · exact Or.inr (Or.inl (hsub hmem))
    · rw [hs] at hmem
      rcases List.mem_cons.1 hmem with rfl | hmem
      · -- the value is stored, for which the thunk has to be in the heap
        obtain ⟨rk, hw, -⟩ := hranked
        rw [hs] at hw
        exact Or.inl (Heap.memo?_memoize_self hw.stack.1.has v)
      · rcases (returning_keeps v f).stack with hfail | hsub
        · exact Or.inr (Or.inr hfail)
        · exact Or.inr (Or.inl (hsub hmem))
  · exact Or.inr (Or.inr ⟨e, h.fail he⟩)

/-- A thunk whose value is computed is not forced. -/
lemma Ranked.notMem_of_force (hranked : s.Ranked) (hs : s.control = .force a) :
    .memoize a ∉ s.stack := by
  obtain ⟨rk, hw, hc⟩ := hranked
  rw [hs] at hc
  exact Ranking.notMem_of_below hw.stack hc.below

lemma Ranked.not_starts (hranked : s.Ranked) (hs : s.Started a) : ¬ s.Starts a := by
  rintro ⟨hforce, hmemo⟩
  rcases hs with hne | hmem | ⟨e, he⟩
  · exact hne hmemo
  · exact hranked.notMem_of_force hforce hmem
  · exact absurd (hforce.symm.trans he) (by simp)

/-! ### Runs -/

lemma Reaches.memo? {v : Term} (h : Reaches limit s s') (hv : s.machine.heap.memo? a = some v) :
    s'.machine.heap.memo? a = some v := by
  induction h with
  | refl => exact hv
  | tail _ hstep ih => exact hstep.keeps.1.memo? ih

lemma Reaches.ranked (h : Reaches limit s s') (hs : s.Ranked) : s'.Ranked := by
  induction h with
  | refl => exact hs
  | tail _ hstep ih => exact hstep.ranked ih

lemma Reaches.started (h : Reaches limit s s') (hranked : s.Ranked) (hs : s.Started a) :
    s'.Started a := by
  induction h with
  | refl => exact hs
  | tail hreach hstep ih => exact hstep.started (Reaches.ranked hreach hranked) ih

/-- In a run, every thunk is evaluated at most once, and its value does not change. -/
structure ForcesOnce (limit : Option ℕ) (start : Config) : Prop where
  /-- A filled memo cell stays as it is. -/
  stable : ∀ {s s' a v}, Reaches limit start s → Reaches limit s s' →
    s.machine.heap.memo? a = some v → s'.machine.heap.memo? a = some v
  /-- A thunk that has a value gives it back, whatever the evaluator is, and nothing else
  happens. -/
  returns : ∀ {s s' a v}, Reaches limit start s → s.machine.heap.memo? a = some v →
    Reaches limit s s' → (∀ ev, EvalM.forceThunk ev a s'.machine = .ok v s'.machine) ∧
      (s'.control = .force a → s'.next limit = some ⟨.value v, s'.stack, s'.machine⟩)
  /-- The evaluation of a thunk does not start a second time. -/
  once : ∀ {s s' a}, Reaches limit start s → s.Starts a →
    Relation.TransGen (Steps limit) s s' → ¬ s'.Starts a
  /-- A thunk is not forced while its value is computed. -/
  nested : ∀ {s a}, Reaches limit start s → .memoize a ∈ s.stack → s.control ≠ .force a

lemma Ranked.forcesOnce (limit : Option ℕ) (hs : s.Ranked) : ForcesOnce limit s where
  stable _ h := h.memo?
  returns {s' s'' a v} _ hv h := by
    have hv' := Reaches.memo? h hv
    refine ⟨EvalM.forceThunk_of_memo? hv', fun hforce => ?_⟩
    obtain ⟨c, K, m⟩ := s''
    obtain rfl := hforce
    simp [next, Heap.memo_thunk, hv']
  once hreach hstarts h := by
    -- after the first of the steps the thunk is started, and it stays so
    obtain ⟨s₁, hstep, hrest⟩ := Relation.TransGen.head'_iff.1 h
    have hranked := hstep.ranked (hreach.ranked hs)
    exact (Reaches.ranked hrest hranked).not_starts
      (Reaches.started hrest hranked (hstep.started_of_starts hstarts))
  nested hreach hmem hforce := (hreach.ranked hs).notMem_of_force hforce hmem

/-- The first state of a run. -/
def start (bs : Builtins) (tracing : Bool) (log : Array Event) (t : Term) : Config :=
  ⟨.eval t bs.env, [], { Machine.ofBuiltins bs tracing with log }⟩

/-- At the start no object refers to another one. -/
lemma not_refers_start {bs : Builtins} (hbs : bs.OnlyForce) (o u : Term) :
    ¬ bs.heap.Refers o u := by
  intro hou
  cases hou with
  | closure ha => exact absurd ha (by simp [Builtins.heap])
  | thunk ha => exact absurd ha (by simp [Builtins.heap])
  | memo ha => exact absurd ha (by simp [Builtins.heap])
  | @builtin a b _ ha hu =>
    have hget : bs.entries[a]? = some b := by simpa [Builtins.heap] using ha
    rw [(hbs _ (List.mem_of_getElem? hget)).1] at hu
    exact absurd hu (by simp)

lemma ranked_start {bs : Builtins} (hbs : bs.OnlyForce) {t : Term}
    (ht : t.ClosedIn {x | x ∈ bs.env.names}) (tracing : Bool) (log : Array Event) :
    (start bs tracing log t).Ranked :=
  ⟨fun _ => 0,
    ⟨bs.complete_heap hbs, fun o u hou => absurd hou (not_refers_start hbs o u), trivial⟩,
    .covered ⟨ht, bs.has_env⟩ fun _ _ => Or.inr (WithTop.coe_lt_top _)⟩

end Config

open Config

/-- The states of a run from the first one on end as the run does. -/
structure Outcome.EndsRun (o : Outcome) (limit : Option ℕ) (start : Config) : Prop where
  ok : ∀ v, o.result = .ok v → Reaches limit start ⟨.value v, [], o.machine⟩
  error : ∀ h, o.result = .error (.eval h) → h ≠ .outOfFuel →
    Reaches limit start ⟨.fail h, [], o.machine⟩

lemma endsRun_evaluateIn (bs : Builtins) (limit : Option ℕ) (tracing : Bool) (log : Array Event)
    (t : Term) : (evaluateIn bs limit t { Machine.ofBuiltins bs tracing with log }).EndsRun limit
      (start bs tracing log t) := by
  have hleads := EvalM.evaluate_leads limit (ampleFuel + limit.getD 0) t bs.env []
    { Machine.ofBuiltins bs tracing with log }
  rw [evaluateIn]
  cases h : evaluate limit (ampleFuel + limit.getD 0) t bs.env
      { Machine.ofBuiltins bs tracing with log } with
  | ok v m =>
    rw [h] at hleads
    refine ⟨fun v' hv' => ?_, fun e he => absurd he (by simp)⟩
    obtain rfl := Except.ok.inj hv'
    exact hleads
  | error e m =>
    rw [h] at hleads
    refine ⟨fun v hv => absurd hv (by simp), fun e' he' hne => ?_⟩
    obtain rfl := Failure.eval.inj (Except.error.inj he')
    exact hleads hne

/-- When a program runs over the standard operations, every thunk is evaluated at most once, with a
limit on the nesting of evaluations or without. -/
theorem run_forces_once (opts : Options) (tracing : Bool) {p : Program Span} {c : Compiled}
    {log : Array Event} (hc : compile Builtins.standard.names opts.entry p #[] = .ok c log) :
    (run .standard opts tracing p).EndsRun opts.maxDepth (start .standard tracing log c.term) ∧
      ForcesOnce opts.maxDepth (start .standard tracing log c.term) := by
  have hclosed := closedIn_of_compile hc (by decide +kernel) (by decide +kernel)
  rw [run_of_compile hc]
  exact ⟨endsRun_evaluateIn _ _ _ _ _,
    (ranked_start Builtins.standard_onlyForce hclosed tracing log).forcesOnce opts.maxDepth⟩

/-- `main = let x = 1 + 2 in x + x`: the argument `x` is forced twice. -/
def sharedSum : Program Span where
  defs :=
    [⟨⟨"main", .nowhere⟩, [],
      .letIn
        [⟨⟨"x", .nowhere⟩, [],
          .call (.call (.ident ⟨"+", .nowhere⟩) (.int 1 .nowhere) .nowhere) (.int 2 .nowhere)
            .nowhere, .nowhere⟩]
        (.call (.call (.ident ⟨"+", .nowhere⟩) (.ident ⟨"x", .nowhere⟩) .nowhere)
          (.ident ⟨"x", .nowhere⟩) .nowhere) .nowhere, .nowhere⟩]
  ann := .nowhere

theorem run_forces_once_sharedSum : ∃ c log,
    compile Builtins.standard.names "main" sharedSum #[] = .ok c log ∧
    (run .standard { maxDepth := some 20 } true sharedSum).result = .ok (.int 6) ∧
    (run .standard { maxDepth := some 20 } true sharedSum).EndsRun (some 20)
      (start .standard true log c.term) ∧
    ForcesOnce (some 20) (start .standard true log c.term) := by
  have hcompile :
      (value? (compile Builtins.standard.names "main" sharedSum #[])).isSome = true := by
    decide +kernel
  have hrun : (run .standard { maxDepth := some 20 } true sharedSum).result = .ok (.int 6) := by
    decide +kernel
  obtain ⟨c, hc⟩ := Option.isSome_iff_exists.1 hcompile
  obtain ⟨log, hc⟩ := value?_eq_some.1 hc
  exact ⟨c, log, hc, hrun, run_forces_once { maxDepth := some 20 } true hc⟩

end Letrec
