import Mathlib
import Letrec.Proofs.Evaluation.Once
import Letrec.Proofs.Evaluation.Threshold

/-!
# A limit on the nesting makes evaluation end

Only `evaluate` is guarded by the limit; forcing a thunk, calling a function and running a builtin
operation are not.  They come back to `evaluate` all the same before they recurse, except for a call
of a thunk, which is forced and called again.  But what forcing ends with is a value, and a value is
not a thunk.  So with a limit `l`, an evaluator that has `l + 1` units of fuel is never cut short
(`evaluate_ends`), and the machine that makes single steps comes to a stop (`run_terminates`).
-/

namespace Letrec

namespace EvalM

variable {α β : Type}

/-- The run is not cut short by the bound on the evaluator. -/
def Ends (x : EvalM α) (m : Machine) : Prop := ∀ m', x m ≠ .error .outOfFuel m'

lemma Ends.ok {x : EvalM α} {m m' : Machine} {a : α} (h : x m = .ok a m') : Ends x m := by
  intro m'' hm''
  rw [h] at hm''
  cases hm''

lemma Ends.failed {x : EvalM α} {m m' : Machine} {e : EvalError}
    (h : x m = .error (.failed e) m') : Ends x m := by
  intro m'' hm''
  rw [h] at hm''
  cases hm''

lemma Ends.of_run {x y : EvalM α} {m m' : Machine} (hrun : x m = y m') (h : Ends y m') :
    Ends x m := fun m'' => hrun ▸ h m''

lemma Ends.bind {x : EvalM α} {f : α → EvalM β} {m : Machine} (hx : Ends x m)
    (hf : ∀ a m', x m = .ok a m' → Ends (f a) m') : Ends (x >>= f) m := by
  intro m' h
  rcases bind_eq_error h with h | ⟨a, m₁, ha, h⟩
  · exact hx m' h
  · exact hf a m₁ ha m' h

/-- On machines of the depth `d`, the evaluator ends; and it is safe and counts within the limit. -/
structure EndsAt (l d : ℕ) (ev : Evaluator) : Prop where
  safe : SafeEvaluator ev
  balanced : ∀ t env, Balanced (some l) (ev t env)
  covered : ∀ {m : Machine} {t : Term} {env : Env}, m.depth = d → m.heap.Complete →
    m.heap.Covers env t → Ends (ev t env) m
  object : ∀ {m : Machine} {t : Term} {env : Env}, m.depth = d → m.heap.Complete →
    m.heap.Has t → Ends (ev t env) m

/-- What a safe run that counts within the limit ends with. -/
lemma Safe.after {x : EvalM Term} {m m' : Machine} {v : Term} {limit : Option ℕ} (hx : Safe x m)
    (hbalanced : Balanced limit x) (h : x m = .ok v m') :
    m'.depth = m.depth ∧ m'.heap.Complete ∧ m.heap.Within m'.heap ∧ m'.heap.Has v ∧ v.IsValue := by
  have hdepth := (hbalanced m).1
  rw [h] at hdepth
  exact ⟨hdepth, (ensures_iff.1 hx).1 v m' h⟩

section Rules

variable {l d : ℕ} {ev : Evaluator} (hev : EndsAt l d ev) {m : Machine} (hd : m.depth = d)
  (hm : m.heap.Complete)

include hev hd hm

lemma forceThunk_ends {a : Addr} (ha : a < m.heap.thunks.size) : Ends (forceThunk ev a) m := by
  cases hmemo : m.heap.memo? a with
  | some v => exact .ok (forceThunk_of_memo? hmemo ev)
  | none =>
    refine .of_run (forceThunk_of_unforced ev (by rw [Heap.memo_thunk, hmemo])) ?_
    refine .bind (hev.covered ?_ ?_ ?_) fun v m₁ _ => .ok rfl
    · rw [depth_trace, hd]
    · rwa [heap_trace]
    · rw [heap_trace]
      exact (hm.thunk (Heap.getElem?_thunks ha)).1

lemma force_ends {t : Term} (ht : m.heap.Has t) : Ends (force ev t) m := by
  cases t with
  | thunk a => exact forceThunk_ends hev hd hm ht
  | _ => exact hev.object hd hm ht

omit hd hm in
lemma force_balanced (t : Term) : Balanced (some l) (force ev t) :=
  @Congruence.force _ (Balanced.congruence (some l)) ev ev hev.balanced t

lemma perform_ends {args vs : List Term} {act : Action} (hact : act.OnlyForces args vs)
    (hargs : ∀ t ∈ args ++ vs, m.heap.Has t) : Ends (perform ev act) m := by
  induction hact generalizing m with
  | int => exact .ok rfl
  | value hv => exact .ok rfl
  | fail he => exact .failed rfl
  | @force vs t next ht _ ih =>
    refine .bind (force_ends hev hd hm (hargs t ht)) fun v m' hv => ?_
    obtain ⟨hdepth, hm', hwithin, hhas, hval⟩ :=
      (force_safe hev.safe hm (hargs t ht)).after (force_balanced hev t) hv
    refine ih v hval (hdepth.trans hd) hm' fun u hu => ?_
    rcases List.mem_append.1 hu with hu | hu
    · exact (hargs u (List.mem_append_left _ hu)).mono hwithin
    · rcases List.mem_cons.1 hu with rfl | hu
      · exact hhas
      · exact (hargs u (List.mem_append_right _ hu)).mono hwithin
  | @asInt vs t otherwise next ht _ _ ih =>
    rw [perform]
    refine .bind (.ok rfl) fun i m₁ hi => ?_
    obtain ⟨rfl, rfl⟩ := EStateM.Result.ok.inj hi
    dsimp only
    cases m.heap.asInt? t with
    | some i => exact ih i hd hm hargs
    | none => exact .bind (.ok rfl) fun _ _ _ => .failed rfl
  | record ht _ ih =>
    rw [perform]
    refine .bind (.ok rfl) fun _ m₁ hm₁ => ?_
    obtain rfl := modify_eq_ok.1 hm₁
    exact ih hd hm hargs

lemma applyBuiltin_ends {a : Addr} (ha : a < m.heap.builtins.size) {arg : Term}
    (harg : m.heap.Has arg) : Ends (applyBuiltin ev a [arg]) m := by
  obtain ⟨-, hsupplied, hop⟩ := hm.builtin (Heap.getElem?_builtins ha)
  rcases lt_trichotomy (m.heap.builtin a).arity ((m.heap.builtin a).supplied ++ [arg]).length with
    hmany | hexact | hfew
  · exact .failed (applyBuiltin_of_lt ev hmany)
  · refine .of_run (applyBuiltin_of_eq ev hexact.symm) ?_
    refine perform_ends hev (by rwa [depth_trace]) (by rwa [heap_trace]) (hop _ hexact.symm) ?_
    rw [heap_trace, List.append_nil]
    exact List.forall_mem_append.2 ⟨hsupplied, List.forall_mem_singleton.2 harg⟩
  · exact .ok (applyBuiltin_of_gt ev hfew)

/-- A call of a value does not need fuel of its own. -/
lemma call_ends (n : ℕ) {f arg : Term} (hf : m.heap.Has f) (hval : f.IsValue)
    (harg : m.heap.Has arg) : Ends (call ev n f arg) m := by
  cases f with
  | int v => exact .failed (call_int ev n arg v m)
  | builtin a =>
    rw [call_builtin]
    exact applyBuiltin_ends hev hd hm hf harg
  | closure a =>
    have hc := Heap.getElem?_closures hf
    exact .of_run (call_closure_of_get ev n arg hc) (hev.covered hd hm ((hm.closure hc).body harg))
  | thunk a => exact hval.elim
  | var x => exact hval.elim
  | lam x b => exact hval.elim
  | app g a => exact hval.elim

lemma step_ends_object (n : ℕ) {t : Term} (env : Env) (ht : m.heap.Has t) :
    Ends (step ev n t env) m := by
  cases t with
  | thunk a => exact forceThunk_ends hev hd hm ht
  | int v => exact .ok rfl
  | closure a => exact .ok rfl
  | builtin a => exact .ok rfl
  | var x => exact ht.elim
  | lam x b => exact ht.elim
  | app f a => exact ht.elim

lemma step_ends (n : ℕ) {t : Term} {env : Env} (ht : m.heap.Covers env t) :
    Ends (step ev n t env) m := by
  cases t with
  | int v => exact .ok rfl
  | lam x b => exact .ok rfl
  | var x =>
    obtain ⟨u, hu, hhas⟩ := ht.lookup
    unfold EvalM.step
    dsimp only
    rw [hu]
    cases u with
    | thunk a => exact forceThunk_ends hev hd hm hhas
    | _ => exact hev.object hd hm hhas
  | app f a =>
    refine .bind (hev.covered hd hm ht.fn) fun v m₁ hv => ?_
    obtain ⟨hdepth₁, hm₁, hwithin₁, hhas, hval⟩ :=
      (hev.safe.covered hm ht.fn).after (hev.balanced f env) hv
    have hsuspend := ensures_iff.1 (suspend_safe hm₁ (ht.arg.mono hwithin₁))
    have hdepth := ((Balanced.congruence (some l)).suspend a env m₁).1
    refine .bind ?_ fun u m₂ hu => ?_
    · rcases suspend_cases a env m₁ with ⟨u, hu, -⟩ | ⟨m₂, hu, -⟩
      · exact fun m' => by simp [hu]
      · exact fun m' => by simp [hu]
    · obtain ⟨hm₂, hwithin₂, hhas'⟩ := hsuspend.1 u m₂ hu
      rw [hu] at hdepth
      have hdepth₂ : m₂.depth = m₁.depth := hdepth
      exact call_ends hev (by omega) hm₂ n (hhas.mono hwithin₂) hval hhas'
  | closure a => exact ht.closed.lowered.elim
  | thunk a => exact ht.closed.lowered.elim
  | builtin a => exact ht.closed.lowered.elim

end Rules

lemma nested_ends {x : EvalM α} {m : Machine} {l : ℕ}
    (h : ∀ m₁ : Machine, m₁.heap = m.heap → m₁.depth = m.depth + 1 → m.depth < l → Ends x m₁) :
    Ends (nested (some l) x) m := by
  intro m' hm'
  unfold nested at hm'
  by_cases hdepth : l ≤ m.depth
  · rw [Option.filter_some_pos (by simpa using hdepth)] at hm'
    exact absurd hm' (by simp)
  · rw [Option.filter_some_neg (by simpa using hdepth)] at hm'
    dsimp only at hm'
    cases hx : x { m with depth := m.depth + 1, peak := max m.peak (m.depth + 1) } with
    | ok a m₁ =>
      rw [hx] at hm'
      exact absurd hm' (by simp)
    | error e m₁ =>
      rw [hx] at hm'
      obtain ⟨rfl, -⟩ := EStateM.Result.error.inj hm'
      exact h { m with depth := m.depth + 1, peak := max m.peak (m.depth + 1) } rfl rfl
        (by omega) m₁ hx

/-- An evaluator ends if its fuel lasts until the limit. -/
theorem evaluate_ends {l n d : ℕ} (hd : d ≤ l) (hn : l < d + n) :
    EndsAt l d (evaluate (some l) n) := by
  induction n generalizing d with
  | zero => omega
  | succ n ih =>
    have hdeeper : ∀ {k : ℕ}, k = d → k < l → EndsAt l (k + 1) (evaluate (some l) n) :=
      fun hk hlt => ih (by omega) (by omega)
    refine ⟨evaluate_safe _ _, evaluate_balanced _ _, fun hm hc ht => ?_, fun hm hc ht => ?_⟩
    · refine nested_ends fun m₁ hheap hdepth hlt => ?_
      rw [← hheap] at hc ht
      exact step_ends (hdeeper hm hlt) hdepth hc n ht
    · refine nested_ends fun m₁ hheap hdepth hlt => ?_
      rw [← hheap] at hc ht
      exact step_ends_object (hdeeper hm hlt) hdepth hc n _ ht

end EvalM

/-! ### Single steps -/

namespace Config

/-- No sequence of steps from here goes on forever. -/
def Terminates (limit : Option ℕ) (s : Config) : Prop := Acc (fun s'' s' => Steps limit s' s'') s

/-- There is only one way to go, so what can come to a stop does. -/
lemma terminates_of_reaches {limit : Option ℕ} {s s' : Config} (h : Reaches limit s s')
    (hstop : s'.next limit = none) : Terminates limit s := by
  induction h using Relation.ReflTransGen.head_induction_on with
  | refl =>
    refine .intro _ fun s'' hs'' => ?_
    exact absurd (hstop.symm.trans hs'') (by simp)
  | head hstep _ ih =>
    refine .intro _ fun s'' hs'' => ?_
    obtain rfl := Option.some.inj (hstep.symm.trans hs'')
    exact ih

end Config

open Config

/-- A program over the standard operations that runs with a limit ends, with a value or with an
error: the machine stops, at what the run answers, and fuel beyond the limit is always enough. -/
theorem run_terminates {entry : String} {p : Program Span} {c : Compiled} {log : Array Event}
    (hc : compile Builtins.standard.names entry p #[] = .ok c log) (tracing : Bool) (l : ℕ) :
    Terminates (some l) (start .standard tracing log c.term) ∧
    (∀ n m', l < n → evaluate (some l) n c.term Builtins.standard.env
      { Machine.ofBuiltins .standard tracing with log } ≠ .error .outOfFuel m') ∧
    (run .standard { entry, maxDepth := some l } tracing p).EndsRun (some l)
      (start .standard tracing log c.term) ∧
    ((∃ v, (run .standard { entry, maxDepth := some l } tracing p).result = .ok v) ∨
      ∃ e, (run .standard { entry, maxDepth := some l } tracing p).result
        = .error (.eval (.failed e))) := by
  have hrun : run .standard { entry, maxDepth := some l } tracing p = evaluateIn .standard (some l)
      c.term { Machine.ofBuiltins .standard tracing with log } := run_of_compile hc tracing
  have hclosed := closedIn_of_compile hc (by decide +kernel) (by decide +kernel)
  have hcomplete := Builtins.complete_heap Builtins.standard_onlyForce
  have hcovers : Builtins.standard.heap.Covers Builtins.standard.env c.term :=
    ⟨hclosed, Builtins.standard.has_env⟩
  -- the machine starts with no evaluation under way
  have hends : ∀ n, l < n → EvalM.Ends (evaluate (some l) n c.term Builtins.standard.env)
      { Machine.ofBuiltins .standard tracing with log } :=
    fun n hn => (EvalM.evaluate_ends (Nat.zero_le l) (by omega)).covered rfl hcomplete hcovers
  have hlt : l < ampleFuel + l := by
    unfold ampleFuel
    omega
  refine ⟨?_, fun n m' hn => hends n hn m', ?_, ?_⟩
  · have hleads := EvalM.evaluate_leads (some l) (ampleFuel + l) c.term Builtins.standard.env []
      { Machine.ofBuiltins .standard tracing with log }
    cases hr : evaluate (some l) (ampleFuel + l) c.term Builtins.standard.env
        { Machine.ofBuiltins .standard tracing with log } with
    | ok v m' =>
      rw [hr] at hleads
      exact terminates_of_reaches hleads rfl
    | error h m' =>
      rw [hr] at hleads
      have hne : h ≠ .outOfFuel := by
        rintro rfl
        exact hends _ hlt m' hr
      exact terminates_of_reaches (hleads hne) rfl
  · rw [hrun]
    exact endsRun_evaluateIn _ _ _ _ _
  · have hsafe := EvalM.ensures_iff.1 ((evaluate_safe (some l) (ampleFuel + l)).covered
      (m := { Machine.ofBuiltins .standard tracing with log }) hcomplete hcovers)
    rw [hrun]
    unfold evaluateIn
    rw [Option.getD_some]
    cases hr : evaluate (some l) (ampleFuel + l) c.term Builtins.standard.env
        { Machine.ofBuiltins .standard tracing with log } with
    | ok v m' => exact Or.inl ⟨v, rfl⟩
    | error h m' =>
      cases h with
      | failed e => exact Or.inr ⟨e, rfl⟩
      | missingOperand => exact absurd hr (hsafe.2.2 m')
      | outOfFuel => exact absurd hr (hends _ hlt m')

/-- `main = f 0` and `f n = f (+ n 1)`, which has no value. -/
def endless : Program Span where
  defs :=
    [⟨⟨"main", .nowhere⟩, [],
      .call (.ident ⟨"f", .nowhere⟩) (.int 0 .nowhere) .nowhere, .nowhere⟩,
     ⟨⟨"f", .nowhere⟩, [⟨"n", .nowhere⟩],
      .call (.ident ⟨"f", .nowhere⟩)
        (.callAll (.ident ⟨"+", .nowhere⟩) [.ident ⟨"n", .nowhere⟩, .int 1 .nowhere] .nowhere)
        .nowhere, .nowhere⟩]
  ann := .nowhere

theorem run_terminates_endless : ∃ c log,
    compile Builtins.standard.names "main" endless #[] = .ok c log ∧
    Terminates (some 30) (start .standard false log c.term) ∧
    (run .standard { maxDepth := some 30 } false endless).result
      = .error (.eval (.failed (.recursionLimit 30))) := by
  have hcompile :
      (value? (compile Builtins.standard.names "main" endless #[])).isSome = true := by
    decide +kernel
  have hrun : (run .standard { maxDepth := some 30 } false endless).result
      = .error (.eval (.failed (.recursionLimit 30))) := by
    decide +kernel
  obtain ⟨c, hc⟩ := Option.isSome_iff_exists.1 hcompile
  obtain ⟨log, hc⟩ := value?_eq_some.1 hc
  exact ⟨c, log, hc, (run_terminates hc false 30).1, hrun⟩

end Letrec
