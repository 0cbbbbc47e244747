import Mathlib
import Letrec.Proofs.Success
import Letrec.Proofs.Heap.Addresses

/-!
# What the rules of evaluation do to a machine

The rules are written against an evaluator for the terms inside.  These are their equations: what a
rule does to a given machine, as a run of that evaluator on a machine with the same heap, or as the
end of the run if there is nothing to evaluate.  The rules are opened here; what is proved about
runs afterwards refers to the equations.
-/

namespace Letrec

namespace EvalM

variable {m : Machine} {a : Addr} {env : Env} {x : String} {t u : Term}

@[simp] lemma heap_trace (m : Machine) (e : Heap → Event) : (m.trace e).heap = m.heap := by
  rw [Machine.trace]
  split <;> rfl

/-! ### Arguments -/

lemma suspend_of_isReady (ht : t.isReady = true) (env : Env) : suspend t env = pure t :=
  if_pos ht

lemma suspend_var_of_none (hx : env.lookup? x = none) :
    suspend (.var x) env = modifyGet (·.newThunk (.var x) env) := by
  simp [suspend, Term.isReady, hx]

lemma suspend_var_of_some (hx : env.lookup? x = some u) : suspend (.var x) env
    = if u.isReady then pure u else modifyGet (·.newThunk (.var x) env) := by
  unfold suspend
  dsimp only
  rw [hx]
  rfl

/-- An argument is passed as it is, or what a variable stands for is passed, or it is suspended. -/
lemma suspend_cases (t : Term) (env : Env) (m : Machine) :
    (∃ u, suspend t env m = .ok u m ∧
      (u = t ∧ t.isReady = true ∨ ∃ x, t = .var x ∧ env.lookup? x = some u)) ∨
    ∃ m', suspend t env m = .ok (.thunk m.heap.thunks.size) m' ∧
      m'.heap = m.heap.pushThunk { term := t, env } := by
  have hnew : ∃ m', (modifyGet (·.newThunk t env) : EvalM Term) m
      = .ok (.thunk m.heap.thunks.size) m' ∧ m'.heap = m.heap.pushThunk { term := t, env } :=
    ⟨(m.newThunk t env).2, modifyGet_eq_ok.2 ⟨by simp [Machine.newThunk], rfl⟩,
      by simp [Machine.newThunk]⟩
  cases t with
  | var x =>
    cases hx : env.lookup? x with
    | none => exact Or.inr (suspend_var_of_none hx ▸ hnew)
    | some u =>
      rw [suspend_var_of_some hx]
      split_ifs
      · exact Or.inl ⟨u, rfl, Or.inr ⟨x, rfl, hx⟩⟩
      · exact Or.inr hnew
  | lam x b => exact Or.inr hnew
  | app f a => exact Or.inr hnew
  | _ => exact Or.inl ⟨_, rfl, Or.inl ⟨rfl, rfl⟩⟩

/-! ### Variables -/

lemma step_var_of_none (ev : Evaluator) (n : ℕ) (hx : env.lookup? x = none) (m : Machine) :
    step ev n (.var x) env m = .error (.failed (.unboundVariable x)) m := by
  unfold step
  dsimp only
  rw [hx]
  rfl

/-! ### Forcing -/

/-- A thunk that has a value is not evaluated again. -/
lemma forceThunk_of_memo? {v : Term} (hv : m.heap.memo? a = some v) (ev : Evaluator) :
    forceThunk ev a m = .ok v m := by
  simp [forceThunk, readHeap, bind, EStateM.bind, Heap.memo_thunk, hv, pure, EStateM.pure]

/-- A thunk without a value is evaluated and gets one. -/
lemma forceThunk_of_unforced (ev : Evaluator) (hmemo : (m.heap.thunk a).memo = none) :
    forceThunk ev a m
      = (ev (m.heap.thunk a).term (m.heap.thunk a).env >>= fun v => modifyGet (·.memoize a v))
        (m.trace fun h => .forcing a (h.text (m.heap.thunk a).term)) := by
  simp [forceThunk, readHeap, Bind.bind, EStateM.bind, hmemo, modify, modifyGet,
    MonadStateOf.modifyGet, EStateM.modifyGet]

/-! ### Calls -/

section Call

variable (ev : Evaluator) (n : ℕ) (a : Addr) (arg : Term)

lemma call_closure (m : Machine) : call ev n (.closure a) arg m
    = ev (m.heap.closure a).body
        ((m.heap.closure a).env.extend (m.heap.closure a).param arg) m := by
  cases n <;> rfl

lemma call_closure_of_get {a : Addr} {c : Closure} (h : m.heap.closures[a]? = some c) :
    call ev n (.closure a) arg m = ev c.body (c.env.extend c.param arg) m := by
  rw [call_closure, Heap.closure_eq h]

lemma call_builtin : call ev n (.builtin a) arg = applyBuiltin ev a [arg] := by
  cases n <;> rfl

lemma call_int (v : Int64) (m : Machine) : call ev n (.int v) arg m
    = .error (.failed (.notAFunction (m.heap.text (.int v)))) m := by
  cases n <;> rfl

end Call

/-! ### Builtin operations -/

section Supply

variable {args : List Term} (ev : Evaluator)

/-- With too many arguments an operation fails. -/
lemma applyBuiltin_of_lt
    (h : (m.heap.builtin a).arity < ((m.heap.builtin a).supplied ++ args).length) :
    applyBuiltin ev a args m = .error (.failed (.tooManyArguments (m.heap.builtin a).name
      (m.heap.builtin a).arity ((m.heap.builtin a).supplied ++ args).length)) m := by
  show (if (m.heap.builtin a).arity < ((m.heap.builtin a).supplied ++ args).length then _
    else _ : EvalM Term) m = _
  rw [if_pos h]
  rfl

/-- With too few arguments an operation waits for more. -/
lemma applyBuiltin_of_gt
    (h : ((m.heap.builtin a).supplied ++ args).length < (m.heap.builtin a).arity) :
    applyBuiltin ev a args m = .ok (.builtin m.heap.builtins.size)
      (m.newBuiltin { m.heap.builtin a with
        supplied := (m.heap.builtin a).supplied ++ args }).2 := by
  show (if (m.heap.builtin a).arity < ((m.heap.builtin a).supplied ++ args).length then _
    else if ((m.heap.builtin a).supplied ++ args).length < (m.heap.builtin a).arity then _
    else _ : EvalM Term) m = _
  rw [if_neg h.not_gt, if_pos h]
  rfl

/-- With all its arguments an operation runs. -/
lemma applyBuiltin_of_eq
    (h : ((m.heap.builtin a).supplied ++ args).length = (m.heap.builtin a).arity) :
    applyBuiltin ev a args m
      = perform ev ((m.heap.builtin a).op ((m.heap.builtin a).supplied ++ args))
        (m.trace fun _ => .invoking (m.heap.builtin a).name) := by
  show (if (m.heap.builtin a).arity < ((m.heap.builtin a).supplied ++ args).length then _
    else if ((m.heap.builtin a).supplied ++ args).length < (m.heap.builtin a).arity then _
    else _ : EvalM Term) m = _
  rw [if_neg h.not_gt, if_neg h.not_lt]
  rfl

end Supply

section AsInt

variable (ev : Evaluator) {t : Term} {otherwise : String → EvalError} {next : Int64 → Action}

lemma perform_asInt_of_some {i : Int64} (h : m.heap.asInt? t = some i) :
    perform ev (.asInt t otherwise next) m = perform ev (next i) m := by
  simp [perform, readHeap, bind, EStateM.bind, h]

lemma perform_asInt_of_none (h : m.heap.asInt? t = none) :
    perform ev (.asInt t otherwise next) m
      = .error (.failed (otherwise (m.heap.text t))) m := by
  simp [perform, readHeap, bind, EStateM.bind, h, EvalM.fail, throw, throwThe,
    MonadExceptOf.throw, EStateM.throw]

end AsInt

end EvalM

end Letrec
