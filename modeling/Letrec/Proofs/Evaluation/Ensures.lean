import Mathlib
import Letrec.Proofs.Evaluation.Rules

/-!
# What a run of the machine ensures

`Ensures x m ok failed`: started on the machine `m`, the computation `x` ends with a value and a
machine that satisfy `ok`, or with an error that satisfies `failed`, or it is cut short by the bound
on the evaluator.  It never runs a builtin operation without an operand.

There is one lemma for each way of putting computations together, for each primitive step and for
each rule that reads the heap.
-/

namespace Letrec.EvalM

variable {α β : Type}

/-- All ends of a run, except that it may be cut short. -/
def Ensures (x : EvalM α) (m : Machine) (ok : α → Machine → Prop) (failed : EvalError → Prop) :
    Prop :=
  match x m with
  | .ok a m' => ok a m'
  | .error (.failed e) _ => failed e
  | .error .missingOperand _ => False
  | .error .outOfFuel _ => True

variable {x : EvalM α} {f : α → EvalM β} {m : Machine} {ok ok' : α → Machine → Prop}
  {failed failed' : EvalError → Prop}

lemma ensures_iff : Ensures x m ok failed ↔
    (∀ a m', x m = .ok a m' → ok a m') ∧ (∀ e m', x m = .error (.failed e) m' → failed e) ∧
      ∀ m', x m ≠ .error .missingOperand m' := by
  rw [Ensures]
  cases hx : x m with
  | ok a m' =>
    constructor
    · intro h
      refine ⟨fun b m'' heq => ?_, by simp, by simp⟩
      obtain ⟨rfl, rfl⟩ := EStateM.Result.ok.inj heq
      exact h
    · exact fun h => h.1 a m' rfl
  | error e m' => cases e <;> simp

lemma Ensures.mono (h : Ensures x m ok failed) (hok : ∀ a m', ok a m' → ok' a m')
    (hfailed : ∀ e, failed e → failed' e) : Ensures x m ok' failed' := by
  rw [ensures_iff] at h ⊢
  exact ⟨fun a m' ha => hok a m' (h.1 a m' ha), fun e m' he => hfailed e (h.2.1 e m' he), h.2.2⟩

lemma Ensures.pure {a : α} (h : ok a m) : Ensures (pure a) m ok failed := h

lemma Ensures.fail {e : EvalError} (h : failed e) : Ensures (EvalM.fail e) m ok failed := h

lemma Ensures.outOfFuel : Ensures (throw .outOfFuel : EvalM α) m ok failed := trivial

lemma Ensures.bind {ok : β → Machine → Prop}
    (h : Ensures x m (fun a m' => Ensures (f a) m' ok failed) failed) :
    Ensures (x >>= f) m ok failed := by
  rw [Ensures] at h ⊢
  simp only [Bind.bind, EStateM.bind]
  cases hx : x m with
  | ok a m' =>
    rw [hx] at h
    exact h
  | error e m' =>
    rw [hx] at h
    cases e <;> exact h

lemma Ensures.readHeap {g : Heap → α} (h : ok (g m.heap) m) :
    Ensures (EvalM.readHeap g) m ok failed := h

lemma Ensures.modify {g : Machine → Machine} {ok : PUnit → Machine → Prop} (h : ok ⟨⟩ (g m)) :
    Ensures (modify g) m ok failed := h

lemma Ensures.modifyGet {g : Machine → α × Machine} (h : ok (g m).1 (g m).2) :
    Ensures (modifyGet g) m ok failed := h

/-- What is ensured of a computation whatever the depth and the peak of the machine are, is
ensured of the computation counted as under way, unless the limit stops it. -/
lemma Ensures.nested {limit : Option ℕ} {p : α → Heap → Prop}
    (hlimit : ∀ l, limit = some l → failed (.recursionLimit l))
    (h : ∀ m', m'.heap = m.heap → Ensures x m' (fun a m'' => p a m''.heap) failed) :
    Ensures (EvalM.nested limit x) m (fun a m' => p a m'.heap) failed := by
  rw [Ensures, EvalM.nested]
  cases hl : limit.filter (· ≤ m.depth) with
  | some l =>
    obtain ⟨heq, -⟩ := Option.filter_eq_some_iff.1 hl
    exact hlimit l heq
  | none =>
    have h' := h { m with depth := m.depth + 1, peak := max m.peak (m.depth + 1) } rfl
    rw [Ensures] at h'
    dsimp only
    cases hx : x { m with depth := m.depth + 1, peak := max m.peak (m.depth + 1) } with
    | ok a m' =>
      rw [hx] at h'
      exact h'
    | error e m' =>
      rw [hx] at h'
      cases e <;> exact h'

/-! ### The rules -/

section Rules

variable {ev : Evaluator} {a : Addr} {p : Term → Heap → Prop}

lemma Ensures.of_run {y : EvalM α} {m' : Machine} (hrun : x m = y m')
    (h : Ensures y m' ok failed) : Ensures x m ok failed := by
  rw [Ensures] at h ⊢
  rwa [hrun]

/-- A thunk that has a value keeps it.  Another one is evaluated, and then has what that ends with,
unless it has been forced on the way. -/
lemma Ensures.forceThunk {c : Thunk} (hc : m.heap.thunks[a]? = some c)
    (hmemo : ∀ v, c.memo = some v → p v m.heap)
    (heval : ∀ m', m'.heap = m.heap → Ensures (ev c.term c.env) m'
      (fun v m'' => p ((m''.heap.memo? a).getD v) (m''.heap.memoize a v)) failed) :
    Ensures (EvalM.forceThunk ev a) m (fun v m' => p v m'.heap) failed := by
  have hread := Heap.thunk_eq hc
  cases hv : c.memo with
  | some v =>
    rw [Ensures, forceThunk_of_memo? ((Heap.memo?_eq hc).trans hv)]
    exact hmemo v hv
  | none =>
    refine .of_run (forceThunk_of_unforced ev (by rw [hread, hv])) (.bind ?_)
    rw [hread]
    exact (heval _ (heap_trace m _)).mono (fun _ _ hv => .modifyGet hv) fun _ he => he

/-- An argument is passed as it is, or what a variable stands for is passed, or it is suspended. -/
lemma Ensures.suspend {t : Term} {env : Env} (hready : t.isReady = true → p t m.heap)
    (hvar : ∀ x u, t = .var x → env.lookup? x = some u → p u m.heap)
    (hnew : p (.thunk m.heap.thunks.size) (m.heap.pushThunk { term := t, env })) :
    Ensures (EvalM.suspend t env) m (fun u m' => p u m'.heap) failed := by
  rcases suspend_cases t env m with ⟨u, hu, ⟨rfl, ht⟩ | ⟨x, hx, hxu⟩⟩ | ⟨m', hu, hheap⟩ <;>
    rw [Ensures, hu]
  · exact hready ht
  · exact hvar x u hx hxu
  · show p _ m'.heap
    rwa [hheap]

lemma Ensures.call_closure (n : ℕ) {c : Closure} {arg : Term} (hc : m.heap.closures[a]? = some c)
    {ok : Term → Machine → Prop}
    (h : Ensures (ev c.body (c.env.extend c.param arg)) m ok failed) :
    Ensures (call ev n (.closure a) arg) m ok failed :=
  .of_run (call_closure_of_get ev n arg hc) h

lemma Ensures.applyBuiltin {b : Builtin} {args : List Term} (hb : m.heap.builtins[a]? = some b)
    (hmany : b.arity < (b.supplied ++ args).length →
      failed (.tooManyArguments b.name b.arity (b.supplied ++ args).length))
    (hfew : (b.supplied ++ args).length < b.arity → p (.builtin m.heap.builtins.size)
      (m.heap.pushBuiltin { b with supplied := b.supplied ++ args }))
    (hall : (b.supplied ++ args).length = b.arity → ∀ m', m'.heap = m.heap →
      Ensures (perform ev (b.op (b.supplied ++ args))) m' (fun v m'' => p v m''.heap) failed) :
    Ensures (EvalM.applyBuiltin ev a args) m (fun v m' => p v m'.heap) failed := by
  obtain rfl := Heap.builtin_eq hb
  rcases lt_trichotomy (m.heap.builtin a).arity ((m.heap.builtin a).supplied ++ args).length with
    hlt | heq | hgt
  · rw [Ensures, applyBuiltin_of_lt ev hlt]
    exact hmany hlt
  · exact .of_run (applyBuiltin_of_eq ev heq.symm) (hall heq.symm _ (heap_trace m _))
  · rw [Ensures, applyBuiltin_of_gt ev hgt]
    exact hfew hgt

end Rules

end Letrec.EvalM
