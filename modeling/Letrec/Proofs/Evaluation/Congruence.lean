import Mathlib
import Letrec.Evaluation

/-!
# Relations that every rule of evaluation keeps

The rules use the machine in a few ways only: they read the heap, make an object, store the value of
a thunk, report and record.  A relation between computations that relates each of these to itself
and that goes through `bind` is a congruence; it carries over from one evaluator to another through
every rule, and from `nested` to `evaluate` (`Congruence.evaluate`).  A property of computations is
the case where the second computation does not matter.
-/

namespace Letrec.EvalM

/-- A relation between computations that all uses of the machine keep. -/
structure Congruence (R : ∀ {α : Type}, EvalM α → EvalM α → Prop) : Prop where
  pure : ∀ {α : Type} (a : α), R (pure a) (pure a)
  throw : ∀ {α : Type} (e : Halt), R (throw e : EvalM α) (throw e)
  readHeap : ∀ {α : Type} (f : Heap → α), R (EvalM.readHeap f) (EvalM.readHeap f)
  trace : ∀ e : Heap → Event, R (modify (·.trace e)) (modify (·.trace e))
  record : ∀ (label : String) (t : Term),
    R (modify (·.record label t)) (modify (·.record label t))
  newClosure : ∀ c : Closure, R (modifyGet (·.newClosure c)) (modifyGet (·.newClosure c))
  newBuiltin : ∀ b : Builtin, R (modifyGet (·.newBuiltin b)) (modifyGet (·.newBuiltin b))
  newThunk : ∀ (t : Term) (env : Env),
    R (modifyGet (·.newThunk t env)) (modifyGet (·.newThunk t env))
  memoize : ∀ (a : Addr) (v : Term), R (modifyGet (·.memoize a v)) (modifyGet (·.memoize a v))
  bind : ∀ {α β : Type} {x x' : EvalM α} {f f' : α → EvalM β}, R x x' →
    (∀ a, R (f a) (f' a)) → R (x >>= f) (x' >>= f')

namespace Congruence

variable {R : ∀ {α : Type}, EvalM α → EvalM α → Prop} (hR : Congruence R)

include hR

lemma fail {α : Type} (e : EvalError) : R (EvalM.fail e : EvalM α) (EvalM.fail e) := hR.throw _

lemma suspend (t : Term) (env : Env) : R (EvalM.suspend t env) (EvalM.suspend t env) := by
  unfold EvalM.suspend
  split_ifs
  · exact hR.pure t
  · split
    · split
      · split_ifs
        · exact hR.pure _
        · exact hR.newThunk _ _
      · exact hR.newThunk _ _
    · exact hR.newThunk _ _

variable {ev ev' : Evaluator} (hev : ∀ t env, R (ev t env) (ev' t env))

include hev

lemma forceThunk (a : Addr) : R (EvalM.forceThunk ev a) (EvalM.forceThunk ev' a) := by
  unfold EvalM.forceThunk
  refine hR.bind (hR.readHeap _) fun c => ?_
  cases c.memo with
  | some v => exact hR.pure v
  | none =>
    refine hR.bind (hR.trace _) fun _ => ?_
    exact hR.bind (hev _ _) fun v => hR.memoize a v

lemma force (t : Term) : R (EvalM.force ev t) (EvalM.force ev' t) := by
  cases t with
  | thunk a => exact hR.forceThunk hev a
  | _ => exact hev _ _

lemma perform (act : Action) : R (EvalM.perform ev act) (EvalM.perform ev' act) := by
  induction act with
  | done t => exact hR.pure t
  | fail e => exact hR.fail e
  | missingOperand => exact hR.throw _
  | force t next ih => exact hR.bind (hR.force hev t) ih
  | asInt t otherwise next ih =>
    rw [EvalM.perform, EvalM.perform]
    refine hR.bind (hR.readHeap _) fun i => ?_
    cases i with
    | none => exact hR.bind (hR.readHeap _) fun _ => hR.fail _
    | some i => exact ih i
  | record label t next ih => exact hR.bind (hR.record label t) fun _ => ih

lemma forceInt (name : String) (t : Term) :
    R (EvalM.forceInt ev name t) (EvalM.forceInt ev' name t) := by
  unfold EvalM.forceInt
  refine hR.bind (hR.force hev t) fun v => hR.bind (hR.readHeap _) fun i => ?_
  cases i with
  | none => exact hR.bind (hR.readHeap _) fun _ => hR.fail _
  | some i => exact hR.pure i

lemma applyBuiltin (a : Addr) (args : List Term) :
    R (EvalM.applyBuiltin ev a args) (EvalM.applyBuiltin ev' a args) := by
  unfold EvalM.applyBuiltin
  refine hR.bind (hR.readHeap _) fun b => ?_
  dsimp only
  split_ifs
  · exact hR.fail _
  · exact hR.newBuiltin _
  · exact hR.bind (hR.trace _) fun _ => hR.perform hev _

lemma call (n : ℕ) (f arg : Term) : R (EvalM.call ev n f arg) (EvalM.call ev' n f arg) := by
  induction n generalizing f with
  | zero =>
    cases f with
    | thunk a => exact hR.throw _
    | closure a => exact hR.bind (hR.readHeap _) fun _ => hev _ _
    | builtin a => exact hR.applyBuiltin hev _ _
    | _ => exact hR.bind (hR.readHeap _) fun _ => hR.fail _
  | succ n ih =>
    cases f with
    | thunk a => exact hR.bind (hR.forceThunk hev a) ih
    | closure a => exact hR.bind (hR.readHeap _) fun _ => hev _ _
    | builtin a => exact hR.applyBuiltin hev _ _
    | _ => exact hR.bind (hR.readHeap _) fun _ => hR.fail _

lemma applyForced (n : ℕ) (f : Term) (args : List Term) :
    R (EvalM.applyForced ev n f args) (EvalM.applyForced ev' n f args) := by
  induction args generalizing f with
  | nil => exact hR.pure f
  | cons arg args ih =>
    cases f with
    | builtin a => exact hR.applyBuiltin hev a _
    | _ => exact hR.bind (hR.call hev n _ arg) ih

lemma apply (n : ℕ) (f : Term) (args : List Term) :
    R (EvalM.apply ev n f args) (EvalM.apply ev' n f args) :=
  hR.bind (hR.force hev f) fun f => hR.applyForced hev n f args

lemma step (n : ℕ) (t : Term) (env : Env) :
    R (EvalM.step ev n t env) (EvalM.step ev' n t env) := by
  cases t with
  | app f a =>
    exact hR.bind (hev _ _) fun _ => hR.bind (hR.suspend a env) fun _ => hR.call hev n _ _
  | thunk a => exact hR.forceThunk hev a
  | lam x b => exact hR.newClosure _
  | var x =>
    unfold EvalM.step
    dsimp only
    cases env.lookup? x with
    | none => exact hR.fail _
    | some b =>
      cases b with
      | thunk a => exact hR.forceThunk hev a
      | _ => exact hev _ _
  | _ => exact hR.pure _

omit hev in
/-- What `nested` keeps, `evaluate` has. -/
theorem evaluate (limit limit' : Option ℕ)
    (hnested : ∀ {x x' : EvalM Term}, R x x' →
      R (EvalM.nested limit x) (EvalM.nested limit' x')) (n : ℕ) (t : Term) (env : Env) :
    R (Letrec.evaluate limit n t env) (Letrec.evaluate limit' n t env) := by
  induction n generalizing t env with
  | zero => exact hR.throw _
  | succ n ih => exact hnested (hR.step ih n t env)

end Congruence

end Letrec.EvalM
