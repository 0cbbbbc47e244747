import Mathlib
import Letrec.Evaluation
import Letrec.Proofs.Lookup
import Letrec.Proofs.Lowering.Closed
import Letrec.Proofs.Evaluation.Ensures

/-!
# The invariant of evaluation

Every object that evaluation makes is complete: an environment binds names to integers and to
objects of the heap, and it binds every free variable of the term that it was captured for; a filled
memo cell holds a value; a builtin operation waits for at least one more argument.

Evaluation keeps this up, whatever the limit on its nesting (`evaluate_safe`).  So a variable is
never found unbound, no operation gets too many arguments, and a term that evaluates at all
evaluates to a value.  Builtin operations take part in this: an operation may force its arguments
and the values it got, and end with a value.
-/

namespace Letrec

/-! ### Operations that force their arguments and return values -/

/-- The errors of a program that is stuck on a name or on the number of arguments. -/
def EvalError.IsStuck : EvalError → Prop
  | .unboundVariable _ | .tooManyArguments .. => True
  | _ => False

/-- A term that evaluation may end with. -/
def Term.IsValue : Term → Prop
  | .int _ | .closure _ | .builtin _ => True
  | .var _ | .lam _ _ | .app _ _ | .thunk _ => False

/-- Given its arguments and the values it got so far, the operation forces some of them and ends
with an integer, with one of the values or with an error of its own. -/
inductive Action.OnlyForces (args : List Term) : List Term → Action → Prop
  | int {vs i} : OnlyForces args vs (.done (.int i))
  | value {vs v} : v ∈ vs → OnlyForces args vs (.done v)
  | fail {vs e} : ¬ e.IsStuck → OnlyForces args vs (.fail e)
  | force {vs t next} : t ∈ args ++ vs → (∀ v, v.IsValue → OnlyForces args (v :: vs) (next v)) →
      OnlyForces args vs (.force t next)
  | asInt {vs t otherwise next} : t ∈ args ++ vs → (∀ s, ¬ (otherwise s).IsStuck) →
      (∀ i, OnlyForces args vs (next i)) → OnlyForces args vs (.asInt t otherwise next)
  | record {vs label t next} : t ∈ args ++ vs → OnlyForces args vs next →
      OnlyForces args vs (.record label t next)

/-- With all its arguments, the operation only forces them and returns values.  What it would do
with another number of arguments is left open. -/
def Builtin.OnlyForces (b : Builtin) : Prop :=
  ∀ args : List Term, args.length = b.arity → (b.op args).OnlyForces args []

/-! ### Complete heaps -/

namespace Heap

/-- The environment binds the free variables of the term, and names stand for what the heap has. -/
structure Covers (h : Heap) (env : Env) (t : Term) : Prop where
  closed : t.ClosedIn {x | x ∈ env.names}
  bound : ∀ p ∈ env, h.Has p.2

/-- Every object is complete. -/
structure Complete (h : Heap) : Prop where
  closure : ∀ {a : Addr} {c}, h.closures[a]? = some c → h.Covers c.env (.lam c.param c.body)
  thunk : ∀ {a : Addr} {c}, h.thunks[a]? = some c →
    h.Covers c.env c.term ∧ ∀ v, c.memo = some v → h.Has v ∧ v.IsValue
  builtin : ∀ {a : Addr} {b}, h.builtins[a]? = some b →
    b.supplied.length < b.arity ∧ (∀ t ∈ b.supplied, h.Has t) ∧ b.OnlyForces

variable {h h' : Heap} {t : Term} {env : Env}

lemma Covers.mono (hh : h.Within h') (ht : h.Covers env t) : h'.Covers env t :=
  ⟨ht.closed, fun p hp => (ht.bound p hp).mono hh⟩

/-- What a free variable of a covered term stands for. -/
lemma Covers.lookup {x : String} (ht : h.Covers env (.var x)) :
    ∃ u, env.lookup? x = some u ∧ h.Has u := by
  have hx : x ∈ env.map Prod.fst := ht.closed.free x (by simp [Term.freeVars])
  obtain ⟨u, hu⟩ := lookup_isSome_of_mem hx
  exact ⟨u, hu, ht.bound _ (mem_of_lookup_eq_some hu)⟩

lemma Covers.fn {f a : Term} (ht : h.Covers env (.app f a)) : h.Covers env f :=
  ⟨⟨ht.closed.lowered.1, fun y hy => ht.closed.free y (List.mem_append_left _ hy)⟩, ht.bound⟩

lemma Covers.arg {f a : Term} (ht : h.Covers env (.app f a)) : h.Covers env a :=
  ⟨⟨ht.closed.lowered.2, fun y hy => ht.closed.free y (List.mem_append_right _ hy)⟩, ht.bound⟩

/-- The body of a function is covered once the parameter is bound. -/
lemma Covers.body {x : String} {b arg : Term} (ht : h.Covers env (.lam x b)) (harg : h.Has arg) :
    h.Covers (env.extend x arg) b := by
  refine ⟨⟨ht.closed.lowered, fun y hy => ?_⟩, ?_⟩
  · by_cases hyx : y = x
    · subst hyx
      exact List.mem_cons_self
    · have hfree : y ∈ (Term.lam x b).freeVars := List.mem_filter.2 ⟨hy, by simpa using hyx⟩
      exact List.mem_cons_of_mem _ (ht.closed.free y hfree)
  · exact List.forall_mem_cons.2 ⟨harg, ht.bound⟩

/-! ### Making objects -/

/-- A complete heap stays complete when it grows by complete objects. -/
lemma Complete.of_within (hc : h.Complete) (hh : h.Within h')
    (hclosure : ∀ {a : Addr} {c}, h'.closures[a]? = some c →
      h.closures[a]? = some c ∨ h'.Covers c.env (.lam c.param c.body))
    (hthunk : ∀ {a : Addr} {c}, h'.thunks[a]? = some c → h.thunks[a]? = some c ∨
      h'.Covers c.env c.term ∧ ∀ v, c.memo = some v → h'.Has v ∧ v.IsValue)
    (hbuiltin : ∀ {a : Addr} {b}, h'.builtins[a]? = some b → h.builtins[a]? = some b ∨
      b.supplied.length < b.arity ∧ (∀ t ∈ b.supplied, h'.Has t) ∧ b.OnlyForces) :
    h'.Complete where
  closure ha := (hclosure ha).elim (fun ha => (hc.closure ha).mono hh) id
  thunk ha := by
    rcases hthunk ha with ha | hnew
    · obtain ⟨hcovers, hmemo⟩ := hc.thunk ha
      exact ⟨hcovers.mono hh, fun v hv => ⟨(hmemo v hv).1.mono hh, (hmemo v hv).2⟩⟩
    · exact hnew
  builtin ha := by
    rcases hbuiltin ha with ha | hnew
    · obtain ⟨hlt, hsupplied, hop⟩ := hc.builtin ha
      exact ⟨hlt, fun t ht => (hsupplied t ht).mono hh, hop⟩
    · exact hnew

lemma Complete.pushClosure (hc : h.Complete) {c : Closure}
    (hnew : h.Covers c.env (.lam c.param c.body)) : (h.pushClosure c).Complete := by
  have hh := within_pushClosure h c
  refine hc.of_within hh (fun ha => ?_) Or.inl Or.inl
  rcases getElem?_push_eq_some ha with ha | ⟨-, rfl⟩
  · exact Or.inl ha
  · exact Or.inr (hnew.mono hh)

lemma Complete.pushThunk (hc : h.Complete) (hnew : h.Covers env t) :
    (h.pushThunk { term := t, env }).Complete := by
  have hh := within_pushThunk h { term := t, env }
  refine hc.of_within hh Or.inl (fun ha => ?_) Or.inl
  rcases getElem?_push_eq_some ha with ha | ⟨-, rfl⟩
  · exact Or.inl ha
  · exact Or.inr ⟨hnew.mono hh, fun v hv => absurd hv (by simp)⟩

lemma Complete.pushBuiltin (hc : h.Complete) {b : Builtin} (hlt : b.supplied.length < b.arity)
    (hsupplied : ∀ t ∈ b.supplied, h.Has t) (hop : b.OnlyForces) : (h.pushBuiltin b).Complete := by
  have hh := within_pushBuiltin h b
  refine hc.of_within hh Or.inl Or.inl fun ha => ?_
  rcases getElem?_push_eq_some ha with ha | ⟨-, rfl⟩
  · exact Or.inl ha
  · exact Or.inr ⟨hlt, fun t ht => (hsupplied t ht).mono hh, hop⟩

lemma Complete.memoize (hc : h.Complete) (a : Addr) {v : Term} (hv : h.Has v) (hval : v.IsValue) :
    (h.memoize a v).Complete := by
  have hh := within_memoize h a v
  refine hc.of_within hh Or.inl (fun {a' c'} ha => ?_) Or.inl
  obtain ⟨c, hc', hterm, henv, hnew⟩ := thunk_of_memoize ha
  obtain ⟨hcovers, hmemo⟩ := hc.thunk hc'
  rw [hterm, henv]
  refine Or.inr ⟨hcovers.mono hh, fun u hu => ?_⟩
  rcases hnew u hu with hu | ⟨-, rfl⟩
  · exact ⟨(hmemo u hu).1.mono hh, (hmemo u hu).2⟩
  · exact ⟨hv.mono hh, hval⟩

end Heap

/-! ### Evaluation -/

namespace EvalM

/-- A run keeps the heap complete and does not get stuck, and if it ends with a term, that is a
value of the heap. -/
def Safe (x : EvalM Term) (m : Machine) : Prop :=
  Ensures x m (fun v m' => m'.heap.Complete ∧ m.heap.Within m'.heap ∧ m'.heap.Has v ∧ v.IsValue)
    (fun e => ¬ e.IsStuck)

/-- An evaluator is safe on the terms that an environment covers and on what the heap has. -/
structure SafeEvaluator (ev : Evaluator) : Prop where
  covered : ∀ {m : Machine} {t : Term} {env : Env}, m.heap.Complete → m.heap.Covers env t →
    Safe (ev t env) m
  object : ∀ {m : Machine} {t : Term} {env : Env}, m.heap.Complete → m.heap.Has t →
    Safe (ev t env) m

/-- What is safe on a later machine is safe as a continuation. -/
lemma Safe.of_within {x : EvalM Term} {m m' : Machine} (hh : m.heap.Within m'.heap)
    (h : Safe x m') : Ensures x m' (fun v m'' => m''.heap.Complete ∧ m.heap.Within m''.heap ∧
      m''.heap.Has v ∧ v.IsValue) (fun e => ¬ e.IsStuck) :=
  h.mono (fun _ _ hv => ⟨hv.1, hh.trans hv.2.1, hv.2.2⟩) fun _ he => he

lemma suspend_safe {m : Machine} (hm : m.heap.Complete) {t : Term} {env : Env}
    (ht : m.heap.Covers env t) : Ensures (suspend t env) m
      (fun u m' => m'.heap.Complete ∧ m.heap.Within m'.heap ∧ m'.heap.Has u)
      (fun e => ¬ e.IsStuck) := by
  refine .suspend (p := fun u h => h.Complete ∧ m.heap.Within h ∧ h.Has u) (fun hready => ?_)
    (fun x u hx hu => ?_) ⟨hm.pushThunk ht, m.heap.within_pushThunk _, ?_⟩
  · obtain ⟨v, rfl⟩ := ht.closed.lowered.eq_int hready
    exact ⟨hm, .refl _, trivial⟩
  · subst hx
    obtain ⟨u', hu', hhas⟩ := ht.lookup
    obtain rfl := Option.some.inj (hu.symm.trans hu')
    exact ⟨hm, .refl _, hhas⟩
  · simp [Heap.Has, Heap.pushThunk]

section Rules

variable {ev : Evaluator} (hev : SafeEvaluator ev) {m : Machine} (hm : m.heap.Complete)

include hev hm

lemma forceThunk_safe {a : Addr} (ha : a < m.heap.thunks.size) : Safe (forceThunk ev a) m := by
  have hc := Heap.getElem?_thunks ha
  obtain ⟨hcovers, hmemo⟩ := hm.thunk hc
  refine Ensures.forceThunk (p := fun v h => h.Complete ∧ m.heap.Within h ∧ h.Has v ∧ v.IsValue) hc
    (fun v hv => ⟨hm, .refl _, hmemo v hv⟩) fun m' hm' => ?_
  refine (hev.covered (hm'.symm ▸ hm) (hm'.symm ▸ hcovers)).mono (fun v m₁ hv => ?_) fun _ he => he
  obtain ⟨hm₁, hwithin, hhas, hval⟩ := hv
  rw [hm'] at hwithin
  have hmemoize := m₁.heap.within_memoize a v
  refine ⟨hm₁.memoize a hhas hval, hwithin.trans hmemoize, ?_⟩
  -- the thunk may have been forced on the way; then it keeps the value it got there
  cases hu : m₁.heap.memo? a with
  | none => exact ⟨hhas.mono hmemoize, hval⟩
  | some u =>
    obtain ⟨c₁, hc₁, hmemo₁⟩ := Option.bind_eq_some_iff.1 hu
    have hu' := (hm₁.thunk hc₁).2 u hmemo₁
    exact ⟨hu'.1.mono hmemoize, hu'.2⟩

lemma force_safe {t : Term} (ht : m.heap.Has t) : Safe (force ev t) m := by
  cases t with
  | thunk a => exact forceThunk_safe hev hm ht
  | _ => exact hev.object hm ht

lemma perform_safe {args vs : List Term} {act : Action} (hact : act.OnlyForces args vs)
    (hargs : ∀ t ∈ args ++ vs, m.heap.Has t) (hvs : ∀ v ∈ vs, v.IsValue) :
    Safe (perform ev act) m := by
  induction hact generalizing m with
  | int => exact .pure ⟨hm, .refl _, trivial, trivial⟩
  | value hv => exact .pure ⟨hm, .refl _, hargs _ (List.mem_append_right _ hv), hvs _ hv⟩
  | fail he => exact .fail he
  | @force vs t next ht _ ih =>
    refine .bind ((force_safe hev hm (hargs t ht)).mono (fun v m' hv => ?_) fun _ he => he)
    obtain ⟨hm', hwithin, hhas, hval⟩ := hv
    refine (ih v hval hm' (fun u hu => ?_) ?_).of_within hwithin
    · rcases List.mem_append.1 hu with hu | hu
      · exact (hargs u (List.mem_append_left _ hu)).mono hwithin
      · rcases List.mem_cons.1 hu with rfl | hu
        · exact hhas
        · exact (hargs u (List.mem_append_right _ hu)).mono hwithin
    · exact List.forall_mem_cons.2 ⟨hval, hvs⟩
  | @asInt vs t otherwise next ht hother _ ih =>
    rw [perform]
    refine .bind (.readHeap ?_)
    cases m.heap.asInt? t with
    | some i => exact ih i hm hargs hvs
    | none => exact .bind (.readHeap (.fail (hother _)))
  | record ht _ ih => exact .bind (.modify (ih hm hargs hvs))

lemma applyBuiltin_safe {a : Addr} (ha : a < m.heap.builtins.size) {arg : Term}
    (harg : m.heap.Has arg) : Safe (applyBuiltin ev a [arg]) m := by
  have hb := Heap.getElem?_builtins ha
  obtain ⟨hlt, hsupplied, hop⟩ := hm.builtin hb
  have hall : ∀ t ∈ (m.heap.builtin a).supplied ++ [arg], m.heap.Has t :=
    List.forall_mem_append.2 ⟨hsupplied, List.forall_mem_singleton.2 harg⟩
  refine Ensures.applyBuiltin (p := fun v h => h.Complete ∧ m.heap.Within h ∧ h.Has v ∧ v.IsValue)
    hb (fun hmany => ?_) (fun hfew => ?_) fun hexact m' hm' => ?_
  · -- the operation was waiting for an argument
    rw [List.length_append, List.length_singleton] at hmany
    omega
  · refine ⟨hm.pushBuiltin hfew hall hop, m.heap.within_pushBuiltin _, ?_, trivial⟩
    simp [Heap.Has, Heap.pushBuiltin]
  · refine Safe.of_within (hm' ▸ .refl _) ?_
    exact perform_safe hev (hm'.symm ▸ hm) (hop _ hexact)
      (by rwa [List.append_nil, hm']) (by simp)

lemma call_safe (n : ℕ) {f arg : Term} (hf : m.heap.Has f) (hval : f.IsValue)
    (harg : m.heap.Has arg) : Safe (call ev n f arg) m := by
  cases f with
  | int v => cases n <;> exact .bind (.readHeap (.fail id))
  | builtin a =>
    rw [call_builtin]
    exact applyBuiltin_safe hev hm hf harg
  | closure a =>
    have hc := Heap.getElem?_closures hf
    exact Ensures.call_closure n hc (hev.covered hm ((hm.closure hc).body harg))
  | thunk a => exact hval.elim
  | var x => exact hval.elim
  | lam x b => exact hval.elim
  | app g a => exact hval.elim

end Rules

lemma step_safe {ev : Evaluator} (hev : SafeEvaluator ev) (n : ℕ) :
    SafeEvaluator fun t env => step ev n t env where
  object := by
    intro m t env hm ht
    cases t with
    | thunk a => exact forceThunk_safe hev hm ht
    | int v => exact .pure ⟨hm, .refl _, ht, trivial⟩
    | closure a => exact .pure ⟨hm, .refl _, ht, trivial⟩
    | builtin a => exact .pure ⟨hm, .refl _, ht, trivial⟩
    | var x => exact ht.elim
    | lam x b => exact ht.elim
    | app f a => exact ht.elim
  covered := by
    intro m t env hm ht
    cases t with
    | int v => exact .pure ⟨hm, .refl _, trivial, trivial⟩
    | lam x b =>
      refine .modifyGet ⟨hm.pushClosure ht, m.heap.within_pushClosure _, ?_, trivial⟩
      simp [Machine.newClosure, Heap.Has, Heap.pushClosure]
    | var x =>
      obtain ⟨u, hu, hhas⟩ := ht.lookup
      unfold EvalM.step
      dsimp only
      rw [hu]
      cases u with
      | thunk a => exact forceThunk_safe hev hm hhas
      | _ => exact hev.object hm hhas
    | app f a =>
      refine .bind ((hev.covered hm ht.fn).mono (fun v m₁ hv => ?_) fun _ he => he)
      obtain ⟨hm₁, hwithin₁, hhas, hval⟩ := hv
      refine .bind ((suspend_safe hm₁ (ht.arg.mono hwithin₁)).mono (fun u m₂ hu => ?_)
        fun _ he => he)
      obtain ⟨hm₂, hwithin₂, hu⟩ := hu
      exact (call_safe hev hm₂ n (hhas.mono hwithin₂) hval hu).of_within (hwithin₁.trans hwithin₂)
    | closure a => exact ht.closed.lowered.elim
    | thunk a => exact ht.closed.lowered.elim
    | builtin a => exact ht.closed.lowered.elim

end EvalM

/-- Evaluation is safe, with every limit on its nesting and within every bound. -/
theorem evaluate_safe (limit : Option ℕ) (n : ℕ) : EvalM.SafeEvaluator (evaluate limit n) := by
  induction n with
  | zero => exact ⟨fun _ _ => .outOfFuel, fun _ _ => .outOfFuel⟩
  | succ n ih =>
    have hstep := EvalM.step_safe ih n
    have hnested : ∀ {x : EvalM Term} {m : Machine},
        (∀ m', m'.heap = m.heap → EvalM.Safe x m') → EvalM.Safe (EvalM.nested limit x) m := by
      intro x m hx
      refine EvalM.Ensures.nested (p := fun v h => h.Complete ∧ m.heap.Within h ∧ h.Has v ∧
        v.IsValue) (fun _ _ => id) fun m' hm' => ?_
      rw [← hm']
      exact hx m' hm'
    constructor
    · intro m t env hm ht
      exact hnested fun m' hm' => hstep.covered (hm'.symm ▸ hm) (hm'.symm ▸ ht)
    · intro m t env hm ht
      exact hnested fun m' hm' => hstep.object (hm'.symm ▸ hm) (hm'.symm ▸ ht)

end Letrec
