import Mathlib
import Letrec.Evaluation.Fuel
import Letrec.Proofs.ByName.World
import Letrec.Proofs.Evaluation.Rules

/-!
# Runs that end

A run ends if it ends within some bound.  There is one lemma for each way of putting runs together
and one for each rule; what a rule still asks for is the end of the evaluation inside.

The operations are taken together.  They force their arguments and read integers, so all that is
needed of the terms that an operation gets is `Forcible`: where evaluation by name forces the object
that a term denotes, the machine comes to an end with the term, and reads of it the integer that the
object is forced to.
-/

namespace Letrec.ByName

open EvalM

variable {α β : Type}

/-! ### Runs that end -/

/-- Within some bound the run ends. -/
def Finishes (x : ℕ → EvalM α) (m : Machine) : Prop := ∃ n, Finished OutOfFuel (x n m)

/-- A larger bound keeps finished runs. -/
def Refining (x : ℕ → EvalM α) : Prop := ∀ ⦃n k⦄, n ≤ k → Refines OutOfFuel (x n) (x k)

lemma finished_ok {a : α} {m : Machine} : Finished OutOfFuel (.ok a m) :=
  fun _ _ h => nomatch h

lemma finished_failed {e : EvalError} {m : Machine} :
    Finished (α := α) OutOfFuel (.error (.failed e) m) := by
  rintro _ _ heq ⟨⟩
  exact nomatch heq

lemma Finishes.of_ok {x : ℕ → EvalM α} {m m' : Machine} {a : α} {n : ℕ} (h : x n m = .ok a m') :
    Finishes x m := ⟨n, h ▸ finished_ok⟩

lemma Finishes.of_failed {x : ℕ → EvalM α} {m m' : Machine} {e : EvalError} {n : ℕ}
    (h : x n m = .error (.failed e) m') : Finishes x m := ⟨n, h ▸ finished_failed⟩

lemma Finishes.const {x : EvalM α} {m : Machine} (h : Finished OutOfFuel (x m)) :
    Finishes (fun _ => x) m := ⟨0, h⟩

lemma refining_const (x : EvalM α) : Refining fun _ => x := fun _ _ _ => .refl x

lemma Refining.bind {x : ℕ → EvalM α} {f : ℕ → α → EvalM β} (hx : Refining x)
    (hf : ∀ a, Refining (f · a)) : Refining fun n => x n >>= f n :=
  fun _ _ hnk => .bind (hx hnk) fun a => hf a hnk

lemma Finishes.bind {x : ℕ → EvalM α} {f : ℕ → α → EvalM β} {m : Machine} (hx : Refining x)
    (hf : ∀ a, Refining (f · a)) (h : Finishes x m)
    (hnext : ∀ n a m', x n m = .ok a m' → Finishes (f · a) m') :
    Finishes (fun n => x n >>= f n) m := by
  obtain ⟨n, hn⟩ := h
  cases hxn : x n m with
  | ok a m' =>
    obtain ⟨k, hk⟩ := hnext n a m' hxn
    refine ⟨max n k, ?_⟩
    have hx' : x (max n k) m = .ok a m' := (hx (le_max_left n k) m hn).trans hxn
    have hf' : f (max n k) a m' = f k a m' := hf a (le_max_right n k) m' hk
    simp only [Bind.bind, EStateM.bind, hx', hf']
    exact hk
  | error e m' =>
    refine ⟨n, ?_⟩
    rw [hxn] at hn
    simp only [Bind.bind, EStateM.bind, hxn]
    intro e' m'' heq
    obtain ⟨rfl, rfl⟩ := EStateM.Result.error.inj heq
    exact hn _ _ rfl

/-- A step that always ends well, before a run that finishes. -/
lemma Finishes.after {x : EvalM α} {f : ℕ → α → EvalM β} {m m' : Machine} {a : α}
    (hx : x m = .ok a m') (h : Finishes (f · a) m') : Finishes (fun n => x >>= f n) m := by
  obtain ⟨n, hn⟩ := h
  refine ⟨n, ?_⟩
  simp only [Bind.bind, EStateM.bind, hx]
  exact hn

lemma Finishes.nested {x : ℕ → EvalM α} {m : Machine}
    (h : Finishes x { m with depth := m.depth + 1, peak := max m.peak (m.depth + 1) }) :
    Finishes (fun n => EvalM.nested none (x n)) m := by
  obtain ⟨n, hn⟩ := h
  refine ⟨n, ?_⟩
  unfold EvalM.nested
  simp only [Option.filter_none]
  cases hx : x n { m with depth := m.depth + 1, peak := max m.peak (m.depth + 1) } with
  | ok a m' => exact finished_ok
  | error e m' =>
    intro e' m'' heq
    obtain ⟨rfl, -⟩ := EStateM.Result.error.inj heq
    exact hn _ _ hx

lemma Finishes.of_succ {x : ℕ → EvalM α} {m : Machine} (h : Finishes (fun n => x (n + 1)) m) :
    Finishes x m := by
  obtain ⟨n, hn⟩ := h
  exact ⟨n + 1, hn⟩

lemma evaluate_refining (t : Term) (env : Letrec.Env) :
    Refining fun n => Letrec.evaluate none n t env :=
  fun _ _ hnk => evaluate_more_fuel none hnk t env

lemma force_refining (t : Term) : Refining fun n => EvalM.force (Letrec.evaluate none n) t :=
  fun _ _ hnk => force_refines (fun t env => evaluate_refining t env hnk) t

lemma perform_refining (act : Action) :
    Refining fun n => perform (Letrec.evaluate none n) act :=
  fun _ _ hnk => perform_refines (fun t env => evaluate_refining t env hnk) act

lemma call_refining (f t : Term) : Refining fun n => call (Letrec.evaluate none n) n f t :=
  fun _ _ hnk => call_refines (fun t env => evaluate_refining t env hnk) hnk (fun _ => rfl) f t

/-! ### Rules -/

section Rules

variable {m : Machine} {a : Addr}

lemma Finishes.of_run {x y : ℕ → EvalM α} {m' : Machine} (hrun : ∀ n, x n m = y n m')
    (h : Finishes y m') : Finishes x m := by
  obtain ⟨n, hn⟩ := h
  exact ⟨n, (hrun n).symm ▸ hn⟩

/-- A thunk is forced to an end if its term is evaluated to an end. -/
lemma Finishes.forceThunk {c : Thunk} (hc : m.heap.thunks[a]? = some c)
    (h : ∀ m' : Machine, m'.heap = m.heap →
      Finishes (fun n => Letrec.evaluate none n c.term c.env) m') :
    Finishes (fun n => EvalM.forceThunk (Letrec.evaluate none n) a) m := by
  cases hmemo : m.heap.memo? a with
  | some v => exact .of_ok (n := 0) (forceThunk_of_memo? hmemo _)
  | none =>
    refine .of_run (fun n => forceThunk_of_unforced _ (by rw [Heap.memo_thunk, hmemo])) ?_
    rw [Heap.thunk_eq hc]
    exact .bind (evaluate_refining _ _) (fun v => refining_const _) (h _ (heap_trace m _))
      fun n v m' _ => .const finished_ok

lemma value_finishes {t : Term} {env : Letrec.Env} {m : Machine} (ht : t.isReady = true)
    (hthunk : ∀ a, t ≠ .thunk a) : Finishes (fun n => Letrec.evaluate none n t env) m := by
  refine .of_succ (.nested ⟨0, ?_⟩)
  cases t with
  | thunk a => exact absurd rfl (hthunk a)
  | int v => exact finished_ok
  | closure a => exact finished_ok
  | builtin a => exact finished_ok
  | var x => exact absurd ht (by simp [Term.isReady])
  | lam x b => exact absurd ht (by simp [Term.isReady])
  | app f a => exact absurd ht (by simp [Term.isReady])

/-- A variable is looked up and what it stands for is forced. -/
lemma Finishes.step_var {x : String} {u : Term} {env : Letrec.Env} (hx : env.lookup? x = some u)
    (hready : u.isReady = true) (h : Finishes (fun n => EvalM.force (Letrec.evaluate none n) u) m) :
    Finishes (fun n => EvalM.step (Letrec.evaluate none n) n (.var x) env) m := by
  unfold EvalM.step
  dsimp only
  rw [hx]
  cases u with
  | thunk a => exact h
  | int v => exact value_finishes rfl (by simp)
  | closure a => exact value_finishes rfl (by simp)
  | builtin a => exact value_finishes rfl (by simp)
  | var y => exact absurd hready (by simp [Term.isReady])
  | lam y b => exact absurd hready (by simp [Term.isReady])
  | app f a => exact absurd hready (by simp [Term.isReady])

lemma Finishes.call_closure {c : Closure} {t : Term} (hc : m.heap.closures[a]? = some c)
    (h : Finishes (fun n => Letrec.evaluate none n c.body (c.env.extend c.param t)) m) :
    Finishes (fun n => call (Letrec.evaluate none n) n (.closure a) t) m :=
  .of_run (fun n => call_closure_of_get _ n t hc) h

/-- An operation that has not exactly its arguments ends; with them it does if it performs. -/
lemma Finishes.applyBuiltin {b : Builtin} {args : List Term} (hb : m.heap.builtins[a]? = some b)
    (h : (b.supplied ++ args).length = b.arity → ∀ m' : Machine, m'.heap = m.heap →
      Finishes (fun n => perform (Letrec.evaluate none n) (b.op (b.supplied ++ args))) m') :
    Finishes (fun n => EvalM.applyBuiltin (Letrec.evaluate none n) a args) m := by
  obtain rfl := Heap.builtin_eq hb
  rcases lt_trichotomy (m.heap.builtin a).arity ((m.heap.builtin a).supplied ++ args).length with
    hlt | heq | hgt
  · exact .of_failed (n := 0) (applyBuiltin_of_lt _ hlt)
  · exact .of_run (fun n => applyBuiltin_of_eq _ heq.symm) (h heq.symm _ (heap_trace m _))
  · exact .of_ok (n := 0) (applyBuiltin_of_gt _ hgt)

lemma suspend_ok (t : Term) (env : Letrec.Env) (m : Machine) :
    ∃ u m', suspend t env m = .ok u m' := by
  rcases suspend_cases t env m with ⟨u, hu, -⟩ | ⟨m', hu, -⟩
  · exact ⟨u, m, hu⟩
  · exact ⟨_, m', hu⟩

end Rules

/-! ### Operations -/

/-- The machine forces a term to an end if evaluation by name forces the object that the term
denotes within the bound `k`, and if it then reads an integer, that is what the object is forced
to.  Which worlds describe which heaps is left open. -/
structure Forcible (k : ℕ) (D : World → Heap → Prop) : Prop where
  finishes : ∀ {W : World} {m : Machine} {t : Term} {o : Object} {r : Except EvalError Object},
    D W m.heap → W.Denotes t o → (force (evaluate k) o).Gives r →
    Finishes (fun n => EvalM.force (Letrec.evaluate none n) t) m
  reads : ∀ {W : World} {m m' : Machine} {t v : Term} {o : Object} {n : ℕ},
    D W m.heap → W.Denotes t o → EvalM.force (Letrec.evaluate none n) t m = .ok v m' →
    ∃ W', W.Grows W' ∧ D W' m'.heap ∧
      ∀ j, m'.heap.asInt? v = some j → Forces o (.ok (.int j))

namespace Forcible

variable {k : ℕ} {D : World → Heap → Prop} (hD : Forcible k D) {W : World} {m : Machine}
  (hW : D W m.heap)

include hD hW

lemma integer {t : Term} {o : Object} (ht : W.Denotes t o)
    {otherwise : String → EvalError} {next : Int64 → Action} {i : Except EvalError Int64}
    (hi : (forceInteger (force (evaluate k)) Object.int? id otherwise o).Gives i)
    (hnext : ∀ j W' m', i = .ok j → W.Grows W' → D W' m'.heap →
      Finishes (fun n => perform (Letrec.evaluate none n) (next j)) m') :
    Finishes (fun n => perform (Letrec.evaluate none n)
      (.force t fun v => .asInt v otherwise next)) m := by
  obtain ⟨r, hr⟩ := Partial.gives_of_bind hi
  refine .bind (force_refining t) (fun v => perform_refining _) (hD.finishes hW ht hr)
    fun n v m' hv => ?_
  obtain ⟨W', hgrows, hW', hreads⟩ := hD.reads hW ht hv
  have hread : readHeap (·.asInt? v) m' = .ok (m'.heap.asInt? v) m' := rfl
  simp only [perform]
  refine .after hread ?_
  cases hint : m'.heap.asInt? v with
  | none => exact .const finished_failed
  | some j =>
    refine hnext j W' m' ?_ hgrows hW'
    have hforces : ForcesInt otherwise o (.ok j) :=
      forcesInt_iff.2 (Or.inl ⟨.int j, hreads j hint, rfl⟩)
    exact Yields.unique (forceInteger_growing force_growing otherwise o) ⟨k, hi⟩ hforces

lemma operation (p : Primitive) {ts : List Term} {os : List Object}
    (h : List.Forall₂ W.Denotes ts os) {r : Except EvalError Object}
    (hr : (p.run (force (evaluate k)) Object.int? .int id os).Gives r) :
    Finishes (fun n => perform (Letrec.evaluate none n) (p.operation ts)) m := by
  unfold Primitive.run at hr
  split at hr
  · rename_i name f o o'
    rcases h with _ | ⟨ha, _ | ⟨hb, _ | _⟩⟩
    rcases Partial.bind_gives.1 hr with ⟨i, hi, hr⟩ | ⟨e, he, -⟩
    · refine hD.integer hW ha hi fun i' W₁ m₁ heq hgrows hW₁ => ?_
      obtain rfl := Except.ok.inj heq
      obtain ⟨j, hj⟩ := Partial.gives_of_bind hr
      refine hD.integer hW₁ (hb.mono hgrows) hj fun j' W₂ m₂ _ _ _ => ?_
      dsimp only
      cases f i j' with
      | ok v => exact .const finished_ok
      | error e => exact .const finished_failed
    · exact hD.integer hW ha he fun _ _ _ heq => absurd heq (by simp)
  · rename_i oc op on
    rcases h with _ | ⟨hc, _ | ⟨hp, _ | ⟨hn, _ | _⟩⟩⟩
    rcases Partial.bind_gives.1 hr with ⟨i, hi, hr⟩ | ⟨e, he, -⟩
    · refine hD.integer hW hc hi fun i' W₁ m₁ heq hgrows hW₁ => ?_
      obtain rfl := Except.ok.inj heq
      have hbranch := (hp.mono hgrows).ite (c := i ≠ 0) (hn.mono hgrows)
      exact .bind (force_refining _) (fun v => refining_const _)
        (hD.finishes hW₁ hbranch hr) fun n v m' _ => .const finished_ok
    · exact hD.integer hW hc he fun _ _ _ heq => absurd heq (by simp)
  · exact absurd hr Partial.never_gives

/-- A builtin operation of the heap ends where evaluation by name ends. -/
lemma applyBuiltin {a : Addr} {p : Primitive} {supplied : List Term} {args : List Object} {t : Term}
    {o : Object} (hb : m.heap.builtins[a]? = some (p.builtin supplied))
    (hargs : List.Forall₂ W.Denotes supplied args) (ht : W.Denotes t o)
    {r : Except EvalError Object} (hr : (apply (evaluate k) (.builtin p args) o).Gives r) :
    Finishes (fun n => EvalM.applyBuiltin (Letrec.evaluate none n) a [t]) m := by
  have hall : List.Forall₂ W.Denotes (supplied ++ [t]) (args ++ [o]) :=
    List.rel_append hargs (.cons ht .nil)
  refine .applyBuiltin hb fun heq m' hm' => hD.operation (hm'.symm ▸ hW) p hall (r := r) ?_
  replace heq : (args ++ [o]).length = p.arity := hall.length_eq.symm.trans heq
  rwa [apply, if_neg heq.not_gt, if_neg heq.not_lt] at hr

end Forcible

end Letrec.ByName
