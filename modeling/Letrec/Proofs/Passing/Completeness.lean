import Mathlib
import Letrec.Proofs.ByName.Finishing
import Letrec.Proofs.Passing.Simulation

/-!
# Where evaluation by name ends, the machine ends

The machine does no more than evaluation by name, also when an operation passes its argument on:
what is handed on unforced takes a smaller bound than what has handed it on (`Leads.gives`).  So a
function that is still a thunk is forced to its end after as many steps as the bound allows
(`call_finishes`), and the machine ends (`finishes_of_gives`).
-/

namespace Letrec.ByName.Passing

open EvalM

/-- Where evaluation by name ends within the bound `k`, the machine ends. -/
def Complete (k : ℕ) : Prop :=
  ∀ ⦃t : Term⦄ ⦃ρ : Env⦄ ⦃r⦄, (evaluate k t ρ).Gives r → ∀ ⦃W : World⦄ ⦃m : Machine⦄
    ⦃env : Letrec.Env⦄, Describes W m.heap → W.DenotesEnv env ρ → t.Lowered →
    Finishes (fun n => Letrec.evaluate none n t env) m

lemma Simulates.reached {W : World} {m m' : Machine} {run : EvalM Term} {x : ℕ → Answer}
    (h : Simulates W m run x) {v : Term} (hv : run m = .ok v m') : Reached W x v m'.heap :=
  (ensures_iff.1 h).1 v m' hv

lemma finishes_of_refines {α : Type} {x y : ℕ → EvalM α} {m : Machine} (h : Finishes x m)
    (hxy : ∀ n, Refines OutOfFuel (x n) (y n)) : Finishes y m := by
  obtain ⟨n, hn⟩ := h
  exact ⟨n, (hxy n m hn).symm ▸ hn⟩

lemma forceThunk_refining (a : Addr) :
    Refining fun n => forceThunk (Letrec.evaluate none n) a :=
  fun _ _ hnk => forceThunk_refines (fun t env => evaluate_refining t env hnk) a

section Complete

variable {k : ℕ} (hk : Complete k) {W : World} {m : Machine} (hW : Describes W m.heap)

include hk hW

/-! ### Forcing -/

lemma forceThunk_finishes {a : Addr} {o : Object} (ha : W (.thunk a) = some o)
    {r : Except EvalError Object} (hr : (force (evaluate k) o).Gives r) :
    Finishes (fun n => forceThunk (Letrec.evaluate none n) a) m := by
  obtain ⟨c, ρ, hc, rfl, ht, henv, -⟩ := hW.thunk ha
  exact .forceThunk hc fun m' hm' => hk hr (hm'.symm ▸ hW) henv ht

lemma force_finishes {t : Term} {o : Object} (ht : W.Denotes t o) {r : Except EvalError Object}
    (hr : (force (evaluate k) o).Gives r) :
    Finishes (fun n => EvalM.force (Letrec.evaluate none n) t) m := by
  obtain ⟨o', ho', -, hbelow⟩ := hW.denotes ht
  cases hW.object t o' ho' with
  | thunk => exact forceThunk_finishes hk hW ho' (hbelow k r hr)
  | int v => exact value_finishes rfl (by simp)
  | closure => exact value_finishes rfl (by simp)
  | builtin => exact value_finishes rfl (by simp)
  | raw => exact value_finishes rfl (by simp)

omit hW in
lemma forcible : Forcible k Describes where
  finishes hW ht hr := force_finishes hk hW ht hr
  reads {W m m' t v o n} hW ht hv := by
    obtain ⟨W', o', hgrows, hW', hv, hleads⟩ :=
      (force_simulates (evaluate_sound n) hW ht).reached hv
    refine ⟨W', hgrows, hW', fun j hj => ?_⟩
    rcases asIntUpTo_or hW' m'.heap.hops hv with ⟨i, hi, hforces⟩ | ⟨hnone, -⟩
    · obtain rfl := Option.some.inj (hj.symm.trans hi)
      exact hleads.yields _ hforces
    · exact absurd (hj.symm.trans hnone) (by simp)

/-! ### Calls -/

lemma call_value_finishes {f t : Term} {w o : Object} (hf : W f = some w) (hw : w.IsValue)
    (ht : W.Denotes t o) {r : Except EvalError Object} (hr : (apply (evaluate k) w o).Gives r) :
    Finishes (fun n => call (Letrec.evaluate none n) n f t) m := by
  cases hW.object f w hf with
  | int v => exact .of_failed (n := 0) (call_int _ 0 t v m)
  | closure hc hb henv => exact .call_closure hc (hk hr hW (henv.extend _ ht) hb)
  | builtin hb hargs =>
    simp only [call_builtin]
    exact (forcible hk).applyBuiltin hW hb hargs ht hr
  | raw hb =>
    simp only [call_builtin]
    exact .applyBuiltin hb fun _ m' _ => .const finished_ok
  | thunk => exact hw.elim

omit hW in
/-- The induction is on the bound that is left for forcing the function. -/
lemma call_finishes {j : ℕ} (hj : j ≤ k) {W : World} {m : Machine} (hW : Describes W m.heap)
    {f t : Term} {g o : Object} (hf : W f = some g) (ht : W.Denotes t o)
    {s : Except EvalError Object} (hs : (force (evaluate j) g).Gives s)
    (hr : ∀ w, s = .ok w → ∃ r, (apply (evaluate k) w o).Gives r) :
    Finishes (fun n => call (Letrec.evaluate none n) n f t) m := by
  induction j generalizing W m f g with
  | zero =>
    rcases hW.isValue_or hf with hval | ⟨a, u, ρ, rfl, rfl⟩
    · obtain ⟨r, hr⟩ := hr g ((forces_of_isValue hval).1 ⟨0, hs⟩)
      exact call_value_finishes hk hW hf hval ht hr
    · exact absurd hs Partial.never_gives
  | succ j ih =>
    rcases hW.isValue_or hf with hval | ⟨a, u, ρ, rfl, rfl⟩
    · obtain ⟨r, hr⟩ := hr g ((forces_of_isValue hval).1 ⟨j + 1, hs⟩)
      exact call_value_finishes hk hW hf hval ht hr
    · have hforce := forceThunk_finishes hk hW hf (force_growing _ hj s hs)
      have hcall := hforce.bind (f := fun n v => call (Letrec.evaluate none n) n v t)
        (forceThunk_refining a) (fun v => call_refining v t) fun n v m' hv => by
          obtain ⟨W', g', hgrows, hW', hv, hleads⟩ :=
            (forceThunk_simulates (evaluate_sound n) hW hf).reached hv
          exact ih (Nat.le_of_succ_le hj) hW' hv (ht.mono hgrows) (hleads.gives j s hs)
      -- forcing the thunk takes one of the thunks that the call may force
      refine .of_succ (finishes_of_refines hcall fun n => .bind ?_ fun v => ?_)
      · exact forceThunk_refining a (Nat.le_succ n)
      · exact call_refines (fun t env => evaluate_refining t env (Nat.le_succ n)) le_rfl
          (fun hne => absurd rfl hne) v t

end Complete

/-! ### Terms -/

lemma step_finishes {k : ℕ} (hk : Complete k) {t : Term} {ρ : Env} {r : Except EvalError Object}
    (hr : (step (evaluate k) t ρ).Gives r) {W : World} {m : Machine} {env : Letrec.Env}
    (hW : Describes W m.heap) (henv : W.DenotesEnv env ρ) (ht : t.Lowered) :
    Finishes (fun n => EvalM.step (Letrec.evaluate none n) n t env) m := by
  cases t with
  | int v => exact .const finished_ok
  | lam x b => exact .const finished_ok
  | var x =>
    unfold step at hr
    dsimp only at hr
    rcases henv.lookup x with ⟨hx, hρ⟩ | ⟨u, o, hx, hρ, hu⟩
    · exact .of_failed (n := 0) (step_var_of_none _ 0 hx m)
    · rw [hρ] at hr
      exact .step_var hx (hW.isReady hu) (force_finishes hk hW hu hr)
  | app f a =>
    have hf : ∃ s, (evaluate k f ρ).Gives s ∧
        ∀ w, s = .ok w → ∃ r, (apply (evaluate k) w (.pair a ρ)).Gives r := by
      rcases Partial.bind_gives.1 hr with ⟨w, hw, hr⟩ | ⟨e, he, -⟩
      · refine ⟨_, hw, fun w' hw' => ⟨r, ?_⟩⟩
        rwa [← Except.ok.inj hw']
      · exact ⟨_, he, fun w hw => absurd hw (by simp)⟩
    obtain ⟨s, hs, happly⟩ := hf
    refine .bind (evaluate_refining f env) (fun v => (refining_const _).bind fun u =>
      call_refining v u) (hk hs hW henv ht.1) fun n v m₁ hv => ?_
    obtain ⟨W₁, g, hgrows₁, hW₁, hv, hleads⟩ :=
      ((evaluate_sound n).lowered hW henv ht.1).reached hv
    obtain ⟨u, m₂, hsuspend⟩ := suspend_ok a env m₁
    obtain ⟨W₂, hgrows₂, hW₂, hu⟩ :=
      (ensures_iff.1 (suspend_simulates hW₁ (henv.mono hgrows₁) ht.2)).1 u m₂ hsuspend
    refine .after hsuspend ?_
    cases k with
    | zero => exact absurd hs Partial.never_gives
    | succ k =>
      exact call_finishes hk (Nat.le_succ k) hW₂ (hgrows₂ _ _ hv) hu (hleads.gives k s hs) happly
  | closure a => exact ht.elim
  | thunk a => exact ht.elim
  | builtin a => exact ht.elim

/-- Where evaluation by name ends, the machine ends. -/
theorem finishes_of_gives (k : ℕ) : Complete k := by
  induction k with
  | zero => exact fun t ρ r hr => absurd hr Partial.never_gives
  | succ k ih =>
    intro t ρ r hr W m env hW henv ht
    exact .of_succ (.nested (step_finishes ih hr hW henv ht))

end Letrec.ByName.Passing
