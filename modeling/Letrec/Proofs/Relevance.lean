import Mathlib
import Letrec.Proofs.Evaluation.Threshold
import Letrec.Proofs.Links.Closed

/-!
# Only free variables matter

What a term evaluates to depends on nothing but what its free variables stand for
(`freeVars_determine`).  Environments that differ elsewhere are captured by functions and suspended
computations, and never looked at.  So a function whose parameter is not free in its body does the
same with every argument, one that fails or never ends included.
-/

namespace Letrec

open EvalM (Finished OutOfFuel)

variable {m : Machine} {limit : Option ℕ}

namespace EvalM

/-- Suspending an argument at most adds a thunk. -/
lemma suspend_keeps (t : Term) (env : Env) (m : Machine) : ∃ u m₁, suspend t env m = .ok u m₁ ∧
    ByName.World.Keeps m.heap m₁.heap ∧ m₁.depth = m.depth ∧
      m₁.heap.closures = m.heap.closures := by
  have hdepth := ((Balanced.congruence none).suspend t env m).1
  rcases suspend_cases t env m with ⟨u, hu, -⟩ | ⟨m₁, hu, hheap⟩
  · exact ⟨u, m, hu, Heap.keeps_refl _, rfl, rfl⟩
  · rw [hu] at hdepth
    refine ⟨_, m₁, hu, ?_, hdepth, ?_⟩
    · rw [hheap]
      exact ByName.World.keeps_pushThunk _ _
    · rw [hheap, Heap.pushThunk]

/-- The value of a function is a closure, which is new. -/
lemma evaluate_lam {n : ℕ} {x : String} {b v : Term} {env : Env} {m₁ : Machine}
    (h : evaluate limit n (.lam x b) env m = .ok v m₁) :
    v = .closure m.heap.closures.size ∧
      m₁.heap = m.heap.pushClosure { param := x, body := b, env } := by
  cases n with
  | zero => cases h
  | succ n =>
    change nested limit (step (evaluate limit n) n (.lam x b) env) m = .ok v m₁ at h
    cases hl : limit.filter (· ≤ m.depth) with
    | some l =>
      rw [nested_of_limit hl] at h
      cases h
    | none =>
      rw [nested_eq_leaving hl] at h
      obtain ⟨rfl, rfl⟩ := EStateM.Result.ok.inj h
      exact ⟨rfl, rfl⟩

end EvalM

namespace Comparison

open EvalM

/-- A function that does not use its argument does the same with any two. -/
lemma unused_matched {x : String} {b : Term} {env : Env} (hm : m.heap.Closed)
    (hb : m.heap.Holds b) (hx : x ∉ b.freeVars)
    (henv : ∀ y ∈ b.freeVars, ∀ u, env.lookup? y = some u → m.heap.Has u) (a a' : Term) (n : ℕ) :
    (plain limit False m.heap.selfLinks).Matched m.heap.selfLinks
      (evaluate limit n (.app (.lam x b) a) env m)
      fun j => evaluate limit j (.app (.lam x b) a') env m := by
  have hlam : m.heap.selfLinks.JoinsCode (.lam x b) env (.lam x b) env := by
    have hholds : m.heap.Holds (.lam x b) := hb
    exact hholds.joinsCode (fun _ _ => rfl) fun y hy u hu =>
      henv y (List.mem_filter.1 hy).1 u hu
  cases n with
  | zero => exact .outOfFuel
  | succ n =>
    refine .succ (.nested (joinsMachine_self hm rfl trivial) fun m₀ m₀' hm₀ => ?_)
    refine .bind_of (y := fun j => evaluate limit j (.lam x b) env)
      (z := fun j f => suspend a' env >>= call (evaluate limit j) j f)
      ((plain_follows limit False m.heap.selfLinks n).code hlam hm₀)
      fun L v v' m₁ m₁' hL hv hm₁ hrun hrun' => ?_
    obtain ⟨rfl, hheap⟩ := evaluate_lam hrun
    obtain ⟨k, hrun'⟩ := hrun'
    obtain ⟨rfl, hheap'⟩ := evaluate_lam hrun'
    obtain ⟨u, m₂, hu, hkeeps, hdepth, hclosures⟩ := suspend_keeps a env m₁
    obtain ⟨u', m₂', hu', hkeeps', hdepth', hclosures'⟩ := suspend_keeps a' env m₁'
    simp only [bind_of_ok hu, bind_of_ok hu']
    -- what was suspended has no link
    have hm₂ : (plain limit False m.heap.selfLinks).JoinsMachine L m₂ m₂' :=
      ⟨hm₁.heap.extend hkeeps hkeeps', fun hl => by rw [hdepth, hdepth', hm₁.depth hl],
        fun hexact => hexact.elim⟩
    have hget : m₂.heap.closures[m₀.heap.closures.size]? = some { param := x, body := b, env } := by
      simp [hclosures, hheap, Heap.pushClosure]
    have hget' : m₂'.heap.closures[m₀'.heap.closures.size]?
        = some { param := x, body := b, env } := by
      simp [hclosures', hheap', Heap.pushClosure]
    simp only [call_closure_of_get _ _ _ hget, call_closure_of_get _ _ _ hget']
    exact (plain_follows limit False m.heap.selfLinks n).code
      (((hb.joinsCode (fun _ _ => rfl) henv).mono hL).extend_unused hx u u') hm₂

end Comparison

open Comparison

/-- From a closed heap, and under any limit, a term has the same answer in any two environments that
bind its free variables to the same; and a function whose parameter is not free in its body has the
same outcome for every argument. -/
theorem freeVars_determine (hm : m.heap.Closed) (limit : Option ℕ) :
    (∀ (t : Term) (env env' : Env), m.heap.Holds t →
      (∀ x ∈ t.freeVars, env.lookup? x = env'.lookup? x) →
      (∀ x ∈ t.freeVars, ∀ u, env.lookup? x = some u → m.heap.Has u) →
      EndAlike SameAnswer (fun n => evaluate limit n t env m) fun n => evaluate limit n t env' m) ∧
    ∀ (x : String) (b : Term) (env : Env), m.heap.Holds b → x ∉ b.freeVars →
      (∀ y ∈ b.freeVars, ∀ u, env.lookup? y = some u → m.heap.Has u) →
      ∀ a a' : Term, EndAlike ReadAlike (fun n => evaluate limit n (.app (.lam x b) a) env m)
        fun n => evaluate limit n (.app (.lam x b) a') env m := by
  refine ⟨fun t env env' ht hsame hhas => ?_, fun x b env hb hx henv a a' => ⟨?_, ?_⟩⟩
  · have hself := joinsMachine_self (S := plain limit True m.heap.selfLinks) hm rfl trivial
    have hfollows := plain_follows limit True m.heap.selfLinks
    refine ⟨fun n hn => ?_, fun n hn => ?_⟩
    · exact ((hfollows n).code (ht.joinsCode hsame hhas) hself).exists_sameAnswer hn trivial
    · obtain ⟨k, hk⟩ := ((hfollows n).code (ht.joinsCode (fun x hx => (hsame x hx).symm)
        fun x hx u hu => hhas x hx u ((hsame x hx).trans hu)) hself).exists_sameAnswer hn trivial
      exact ⟨k, hk.symm⟩
  · exact fun n hn => (unused_matched hm hb hx henv a a' n).exists_readAlike hn
  · intro n hn
    obtain ⟨k, hk⟩ := (unused_matched hm hb hx henv a' a n).exists_readAlike hn
    exact ⟨k, hk.symm⟩

/-- A call that never ends. -/
def endlessCall : Term :=
  .app (.lam "w" (.app (.var "w") (.var "w"))) (.lam "w" (.app (.var "w") (.var "w")))

theorem freeVars_determine_endlessCall :
    let m := Machine.ofBuiltins .standard false
    let env : Env := [("y", .builtin 0), ("z", .int 2)]
    let env' : Env := [("w", .int 3), ("y", .builtin 0)]
    EndAlike SameAnswer (fun n => evaluate (some 9) n (.lam "z" (.app (.var "y") (.var "z"))) env m)
      (fun n => evaluate (some 9) n (.lam "z" (.app (.var "y") (.var "z"))) env' m) ∧
    value? (evaluate (some 9) 9 (.app (.lam "x" (.var "z")) endlessCall) env m) = some (.int 2) ∧
    EndAlike ReadAlike
      (fun n => evaluate (some 9) n (.app (.lam "x" (.var "z")) endlessCall) env m)
      fun n => evaluate (some 9) n (.app (.lam "x" (.var "z")) (.int 0)) env m := by
  intro m env env'
  obtain ⟨hsame, hunused⟩ := freeVars_determine (m := m) Builtins.closed_standard (some 9)
  refine ⟨hsame _ env env' (Heap.holds_of_lowered (by simp [Term.Lowered])) (by decide) ?_,
    by decide +kernel, hunused "x" (.var "z") env (Heap.holds_of_lowered trivial) (by decide) ?_
      endlessCall (.int 0)⟩
  · intro x hx u hu
    have hentries : 0 < m.heap.builtins.size := by
      simp [m, Machine.ofBuiltins, Builtins.heap, Builtins.standard_entries, Primitive.standard]
    have hx : x = "y" := by simpa [Term.freeVars] using hx
    subst hx
    obtain rfl := Option.some.inj hu
    exact hentries
  · intro x hx u hu
    have hx : x = "z" := by simpa [Term.freeVars] using hx
    subst hx
    obtain rfl := Option.some.inj hu
    trivial

end Letrec
