import Mathlib
import Letrec.Proofs.Unfolding

/-!
# The equation of a fixed point

A term `fix z b` means what its body `b` means where `z` stands for `fix z b` (`fix_unfolds`).  The
comparison that takes all thunks for a fixed point to be the same carries the equation through
everything that evaluation does with them.
-/

namespace Letrec

open EvalM Comparison

variable {D : Set Term} {m : Machine}

/-- A new thunk in which the whole fixed point is suspended. -/
lemma renews_newThunk (hD : D ⊆ m.heap.contents) (z : String) (body : Term)
    (env : Env) : ∃ a, (m.newThunk (.fix z body) env).1 = .thunk a ∧
      m.heap.Renews D (m.newThunk (.fix z body) env).2.heap z body env a := by
  refine ⟨m.heap.thunks.size, by rw [Machine.newThunk, heap_trace], m.heap,
    { term := .fix z body, env }, Heap.spares_of_keeps hD (Heap.keeps_refl _), ?_, rfl, rfl,
    .whole rfl rfl⟩
  rw [Machine.newThunk, heap_trace]

/-- From a closed heap and without a limit, a fixed point ends as its body does where the name
stands for a thunk of the fixed point.  The name may be any. -/
theorem fix_unfolds (hm : m.heap.Closed) {env : Env} (henv : ∀ p ∈ env, m.heap.Has p.2)
    (z : String) {body : Term} (hbody : m.heap.Holds body) :
    EndAlike ReadAlike (fun n => evaluate none n (.fix z body) env m) fun n =>
      evaluate none n body (env.extend z (m.newThunk (.fix z body) env).1)
        (m.newThunk (.fix z body) env).2 := by
  have hself : (unfolding m.heap.selfLinks [] []).JoinsMachine m.heap.selfLinks m m :=
    joinsMachine_self hm rfl ⟨by simp, by simp⟩
  have hcode : m.heap.selfLinks.JoinsCode (.lam z body) env (.lam z body) env := by
    have hholds : m.heap.Holds (.lam z body) := hbody
    exact hholds.joinsCode (fun _ _ => rfl) fun x _ u hu => Heap.has_of_lookup? henv hu
  have hfollows := unfolding_follows m.heap.selfLinks [] []
  have hwhole : ∀ D : Set Term, SelfThunk D m.heap z body env { term := .fix z body, env } :=
    fun D => .whole rfl rfl
  refine ⟨fun n hn => ?_, fun n hn => ?_⟩
  · obtain ⟨m₁, a, hrenews, hbecomes⟩ :=
      (hwhole m.heap.selfLinks.left).unfolds hself.heap.left_subset
    obtain ⟨a', ha', hrenews'⟩ := renews_newThunk hself.heap.right_subset z body env
    obtain ⟨L, hL, hm₁, hjoins⟩ := renew_joins hself hcode hrenews hrenews'
    rw [ha']
    exact (Matched.becomes_left hbecomes (fun k _ => (hfollows k).code hjoins hm₁)
        List.nodup_nil (List.disjoint_nil_left _))
      |>.exists_readAlike hn
  · obtain ⟨m₁, a, hrenews, hbecomes⟩ :=
      (hwhole m.heap.selfLinks.right).unfolds hself.heap.right_subset
    obtain ⟨a', ha', hrenews'⟩ := renews_newThunk hself.heap.left_subset z body env
    obtain ⟨L, hL, hm₁, hjoins⟩ := renew_joins hself hcode hrenews' hrenews
    simp only [ha'] at hn ⊢
    obtain ⟨k, hk⟩ := (Matched.becomes_right hbecomes ((hfollows n).code hjoins hm₁)
        List.nodup_nil (List.disjoint_nil_left _))
      |>.exists_readAlike hn
    exact ⟨k, hk.symm⟩

/-- A countdown from three.  The name of the function is one that the combinator binds. -/
def countdownBody : Term :=
  .lam "n" (.apps (.var "if") [.var "n", .app (.var "x") (.apps (.var "-") [.var "n", .int 1]),
    .int 7])

theorem fix_unfolds_countdownBody :
    let m := Machine.ofBuiltins .standard false
    let env := Builtins.standard.env
    value? (evaluate none 40 (.app (.fix "x" countdownBody) (.int 3)) env m) = some (.int 7) ∧
    EndAlike ReadAlike (fun n => evaluate none n (.fix "x" countdownBody) env m) fun n =>
      evaluate none n countdownBody (env.extend "x" (m.newThunk (.fix "x" countdownBody) env).1)
        (m.newThunk (.fix "x" countdownBody) env).2 := by
  intro m env
  have hlowered : countdownBody.Lowered := by
    simp [countdownBody, Term.apps, Term.Lowered]
  exact ⟨by decide +kernel, fix_unfolds Builtins.closed_standard Builtins.standard.has_env "x"
    (Heap.holds_of_lowered hlowered)⟩

end Letrec
