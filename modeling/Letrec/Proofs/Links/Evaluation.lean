import Mathlib
import Letrec.Proofs.Links.Machine

/-!
# Evaluation of joined terms

Evaluation over joined heaps takes joined terms to joined results, one lemma for each function of
the evaluator.  `Comparison.evaluate_follows` closes them, for a comparison whose special thunks do
the same as well.
-/

namespace Letrec

open EvalM

namespace Comparison

variable {S : Comparison} {L : Links} {m m' : Machine} {t t' : Term} {env env' : Env}

/-- Evaluation of joined code, and of the code of special thunks, follows an evaluator. -/
structure Follows (S : Comparison) (ev : Evaluator) : Prop where
  code : ∀ {L : Links} {m m' : Machine} {t t' : Term} {env env' : Env},
    L.JoinsCode t env t' env' → S.JoinsMachine L m m' →
    S.Matched L (ev t env m) fun j => evaluate S.limit j t' env' m'
  special : ∀ {L : Links} {m m' : Machine} {c c' : Thunk},
    S.special L m.heap m'.heap c c' → S.JoinsMachine L m m' →
    S.Matched L (ev c.term c.env m) fun j => evaluate S.limit j c'.term c'.env m'

/-! ### Arguments -/

/-- Arguments are suspended, or passed as they are, on both sides. -/
lemma suspend_joins (hm : S.JoinsMachine L m m') (ht : L.JoinsCode t env t' env') :
    ∃ L' u u' m₁ m₁', L ⊆ L' ∧ suspend t env m = .ok u m₁ ∧ suspend t' env' m' = .ok u' m₁' ∧
      L'.Joins u u' ∧ u.isReady = true ∧ S.JoinsMachine L' m₁ m₁' := by
  have hnew : ∃ L' u u' m₁ m₁', L ⊆ L' ∧
      (modifyGet (·.newThunk t env) : EvalM Term) m = .ok u m₁ ∧
      (modifyGet (·.newThunk t' env') : EvalM Term) m' = .ok u' m₁' ∧
      L'.Joins u u' ∧ u.isReady = true ∧ S.JoinsMachine L' m₁ m₁' := by
    obtain ⟨L', hL, hu, hm₁⟩ := hm.newThunk ht
    exact ⟨L', _, _, _, _, hL, modifyGet_eq_ok.2 ⟨rfl, rfl⟩, modifyGet_eq_ok.2 ⟨rfl, rfl⟩, hu,
      rfl, hm₁⟩
  have hpass : ∀ {u u' : Term}, L.Joins u u' → u.isReady = true →
      ∃ L' w w' m₁ m₁', L ⊆ L' ∧ (pure u : EvalM Term) m = .ok w m₁ ∧
        (pure u' : EvalM Term) m' = .ok w' m₁' ∧ L'.Joins w w' ∧ w.isReady = true ∧
        S.JoinsMachine L' m₁ m₁' :=
    fun hu hready => ⟨L, _, _, _, _, subset_refl L, rfl, rfl, hu, hready, hm⟩
  have hterm := ht.term
  cases hterm with
  | int v => exact hpass (.int v) rfl
  | closure ha => exact hpass (.closure ha) rfl
  | thunk ha => exact hpass (.thunk ha) rfl
  | builtin ha => exact hpass (.builtin ha) rfl
  | lam x hb => exact hnew
  | app hf ha => exact hnew
  | var x =>
    have hbound := ht.var
    cases hu : env.lookup? x with
    | none =>
      rw [hu] at hbound
      cases hu' : env'.lookup? x with
      | some u' =>
        rw [hu'] at hbound
        cases hbound
      | none =>
        rw [suspend_var_of_none hu, suspend_var_of_none hu']
        exact hnew
    | some u =>
      rw [hu] at hbound
      cases hu' : env'.lookup? x with
      | none =>
        rw [hu'] at hbound
        cases hbound
      | some u' =>
        rw [hu'] at hbound
        obtain ⟨hjoins, hready⟩ := Option.rel_some_some.1 hbound
        have hready' : u'.isReady = true := hjoins.isReady_eq ▸ hready
        rw [suspend_var_of_some hu, if_pos hready, suspend_var_of_some hu', if_pos hready']
        exact hpass hjoins hready

/-! ### The rules -/

section Rules

variable {ev : Evaluator} (hev : S.Follows ev)

include hev

lemma forceThunk_matched {a a' : Addr} (ha : (.thunk a, .thunk a') ∈ L)
    (hm : S.JoinsMachine L m m') :
    S.Matched L (forceThunk ev a m) fun j => forceThunk (evaluate S.limit j) a' m' := by
  obtain ⟨hmemo, hcode⟩ := hm.heap.thunk ha
  cases hforced : (m.heap.thunk a).memo with
  | some v =>
    cases hforced' : (m'.heap.thunk a').memo with
    | none =>
      rw [hforced, hforced'] at hmemo
      cases hmemo
    | some v' =>
      rw [hforced, hforced'] at hmemo
      obtain ⟨hv⟩ := hmemo
      rw [Heap.memo_thunk] at hforced hforced'
      rw [forceThunk_of_memo? hforced]
      simp only [forceThunk_of_memo? hforced']
      exact .ok hv hm
  | none =>
    have hforced' : (m'.heap.thunk a').memo = none := by
      rw [hforced] at hmemo
      generalize (m'.heap.thunk a').memo = o at hmemo
      cases hmemo
      rfl
    rw [forceThunk_of_unforced ev hforced]
    simp only [forceThunk_of_unforced _ hforced']
    have hm₁ : S.JoinsMachine L
        (m.trace fun h => .forcing a (h.text (m.heap.thunk a).term))
        (m'.trace fun h => .forcing a' (h.text (m'.heap.thunk a').term)) := by
      refine hm.trace fun hexact => ?_
      rcases hcode hforced with hcode | ⟨hspecial, -⟩
      · rw [hm.text_eq hexact hcode.term, (hm.reports hexact).address a a' ha]
      · exact absurd hexact hspecial
    refine .bind (y := fun j => evaluate S.limit j (m'.heap.thunk a').term (m'.heap.thunk a').env)
      (z := fun _ v => modifyGet (·.memoize a' v)) ?_ fun L' v v' m₁ m₁' hL hv hm₁ => ?_
    · rcases hcode hforced with hcode | ⟨-, hspecial⟩
      · exact hev.code hcode hm₁
      · refine hev.special ?_ hm₁
        rwa [heap_trace, heap_trace]
    · obtain ⟨hw, hm₂⟩ := hm₁.memoize (hL ha) hv
      exact .ok hw hm₂

lemma force_matched (ht : L.Joins t t') (hm : S.JoinsMachine L m m') :
    S.Matched L (force ev t m) fun j => force (evaluate S.limit j) t' m' := by
  have hcode := hev.code (Links.JoinsCode.nil ht) hm
  cases ht with
  | thunk ha => exact forceThunk_matched hev ha hm
  | _ => exact hcode

lemma perform_matched {act act' : Action} (hact : L.JoinsAction act act')
    (hm : S.JoinsMachine L m m') :
    S.Matched L (perform ev act m) fun j => perform (evaluate S.limit j) act' m' := by
  induction hact generalizing m m' with
  | done ht => exact .ok ht hm
  | fail e => exact .error _ hm
  | missingOperand => exact .error _ hm
  | @force L t t' next next' ht _ ih =>
    refine .bind (y := fun j => force (evaluate S.limit j) t')
      (z := fun j v => perform (evaluate S.limit j) (next' v)) (force_matched hev ht hm) ?_
    exact fun L' v v' m₁ m₁' hL hv hm₁ => ih L' hL hm₁.heap.oneToOne v v' hv hm₁
  | @asInt L t t' next next' otherwise ht _ ih =>
    have hsame := hm.heap.asInt?_eq ht
    cases hi : m.heap.asInt? t with
    | some i =>
      rw [perform_asInt_of_some ev hi]
      simp only [perform_asInt_of_some _ (hsame.symm.trans hi)]
      exact ih i hm
    | none =>
      rw [perform_asInt_of_none ev hi]
      simp only [perform_asInt_of_none _ (hsame.symm.trans hi)]
      exact .shown otherwise ht hm
  | record label ht _ ih => exact ih (hm.record label ht)

/-- The same operation with joined arguments.  It does not matter which of them it had before. -/
lemma applyBuiltin_matched {a a' : Addr} {args args' supplied' : List Term}
    (hb : m'.heap.builtin a' = { m.heap.builtin a with supplied := supplied' })
    (hop : (m.heap.builtin a).op.Uniform S.base)
    (hall : List.Forall₂ L.Joins ((m.heap.builtin a).supplied ++ args) (supplied' ++ args'))
    (hm : S.JoinsMachine L m m') :
    S.Matched L (applyBuiltin ev a args m)
      fun j => applyBuiltin (evaluate S.limit j) a' args' m' := by
  have happly : ∀ (ev : Evaluator) (a : Addr) (args : List Term) (m : Machine),
      applyBuiltin ev a args m =
        (if (m.heap.builtin a).arity < ((m.heap.builtin a).supplied ++ args).length then
          fail (.tooManyArguments (m.heap.builtin a).name (m.heap.builtin a).arity
            ((m.heap.builtin a).supplied ++ args).length)
        else if ((m.heap.builtin a).supplied ++ args).length < (m.heap.builtin a).arity then
          modifyGet (·.newBuiltin { m.heap.builtin a with
            supplied := (m.heap.builtin a).supplied ++ args })
        else do
          modify (·.trace fun _ => .invoking (m.heap.builtin a).name)
          perform ev ((m.heap.builtin a).op ((m.heap.builtin a).supplied ++ args))) m :=
    fun _ _ _ _ => rfl
  simp only [happly, hb]
  rw [← hall.length_eq]
  split_ifs
  · exact .error _ hm
  · obtain ⟨L', hL, hv, hm₁⟩ := hm.newBuiltin (b := { m.heap.builtin a with
      supplied := (m.heap.builtin a).supplied ++ args }) hop hall
    exact .of_subset hL (.ok hv hm₁)
  · exact perform_matched hev (hop L hm.heap.base hm.heap.oneToOne _ _ hall)
      (hm.trace fun _ => rfl)

lemma call_matched_of_ne (n : ℕ) (i : ℕ → ℕ) {f f' arg arg' : Term} (hf : L.Joins f f')
    (hthunk : ∀ a, f ≠ .thunk a) (harg : L.Joins arg arg') (hready : arg.isReady = true)
    (hm : S.JoinsMachine L m m') :
    S.Matched L (call ev n f arg m) fun j => call (evaluate S.limit j) (i j) f' arg' m' := by
  have hfail : (∀ (ev : Evaluator) (n : ℕ) (arg : Term) (m : Machine),
      call ev n f arg m = .error (.failed (.notAFunction (m.heap.text f))) m) →
      (∀ (ev : Evaluator) (n : ℕ) (arg : Term) (m : Machine),
      call ev n f' arg m = .error (.failed (.notAFunction (m.heap.text f'))) m) →
      S.Matched L (call ev n f arg m) fun j => call (evaluate S.limit j) (i j) f' arg' m' := by
    intro h h'
    simp only [h, h']
    exact .shown .notAFunction hf hm
  cases hf with
  | thunk ha => exact absurd rfl (hthunk _)
  | closure ha =>
    simp only [call_closure]
    exact hev.code ((hm.heap.closure ha).body harg hready) hm
  | builtin ha =>
    simp only [call_builtin]
    obtain ⟨supplied', hb, hop, hsupplied⟩ := hm.heap.builtin ha
    exact applyBuiltin_matched hev hb hop (List.rel_append hsupplied (.cons harg .nil)) hm
  | _ => exact hfail (fun _ n _ _ => by cases n <;> rfl) fun _ n _ _ => by cases n <;> rfl

/-- A function may be a thunk; then it takes one round more. -/
lemma call_matched (n i : ℕ) {f f' arg arg' : Term} (hf : L.Joins f f') (harg : L.Joins arg arg')
    (hready : arg.isReady = true) (hm : S.JoinsMachine L m m') :
    S.Matched L (call ev n f arg m) fun j => call (evaluate S.limit j) (j - i) f' arg' m' := by
  induction n generalizing L f f' m m' i with
  | zero =>
    by_cases hthunk : ∃ a, f = .thunk a
    · obtain ⟨a, rfl⟩ := hthunk
      exact .outOfFuel
    · exact call_matched_of_ne hev 0 (· - i) hf (fun a ha => hthunk ⟨a, ha⟩) harg hready hm
  | succ n ih =>
    by_cases hthunk : ∃ a, f = .thunk a
    · obtain ⟨a, rfl⟩ := hthunk
      cases hf with
      | @thunk _ a' ha =>
        have hbind : S.Matched L (call ev (n + 1) (.thunk a) arg m) fun j =>
            (forceThunk (evaluate S.limit j) a' >>=
              fun f => call (evaluate S.limit j) (j - (i + 1)) f arg') m' :=
          .bind (forceThunk_matched hev ha hm)
            fun L' v v' m₁ m₁' hL hv hm₁ => ih (i + 1) hv (harg.mono hL) hm₁
        refine hbind.congr (i := i + 1) fun j hj => ?_
        obtain ⟨k, hk⟩ : ∃ k, j - i = k + 1 := ⟨j - (i + 1), by omega⟩
        have hk' : j - (i + 1) = k := by omega
        rw [hk, hk']
        rfl
    · exact call_matched_of_ne hev (n + 1) (· - i) hf (fun a ha => hthunk ⟨a, ha⟩) harg hready hm

lemma step_matched (n : ℕ) (ht : L.JoinsCode t env t' env') (hm : S.JoinsMachine L m m') :
    S.Matched L (step ev n t env m) fun j => step (evaluate S.limit j) j t' env' m' := by
  have hterm := ht.term
  cases hterm with
  | int v => exact .ok (.int v) hm
  | closure ha => exact .ok (.closure ha) hm
  | builtin ha => exact .ok (.builtin ha) hm
  | thunk ha => exact forceThunk_matched hev ha hm
  | lam x hb =>
    obtain ⟨L', hL, hv, hm₁⟩ := hm.newClosure { param := x, body := _, env }
      { param := x, body := _, env := env' } ht
    exact .of_subset hL (.ok hv hm₁)
  | var x =>
    have hbound := ht.var
    unfold step
    dsimp only
    generalize env.lookup? x = o at hbound ⊢
    generalize env'.lookup? x = o' at hbound ⊢
    cases hbound with
    | none => exact .error _ hm
    | some h =>
      obtain ⟨hu, hready⟩ := h
      have hcode := hev.code (show L.JoinsCode _ env _ env' from .of_joins hu hready) hm
      cases hu with
      | thunk ha => exact forceThunk_matched hev ha hm
      | _ => exact hcode
  | @app f f' a a' hf ha =>
    refine .bind (y := fun j => evaluate S.limit j f' env')
      (z := fun j f => suspend a' env' >>= call (evaluate S.limit j) j f)
      (hev.code ht.fn hm) fun L' v v' m₁ m₁' hL hv hm₁ => ?_
    obtain ⟨L'', u, u', m₂, m₂', hL', hu, hu', hjoins, hready, hm₂⟩ :=
      suspend_joins hm₁ (ht.arg.mono hL)
    simp only [bind_of_ok hu, bind_of_ok hu']
    exact .of_subset hL' (call_matched hev n 0 (hv.mono hL') hjoins hready hm₂)

end Rules

/-- Joined terms evaluate alike.  A special thunk may count on what evaluation does within smaller
bounds. -/
theorem evaluate_follows (hspecial : ∀ n, (∀ k < n, S.Follows (evaluate S.limit k)) →
    ∀ {L : Links} {m m' : Machine} {c c' : Thunk},
      S.special L m.heap m'.heap c c' → S.JoinsMachine L m m' →
      S.Matched L (evaluate S.limit n c.term c.env m)
        fun j => evaluate S.limit j c'.term c'.env m') (n : ℕ) :
    S.Follows (evaluate S.limit n) := by
  induction n using Nat.strong_induction_on with
  | _ n ih =>
    refine ⟨fun ht hm => ?_, hspecial n ih⟩
    cases n with
    | zero => exact .outOfFuel
    | succ n => exact .succ (.nested hm fun m m' hm => step_matched (ih n n.lt_succ_self) n ht hm)

end Comparison

end Letrec
