import Mathlib
import Letrec.Proofs.ByName.Finishing
import Letrec.Proofs.ByName.Simulation

/-!
# Evaluation by need is evaluation by name

`Simulation` says that the machine, where it ends, ends as evaluation by name does.  Here is the
rest: where evaluation by name ends, so does the machine (`finishes_of_gives`).  The induction is on
the bound of evaluation by name; what the machine has reached in between is what `evaluate_sound`
says it has.

Together they give `needs_iff_names`: sharing, memo cells and arguments that are passed on as they
are cannot be observed.
-/

namespace Letrec.ByName

open EvalM

lemma Simulates.reached {W : World} {m m' : Machine} {x : EvalM Term}
    {q : Except EvalError Object → Prop} (h : Simulates W m x q) {v : Term}
    (hx : x m = .ok v m') : Reached W q v m'.heap := (ensures_iff.1 h).1 v m' hx

/-! ### The machine ends -/

/-- Where evaluation by name ends within the bound `k`, the machine ends. -/
def Complete (k : ℕ) : Prop :=
  ∀ ⦃t : Term⦄ ⦃ρ : Env⦄ ⦃r⦄, (evaluate k t ρ).Gives r → ∀ ⦃W : World⦄ ⦃m : Machine⦄
    ⦃env : Letrec.Env⦄, W.Describes m.heap → W.DenotesEnv env ρ → t.Lowered →
    Finishes (fun n => Letrec.evaluate none n t env) m

/-- The tree of a term is forced within the bound that an object it denotes needs. -/
lemma Denotes.gives {W : World} {h : Heap} (hW : W.Describes h) {t : Term} {o : Object}
    (ht : W.Denotes t o) {k : ℕ} {r : Except EvalError Object}
    (hr : (force (evaluate k) o).Gives r) :
    ∃ o' r', W t = some o' ∧ (force (evaluate k) o').Gives r' := by
  induction ht generalizing k r with
  | object ho => exact ⟨_, r, ho, hr⟩
  | @literal v ρ => exact ⟨.int v, _, hW.int v, Partial.pure_gives.2 rfl⟩
  | @«variable» t x o ρ hx _ ih =>
    cases k with
    | zero => exact absurd hr Partial.never_gives
    | succ k =>
      refine ih (k := k + 1) (r := r) (force_growing o (Nat.le_succ k) r ?_)
      change (step (evaluate k) (.var x) ρ).Gives r at hr
      simpa only [step, hx] using hr

section Complete

variable {k : ℕ} (hk : Complete k) {W : World} {m : Machine} (hW : W.Describes m.heap)

include hk hW

lemma forceThunk_finishes {a : Addr} {o : Object} (ha : W (.thunk a) = some o)
    {r : Except EvalError Object} (hr : (force (evaluate k) o).Gives r) :
    Finishes (fun n => forceThunk (Letrec.evaluate none n) a) m := by
  obtain ⟨c, ρ, hc, rfl, ht, henv, -⟩ := hW.thunk ha
  exact .forceThunk hc fun m' hm' => hk hr (hm'.symm ▸ hW) henv ht

lemma force_finishes {t : Term} {o : Object} (ht : W.Denotes t o) {r : Except EvalError Object}
    (hr : (force (evaluate k) o).Gives r) :
    Finishes (fun n => EvalM.force (Letrec.evaluate none n) t) m := by
  obtain ⟨o', r', ho', hr'⟩ := Denotes.gives hW ht hr
  cases hW.object t o' ho' with
  | thunk => exact forceThunk_finishes hk hW ho' hr'
  | int v => exact value_finishes rfl (by simp)
  | closure => exact value_finishes rfl (by simp)
  | builtin => exact value_finishes rfl (by simp)

omit hW in
lemma forcible : Forcible k World.Describes where
  finishes hW ht hr := force_finishes hk hW ht hr
  reads {W m m' t v o n} hW ht hv := by
    obtain ⟨W', w, hgrows, hW', hw, hv, hval⟩ :=
      (force_simulates (evaluate_sound n) hW ht).reached hv
    refine ⟨W', hgrows, hW', fun j hj => ?_⟩
    rw [asInt?_eq hW' hv hval] at hj
    rwa [← int?_eq_ok hj]

lemma call_finishes {f t : Term} {w o : Object} (hf : W f = some w) (hw : w.IsValue)
    (ht : W.Denotes t o) {r : Except EvalError Object} (hr : (apply (evaluate k) w o).Gives r) :
    Finishes (fun n => call (Letrec.evaluate none n) n f t) m := by
  cases hW.object f w hf with
  | int v => exact .of_failed (n := 0) (call_int _ 0 t v m)
  | closure hc hb henv => exact .call_closure hc (hk hr hW (henv.extend _ ht) hb)
  | builtin hb hargs =>
    simp only [call_builtin]
    exact (forcible hk).applyBuiltin hW hb hargs ht hr
  | thunk => exact hw.elim

end Complete

lemma step_finishes {k : ℕ} (hk : Complete k) {t : Term} {ρ : Env} {r : Except EvalError Object}
    (hr : (step (evaluate k) t ρ).Gives r) {W : World} {m : Machine} {env : Letrec.Env}
    (hW : W.Describes m.heap) (henv : W.DenotesEnv env ρ) (ht : t.Lowered) :
    Finishes (fun n => EvalM.step (Letrec.evaluate none n) n t env) m := by
  cases t with
  | int v => exact .const finished_ok
  | lam x b => exact .const finished_ok
  | var x =>
    unfold step at hr
    dsimp only at hr
    rcases henv.lookup x with ⟨hx, hρ⟩ | ⟨u, o, hx, hρ, hu⟩
    · exact .of_failed (n := 0) (step_var_of_none _ 0 hx m)
    · rw [hρ] at hr
      exact .step_var hx (hu.isReady hW) (force_finishes hk hW hu hr)
  | app f a =>
    obtain ⟨rf, hf⟩ := Partial.gives_of_bind hr
    refine .bind (evaluate_refining f env) (fun v => (refining_const _).bind fun u =>
      call_refining v u) (hk hf hW henv ht.1) fun n v m₁ hv => ?_
    obtain ⟨W₁, w, hgrows₁, hW₁, hw, hv, hval⟩ :=
      ((evaluate_sound n).lowered hW henv ht.1).reached hv
    -- the machine has reached the value that evaluation by name has for the function
    obtain rfl : rf = .ok w := Evaluates.unique ⟨k, hf⟩ hw
    rcases Partial.bind_gives.1 hr with ⟨w', hw', hr⟩ | ⟨e, he, -⟩
    · obtain rfl := Except.ok.inj (Option.some.inj (hf.symm.trans hw'))
      obtain ⟨u, m₂, hsuspend⟩ := suspend_ok a env m₁
      obtain ⟨W₂, hgrows₂, hW₂, hu⟩ :=
        (ensures_iff.1 (suspend_simulates hW₁ (henv.mono hgrows₁) ht.2)).1 u m₂ hsuspend
      exact .after hsuspend (call_finishes hk hW₂ (hgrows₂ _ _ hv) hval hu hr)
    · exact absurd (Option.some.inj (hf.symm.trans he)) (by simp)
  | closure a => exact ht.elim
  | thunk a => exact ht.elim
  | builtin a => exact ht.elim

/-- Where evaluation by name ends, the machine ends. -/
theorem finishes_of_gives (k : ℕ) : Complete k := by
  induction k with
  | zero => exact fun t ρ r hr => absurd hr Partial.never_gives
  | succ k ih =>
    intro t ρ r hr W m env hW henv ht
    exact .of_succ (.nested (step_finishes ih hr hW henv ht))

/-! ### Environments that have not been forced -/

/-- The object that a term is, written out, with no thunk in it forced yet. -/
inductive Unfolds (h : Heap) : Term → Object → Prop
  | int (v : Int64) : Unfolds h (.int v) (.int v)
  | closure {a : Addr} {c : Closure} {ρ : Env} : h.closures[a]? = some c → c.body.Lowered →
      c.env.map Prod.fst = ρ.map Prod.fst →
      (∀ (i : ℕ) (p : String × Term) (q : String × Object), c.env[i]? = some p → ρ[i]? = some q →
        Unfolds h p.2 q.2) →
      Unfolds h (.closure a) (.closure c.param c.body ρ)
  | builtin {a : Addr} {p : Primitive} {s : List Term} {args : List Object} :
      h.builtins[a]? = some (p.builtin s) → s.length = args.length →
      (∀ (i : ℕ) t o, s[i]? = some t → args[i]? = some o → Unfolds h t o) →
      Unfolds h (.builtin a) (.builtin p args)
  | thunk {a : Addr} {c : Thunk} {ρ : Env} : h.thunks[a]? = some c → c.memo = none →
      c.term.Lowered → c.env.map Prod.fst = ρ.map Prod.fst →
      (∀ (i : ℕ) (p : String × Term) (q : String × Object), c.env[i]? = some p → ρ[i]? = some q →
        Unfolds h p.2 q.2) →
      Unfolds h (.thunk a) (.pair c.term ρ)

/-- The environment is built from values and thunks none of which has been forced; written out, it
is `ρ`. -/
structure UnfoldsEnv (h : Heap) (env : Letrec.Env) (ρ : Env) : Prop where
  names : env.map Prod.fst = ρ.map Prod.fst
  terms : ∀ (i : ℕ) (p : String × Term) (q : String × Object), env[i]? = some p → ρ[i]? = some q →
    Unfolds h p.2 q.2

lemma UnfoldsEnv.nil {h : Heap} : UnfoldsEnv h [] [] := ⟨rfl, by simp⟩

lemma UnfoldsEnv.cons {h : Heap} {env : Letrec.Env} {ρ : Env} {x : String} {t : Term} {o : Object}
    (ht : Unfolds h t o) (henv : UnfoldsEnv h env ρ) :
    UnfoldsEnv h ((x, t) :: env) ((x, o) :: ρ) where
  names := by rw [List.map_cons, List.map_cons, henv.names]
  terms i p q hp hq := by
    cases i with
    | zero =>
      obtain rfl := Option.some.inj hp
      obtain rfl := Option.some.inj hq
      exact ht
    | succ i => exact henv.terms i p q hp hq

lemma getElem?_eq_some_of_length {l : List α} {l' : List β} (hlen : l.length = l'.length) {i : ℕ}
    {b : β} (hi : l'[i]? = some b) : ∃ a, l[i]? = some a := by
  obtain ⟨hlt, -⟩ := List.getElem?_eq_some_iff.1 hi
  exact ⟨l[i], List.getElem?_eq_getElem (hlen ▸ hlt)⟩

/-- Two environments that write out the same one are equal. -/
lemma env_eq {env : Letrec.Env} {ρ ρ' : Env} (hρ : env.map Prod.fst = ρ.map Prod.fst)
    (hρ' : env.map Prod.fst = ρ'.map Prod.fst)
    (h : ∀ (i : ℕ) p q q', env[i]? = some p → ρ[i]? = some q → ρ'[i]? = some q' → q.2 = q'.2) :
    ρ = ρ' := by
  have hlen : env.length = ρ.length := by simpa using congrArg List.length hρ
  refine List.ext_getElem? fun i => ?_
  have hnames : (ρ[i]?).map Prod.fst = (ρ'[i]?).map Prod.fst := by
    rw [← List.getElem?_map, ← List.getElem?_map, ← hρ, hρ']
  cases hi : ρ[i]? with
  | none =>
    rw [hi, Option.map_none] at hnames
    exact (Option.map_eq_none_iff.1 hnames.symm).symm
  | some q =>
    rw [hi, Option.map_some] at hnames
    obtain ⟨q', hq', hname⟩ := Option.map_eq_some_iff.1 hnames.symm
    obtain ⟨p, hp⟩ := getElem?_eq_some_of_length hlen hi
    rw [hq', Prod.ext hname.symm (h i p q q' hp hi hq')]

/-- There is one way to write out a term. -/
lemma Unfolds.unique {h : Heap} {t : Term} {o o' : Object} (ho : Unfolds h t o)
    (ho' : Unfolds h t o') : o = o' := by
  induction ho generalizing o' with
  | int v =>
    cases ho' with
    | int => rfl
  | closure hc _ hnames _ ih =>
    cases ho' with
    | closure hc' _ hnames' hterms' =>
      obtain rfl := Option.some.inj (hc.symm.trans hc')
      rw [env_eq hnames hnames' fun i p q q' hp hq hq' => ih i p q hp hq (hterms' i p q' hp hq')]
  | builtin hb hlen _ ih =>
    cases ho' with
    | builtin hb' hlen' hargs' =>
      obtain ⟨rfl, rfl⟩ := Primitive.builtin_injective (Option.some.inj (hb.symm.trans hb'))
      congr 1
      refine List.ext_getElem (hlen.symm.trans hlen') fun i hi hi' => ?_
      obtain ⟨t, ht⟩ := getElem?_eq_some_of_length hlen (List.getElem?_eq_getElem hi)
      exact ih i t _ ht (List.getElem?_eq_getElem hi)
        (hargs' i t _ ht (List.getElem?_eq_getElem hi'))
  | thunk hc _ _ hnames _ ih =>
    cases ho' with
    | thunk hc' _ _ hnames' hterms' =>
      obtain rfl := Option.some.inj (hc.symm.trans hc')
      rw [env_eq hnames hnames' fun i p q q' hp hq hq' => ih i p q hp hq (hterms' i p q' hp hq')]

namespace World

open Classical in
/-- The world of all terms of a heap that can be written out. -/
noncomputable def ofHeap (h : Heap) : World :=
  fun t => if ho : ∃ o, Unfolds h t o then some ho.choose else none

variable {h : Heap}

lemma ofHeap_eq_some {t : Term} {o : Object} : ofHeap h t = some o ↔ Unfolds h t o := by
  unfold ofHeap
  constructor
  · intro ho
    split_ifs at ho with hex
    rw [← Option.some.inj ho]
    exact hex.choose_spec
  · intro ho
    rw [dif_pos ⟨o, ho⟩, (Exists.choose_spec ⟨o, ho⟩ : Unfolds h t _).unique ho]

lemma denotesEnv_ofHeap {env : Letrec.Env} {ρ : Env} (hnames : env.map Prod.fst = ρ.map Prod.fst)
    (hterms : ∀ (i : ℕ) p q, env[i]? = some p → ρ[i]? = some q → Unfolds h p.2 q.2) :
    (ofHeap h).DenotesEnv env ρ := by
  have hlen : env.length = ρ.length := by simpa using congrArg List.length hnames
  refine List.forall₂_iff_get.2 ⟨hlen, fun i hi hi' => ⟨?_, ?_⟩⟩
  · have hi₁ : i < (env.map Prod.fst).length := by simpa using hi
    simpa using List.getElem_of_eq hnames hi₁
  · exact .object (ofHeap_eq_some.2
      (hterms i _ _ (List.getElem?_eq_getElem hi) (List.getElem?_eq_getElem hi')))

lemma describes_ofHeap (h : Heap) : (ofHeap h).Describes h where
  int v := ofHeap_eq_some.2 (.int v)
  object t o ho := by
    cases ofHeap_eq_some.1 ho with
    | int v => exact .int v
    | closure hc hb hnames hterms => exact .closure hc hb (denotesEnv_ofHeap hnames hterms)
    | builtin hb hlen hargs =>
      refine .builtin hb (List.forall₂_iff_get.2 ⟨hlen, fun i hi hi' => ?_⟩)
      exact .object (ofHeap_eq_some.2
        (hargs i _ _ (List.getElem?_eq_getElem hi) (List.getElem?_eq_getElem hi')))
    | thunk hc hmemo ht hnames hterms =>
      exact .thunk hc ht (denotesEnv_ofHeap hnames hterms)
        fun v hv => absurd (hmemo.symm.trans hv) (by simp)

end World

/-! ### By need and by name -/

/-- What is seen of a value from outside. -/
inductive Shown where
  /-- An integer. -/
  | int (value : Int64)
  /-- The text of a function. -/
  | closure (text : String)
  /-- The text of a builtin operation. -/
  | builtin (text : String)
deriving DecidableEq

/-- What is seen of a term of the machine, if it is a value. -/
def shown? (h : Heap) : Term → Option Shown
  | .int v => some (.int v)
  | .closure a => some (.closure (h.text (.closure a)))
  | .builtin a => some (.builtin (h.text (.builtin a)))
  | _ => none

/-- What is seen of an object, if it is a value. -/
def Object.shown? : Object → Option Shown
  | int v => some (.int v)
  | closure x b ρ => some (.closure (closure x b ρ).text)
  | builtin p args => some (.builtin (builtin p args).text)
  | pair _ _ => none

lemma shown?_eq {W : World} {h : Heap} (hW : W.Describes h) {v : Term} {w : Object}
    (hv : W v = some w) (hw : w.IsValue) : shown? h v = w.shown? ∧ w.shown?.isSome := by
  have htext := text_eq hW hv hw
  cases hW.object v w hv with
  | int i => exact ⟨rfl, rfl⟩
  | closure => exact ⟨by rw [shown?, htext, Object.shown?], rfl⟩
  | builtin => exact ⟨by rw [shown?, htext, Object.shown?], rfl⟩
  | thunk => exact hw.elim

section Answers

variable {W : World} {m : Machine} (hW : W.Describes m.heap) {env : Letrec.Env} {ρ : Env}
  (henv : W.DenotesEnv env ρ) {t : Term} (ht : t.Lowered)

include hW henv ht

/-- Every end of the machine is an answer by name, and what is seen of it is the same. -/
lemma evaluates_of_evaluate {n : ℕ} :
    (∀ v m', Letrec.evaluate none n t env m = .ok v m' → ∃ w, Evaluates t ρ (.ok w) ∧
      shown? m'.heap v = w.shown? ∧ w.shown?.isSome) ∧
    (∀ e m', Letrec.evaluate none n t env m = .error (.failed e) m' → Evaluates t ρ (.error e)) ∧
    ∀ m', Letrec.evaluate none n t env m ≠ .error .missingOperand m' := by
  obtain ⟨hok, herror, hmissing⟩ := ensures_iff.1 ((evaluate_sound n).lowered hW henv ht)
  refine ⟨fun v m' hv => ?_, herror, hmissing⟩
  obtain ⟨W', w, -, hW', hw, hv, hval⟩ := hok v m' hv
  exact ⟨w, hw, shown?_eq hW' hv hval⟩

/-- Every answer by name is an end of the machine, and what is seen of it is the same. -/
lemma evaluate_of_evaluates {r : Except EvalError Object} (hr : Evaluates t ρ r) :
    ∃ n, (∃ v m' w, Letrec.evaluate none n t env m = .ok v m' ∧ r = .ok w ∧
        shown? m'.heap v = w.shown? ∧ w.shown?.isSome) ∨
      ∃ e m', Letrec.evaluate none n t env m = .error (.failed e) m' ∧ r = .error e := by
  obtain ⟨k, hk⟩ := hr
  obtain ⟨n, hn⟩ := finishes_of_gives k hk hW henv ht
  obtain ⟨hok, herror, hmissing⟩ := evaluates_of_evaluate (n := n) hW henv ht
  refine ⟨n, ?_⟩
  cases hx : Letrec.evaluate none n t env m with
  | ok v m' =>
    obtain ⟨w, hw, hshown⟩ := hok v m' hx
    exact Or.inl ⟨v, m', w, rfl, Evaluates.unique ⟨k, hk⟩ hw, hshown⟩
  | error e m' =>
    cases e with
    | failed e => exact Or.inr ⟨e, m', rfl, Evaluates.unique ⟨k, hk⟩ (herror e m' hx)⟩
    | missingOperand => exact absurd hx (hmissing m')
    | outOfFuel => exact absurd rfl (hn _ _ hx)

end Answers

/-- On a lowered term, in an environment of values and of thunks that have not been forced, the
machine and evaluation by name return the same: an integer, a function or a builtin operation that
looks the same, or the same error. -/
theorem needs_iff_names {m : Machine} {env : Letrec.Env} {ρ : Env}
    (henv : UnfoldsEnv m.heap env ρ) {t : Term} (ht : t.Lowered) :
    (∀ s, (∃ n v m', Letrec.evaluate none n t env m = .ok v m' ∧ shown? m'.heap v = some s) ↔
      ∃ n w, (evaluate n t ρ).run = some (.ok w) ∧ w.shown? = some s) ∧
    (∀ e, (∃ n m', Letrec.evaluate none n t env m = .error (.failed e) m') ↔
      ∃ n, (evaluate n t ρ).run = some (.error e)) ∧
    (∀ n v m', Letrec.evaluate none n t env m = .ok v m' → (shown? m'.heap v).isSome) ∧
    (∀ n w, (evaluate n t ρ).run = some (.ok w) → w.shown?.isSome) ∧
    ∀ n m', Letrec.evaluate none n t env m ≠ .error .missingOperand m' := by
  have hW := World.describes_ofHeap m.heap
  have henv' := World.denotesEnv_ofHeap henv.names henv.terms
  have hneed := fun n => evaluates_of_evaluate (n := n) hW henv' ht
  have hname : ∀ r, Evaluates t ρ r → _ := fun r => evaluate_of_evaluates hW henv' ht
  refine ⟨fun s => ⟨?_, ?_⟩, fun e => ⟨?_, ?_⟩, ?_, ?_, fun n => (hneed n).2.2⟩
  · rintro ⟨n, v, m', hv, hs⟩
    obtain ⟨w, ⟨k, hw⟩, hshown, -⟩ := (hneed n).1 v m' hv
    exact ⟨k, w, hw, hshown ▸ hs⟩
  · rintro ⟨k, w, hw, hs⟩
    obtain ⟨n, ⟨v, m', w', hv, heq, hshown, -⟩ | ⟨e, m', -, heq⟩⟩ := hname _ ⟨k, hw⟩
    · obtain rfl := Except.ok.inj heq
      exact ⟨n, v, m', hv, hshown.trans hs⟩
    · exact absurd heq (by simp)
  · rintro ⟨n, m', he⟩
    exact (hneed n).2.1 e m' he
  · rintro ⟨k, hk⟩
    obtain ⟨n, ⟨v, m', w', -, heq, -⟩ | ⟨e', m', he, heq⟩⟩ := hname _ ⟨k, hk⟩
    · exact absurd heq (by simp)
    · obtain rfl := Except.error.inj heq
      exact ⟨n, m', he⟩
  · intro n v m' hv
    obtain ⟨w, -, hshown, hsome⟩ := (hneed n).1 v m' hv
    rwa [hshown]
  · intro k w hw
    obtain ⟨n, ⟨v, m', w', -, heq, -, hsome⟩ | ⟨e, m', -, heq⟩⟩ := hname _ ⟨k, hw⟩
    · obtain rfl := Except.ok.inj heq
      exact hsome
    · exact absurd heq (by simp)

/-- Addition. -/
def plus : Primitive := .arithmetic "+" (· + ·)

/-- The sum of two terms. -/
def sum (a b : Term) : Term := .app (.app (.var "+") a) b

/-- A machine with one operation and one thunk. -/
def sharing : Machine where
  heap :=
    { builtins := #[plus.builtin []]
      thunks := #[{ term := sum (.int 1) (.int 2), env := [("+", .builtin 0)] }] }

/-- Two names for the thunk. -/
def sharingEnv : Letrec.Env := [("x", .thunk 0), ("y", .thunk 0), ("+", .builtin 0)]

/-- The same environment, written out. -/
def sharingTree : Env :=
  let operation := ("+", Object.builtin plus [])
  let three := Object.pair (sum (.int 1) (.int 2)) [operation]
  [("x", three), ("y", three), operation]

theorem needs_iff_names_shared :
    UnfoldsEnv sharing.heap sharingEnv sharingTree ∧ (sum (.var "x") (.var "y")).Lowered ∧
    (∃ n v m', Letrec.evaluate none n (sum (.var "x") (.var "y")) sharingEnv sharing = .ok v m' ∧
      shown? m'.heap v = some (.int 6)) ∧
    ∃ n w, (evaluate n (sum (.var "x") (.var "y")) sharingTree).run = some (.ok w) ∧
      w.shown? = some (.int 6) := by
  have hplus : Unfolds sharing.heap (.builtin 0) (.builtin plus []) :=
    .builtin (p := plus) (a := 0) (s := []) rfl rfl (by simp)
  have henv : UnfoldsEnv sharing.heap [("+", .builtin 0)] [("+", .builtin plus [])] :=
    .cons hplus .nil
  have hsum : Unfolds sharing.heap (.thunk 0)
      (.pair (sum (.int 1) (.int 2)) [("+", .builtin plus [])]) :=
    .thunk (a := 0) (c := { term := sum (.int 1) (.int 2), env := [("+", .builtin 0)] }) rfl rfl
      (by decide) henv.names henv.terms
  have hall : UnfoldsEnv sharing.heap sharingEnv sharingTree := .cons hsum (.cons hsum henv)
  have hlowered : (sum (.var "x") (.var "y")).Lowered := by decide
  have hshown : (match Letrec.evaluate none 9 (sum (.var "x") (.var "y")) sharingEnv sharing with
      | .ok v m' => shown? m'.heap v
      | .error _ _ => none) = some (.int 6) := by
    decide +kernel
  have hrun : ∃ n v m', Letrec.evaluate none n (sum (.var "x") (.var "y")) sharingEnv sharing
      = .ok v m' ∧ shown? m'.heap v = some (.int 6) := by
    split at hshown
    · rename_i v m' hv
      exact ⟨9, v, m', hv, hshown⟩
    · exact absurd hshown (by simp)
  exact ⟨hall, hlowered, hrun, ((needs_iff_names hall hlowered).1 (.int 6)).1 hrun⟩
end Letrec.ByName
