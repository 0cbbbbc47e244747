import Mathlib
import Letrec.Evaluation.Fuel
import Letrec.Proofs.Success
import Letrec.Proofs.Evaluation.Congruence
import Letrec.Proofs.Unshared.Session
import Letrec.Proofs.Unshared.Text

/-!
# Forcing again after a failure

Forcing a thunk may fail at any point, with some of the thunks that it needs forced and others under
way.  The cells that have been filled by then hold true values (`Describes`), and the thunk itself
is not among them, so forcing any thunk afterwards ends as it would have ended before:
`failed_force_harmless`.

A thunk that the failed evaluation has forced is shown by its value from then on, so a function that
mentions it may read differently: `force_text_differs`.
-/

namespace Letrec

open Unshared Unshared.World

/-! ### Filled cells -/

namespace EvalM

variable {α β : Type}

/-- Filled memo cells are left as they are. -/
def KeepsCells (x : EvalM α) : Prop :=
  ∀ m a v, m.heap.memo? a = some v → (after (x m)).heap.memo? a = some v

namespace KeepsCells

lemma bind {x : EvalM α} {f : α → EvalM β} (hx : KeepsCells x) (hf : ∀ a, KeepsCells (f a)) :
    KeepsCells (x >>= f) := by
  intro m a v hv
  have hm := hx m a v hv
  show (after (EStateM.bind x f m)).heap.memo? a = some v
  rw [EStateM.bind]
  cases hxm : x m with
  | ok b m₁ =>
    rw [hxm] at hm
    exact hf b m₁ a v hm
  | error e m₁ =>
    rw [hxm] at hm
    exact hm

lemma nested {limit : Option ℕ} {x : EvalM α} (hx : KeepsCells x) :
    KeepsCells (EvalM.nested limit x) := by
  intro m a v hv
  rcases nested_cases limit x m with ⟨l, -, hl⟩ | ⟨m', hm', hcases⟩
  · rwa [hl]
  · have hm := hx m' a v (hm' ▸ hv)
    rcases hcases with ⟨b, m₁, m₂, hxm, hn, hheap⟩ | ⟨e, m₁, m₂, hxm, hn, hheap⟩
    · rw [hxm] at hm
      rw [hn]
      exact hheap ▸ hm
    · rw [hxm] at hm
      rw [hn]
      exact hheap ▸ hm

lemma congruence : Congruence fun x _ => KeepsCells x where
  pure _ := fun _ _ _ hv => hv
  throw _ := fun _ _ _ hv => hv
  readHeap _ := fun _ _ _ hv => hv
  trace e := fun m a v hv => (congrArg (·.memo? a) (heap_trace m e)).trans hv
  record _ _ := fun _ _ _ hv => hv
  newClosure _ := fun _ _ _ hv => hv
  newBuiltin _ := fun _ _ _ hv => hv
  newThunk t env := fun m a v hv => by
    show ((m.trace _).heap.pushThunk { term := t, env }).memo? a = some v
    rwa [heap_trace, Heap.memo?_pushThunk]
  memoize a v := fun m b w hw => (Heap.Grows.memoize a v).memo? hw
  bind := bind

lemma force (limit : Option ℕ) (n : ℕ) (t : Term) :
    KeepsCells (EvalM.force (evaluate limit n) t) :=
  @Congruence.force _ congruence (evaluate limit n) (evaluate limit n)
    (fun t env => congruence.evaluate limit limit nested n t env) t

end KeepsCells

end EvalM

/-! ### Outcomes -/

/-- Forced without a limit, the thunk ends with this result. -/
def ForcesTo (m : Machine) (a : Addr) (r : EStateM.Result Halt Machine Term) : Prop :=
  EvalM.Finished EvalM.OutOfFuel r ∧ ∃ n, EvalM.force (evaluate none n) (.thunk a) m = r

/-- The same error.  Where it shows a value, the value is the same. -/
inductive SameError (h h' : Heap) : EvalError → EvalError → Prop
  | refl (e : EvalError) : SameError h h' e e
  | notAFunction {v v' : Term} : h.ShownAlike h' v v' →
      SameError h h' (.notAFunction (h.text v)) (.notAFunction (h'.text v'))
  | conditionNotInteger {v v' : Term} : h.ShownAlike h' v v' →
      SameError h h' (.conditionNotInteger (h.text v)) (.conditionNotInteger (h'.text v'))
  | expectedInteger {v v' : Term} (name : String) : h.ShownAlike h' v v' →
      SameError h h' (.expectedInteger name (h.text v)) (.expectedInteger name (h'.text v'))

/-- Those of the first `n` thunks that have values in both heaps have the same. -/
def SameCells (n : ℕ) (h h' : Heap) : Prop :=
  ∀ a < n, ∀ v v', h.memo? a = some v → h'.memo? a = some v' → h.ShownAlike h' v v'

/-- The same value or the same error, and the same values in the cells of the first `n` thunks. -/
inductive SameOutcome (n : ℕ) : EStateM.Result Halt Machine Term →
    EStateM.Result Halt Machine Term → Prop
  | ok {v v' : Term} {m m' : Machine} : m.heap.ShownAlike m'.heap v v' →
      SameCells n m.heap m'.heap → SameOutcome n (.ok v m) (.ok v' m')
  | failed {e e' : EvalError} {m m' : Machine} : SameError m.heap m'.heap e e' →
      SameCells n m.heap m'.heap → SameOutcome n (.error (.failed e) m) (.error (.failed e') m')

section Outcomes

variable {G W₁ W₂ : World} {h₁ h₂ : Heap} (hW₁ : Describes G W₁ h₁) (hW₂ : Describes G W₂ h₂)

include hW₁ hW₂

lemma Unshared.World.Describes.sameError {f : Fault} {e₁ e₂ : EvalError}
    (he₁ : Reports W₁ h₁ f e₁) (he₂ : Reports W₂ h₂ f e₂) : SameError h₁ h₂ e₁ e₂ := by
  cases he₁ with
  | plain =>
    cases he₂
    exact .refl _
  | notAFunction hv₁ =>
    obtain _ | hv₂ := he₂
    exact .notAFunction (hW₁.shownAlike hW₂ hv₁ hv₂)
  | conditionNotInteger hv₁ =>
    obtain _ | _ | hv₂ := he₂
    exact .conditionNotInteger (hW₁.shownAlike hW₂ hv₁ hv₂)
  | expectedInteger name hv₁ =>
    obtain _ | _ | _ | ⟨_, hv₂⟩ := he₂
    exact .expectedInteger name (hW₁.shownAlike hW₂ hv₁ hv₂)

/-- What a cell holds is determined by the tree of its thunk. -/
lemma Unshared.World.Describes.sameCells {n : ℕ} (hG : ∀ a < n, ∃ o, G (.thunk a) = some o) :
    SameCells n h₁ h₂ := by
  intro a ha v₁ v₂ hv₁ hv₂
  obtain ⟨o, ho⟩ := hG a ha
  obtain ⟨c₁, ρ, hc₁, rfl, -, -, hmemo₁⟩ := hW₁.thunk (hW₁.grows _ _ ho)
  obtain ⟨c₂, ρ₂, hc₂, heq, -, -, hmemo₂⟩ := hW₂.thunk (hW₂.grows _ _ ho)
  obtain ⟨hterm, rfl⟩ := Object.suspended.inj heq
  rw [Heap.memo?_eq hc₁] at hv₁
  rw [Heap.memo?_eq hc₂] at hv₂
  obtain ⟨w₁, hw₁, hval₁⟩ := hmemo₁ v₁ hv₁
  obtain ⟨w₂, hw₂, hval₂⟩ := hmemo₂ v₂ hv₂
  rw [← hterm] at hw₂
  obtain rfl := Except.ok.inj (Yields.unique (evaluate_growing G _ _) hw₁ hw₂)
  exact hW₁.shownAlike hW₂ hval₁ hval₂

end Outcomes

section Answers

variable {W : World} {n k : ℕ} {y : ℕ → Unshared.Answer} {r : EStateM.Result Halt Machine Term}

/-- A run without a limit that is not cut short has found the answer of the evaluation. -/
lemma Unshared.Answers.ends (h : Answers none n Value W y r)
    (hr : EvalM.Finished EvalM.OutOfFuel r) :
    (∃ v m w, r = .ok v m ∧ W.Value v w ∧ Yields y (.ok w)) ∨
      ∃ e m f, r = .error (.failed e) m ∧ Reports W m.heap f e ∧ Yields y (.error f) := by
  cases r with
  | ok v m =>
    obtain ⟨w, hv, hw⟩ := h
    exact Or.inl ⟨v, m, w, rfl, hv, hw⟩
  | error e m =>
    cases e with
    | missingOperand => exact h.elim
    | outOfFuel => exact absurd rfl (hr _ m rfl)
    | failed e =>
      obtain ⟨f, hf, he⟩ | ⟨l, hl, -⟩ := h
      · exact Or.inr ⟨e, m, f, rfl, he, hf⟩
      · exact absurd hl (by simp)

/-- A run without a limit is not cut short if its bound is larger than that of an answer. -/
lemma Unshared.Answers.finished {a : Except Fault Object} (h : Answers none n Value W y r)
    (ha : (y k).Gives a) (hk : k < n) : EvalM.Finished EvalM.OutOfFuel r := by
  rintro e m rfl rfl
  exact h rfl k hk a ha

lemma Unshared.Answers.sameOutcome {G W' : World} {n' c : ℕ}
    {r' : EStateM.Result Halt Machine Term} (hy : Growing y) (hW : Describes G W (after r).heap)
    (hW' : Describes G W' (after r').heap) (hG : ∀ a < c, ∃ o, G (.thunk a) = some o)
    (h : Answers none n Value W y r) (h' : Answers none n' Value W' y r')
    (hr : EvalM.Finished EvalM.OutOfFuel r) (hr' : EvalM.Finished EvalM.OutOfFuel r') :
    SameOutcome c r r' := by
  have hcells := hW.sameCells hW' hG
  obtain ⟨v, m, w, rfl, hv, hw⟩ | ⟨e, m, f, rfl, he, hf⟩ := h.ends hr
  · obtain ⟨v', m', w', rfl, hv', hw'⟩ | ⟨e', m', f', rfl, -, hf'⟩ := h'.ends hr'
    · obtain rfl := Except.ok.inj (Yields.unique hy hw hw')
      exact .ok (hW.shownAlike hW' hv hv') hcells
    · exact nomatch Yields.unique hy hw hf'
  · obtain ⟨v', m', w', rfl, -, hw'⟩ | ⟨e', m', f', rfl, he', hf'⟩ := h'.ends hr'
    · exact nomatch Yields.unique hy hf hw'
    · obtain rfl := Except.error.inj (Yields.unique hy hf hf')
      exact .failed (hW.sameError hW' he he') hcells

end Answers

/-- Over the same world, two machines end alike. -/
lemma ForcesTo.sameOutcome {G W W' : World} {m m' : Machine} {n : ℕ}
    (hW : Describes G W m.heap) (hW' : Describes G W' m'.heap)
    (hG : ∀ a < n, ∃ o, G (.thunk a) = some o) {a : Addr} (ha : a < n)
    {r : EStateM.Result Halt Machine Term} (hr : ForcesTo m a r) :
    ∃ r', ForcesTo m' a r' ∧ SameOutcome n r r' := by
  obtain ⟨o, ho⟩ := hG a ha
  obtain ⟨hfinished, k, rfl⟩ := hr
  obtain ⟨W₁, -, hW₁, -, hanswers⟩ :=
    force_matches (evaluate_follows G none k) hW (.object (hW.grows _ _ ho))
  obtain ⟨x, j, hj⟩ : ∃ x, Yields (fun k => force (Unshared.evaluate G k) o) x := by
    obtain ⟨v, m, w, -, -, hw⟩ | ⟨e, m, f, -, -, hf⟩ := hanswers.ends hfinished
    · exact ⟨_, hw⟩
    · exact ⟨_, hf⟩
  -- a bound that is enough for the evaluation is enough for the machine
  obtain ⟨W₂, -, hW₂, -, hanswers'⟩ :=
    force_matches (evaluate_follows G none (j + 1)) hW' (.object (hW'.grows _ _ ho))
  have hfinished' := hanswers'.finished hj (Nat.lt_succ_self j)
  exact ⟨_, ⟨hfinished', j + 1, rfl⟩, hanswers.sameOutcome (force_growing G o) hW₁ hW₂ hG hanswers'
    hfinished hfinished'⟩

/-- Forcing a thunk fails only if it has no value and its evaluation fails. -/
lemma failed_force {ev : Evaluator} {a : Addr} {m m' : Machine} {e : Halt}
    (hfail : EvalM.force ev (.thunk a) m = .error e m') :
    m.heap.memo? a = none ∧ ∃ m₁ : Machine, m₁.heap = m.heap ∧
      ev (m.heap.thunk a).term (m.heap.thunk a).env m₁ = .error e m' := by
  change EvalM.forceThunk ev a m = .error e m' at hfail
  cases hmemo : m.heap.memo? a with
  | some v =>
    rw [EvalM.forceThunk_of_memo? hmemo] at hfail
    cases hfail
  | none =>
    rw [EvalM.forceThunk_of_unforced ev (by rw [Heap.memo_thunk, hmemo])] at hfail
    change EStateM.bind _ _ _ = _ at hfail
    rw [EStateM.bind] at hfail
    refine ⟨rfl, m.trace fun h => .forcing a (h.text (m.heap.thunk a).term),
      EvalM.heap_trace m _, ?_⟩
    cases hx : ev (m.heap.thunk a).term (m.heap.thunk a).env
        (m.trace fun h => .forcing a (h.text (m.heap.thunk a).term)) with
    | ok v m₁ =>
      rw [hx] at hfail
      cases hfail
    | error e₁ m₁ =>
      rw [hx] at hfail
      exact hfail

/-- A thunk whose evaluation fails has not been forced on the way. -/
lemma memo?_of_failed_force {G W : World} {m m' : Machine} (hW : Describes G W m.heap) {a : Addr}
    {o : Object} (ha : G (.thunk a) = some o) {limit : Option ℕ} {n : ℕ} {e : Halt}
    (hfail : EvalM.force (evaluate limit n) (.thunk a) m = .error e m') :
    m'.heap.memo? a = none := by
  obtain ⟨hnone, m₁, hm₁, hev⟩ := failed_force hfail
  obtain ⟨c, ρ, hc, rfl, hterm, henv, -⟩ := hW.thunk (hW.grows _ _ ha)
  rw [Heap.thunk_eq hc] at hev
  obtain ⟨W', hgrows, hW', hfills, -⟩ :=
    (evaluate_follows G limit n).code (hm₁.symm ▸ hW) henv hterm
  rw [hev] at hW' hfills
  rw [hm₁] at hfills
  by_contra hsome
  have ha' := hgrows _ _ (hW.grows _ _ ha)
  -- the value in the cell is an answer of the evaluation, so there is a least bound for an answer
  have hanswer : ∃ k r, (Unshared.evaluate G k c.term ρ).Gives r := by
    obtain ⟨c', ρ', hc', heq, -, -, hmemo⟩ := hW'.thunk ha'
    obtain ⟨hterm', rfl⟩ := Object.suspended.inj heq
    obtain ⟨v, hv⟩ := Option.ne_none_iff_exists'.1 hsome
    change m'.heap.thunks[a]? = some c' at hc'
    rw [Heap.memo?_eq hc'] at hv
    obtain ⟨w, ⟨k, hk⟩, -⟩ := hmemo v hv
    exact ⟨k, _, hterm' ▸ hk⟩
  classical
  obtain ⟨r, hr⟩ := Nat.find_spec hanswer
  obtain ⟨t, ρ', j, r', ht, hj, hr'⟩ := hfills _ r hr a hnone hsome
  obtain ⟨rfl, rfl⟩ := Object.suspended.inj (Option.some.inj (ha'.symm.trans ht))
  exact Nat.find_min hanswer hj ⟨r', hr'⟩

/-- Forcing a thunk of a session that fails leaves the thunk unforced and every filled cell as it
is, and forcing any thunk afterwards, without a limit, ends as it would have ended before. -/
theorem failed_force_harmless {sts : List Step} (hsts : ∀ st ∈ sts, ¬ st.Memoizes)
    {limit : Option ℕ} {tracing : Bool} {answers : List Answer} {s : Session}
    (hrun : Session.steps sts (.start .standard limit tracing) = .ok answers s) {a : Addr}
    (ha : a < s.machine.heap.thunks.size) {limit' : Option ℕ} {n : ℕ} {e : Halt} {m : Machine}
    (hfail : EvalM.force (evaluate limit' n) (.thunk a) s.machine = .error e m) :
    m.heap.memo? a = none ∧
    (∀ b v, s.machine.heap.memo? b = some v → m.heap.memo? b = some v) ∧
    ∀ b < s.machine.heap.thunks.size,
      (∀ r, ForcesTo s.machine b r →
        ∃ r', ForcesTo m b r' ∧ SameOutcome s.machine.heap.thunks.size r r') ∧
      ∀ r', ForcesTo m b r' →
        ∃ r, ForcesTo s.machine b r ∧ SameOutcome s.machine.heap.thunks.size r' r := by
  obtain ⟨G, hG⟩ := exists_describes hsts hrun
  obtain ⟨o, ho⟩ := hG.thunks a ha
  obtain ⟨W, -, hW, -, -⟩ :=
    force_matches (evaluate_follows G limit' n) hG (.object ho)
  rw [hfail] at hW
  refine ⟨memo?_of_failed_force hG ho hfail, fun b v hv => ?_, fun b hb => ⟨fun r hr => ?_, ?_⟩⟩
  · have hkeeps := EvalM.KeepsCells.force limit' n (.thunk a) s.machine b v hv
    rwa [hfail] at hkeeps
  · exact hr.sameOutcome hG hW hG.thunks hb
  · exact fun r' hr' => hr'.sameOutcome hW hG hG.thunks hb

/-- The thunks `u = 1 + 2`, `t = u / 0` and `s = \x. u`, at addresses 0, 1 and 2. -/
def sharedOperand : List Step :=
  [.term (.thunk (.apps (.var "+") [.int 1, .int 2]) .builtins) (some "u"),
    .term (.thunk (.apps (.var "/") [.kept "u", .int 0]) .builtins) (some "t"),
    .term (.thunk (.lams ["x"] (.kept "u")) .empty) (some "s")]

/-- What forcing `t` and then `s` comes to: the error, the number of thunks, the value of `u` before
and after, and how `s` is shown before and after. -/
def sharedOperandOutcome : Option (Halt × ℕ × List (Option Term) × List String) :=
  match Session.steps sharedOperand (.start .standard none false) with
  | .error _ _ => none
  | .ok _ s =>
    match EvalM.force (evaluate none 10) (.thunk 1) s.machine with
    | .ok _ _ => none
    | .error e m =>
      match EvalM.force (evaluate none 10) (.thunk 2) s.machine,
        EvalM.force (evaluate none 10) (.thunk 2) m with
      | .ok v m₁, .ok v' m₂ => some (e, s.machine.heap.thunks.size,
        [s.machine.heap.memo? 0, m.heap.memo? 0], [m₁.heap.text v, m₂.heap.text v'])
      | _, _ => none

/-- Forcing `t` forces `u` before it fails; `s` is a function, which is shown with `u` in it. -/
lemma sharedOperand_run : ∃ answers s m v m₁ v' m₂,
    Session.steps sharedOperand (.start .standard none false) = .ok answers s ∧
    s.machine.heap.thunks.size = 3 ∧
    EvalM.force (evaluate none 10) (.thunk 1) s.machine = .error (.failed .divisionByZero) m ∧
    s.machine.heap.memo? 0 = none ∧ m.heap.memo? 0 = some (.int 3) ∧
    EvalM.force (evaluate none 10) (.thunk 2) s.machine = .ok v m₁ ∧
    EvalM.force (evaluate none 10) (.thunk 2) m = .ok v' m₂ ∧
    m₁.heap.text v = "<closure (\\x. <thunk>)>" ∧ m₂.heap.text v' = "<closure (\\x. 3)>" := by
  have hcheck : sharedOperandOutcome = some (Halt.failed .divisionByZero, 3,
      [none, some (.int 3)], ["<closure (\\x. <thunk>)>", "<closure (\\x. 3)>"]) := by
    decide +kernel
  rw [sharedOperandOutcome] at hcheck
  cases hrun : Session.steps sharedOperand (.start .standard none false) with
  | error e s =>
    rw [hrun] at hcheck
    cases hcheck
  | ok answers s =>
    rw [hrun] at hcheck
    dsimp only at hcheck
    cases hforce : EvalM.force (evaluate none 10) (.thunk 1) s.machine with
    | ok v m =>
      rw [hforce] at hcheck
      cases hcheck
    | error e m =>
      rw [hforce] at hcheck
      dsimp only at hcheck
      split at hcheck
      · rename_i v m₁ v' m₂ hv hv'
        simp only [Option.some.injEq, Prod.mk.injEq, List.cons.injEq, and_true] at hcheck
        obtain ⟨rfl, hsize, ⟨hbefore, hafter⟩, htext, htext'⟩ := hcheck
        exact ⟨answers, s, m, v, m₁, v', m₂, rfl, hsize, hforce, hbefore, hafter, hv, hv', htext,
          htext'⟩
      · cases hcheck

theorem failed_force_harmless_sharedOperand : ∃ answers s m,
    Session.steps sharedOperand (.start .standard none false) = .ok answers s ∧
    1 < s.machine.heap.thunks.size ∧
    EvalM.force (evaluate none 10) (.thunk 1) s.machine = .error (.failed .divisionByZero) m ∧
    s.machine.heap.memo? 0 = none ∧ m.heap.memo? 0 = some (.int 3) ∧ m.heap.memo? 1 = none ∧
    (∀ b v, s.machine.heap.memo? b = some v → m.heap.memo? b = some v) ∧
    ∀ b < s.machine.heap.thunks.size,
      (∀ r, ForcesTo s.machine b r →
        ∃ r', ForcesTo m b r' ∧ SameOutcome s.machine.heap.thunks.size r r') ∧
      ∀ r', ForcesTo m b r' →
        ∃ r, ForcesTo s.machine b r ∧ SameOutcome s.machine.heap.thunks.size r' r := by
  obtain ⟨answers, s, m, -, -, -, -, hrun, hsize, hfail, hbefore, hafter, -⟩ := sharedOperand_run
  have hsts : ∀ st ∈ sharedOperand, ¬ st.Memoizes := by simp [sharedOperand, Step.Memoizes]
  have hlt : 1 < s.machine.heap.thunks.size := by omega
  exact ⟨answers, s, m, hrun, hlt, hfail, hbefore, hafter,
    failed_force_harmless hsts hrun hlt hfail⟩

/-- A function is shown with the value of a thunk that has been forced in the meantime. -/
theorem force_text_differs : ∃ answers s m v m₁ v' m₂,
    Session.steps sharedOperand (.start .standard none false) = .ok answers s ∧
    EvalM.force (evaluate none 10) (.thunk 1) s.machine = .error (.failed .divisionByZero) m ∧
    2 < s.machine.heap.thunks.size ∧ ForcesTo s.machine 2 (.ok v m₁) ∧ ForcesTo m 2 (.ok v' m₂) ∧
    m₁.heap.text v = "<closure (\\x. <thunk>)>" ∧ m₂.heap.text v' = "<closure (\\x. 3)>" := by
  obtain ⟨answers, s, m, v, m₁, v', m₂, hrun, hsize, hfail, -, -, hv, hv', htext, htext'⟩ :=
    sharedOperand_run
  refine ⟨answers, s, m, v, m₁, v', m₂, hrun, hfail, by omega, ⟨?_, 10, hv⟩, ⟨?_, 10, hv'⟩, htext,
    htext'⟩
  · exact fun e m' heq => nomatch heq
  · exact fun e m' heq => nomatch heq

end Letrec
