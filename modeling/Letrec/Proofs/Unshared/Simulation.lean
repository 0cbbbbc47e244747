import Mathlib
import Letrec.Proofs.Evaluation.Once
import Letrec.Proofs.Unshared.World

/-!
# The machine does what evaluation without memo cells does

`Matches` compares a run of the machine with an evaluation without memo cells, however the run ends:
with a value, with an error, at a limit or cut short.  In any case the heap that it leaves is again
described, so a run that fails leaves only true values in the memo cells.  A value or an error is
also that of the evaluation, and without a limit a run is cut short only if the evaluation has no
answer within the bound of the machine.  Lastly, the cells that have been filled in the meantime
need smaller bounds than the evaluation itself (`Fills`); so a thunk is not filled while it is being
forced.

There is one lemma for each way of putting computations together, and then one for each rule.
-/

namespace Letrec.Unshared

open World

variable {α β γ δ : Type}

/-- The machine that a run has left. -/
def after : EStateM.Result Halt Machine α → Machine
  | .ok _ m | .error _ m => m

/-- What a fault looks like on the machine. -/
inductive Reports (W : World) (h : Heap) : Fault → EvalError → Prop
  | plain (e : EvalError) : Reports W h (.plain e) e
  | notAFunction {v w} : W.Value v w → Reports W h (.notAFunction w) (.notAFunction (h.text v))
  | conditionNotInteger {v w} : W.Value v w →
      Reports W h (.conditionNotInteger w) (.conditionNotInteger (h.text v))
  | expectedInteger {v w} (name : String) : W.Value v w →
      Reports W h (.expectedInteger name w) (.expectedInteger name (h.text v))

/-- If the evaluation ends within a bound, the thunks that got their values between the two heaps
have answers within a bound that is smaller, up to `s`. -/
def Fills (G W : World) (s : ℕ) (h h' : Heap) (y : ℕ → Partial Fault β) : Prop :=
  ∀ k r, (y k).Gives r → ∀ a, h.memo? a = none → h'.memo? a ≠ none →
    ∃ t ρ j r', W (.thunk a) = some (.suspended t ρ) ∧ j < k + s ∧ (evaluate G j t ρ).Gives r'

/-- The result of a run is one of the evaluation, or it is that of the limit, or the run was cut
short before the evaluation ends. -/
def Answers (limit : Option ℕ) (n : ℕ) (R : World → α → β → Prop) (W : World)
    (y : ℕ → Partial Fault β) : EStateM.Result Halt Machine α → Prop
  | .ok a _ => ∃ b, R W a b ∧ Yields y (.ok b)
  | .error (.failed e) m =>
    (∃ f, Yields y (.error f) ∧ Reports W m.heap f e) ∨ ∃ l, limit = some l ∧ e = .recursionLimit l
  | .error .missingOperand _ => False
  | .error .outOfFuel _ => limit = none → ∀ k < n, ∀ r, ¬ (y k).Gives r

/-- The run does what the evaluation does, and leaves a heap that is described. -/
def Matches (G : World) (limit : Option ℕ) (n s : ℕ) (R : World → α → β → Prop) (W : World)
    (m : Machine) (x : EvalM α) (y : ℕ → Partial Fault β) : Prop :=
  ∃ W', W.Grows W' ∧ Describes G W' (after (x m)).heap ∧
    Fills G W' s m.heap (after (x m)).heap y ∧ Answers limit n R W' y (x m)

/-! ### Putting runs together -/

section Combine

variable {G W W' : World} {limit : Option ℕ} {n s s' : ℕ} {R : World → α → β → Prop}
  {R' : World → γ → δ → Prop} {m m' : Machine} {x : EvalM α} {y : ℕ → Partial Fault β}

lemma Fills.refl (h : Heap) : Fills G W s h h y := fun _ _ _ _ hnone hsome => absurd hnone hsome

lemma Fills.mono {h h' : Heap} (hs : s ≤ s') (hW : W.Grows W') (hfills : Fills G W s h h' y) :
    Fills G W' s' h h' y := by
  intro k r hr a hnone hsome
  obtain ⟨t, ρ, j, r', ha, hj, hr'⟩ := hfills k r hr a hnone hsome
  exact ⟨t, ρ, j, r', hW _ _ ha, by omega, hr'⟩

/-- Where one evaluation has an answer only if another one has, with what is left of the bounds
accounted for, the cells that the other fills are its own. -/
lemma Fills.imp {y' : ℕ → Partial Fault δ} {h h' : Heap} (hfills : Fills G W s h h' y)
    (hy : ∀ k r, (y' k).Gives r → ∃ j r', (y j).Gives r' ∧ j + s ≤ k + s') :
    Fills G W s' h h' y' := by
  intro k r hr a hnone hsome
  obtain ⟨j, r', hr', hj⟩ := hy k r hr
  obtain ⟨t, ρ, i, r'', ha, hi, hr''⟩ := hfills j r' hr' a hnone hsome
  exact ⟨t, ρ, i, r'', ha, by omega, hr''⟩

lemma Fills.trans {h₁ h₂ h₃ : Heap} (h₁₂ : Fills G W s h₁ h₂ y) (h₂₃ : Fills G W s h₂ h₃ y) :
    Fills G W s h₁ h₃ y := by
  intro k r hr a hnone hsome
  by_cases hmid : h₂.memo? a = none
  · exact h₂₃ k r hr a hmid hsome
  · exact h₁₂ k r hr a hnone hmid

/-- An error is one of another evaluation too if that evaluation passes errors on and takes at least
the same bounds. -/
lemma Answers.error {n' : ℕ} {y' : ℕ → Partial Fault δ} {e : Halt} {m₁ m₂ : Machine}
    (h : Answers limit n R W y (.error e m₁)) (hheap : m₂.heap = m₁.heap)
    (hfault : ∀ f, Yields y (.error f) → Yields y' (.error f))
    (hcut : ∀ k < n', ∀ r, (y' k).Gives r → ∃ j < n, ∃ r', (y j).Gives r') :
    Answers limit n' R' W y' (.error e m₂) := by
  cases e with
  | missingOperand => exact h
  | outOfFuel =>
    intro hlimit k hk r hr
    obtain ⟨j, hj, r', hr'⟩ := hcut k hk r hr
    exact h hlimit j hj r' hr'
  | failed e =>
    refine h.imp_left ?_
    rintro ⟨f, hf, hreports⟩
    exact ⟨f, hfault f hf, hheap ▸ hreports⟩

lemma Matches.mono (hs : s ≤ s') (h : Matches G limit n s R W m x y) :
    Matches G limit n s' R W m x y := by
  obtain ⟨W₁, hgrows, hdescribes, hfills, hanswers⟩ := h
  exact ⟨W₁, hgrows, hdescribes, hfills.mono hs (.refl W₁), hanswers⟩

/-- A run that ends with a value and fills no cell. -/
lemma Matches.of_ok {a : α} {b : β} (hx : x m = .ok a m') (hgrows : W.Grows W')
    (hW : Describes G W' m'.heap) (hmemo : ∀ c, m'.heap.memo? c = m.heap.memo? c)
    (hR : R W' a b) (hy : Yields y (.ok b)) : Matches G limit n s R W m x y := by
  refine ⟨W', hgrows, ?_, ?_, ?_⟩
  · rwa [hx]
  · rw [hx]
    intro k r _ c hnone hsome
    exact absurd ((hmemo c).trans hnone) hsome
  · rw [hx]
    exact ⟨b, hR, hy⟩

/-- A run that is stopped by the limit at once. -/
lemma Matches.of_limit {l : ℕ} (hl : limit = some l)
    (hx : x m = .error (.failed (.recursionLimit l)) m) (hW : Describes G W m.heap) :
    Matches G limit n s R W m x y := by
  refine ⟨W, .refl W, ?_, ?_, ?_⟩
  · rwa [hx]
  · rw [hx]
    exact .refl _
  · rw [hx]
    exact Or.inr ⟨l, hl, rfl⟩

lemma Matches.pure {a : α} {b : β} (hW : Describes G W m.heap) (hR : R W a b) :
    Matches G limit n s R W m (pure a) (fun _ => pure b) :=
  .of_ok rfl (.refl W) hW (fun _ => rfl) hR (Yields.const_iff.2 (Partial.pure_gives.2 rfl))

lemma Matches.fail {e : EvalError} {f : Fault} (hW : Describes G W m.heap)
    (he : Reports W m.heap f e) :
    Matches G limit n s R W m (EvalM.fail e : EvalM α) (fun _ => throw f) :=
  ⟨W, .refl W, hW, .refl _,
    Or.inl ⟨f, Yields.const_iff.2 (Partial.throw_gives.2 rfl), he⟩⟩

/-- A step that ends with a value and fills no cell, before a run. -/
lemma Matches.after {f : α → EvalM γ} {y : ℕ → Partial Fault δ} {a : α} (hx : x m = .ok a m')
    (hgrows : W.Grows W') (hmemo : ∀ c, m'.heap.memo? c = m.heap.memo? c)
    (h : Matches G limit n s R' W' m' (f a) y) : Matches G limit n s R' W m (x >>= f) y := by
  have hbind : (x >>= f) m = f a m' := by
    show EStateM.bind x f m = _
    rw [EStateM.bind, hx]
  obtain ⟨W₁, hgrows₁, hdescribes, hfills, hanswers⟩ := h
  unfold Matches
  rw [hbind]
  refine ⟨W₁, hgrows.trans hgrows₁, hdescribes, fun k r hr c hnone => ?_, hanswers⟩
  exact hfills k r hr c ((hmemo c).trans hnone)

lemma Matches.readHeap {f : α → EvalM γ} {y : ℕ → Partial Fault δ} {g : Heap → α}
    (h : Matches G limit n s R' W m (f (g m.heap)) y) :
    Matches G limit n s R' W m (EvalM.readHeap g >>= f) y :=
  .after rfl (.refl W) (fun _ => rfl) h

lemma Matches.trace {f : PUnit → EvalM γ} {y : ℕ → Partial Fault δ} {e : Heap → Event}
    (h : ∀ m' : Machine, m'.heap = m.heap → Matches G limit n s R' W m' (f ⟨⟩) y) :
    Matches G limit n s R' W m (modify (·.trace e) >>= f) y :=
  .after rfl (.refl W) (fun c => by rw [EvalM.heap_trace]) (h _ (EvalM.heap_trace m e))

/-- A run and what is done with its value. -/
lemma Matches.bind {f : α → EvalM γ} {g : ℕ → β → Partial Fault δ} (hy : Growing y)
    (hg : ∀ b, Growing (g · b)) (h : Matches G limit n s R W m x y)
    (hf : ∀ W' m' a b, W.Grows W' → Describes G W' m'.heap → R W' a b →
      Matches G limit n s R' W' m' (f a) (g · b)) :
    Matches G limit n s R' W m (x >>= f) (fun k => y k >>= g k) := by
  obtain ⟨W₁, hgrows₁, hW₁, hfills₁, hanswers₁⟩ := h
  -- if the whole evaluation ends, so does its first half, within the same bound
  have hfirst : ∀ k r, (y k >>= g k).Gives r → ∃ r', (y k).Gives r' :=
    fun k r hr => Partial.gives_of_bind hr
  have hbind : (x >>= f) m = EStateM.bind x f m := rfl
  cases hx : x m with
  | error e m₁ =>
    have hbind' : (x >>= f) m = .error e m₁ := by rw [hbind, EStateM.bind, hx]
    rw [hx] at hW₁ hfills₁ hanswers₁
    unfold Matches
    rw [hbind']
    refine ⟨W₁, hgrows₁, hW₁, hfills₁.imp fun k r hr => ?_,
      hanswers₁.error rfl (fun f' hf' => ?_) fun k hk r hr => ⟨k, hk, hfirst k r hr⟩⟩
    · obtain ⟨r', hr'⟩ := hfirst k r hr
      exact ⟨k, r', hr', le_rfl⟩
    · exact (Yields.bind_iff hy hg).2 (Or.inr ⟨f', hf', rfl⟩)
  | ok a m₁ =>
    have hbind' : (x >>= f) m = f a m₁ := by rw [hbind, EStateM.bind, hx]
    rw [hx] at hW₁ hfills₁ hanswers₁
    obtain ⟨b, hR, hyields⟩ := hanswers₁
    obtain ⟨W₂, hgrows₂, hW₂, hfills₂, hanswers₂⟩ := hf W₁ m₁ a b hgrows₁ hW₁ hR
    -- the first half has the value `b`, so the second half begins with it
    have hsecond : ∀ k r, (y k >>= g k).Gives r → (g k b).Gives r := by
      intro k r hr
      rcases Partial.bind_gives.1 hr with ⟨b', hb', hr⟩ | ⟨e, he, -⟩
      · obtain rfl := Except.ok.inj (Yields.unique hy ⟨k, hb'⟩ hyields)
        exact hr
      · exact absurd (Yields.unique hy ⟨k, he⟩ hyields) (by simp)
    have hwhole : ∀ r, Yields (g · b) r → Yields (fun k => y k >>= g k) r :=
      fun r hr => (Yields.bind_iff hy hg).2 (Or.inl ⟨b, hyields, hr⟩)
    unfold Matches
    rw [hbind']
    refine ⟨W₂, hgrows₁.trans hgrows₂, hW₂, .trans ((hfills₁.mono le_rfl hgrows₂).imp ?_)
      (hfills₂.imp fun k r hr => ⟨k, r, hsecond k r hr, le_rfl⟩), ?_⟩
    · intro k r hr
      obtain ⟨r', hr'⟩ := hfirst k r hr
      exact ⟨k, r', hr', le_rfl⟩
    · cases hfa : f a m₁ with
      | ok v m₂ =>
        rw [hfa] at hanswers₂
        obtain ⟨w, hw, hyields'⟩ := hanswers₂
        exact ⟨w, hw, hwhole _ hyields'⟩
      | error e m₂ =>
        rw [hfa] at hanswers₂
        exact hanswers₂.error rfl (fun f' => hwhole _)
          fun k hk r hr => ⟨k, hk, r, hsecond k r hr⟩

/-- Only the depth is not the same when an evaluation has been counted, or it has not started. -/
lemma nested_cases (limit : Option ℕ) (x : EvalM α) (m : Machine) :
    (∃ l, limit = some l ∧ EvalM.nested limit x m = .error (.failed (.recursionLimit l)) m) ∨
    ∃ m' : Machine, m'.heap = m.heap ∧
      ((∃ a m₁ m₂, x m' = .ok a m₁ ∧ EvalM.nested limit x m = .ok a m₂ ∧ m₂.heap = m₁.heap) ∨
        ∃ e m₁ m₂, x m' = .error e m₁ ∧ EvalM.nested limit x m = .error e m₂ ∧
          m₂.heap = m₁.heap) := by
  unfold EvalM.nested
  cases hl : limit.filter (· ≤ m.depth) with
  | some l => exact Or.inl ⟨l, (Option.filter_eq_some_iff.1 hl).1, rfl⟩
  | none =>
    refine Or.inr ⟨{ m with depth := m.depth + 1, peak := max m.peak (m.depth + 1) }, rfl, ?_⟩
    dsimp only
    cases x { m with depth := m.depth + 1, peak := max m.peak (m.depth + 1) } with
    | ok a m₁ => exact Or.inl ⟨a, m₁, _, rfl, rfl, rfl⟩
    | error e m₁ => exact Or.inr ⟨e, m₁, _, rfl, rfl, rfl⟩

/-- Counting an evaluation takes one unit of both bounds. -/
lemma Matches.nested {y' : ℕ → Partial Fault β} (hy₀ : ∀ r, ¬ (y' 0).Gives r)
    (hy : ∀ k, y' (k + 1) = y k) (hW : Describes G W m.heap)
    (h : ∀ m' : Machine, m'.heap = m.heap → Matches G limit n (s + 1) R W m' x y) :
    Matches G limit (n + 1) s R W m (EvalM.nested limit x) y' := by
  -- an answer of `y'` is one of `y` within a bound that is one smaller
  have hsucc : ∀ k r, (y' k).Gives r → ∃ j, k = j + 1 ∧ (y j).Gives r := by
    intro k r hr
    cases k with
    | zero => exact absurd hr (hy₀ r)
    | succ j => exact ⟨j, rfl, hy j ▸ hr⟩
  have hyields : ∀ r, Yields y r → Yields y' r := fun r => (Yields.succ_iff hy₀ hy).2
  have hfills : ∀ {W₁ : World} {h₁ : Heap}, Fills G W₁ (s + 1) m.heap h₁ y →
      Fills G W₁ s m.heap h₁ y' := by
    intro W₁ h₁ hf
    refine hf.imp fun k r hr => ?_
    obtain ⟨j, rfl, hj⟩ := hsucc k r hr
    exact ⟨j, r, hj, by omega⟩
  rcases nested_cases limit x m with ⟨l, hl, hx⟩ | ⟨m', hm', hx⟩
  · exact .of_limit hl hx hW
  · obtain ⟨W₁, hgrows, hW₁, hfills₁, hanswers⟩ := h m' hm'
    rw [hm'] at hfills₁
    unfold Matches
    rcases hx with ⟨a, m₁, m₂, hx, hnested, hheap⟩ | ⟨e, m₁, m₂, hx, hnested, hheap⟩
    · rw [hx] at hW₁ hfills₁ hanswers
      rw [hnested]
      obtain ⟨b, hR, hb⟩ := hanswers
      refine ⟨W₁, hgrows, ?_, hfills ?_, b, hR, hyields _ hb⟩
      · exact hheap ▸ hW₁
      · exact hheap ▸ hfills₁
    · rw [hx] at hW₁ hfills₁ hanswers
      rw [hnested]
      refine ⟨W₁, hgrows, hheap ▸ hW₁, hfills (hheap ▸ hfills₁),
        hanswers.error hheap (fun f => hyields _) fun k hk r hr => ?_⟩
      obtain ⟨j, rfl, hj⟩ := hsucc k r hr
      exact ⟨j, by omega, r, hj⟩

/-- The value of a thunk is stored once it has been computed. -/
lemma Matches.memoize {a : Addr} {t : Term} {ρ : Env} {x : EvalM Term}
    (ha : W (.thunk a) = some (.suspended t ρ))
    (h : Matches G limit n 0 Value W m x (fun k => evaluate G k t ρ)) :
    Matches G limit n 1 Value W m (x >>= fun v => modifyGet (·.memoize a v))
      (fun k => evaluate G k t ρ) := by
  obtain ⟨W₁, hgrows, hW₁, hfills, hanswers⟩ := h
  have ha₁ := hgrows _ _ ha
  have hbind : (x >>= fun v => modifyGet (·.memoize a v)) m
      = EStateM.bind x (fun v => modifyGet (·.memoize a v)) m := rfl
  unfold Matches
  cases hx : x m with
  | error e m₁ =>
    rw [hx] at hW₁ hfills hanswers
    rw [hbind, EStateM.bind, hx]
    refine ⟨W₁, hgrows, hW₁, hfills.mono (Nat.zero_le 1) (.refl W₁), ?_⟩
    cases e <;> exact hanswers
  | ok v m₁ =>
    rw [hx] at hW₁ hfills hanswers
    change Describes G W₁ m₁.heap at hW₁
    obtain ⟨w, hv, hw⟩ := hanswers
    have hmemoize : (x >>= fun v => modifyGet (·.memoize a v)) m
        = .ok ((m₁.heap.memo? a).getD v) { m₁ with heap := m₁.heap.memoize a v } := by
      rw [hbind, EStateM.bind, hx]
      rfl
    rw [hmemoize]
    refine ⟨W₁, hgrows, hW₁.memoize ha₁ hw hv, ?_, ?_⟩
    · intro k r hr c hnone hsome
      by_cases hca : a = c
      · subst hca
        exact ⟨t, ρ, k, r, ha₁, by omega, hr⟩
      · have hsome' : m₁.heap.memo? c ≠ none := by
          intro hnone'
          exact hsome ((Heap.memo?_memoize _ _ _ _).trans ((if_neg hca).trans hnone'))
        exact hfills.mono (Nat.zero_le 1) (.refl W₁) k r hr c hnone hsome'
    · -- the thunk may have been forced on the way; then it keeps the value it got there
      show ∃ b, W₁.Value ((m₁.heap.memo? a).getD v) b ∧ _
      cases hmemo : m₁.heap.memo? a with
      | none => exact ⟨w, hv, hw⟩
      | some u =>
        obtain ⟨c, ρ', hc, heq, -, -, hmemo'⟩ := hW₁.thunk ha₁
        obtain ⟨rfl, rfl⟩ := Object.suspended.inj heq
        rw [Heap.memo?_eq hc] at hmemo
        obtain ⟨w', hw', hu⟩ := hmemo' u hmemo
        exact ⟨w', hu, hw'⟩

end Combine

/-! ### Rules -/

/-- An evaluator does with terms what evaluation without memo cells does, and it returns values as
they are. -/
structure Follows (G : World) (limit : Option ℕ) (n : ℕ) (ev : Evaluator) : Prop where
  code : ∀ {W : World} {m : Machine} {t : Term} {env : Letrec.Env} {ρ : Env},
    Describes G W m.heap → DenotesEnv G W env ρ → G.Knows t →
    Matches G limit n 0 Value W m (ev t env) (fun k => evaluate G k t ρ)
  value : ∀ {W : World} {m : Machine} {v : Term} {w : Object} (env : Letrec.Env),
    Describes G W m.heap → W.Value v w →
    Matches G limit n 0 Value W m (ev v env) (fun _ => pure w)

section Rules

variable {G W : World} {limit : Option ℕ} {n : ℕ} {ev : Evaluator} (hev : Follows G limit n ev)
  {m : Machine} (hW : Describes G W m.heap)

/-! ### Forcing -/

include hev hW

lemma forceThunk_matches {a : Addr} {o : Object} (ha : W (.thunk a) = some o) :
    Matches G limit n 1 Value W m (EvalM.forceThunk ev a) (fun k => force (evaluate G k) o) := by
  obtain ⟨c, ρ, hc, rfl, ht, henv, hmemo⟩ := hW.thunk ha
  unfold EvalM.forceThunk
  refine .readHeap ?_
  rw [Heap.thunk_eq hc]
  cases hv : c.memo with
  | some v =>
    obtain ⟨w, hw, hval⟩ := hmemo v hv
    exact .of_ok rfl (.refl W) hW (fun _ => rfl) hval hw
  | none =>
    refine .trace fun m' hm' => ?_
    exact (hev.code (hm'.symm ▸ hW) henv ht).memoize ha

lemma object_matches {t : Term} {o : Object} (ht : W t = some o) (hval : o.IsValue)
    (env : Letrec.Env) :
    Matches G limit n 1 Value W m (ev t env) (fun k => force (evaluate G k) o) := by
  have h := (hev.value env hW ⟨ht, hval⟩).mono (Nat.zero_le 1)
  cases o with
  | int v => exact h
  | closure x b ρ => exact h
  | builtin p args => exact h
  | suspended u ρ => exact hval.elim
  | raw u => exact hval.elim

lemma force_matches {t : Term} {o : Object} (ht : Denotes G W t o) :
    Matches G limit n 1 Value W m (EvalM.force ev t) (fun k => force (evaluate G k) o) := by
  cases ht with
  | object ho =>
    cases hW.object t o ho with
    | thunk => exact forceThunk_matches hev hW ho
    | int v => exact object_matches hev hW ho trivial []
    | closure => exact object_matches hev hW ho trivial []
    | builtin => exact object_matches hev hW ho trivial []
  | raw hready hknows =>
    have hcode := (hev.code hW .nil hknows).mono (Nat.zero_le 1)
    cases t with
    | thunk a => exact absurd hready (by simp [Term.isReady])
    | _ => exact hcode

/-! ### Operations -/

omit hev in
/-- A value that has to be an integer. -/
lemma asInt_matches {R : World → α → β → Prop} {s : ℕ} {v : Term} {w : Object}
    (hv : W.Value v w) {otherwise : String → EvalError} {fault : Object → Fault}
    (hfault : Reports W m.heap (fault w) (otherwise (m.heap.text v))) {next : Int64 → EvalM α}
    {g : ℕ → Int64 → Partial Fault β}
    (hnext : ∀ i, Matches G limit n s R W m (next i) (g · i)) :
    Matches G limit n s R W m
      (EvalM.readHeap (·.asInt? v) >>= fun i => match i with
        | some i => next i
        | none => EvalM.readHeap (·.text v) >>= fun found => EvalM.fail (otherwise found))
      (fun k => w.toInt fault >>= g k) := by
  refine .readHeap ?_
  cases hW.object v w hv.1 with
  | int i => exact hnext i
  | closure => exact .readHeap (.fail hW hfault)
  | builtin => exact .readHeap (.fail hW hfault)
  | thunk => exact hv.2.elim

lemma forceInt_matches {t : Term} {o : Object} (ht : Denotes G W t o)
    {otherwise : String → EvalError} {fault : Object → Fault}
    (hfault : ∀ {W : World} {h : Heap} {v w}, W.Value v w →
      Reports W h (fault w) (otherwise (h.text v)))
    {next : Int64 → Action} {g : ℕ → Int64 → Answer} (hg : ∀ i, Growing (g · i))
    (hnext : ∀ i W' m', W.Grows W' → Describes G W' m'.heap →
      Matches G limit n 1 Value W' m' (EvalM.perform ev (next i)) (g · i)) :
    Matches G limit n 1 Value W m
      (EvalM.perform ev (.force t fun v => .asInt v otherwise next))
      (fun k => force (evaluate G k) o >>= fun w => w.toInt fault >>= g k) := by
  refine .bind (force_growing G o) (fun w => (growing_const _).bind hg)
    (force_matches hev hW ht) fun W' m' v w hgrows hW' hv => ?_
  simp only [EvalM.perform]
  exact asInt_matches hW' hv (hfault hv) fun i => hnext i W' m' hgrows hW'

lemma integer_matches {t : Term} {o : Object} (ht : Denotes G W t o) (name : String) :
    Matches G limit n 1 (fun _ i j => i = j) W m (EvalM.forceInt ev name t)
      (fun k => force (evaluate G k) o >>= fun w => w.toInt (.expectedInteger name) >>= pure) := by
  refine .bind (force_growing G o) (fun w => growing_const _)
    (force_matches hev hW ht) fun W' m' v w hgrows hW' hv => ?_
  exact asInt_matches hW' hv (.expectedInteger name hv) fun i => .pure hW' rfl

lemma operation_matches (p : Primitive) {ts : List Term} {os : List Object}
    (hargs : List.Forall₂ (Denotes G W) ts os) (hlen : os.length = p.arity) :
    Matches G limit n 1 Value W m (EvalM.perform ev (p.operation ts))
      (fun k => operate (evaluate G k) p os) := by
  cases p with
  | binary name f =>
    obtain ⟨o, o', rfl⟩ := List.length_eq_two.1 hlen
    rcases hargs with _ | ⟨ha, _ | ⟨hb, _ | _⟩⟩
    refine forceInt_matches hev hW ha (.expectedInteger name) (fun x => ?_)
      fun x W₁ m₁ hgrows₁ hW₁ => ?_
    · exact (force_growing G o').bind fun w => (growing_const _).bind fun y => growing_const _
    · refine forceInt_matches hev hW₁ (hb.mono (.refl G) hgrows₁) (.expectedInteger name)
        (fun y => growing_const _) fun y W₂ m₂ hgrows₂ hW₂ => ?_
      dsimp only
      cases f x y with
      | ok v => exact .pure hW₂ ⟨hW₂.int v, trivial⟩
      | error e => exact .fail hW₂ (.plain e)
  | conditional =>
    obtain ⟨oc, op, on, rfl⟩ := List.length_eq_three.1 hlen
    rcases hargs with _ | ⟨hc, _ | ⟨hp, _ | ⟨hn, _ | _⟩⟩⟩
    refine forceInt_matches hev hW hc .conditionNotInteger (fun i => force_growing G _)
      fun i W₁ m₁ hgrows₁ hW₁ => ?_
    rename_i c p q
    have hbranch : Denotes G W₁ (if i ≠ 0 then p else q) (if i ≠ 0 then op else on) := by
      split_ifs
      · exact hp.mono (.refl G) hgrows₁
      · exact hn.mono (.refl G) hgrows₁
    have hperform : EvalM.perform ev (.force (if i ≠ 0 then p else q) .done)
        = EvalM.force ev (if i ≠ 0 then p else q) := by
      simp only [EvalM.perform]
      exact bind_pure _
    rw [hperform]
    exact force_matches hev hW₁ hbranch

/-! ### Calls -/

lemma supply_matches {a : Addr} {p : Primitive} {args os : List Object} {ts : List Term}
    (ha : W (.builtin a) = some (.builtin p args)) (hts : List.Forall₂ (Denotes G W) ts os) :
    Matches G limit n 1 Value W m (EvalM.applyBuiltin ev a ts)
      (fun k => supply (evaluate G k) p (args ++ os)) := by
  obtain ⟨p', supplied, args', hb, heq, hargs⟩ := hW.builtin ha
  obtain ⟨rfl, rfl⟩ := Object.builtin.inj heq
  have hall : List.Forall₂ (Denotes G W) (supplied ++ ts) (args ++ os) := List.rel_append hargs hts
  unfold EvalM.applyBuiltin supply
  refine .readHeap ?_
  rw [Heap.builtin_eq hb]
  show Matches G limit n 1 Value W m (if p.arity < (supplied ++ ts).length then _
    else if (supplied ++ ts).length < p.arity then _ else _) _
  rw [hall.length_eq]
  split_ifs with hmany hfew
  · refine .fail hW ?_
    rw [show ((p.builtin supplied).supplied ++ ts).length = (args ++ os).length from
      hall.length_eq]
    exact .plain _
  · obtain ⟨W', hgrows, hW', hnew⟩ := hW.pushBuiltin (p := p) hall
    exact .of_ok rfl hgrows hW' (fun _ => rfl) ⟨hnew, trivial⟩
      (Yields.const_iff.2 (Partial.pure_gives.2 rfl))
  · refine .trace fun m' hm' => ?_
    exact operation_matches hev (hm'.symm ▸ hW) p hall (by omega)

lemma call_matches (k : ℕ) {f t : Term} {w o : Object} (hf : W.Value f w)
    (ht : Denotes G W t o) :
    Matches G limit n 1 Value W m (EvalM.call ev k f t) (fun k => apply (evaluate G k) w o) := by
  cases hW.object f w hf.1 with
  | int v => cases k <;> exact .readHeap (.fail hW (.notAFunction hf))
  | @closure a c ρ hc hb _ henv =>
    have hbody := (hev.code hW (henv.extend c.param ht) hb).mono (Nat.zero_le 1)
    rw [← Heap.closure_eq hc] at hbody ⊢
    cases k <;> exact .readHeap hbody
  | builtin => cases k <;> exact supply_matches hev hW hf.1 (.cons ht .nil)
  | thunk => exact hf.2.elim

lemma applyForced_matches (k : ℕ) {f : Term} {w : Object} {ts : List Term} {os : List Object}
    (hf : W.Value f w) (hts : List.Forall₂ (Denotes G W) ts os) :
    Matches G limit n 1 Value W m (EvalM.applyForced ev k f ts)
      (fun k => applyAll (evaluate G k) w os) := by
  induction ts generalizing os W m f w with
  | nil =>
    cases hts
    exact .pure hW hf
  | cons t ts ih =>
    obtain _ | @⟨_, o, _, os, ht, hts⟩ := hts
    -- a closure, and what is no function, take one argument at a time
    have hone : Matches G limit n 1 Value W m (EvalM.call ev k f t >>= fun g =>
          EvalM.applyForced ev k g ts)
        (fun k => apply (evaluate G k) w o >>= fun g => applyAll (evaluate G k) g os) := by
      refine .bind (apply_growing G w o) (fun g => applyAll_growing G g os)
        (call_matches hev hW k hf ht) fun W' m' g w' hgrows hW' hg => ?_
      exact ih hW' hg (hts.imp fun _ _ h => h.mono (.refl G) hgrows)
    cases hW.object f w hf.1 with
    | int v => exact hone
    | closure => exact hone
    | builtin => exact supply_matches hev hW hf.1 (.cons ht hts)
    | thunk => exact hf.2.elim

lemma apply_matches (k : ℕ) {f : Term} {o : Object} {ts : List Term} {os : List Object}
    (hf : Denotes G W f o) (hts : List.Forall₂ (Denotes G W) ts os) :
    Matches G limit n 1 Value W m (EvalM.apply ev k f ts)
      (fun k => force (evaluate G k) o >>= fun w => applyAll (evaluate G k) w os) := by
  refine .bind (force_growing G o) (fun w => applyAll_growing G w os) (force_matches hev hW hf)
    fun W' m' v w hgrows hW' hv => ?_
  exact applyForced_matches hev hW' k hv (hts.imp fun _ _ h => h.mono (.refl G) hgrows)

end Rules

/-! ### Terms -/

/-- An argument is suspended in the same way by both. -/
lemma suspend_ok {G W : World} {m : Machine} (hW : Describes G W m.heap) {env : Letrec.Env}
    {ρ : Env} (henv : DenotesEnv G W env ρ) {t : Term} (ht : G.Knows t) :
    ∃ u m' W' o, EvalM.suspend t env m = .ok u m' ∧ W.Grows W' ∧ Describes G W' m'.heap ∧
      (∀ c, m'.heap.memo? c = m.heap.memo? c) ∧ suspend G t ρ = some o ∧ Denotes G W' u o := by
  have hnew : ∃ u m' W', (modifyGet (·.newThunk t env) : EvalM Term) m = .ok u m' ∧
      W.Grows W' ∧ Describes G W' m'.heap ∧ (∀ c, m'.heap.memo? c = m.heap.memo? c) ∧
      Denotes G W' u (.suspended t ρ) := by
    obtain ⟨W', hgrows, hW', hthunk⟩ := hW.pushThunk ht henv
    refine ⟨_, _, W', rfl, hgrows, ?_, fun c => ?_, .object ?_⟩
    · simpa [Machine.newThunk] using hW'
    · simpa [Machine.newThunk] using m.heap.memo?_pushThunk t env c
    · simpa [Machine.newThunk] using hthunk
  have hready : ∀ o, W t = some o → EvalM.suspend t env m = .ok t m := by
    intro o ho
    rw [EvalM.suspend_of_isReady (hW.isReady ho).1]
    rfl
  cases t with
  | int v => exact ⟨_, m, W, _, rfl, .refl W, hW, fun _ => rfl, rfl, .object (hW.int v)⟩
  | closure a =>
    obtain ⟨o, ho⟩ := ht
    have ho' := hW.grows _ _ ho
    exact ⟨_, m, W, o, hready o ho', .refl W, hW, fun _ => rfl, ho, .object ho'⟩
  | thunk a =>
    obtain ⟨o, ho⟩ := ht
    have ho' := hW.grows _ _ ho
    exact ⟨_, m, W, o, hready o ho', .refl W, hW, fun _ => rfl, ho, .object ho'⟩
  | builtin a =>
    obtain ⟨o, ho⟩ := ht
    have ho' := hW.grows _ _ ho
    exact ⟨_, m, W, o, hready o ho', .refl W, hW, fun _ => rfl, ho, .object ho'⟩
  | lam x b =>
    obtain ⟨u, m', W', hok, hgrows, hW', hmemo, hu⟩ := hnew
    exact ⟨u, m', W', _, hok, hgrows, hW', hmemo, rfl, hu⟩
  | app f a =>
    obtain ⟨u, m', W', hok, hgrows, hW', hmemo, hu⟩ := hnew
    exact ⟨u, m', W', _, hok, hgrows, hW', hmemo, rfl, hu⟩
  | var x =>
    obtain ⟨u, m', W', hok, hgrows, hW', hmemo, hu⟩ := hnew
    unfold suspend
    dsimp only
    rcases henv.lookup x with ⟨hx, hρ⟩ | ⟨b, o, hx, hρ, hb⟩
    · rw [hρ, EvalM.suspend_var_of_none hx]
      exact ⟨u, m', W', _, hok, hgrows, hW', hmemo, rfl, hu⟩
    · rw [hρ]
      cases hb with
      | raw hraw _ =>
        rw [EvalM.suspend_var_of_some hx, if_neg (by simp [hraw])]
        exact ⟨u, m', W', _, hok, hgrows, hW', hmemo, rfl, hu⟩
      | object ho =>
        obtain ⟨hb, hraw⟩ := hW.isReady ho
        rw [EvalM.suspend_var_of_some hx, if_pos hb]
        refine ⟨b, m, W, o, rfl, .refl W, hW, fun _ => rfl, ?_, .object ho⟩
        cases o with
        | raw u => exact absurd rfl (hraw u)
        | _ => rfl

section Step

variable {G W : World} {limit : Option ℕ} {n : ℕ} {ev : Evaluator} (hev : Follows G limit n ev)
  {m : Machine} (hW : Describes G W m.heap)

include hev hW

/-- An object that a term mentions. -/
lemma step_object_matches (k : ℕ) {t : Term} {o : Object} (ht : W t = some o) (env : Letrec.Env) :
    Matches G limit n 1 Value W m (EvalM.step ev k t env) (fun k => force (evaluate G k) o) := by
  cases hW.object t o ht with
  | int v => exact .pure hW ⟨ht, trivial⟩
  | closure => exact .pure hW ⟨ht, trivial⟩
  | builtin => exact .pure hW ⟨ht, trivial⟩
  | thunk => exact forceThunk_matches hev hW ht

lemma step_matches (k : ℕ) {t : Term} {env : Letrec.Env} {ρ : Env}
    (henv : DenotesEnv G W env ρ) (ht : G.Knows t) :
    Matches G limit n 1 Value W m (EvalM.step ev k t env)
      (fun k => step G (evaluate G k) t ρ) := by
  cases t with
  | int v => exact .pure hW ⟨hW.int v, trivial⟩
  | lam x b =>
    obtain ⟨W', hgrows, hW', hnew⟩ := hW.pushClosure (x := x) (b := b) ht henv
    exact .of_ok rfl hgrows hW' (fun _ => rfl) ⟨hnew, trivial⟩
      (Yields.const_iff.2 (Partial.pure_gives.2 rfl))
  | closure a =>
    obtain ⟨o, ho⟩ := ht
    simp only [step, ho]
    exact step_object_matches hev hW k (hW.grows _ _ ho) env
  | thunk a =>
    obtain ⟨o, ho⟩ := ht
    simp only [step, ho]
    exact step_object_matches hev hW k (hW.grows _ _ ho) env
  | builtin a =>
    obtain ⟨o, ho⟩ := ht
    simp only [step, ho]
    exact step_object_matches hev hW k (hW.grows _ _ ho) env
  | var x =>
    unfold EvalM.step
    simp only [step]
    rcases henv.lookup x with ⟨hx, hρ⟩ | ⟨b, o, hx, hρ, hb⟩
    · rw [hx, hρ]
      exact .fail hW (.plain _)
    · rw [hx, hρ]
      cases hb with
      | raw hready hknows =>
        have hcode := (hev.code hW henv hknows).mono (Nat.zero_le 1)
        cases b with
        | thunk a => exact absurd hready (by simp [Term.isReady])
        | _ => exact hcode
      | object ho =>
        cases hW.object b o ho with
        | thunk => exact forceThunk_matches hev hW ho
        | int v => exact object_matches hev hW ho trivial env
        | closure => exact object_matches hev hW ho trivial env
        | builtin => exact object_matches hev hW ho trivial env
  | app f a =>
    have hfn := (hev.code hW henv ht.1).mono (Nat.zero_le 1)
    refine .bind (evaluate_growing G f ρ) (fun w => ?_) hfn fun W₁ m₁ v w hgrows₁ hW₁ hv => ?_
    · cases suspend G a ρ with
      | none => exact growing_const _
      | some o => exact apply_growing G w o
    · obtain ⟨u, m₂, W₂, o, hok, hgrows₂, hW₂, hmemo, ho, hu⟩ :=
        suspend_ok hW₁ (henv.mono (.refl G) hgrows₁) ht.2
      simp only [ho]
      exact .after hok hgrows₂ hmemo (call_matches hev hW₂ k (hv.mono hgrows₂) hu)

end Step

/-- Evaluation by the machine follows evaluation without memo cells, with every limit and within
every bound. -/
theorem evaluate_follows (G : World) (limit : Option ℕ) (n : ℕ) :
    Follows G limit n (Letrec.evaluate limit n) := by
  induction n with
  | zero =>
    have hcut : ∀ {W : World} {m : Machine} {y : ℕ → Answer}, Describes G W m.heap →
        Matches G limit 0 0 Value W m (throw .outOfFuel) y :=
      fun hW => ⟨_, .refl _, hW, .refl _, fun _ k hk => absurd hk (Nat.not_lt_zero k)⟩
    exact ⟨fun hW _ _ => hcut hW, fun _ hW _ => hcut hW⟩
  | succ n ih =>
    constructor
    · intro W m t env ρ hW henv ht
      refine .nested (fun _ => Partial.never_gives) (fun _ => rfl) hW fun m' hm' => ?_
      exact step_matches ih (hm'.symm ▸ hW) n henv ht
    · intro W m v w env hW hv
      have hstep : ∀ m', EvalM.step (Letrec.evaluate limit n) n v env m' = .ok v m' := by
        intro m'
        cases hW.object v w hv.1 with
        | thunk => exact hv.2.elim
        | _ => rfl
      rcases nested_cases limit (EvalM.step (Letrec.evaluate limit n) n v env) m with
        ⟨l, hl, hx⟩ | ⟨m', hm', ⟨a, m₁, m₂, hx, hnested, hheap⟩ | ⟨e, m₁, m₂, hx, -, -⟩⟩
      · exact .of_limit hl hx hW
      · rw [hstep] at hx
        obtain ⟨rfl, rfl⟩ := EStateM.Result.ok.inj hx
        rw [hm'] at hheap
        exact .of_ok hnested (.refl W) (hheap ▸ hW) (fun _ => by rw [hheap]) hv
          (Yields.const_iff.2 (Partial.pure_gives.2 rfl))
      · rw [hstep] at hx
        cases hx

end Letrec.Unshared
