import Mathlib
import Letrec.Proofs.ByName.World
import Letrec.Proofs.Evaluation.Ensures

/-!
# The machine does what evaluation by name does

Wherever a run of the machine ends, evaluation by name ends in the same way: `evaluate_sound`.  The
rules of the machine are taken one by one, each under the assumption that the evaluator inside it is
sound; the world that describes the heap grows along the run.
-/

namespace Letrec.ByName

open EvalM

/-- The machine has reached the value that `q` speaks of, in a world that may have grown. -/
def Reached (W : World) (q : Except EvalError Object → Prop) (v : Term) (h : Heap) : Prop :=
  ∃ W' w, W.Grows W' ∧ W'.Describes h ∧ q (.ok w) ∧ W' v = some w ∧ w.IsValue

/-- Every end of the run is one that `q` speaks of. -/
def Simulates (W : World) (m : Machine) (x : EvalM Term) (q : Except EvalError Object → Prop) :
    Prop :=
  Ensures x m (fun v m' => Reached W q v m'.heap) (fun e => q (.error e))

lemma Reached.of_grows {W W' : World} {q : Except EvalError Object → Prop} {v : Term} {h : Heap}
    (hW : W.Grows W') (hv : Reached W' q v h) : Reached W q v h := by
  obtain ⟨W'', w, hgrows, hrest⟩ := hv
  exact ⟨W'', w, hW.trans hgrows, hrest⟩

lemma Simulates.of_grows {W W' : World} {m : Machine} {x : EvalM Term}
    {q : Except EvalError Object → Prop} (hW : W.Grows W') (h : Simulates W' m x q) :
    Simulates W m x q := h.mono (fun _ _ hv => hv.of_grows hW) fun _ he => he

lemma Simulates.congr {W : World} {m : Machine} {x : EvalM Term}
    {q q' : Except EvalError Object → Prop} (hq : ∀ r, q r ↔ q' r) (h : Simulates W m x q) :
    Simulates W m x q' := by
  obtain rfl : q = q' := funext fun r => propext (hq r)
  exact h

/-- An evaluator returns values as they are and does with lowered terms what evaluation by name
does. -/
structure Sound (ev : Evaluator) : Prop where
  value : ∀ {W : World} {m : Machine} {t : Term} {env : Letrec.Env} {w : Object},
    W.Describes m.heap → W t = some w → w.IsValue →
    Ensures (ev t env) m (fun v m' => v = t ∧ m'.heap = m.heap) (fun _ => False)
  lowered : ∀ {W : World} {m : Machine} {t : Term} {env : Letrec.Env} {ρ : Env},
    W.Describes m.heap → W.DenotesEnv env ρ → t.Lowered →
    Simulates W m (ev t env) (Evaluates t ρ)

/-! ### What can be seen of a value -/

lemma int?_eq_error {o : Object} {found : String} (h : o.int? = .error found) : o.text = found := by
  cases o with
  | int v => exact absurd h (by simp [Object.int?])
  | _ => exact Except.error.inj h

lemma int?_eq_ok {o : Object} {i : Int64} (h : o.int?.toOption = some i) : o = .int i := by
  cases o with
  | int v =>
    obtain rfl := Option.some.inj h
    rfl
  | _ => exact absurd h (by simp [Object.int?, Except.toOption])

lemma text_eq {W : World} {h : Heap} (hW : W.Describes h) {v : Term} {w : Object}
    (hv : W v = some w) (hw : w.IsValue) : h.text v = w.text := by
  cases hW.object v w hv with
  | int i =>
    rw [Heap.text, Term.Lowered.textUpTo_eq (t := .int i) trivial]
    rfl
  | @closure a c ρ hc hb =>
    show "<closure " ++ h.textUpTo _ (.lam (h.closure a).param (h.closure a).body) ++ ">" = _
    rw [Heap.closure_eq hc, Term.Lowered.textUpTo_eq (t := .lam c.param c.body) hb]
    rfl
  | @builtin a p supplied args hb hargs =>
    show (h.builtin a).text = _
    rw [Heap.builtin_eq hb, Builtin.text, Object.text]
    cases hargs with
    | nil => rfl
    | cons _ hrest =>
      simp [Primitive.builtin, hrest.length_eq]
  | thunk => exact hw.elim

lemma asInt?_eq {W : World} {h : Heap} (hW : W.Describes h) {v : Term} {w : Object}
    (hv : W v = some w) (hw : w.IsValue) : h.asInt? v = w.int?.toOption := by
  cases hW.object v w hv with
  | int i => rfl
  | closure => rfl
  | builtin => rfl
  | thunk => exact hw.elim

section Rules

variable {ev : Evaluator} (hev : Sound ev) {W : World} {m : Machine} (hW : W.Describes m.heap)

include hev hW

lemma value_simulates {t : Term} {env : Letrec.Env} {w : Object} (ht : W t = some w)
    (hw : w.IsValue) : Simulates W m (ev t env) (Forces w) := by
  refine (hev.value hW ht hw).mono (fun v m' hv => ?_) fun e he => he.elim
  obtain ⟨rfl, hheap⟩ := hv
  exact ⟨W, w, .refl W, hheap ▸ hW, (forces_of_isValue hw).2 rfl, ht, hw⟩

/-! ### Forcing -/

lemma forceThunk_simulates {a : Addr} {o : Object} (ha : W (.thunk a) = some o) :
    Simulates W m (forceThunk ev a) (Forces o) := by
  obtain ⟨c, ρ, hc, rfl, ht, henv, hmemo⟩ := hW.thunk ha
  refine .forceThunk hc (fun v hv => ?_) fun m' hm' => ?_
  · obtain ⟨w, hw, hv, hval⟩ := hmemo v hv
    exact ⟨W, w, .refl W, hW, hw, hv, hval⟩
  · refine (hev.lowered (hm'.symm ▸ hW) henv ht).mono (fun v m₁ hv => ?_) fun _ he => he
    obtain ⟨W', w, hgrows, hW₁, hw, hv, hval⟩ := hv
    have ha' := hgrows _ _ ha
    have hmemo₁ := hW₁.memoize ha' hw hv hval
    -- the thunk may have been forced on the way; then it keeps the value it got there
    cases hmem : m₁.heap.memo? a with
    | none => exact ⟨W', w, hgrows, hmemo₁, hw, hv, hval⟩
    | some v₁ =>
      obtain ⟨c₁, ρ₁, hc₁, heq, -, -, hmemo'⟩ := hW₁.thunk ha'
      rw [Heap.memo?_eq hc₁] at hmem
      obtain ⟨w₁, hw₁, hv₁, hval₁⟩ := hmemo' v₁ hmem
      rw [heq]
      exact ⟨W', w₁, hgrows, hmemo₁, hw₁, hv₁, hval₁⟩

lemma tree_simulates {t : Term} {o : Object} (ht : W t = some o) :
    Simulates W m (EvalM.force ev t) (Forces o) := by
  cases hW.object _ _ ht with
  | thunk => exact forceThunk_simulates hev hW ht
  | int v => exact value_simulates hev hW ht trivial
  | closure => exact value_simulates hev hW ht trivial
  | builtin => exact value_simulates hev hW ht trivial

lemma force_simulates {t : Term} {o : Object} (ht : W.Denotes t o) :
    Simulates W m (EvalM.force ev t) (Forces o) := by
  obtain ⟨o', ho', hiff⟩ := ht.forces_iff hW
  exact (tree_simulates hev hW ho').congr fun r => (hiff r).symm

/-! ### Operations -/

lemma forceInt_simulates {t : Term} {o : Object} (ht : W.Denotes t o)
    (otherwise : String → EvalError) {next : Int64 → Action} {q : Except EvalError Object → Prop}
    (hnext : ∀ i W' m', W.Grows W' → W'.Describes m'.heap → ForcesInt otherwise o (.ok i) →
      Simulates W' m' (perform ev (next i)) q)
    (herr : ∀ e, ForcesInt otherwise o (.error e) → q (.error e)) :
    Simulates W m (perform ev (.force t fun v => .asInt v otherwise next)) q := by
  refine .bind ((force_simulates hev hW ht).mono (fun v m' hv => ?_) fun e he => ?_)
  · obtain ⟨W', w, hgrows, hW', hw, hv, hval⟩ := hv
    have hforces : ForcesInt otherwise o (w.int?.mapError otherwise) :=
      forcesInt_iff.2 (Or.inl ⟨w, hw, rfl⟩)
    rw [perform]
    refine .bind (.readHeap ?_)
    rw [asInt?_eq hW' hv hval]
    cases hi : w.int? with
    | ok i =>
      rw [hi] at hforces
      exact (hnext i W' m' hgrows hW' hforces).of_grows hgrows
    | error found =>
      rw [hi] at hforces
      rw [← int?_eq_error hi, ← text_eq hW' hv hval] at hforces
      exact .bind (.readHeap (.fail (herr _ hforces)))
  · exact herr e (forcesInt_iff.2 (Or.inr ⟨e, he, rfl⟩))

lemma binary_simulates (name : String) (f : Int64 → Int64 → Except EvalError Int64) {a b : Term}
    {o o' : Object} (ha : W.Denotes a o) (hb : W.Denotes b o') :
    Simulates W m (perform ev ((Primitive.binary name f).operation [a, b]))
      (Operates (.binary name f) [o, o']) := by
  refine forceInt_simulates hev hW ha _ (fun i W₁ m₁ hgrows₁ hW₁ hi => ?_) fun e he => ?_
  · refine forceInt_simulates hev hW₁ (hb.mono hgrows₁) _ (fun j W₂ m₂ hgrows₂ hW₂ hj => ?_)
      fun e he => ?_
    · have hoperates := operates_binary (g := f).2 (Or.inl ⟨i, hi, Or.inl ⟨j, hj, rfl⟩⟩)
      cases hf : f i j with
      | ok v =>
        rw [hf] at hoperates
        simp only [hf]
        exact .pure ⟨W₂, .int v, .refl W₂, hW₂, hoperates, hW₂.int v, trivial⟩
      | error e =>
        rw [hf] at hoperates
        simp only [hf]
        exact .fail hoperates
    · exact operates_binary.2 (Or.inl ⟨i, hi, Or.inr ⟨e, he, rfl⟩⟩)
  · exact operates_binary.2 (Or.inr ⟨e, he, rfl⟩)

lemma conditional_simulates {c p n : Term} {oc op on : Object} (hc : W.Denotes c oc)
    (hp : W.Denotes p op) (hn : W.Denotes n on) :
    Simulates W m (perform ev (Primitive.conditional.operation [c, p, n]))
      (Operates .conditional [oc, op, on]) := by
  refine forceInt_simulates hev hW hc _ (fun i W₁ m₁ hgrows₁ hW₁ hi => ?_) fun e he => ?_
  · have hbranch : W₁.Denotes (if i ≠ 0 then p else n) (if i ≠ 0 then op else on) :=
      (hp.mono hgrows₁).ite (hn.mono hgrows₁)
    have hoperates : ∀ r, Forces (if i ≠ 0 then op else on) r →
        Operates .conditional [oc, op, on] r :=
      fun r hr => operates_conditional.2 (Or.inl ⟨i, hi, hr⟩)
    refine .bind ((force_simulates hev hW₁ hbranch).mono (fun v m' hv => ?_) fun e he => ?_)
    · obtain ⟨W₂, w, hgrows₂, hW₂, hw, hrest⟩ := hv
      exact .pure ⟨W₂, w, hgrows₂, hW₂, hoperates _ hw, hrest⟩
    · exact hoperates _ he
  · exact operates_conditional.2 (Or.inr ⟨e, he, rfl⟩)

lemma operation_simulates (p : Primitive) {ts : List Term} {os : List Object}
    (h : List.Forall₂ W.Denotes ts os) (hlen : os.length = p.arity) :
    Simulates W m (perform ev (p.operation ts)) (Operates p os) := by
  cases p with
  | binary name f =>
    obtain ⟨o, o', rfl⟩ := List.length_eq_two.1 hlen
    rcases h with _ | ⟨ha, _ | ⟨hb, _ | _⟩⟩
    exact binary_simulates hev hW name f ha hb
  | conditional =>
    obtain ⟨oc, op, on, rfl⟩ := List.length_eq_three.1 hlen
    rcases h with _ | ⟨hc, _ | ⟨hp, _ | ⟨hn, _ | _⟩⟩⟩
    exact conditional_simulates hev hW hc hp hn

/-! ### Calls -/

lemma applyBuiltin_simulates {a : Addr} {f o : Object} {t : Term}
    (ha : W (.builtin a) = some f) (ht : W.Denotes t o) :
    Simulates W m (applyBuiltin ev a [t]) (Applies f o) := by
  obtain ⟨p, supplied, args, hb, rfl, hargs⟩ := hW.builtin ha
  have hall : List.Forall₂ W.Denotes (supplied ++ [t]) (args ++ [o]) :=
    List.rel_append hargs (.cons ht .nil)
  have hlen : ((p.builtin supplied).supplied ++ [t]).length = args.length + 1 := by
    simp [Primitive.builtin, hargs.length_eq]
  refine .applyBuiltin hb (fun hlt => ?_) (fun hgt => ?_) fun heq m' hm' => ?_
  · rw [hlen] at hlt ⊢
    exact (applies_builtin_of_lt hlt).2 rfl
  · obtain ⟨W', hgrows, hW', hnew⟩ := hW.pushBuiltin (p := p) hall
    rw [hlen] at hgt
    exact ⟨W', _, hgrows, hW', (applies_builtin_of_gt hgt).2 rfl, hnew, trivial⟩
  · rw [hlen] at heq
    refine (operation_simulates hev (hm'.symm ▸ hW) p hall ?_).congr fun r => ?_
    · rw [List.length_append, List.length_singleton, heq]
      rfl
    · exact (applies_builtin_of_eq heq).symm

lemma call_simulates (n : ℕ) {f : Term} {w o : Object} {t : Term} (hf : W f = some w)
    (hw : w.IsValue) (ht : W.Denotes t o) : Simulates W m (call ev n f t) (Applies w o) := by
  cases hW.object f w hf with
  | int v =>
    have htext := text_eq hW hf trivial
    cases n <;> exact .bind (.readHeap (.fail (applies_int.2 (by rw [htext]))))
  | @closure a c ρ hc hb henv =>
    exact Ensures.call_closure n hc (hev.lowered hW (henv.extend c.param ht) hb)
  | builtin =>
    rw [call_builtin]
    exact applyBuiltin_simulates hev hW hf ht
  | thunk => exact hw.elim

end Rules

/-! ### Terms -/

lemma suspend_simulates {W : World} {m : Machine} (hW : W.Describes m.heap) {env : Letrec.Env}
    {ρ : Env} (henv : W.DenotesEnv env ρ) {t : Term} (ht : t.Lowered) :
    Ensures (suspend t env) m (fun u m' => ∃ W', W.Grows W' ∧ W'.Describes m'.heap ∧
      W'.Denotes u (.pair t ρ)) (fun _ => False) := by
  refine .suspend (p := fun u h => ∃ W', W.Grows W' ∧ W'.Describes h ∧ W'.Denotes u (.pair t ρ))
    (fun hready => ?_) (fun x u hx hu => ?_) ?_
  · obtain ⟨v, rfl⟩ := ht.eq_int hready
    exact ⟨W, .refl W, hW, .literal⟩
  · subst hx
    rcases henv.lookup x with ⟨hnone, -⟩ | ⟨u', o, hu', hρ, ho⟩
    · exact absurd (hu.symm.trans hnone) (by simp)
    · obtain rfl := Option.some.inj (hu.symm.trans hu')
      exact ⟨W, .refl W, hW, .variable hρ ho⟩
  · obtain ⟨W', hgrows, hW', hthunk⟩ := hW.pushThunk ht henv
    exact ⟨W', hgrows, hW', .object hthunk⟩

lemma step_sound {ev : Evaluator} (hev : Sound ev) (n : ℕ) :
    Sound fun t env => EvalM.step ev n t env where
  value := by
    intro W m t env w hW ht hw
    cases hW.object t w ht with
    | thunk => exact hw.elim
    | _ => exact .pure ⟨rfl, rfl⟩
  lowered := by
    intro W m t env ρ hW henv ht
    cases t with
    | int v => exact .pure ⟨W, .int v, .refl W, hW, evaluates_int.2 rfl, hW.int v, trivial⟩
    | lam x b =>
      obtain ⟨W', hgrows, hW', hnew⟩ := hW.pushClosure (x := x) (b := b) ht henv
      exact .modifyGet ⟨W', _, hgrows, hW', evaluates_lam.2 rfl, hnew, trivial⟩
    | var x =>
      unfold EvalM.step
      dsimp only
      rcases henv.lookup x with ⟨hx, hρ⟩ | ⟨u, o, hx, hρ, hu⟩
      · rw [hx]
        exact .fail ((evaluates_var_of_none hρ).2 rfl)
      · rw [hx]
        refine Simulates.congr (fun r => (evaluates_var_of_some hρ).symm) ?_
        obtain ⟨o', ho', hiff⟩ := hu.forces_iff hW
        refine Simulates.congr (fun r => (hiff r).symm) ?_
        cases hW.object u o' ho' with
        | thunk => exact forceThunk_simulates hev hW ho'
        | int => exact value_simulates hev hW ho' trivial
        | closure => exact value_simulates hev hW ho' trivial
        | builtin => exact value_simulates hev hW ho' trivial
    | app f a =>
      refine .bind ((hev.lowered hW henv ht.1).mono (fun v m₁ hv => ?_) fun e he => ?_)
      · obtain ⟨W₁, w, hgrows₁, hW₁, hw, hv, hval⟩ := hv
        refine .bind ((suspend_simulates hW₁ (henv.mono hgrows₁) ht.2).mono
          (fun u m₂ hu => ?_) fun e he => he.elim)
        obtain ⟨W₂, hgrows₂, hW₂, hu⟩ := hu
        have hcall := call_simulates hev hW₂ n (hgrows₂ _ _ hv) hval hu
        refine (hcall.of_grows (hgrows₁.trans hgrows₂)).mono (fun v' m' hv' => ?_) fun e he => ?_
        · obtain ⟨W₃, w', hgrows₃, hW₃, hw', hrest⟩ := hv'
          exact ⟨W₃, w', hgrows₃, hW₃, evaluates_app.2 (Or.inl ⟨w, hw, hw'⟩), hrest⟩
        · exact evaluates_app.2 (Or.inl ⟨w, hw, he⟩)
      · exact evaluates_app.2 (Or.inr ⟨e, he, rfl⟩)
    | closure a => exact ht.elim
    | thunk a => exact ht.elim
    | builtin a => exact ht.elim

/-! ### Evaluation -/

/-- Without a limit on the nesting, the evaluator is sound within every bound. -/
theorem evaluate_sound (n : ℕ) : Sound (Letrec.evaluate none n) := by
  induction n with
  | zero => exact ⟨fun _ _ _ => .outOfFuel, fun _ _ _ => .outOfFuel⟩
  | succ n ih =>
    have hstep := step_sound ih n
    constructor
    · intro W m t env w hW ht hw
      refine Ensures.nested (p := fun v h => v = t ∧ h = m.heap) (fun _ hl => absurd hl (by simp))
        fun m' hm' => ?_
      rw [← hm'] at hW ⊢
      exact hstep.value hW ht hw
    · intro W m t env ρ hW henv ht
      refine Ensures.nested (p := Reached W (Evaluates t ρ)) (fun _ hl => absurd hl (by simp))
        fun m' hm' => ?_
      rw [← hm'] at hW
      exact hstep.lowered hW henv ht

end Letrec.ByName
