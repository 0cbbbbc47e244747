import Mathlib
import Letrec.Proofs.Evaluation.Ensures
import Letrec.Proofs.Passing.World
import Letrec.Proofs.Surface.Evaluation

/-!
# The machine with an operation that passes its argument on

Wherever a run of the machine ends, its end leads on to what evaluation by name has: an integer or a
function is the answer, a thunk is forced to the answer, and an error is of the kind of the answer
(`evaluate_sound`).  The one exception is an error about a thunk.  An operation that wants an
integer forces its argument once.  If it has a thunk then, it fails, and evaluation by name may go
on (`EvalError.FoundThunk`).

The rules of the machine are taken one by one, as for the machine without such an operation.
-/

namespace Letrec

/-- Instead of an integer, a thunk was found: one that has not been forced, or one whose text goes
round in a circle. -/
def EvalError.FoundThunk : EvalError → Prop
  | .conditionNotInteger found | .expectedInteger _ found => found = "<thunk>" ∨ found = "..."
  | _ => False

namespace ByName.Passing

open EvalM

/-- The machine has reached what the computations lead to, in a world that may have grown. -/
def Reached (W : World) (x : ℕ → Answer) (v : Term) (h : Heap) : Prop :=
  ∃ W' o, W.Grows W' ∧ Describes W' h ∧ W' v = some o ∧ Leads x o

/-- The error is about a thunk, or the computations end with one of its kind. -/
def Excused (x : ℕ → Answer) (e : EvalError) : Prop :=
  e.FoundThunk ∨ ∃ e', e'.kind = e.kind ∧ Yields x (.error e')

/-- Every end of the run is one that the computations lead to. -/
def Simulates (W : World) (m : Machine) (run : EvalM Term) (x : ℕ → Answer) : Prop :=
  Ensures run m (fun v m' => Reached W x v m'.heap) (Excused x)

variable {W W' : World} {m : Machine} {run : EvalM Term} {x y : ℕ → Answer} {e : EvalError}

lemma Excused.of_yields (h : Yields x (.error e)) : Excused x e := Or.inr ⟨e, rfl, h⟩

lemma Excused.mono (h : Excused y e) (hyields : ∀ e, Yields y (.error e) → Yields x (.error e)) :
    Excused x e :=
  h.imp_right fun ⟨e', hk, he⟩ => ⟨e', hk, hyields e' he⟩

lemma Reached.of_grows {v : Term} {h : Heap} (hW : W.Grows W') (hv : Reached W' x v h) :
    Reached W x v h := by
  obtain ⟨W'', o, hgrows, hrest⟩ := hv
  exact ⟨W'', o, hW.trans hgrows, hrest⟩

lemma Reached.of_isValue (hx : Growing x) (hW : Describes W m.heap) {v : Term} {o : Object}
    (hv : W v = some o) (ho : o.IsValue) (h : Yields x (.ok o)) : Reached W x v m.heap :=
  ⟨W, o, .refl W, hW, hv, .of_isValue hx ho h⟩

lemma Simulates.of_grows (hW : W.Grows W') (h : Simulates W' m run x) : Simulates W m run x :=
  h.mono (fun _ _ hv => hv.of_grows hW) fun _ he => he

lemma Simulates.of_below (h : Simulates W m run y) (hyields : ∀ r, Yields y r → Yields x r)
    (hbelow : ∀ k, (x k).Below (y k)) : Simulates W m run x := by
  refine Ensures.mono h (fun v m' hv => ?_) fun e he => he.mono fun e => hyields _
  obtain ⟨W', o, hgrows, hW', hv, hleads⟩ := hv
  exact ⟨W', o, hgrows, hW', hv, hleads.of_below hyields hbelow⟩

/-- An evaluator returns values as they are, and what it does with lowered terms leads to what
evaluation by name does. -/
structure Sound (ev : Evaluator) : Prop where
  value : ∀ {W : World} {m : Machine} {t : Term} {env : Letrec.Env} {w : Object},
    Describes W m.heap → W t = some w → w.IsValue →
    Ensures (ev t env) m (fun v m' => v = t ∧ m'.heap = m.heap) (fun _ => False)
  lowered : ∀ {W : World} {m : Machine} {t : Term} {env : Letrec.Env} {ρ : Env},
    Describes W m.heap → W.DenotesEnv env ρ → t.Lowered →
    Simulates W m (ev t env) (fun k => evaluate k t ρ)

/-! ### Reading integers -/

/-- An error about what was found, whatever that is. -/
structure Complains (otherwise : String → EvalError) : Prop where
  kind_eq : ∀ s s', (otherwise s).kind = (otherwise s').kind
  foundThunk : ∀ s, s = "<thunk>" ∨ s = "..." → (otherwise s).FoundThunk

lemma complains_expectedInteger (name : String) : Complains (.expectedInteger name) :=
  ⟨fun _ _ => rfl, fun _ h => h⟩

lemma complains_conditionNotInteger : Complains .conditionNotInteger :=
  ⟨fun _ _ => rfl, fun _ h => h⟩

lemma forces_self {o : Object} (ho : o.IsValue) : Forces o (.ok o) := (forces_of_isValue ho).2 rfl

/-- What is read of a term is the integer that it is forced to.  If nothing is read, its text is
that of a thunk, or it is forced to a function. -/
lemma asIntUpTo_or {h : Heap} (hW : Describes W h) (n : ℕ) {v : Term} {o : Object}
    (hv : W v = some o) :
    (∃ i, h.asIntUpTo n v = some i ∧ Forces o (.ok (.int i))) ∨
      h.asIntUpTo n v = none ∧ (h.textUpTo n v = "<thunk>" ∨ h.textUpTo n v = "..." ∨
        ∃ w found, Forces o (.ok w) ∧ w.int? = .error found) := by
  induction n generalizing v o with
  | zero =>
    cases hW.object v o hv with
    | int i => exact Or.inl ⟨i, rfl, forces_self trivial⟩
    | closure => exact Or.inr ⟨rfl, Or.inr (Or.inl rfl)⟩
    | builtin => exact Or.inr ⟨rfl, Or.inr (Or.inl rfl)⟩
    | raw => exact Or.inr ⟨rfl, Or.inr (Or.inl rfl)⟩
    | thunk => exact Or.inr ⟨rfl, Or.inr (Or.inl rfl)⟩
  | succ n ih =>
    cases hW.object v o hv with
    | int i => exact Or.inl ⟨i, rfl, forces_self trivial⟩
    | closure => exact Or.inr ⟨rfl, Or.inr (Or.inr ⟨_, _, forces_self trivial, rfl⟩)⟩
    | builtin => exact Or.inr ⟨rfl, Or.inr (Or.inr ⟨_, _, forces_self trivial, rfl⟩)⟩
    | raw => exact Or.inr ⟨rfl, Or.inr (Or.inr ⟨_, _, forces_self trivial, rfl⟩)⟩
    | @thunk a c ρ hc _ _ hmemo =>
      have hread := Heap.memo?_eq hc
      cases hm : c.memo with
      | none =>
        rw [hm] at hread
        refine Or.inr ⟨by simp [Heap.asIntUpTo, hread], Or.inl ?_⟩
        simp [Heap.textUpTo, Term.textWith, Heap.objectText, hread]
      | some v' =>
        rw [hm] at hread
        obtain ⟨o', ho', hleads⟩ := hmemo v' hm
        have hint : h.asIntUpTo (n + 1) (.thunk a) = h.asIntUpTo n v' := by
          simp [Heap.asIntUpTo, hread]
        have htext : h.textUpTo (n + 1) (.thunk a) = h.textUpTo n v' := by
          simp [Heap.textUpTo, Term.textWith, Heap.objectText, hread]
        rw [hint, htext]
        rcases ih ho' with ⟨i, hi, hforces⟩ | ⟨hi, htext⟩
        · exact Or.inl ⟨i, hi, hleads.yields _ hforces⟩
        · refine Or.inr ⟨hi, htext.imp_right (Or.imp_right ?_)⟩
          rintro ⟨w, found, hforces, hw⟩
          exact ⟨w, found, hleads.yields _ hforces, hw⟩

/-! ### Calls by name -/

/-- Force a function and call it. -/
def forceApply (f o : Object) (k : ℕ) : Answer := do
  let w ← force (evaluate k) f
  apply (evaluate k) w o

lemma yields_forceApply {f o : Object} {r : Except EvalError Object} :
    Yields (forceApply f o) r ↔ (∃ w, Forces f (.ok w) ∧ Applies w o r) ∨
      ∃ e, Forces f (.error e) ∧ r = .error e :=
  Yields.bind_iff (force_growing f) fun w => apply_growing w o

lemma forceApply_growing (f o : Object) : Growing (forceApply f o) :=
  (force_growing f).bind fun w => apply_growing w o

lemma forceApply_of_isValue {w o : Object} (hw : w.IsValue) :
    forceApply w o = fun k => apply (evaluate k) w o := by
  funext k
  cases w with
  | pair t ρ => exact hw.elim
  | _ => exact pure_bind _ _

/-- What a suspended function leads to may be called in its place. -/
lemma Simulates.forceApply_of_leads {u : Term} {ρ : Env} {g o : Object}
    (hleads : Leads (fun k => evaluate k u ρ) g) (h : Simulates W m run (forceApply g o)) :
    Simulates W m run (forceApply (.pair u ρ) o) := by
  have hgives : ∀ k r, (evaluate k u ρ).Gives r → (force (evaluate k) g).Gives r := by
    intro k r hr
    cases k with
    | zero => exact absurd hr Partial.never_gives
    | succ k => exact force_growing g (Nat.le_succ k) r (hleads.gives k r hr)
  refine h.of_below (fun r hr => ?_) fun k r hr => ?_
  · rcases yields_forceApply.1 hr with ⟨w, hw, hr⟩ | ⟨e, he, rfl⟩
    · exact yields_forceApply.2 (Or.inl ⟨w, hleads.yields _ hw, hr⟩)
    · exact yields_forceApply.2 (Or.inr ⟨e, hleads.yields _ he, rfl⟩)
  · rcases Partial.bind_gives.1 hr with ⟨w, hw, hr⟩ | ⟨e, he, rfl⟩
    · exact Partial.bind_gives.2 (Or.inl ⟨w, hgives k _ hw, hr⟩)
    · exact Partial.bind_gives.2 (Or.inr ⟨e, hgives k _ he, rfl⟩)

lemma run_growing (p : Primitive) (os : List Object) :
    Growing fun k => p.run (force (evaluate k)) Object.int? .int id os :=
  fun _ _ hnk => Primitive.run_below (fun o => force_growing o hnk) p os

section Rules

variable {ev : Evaluator} (hev : Sound ev) (hW : Describes W m.heap)

include hev hW

lemma value_simulates {t : Term} {env : Letrec.Env} {w : Object} (ht : W t = some w)
    (hw : w.IsValue) : Simulates W m (ev t env) fun k => force (evaluate k) w := by
  refine (hev.value hW ht hw).mono (fun v m' hv => ?_) fun e he => he.elim
  obtain ⟨rfl, hheap⟩ := hv
  exact ⟨W, w, .refl W, hheap ▸ hW, ht, .force_of_isValue hw⟩

/-! ### Forcing -/

lemma forceThunk_simulates {a : Addr} {o : Object} (ha : W (.thunk a) = some o) :
    Simulates W m (forceThunk ev a) fun k => force (evaluate k) o := by
  obtain ⟨c, ρ, hc, rfl, ht, henv, hmemo⟩ := hW.thunk ha
  refine .forceThunk hc (fun v hv => ?_) fun m' hm' => ?_
  · obtain ⟨o, hv, hleads⟩ := hmemo v hv
    exact ⟨W, o, .refl W, hW, hv, hleads⟩
  · refine (hev.lowered (hm'.symm ▸ hW) henv ht).mono (fun v m₁ hv => ?_) fun _ he => he
    obtain ⟨W', o, hgrows, hW₁, hv, hleads⟩ := hv
    have ha' := hgrows _ _ ha
    have hmemo₁ := hW₁.memoize ha' hv hleads
    -- the thunk may have been forced on the way; then it keeps what it got there
    cases hmem : m₁.heap.memo? a with
    | none => exact ⟨W', o, hgrows, hmemo₁, hv, hleads⟩
    | some v₁ =>
      obtain ⟨c₁, ρ₁, hc₁, heq, -, -, hmemo'⟩ := hW₁.thunk ha'
      rw [Heap.memo?_eq hc₁] at hmem
      obtain ⟨o₁, hv₁, hleads₁⟩ := hmemo' v₁ hmem
      rw [heq]
      exact ⟨W', o₁, hgrows, hmemo₁, hv₁, hleads₁⟩

lemma tree_simulates {t : Term} {o : Object} (ht : W t = some o) :
    Simulates W m (EvalM.force ev t) fun k => force (evaluate k) o := by
  cases hW.object _ _ ht with
  | thunk => exact forceThunk_simulates hev hW ht
  | int v => exact value_simulates hev hW ht trivial
  | closure => exact value_simulates hev hW ht trivial
  | builtin => exact value_simulates hev hW ht trivial
  | raw => exact value_simulates hev hW ht trivial

lemma force_simulates {t : Term} {o : Object} (ht : W.Denotes t o) :
    Simulates W m (EvalM.force ev t) fun k => force (evaluate k) o := by
  obtain ⟨o', ho', hforces, hbelow⟩ := hW.denotes ht
  exact (tree_simulates hev hW ho').of_below hforces hbelow

/-! ### Operations -/

lemma forceInt_simulates {t : Term} {o : Object} (ht : W.Denotes t o)
    {otherwise : String → EvalError} (ho : Complains otherwise) {next : Int64 → Action}
    (hnext : ∀ i W' m', W.Grows W' → Describes W' m'.heap → ForcesInt otherwise o (.ok i) →
      Simulates W' m' (perform ev (next i)) x)
    (herr : ∀ e, ForcesInt otherwise o (.error e) → Yields x (.error e)) :
    Simulates W m (perform ev (.force t fun v => .asInt v otherwise next)) x := by
  refine .bind ((force_simulates hev hW ht).mono (fun v m' hv => ?_) fun e he => ?_)
  · obtain ⟨W', o', hgrows, hW', hv, hleads⟩ := hv
    rw [perform]
    refine .bind (.readHeap ?_)
    rcases asIntUpTo_or hW' m'.heap.hops hv with ⟨i, hi, hforces⟩ | ⟨hi, htext⟩
    · rw [Heap.asInt?, hi]
      refine (hnext i W' m' hgrows hW' ?_).of_grows hgrows
      exact forcesInt_iff.2 (Or.inl ⟨.int i, hleads.yields _ hforces, rfl⟩)
    · rw [Heap.asInt?, hi]
      refine .bind (.readHeap (.fail ?_))
      rcases htext with htext | htext | ⟨w, found, hforces, hw⟩
      · exact Or.inl (ho.foundThunk _ (Or.inl htext))
      · exact Or.inl (ho.foundThunk _ (Or.inr htext))
      · refine Or.inr ⟨otherwise found, ho.kind_eq _ _, herr _ ?_⟩
        exact forcesInt_iff.2 (Or.inl ⟨w, hleads.yields _ hforces, by rw [hw]; rfl⟩)
  · exact he.mono fun e he => herr e (forcesInt_iff.2 (Or.inr ⟨e, he, rfl⟩))

lemma binary_simulates (name : String) (f : Int64 → Int64 → Except EvalError Int64) {a b : Term}
    {o o' : Object} (ha : W.Denotes a o) (hb : W.Denotes b o') :
    Simulates W m (perform ev ((Primitive.binary name f).operation [a, b]))
      fun k => (Primitive.binary name f).run (force (evaluate k)) Object.int? .int id [o, o'] := by
  refine forceInt_simulates hev hW ha (complains_expectedInteger name)
    (fun i W₁ m₁ hgrows₁ hW₁ hi => ?_) fun e he => ?_
  · refine forceInt_simulates hev hW₁ (hb.mono hgrows₁) (complains_expectedInteger name)
      (fun j W₂ m₂ hgrows₂ hW₂ hj => ?_) fun e he => ?_
    · have hoperates := operates_binary (g := f).2 (Or.inl ⟨i, hi, Or.inl ⟨j, hj, rfl⟩⟩)
      cases hf : f i j with
      | ok v =>
        rw [hf] at hoperates
        simp only [hf]
        exact .pure (.of_isValue (run_growing _ _) hW₂ (hW₂.int v) trivial hoperates)
      | error e =>
        rw [hf] at hoperates
        simp only [hf]
        exact .fail (.of_yields hoperates)
    · exact operates_binary.2 (Or.inl ⟨i, hi, Or.inr ⟨e, he, rfl⟩⟩)
  · exact operates_binary.2 (Or.inr ⟨e, he, rfl⟩)

lemma conditional_simulates {c p n : Term} {oc op on : Object} (hc : W.Denotes c oc)
    (hp : W.Denotes p op) (hn : W.Denotes n on) :
    Simulates W m (perform ev (Primitive.conditional.operation [c, p, n]))
      fun k => Primitive.conditional.run (force (evaluate k)) Object.int? .int id [oc, op, on] := by
  refine forceInt_simulates hev hW hc complains_conditionNotInteger
    (fun i W₁ m₁ hgrows₁ hW₁ hi => ?_) fun e he => ?_
  · have hbranch : W₁.Denotes (if i ≠ 0 then p else n) (if i ≠ 0 then op else on) :=
      (hp.mono hgrows₁).ite (hn.mono hgrows₁)
    refine .bind ?_
    refine ((force_simulates hev hW₁ hbranch).of_below (fun r hr => ?_) fun k r hr => ?_).mono
      (fun v m' hv => .pure hv) fun _ he => he
    · exact operates_conditional.2 (Or.inl ⟨i, hi, hr⟩)
    · rcases Partial.bind_gives.1 hr with ⟨j, hj, hr⟩ | ⟨e, he, -⟩
      · have hij := Yields.unique (forceInteger_growing force_growing _ oc) hi ⟨k, hj⟩
        rwa [Except.ok.inj hij]
      · have hie := Yields.unique (forceInteger_growing force_growing _ oc) hi ⟨k, he⟩
        exact absurd hie (by simp)
  · exact operates_conditional.2 (Or.inr ⟨e, he, rfl⟩)

lemma operation_simulates (p : Primitive) {ts : List Term} {os : List Object}
    (h : List.Forall₂ W.Denotes ts os) (hlen : os.length = p.arity) :
    Simulates W m (perform ev (p.operation ts))
      fun k => p.run (force (evaluate k)) Object.int? .int id os := by
  cases p with
  | binary name f =>
    obtain ⟨o, o', rfl⟩ := List.length_eq_two.1 hlen
    rcases h with _ | ⟨ha, _ | ⟨hb, _ | _⟩⟩
    exact binary_simulates hev hW name f ha hb
  | conditional =>
    obtain ⟨oc, op, on, rfl⟩ := List.length_eq_three.1 hlen
    rcases h with _ | ⟨hc, _ | ⟨hp, _ | ⟨hn, _ | _⟩⟩⟩
    exact conditional_simulates hev hW hc hp hn

/-! ### Calls -/

lemma applyBuiltin_simulates {a : Addr} {f o : Object} {t : Term}
    (ha : W (.builtin a) = some f) (ht : W.Denotes t o) :
    Simulates W m (applyBuiltin ev a [t]) fun k => apply (evaluate k) f o := by
  cases hW.object _ _ ha with
  | @builtin _ p supplied args hb hargs =>
    have hall : List.Forall₂ W.Denotes (supplied ++ [t]) (args ++ [o]) :=
      List.rel_append hargs (.cons ht .nil)
    have hlen : ((p.builtin supplied).supplied ++ [t]).length = args.length + 1 := by
      simp [Primitive.builtin, hargs.length_eq]
    refine .applyBuiltin hb (fun hlt => ?_) (fun hgt => ?_) fun heq m' hm' => ?_
    · rw [hlen] at hlt ⊢
      exact .of_yields ((applies_builtin_of_lt hlt).2 rfl)
    · obtain ⟨W', hgrows, hW', hnew⟩ := hW.pushBuiltin (p := p) hall
      rw [hlen] at hgt
      have hyields := (applies_builtin_of_gt (o := o) hgt).2 rfl
      exact ⟨W', _, hgrows, hW', hnew, .of_isValue (apply_growing _ o) trivial hyields⟩
    · replace heq : args.length + 1 = p.arity := hlen.symm.trans heq
      have happly : (fun k => apply (evaluate k) (.builtin p args) o)
          = fun k => p.run (force (evaluate k)) Object.int? .int id (args ++ [o]) := by
        funext k
        simp [apply, heq]
      rw [happly]
      refine operation_simulates hev (hm'.symm ▸ hW) p hall ?_
      rw [List.length_append, List.length_singleton, heq]
  | @raw _ x ρ hb =>
    obtain ⟨o', ho', hforces, hbelow⟩ := hW.denotes ht
    refine .applyBuiltin hb (fun hlt => ?_) (fun hgt => ?_) fun _ m' hm' => ?_
    · exact absurd hlt (by simp [raw])
    · exact absurd hgt (by simp [raw])
    refine .bind (.modify (.pure ⟨W, o', .refl W, hm'.symm ▸ hW, ho', ?_, ?_⟩))
    · intro r hr
      exact (evaluates_var_of_some (by simp)).2 (hforces r hr)
    · intro k r hr
      change (step (evaluate k) (.var x) ((x, o) :: ρ)).Gives r at hr
      simp only [step, List.lookup_cons_self] at hr
      exact hbelow k r hr

lemma call_value_simulates (n : ℕ) {f : Term} {w o : Object} {t : Term} (hf : W f = some w)
    (hw : w.IsValue) (ht : W.Denotes t o) : Simulates W m (call ev n f t) (forceApply w o) := by
  rw [forceApply_of_isValue hw]
  cases hW.object f w hf with
  | int v =>
    have hfails : ∀ found, Excused (fun k => apply (evaluate k) (.int v) o) (.notAFunction found) :=
      fun found => Or.inr ⟨.notAFunction (Object.int v).text, rfl, applies_int.2 rfl⟩
    cases n <;> exact .bind (.readHeap (.fail (hfails _)))
  | @closure a c ρ hc hb henv =>
    exact Ensures.call_closure n hc (hev.lowered hW (henv.extend c.param ht) hb)
  | builtin =>
    rw [call_builtin]
    exact applyBuiltin_simulates hev hW hf ht
  | raw =>
    rw [call_builtin]
    exact applyBuiltin_simulates hev hW hf ht
  | thunk => exact hw.elim

omit hW in
/-- A function that is still a thunk is forced until it is none. -/
lemma call_simulates (n : ℕ) {W : World} {m : Machine} (hW : Describes W m.heap) {f t : Term}
    {g o : Object} (hf : W f = some g) (ht : W.Denotes t o) :
    Simulates W m (call ev n f t) (forceApply g o) := by
  induction n generalizing W m f g with
  | zero =>
    rcases hW.isValue_or hf with hval | ⟨a, u, ρ, rfl, rfl⟩
    · exact call_value_simulates hev hW 0 hf hval ht
    · exact .outOfFuel
  | succ n ih =>
    rcases hW.isValue_or hf with hval | ⟨a, u, ρ, rfl, rfl⟩
    · exact call_value_simulates hev hW (n + 1) hf hval ht
    · refine .bind ((forceThunk_simulates hev hW hf).mono (fun v m' hv => ?_) fun e he => ?_)
      · obtain ⟨W', g', hgrows, hW', hv, hleads⟩ := hv
        exact ((ih hW' hv (ht.mono hgrows)).forceApply_of_leads hleads).of_grows hgrows
      · exact he.mono fun e he => yields_forceApply.2 (Or.inr ⟨e, he, rfl⟩)

end Rules

/-! ### Terms -/

lemma suspend_simulates (hW : Describes W m.heap) {env : Letrec.Env} {ρ : Env}
    (henv : W.DenotesEnv env ρ) {t : Term} (ht : t.Lowered) :
    Ensures (suspend t env) m (fun u m' => ∃ W', W.Grows W' ∧ Describes W' m'.heap ∧
      W'.Denotes u (.pair t ρ)) (fun _ => False) := by
  refine .suspend (p := fun u h => ∃ W', W.Grows W' ∧ Describes W' h ∧ W'.Denotes u (.pair t ρ))
    (fun hready => ?_) (fun x u hx hu => ?_) ?_
  · obtain ⟨v, rfl⟩ := ht.eq_int hready
    exact ⟨W, .refl W, hW, .literal⟩
  · subst hx
    rcases henv.lookup x with ⟨hnone, -⟩ | ⟨u', o, hu', hρ, ho⟩
    · exact absurd (hu.symm.trans hnone) (by simp)
    · obtain rfl := Option.some.inj (hu.symm.trans hu')
      exact ⟨W, .refl W, hW, .variable hρ ho⟩
  · obtain ⟨W', hgrows, hW', hthunk⟩ := hW.pushThunk ht henv
    exact ⟨W', hgrows, hW', .object hthunk⟩

lemma variable_simulates {ev : Evaluator} (hev : Sound ev) (n : ℕ) (hW : Describes W m.heap)
    {env : Letrec.Env} {ρ : Env} (henv : W.DenotesEnv env ρ) (x : String) :
    Simulates W m (EvalM.step ev n (.var x) env) fun k => evaluate k (.var x) ρ := by
  unfold EvalM.step
  dsimp only
  rcases henv.lookup x with ⟨hx, hρ⟩ | ⟨u, o, hx, hρ, hu⟩
  · rw [hx]
    exact .fail (.of_yields ((evaluates_var_of_none hρ).2 rfl))
  · rw [hx]
    obtain ⟨o', ho', hforces, hbelow⟩ := hW.denotes (.variable (ρ := ρ) hρ hu)
    refine Simulates.of_below (y := fun k => force (evaluate k) o') ?_ hforces hbelow
    cases hW.object u o' ho' with
    | thunk => exact forceThunk_simulates hev hW ho'
    | int => exact value_simulates hev hW ho' trivial
    | closure => exact value_simulates hev hW ho' trivial
    | builtin => exact value_simulates hev hW ho' trivial
    | raw => exact value_simulates hev hW ho' trivial

lemma application_simulates {ev : Evaluator} (hev : Sound ev) (n : ℕ) (hW : Describes W m.heap)
    {env : Letrec.Env} {ρ : Env} (henv : W.DenotesEnv env ρ) {f a : Term} (hf : f.Lowered)
    (ha : a.Lowered) :
    Simulates W m (EvalM.step ev n (.app f a) env) fun k => evaluate k (.app f a) ρ := by
  refine .bind ((hev.lowered hW henv hf).mono (fun v m₁ hv => ?_) fun e he => ?_)
  · obtain ⟨W₁, g, hgrows₁, hW₁, hv, hleads⟩ := hv
    refine .bind ((suspend_simulates hW₁ (henv.mono hgrows₁) ha).mono
      (fun u m₂ hu => ?_) fun e he => he.elim)
    obtain ⟨W₂, hgrows₂, hW₂, hu⟩ := hu
    have hcall := (call_simulates hev n hW₂ (hgrows₂ _ _ hv) hu).forceApply_of_leads hleads
    refine (hcall.of_grows (hgrows₁.trans hgrows₂)).of_below (fun r hr => ?_) fun k r hr => ?_
    · exact evaluates_app.2 (yields_forceApply.1 hr)
    · cases k with
      | zero => exact absurd hr Partial.never_gives
      | succ k =>
        exact forceApply_growing (.pair f ρ) (.pair a ρ) (Nat.le_succ k) r hr
  · exact he.mono fun e he => evaluates_app.2 (Or.inr ⟨e, he, rfl⟩)

lemma step_sound {ev : Evaluator} (hev : Sound ev) (n : ℕ) :
    Sound fun t env => EvalM.step ev n t env where
  value := by
    intro W m t env w hW ht hw
    cases hW.object t w ht with
    | thunk => exact hw.elim
    | _ => exact .pure ⟨rfl, rfl⟩
  lowered := by
    intro W m t env ρ hW henv ht
    have hgrowing := evaluate_growing t ρ
    cases t with
    | int v => exact .pure (.of_isValue hgrowing hW (hW.int v) trivial (evaluates_int.2 rfl))
    | lam x b =>
      obtain ⟨W', hgrows, hW', hnew⟩ := hW.pushClosure (x := x) (b := b) ht henv
      exact .modifyGet ⟨W', _, hgrows, hW', hnew,
        .of_isValue hgrowing trivial (evaluates_lam.2 rfl)⟩
    | var x => exact variable_simulates hev n hW henv x
    | app f a => exact application_simulates hev n hW henv ht.1 ht.2
    | closure a => exact ht.elim
    | thunk a => exact ht.elim
    | builtin a => exact ht.elim

/-! ### Evaluation -/

/-- Without a limit on the nesting, the evaluator is sound within every bound. -/
theorem evaluate_sound (n : ℕ) : Sound (Letrec.evaluate none n) := by
  induction n with
  | zero => exact ⟨fun _ _ _ => .outOfFuel, fun _ _ _ => .outOfFuel⟩
  | succ n ih =>
    have hstep := step_sound ih n
    constructor
    · intro W m t env w hW ht hw
      refine Ensures.nested (p := fun v h => v = t ∧ h = m.heap) (fun _ hl => absurd hl (by simp))
        fun m' hm' => ?_
      rw [← hm'] at hW ⊢
      exact hstep.value hW ht hw
    · intro W m t env ρ hW henv ht
      refine Ensures.nested (p := Reached W fun k => evaluate k t ρ)
        (fun _ hl => absurd hl (by simp)) fun m' hm' => ?_
      rw [← hm'] at hW
      exact hstep.lowered hW henv ht

end ByName.Passing

end Letrec
