import Mathlib
import Letrec.Proofs.ByName.Alike
import Letrec.Proofs.Surface.Evaluation

/-!
# Terms up to the names of their variables

`Term.Alpha V t t'` says that the terms differ only in the names of their variables, bound ones at
will and free ones by `V`.  A parameter must not catch a variable of the other term, which is what
`UnderBinder` asks for.

Evaluated by name in environments that fit, such terms end alike (`answered_alpha`).  Errors may
carry the names of variables, so only their kinds are the same.
-/

namespace Letrec

/-- Inside of two functions their parameters stand for each other, and so do the names that did
outside and are not hidden. -/
def UnderBinder (V : String → String → Prop) (y y' z z' : String) : Prop :=
  (z = y ∧ z' = y') ∨ (z ≠ y ∧ z' ≠ y' ∧ V z z')

/-- The terms differ only in the names of their variables; free ones stand for each other by `V`. -/
inductive Term.Alpha : (String → String → Prop) → Term → Term → Prop
  | var {V : String → String → Prop} {y y' : String} : V y y' → Alpha V (.var y) (.var y')
  | int {V : String → String → Prop} {v : Int64} : Alpha V (.int v) (.int v)
  | lam {V : String → String → Prop} {y y' : String} {b b' : Term} :
      Alpha (UnderBinder V y y') b b' → Alpha V (.lam y b) (.lam y' b')
  | app {V : String → String → Prop} {f f' a a' : Term} : Alpha V f f' → Alpha V a a' →
      Alpha V (.app f a) (.app f' a')

namespace Term.Alpha

variable {V V' : String → String → Prop} {t t' : Term}

/-- Only the free variables matter. -/
lemma mono (h : t.Alpha V t') (hV : ∀ z z', z ∈ t.freeVars → V z z' → V' z z') :
    t.Alpha V' t' := by
  induction h generalizing V' with
  | var hy => exact .var (hV _ _ (by simp [freeVars]) hy)
  | int => exact .int
  | @lam V y y' b b' _ ih =>
    refine .lam (ih fun z z' hz hzz' => ?_)
    rcases hzz' with hbound | ⟨hne, hne', hfree⟩
    · exact Or.inl hbound
    · exact Or.inr ⟨hne, hne', hV z z' (by simp [freeVars, hz, hne]) hfree⟩
  | app _ _ ihf iha =>
    refine .app (ihf fun z z' hz => hV z z' ?_) (iha fun z z' hz => hV z z' ?_)
    · exact List.mem_append_left _ hz
    · exact List.mem_append_right _ hz

lemma symm (h : t.Alpha V t') : t'.Alpha (fun z' z => V z z') t := by
  induction h with
  | var hy => exact .var hy
  | int => exact .int
  | @lam V y y' b b' _ ih =>
    refine .lam (ih.mono fun z' z _ hz => ?_)
    rcases hz with ⟨rfl, rfl⟩ | ⟨hne, hne', hfree⟩
    · exact Or.inl ⟨rfl, rfl⟩
    · exact Or.inr ⟨hne', hne, hfree⟩
  | app _ _ ihf iha => exact .app ihf iha

/-- A lowered term whose free variables stand for themselves differs from itself in nothing. -/
lemma of_freeVars (ht : t.Lowered) (hV : ∀ z ∈ t.freeVars, V z z) : t.Alpha V t := by
  induction t generalizing V with
  | var y => exact .var (hV y (by simp [freeVars]))
  | int v => exact .int
  | lam y b ih =>
    refine .lam (ih ht fun z hz => ?_)
    by_cases hzy : z = y
    · exact Or.inl ⟨hzy, hzy⟩
    · exact Or.inr ⟨hzy, hzy, hV z (by simp [freeVars, hz, hzy])⟩
  | app f a ihf iha =>
    exact .app (ihf ht.1 fun z hz => hV z (List.mem_append_left _ hz))
      (iha ht.2 fun z hz => hV z (List.mem_append_right _ hz))
  | closure a => exact ht.elim
  | thunk a => exact ht.elim
  | builtin a => exact ht.elim

end Term.Alpha

namespace ByName

/-- The objects differ only in the names of variables. -/
inductive Object.Alpha : Object → Object → Prop
  | int (v : Int64) : Object.Alpha (.int v) (.int v)
  | closure {V : String → String → Prop} {y y' : String} {b b' : Term} {ρ ρ' : Env} :
      (Term.lam y b).Alpha V (.lam y' b') →
      (∀ z z', V z z' → (ρ.lookup z = none ↔ ρ'.lookup z' = none)) →
      (∀ z z' o o', V z z' → ρ.lookup z = some o → ρ'.lookup z' = some o' → Object.Alpha o o') →
      Object.Alpha (.closure y b ρ) (.closure y' b' ρ')
  | builtin (p : Primitive) {args args' : List Object} : List.Forall₂ Object.Alpha args args' →
      Object.Alpha (.builtin p args) (.builtin p args')
  | pair {V : String → String → Prop} {t t' : Term} {ρ ρ' : Env} : t.Alpha V t' →
      (∀ z z', V z z' → (ρ.lookup z = none ↔ ρ'.lookup z' = none)) →
      (∀ z z' o o', V z z' → ρ.lookup z = some o → ρ'.lookup z' = some o' → Object.Alpha o o') →
      Object.Alpha (.pair t ρ) (.pair t' ρ')

/-- Names that stand for each other are bound to objects that differ only in the names of
variables, or both are not bound. -/
structure EnvAlpha (V : String → String → Prop) (ρ ρ' : Env) : Prop where
  bound : ∀ z z', V z z' → (ρ.lookup z = none ↔ ρ'.lookup z' = none)
  objects : ∀ z z' o o', V z z' → ρ.lookup z = some o → ρ'.lookup z' = some o' → o.Alpha o'

lemma EnvAlpha.cons {V : String → String → Prop} {ρ ρ' : Env} (h : EnvAlpha V ρ ρ') {y y' : String}
    {o o' : Object} (ho : o.Alpha o') :
    EnvAlpha (UnderBinder V y y') ((y, o) :: ρ) ((y', o') :: ρ') where
  bound z z' hz := by
    rw [lookup_cons_ite, lookup_cons_ite]
    rcases hz with ⟨rfl, rfl⟩ | ⟨hne, hne', hfree⟩
    · simp
    · rw [if_neg hne, if_neg hne']
      exact h.bound z z' hfree
  objects z z' u u' hz hu hu' := by
    rw [lookup_cons_ite] at hu hu'
    rcases hz with ⟨rfl, rfl⟩ | ⟨hne, hne', hfree⟩
    · rw [if_pos rfl] at hu hu'
      obtain rfl := Option.some.inj hu
      obtain rfl := Option.some.inj hu'
      exact ho
    · rw [if_neg hne] at hu
      rw [if_neg hne'] at hu'
      exact h.objects z z' u u' hfree hu hu'

/-! ### Evaluation -/

section Rules

variable {n : ℕ} (hev : ∀ {V : String → String → Prop} {t t' : Term} {ρ ρ' : Env}, t.Alpha V t' →
  EnvAlpha V ρ ρ' → Answered Object.Alpha (fun e e' => e.kind = e'.kind) (evaluate n t ρ)
    fun k => evaluate k t' ρ')

include hev

lemma answered_force_alpha {o o' : Object} (h : o.Alpha o') :
    Answered Object.Alpha (fun e e' => e.kind = e'.kind) (force (evaluate n) o)
      fun k => force (evaluate k) o' := by
  cases h with
  | int v => exact .pure (.int v)
  | closure hb hbound hobjects => exact .pure (.closure hb hbound hobjects)
  | builtin p hargs => exact .pure (.builtin p hargs)
  | pair ht hbound hobjects => exact hev ht ⟨hbound, hobjects⟩

lemma respects_alpha : Respects Object.Alpha (fun e e' => e.kind = e'.kind) (force (evaluate n))
    (fun k => force (evaluate k)) Object.int? Object.int? .int .int id id where
  force := answered_force_alpha hev
  growing := force_growing
  ofInt := .int
  int? h := by
    cases h with
    | int v => exact Or.inl ⟨v, rfl, rfl⟩
    | _ => exact Or.inr ⟨_, _, rfl, rfl, fun _ => rfl, rfl⟩
  error _ := rfl

lemma answered_apply_alpha {f f' o o' : Object} (hf : f.Alpha f') (ho : o.Alpha o') :
    Answered Object.Alpha (fun e e' => e.kind = e'.kind) (apply (evaluate n) f o)
      fun k => apply (evaluate k) f' o' := by
  cases hf with
  | int v => exact .throw rfl
  | closure hb hbound hobjects =>
    cases hb with
    | lam hb => exact hev hb (EnvAlpha.cons ⟨hbound, hobjects⟩ ho)
  | builtin p hargs => exact answered_apply_builtin (respects_alpha hev) p (.builtin p) hargs ho
  | pair => exact .throw rfl

end Rules

/-- Terms that differ only in the names of their variables end alike. -/
theorem answered_alpha (n : ℕ) {V : String → String → Prop} {t t' : Term} {ρ ρ' : Env}
    (ht : t.Alpha V t') (hρ : EnvAlpha V ρ ρ') :
    Answered Object.Alpha (fun e e' => e.kind = e'.kind) (evaluate n t ρ)
      fun k => evaluate k t' ρ' := by
  induction n generalizing V t t' ρ ρ' with
  | zero => exact .never
  | succ n ih =>
    refine .of_yields (delays_evaluate t' ρ').yields ?_
    show Answered Object.Alpha _ (step (evaluate n) t ρ) fun k => step (evaluate k) t' ρ'
    cases ht with
    | @var _ y y' hy =>
      unfold step
      dsimp only
      cases hlookup : ρ.lookup y with
      | none =>
        simp only [(hρ.bound y y' hy).1 hlookup]
        exact .throw rfl
      | some o =>
        cases hlookup' : ρ'.lookup y' with
        | none => exact absurd ((hρ.bound y y' hy).2 hlookup') (by simp [hlookup])
        | some o' => exact answered_force_alpha ih (hρ.objects y y' o o' hy hlookup hlookup')
    | int => exact .pure (.int _)
    | lam hb => exact .pure (.closure (.lam hb) hρ.bound hρ.objects)
    | app hf ha =>
      exact (ih hf hρ).bind
        (fun w w' hw => answered_apply_alpha ih hw (.pair ha hρ.bound hρ.objects))
        (evaluate_growing _ _) fun w' => apply_growing w' _

/-- A term with other names of variables evaluates to the same integer. -/
lemma evaluates_int_of_alpha {V : String → String → Prop} {t t' : Term} {ρ ρ' : Env}
    (ht : t.Alpha V t') (hρ : EnvAlpha V ρ ρ') {v : Int64} (h : Evaluates t ρ (.ok (.int v))) :
    Evaluates t' ρ' (.ok (.int v)) := by
  obtain ⟨r, hr, hagree⟩ := Answered.yields (fun n => answered_alpha n ht hρ) h
  cases r with
  | error e => exact hagree.elim
  | ok o =>
    obtain ⟨⟩ : Object.Alpha (.int v) o := hagree
    exact hr

/-- A term with other names of variables evaluates to an error of the same kind. -/
lemma evaluates_error_of_alpha {V : String → String → Prop} {t t' : Term} {ρ ρ' : Env}
    (ht : t.Alpha V t') (hρ : EnvAlpha V ρ ρ') {e : EvalError} (h : Evaluates t ρ (.error e)) :
    ∃ e', e'.kind = e.kind ∧ Evaluates t' ρ' (.error e') := by
  obtain ⟨r, hr, hagree⟩ := Answered.yields (fun n => answered_alpha n ht hρ) h
  cases r with
  | ok o => exact hagree.elim
  | error e' =>
    have hkind : e.kind = e'.kind := hagree
    exact ⟨e', hkind.symm, hr⟩

end ByName

end Letrec
