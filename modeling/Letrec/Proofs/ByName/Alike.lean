import Mathlib
import Letrec.Proofs.Answered
import Letrec.Proofs.ByName.Recursive

/-!
# Fixed points unfolded any number of times

Each unfolding of a fixed point leaves another object behind (`IsFix`), so two ways to reach a body
meet in environments that are not equal.  `Alike` relates the objects that differ only in how often
the fixed points in them are unfolded.  Evaluation does not tell such environments apart:
`answered_evaluate`.
-/

namespace Letrec.ByName

/-- The objects differ only in how often the fixed points in them are unfolded. -/
inductive Alike : Object → Object → Prop
  | int (v : Int64) : Alike (.int v) (.int v)
  | closure (x : String) (b : Term) {ρ ρ' : Env} : ρ.map Prod.fst = ρ'.map Prod.fst →
      (∀ (i : ℕ) (p q : String × Object), ρ[i]? = some p → ρ'[i]? = some q → Alike p.2 q.2) →
      Alike (.closure x b ρ) (.closure x b ρ')
  | builtin (p : Primitive) {args args' : List Object} : args.length = args'.length →
      (∀ (i : ℕ) o o', args[i]? = some o → args'[i]? = some o' → Alike o o') →
      Alike (.builtin p args) (.builtin p args')
  | pair (t : Term) {ρ ρ' : Env} : ρ.map Prod.fst = ρ'.map Prod.fst →
      (∀ (i : ℕ) (p q : String × Object), ρ[i]? = some p → ρ'[i]? = some q → Alike p.2 q.2) →
      Alike (.pair t ρ) (.pair t ρ')
  | fix {self : String} {body : Term} {ρ ρ' : Env} {o o' : Object} : IsFix self body ρ o →
      IsFix self body ρ' o' → ρ.map Prod.fst = ρ'.map Prod.fst →
      (∀ (i : ℕ) (p q : String × Object), ρ[i]? = some p → ρ'[i]? = some q → Alike p.2 q.2) →
      Alike o o'

/-- The environments bind the same names to objects that are alike. -/
structure AlikeEnv (ρ ρ' : Env) : Prop where
  names : ρ.map Prod.fst = ρ'.map Prod.fst
  objects : ∀ (i : ℕ) (p q : String × Object), ρ[i]? = some p → ρ'[i]? = some q → Alike p.2 q.2

lemma Alike.symm {o o' : Object} (h : Alike o o') : Alike o' o := by
  induction h with
  | int v => exact .int v
  | closure x b hnames _ ih => exact .closure x b hnames.symm fun i p q hp hq => ih i q p hq hp
  | builtin p hlen _ ih => exact .builtin p hlen.symm fun i o o' ho ho' => ih i o' o ho' ho
  | pair t hnames _ ih => exact .pair t hnames.symm fun i p q hp hq => ih i q p hq hp
  | fix ho ho' hnames _ ih => exact .fix ho' ho hnames.symm fun i p q hp hq => ih i q p hq hp

namespace AlikeEnv

variable {ρ ρ' : Env} {o o' : Object}

lemma symm (h : AlikeEnv ρ ρ') : AlikeEnv ρ' ρ :=
  ⟨h.names.symm, fun i p q hp hq => (h.objects i q p hq hp).symm⟩

lemma nil : AlikeEnv [] [] := ⟨rfl, by simp⟩

lemma cons (x : String) (ho : Alike o o') (h : AlikeEnv ρ ρ') :
    AlikeEnv ((x, o) :: ρ) ((x, o') :: ρ') where
  names := by rw [List.map_cons, List.map_cons, h.names]
  objects i p q hp hq := by
    cases i with
    | zero =>
      obtain rfl := Option.some.inj hp
      obtain rfl := Option.some.inj hq
      exact ho
    | succ i => exact h.objects i p q hp hq

/-- A name stands for nothing in both environments, or for objects that are alike. -/
lemma lookup (h : AlikeEnv ρ ρ') (x : String) :
    (ρ.lookup x = none ∧ ρ'.lookup x = none) ∨
      ∃ o o', ρ.lookup x = some o ∧ ρ'.lookup x = some o' ∧ Alike o o' := by
  induction ρ generalizing ρ' with
  | nil =>
    obtain rfl := List.map_eq_nil_iff.1 h.names.symm
    exact Or.inl ⟨rfl, rfl⟩
  | cons p ρ ih =>
    obtain ⟨y, o⟩ := p
    obtain ⟨⟨y', o'⟩, ρ', rfl, rfl, hnames⟩ := List.map_eq_cons_iff.1 h.names.symm
    rw [lookup_cons_ite, lookup_cons_ite]
    split_ifs with hx
    · exact Or.inr ⟨o, o', rfl, rfl, h.objects 0 _ _ rfl rfl⟩
    · exact ih ⟨hnames.symm, fun i p q hp hq => h.objects (i + 1) p q hp hq⟩

end AlikeEnv

mutual

/-- Every object is like itself. -/
lemma Alike.refl : ∀ o, Alike o o
  | .int v => .int v
  | .closure x b ρ => .closure x b rfl (AlikeEnv.refl ρ).objects
  | .builtin p args => .builtin p rfl (alike_args args)
  | .pair t ρ => .pair t rfl (AlikeEnv.refl ρ).objects

lemma AlikeEnv.refl : ∀ ρ, AlikeEnv ρ ρ
  | [] => .nil
  | (x, o) :: ρ => .cons x (Alike.refl o) (AlikeEnv.refl ρ)

lemma alike_args : ∀ (args : List Object) (i : ℕ) o o', args[i]? = some o → args[i]? = some o' →
    Alike o o'
  | [], _, _, _, ho, _ => absurd ho (by simp)
  | o :: _, 0, _, _, ho, ho' => by
    obtain rfl := Option.some.inj ho
    obtain rfl := Option.some.inj ho'
    exact Alike.refl o
  | _ :: args, i + 1, o, o', ho, ho' => alike_args args i o o' ho ho'

end

/-! ### Objects that are alike -/

section Objects

variable {o o' : Object}

lemma alike_builtin_iff {p : Primitive} {args args' : List Object} :
    Alike (.builtin p args) (.builtin p args') ↔ List.Forall₂ Alike args args' := by
  rw [List.forall₂_iff_get]
  constructor
  · intro h
    cases h with
    | builtin _ hlen hargs =>
      refine ⟨hlen, fun i hi hi' => hargs i _ _ ?_ ?_⟩
      · exact List.getElem?_eq_getElem hi
      · exact List.getElem?_eq_getElem hi'
    | fix ho => exact nomatch ho
  · rintro ⟨hlen, hargs⟩
    refine .builtin p hlen fun i o o' ho ho' => ?_
    obtain ⟨hi, rfl⟩ := List.getElem?_eq_some_iff.1 ho
    obtain ⟨hi', rfl⟩ := List.getElem?_eq_some_iff.1 ho'
    exact hargs i hi hi'

lemma Alike.text_eq (h : Alike o o') : o.text = o'.text := by
  cases h with
  | int v => rfl
  | closure => rfl
  | builtin p hlen => simp only [Object.text, List.isEmpty_iff_length_eq_zero, hlen]
  | pair => rfl
  | fix ho ho' =>
    cases ho <;> cases ho' <;> rfl

lemma Alike.int?_eq (h : Alike o o') : o.int? = o'.int? := by
  have htext := h.text_eq
  cases h with
  | int v => rfl
  | closure => rfl
  | builtin p hlen => exact congrArg Except.error htext
  | pair => rfl
  | fix ho ho' =>
    cases ho <;> cases ho' <;> rfl

end Objects

/-! ### Evaluation -/

/-- An operation is called with one more argument. -/
lemma answered_apply_builtin {R : Object → Object → Prop} {K : EvalError → EvalError → Prop}
    {ev : Term → Env → Answer} (h : Respects R K (force ev) (fun k => force (evaluate k))
      Object.int? Object.int? .int .int id id) (p : Primitive)
    (hbuiltin : ∀ {args args'}, List.Forall₂ R args args' → R (.builtin p args) (.builtin p args'))
    {args args' : List Object} (hargs : List.Forall₂ R args args') {o o' : Object} (ho : R o o') :
    Answered R K (apply ev (.builtin p args) o) fun k =>
      apply (evaluate k) (.builtin p args') o' := by
  have hall : List.Forall₂ R (args ++ [o]) (args' ++ [o']) := List.rel_append hargs (.cons ho .nil)
  unfold apply
  dsimp only
  rw [← hall.length_eq]
  split_ifs
  · exact .throw (h.error _)
  · exact .pure (hbuiltin hall)
  · exact h.run p hall

section Rules

variable {n : ℕ} (hev : ∀ {t : Term} {ρ ρ' : Env}, AlikeEnv ρ ρ' →
  Answered Alike Eq (evaluate n t ρ) fun k => evaluate k t ρ')

include hev

lemma answered_force {o o' : Object} (h : Alike o o') :
    Answered Alike Eq (force (evaluate n) o) fun k => force (evaluate k) o' := by
  cases h with
  | int v => exact .pure (.int v)
  | closure x b hnames hobjects => exact .pure (.closure x b hnames hobjects)
  | builtin p hlen hargs => exact .pure (.builtin p hlen hargs)
  | pair t hnames hobjects => exact hev ⟨hnames, hobjects⟩
  | @fix self body ρ ρ' _ _ ho ho' hnames hobjects =>
    -- each of the two is its body under a binding of the name to a fixed point again
    obtain ⟨u, hu, hslower⟩ := ho.unfold
    obtain ⟨u', hu', hslower'⟩ := ho'.unfold
    have halike : Alike u u' := .fix hu hu' hnames hobjects
    exact .of_below (hslower.below n)
      (.of_yields hslower'.yields (hev (AlikeEnv.cons self halike ⟨hnames, hobjects⟩)))

lemma respects_alike : Respects Alike Eq (force (evaluate n)) (fun k => force (evaluate k))
    Object.int? Object.int? .int .int id id where
  force := answered_force hev
  growing := force_growing
  ofInt := .int
  int? {o o'} h := by
    rw [← h.int?_eq]
    cases o.int? with
    | ok v => exact Or.inl ⟨v, rfl, rfl⟩
    | error found => exact Or.inr ⟨found, found, rfl, rfl, fun _ => rfl, rfl⟩
  error _ := rfl

lemma answered_apply {f f' o o' : Object} (hf : Alike f f') (ho : Alike o o') :
    Answered Alike Eq (apply (evaluate n) f o) fun k => apply (evaluate k) f' o' := by
  have htext := hf.text_eq
  cases hf with
  | int v => exact .throw rfl
  | closure x b hnames hobjects => exact hev (.cons x ho ⟨hnames, hobjects⟩)
  | builtin p hlen hargs =>
    exact answered_apply_builtin (respects_alike hev) p alike_builtin_iff.2
      (alike_builtin_iff.1 (.builtin p hlen hargs)) ho
  | pair t => exact .throw rfl
  | fix ho ho' =>
    cases ho <;> cases ho' <;> exact .throw rfl

end Rules

/-- Evaluation does not tell environments apart that are alike. -/
theorem answered_evaluate (n : ℕ) {t : Term} {ρ ρ' : Env} (h : AlikeEnv ρ ρ') :
    Answered Alike Eq (evaluate n t ρ) fun k => evaluate k t ρ' := by
  induction n generalizing t ρ ρ' with
  | zero => exact .never
  | succ n ih =>
    refine .of_yields (delays_evaluate t ρ').yields ?_
    show Answered Alike Eq (step (evaluate n) t ρ) fun k => step (evaluate k) t ρ'
    cases t with
    | int v => exact .pure (.int v)
    | lam x b => exact .pure (.closure x b h.names h.objects)
    | var x =>
      unfold step
      rcases h.lookup x with ⟨hx, hx'⟩ | ⟨o, o', hx, hx', ho⟩
      · simp only [hx, hx']
        exact .throw rfl
      · simp only [hx, hx']
        exact answered_force ih ho
    | app f a =>
      exact (ih h).bind (fun w w' hw => answered_apply ih hw (.pair a h.names h.objects))
        (evaluate_growing f ρ') fun w' => apply_growing w' _
    | _ => exact .never

end Letrec.ByName
