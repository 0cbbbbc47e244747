import Mathlib
import Letrec.Proofs.Answered
import Letrec.Proofs.Reorder.Relation
import Letrec.Proofs.Surface.Evaluation

/-!
# The order of definitions and the meaning of a program

Evaluation of a program as it is written looks a name up among the definitions of a frame.  Where
the definitions of a frame bind different names, their order does not matter: two programs with the
same definitions in different orders go through objects that differ in the same way, and mean the
same (`means_of_reorders`).
-/

namespace Letrec.Surface

/-- The second expression is the first one with its definitions in another order, and the binders of
each scope are distinct. -/
structure Rearranged (e e' : Expr Span) : Prop where
  reorders : e.Reorders (fun _ _ => True) e'
  distinct : e.Distinct

/-- The second list of definitions is the first one in another order, at every depth, and the
binders of each scope are distinct. -/
structure RearrangedDefs (ds ds' : List (Definition Span)) : Prop where
  permuted : Permuted (Definition.Reorders fun _ _ => True) ds ds'
  nodup : (boundNames ds).Nodup
  distinct : DefsDistinct ds

mutual

/-- The objects differ only in the order of the definitions in them. -/
inductive Object.Rearranged : Object → Object → Prop
  | int (v : Int64) : Object.Rearranged (.int v) (.int v)
  | fn {x : String} {xs : List String} {b b' : Expr Span} {ρ ρ' : Env} : Rearranged b b' →
      EnvRearranged ρ ρ' → Object.Rearranged (.fn x xs b ρ) (.fn x xs b' ρ')
  | builtin {p : Primitive} {args args' : List Object} :
      List.Forall₂ Object.Rearranged args args' →
      Object.Rearranged (.builtin p args) (.builtin p args')
  | suspended {xs : List String} {b b' : Expr Span} {ρ ρ' : Env} : Rearranged b b' →
      EnvRearranged ρ ρ' → Object.Rearranged (.suspended xs b ρ) (.suspended xs b' ρ')

/-- The environments differ only in the order of the definitions in them. -/
inductive EnvRearranged : Env → Env → Prop
  | nil : EnvRearranged [] []
  | bind {x : String} {o o' : Object} {ρ ρ' : Env} : Object.Rearranged o o' → EnvRearranged ρ ρ' →
      EnvRearranged (.bind x o :: ρ) (.bind x o' :: ρ')
  | recursive {ds ds' : List (Definition Span)} {ρ ρ' : Env} : RearrangedDefs ds ds' →
      EnvRearranged ρ ρ' → EnvRearranged (.recursive ds :: ρ) (.recursive ds' :: ρ')

end

/-! ### Names -/

/-- A name finds no definition in both orders, or a definition and its partner. -/
lemma RearrangedDefs.find? {ds ds' : List (Definition Span)} (h : RearrangedDefs ds ds')
    (x : String) :
    (ds.find? (fun d => !d.isDiscard && d.name.name == x) = none ∧
      ds'.find? (fun d => !d.isDiscard && d.name.name == x) = none) ∨
    ∃ d d', ds.find? (fun d => !d.isDiscard && d.name.name == x) = some d ∧
      ds'.find? (fun d => !d.isDiscard && d.name.name == x) = some d' ∧
      d ∈ ds ∧ d.Reorders (fun _ _ => True) d' := by
  have hhead : ∀ {d d' : Definition Span}, d.SameHead d' →
      (!d.isDiscard && d.name.name == x) = (!d'.isDiscard && d'.name.name == x) := by
    intro d d' hd
    rw [hd.isDiscard_eq, hd.name]
  cases hfind : ds.find? (fun d => !d.isDiscard && d.name.name == x) with
  | none =>
    refine Or.inl ⟨rfl, List.find?_eq_none.2 fun d' hd' => ?_⟩
    obtain ⟨d, hd, hpartner⟩ := h.permuted.mem_right hd'
    rw [← hhead hpartner.head]
    exact List.find?_eq_none.1 hfind d hd
  | some d =>
    have hd := List.mem_of_find?_eq_some hfind
    have hx := List.find?_some hfind
    cases hfind' : ds'.find? (fun d => !d.isDiscard && d.name.name == x) with
    | none =>
      obtain ⟨d', hd', hpartner⟩ := h.permuted.mem_left hd
      rw [hhead hpartner.head] at hx
      exact absurd hx (List.find?_eq_none.1 hfind' d' hd')
    | some d' =>
      -- the partner of what is found has the same name, so it is the one that is found
      obtain ⟨d₁, hd₁, hpartner⟩ := h.permuted.mem_right (List.mem_of_find?_eq_some hfind')
      have hx₁ := List.find?_some hfind'
      rw [← hhead hpartner.head] at hx₁
      rw [Bool.and_eq_true, beq_iff_eq] at hx hx₁
      obtain rfl : d₁ = d := List.inj_on_of_nodup_map h.nodup (List.mem_filter.2 ⟨hd₁, hx₁.1⟩)
        (List.mem_filter.2 ⟨hd, hx.1⟩) (hx₁.2.trans hx.2.symm)
      exact Or.inr ⟨d₁, d', rfl, rfl, hd, hpartner⟩

/-- A name stands for nothing in both environments, or for objects in another order. -/
lemma EnvRearranged.lookup (x : String) {ρ ρ' : Env} (h : EnvRearranged ρ ρ') :
    (Surface.lookup x ρ = none ∧ Surface.lookup x ρ' = none) ∨
      ∃ o o', Surface.lookup x ρ = some o ∧ Surface.lookup x ρ' = some o' ∧ o.Rearranged o' := by
  induction ρ generalizing ρ' with
  | nil =>
    cases h
    exact Or.inl ⟨rfl, rfl⟩
  | cons f ρ ih =>
    cases h with
    | @bind y o o' _ ρ' ho hρ =>
      rw [Surface.lookup, Surface.lookup]
      split_ifs with hx
      · exact Or.inr ⟨o, o', rfl, rfl, ho⟩
      · exact ih hρ
    | @recursive ds ds' _ ρ' hds hρ =>
      rw [Surface.lookup, Surface.lookup]
      rcases hds.find? x with ⟨hd, hd'⟩ | ⟨d, d', hd, hd', hmem, hpartner⟩
      · simp only [hd, hd']
        exact ih hρ
      · simp only [hd, hd', hpartner.head.params]
        have hbody : d.body.Distinct := (defsDistinct_iff.1 hds.distinct d hmem).2
        exact Or.inr ⟨_, _, rfl, rfl, .suspended ⟨hpartner.body, hbody⟩ (.recursive hds hρ)⟩

lemma EnvRearranged.extend {ρ ρ' : Env} (h : EnvRearranged ρ ρ') (x : String) {o o' : Object}
    (ho : o.Rearranged o') : EnvRearranged (extend x o ρ) (extend x o' ρ') := by
  unfold Surface.extend
  split_ifs
  · exact h
  · exact .bind ho h

/-! ### Evaluation -/

section Rules

variable {n : ℕ} (hev : ∀ {e e' : Expr Span} {ρ ρ' : Env}, Rearranged e e' → EnvRearranged ρ ρ' →
  Answered Object.Rearranged Eq (evaluate n e ρ) fun k => evaluate k e' ρ')

include hev

lemma answered_enter (xs : List String) {b b' : Expr Span} {ρ ρ' : Env} (hb : Rearranged b b')
    (hρ : EnvRearranged ρ ρ') : Answered Object.Rearranged Eq (enter (evaluate n) xs b ρ)
      fun k => enter (evaluate k) xs b' ρ' := by
  cases xs with
  | nil => exact hev hb hρ
  | cons x xs => exact .pure (.fn hb hρ)

lemma answered_force {o o' : Object} (h : o.Rearranged o') :
    Answered Object.Rearranged Eq (force (evaluate n) o) fun k => force (evaluate k) o' := by
  cases h with
  | int v => exact .pure (.int v)
  | fn hb hρ => exact .pure (.fn hb hρ)
  | builtin hargs => exact .pure (.builtin hargs)
  | suspended hb hρ => exact answered_enter hev _ hb hρ

lemma respects_rearranged : Respects Object.Rearranged Eq (force (evaluate n))
    (fun k => force (evaluate k)) Object.int? Object.int? .int .int EvalError.kind
    EvalError.kind where
  force := answered_force hev
  growing := force_growing
  ofInt := .int
  int? h := by
    cases h with
    | int v => exact Or.inl ⟨v, rfl, rfl⟩
    | _ => exact Or.inr ⟨_, _, rfl, rfl, fun _ => rfl, rfl⟩
  error _ := rfl

lemma answered_apply {f f' o o' : Object} (hf : f.Rearranged f') (ho : o.Rearranged o') :
    Answered Object.Rearranged Eq (apply (evaluate n) f o) fun k => apply (evaluate k) f' o' := by
  cases hf with
  | int v => exact .throw rfl
  | fn hb hρ => exact answered_enter hev _ hb (hρ.extend _ ho)
  | @builtin p args args' hargs =>
    have hall := List.rel_append hargs (.cons ho .nil)
    unfold apply
    dsimp only
    rw [← hall.length_eq]
    split_ifs
    · exact .throw rfl
    · exact .pure (.builtin hall)
    · exact (respects_rearranged hev).run p hall
  | suspended => exact .throw rfl

lemma answered_step {e e' : Expr Span} (he : e.Reorders (fun _ _ => True) e') :
    ∀ {ρ ρ' : Env}, e.Distinct → EnvRearranged ρ ρ' →
      Answered Object.Rearranged Eq (step (evaluate n) e ρ) fun k => step (evaluate k) e' ρ' := by
  induction he using Expr.Reorders.induction with
  | @ident i i' hi =>
    intro ρ ρ' _ hρ
    unfold step
    rw [← hi]
    rcases hρ.lookup i.name with ⟨hx, hx'⟩ | ⟨o, o', hx, hx', ho⟩
    · simp only [hx, hx']
      exact .throw rfl
    · simp only [hx, hx']
      exact answered_force hev ho
  | int => exact fun _ _ => .pure (.int _)
  | @lam ps ps' b b' a a' hps hb ih =>
    intro ρ ρ' hdistinct hρ
    rw [Expr.Distinct] at hdistinct
    cases ps with
    | nil =>
      obtain rfl := List.map_eq_nil_iff.1 hps.symm
      exact ih hdistinct.2 hρ
    | cons p ps =>
      obtain ⟨p', ps', rfl, hp, hps⟩ := List.map_eq_cons_iff.1 hps.symm
      simp only [step, hp, hps]
      exact .pure (.fn ⟨hb, hdistinct.2⟩ hρ)
  | call hf hx _ _ =>
    intro ρ ρ' hdistinct hρ
    rw [Expr.Distinct] at hdistinct
    exact (hev ⟨hf, hdistinct.1⟩ hρ).bind
      (fun w w' hw => answered_apply hev hw (.suspended ⟨hx, hdistinct.2⟩ hρ))
      (evaluate_growing _ _) fun w' => apply_growing w' _
  | ite hc hp hn _ _ _ =>
    intro ρ ρ' hdistinct hρ
    rw [Expr.Distinct] at hdistinct
    refine ((respects_rearranged hev).forceInteger (.inl rfl)
      (.suspended ⟨hc, hdistinct.1⟩ hρ)).bind ?_ (forceInteger_growing force_growing _ _)
      fun i => evaluate_growing _ _
    rintro i _ rfl
    split_ifs
    · exact hev ⟨hp, hdistinct.2.1⟩ hρ
    · exact hev ⟨hn, hdistinct.2.2⟩ hρ
  | letIn hds _ _ ihb =>
    intro ρ ρ' hdistinct hρ
    rw [Expr.Distinct] at hdistinct
    exact ihb hdistinct.2.2 (.recursive ⟨hds, hdistinct.1, hdistinct.2.1⟩ hρ)

end Rules

/-- Evaluation does not see the order of definitions. -/
theorem answered_evaluate (n : ℕ) {e e' : Expr Span} {ρ ρ' : Env} (he : Rearranged e e')
    (hρ : EnvRearranged ρ ρ') :
    Answered Object.Rearranged Eq (evaluate n e ρ) fun k => evaluate k e' ρ' := by
  induction n generalizing e e' ρ ρ' with
  | zero => exact .never
  | succ n ih =>
    refine .of_yields ?_ (answered_step ih he.reorders he.distinct hρ)
    rintro r ⟨k, hk⟩
    exact ⟨k + 1, hk⟩

/-! ### Programs -/

lemma envRearranged_standard : EnvRearranged standard standard := by
  unfold standard
  induction Primitive.standard with
  | nil => exact .nil
  | cons p ps ih => exact .bind (.builtin .nil) ih

/-- A program means in one order of its definitions what it means in another one. -/
theorem means_of_reorders {R : Definition Span → Definition Span → Prop} {p p' : Program Span}
    (h : p.Reorders R p') (hp : p.Distinct) {entry : String} {r : Except EvalError.Kind Int64}
    (hr : Means p entry r) : Means p' entry r := by
  have hds : Permuted (Definition.Reorders fun _ _ => True) p.defs p'.defs :=
    Permuted.imp h fun d d' hd => ⟨hd.head, trivial, hd.body.imp fun _ _ _ => trivial⟩
  have henv : EnvRearranged (.recursive p.defs :: standard) (.recursive p'.defs :: standard) :=
    .recursive ⟨hds, hp.1, hp.2⟩ envRearranged_standard
  have hanswered : ∀ n, Answered Object.Rearranged Eq (run n p entry) fun k => run k p' entry :=
    fun n => answered_evaluate n ⟨.ident rfl, trivial⟩ henv
  obtain ⟨s, hs, hagree⟩ := Answered.yields hanswered hr
  cases r with
  | error k =>
    cases s with
    | ok w => exact hagree.elim
    | error k' =>
      obtain rfl : k = k' := hagree
      exact hs
  | ok v =>
    cases s with
    | error k' => exact hagree.elim
    | ok w =>
      obtain ⟨⟩ : Object.Rearranged (.int v) w := hagree
      exact hs

end Letrec.Surface
