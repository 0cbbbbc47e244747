import Mathlib
import Letrec.Proofs.Expr
import Letrec.Proofs.Surface.Grouping

/-!
# Lowered expressions mean what the expressions mean

The rules of the two semantics are compared one by one, for an evaluator that is right within the
bound `n`; the last rule is that for expressions, by induction on the expression
(`follows_expression`).  Together they carry the induction on the bound (`follows_evaluate`).
-/

namespace Letrec.Surface

/-- The kind is that of the error. -/
def KindOf (k : EvalError.Kind) (e : EvalError) : Prop := k = e.kind

/-! ### Matching expressions -/

section Matching

variable {names : List String} {r : Resolution} {ids₀ : List DispatchId}
  {ρ : Env} {ρ' : ByName.Env}

/-- A function is called: its first parameter is bound. -/
lemma Matches.bind (hr : r.WellScoped names ids₀) {x : String} {xs : List String} {b : Expr Scoped}
    {b' : Term} (h : Matches r (x :: xs) b b' ρ ρ') {o : Object} {o' : ByName.Object}
    (ho : Sim r o o') : Matches r xs b b' (extend x o ρ) ((x, o') :: ρ') := by
  obtain ⟨hpart, haliased, hrefers⟩ := h
  have hx : ¬ Generated x := hpart.avoids x List.mem_cons_self
  have hpart' : Part r xs _ b b' :=
    { hpart with
      avoids := fun y hy => hpart.avoids y (List.mem_cons_of_mem x hy)
      params := fun y hy => hpart.params y (List.mem_cons_of_mem x hy) }
  refine .intro hpart' (haliased.extend_name hx o') ?_
  intro y e hy hxs he
  by_cases hxy : x = y
  · subst hxy
    -- the discard denotes nothing, so the parameter binds its name
    have hdisc : isDiscard x = false := by
      refine beq_eq_false_iff_ne.2 ?_
      rintro rfl
      rw [hpart.discards] at he
      exact Option.some_ne_none e he.symm
    rw [hpart.params x List.mem_cons_self hdisc] at he
    obtain rfl := Option.some.inj he
    exact .object rfl (lookup_extend_self hdisc o ρ) List.lookup_cons_self ho
  · -- other names do not see the parameter, in either environment
    have hy' : y ∉ x :: xs := List.not_mem_cons_of_ne_of_not_mem (Ne.symm hxy) hxs
    have hrefer := hrefers y e hy hy' he
    exact (hrefer.congr hr (lookup_extend_of_ne hxy o ρ) fun _ _ => rfl).extend_right hr
      (notMem_freeVars_refer hr hx hxy) o'

/-- An expression that is a part of another one. -/
lemma Matches.sub {e e₁ : Expr Scoped} {t t₁ : Term} (h : Matches r [] e t ρ ρ')
    (hpart : ∀ {a}, r.HasPart a e → r.HasPart a e₁)
    (hlowers : Lowers (r.context.expression e₁) t₁) (hnames : ∀ x ∈ e₁.names, x ∈ e.names)
    (hfree : ∀ y, e₁.Free y → e.Free y) : Matches r [] e₁ t₁ ρ ρ' := by
  obtain ⟨hp, haliased, hrefers⟩ := h
  refine .intro ⟨hpart hp.part, hlowers, fun x hx => hp.avoids x (hnames x hx), hp.params,
    hp.discards⟩ haliased ?_
  intro y e hy hxs he
  exact hrefers y e (hfree y hy) hxs he

/-- The function that an anonymous function is. -/
lemma Matches.lam (hr : r.WellScoped names ids₀) {ps : List (Ident Scoped)} {b : Expr Scoped}
    {a : Scoped} {t : Term} (h : Matches r [] (.lam ps b a) t ρ ρ') :
    ∃ b', t = .lams (ps.map Ident.name) b' ∧ Matches r (ps.map Ident.name) b b' ρ ρ' := by
  obtain ⟨hp, haliased, hrefers⟩ := h
  obtain ⟨b', hb, rfl⟩ := LowerContext.lowers_lam hp.lowers
  obtain ⟨hscope, hpart⟩ := hp.part.lam
  have hlookup := fun x => lookup_lambda (x := x) hr.parents hscope
  refine ⟨b', rfl, .intro (a := a.scope) ⟨hpart, hb, hp.avoids, ?_, ?_⟩ haliased ?_⟩
  · intro x hx hdisc
    rw [hlookup, if_pos (mem_boundParams.2 ⟨hx, hdisc⟩)]
  · rw [hlookup, if_neg notMem_boundParams_discard, hp.discards]
  · intro y e hy hxs he
    have hbound : y ∉ boundParams ps := fun h => hxs (mem_boundParams.1 h).1
    rw [hlookup, if_neg hbound] at he
    exact hrefers y e (.lam hy hbound) (List.not_mem_nil) he

/-- The body of a `let` block, where the definitions are bound. -/
lemma Matches.letIn (hr : r.WellScoped names ids₀) {ds : List (Definition Scoped)} {b : Expr Scoped}
    {a : Scoped} {t : Term} (h : Matches r [] (.letIn ds b a) t ρ ρ') :
    ∃ b' ρ'', Matches r [] b b' (groupFrame ds :: ρ) ρ'' ∧
      Slower (fun n => ByName.evaluate n t ρ') fun n => ByName.evaluate n b' ρ'' := by
  obtain @⟨_, s, _, _, _, _, hp, haliased, hrefers⟩ := h
  obtain ⟨hmem, hpart, ids, hdecl, hg⟩ := hp.part.letIn
  obtain ⟨b', hb, hlowers⟩ := LowerContext.lowers_letIn hp.lowers
  obtain ⟨os, hos, rfl⟩ := hr.lowers_grouping hmem hg hlowers
  have havoids : ∀ x ∈ namesOfDefs ds ++ b.names, ¬ Generated x := hp.avoids
  have hdefs : ∀ x ∈ namesOfDefs ds, ¬ Generated x := fun x hx =>
    havoids x (List.mem_append_left _ hx)
  have hdiscard : r.tree.lookup a.scope discard = none := by
    rw [lookup_group_of_notMem hr.parents hdecl hg.length notMem_boundNames_discard, hp.discards]
  -- names from outside are found behind the new frame
  have hstart : Binds r s ids ds {y | (Expr.letIn ds b a).Free y}
      (List.flatten []) ρ ρ' := by
    refine ⟨haliased, fun y e hy hbound he => ?_, fun id d _ _ hid => absurd hid (by simp)⟩
    exact (hrefers y e hy List.not_mem_nil he).congr hr (lookup_groupFrame_of_notMem hbound)
      fun _ _ => rfl
  obtain ⟨ρ'', hbinds, hslower⟩ := slower_chain hr hdecl hg hmem hdefs hdiscard
    (fun y hy => hp.avoids y (Expr.Free.mem_names hy))
    (fun d hd y hy hparams hbound => .binding hd hy hparams hbound) b' hos rfl hstart
  refine ⟨b', ρ'', .intro (a := a.scope) ⟨hpart, hb, ?_, ?_, hdiscard⟩ hbinds.aliased ?_, hslower⟩
  · exact fun x hx => havoids x (List.mem_append_right _ hx)
  · exact fun x hx => absurd hx List.not_mem_nil
  · intro y e hy _ he
    by_cases hbound : y ∈ boundNames ds
    · obtain ⟨d, hd, rfl, hdisc⟩ := mem_boundNames.1 hbound
      obtain ⟨id, hid⟩ := exists_mem_zip_of_mem_right hg.length hd
      rw [lookup_group_of_mem hr.parents hdecl hg.length hid hdisc] at he
      obtain rfl := Option.some.inj he
      exact hbinds.bound id d hid hdisc (List.of_mem_zip hid).1
    · rw [lookup_group_of_notMem hr.parents hdecl hg.length hbound] at he
      exact hbinds.outer y e (.body hy hbound) hbound he

end Matching

/-! ### Arguments of operations -/

lemma sim_builtin_iff {r : Resolution} {p : Primitive} {args : List Object}
    {args' : List ByName.Object} :
    Sim r (.builtin p args) (.builtin p args') ↔ List.Forall₂ (Sim r) args args' := by
  rw [List.forall₂_iff_get]
  constructor
  · intro h
    cases h with
    | builtin hlen hargs =>
      refine ⟨hlen, fun i hi hi' => hargs i _ _ ?_ ?_⟩
      · rw [List.getElem?_eq_getElem hi]
        rfl
      · rw [List.getElem?_eq_getElem hi']
        rfl
  · rintro ⟨hlen, hargs⟩
    refine .builtin hlen fun i o o' ho ho' => ?_
    obtain ⟨hi, rfl⟩ := List.getElem?_eq_some_iff.1 ho
    obtain ⟨hi', rfl⟩ := List.getElem?_eq_some_iff.1 ho'
    exact hargs i hi hi'

/-! ### Rules -/

section Rules

variable {r : Resolution} {n : ℕ} (hev : ∀ {e t ρ ρ'}, Matches r [] e t ρ ρ' →
  Follows n (Sim r) KindOf (evaluate n (e.map Scoped.span) ρ) fun k => ByName.evaluate k t ρ')

include hev

lemma follows_enter {xs : List String} {b : Expr Scoped} {b' : Term} {ρ : Env} {ρ' : ByName.Env}
    (h : Matches r xs b b' ρ ρ') :
    Follows n (Sim r) KindOf (enter (evaluate n) xs (b.map Scoped.span) ρ)
      fun k => ByName.evaluate k (.lams xs b') ρ' := by
  cases xs with
  | nil => exact hev h
  | cons x xs => exact .of_slower ByName.slower_lam (.pure (.fn h))

lemma follows_force {o : Object} {o' : ByName.Object} (h : Sim r o o') :
    Follows n (Sim r) KindOf (force (evaluate n) o)
      fun k => ByName.force (ByName.evaluate k) o' := by
  cases h with
  | suspended h => exact follows_enter hev h
  | int v => exact .pure (.int v)
  | builtin hlen hargs => exact .pure (.builtin hlen hargs)
  | fn h => exact .pure (.fn h)

/-- The integers that objects have to be are the same. -/
lemma follows_forceInteger {o : Object} {o' : ByName.Object} (h : Sim r o o')
    {otherwise : String → EvalError}
    (hkind : ∀ found found', (otherwise found).kind = (otherwise found').kind) :
    Follows n Eq KindOf
      (forceInteger (force (evaluate n)) Object.int? EvalError.kind otherwise o) fun k =>
        forceInteger (ByName.force (ByName.evaluate k)) ByName.Object.int? id otherwise o' := by
  refine .bind (follows_force hev h) (fun w w' hw => ?_) (ByName.force_growing o')
    fun w' => growing_const _
  -- the texts of the objects differ, but the kind of the error does not depend on them
  cases hw with
  | int v => exact .pure rfl
  | _ => exact .throw (hkind _ _)

/-- The standard operations do the same. -/
lemma follows_run {p : Primitive} {args : List Object} {args' : List ByName.Object}
    (hlen : args.length = p.arity) (h : List.Forall₂ (Sim r) args args') :
    Follows n (Sim r) KindOf
      (p.run (force (evaluate n)) Object.int? .int EvalError.kind args)
      fun k => p.run (ByName.force (ByName.evaluate k)) ByName.Object.int? .int id args' := by
  cases p with
  | binary name f =>
    obtain ⟨a, b, rfl⟩ := List.length_eq_two.1 hlen
    obtain _ | ⟨ha, _ | ⟨hb, _ | _⟩⟩ := h
    have hgrow : ∀ o, Growing fun k => forceInteger (ByName.force (ByName.evaluate k))
        ByName.Object.int? id (.expectedInteger name) o :=
      forceInteger_growing ByName.force_growing _
    refine .bind (follows_forceInteger hev ha fun _ _ => rfl) (fun x x' hx => ?_) (hgrow _)
      fun x' => (hgrow _).bind fun y' => growing_const _
    refine .bind (follows_forceInteger hev hb fun _ _ => rfl) (fun y y' hy => ?_) (hgrow _)
      fun y' => growing_const _
    subst hx hy
    cases f x y with
    | ok v => exact .pure (.int v)
    | error e => exact .throw rfl
  | conditional =>
    obtain ⟨c, t, e, rfl⟩ := List.length_eq_three.1 hlen
    obtain _ | ⟨hc, _ | ⟨ht, _ | ⟨he, _ | _⟩⟩⟩ := h
    refine .bind (follows_forceInteger hev hc fun _ _ => rfl) (fun i i' hi => ?_)
      (forceInteger_growing ByName.force_growing _ _) fun i' => ByName.force_growing _
    subst hi
    by_cases hi : i ≠ 0
    · simp only [if_pos hi]
      exact follows_force hev ht
    · simp only [if_neg hi]
      exact follows_force hev he

variable {names : List String} {ids₀ : List DispatchId} (hr : r.WellScoped names ids₀)

include hr

lemma follows_apply {f o : Object} {f' o' : ByName.Object} (hf : Sim r f f') (ho : Sim r o o') :
    Follows n (Sim r) KindOf (apply (evaluate n) f o)
      fun k => ByName.apply (ByName.evaluate k) f' o' := by
  cases hf with
  | int v => exact .throw rfl
  | suspended h => exact .throw rfl
  | fn h => exact follows_enter hev (h.bind hr ho)
  | @builtin p args args' hlen hargs =>
    have hall : List.Forall₂ (Sim r) (args ++ [o]) (args' ++ [o']) :=
      List.rel_append (sim_builtin_iff.1 (.builtin (p := p) hlen hargs)) (.cons ho .nil)
    have hlen' := hall.length_eq
    unfold apply ByName.apply
    dsimp only
    rw [← hlen']
    -- too many arguments, too few, or all of them
    by_cases hlt : p.arity < (args ++ [o]).length
    · simp only [if_pos hlt]
      exact .throw rfl
    by_cases hgt : (args ++ [o]).length < p.arity
    · simp only [if_neg hlt, if_pos hgt]
      exact .pure (sim_builtin_iff.2 hall)
    · simp only [if_neg hlt, if_neg hgt]
      exact follows_run hev (by omega) hall

/-- What a name refers to is evaluated alike. -/
lemma follows_refer {y : String} {e : Entry} {ρ : Env} {ρ' : ByName.Env} (h : Refers r y e ρ ρ') :
    ∃ o, lookup y ρ = some o ∧ Follows (n + 1) (Sim r) KindOf (force (evaluate n) o)
      fun k => ByName.evaluate k (r.context.refer y e) ρ' := by
  cases h with
  | object hrefer hy hy' hsim =>
    refine ⟨_, hy, ?_⟩
    rw [hrefer]
    exact .of_delays (ByName.delays_var hy') (follows_force hev hsim)
  | member hc hd hid hy hz ho haliased houter =>
    obtain ⟨b', ρ₁', hmatches, hdelays⟩ := member_delays hr hc haliased houter hd hid hz ho
    exact ⟨_, hy, .of_delays hdelays (follows_enter hev hmatches)⟩

/-- An expression and its lowered form are evaluated alike. -/
lemma follows_expression {e : Expr Scoped} {t : Term} {ρ : Env} {ρ' : ByName.Env}
    (h : Matches r [] e t ρ ρ') :
    Follows (n + 1) (Sim r) KindOf (step (evaluate n) (e.map Scoped.span) ρ)
      fun k => ByName.evaluate k t ρ' := by
  induction e using Expr.induction generalizing t ρ ρ' with
  | ident i =>
    obtain ⟨hp, -, hrefers⟩ := h
    obtain ⟨e, he, rfl⟩ := LowerContext.lowers_ident hp.lowers
    have hscope := hp.part.wellScoped
    rw [Expr.WellScoped] at hscope
    subst hscope
    obtain ⟨o, ho, hfollows⟩ :=
      follows_refer hev hr (hrefers i.name e (.ident rfl) List.not_mem_nil he)
    have hstep : step (evaluate n) ((Expr.ident i).map Scoped.span) ρ = force (evaluate n) o := by
      simp only [Expr.map, Ident.map, step, ho]
    rw [hstep]
    exact hfollows
  | int v a =>
    obtain ⟨hp, -, -⟩ := h
    obtain rfl := LowerContext.lowers_int hp.lowers
    exact .of_slower (ByName.slower_int v) (.pure (.int v))
  | lam ps b a ih =>
    obtain ⟨b', rfl, hb⟩ := h.lam hr
    cases ps with
    | nil => exact ih hb
    | cons p ps =>
      have hstep : step (evaluate n) ((Expr.lam (p :: ps) b a).map Scoped.span) ρ
          = pure (.fn p.name (ps.map Ident.name) (b.map Scoped.span) ρ) := by
        simp [Expr.map, Ident.map, step, Function.comp_def]
      rw [hstep]
      exact .of_slower ByName.slower_lam (.pure (.fn hb))
  | call f x a ihf ihx =>
    obtain ⟨hp, -, -⟩ := id h
    obtain ⟨f', x', hf, hx, rfl⟩ := LowerContext.lowers_call hp.lowers
    have hf' : Matches r [] f f' ρ ρ' :=
      h.sub (fun hp => hp.call.1) hf (fun y hy => List.mem_append_left _ hy) fun y hy => .fn hy
    have hx' : Matches r [] x x' ρ ρ' :=
      h.sub (fun hp => hp.call.2) hx (fun y hy => List.mem_append_right _ hy) fun y hy => .arg hy
    refine .of_delays ByName.delays_app (.bind (hev hf') (fun w w' hw => ?_)
      (ByName.evaluate_growing _ _) fun w' => ByName.apply_growing w' _)
    exact follows_apply hev hr hw (.suspended hx')
  | ite c p m a ihc ihp ihm =>
    obtain ⟨hp, haliased, -⟩ := id h
    obtain ⟨c', p', m', hc, hp', hm, rfl⟩ := LowerContext.lowers_ite hp.lowers
    have hc' : Matches r [] c c' ρ ρ' := h.sub (fun hp => hp.ite.1) hc
      (fun y hy => List.mem_append_left _ (List.mem_append_left _ hy)) fun y hy => .cond hy
    have hp' : Matches r [] p p' ρ ρ' := h.sub (fun hp => hp.ite.2.1) hp'
      (fun y hy => List.mem_append_left _ (List.mem_append_right _ hy)) fun y hy => .pos hy
    have hm' : Matches r [] m m' ρ ρ' := h.sub (fun hp => hp.ite.2.2) hm
      (fun y hy => List.mem_append_right _ hy) fun y hy => .neg hy
    refine .of_delays (ByName.delays_cond haliased p' m')
      (.bind (follows_forceInteger hev (.suspended hc') fun _ _ => rfl) (fun i i' hi => ?_)
        (forceInteger_growing ByName.force_growing _ _) fun i' => ByName.evaluate_growing _ _)
    subst hi
    by_cases hi : i ≠ 0
    · simp only [if_pos hi]
      exact hev hp'
    · simp only [if_neg hi]
      exact hev hm'
  | letIn ds b a _ ihb =>
    -- the body takes no step of its own, which is what the inner induction is for
    obtain ⟨b', ρ'', hb, hslower⟩ := h.letIn hr
    exact .of_slower hslower (ihb hb)

end Rules

/-- Within any bound an expression and its lowered form are evaluated alike. -/
lemma follows_evaluate {names : List String} {r : Resolution} {ids₀ : List DispatchId}
    (hr : r.WellScoped names ids₀) (n : ℕ) {e : Expr Scoped} {t : Term} {ρ : Env}
    {ρ' : ByName.Env} (h : Matches r [] e t ρ ρ') :
    Follows n (Sim r) KindOf (evaluate n (e.map Scoped.span) ρ)
      fun k => ByName.evaluate k t ρ' := by
  induction n generalizing e t ρ ρ' with
  | zero => exact .zero fun _ => Partial.never_gives
  | succ n ih => exact follows_expression ih hr h

end Letrec.Surface
