import Mathlib
import Letrec.Compilation
import Letrec.Proofs.Expr
import Letrec.Proofs.Term
import Letrec.Proofs.Lowering.Shape

/-!
# Compiled programs are closed

The free variables of a lowered expression are those that its free names are referred to by, and
the aliases of `if` and `==`.  A binding of a grouping stands under the bindings of the components
before it, which is enough: a definition mentions only its own component and earlier ones.  Of a
whole program nothing is left free but names of builtin operations (`compile_closed`).

None of this depends on which names the program uses; a program may well bind the names that
lowering makes up.
-/

namespace Letrec

/-! ### Free variables of the terms that lowering builds -/

namespace Term

/-- The term has no object of a heap and no free variable outside of `B`. -/
structure ClosedIn (B : Set String) (t : Term) : Prop where
  lowered : t.Lowered
  free : ∀ y ∈ t.freeVars, y ∈ B

lemma ClosedIn.mono {B B' : Set String} {t : Term} (h : t.ClosedIn B) (hB : B ⊆ B') :
    t.ClosedIn B' := ⟨h.lowered, fun y hy => hB (h.free y hy)⟩

lemma closedIn_var {B : Set String} {x : String} (h : x ∈ B) : (var x).ClosedIn B :=
  ⟨trivial, by simpa [freeVars] using h⟩

lemma closedIn_int {B : Set String} (v : Int64) : (int v).ClosedIn B :=
  ⟨trivial, by simp [freeVars]⟩

lemma ClosedIn.app {B : Set String} {f a : Term} (hf : f.ClosedIn B) (ha : a.ClosedIn B) :
    (app f a).ClosedIn B := by
  refine ⟨⟨hf.lowered, ha.lowered⟩, fun y hy => ?_⟩
  rcases List.mem_append.1 hy with hy | hy
  · exact hf.free y hy
  · exact ha.free y hy

lemma ClosedIn.lam {B : Set String} {x : String} {b : Term} (h : b.ClosedIn (insert x B)) :
    (lam x b).ClosedIn B := by
  refine ⟨h.lowered, fun y hy => ?_⟩
  obtain ⟨hy, hne⟩ := List.mem_filter.1 hy
  exact (h.free y hy).resolve_left (by simpa using hne)

lemma ClosedIn.lams {B : Set String} {xs : List String} {b : Term}
    (h : b.ClosedIn ({x | x ∈ xs} ∪ B)) : (lams xs b).ClosedIn B := by
  induction xs generalizing B with
  | nil =>
    refine h.mono ?_
    simp
  | cons x xs ih =>
    refine .lam (ih (h.mono ?_))
    rintro y (hy | hy)
    · rcases List.mem_cons.1 hy with rfl | hy
      · exact Or.inr (Or.inl rfl)
      · exact Or.inl hy
    · exact Or.inr (Or.inr hy)

lemma ClosedIn.fix {B : Set String} {self : String} {b : Term} (h : b.ClosedIn (insert self B)) :
    (fix self b).ClosedIn B := by
  have hy : y.ClosedIn B := ⟨by decide, by simp [y, yHalf, freeVars]⟩
  exact hy.app h.lam

lemma ClosedIn.cond {B : Set String} {c p n : Term} (hif : ifAlias ∈ B) (hc : c.ClosedIn B)
    (hp : p.ClosedIn B) (hn : n.ClosedIn B) : (cond c p n).ClosedIn B :=
  (((closedIn_var hif).app hc).app hp).app hn

lemma closedIn_selection {B : Set String} (hif : ifAlias ∈ B) (heq : eqAlias ∈ B)
    (htag : tagName ∈ B) {m : DispatchId × Term} {ms : List (DispatchId × Term)}
    (h : ∀ p ∈ m :: ms, p.2.ClosedIn B) : (selection m ms).ClosedIn B := by
  induction ms generalizing m with
  | nil => exact h m (by simp)
  | cons n ms ih =>
    rw [List.forall_mem_cons] at h
    have htest : (tagIs m.1).ClosedIn B :=
      ((closedIn_var heq).app (closedIn_var htag)).app (closedIn_int _)
    exact .cond hif htest h.1 (ih h.2)

lemma closedIn_dispatchTable {B : Set String} (hif : ifAlias ∈ B) (heq : eqAlias ∈ B)
    {table : String} {m : DispatchId × Term} {ms : List (DispatchId × Term)}
    (h : ∀ p ∈ m :: ms, p.2.ClosedIn (insert table B)) : (dispatchTable table m ms).ClosedIn B := by
  refine .fix (.lam (closedIn_selection (by simp [hif]) (by simp [heq]) (by simp) ?_))
  exact fun p hp => (h p hp).mono (Set.subset_insert _ _)

end Term

/-! ### Lowered expressions -/

/-- The term that refers to a name of the scope `s` has no free variable outside of `B`. -/
def Covers (r : Resolution) (B : Set String) (s : ScopeId) (x : String) : Prop :=
  ∀ e, r.tree.lookup s x = some e → (r.context.refer x e).ClosedIn B

lemma Covers.mono {r : Resolution} {B B' : Set String} {s : ScopeId} {x : String}
    (h : Covers r B s x) (hB : B ⊆ B') : Covers r B' s x := fun e he => (h e he).mono hB

/-- Wherever the free names of an expression are covered, it becomes a closed term. -/
def LowersClosed (r : Resolution) (e : Expr Scoped) : Prop :=
  ∀ ⦃s : ScopeId⦄ ⦃t : Term⦄ ⦃B : Set String⦄, r.HasPart s e → Lowers (r.context.expression e) t →
    ifAlias ∈ B → eqAlias ∈ B → (∀ x, e.Free x → Covers r B s x) → t.ClosedIn B

section Lowered

variable {names : List String} {r : Resolution} {ids₀ : List DispatchId} {B : Set String}

/-- A function whose parameters have the scope `a`, in the scope `s`. -/
lemma closedIn_function {ps : List (Ident Scoped)} {b : Expr Scoped} {a s : ScopeId}
    (hb : LowersClosed r b) (hpart : r.HasPart a b) {b' : Term}
    (hlowers : Lowers (r.context.expression b) b') (hif : ifAlias ∈ B) (heq : eqAlias ∈ B)
    (hlookup : ∀ x, r.tree.lookup a x
      = if x ∈ boundParams ps then some .parameter else r.tree.lookup s x)
    (hfree : ∀ x, b.Free x → x ∉ boundParams ps → Covers r B s x) :
    (Term.lams (ps.map Ident.name) b').ClosedIn B := by
  refine .lams (hb hpart hlowers (Or.inr hif) (Or.inr heq) fun x hx e he => ?_)
  rw [hlookup] at he
  split_ifs at he with hp
  · obtain rfl := Option.some.inj he
    exact Term.closedIn_var (Or.inl (mem_boundParams.1 hp).1)
  · exact (hfree x hx hp e he).mono Set.subset_union_right

section Group

variable (hr : r.WellScoped names ids₀) {kind : ScopeKind} {s g : ScopeId} {ids : List DispatchId}
  {ds : List (Definition Scoped)} (hdecl : DeclaredIn r.tree kind s g ids ds)
  (hg : Group r.tree g ids ds) (hmem : (g, ds) ∈ r.program.groups)
  (ih : ∀ d ∈ ds, LowersClosed r d.body)

include hr hdecl hg hmem ih

/-- A definition is closed where the definitions it mentions are covered, and so are the names from
outside of the grouping. -/
lemma closedIn_definition {id : DispatchId} {d : Definition Scoped} (hd : (id, d) ∈ ids.zip ds)
    {code : Term} (hcode : r.context.DefLowers d code) (hif : ifAlias ∈ B) (heq : eqAlias ∈ B)
    (hmentions : ∀ id' d', (id', d') ∈ ids.zip ds → d'.isDiscard = false → r.tree.Mentions d id' →
      (r.context.refer d'.name.name (.binding id')).ClosedIn B)
    (houter : ∀ x, d.body.Free x → x ∉ boundParams d.params → x ∉ boundNames ds →
      Covers r B s x) : code.ClosedIn B := by
  obtain ⟨b, hb, rfl⟩ := hcode
  have hdef := hg.defs.of_mem_zip hd
  have hlookup : ∀ x, r.tree.lookup d.ann.scope x
      = if x ∈ boundParams d.params then some .parameter else r.tree.lookup g x :=
    fun x => lookup_function hr.parents hdef.scope
  refine closedIn_function (s := g) (ih d (List.of_mem_zip hd).2) (hg.hasPart hmem hd) hb hif heq
    hlookup fun x hx hparams e he => ?_
  have he' : r.tree.lookup d.ann.scope x = some e := by rw [hlookup, if_neg hparams, he]
  rcases hg.free_cases hr.parents hdecl hd hx hparams he' with
    ⟨id', d', hd', rfl, hdisc, rfl, hm⟩ | ⟨hbound, he⟩
  · exact hmentions id' d' hd' hdisc hm
  · exact houter x hx hparams hbound e he

omit hdecl ih in
/-- A component is referred to by the variable that it binds. -/
lemma closedIn_refer {c : List DispatchId} (hc : c ∈ r.classify.components g)
    {o : Option (String × Term)} (hlowers : ComponentLowers r.context ids ds c o)
    {id : DispatchId} {d : Definition Scoped} (hd : (id, d) ∈ ids.zip ds)
    (hdisc : d.isDiscard = false) (hid : id ∈ c) :
    ∃ b, o = some b ∧ (r.context.refer d.name.name (.binding id)).ClosedIn {b.1} := by
  have hmemc := (hr.mem_components hmem hg hc).1
  cases hlowers with
  | discarded hd' hdisc' =>
    obtain rfl := List.mem_singleton.1 hid
    obtain rfl := hg.eq_of_mem_zip hd hd'
    exact absurd hdisc' (by simp [hdisc])
  | plain hd' =>
    obtain rfl := List.mem_singleton.1 hid
    obtain rfl := hg.eq_of_mem_zip hd hd'
    exact ⟨_, rfl, hr.refer_eq_var hmemc d.name.name ▸ Term.closedIn_var rfl⟩
  | fixed hd' =>
    obtain rfl := List.mem_singleton.1 hid
    obtain rfl := hg.eq_of_mem_zip hd hd'
    exact ⟨_, rfl, hr.refer_eq_var hmemc d.name.name ▸ Term.closedIn_var rfl⟩
  | @table m n l =>
    refine ⟨_, rfl, ?_⟩
    rw [hr.refer_eq_dispatch hmemc hid]
    have halias : (Term.var (tableAlias m.1)).ClosedIn {tableAlias m.1} := Term.closedIn_var rfl
    exact halias.app (Term.closedIn_int _)

/-- The value of a component is closed where the components before it are covered. -/
lemma closedIn_component {before after : List (List DispatchId)} {c : List DispatchId}
    (hsplit : r.classify.components g = before ++ c :: after) {b : String × Term}
    (hlowers : ComponentLowers r.context ids ds c (some b)) (hif : ifAlias ∈ B) (heq : eqAlias ∈ B)
    (hbefore : ∀ id d, (id, d) ∈ ids.zip ds → d.isDiscard = false → id ∈ before.flatten →
      (r.context.refer d.name.name (.binding id)).ClosedIn B)
    (houter : ∀ d ∈ ds, ∀ x, d.body.Free x → x ∉ boundParams d.params → x ∉ boundNames ds →
      Covers r B s x) : b.2.ClosedIn B := by
  have hc : c ∈ r.classify.components g := by rw [hsplit]; simp
  -- a definition of the component, under a further variable if that is how the component is bound
  have hdef : ∀ {id d code}, (id, d) ∈ ids.zip ds → id ∈ c → r.context.DefLowers d code →
      ∀ {B'}, B ⊆ B' → (r.tree.Mentions d id → c = [id] → b.1 ∈ B') → (c ≠ [id] → b.1 ∈ B') →
      code.ClosedIn B' := by
    intro id d code hd hid hcode B' hB hself hgroup
    refine closedIn_definition hr hdecl hg hmem ih hd hcode (hB hif) (hB heq) ?_
      fun x hx hparams hbound => (houter d (List.of_mem_zip hd).2 x hx hparams hbound).mono hB
    intro id' d' hd' hdisc' hm
    by_cases hid' : id' ∈ c
    · obtain ⟨b', heqb, hrefer⟩ := closedIn_refer hr hg hmem hc hlowers hd' hdisc' hid'
      obtain rfl := Option.some.inj heqb
      refine hrefer.mono (Set.singleton_subset_iff.2 ?_)
      by_cases hsingle : c = [id]
      · have heqid : id' = id := by simpa [hsingle] using hid'
        exact hself (heqid ▸ hm) hsingle
      · exact hgroup hsingle
    · exact (hbefore id' d' hd' hdisc' (hr.mentions_earlier hmem hg hd (List.of_mem_zip hd').1 hm
        hsplit hid hid')).mono hB
  cases hlowers with
  | @plain id d code hd hdisc hcode hself =>
    refine hdef hd (by simp) hcode subset_rfl (fun hm _ => ?_) fun hne => absurd rfl hne
    have hself' : (r.classify.flags id).selfRecursive = false := hself
    exact absurd ((hr.selfRecursive_iff hmem hg hd).2 hm) (by simp [hself'])
  | @fixed id d code hd hdisc hcode hself =>
    exact .fix (hdef hd (by simp) hcode (Set.subset_insert _ _) (fun _ _ => Or.inl rfl)
      fun _ => Or.inl rfl)
  | @table m n l code codes hl hcodes =>
    refine Term.closedIn_dispatchTable hif heq fun q hq => ?_
    obtain ⟨p, hp, heqp, hcode⟩ := forall₂_mem_right hcodes hq
    exact hdef (hl p hp) (List.mem_map_of_mem hp) hcode (Set.subset_insert _ _)
      (fun _ _ => Or.inl rfl) fun _ => Or.inl rfl

/-- A grouping is closed if its body is, wherever the definitions are covered. -/
lemma closedIn_grouping {body : Term} {before after : List (List DispatchId)}
    {os : List (Option (String × Term))} (hif : ifAlias ∈ B) (heq : eqAlias ∈ B)
    (hos : List.Forall₂ (ComponentLowers r.context ids ds) after os)
    (hsplit : r.classify.components g = before ++ after)
    (hbefore : ∀ id d, (id, d) ∈ ids.zip ds → d.isDiscard = false → id ∈ before.flatten →
      (r.context.refer d.name.name (.binding id)).ClosedIn B)
    (houter : ∀ d ∈ ds, ∀ x, d.body.Free x → x ∉ boundParams d.params → x ∉ boundNames ds →
      Covers r B s x)
    (hbody : ∀ B', B ⊆ B' → (∀ id d, (id, d) ∈ ids.zip ds → d.isDiscard = false →
      (r.context.refer d.name.name (.binding id)).ClosedIn B') → body.ClosedIn B') :
    (LowerContext.chain os.reduceOption body).ClosedIn B := by
  induction hos generalizing B before with
  | nil =>
    rw [List.append_nil] at hsplit
    refine hbody B subset_rfl fun id d hd hdisc => hbefore id d hd hdisc ?_
    obtain ⟨hw, hn, -⟩ := callGraph_wellFormed hg
    rw [← hsplit, hr.components_eq hmem, CallGraph.mem_flatten_components hw, hn]
    exact (List.of_mem_zip hd).1
  | @cons c o after os hlowers _ ihos =>
    have hc : c ∈ r.classify.components g := by rw [hsplit]; simp
    have hsplit' : r.classify.components g = (before ++ [c]) ++ after := by simp [hsplit]
    -- once its variable is bound, the component is covered as well
    have hnext : ∀ B', B ⊆ B' → (∀ b, o = some b → b.1 ∈ B') → ∀ id d, (id, d) ∈ ids.zip ds →
        d.isDiscard = false → id ∈ (before ++ [c]).flatten →
        (r.context.refer d.name.name (.binding id)).ClosedIn B' := by
      intro B' hB hb id d hd hdisc hid
      rw [List.flatten_append, List.flatten_singleton] at hid
      rcases List.mem_append.1 hid with hid | hid
      · exact (hbefore id d hd hdisc hid).mono hB
      · obtain ⟨b, heqb, hclosed⟩ := closedIn_refer hr hg hmem hc hlowers hd hdisc hid
        exact hclosed.mono (Set.singleton_subset_iff.2 (hb b heqb))
    cases o with
    | none => exact ihos hif heq hsplit' (hnext B subset_rfl (by simp)) houter hbody
    | some b =>
      have hB : B ⊆ insert b.1 B := Set.subset_insert _ _
      have hvalue := closedIn_component hr hdecl hg hmem ih hsplit hlowers hif heq hbefore houter
      have hrest := ihos (hB hif) (hB heq) hsplit' (hnext _ hB (by simp))
        (fun d hd x hx hparams hbound => (houter d hd x hx hparams hbound).mono hB)
        fun B' hB' => hbody B' (hB.trans hB')
      exact hrest.lam.app hvalue

end Group

/-- A lowered expression has no other free variables than its free names require. -/
lemma lowersClosed (hr : r.WellScoped names ids₀) (e : Expr Scoped) : LowersClosed r e := by
  induction e using Expr.induction with
  | ident i =>
    intro s t B hpart hlowers _ _ hfree
    have hscope := hpart.wellScoped
    rw [Expr.WellScoped] at hscope
    obtain ⟨e, he, rfl⟩ := LowerContext.lowers_ident hlowers
    rw [hscope] at he
    exact hfree i.name (.ident rfl) e he
  | int v a =>
    intro s t B _ hlowers _ _ _
    obtain rfl := LowerContext.lowers_int hlowers
    exact Term.closedIn_int v
  | lam ps b a ih =>
    intro s t B hpart hlowers hif heq hfree
    obtain ⟨b', hb, rfl⟩ := LowerContext.lowers_lam hlowers
    obtain ⟨hscope, hpart⟩ := hpart.lam
    exact closedIn_function ih hpart hb hif heq (fun x => lookup_lambda hr.parents hscope)
      fun x hx hparams => hfree x (.lam hx hparams)
  | call f x a ihf ihx =>
    intro s t B hpart hlowers hif heq hfree
    obtain ⟨f', x', hf, hx, rfl⟩ := LowerContext.lowers_call hlowers
    exact (ihf hpart.call.1 hf hif heq fun y hy => hfree y (.fn hy)).app
      (ihx hpart.call.2 hx hif heq fun y hy => hfree y (.arg hy))
  | ite c p n a ihc ihp ihn =>
    intro s t B hpart hlowers hif heq hfree
    obtain ⟨c', p', n', hc, hp, hn, rfl⟩ := LowerContext.lowers_ite hlowers
    exact .cond hif (ihc hpart.ite.1 hc hif heq fun y hy => hfree y (.cond hy))
      (ihp hpart.ite.2.1 hp hif heq fun y hy => hfree y (.pos hy))
      (ihn hpart.ite.2.2 hn hif heq fun y hy => hfree y (.neg hy))
  | letIn ds b a ihds ihb =>
    intro s t B hpart hlowers hif heq hfree
    obtain ⟨hmem, hpartb, ids, hdecl, hg⟩ := hpart.letIn
    obtain ⟨b', hb, hlowers⟩ := LowerContext.lowers_letIn hlowers
    obtain ⟨os, hos, rfl⟩ := hr.lowers_grouping hmem hg hlowers
    refine closedIn_grouping hr hdecl hg hmem ihds hif heq hos (List.nil_append _).symm
      (by simp) (fun d hd x hx hparams hbound => hfree x (.binding hd hx hparams hbound)) ?_
    intro B' hB hdefs
    refine ihb hpartb hb (hB hif) (hB heq) fun x hx e he => ?_
    -- a name of the body is one of the grouping, or it is free in the whole block
    by_cases hbound : x ∈ boundNames ds
    · obtain ⟨d, hd, rfl, hdisc⟩ := mem_boundNames.1 hbound
      obtain ⟨id, hid⟩ := exists_mem_zip_of_mem_right hg.length hd
      rw [lookup_group_of_mem hr.parents hdecl hg.length hid hdisc] at he
      obtain rfl := Option.some.inj he
      exact hdefs id d hid hdisc
    · rw [lookup_group_of_notMem hr.parents hdecl hg.length hbound] at he
      exact (hfree x (.body hx hbound) e he).mono hB

end Lowered

/-! ### Programs -/

/-- In the root scope a name denotes a builtin operation or nothing. -/
lemma Resolution.WellScoped.lookup_root {names : List String} {r : Resolution}
    {ids : List DispatchId} (hr : r.WellScoped names ids) {x : String} {e : Entry}
    (h : r.tree.lookup ScopeTree.root x = some e) : e = .builtin ∧ x ∈ names := by
  rw [r.tree.lookup_eq hr.parents hr.root] at h
  simp only [Option.bind_none, Option.or_none] at h
  obtain ⟨y, hy, heq⟩ := List.mem_map.1 (mem_of_lookup_eq_some h)
  obtain ⟨rfl, rfl⟩ := Prod.mk.inj heq
  exact ⟨rfl, hy⟩

/-- A lowered program is closed wherever `if`, `==` and the builtin names are. -/
lemma Resolution.WellScoped.closedIn_lower {names : List String} {r : Resolution}
    {ids : List DispatchId} (hr : r.WellScoped names ids) {entry : String} {t : Term}
    (hlowers : Lowers (r.lower r.classify entry) t) {B : Set String} (hnames : {x | x ∈ names} ⊆ B)
    (hif : "if" ∈ B) (heq : "==" ∈ B) : t.ClosedIn B := by
  obtain ⟨id, d, os, hd, rfl, hdisc, hos, rfl⟩ := hr.lowers_program hlowers
  refine .app (.lam (.app (.lam ?_) (Term.closedIn_var (Or.inr heq)))) (Term.closedIn_var hif)
  refine closedIn_grouping hr hr.declared hr.program_group List.mem_cons_self
    (fun d _ => lowersClosed hr d.body) (Or.inr (Or.inl rfl)) (Or.inl rfl) hos
    (List.nil_append _).symm (by simp) ?_
    fun B' _ hdefs => hdefs id d hd hdisc
  intro d' _ x _ _ _ e he
  obtain ⟨rfl, hx⟩ := hr.lookup_root he
  exact Term.closedIn_var (Or.inr (Or.inr (hnames hx)))

/-- Nothing is left free in a compiled program but names of builtin operations. -/
theorem compile_closed {names : List String} {entry : String} {p : Program Span}
    {log log' : Array Event} {c : Compiled} (h : compile names entry p log = .ok c log')
    (hif : "if" ∈ names) (heq : "==" ∈ names) : c.term.ClosedIn {x | x ∈ names} := by
  obtain ⟨-, ids, hr, hlowers⟩ := compile_eq_ok h
  exact hr.closedIn_lower hlowers subset_rfl hif heq

/-- Nothing is left free in a lowered program but names of builtin operations, `if` and `==`,
whatever names the program uses. -/
theorem lower_closed {names : List String} {seed : DispatchId} {p : Program Span} {entry : String}
    {log log' log₁ log₂ : Array Event} {r : Resolution} {t : Term}
    (hresolve : resolve names seed p log = .ok r log')
    (hlower : r.lower r.classify entry log₁ = .ok t log₂) :
    ∀ x ∈ t.freeVars, x ∈ names ∨ x = "if" ∨ x = "==" := by
  obtain ⟨-, ids, hr⟩ := resolve_wellScoped hresolve
  exact (hr.closedIn_lower (B := {x | x ∈ names ∨ x = "if" ∨ x = "=="}) ⟨log₁, log₂, hlower⟩
    (fun x hx => Or.inl hx) (Or.inr (Or.inl rfl)) (Or.inr (Or.inr rfl))).free

/-- `even <tag> = odd <tag>` and `odd <if> = let f <==> = f (even <if>); _ = f in if <if> then f
else even`, started at `even`: the parameters have the names that lowering makes up. -/
def hiddenAliases : Program Span where
  defs :=
    [⟨⟨"even", .nowhere⟩, [⟨"<tag>", .nowhere⟩],
      .call (.ident ⟨"odd", .nowhere⟩) (.ident ⟨"<tag>", .nowhere⟩) .nowhere, .nowhere⟩,
     ⟨⟨"odd", .nowhere⟩, [⟨"<if>", .nowhere⟩],
      .letIn
        [⟨⟨"f", .nowhere⟩, [⟨"<==>", .nowhere⟩],
          .call (.ident ⟨"f", .nowhere⟩)
            (.call (.ident ⟨"even", .nowhere⟩) (.ident ⟨"<if>", .nowhere⟩) .nowhere) .nowhere,
          .nowhere⟩,
         ⟨⟨"_", .nowhere⟩, [], .ident ⟨"f", .nowhere⟩, .nowhere⟩]
        (.ite (.ident ⟨"<if>", .nowhere⟩) (.ident ⟨"f", .nowhere⟩) (.ident ⟨"even", .nowhere⟩)
          .nowhere) .nowhere, .nowhere⟩]
  ann := .nowhere

theorem lower_closed_hiddenAliases : ∃ r log t log', resolve [] 7 hiddenAliases #[] = .ok r log ∧
    r.lower r.classify "even" #[] = .ok t log' ∧ t.freeVars = ["==", "if"] ∧
    ∀ x ∈ t.freeVars, x ∈ ([] : List String) ∨ x = "if" ∨ x = "==" := by
  have hfree : ((value? (resolve [] 7 hiddenAliases #[])).bind fun r =>
      (value? (r.lower r.classify "even" #[])).map Term.freeVars) = some ["==", "if"] := by
    decide +kernel
  obtain ⟨r, hr, hfree⟩ := Option.bind_eq_some_iff.1 hfree
  obtain ⟨t, ht, hfree⟩ := Option.map_eq_some_iff.1 hfree
  obtain ⟨log, hr⟩ := value?_eq_some.1 hr
  obtain ⟨log', ht⟩ := value?_eq_some.1 ht
  exact ⟨r, log, t, log', hr, ht, hfree, lower_closed hr ht⟩

end Letrec
