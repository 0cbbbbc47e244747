import Mathlib
import Letrec.Proofs.Lowering.Failure
import Letrec.Proofs.Reorder.Surface
import Letrec.Proofs.Unlimited

/-!
# The order of definitions does not matter

A program with its definitions in another order resolves just if the program does, with the same
flags for the same definitions; it is refused by lowering just if the program is; and it runs to the
same results (`order_irrelevant`).

The numbers of the definitions, their components and the term are others, so nothing is compared
there: the flags are described by the names that are free in the definitions, and the results by the
meaning of the program as it is written.
-/

namespace Letrec

variable {R : Definition Scoped → Definition Scoped → Prop}

/-- A definition of one program is recursive in the same ways as a definition of another one. -/
def Resolution.SameFlags (r r' : Resolution) (d d' : Definition Scoped) : Prop :=
  ∃ id id', r.tree.Numbers id d ∧ r'.tree.Numbers id' d' ∧
    r.classify.flags id = r'.classify.flags id'

/-- In two scopes of two programs the same names denote something. -/
def Resolution.SameScope (r r' : Resolution) (s s' : ScopeId) : Prop :=
  ∀ x, r.tree.lookup s x = none ↔ r'.tree.lookup s' x = none

section TwoResolutions

variable {names names' : List String} {r r' : Resolution} {ids₀ ids₀' : List DispatchId}
  (hr : r.WellScoped names ids₀) (hr' : r'.WellScoped names' ids₀')

include hr hr'

/-! ### Flags -/

lemma sameFlags_of_permuted {g g' : ScopeId} {ids ids' : List DispatchId}
    {ds ds' : List (Definition Scoped)} (hg : Group r.tree g ids ds)
    (hg' : Group r'.tree g' ids' ds') (hmem : (g, ds) ∈ r.program.groups)
    (hmem' : (g', ds') ∈ r'.program.groups) (h : Permuted (Definition.Reorders R) ds ds')
    {d d' : Definition Scoped} (hd : d ∈ ds) (hd' : d' ∈ ds') (hpartner : d.Reorders R d') :
    r.SameFlags r' d d' := by
  obtain ⟨id, hid⟩ := exists_mem_zip_of_mem_right hg.length hd
  obtain ⟨id', hid'⟩ := exists_mem_zip_of_mem_right hg'.length hd'
  refine ⟨id, id', (hg.numbers_iff hd).2 hid, (hg'.numbers_iff hd').2 hid', ?_⟩
  have hdisc := hpartner.head.isDiscard_eq
  cases hd₀ : d.isDiscard with
  | true =>
    rw [hr.flags_discard hmem hg hid hd₀, hr'.flags_discard hmem' hg' hid' (hdisc ▸ hd₀)]
  | false =>
    obtain ⟨hself, hmutual⟩ := hr.flags_by_name hg hid hmem hd₀
    obtain ⟨hself', hmutual'⟩ := hr'.flags_by_name hg' hid' hmem' (hdisc ▸ hd₀)
    have hnames := Permuted.boundNames h fun d d' hd => hd.head
    rw [← hpartner.head.name, ← hpartner.free_iff] at hself'
    rw [← hpartner.head.name, ← uses_eq_of_permuted h] at hmutual'
    simp only [← hnames.mem_iff] at hmutual'
    have hself'' := Bool.eq_iff_iff.2 (hself.trans hself'.symm)
    have hmutual'' := Bool.eq_iff_iff.2 (hmutual.trans hmutual'.symm)
    cases hflags : r.classify.flags id with
    | mk self mutually =>
      cases hflags' : r'.classify.flags id' with
      | mk self' mutually' =>
        rw [hflags, hflags'] at hself'' hmutual''
        rw [Flags.mk.injEq]
        exact ⟨hself'', hmutual''⟩

/-- The definitions inside of an expression and their partners are recursive in the same ways. -/
lemma Expr.Reorders.with_flags {e e' : Expr Scoped} (h : e.Reorders R e') :
    ∀ {s s' : ScopeId}, r.HasPart s e → r'.HasPart s' e' →
      e.Reorders (fun d d' => R d d' ∧ r.SameFlags r' d d') e' := by
  induction h using Expr.Reorders.induction with
  | ident hi => exact fun _ _ => .ident hi
  | int => exact fun _ _ => .int
  | lam hps _ ih => exact fun he he' => .lam hps (ih he.lam.2 he'.lam.2)
  | call _ _ ihf ihx =>
    exact fun he he' => .call (ihf he.call.1 he'.call.1) (ihx he.call.2 he'.call.2)
  | ite _ _ _ ihc ihp ihn =>
    exact fun he he' => .ite (ihc he.ite.1 he'.ite.1) (ihp he.ite.2.1 he'.ite.2.1)
      (ihn he.ite.2.2 he'.ite.2.2)
  | letIn hds _ ihds ihb =>
    intro s s' he he'
    obtain ⟨hmem, hb, ids, -, hg⟩ := he.letIn
    obtain ⟨hmem', hb', ids', -, hg'⟩ := he'.letIn
    refine .of_permuted (ihds.imp_of_mem fun d hd d' hd' ⟨hpartner, ih⟩ => ?_) (ihb hb hb')
    obtain ⟨id, hid⟩ := exists_mem_zip_of_mem_right hg.length hd
    obtain ⟨id', hid'⟩ := exists_mem_zip_of_mem_right hg'.length hd'
    exact ⟨hpartner.head,
      ⟨hpartner.rel, sameFlags_of_permuted hr hr' hg hg' hmem hmem' hds hd hd' hpartner⟩,
      ih (hg.hasPart hmem hid) (hg'.hasPart hmem' hid')⟩

/-- The definitions of a program and their partners are recursive in the same ways. -/
lemma Program.Reorders.with_flags (h : r.program.Reorders R r'.program) :
    r.program.Reorders (fun d d' => R d d' ∧ r.SameFlags r' d d') r'.program := by
  have hg := hr.program_group
  have hg' := hr'.program_group
  refine Permuted.imp_of_mem h fun d hd d' hd' hpartner => ?_
  obtain ⟨id, hid⟩ := exists_mem_zip_of_mem_right hg.length hd
  obtain ⟨id', hid'⟩ := exists_mem_zip_of_mem_right hg'.length hd'
  refine ⟨hpartner.head, ⟨hpartner.rel, ?_⟩, ?_⟩
  · exact sameFlags_of_permuted hr hr' hg hg' List.mem_cons_self List.mem_cons_self h hd hd'
      hpartner
  · exact hpartner.body.with_flags hr hr' (hg.hasPart List.mem_cons_self hid)
      (hg'.hasPart List.mem_cons_self hid')

/-! ### Names that denote nothing -/

lemma sameScope_lambda {s s' a a' : ScopeId} {ps ps' : List (Ident Scoped)}
    (h : r.SameScope r' s s') (ha : r.tree.scopes[a]? = some (lambdaScope s ps))
    (ha' : r'.tree.scopes[a']? = some (lambdaScope s' ps'))
    (hps : ps.map Ident.name = ps'.map Ident.name) : r.SameScope r' a a' := by
  intro x
  rw [lookup_lambda hr.parents ha, lookup_lambda hr'.parents ha', boundParams_congr hps]
  split_ifs
  · simp
  · exact h x

lemma sameScope_function {s s' a a' : ScopeId} {id id' : DispatchId} {ps ps' : List (Ident Scoped)}
    (h : r.SameScope r' s s') (ha : r.tree.scopes[a]? = some (functionScope s id ps))
    (ha' : r'.tree.scopes[a']? = some (functionScope s' id' ps'))
    (hps : ps.map Ident.name = ps'.map Ident.name) : r.SameScope r' a a' := by
  intro x
  rw [lookup_function hr.parents ha, lookup_function hr'.parents ha', boundParams_congr hps]
  split_ifs
  · simp
  · exact h x

lemma sameScope_group {s s' g g' : ScopeId} {kind kind' : ScopeKind} {ids ids' : List DispatchId}
    {ds ds' : List (Definition Scoped)} (h : r.SameScope r' s s')
    (hdecl : DeclaredIn r.tree kind s g ids ds) (hdecl' : DeclaredIn r'.tree kind' s' g' ids' ds')
    (hg : Group r.tree g ids ds) (hg' : Group r'.tree g' ids' ds')
    (hnames : (boundNames ds).Perm (boundNames ds')) : r.SameScope r' g g' := by
  intro x
  rcases lookup_group_cases hr.parents hdecl hg.length x with
    ⟨hx, heq⟩ | ⟨id, d, hd, rfl, hdisc, heq⟩
  · rw [hnames.mem_iff] at hx
    rw [heq, lookup_group_of_notMem hr'.parents hdecl' hg'.length hx]
    exact h x
  · have hx : d.name.name ∈ boundNames ds' :=
      hnames.mem_iff.1 (mem_boundNames.2 ⟨d, (List.of_mem_zip hd).2, rfl, hdisc⟩)
    rcases lookup_group_cases hr'.parents hdecl' hg'.length d.name.name with
      ⟨hx', -⟩ | ⟨id', d', -, -, -, heq'⟩
    · exact absurd hx hx'
    · rw [heq, heq']
      simp

/-- The live identifiers of a definition denote something if those of its partner do. -/
lemma denotes_liveIdents_def {g g' : ScopeId} {ids ids' : List DispatchId}
    {ds ds' : List (Definition Scoped)} (hscope : r.SameScope r' g g')
    (hg : Group r.tree g ids ds) (hg' : Group r'.tree g' ids' ds')
    (hmem : (g, ds) ∈ r.program.groups) (hmem' : (g', ds') ∈ r'.program.groups)
    (h : Permuted (fun d d' => d.SameHead d' ∧ ∀ {s s' : ScopeId}, r.HasPart s d.body →
      r'.HasPart s' d'.body → r.SameScope r' s s' →
      (∀ i ∈ d.body.liveIdents, r.tree.denotes i ≠ none) →
      ∀ i ∈ d'.body.liveIdents, r'.tree.denotes i ≠ none) ds ds')
    (hlive : ∀ i ∈ liveIdentsOfDefs ds, r.tree.denotes i ≠ none) :
    ∀ i ∈ liveIdentsOfDefs ds', r'.tree.denotes i ≠ none := by
  simp only [liveIdentsOfDefs_eq, List.mem_flatMap, forall_exists_index, and_imp] at hlive ⊢
  intro i d' hd' hi
  obtain ⟨d, hd, hhead, ih⟩ := h.mem_right hd'
  obtain ⟨id, hid⟩ := exists_mem_zip_of_mem_right hg.length hd
  obtain ⟨id', hid'⟩ := exists_mem_zip_of_mem_right hg'.length hd'
  have hbody := fun i hi => hlive i d hd hi
  unfold Definition.liveIdents at hi hbody
  rw [hhead.isDiscard_eq] at hbody
  split_ifs at hi hbody with hdisc
  · exact absurd hi (by simp)
  · exact ih (hg.hasPart hmem hid) (hg'.hasPart hmem' hid')
      (sameScope_function hr hr' hscope (hg.defs.of_mem_zip hid).scope
        (hg'.defs.of_mem_zip hid').scope hhead.params) hbody i hi

lemma Expr.Reorders.denotes_liveIdents {e e' : Expr Scoped} (h : e.Reorders R e') :
    ∀ {s s' : ScopeId}, r.HasPart s e → r'.HasPart s' e' → r.SameScope r' s s' →
      (∀ i ∈ e.liveIdents, r.tree.denotes i ≠ none) →
      ∀ i ∈ e'.liveIdents, r'.tree.denotes i ≠ none := by
  induction h using Expr.Reorders.induction with
  | @ident i i' hi =>
    intro s s' he he' hscope
    have hs := he.wellScoped
    have hs' := he'.wellScoped
    rw [Expr.WellScoped] at hs hs'
    simp only [Expr.liveIdents, List.mem_singleton, forall_eq, ScopeTree.denotes, hs, hs', ← hi]
    exact (not_congr (hscope i.name)).1
  | int => exact fun _ _ _ _ i hi => absurd hi (by simp [Expr.liveIdents])
  | lam hps _ ih =>
    intro s s' he he' hscope
    exact ih he.lam.2 he'.lam.2 (sameScope_lambda hr hr' hscope he.lam.1 he'.lam.1 hps)
  | call _ _ ihf ihx =>
    intro s s' he he' hscope
    simp only [Expr.liveIdents, List.forall_mem_append]
    exact And.imp (ihf he.call.1 he'.call.1 hscope) (ihx he.call.2 he'.call.2 hscope)
  | ite _ _ _ ihc ihp ihn =>
    intro s s' he he' hscope
    simp only [Expr.liveIdents, List.forall_mem_append]
    exact And.imp (And.imp (ihc he.ite.1 he'.ite.1 hscope) (ihp he.ite.2.1 he'.ite.2.1 hscope))
      (ihn he.ite.2.2 he'.ite.2.2 hscope)
  | letIn hds _ ihds ihb =>
    intro s s' he he' hscope
    obtain ⟨hmem, hb, ids, hdecl, hg⟩ := he.letIn
    obtain ⟨hmem', hb', ids', hdecl', hg'⟩ := he'.letIn
    have hinner := sameScope_group hr hr' hscope hdecl hdecl' hg hg'
      (Permuted.boundNames hds fun d d' hd => hd.head)
    simp only [Expr.liveIdents, List.forall_mem_append]
    refine And.imp ?_ (ihb hb hb' hinner)
    exact denotes_liveIdents_def hr hr' hinner hg hg' hmem hmem'
      (ihds.imp fun _ _ hd => ⟨hd.1.head, hd.2⟩)

end TwoResolutions

lemma sameScope_root {names : List String} {r r' : Resolution} {ids ids' : List DispatchId}
    (hr : r.WellScoped names ids) (hr' : r'.WellScoped names ids') :
    r.SameScope r' ScopeTree.root ScopeTree.root := by
  intro x
  rw [r.tree.lookup_eq hr.parents hr.root, r'.tree.lookup_eq hr'.parents hr'.root]
  rfl

/-! ### Programs -/

/-- Lowering succeeds in every order of the definitions. -/
lemma Program.Reorders.lowers {names : List String} {r r' : Resolution}
    {ids ids' : List DispatchId} (hr : r.WellScoped names ids) (hr' : r'.WellScoped names ids')
    (h : r.program.Reorders R r'.program) {entry : String} {t : Term}
    (hlower : Lowers (r.lower r.classify entry) t) (log : Array Event) :
    ∃ t' log', r'.lower r'.classify entry log = .ok t' log' := by
  have hg := hr.program_group
  have hg' := hr'.program_group
  have hnames := Permuted.boundNames h fun d d' hd => hd.head
  obtain ⟨log₁, log₂, hlower⟩ := hlower
  rcases lower_cases hr entry with ⟨-, hmissing⟩ | ⟨hentry, hmeets⟩
  · rw [hmissing] at hlower
    exact absurd hlower throw_ne_ok
  rcases lower_cases hr' entry with ⟨hentry', -⟩ | ⟨-, hmeets'⟩
  · exact absurd (hnames.mem_iff.1 hentry) hentry'
  rcases hmeets log₁ with ⟨t, log₂, -, hall⟩ | ⟨i, -, -, log₂, herror⟩
  · have hscope := sameScope_group hr hr' (sameScope_root hr hr') hr.declared hr'.declared hg hg'
      hnames
    have hall' := denotes_liveIdents_def hr hr' hscope hg hg' List.mem_cons_self List.mem_cons_self
      (Permuted.imp h fun d d' hd => ⟨hd.head, hd.body.denotes_liveIdents hr hr'⟩) hall
    rcases hmeets' log with ⟨t', log', hok, -⟩ | ⟨i, hi, hnone, -⟩
    · exact ⟨t', log', hok⟩
    · exact absurd hnone (hall' i hi)
  · exact absurd (hlower.symm.trans herror) (by simp)

/-- Compilation succeeds in every order of the definitions. -/
lemma Program.Reorders.compiles {R : Definition Span → Definition Span → Prop}
    {p p' : Program Span} (h : p.Reorders R p') {names : List String} {entry : String}
    {log log' : Array Event} (hp : ∃ c l, compile names entry p log = .ok c l) :
    ∃ c l, compile names entry p' log' = .ok c l := by
  obtain ⟨c, l, hc⟩ := hp
  rcases compile_cases names entry p log with
    ⟨_, _, -, he⟩ | ⟨r, log₁, log₂, hr, ⟨_, _, -, he⟩ | ⟨t, log₃, _, ht, -⟩⟩
  · exact absurd (hc.symm.trans he) (by simp)
  · exact absurd (hc.symm.trans he) (by simp)
  obtain ⟨r', log₁', hr'⟩ : ∃ r l, resolve names 0 p' log' = .ok r l := h.resolves ⟨r, log₁, hr⟩
  rcases compile_cases names entry p' log' with
    ⟨_, _, he, -⟩ | ⟨r'', log₁'', log₂', hr'', ⟨e, log₃', he, -⟩ | ⟨t', _, l', -, hc'⟩⟩
  · exact absurd (hr'.symm.trans he) (by simp)
  · obtain ⟨rfl, ids, hw⟩ := resolve_wellScoped hr
    obtain ⟨rfl, ids', hw'⟩ := resolve_wellScoped hr''
    obtain ⟨t', log₄, ht'⟩ := h.of_map.lowers hw hw' ⟨log₂, log₃, ht⟩ log₂'
    exact absurd (ht'.symm.trans he) (by simp)
  · exact ⟨_, l', hc'⟩

/-- A program runs to the same results in every order of its definitions. -/
lemma Program.Reorders.returns {R : Definition Span → Definition Span → Prop}
    {p p' : Program Span} (h : p.Reorders R p') (havoid : ∀ x ∈ p.names, ¬ Generated x)
    {entry : String} {tracing : Bool} {result : Except EvalError.Kind Int64}
    (hp : ∃ n, (runWithin n .standard entry tracing p).Returns result) :
    ∃ n, (runWithin n .standard entry tracing p').Returns result := by
  obtain ⟨n, hn⟩ := hp
  obtain ⟨c, l, hc⟩ := compiles_of_returns hn
  obtain ⟨c', l', hc'⟩ : ∃ c l, compile Builtins.standard.names entry p' #[] = .ok c l :=
    h.compiles ⟨c, l, hc⟩
  have havoid' : ∀ x ∈ p'.names, ¬ Generated x := fun x hx => havoid x (h.symm.mem_names hx)
  have hdistinct : p.Distinct := by
    rcases compile_cases Builtins.standard.names entry p #[] with ⟨_, _, -, he⟩ | ⟨r, l₁, _, hr, -⟩
    · exact absurd (hc.symm.trans he) (by simp)
    · exact (resolves_iff.1 ⟨r, l₁, hr⟩).1
  have hmeans := (exists_returns_iff_means hc tracing havoid).1 ⟨n, hn⟩
  exact (exists_returns_iff_means hc' tracing havoid').2
    (Surface.means_of_reorders h hdistinct hmeans)

/-- The order of the definitions of a program and of its `let` blocks does not matter.  A program
resolves in one order just if it does in another one; then each definition and its partner are
recursive in the same ways; and a program without names that lowering makes up runs to an integer,
or to an error of some kind, in one order just if it does in another one. -/
theorem order_irrelevant {R : Definition Span → Definition Span → Prop} {p p' : Program Span}
    (h : p.Reorders R p') (havoid : ∀ x ∈ p.names, ¬ Generated x) :
    (∀ names seed log, (∃ r l, resolve names seed p log = .ok r l) ↔
      ∃ r l, resolve names seed p' log = .ok r l) ∧
    (∀ names seed log r l r' l', resolve names seed p log = .ok r l →
      resolve names seed p' log = .ok r' l' →
      r.program.Reorders (fun d d' => R (d.map Scoped.span) (d'.map Scoped.span) ∧
        r.SameFlags r' d d') r'.program) ∧
    ∀ entry tracing result,
      (∃ n, (runWithin n .standard entry tracing p).Returns result) ↔
        ∃ n, (runWithin n .standard entry tracing p').Returns result := by
  have havoid' : ∀ x ∈ p'.names, ¬ Generated x := fun x hx => havoid x (h.symm.mem_names hx)
  refine ⟨fun names seed log => ⟨h.resolves, h.symm.resolves⟩, ?_,
    fun entry tracing result => ⟨h.returns havoid, h.symm.returns havoid'⟩⟩
  intro names seed log r l r' l' hr hr'
  obtain ⟨rfl, ids, hw⟩ := resolve_wellScoped hr
  obtain ⟨rfl, ids', hw'⟩ := resolve_wellScoped hr'
  exact h.of_map.with_flags hw hw'

/-- `even n`, or `odd n`: decided by the other one at `n - 1`, and at zero by a number. -/
def parityOf (name other : String) (atZero : Int64) : Definition Span :=
  ⟨⟨name, .nowhere⟩, [⟨"n", .nowhere⟩],
    .ite (.ident ⟨"n", .nowhere⟩)
      (.call (.ident ⟨other, .nowhere⟩)
        (.callAll (.ident ⟨"-", .nowhere⟩) [.ident ⟨"n", .nowhere⟩, .int 1 .nowhere] .nowhere)
        .nowhere)
      (.int atZero .nowhere) .nowhere, .nowhere⟩

/-- `main = let … in even k`. -/
def parityMain (ds : List (Definition Span)) : Definition Span :=
  ⟨⟨"main", .nowhere⟩, [],
    .letIn ds (.call (.ident ⟨"even", .nowhere⟩) (.ident ⟨"k", .nowhere⟩) .nowhere) .nowhere,
    .nowhere⟩

/-- `k = j` and `j = 4`, in this order or in the other one. -/
def parityLet : List (Definition Span) :=
  [⟨⟨"k", .nowhere⟩, [], .ident ⟨"j", .nowhere⟩, .nowhere⟩,
    ⟨⟨"j", .nowhere⟩, [], .int 4 .nowhere, .nowhere⟩]

/-- A program with two definitions that call each other. -/
def parity : Program Span :=
  ⟨[parityMain parityLet, parityOf "even" "odd" 1, parityOf "odd" "even" 0], .nowhere⟩

/-- The same program with the definitions of both groupings in another order. -/
def parityReordered : Program Span :=
  ⟨[parityOf "odd" "even" 0, parityMain parityLet.reverse, parityOf "even" "odd" 1], .nowhere⟩

lemma parity_reorders : parity.Reorders (fun _ _ => True) parityReordered := by
  have hparity : ∀ name other atZero,
      (parityOf name other atZero).Reorders (fun _ _ => True) (parityOf name other atZero) :=
    fun _ _ _ => ⟨⟨rfl, rfl⟩, trivial, .ite (.ident rfl)
      (.call (.ident rfl) (.call (.call (.ident rfl) (.ident rfl)) .int)) .int⟩
  have hlet : Permuted (Definition.Reorders fun _ _ => True) parityLet parityLet.reverse :=
    ⟨_, (List.reverse_perm _).symm, .cons ⟨⟨rfl, rfl⟩, trivial, .int⟩
      (.cons ⟨⟨rfl, rfl⟩, trivial, .ident rfl⟩ .nil)⟩
  have hmain : (parityMain parityLet).Reorders (fun _ _ => True) (parityMain parityLet.reverse) :=
    ⟨⟨rfl, rfl⟩, trivial, .of_permuted hlet (.call (.ident rfl) (.ident rfl))⟩
  exact ⟨_, .trans (.cons _ (.swap _ _ _)) (.swap _ _ _),
    .cons (hparity _ _ _) (.cons hmain (.cons (hparity _ _ _) .nil))⟩

theorem order_irrelevant_parity :
    parity.Reorders (fun _ _ => True) parityReordered ∧ (∀ x ∈ parity.names, ¬ Generated x) ∧
    (∃ r l r' l', resolve Builtins.standard.names 0 parity #[] = .ok r l ∧
      resolve Builtins.standard.names 0 parityReordered #[] = .ok r' l' ∧
      Permuted (fun d d' => d.name.name = d'.name.name ∧ r.SameFlags r' d d') r.program.defs
        r'.program.defs) ∧
    ∃ n, (runWithin n .standard "main" false parityReordered).Returns (.ok 1) := by
  have hfirst : ∀ x ∈ parity.names, x.toList.head? ≠ some '<' := by decide +kernel
  have havoid : ∀ x ∈ parity.names, ¬ Generated x := fun x hx h => hfirst x hx h.head?
  obtain ⟨hresolves, hflags, hruns⟩ := order_irrelevant parity_reorders havoid
  have hresolve : (value? (resolve Builtins.standard.names 0 parity #[])).isSome = true := by
    decide +kernel
  obtain ⟨r, hr⟩ := Option.isSome_iff_exists.1 hresolve
  obtain ⟨l, hr⟩ := value?_eq_some.1 hr
  obtain ⟨r', l', hr'⟩ := (hresolves _ _ _).1 ⟨r, l, hr⟩
  have hreturns : (runWithin 100 .standard "main" false parity).Returns (.ok 1) := by
    show (runWithin 100 .standard "main" false parity).result = .ok (.int 1)
    decide +kernel
  refine ⟨parity_reorders, havoid, ⟨r, l, r', l', hr, hr', ?_⟩, (hruns _ _ _).1 ⟨100, hreturns⟩⟩
  exact Permuted.imp (hflags _ _ _ _ _ _ _ hr hr') fun d d' hd => ⟨hd.head.name, hd.rel.2⟩

end Letrec
