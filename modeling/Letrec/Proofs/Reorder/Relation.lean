import Mathlib
import Letrec.Proofs.Recursion.Names
import Letrec.Proofs.Scope.Distinct

/-!
# Programs with their definitions in another order

`Expr.Reorders R e e'` says that `e'` is `e` with the definitions of its groupings in another order,
at every depth; `R` is what is known of a definition and the one that stands for it in `e'`.  The
annotations may be others, so the relation can be stated of programs as they are written and of
resolved ones.

What does not depend on the order carries over: whether the binders are distinct, how many
definitions there are, and which names are free.
-/

namespace Letrec

variable {α β γ δ : Type}

/-! ### Lists in another order -/

/-- Each element of one list has its own partner in the other one. -/
def Permuted (S : α → β → Prop) (l : List α) (l' : List β) : Prop :=
  ∃ l₁, l.Perm l₁ ∧ List.Forall₂ S l₁ l'

namespace Permuted

variable {S : α → β → Prop} {l : List α} {l' : List β}

lemma symm (h : Permuted S l l') : Permuted (fun b a => S a b) l' l := by
  obtain ⟨l₁, hperm, hall⟩ := h
  obtain ⟨l₂, hall', hperm'⟩ := List.perm_comp_forall₂ hperm hall
  exact ⟨l₂, hperm'.symm, hall'.flip⟩

lemma mem_left (h : Permuted S l l') {a : α} (ha : a ∈ l) : ∃ b ∈ l', S a b := by
  obtain ⟨l₁, hperm, hall⟩ := h
  obtain ⟨i, hi, rfl⟩ := List.getElem_of_mem (hperm.mem_iff.1 ha)
  have hi' : i < l'.length := hall.length_eq ▸ hi
  exact ⟨l'[i], List.getElem_mem hi', (List.forall₂_iff_get.1 hall).2 i hi hi'⟩

lemma mem_right (h : Permuted S l l') {b : β} (hb : b ∈ l') : ∃ a ∈ l, S a b := h.symm.mem_left hb

lemma imp_of_mem {T : α → β → Prop} (h : Permuted S l l')
    (hT : ∀ a ∈ l, ∀ b ∈ l', S a b → T a b) : Permuted T l l' := by
  obtain ⟨l₁, hperm, hall⟩ := h
  refine ⟨l₁, hperm, List.forall₂_iff_zip.2 ⟨hall.length_eq, fun {a b} hab => ?_⟩⟩
  exact hT a (hperm.mem_iff.2 (List.of_mem_zip hab).1) b (List.of_mem_zip hab).2
    (List.forall₂_zip hall hab)

lemma imp {T : α → β → Prop} (h : Permuted S l l') (hT : ∀ a b, S a b → T a b) :
    Permuted T l l' := h.imp_of_mem fun a _ b _ => hT a b

/-- What is the same for partners is the same for the lists, up to the order. -/
lemma map_perm (h : Permuted S l l') {f : α → γ} {g : β → γ} (hfg : ∀ a b, S a b → f a = g b) :
    (l.map f).Perm (l'.map g) := by
  obtain ⟨l₁, hperm, hall⟩ := h
  have hmap : l₁.map f = l'.map g := by
    clear hperm
    induction hall with
    | nil => rfl
    | cons hab _ ih => rw [List.map_cons, List.map_cons, hfg _ _ hab, ih]
  exact hmap ▸ hperm.map f

lemma of_map {f : γ → α} {g : δ → β} {l : List γ} {l' : List δ}
    (h : Permuted S (l.map f) (l'.map g)) : Permuted (fun a b => S (f a) (g b)) l l' := by
  obtain ⟨l₁, hperm, hall⟩ := h
  have hcomp : Relation.Comp (· = List.map f ·) List.Perm l₁ l := by
    rw [List.eq_map_comp_perm]
    exact hperm.symm
  obtain ⟨l₂, rfl, hperm'⟩ := hcomp
  refine ⟨l₂, hperm'.symm, ?_⟩
  rwa [List.forall₂_map_left_iff, List.forall₂_map_right_iff] at hall

end Permuted

/-! ### The relation -/

/-- Two definitions have the same name and the same parameters. -/
structure Definition.SameHead (d : Definition α) (d' : Definition β) : Prop where
  name : d.name.name = d'.name.name
  params : d.params.map Ident.name = d'.params.map Ident.name

/-- The definitions of all groupings of an expression stand in another order; partners satisfy
`R`. -/
inductive Expr.Reorders (R : Definition α → Definition β → Prop) : Expr α → Expr β → Prop
  | ident {i i'} : i.name = i'.name → Reorders R (.ident i) (.ident i')
  | int {v a a'} : Reorders R (.int v a) (.int v a')
  | lam {ps ps' b b' a a'} : ps.map Ident.name = ps'.map Ident.name → Reorders R b b' →
      Reorders R (.lam ps b a) (.lam ps' b' a')
  | call {f f' x x' a a'} : Reorders R f f' → Reorders R x x' →
      Reorders R (.call f x a) (.call f' x' a')
  | ite {c c' p p' n n' a a'} : Reorders R c c' → Reorders R p p' → Reorders R n n' →
      Reorders R (.ite c p n a) (.ite c' p' n' a')
  | letIn {ds ds₁ ds' b b' a a'} : ds.Perm ds₁ → ds₁.length = ds'.length →
      (∀ (i : ℕ) d d', ds₁[i]? = some d → ds'[i]? = some d' → d.SameHead d' ∧ R d d') →
      (∀ (i : ℕ) d d', ds₁[i]? = some d → ds'[i]? = some d' → Reorders R d.body d'.body) →
      Reorders R b b' → Reorders R (.letIn ds b a) (.letIn ds' b' a')

/-- A definition and its partner. -/
structure Definition.Reorders (R : Definition α → Definition β → Prop) (d : Definition α)
    (d' : Definition β) : Prop where
  head : d.SameHead d'
  rel : R d d'
  body : d.body.Reorders R d'.body

/-- The definitions of a program and of all its groupings stand in another order. -/
def Program.Reorders (R : Definition α → Definition β → Prop) (p : Program α) (p' : Program β) :
    Prop := Permuted (Definition.Reorders R) p.defs p'.defs

namespace Expr.Reorders

variable {R : Definition α → Definition β → Prop}

lemma of_permuted {ds : List (Definition α)} {ds' : List (Definition β)} {b : Expr α} {b' : Expr β}
    {a : α} {a' : β} (h : Permuted (Definition.Reorders R) ds ds') (hb : b.Reorders R b') :
    (Expr.letIn ds b a).Reorders R (.letIn ds' b' a') := by
  obtain ⟨ds₁, hperm, hall⟩ := h
  have hpartner : ∀ (i : ℕ) d d', ds₁[i]? = some d → ds'[i]? = some d' → d.Reorders R d' := by
    intro i d d' hd hd'
    obtain ⟨hi, rfl⟩ := List.getElem?_eq_some_iff.1 hd
    obtain ⟨hi', rfl⟩ := List.getElem?_eq_some_iff.1 hd'
    exact (List.forall₂_iff_get.1 hall).2 i hi hi'
  exact .letIn hperm hall.length_eq
    (fun i d d' hd hd' => ⟨(hpartner i d d' hd hd').head, (hpartner i d d' hd hd').rel⟩)
    (fun i d d' hd hd' => (hpartner i d d' hd hd').body) hb

lemma permuted {ds : List (Definition α)} {ds' : List (Definition β)} {b : Expr α} {b' : Expr β}
    {a : α} {a' : β} (h : (Expr.letIn ds b a).Reorders R (.letIn ds' b' a')) :
    Permuted (Definition.Reorders R) ds ds' ∧ b.Reorders R b' := by
  cases h with
  | @letIn _ ds₁ _ _ _ _ _ hperm hlen hhead hbody hb =>
    refine ⟨⟨ds₁, hperm, List.forall₂_iff_get.2 ⟨hlen, fun i hi hi' => ?_⟩⟩, hb⟩
    have hd := List.getElem?_eq_getElem hi
    have hd' := List.getElem?_eq_getElem hi'
    exact ⟨(hhead i _ _ hd hd').1, (hhead i _ _ hd hd').2, hbody i _ _ hd hd'⟩

/-- Induction where the definitions of a `let` block and their partners are taken together. -/
@[elab_as_elim]
theorem induction {motive : ∀ e e', Expr.Reorders R e e' → Prop}
    (ident : ∀ {i : Ident α} {i' : Ident β} (hi : i.name = i'.name), motive _ _ (.ident hi))
    (int : ∀ {v : Int64} {a : α} {a' : β}, motive (.int v a) (.int v a') .int)
    (lam : ∀ {ps : List (Ident α)} {ps' : List (Ident β)} {b : Expr α} {b' : Expr β} {a : α}
      {a' : β} (hps : ps.map Ident.name = ps'.map Ident.name) (hb : b.Reorders R b'),
      motive b b' hb → motive (.lam ps b a) (.lam ps' b' a') (.lam hps hb))
    (call : ∀ {f x : Expr α} {f' x' : Expr β} {a : α} {a' : β} (hf : f.Reorders R f')
      (hx : x.Reorders R x'), motive f f' hf → motive x x' hx →
      motive (.call f x a) (.call f' x' a') (.call hf hx))
    (ite : ∀ {c p n : Expr α} {c' p' n' : Expr β} {a : α} {a' : β} (hc : c.Reorders R c')
      (hp : p.Reorders R p') (hn : n.Reorders R n'), motive c c' hc → motive p p' hp →
      motive n n' hn → motive (.ite c p n a) (.ite c' p' n' a') (.ite hc hp hn))
    (letIn : ∀ {ds : List (Definition α)} {ds' : List (Definition β)} {b : Expr α} {b' : Expr β}
      {a : α} {a' : β} (hds : Permuted (Definition.Reorders R) ds ds') (hb : b.Reorders R b'),
      Permuted (fun d d' => ∃ h : d.Reorders R d', motive d.body d'.body h.body) ds ds' →
      motive b b' hb → motive (.letIn ds b a) (.letIn ds' b' a') (.of_permuted hds hb))
    {e : Expr α} {e' : Expr β} (h : e.Reorders R e') : motive e e' h := by
  induction h with
  | ident hi => exact ident hi
  | int => exact int
  | lam hps hb ih => exact lam hps hb ih
  | call hf hx ihf ihx => exact call hf hx ihf ihx
  | ite hc hp hn ihc ihp ihn => exact ite hc hp hn ihc ihp ihn
  | @letIn ds ds₁ ds' b b' a a' hperm hlen hhead hbody hb ihds ihb =>
    have hlet : Expr.Reorders R (.letIn ds b a) (.letIn ds' b' a') :=
      .letIn hperm hlen hhead hbody hb
    have hds := hlet.permuted.1
    refine letIn hds hb ⟨ds₁, hperm, List.forall₂_iff_get.2 ⟨hlen, fun i hi hi' => ?_⟩⟩ ihb
    have hd := List.getElem?_eq_getElem hi
    have hd' := List.getElem?_eq_getElem hi'
    exact ⟨⟨(hhead i _ _ hd hd').1, (hhead i _ _ hd hd').2, hbody i _ _ hd hd'⟩, ihds i _ _ hd hd'⟩

end Expr.Reorders

/-! ### Binders and free names -/

section Invariants

variable {R : Definition α → Definition β → Prop}

lemma Definition.SameHead.symm {d : Definition α} {d' : Definition β} (h : d.SameHead d') :
    d'.SameHead d := ⟨h.name.symm, h.params.symm⟩

lemma Definition.SameHead.isDiscard_eq {d : Definition α} {d' : Definition β}
    (h : d.SameHead d') : d.isDiscard = d'.isDiscard := by
  rw [Definition.isDiscard, Definition.isDiscard, h.name]

lemma boundParams_congr {ps : List (Ident α)} {ps' : List (Ident β)}
    (h : ps.map Ident.name = ps'.map Ident.name) : boundParams ps = boundParams ps' := by
  rw [boundParams_eq_filter, boundParams_eq_filter, h]

lemma Permuted.boundNames {S : Definition α → Definition β → Prop} {ds : List (Definition α)}
    {ds' : List (Definition β)} (h : Permuted S ds ds') (hS : ∀ d d', S d d' → d.SameHead d') :
    (boundNames ds).Perm (boundNames ds') := by
  rw [boundNames_eq_filter, boundNames_eq_filter]
  exact (h.map_perm fun d d' hd => (hS d d' hd).name).filter _

lemma Expr.Reorders.symm {e : Expr α} {e' : Expr β} (h : e.Reorders R e') :
    e'.Reorders (fun d' d => R d d') e := by
  induction h using Expr.Reorders.induction with
  | ident hi => exact .ident hi.symm
  | int => exact .int
  | lam hps _ ih => exact .lam hps.symm ih
  | call _ _ ihf ihx => exact .call ihf ihx
  | ite _ _ _ ihc ihp ihn => exact .ite ihc ihp ihn
  | letIn _ _ hds ihb =>
    exact .of_permuted (hds.symm.imp fun _ _ hd => ⟨hd.1.head.symm, hd.1.rel, hd.2⟩) ihb

lemma Expr.Reorders.imp {S : Definition α → Definition β → Prop} {e : Expr α} {e' : Expr β}
    (h : e.Reorders R e') (hS : ∀ d d', R d d' → S d d') : e.Reorders S e' := by
  induction h using Expr.Reorders.induction with
  | ident hi => exact .ident hi
  | int => exact .int
  | lam hps _ ih => exact .lam hps ih
  | call _ _ ihf ihx => exact .call ihf ihx
  | ite _ _ _ ihc ihp ihn => exact .ite ihc ihp ihn
  | letIn _ _ hds ihb =>
    exact .of_permuted (hds.imp fun d d' ⟨hd, ih⟩ => ⟨hd.head, hS d d' hd.rel, ih⟩) ihb

lemma Definition.Reorders.symm {d : Definition α} {d' : Definition β} (h : d.Reorders R d') :
    d'.Reorders (fun d' d => R d d') d := ⟨h.head.symm, h.rel, h.body.symm⟩

lemma Program.Reorders.symm {p : Program α} {p' : Program β} (h : p.Reorders R p') :
    p'.Reorders (fun d' d => R d d') p :=
  (Permuted.symm h).imp fun _ _ hd => hd.symm

lemma DefsDistinct.of_permuted {ds : List (Definition α)} {ds' : List (Definition β)}
    (h : Permuted (fun d d' => d.SameHead d' ∧ (d.body.Distinct → d'.body.Distinct)) ds ds')
    (hds : DefsDistinct ds) : DefsDistinct ds' := by
  rw [defsDistinct_iff] at hds ⊢
  intro d' hd'
  obtain ⟨d, hd, hhead, hbody⟩ := h.mem_right hd'
  obtain ⟨hparams, hdistinct⟩ := hds d hd
  exact ⟨boundParams_congr hhead.params ▸ hparams, hbody hdistinct⟩

lemma Expr.Reorders.distinct {e : Expr α} {e' : Expr β} (h : e.Reorders R e') :
    e.Distinct → e'.Distinct := by
  induction h using Expr.Reorders.induction with
  | ident hi => exact id
  | int => exact id
  | lam hps _ ih =>
    rw [Expr.Distinct, Expr.Distinct, boundParams_congr hps]
    exact And.imp_right ih
  | call _ _ ihf ihx => exact And.imp ihf ihx
  | ite _ _ _ ihc ihp ihn => exact And.imp ihc (And.imp ihp ihn)
  | letIn _ _ hds ihb =>
    rw [Expr.Distinct, Expr.Distinct]
    rintro ⟨hnames, hdefs, hb⟩
    refine ⟨((hds.boundNames fun _ _ hd => hd.1.head).nodup_iff).1 hnames, ?_, ihb hb⟩
    exact .of_permuted (hds.imp fun _ _ hd => ⟨hd.1.head, hd.2⟩) hdefs

lemma Program.Reorders.distinct {p : Program α} {p' : Program β} (h : p.Reorders R p')
    (hp : p.Distinct) : p'.Distinct := by
  refine ⟨((Permuted.boundNames h fun d d' hd => hd.head).nodup_iff).1 hp.1, ?_⟩
  exact .of_permuted (h.imp fun d d' hd => ⟨hd.head, hd.body.distinct⟩) hp.2

lemma defCountOfDefs_eq_of_permuted {ds : List (Definition α)} {ds' : List (Definition β)}
    (h : Permuted (fun d d' => d.body.defCount = d'.body.defCount) ds ds') :
    defCountOfDefs ds = defCountOfDefs ds' := by
  rw [defCountOfDefs_eq_sum, defCountOfDefs_eq_sum]
  exact (h.map_perm fun d d' hd => congrArg (· + 1) hd).sum_eq

lemma Expr.Reorders.defCount_eq {e : Expr α} {e' : Expr β} (h : e.Reorders R e') :
    e.defCount = e'.defCount := by
  induction h using Expr.Reorders.induction with
  | ident hi => rfl
  | int => rfl
  | lam hps _ ih => exact ih
  | call _ _ ihf ihx => rw [Expr.defCount, Expr.defCount, ihf, ihx]
  | ite _ _ _ ihc ihp ihn => rw [Expr.defCount, Expr.defCount, ihc, ihp, ihn]
  | letIn _ _ hds ihb =>
    rw [Expr.defCount, Expr.defCount, ihb,
      defCountOfDefs_eq_of_permuted (hds.imp fun _ _ hd => hd.2)]

/-- Resolution succeeds in every order of the definitions. -/
lemma Program.Reorders.resolves {R : Definition Span → Definition Span → Prop}
    {p p' : Program Span} (h : p.Reorders R p') {names : List String} {seed : DispatchId}
    {log log' : Array Event} (hp : ∃ r l, resolve names seed p log = .ok r l) :
    ∃ r l, resolve names seed p' log' = .ok r l := by
  rw [resolves_iff] at hp ⊢
  refine ⟨h.distinct hp.1, ?_⟩
  rw [← defCountOfDefs_eq_of_permuted (h.imp fun d d' hd => hd.body.defCount_eq)]
  exact hp.2

lemma mem_namesOfDefs_of_permuted {ds : List (Definition α)} {ds' : List (Definition β)}
    {x : String}
    (h : Permuted (fun d d' => d.SameHead d' ∧ (x ∈ d.body.names → x ∈ d'.body.names)) ds ds')
    (hx : x ∈ namesOfDefs ds) : x ∈ namesOfDefs ds' := by
  obtain ⟨d, hd, hx⟩ := mem_namesOfDefs.1 hx
  obtain ⟨d', hd', hhead, hbody⟩ := h.mem_left hd
  refine mem_namesOfDefs.2 ⟨d', hd', ?_⟩
  rw [← hhead.name, ← hhead.params]
  rw [List.mem_append] at hx ⊢
  exact hx.imp_right (Or.imp_right hbody)

lemma Expr.Reorders.mem_names {e : Expr α} {e' : Expr β} (h : e.Reorders R e') {x : String} :
    x ∈ e.names → x ∈ e'.names := by
  induction h using Expr.Reorders.induction with
  | ident hi =>
    rw [Expr.names, Expr.names, hi]
    exact id
  | int => exact id
  | lam hps _ ih =>
    rw [Expr.names, Expr.names, hps, List.mem_append, List.mem_append]
    exact Or.imp_right ih
  | call _ _ ihf ihx =>
    rw [Expr.names, Expr.names, List.mem_append, List.mem_append]
    exact Or.imp ihf ihx
  | ite _ _ _ ihc ihp ihn =>
    simp only [Expr.names, List.mem_append]
    exact Or.imp (Or.imp ihc ihp) ihn
  | letIn _ _ hds ihb =>
    rw [Expr.names, Expr.names, List.mem_append, List.mem_append]
    exact Or.imp
      (mem_namesOfDefs_of_permuted (hds.imp fun _ _ hd => ⟨hd.1.head, hd.2⟩)) ihb

lemma Program.Reorders.mem_names {p : Program α} {p' : Program β} (h : p.Reorders R p')
    {x : String} (hx : x ∈ p.names) : x ∈ p'.names :=
  mem_namesOfDefs_of_permuted (h.imp fun _ _ hd => ⟨hd.head, hd.body.mem_names⟩) hx

lemma Expr.Reorders.free {e : Expr α} {e' : Expr β} (h : e.Reorders R e') {x : String} :
    e.Free x → e'.Free x := by
  induction h using Expr.Reorders.induction with
  | ident hi =>
    rintro ⟨rfl⟩
    exact .ident hi.symm
  | int => exact fun hx => nomatch hx
  | lam hps _ ih =>
    rintro (_ | ⟨hx, hbound⟩)
    exact .lam (ih hx) (boundParams_congr hps ▸ hbound)
  | call _ _ ihf ihy =>
    intro hx
    cases hx with
    | fn hx => exact .fn (ihf hx)
    | arg hx => exact .arg (ihy hx)
  | ite _ _ _ ihc ihp ihn =>
    intro hx
    cases hx with
    | cond hx => exact .cond (ihc hx)
    | pos hx => exact .pos (ihp hx)
    | neg hx => exact .neg (ihn hx)
  | letIn _ _ hds ihb =>
    have hnames := hds.boundNames fun _ _ hd => hd.1.head
    intro hx
    cases hx with
    | binding hd hx hparams hbound =>
      obtain ⟨d', hd', hreorders, hfree⟩ := hds.mem_left hd
      rw [boundParams_congr hreorders.head.params] at hparams
      exact .binding hd' (hfree hx) hparams fun hmem => hbound (hnames.mem_iff.2 hmem)
    | body hx hbound => exact .body (ihb hx) fun hmem => hbound (hnames.mem_iff.2 hmem)

lemma Definition.Reorders.free_iff {d : Definition α} {d' : Definition β} (h : d.Reorders R d')
    {x : String} : d.Free x ↔ d'.Free x := by
  unfold Definition.Free
  rw [boundParams_congr h.head.params]
  exact and_congr_left fun _ => ⟨h.body.free, h.body.symm.free⟩

lemma uses_of_permuted {ds : List (Definition α)} {ds' : List (Definition β)}
    (h : Permuted (Definition.Reorders R) ds ds') {x y : String} (huses : Uses ds x y) :
    Uses ds' x y := by
  obtain ⟨d, hd, rfl, hfree, hbound⟩ := huses
  obtain ⟨d', hd', hpartner⟩ := h.mem_left hd
  exact ⟨d', hd', hpartner.head.name.symm, hpartner.free_iff.1 hfree,
    (Permuted.boundNames h fun d d' hd => hd.head).mem_iff.1 hbound⟩

lemma uses_eq_of_permuted {ds : List (Definition α)} {ds' : List (Definition β)}
    (h : Permuted (Definition.Reorders R) ds ds') : Uses ds = Uses ds' := by
  funext x y
  exact propext ⟨uses_of_permuted h, uses_of_permuted (h.symm.imp fun _ _ hd => hd.symm)⟩

end Invariants

/-! ### Other annotations -/

lemma map_name_map {α' : Type} (f : α' → α) (ps : List (Ident α')) :
    (ps.map (Ident.map f)).map Ident.name = ps.map Ident.name := by
  rw [List.map_map]
  rfl

lemma Definition.Reorders.of_map {α' β' : Type} {f : α' → α} {g : β' → β}
    {R : Definition α → Definition β → Prop} {d : Definition α'} {d' : Definition β'}
    (h : (d.map f).Reorders R (d'.map g))
    (hbody : ∀ {e'}, (d.body.map f).Reorders R (Expr.map g e') →
      d.body.Reorders (fun d d' => R (d.map f) (d'.map g)) e') :
    d.Reorders (fun d d' => R (d.map f) (d'.map g)) d' := by
  obtain ⟨n, ps, b, a⟩ := d
  obtain ⟨n', ps', b', a'⟩ := d'
  obtain ⟨⟨hname, hparams⟩, hrel, hb⟩ := h
  rw [Definition.map, Definition.map] at hname hparams hb
  dsimp only at hparams
  rw [map_name_map, map_name_map] at hparams
  exact ⟨⟨hname, hparams⟩, hrel, hbody hb⟩

/-- Definitions that stand in another order once the annotations are changed do so before. -/
lemma Expr.Reorders.of_map {α' β' : Type} {f : α' → α} {g : β' → β}
    {R : Definition α → Definition β → Prop} {e : Expr α'} {e' : Expr β'}
    (h : (e.map f).Reorders R (e'.map g)) :
    e.Reorders (fun d d' => R (d.map f) (d'.map g)) e' := by
  induction e using Expr.induction generalizing e' with
  | ident i =>
    cases e' with
    | ident i' =>
      obtain ⟨hi⟩ := h
      exact .ident hi
    | _ => cases h
  | int v a =>
    cases e' with
    | int v' a' =>
      obtain ⟨⟩ := h
      exact .int
    | _ => cases h
  | lam ps b a ih =>
    cases e' with
    | lam ps' b' a' =>
      obtain _ | _ | ⟨hps, hb⟩ := h
      rw [map_name_map, map_name_map] at hps
      exact .lam hps (ih hb)
    | _ => cases h
  | call f x a ihf ihx =>
    cases e' with
    | call f' x' a' =>
      obtain _ | _ | _ | ⟨hf, hx⟩ := h
      exact .call (ihf hf) (ihx hx)
    | _ => cases h
  | ite c p n a ihc ihp ihn =>
    cases e' with
    | ite c' p' n' a' =>
      obtain _ | _ | _ | _ | ⟨hc, hp, hn⟩ := h
      exact .ite (ihc hc) (ihp hp) (ihn hn)
    | _ => cases h
  | letIn ds b a ihds ihb =>
    cases e' with
    | letIn ds' b' a' =>
      rw [Expr.map, Expr.map, mapDefs_eq_map, mapDefs_eq_map] at h
      obtain ⟨hds, hb⟩ := h.permuted
      refine .of_permuted (hds.of_map.imp_of_mem fun d hd d' _ hpartner => ?_) (ihb hb)
      exact hpartner.of_map (ihds d hd)
    | _ => cases h

lemma Program.Reorders.of_map {α' β' : Type} {f : α' → α} {g : β' → β}
    {R : Definition α → Definition β → Prop} {p : Program α'} {p' : Program β'}
    (h : (p.map f).Reorders R (p'.map g)) :
    p.Reorders (fun d d' => R (d.map f) (d'.map g)) p' :=
  (Permuted.of_map h).imp fun _ _ hd => hd.of_map Expr.Reorders.of_map

end Letrec
