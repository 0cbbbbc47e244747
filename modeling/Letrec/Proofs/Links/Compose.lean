import Mathlib
import Letrec.Proofs.Links.Closed

/-!
# Links turned round and put together

Where two heaps are joined, they are joined the other way round as well, and a third heap that is
joined to the second one is joined to the first.  This needs a comparison without special thunks.

So two runs from one heap that lead to joined results (`SameRun`) can be told apart in no way that
does not depend on addresses, and the relation is symmetric and transitive.
-/

namespace Letrec

open EvalM (Finished OutOfFuel)

lemma optionRel_symm {α β : Type} {R : α → β → Prop} {R' : β → α → Prop}
    (hR : ∀ a b, R a b → R' b a) {o : Option α} {o' : Option β} (h : Option.Rel R o o') :
    Option.Rel R' o' o := by
  cases h with
  | some h => exact .some (hR _ _ h)
  | none => exact .none

lemma optionRel_trans {α β γ : Type} {R : α → β → Prop} {R' : β → γ → Prop} {Q : α → γ → Prop}
    (hR : ∀ a b c, R a b → R' b c → Q a c) {o : Option α} {o' : Option β} {o'' : Option γ}
    (h : Option.Rel R o o') (h' : Option.Rel R' o' o'') : Option.Rel Q o o'' := by
  cases h with
  | some h =>
    cases h' with
    | some h' => exact .some (hR _ _ _ h h')
  | none =>
    cases h' with
    | none => exact .none

lemma forall₂_trans {α β γ : Type} {R : α → β → Prop} {R' : β → γ → Prop} {Q : α → γ → Prop}
    (hR : ∀ a b c, R a b → R' b c → Q a c) {l : List α} {l' : List β} {l'' : List γ}
    (h : List.Forall₂ R l l') (h' : List.Forall₂ R' l' l'') : List.Forall₂ Q l l'' := by
  induction h generalizing l'' with
  | nil =>
    cases h'
    exact .nil
  | cons hab _ ih =>
    cases h' with
    | cons hbc h' => exact .cons (hR _ _ _ hab hbc) (ih h')

namespace Links

variable {L L' : Links} {t t' t'' : Term} {env env' env'' : Env}

/-! ### Terms -/

lemma OneToOne.inv (hL : L.OneToOne) : Links.OneToOne (SetRel.inv L) :=
  fun p hp q hq => (hL p.swap hp q.swap hq).symm

lemma OneToOne.comp (hL : L.OneToOne) (hL' : L'.OneToOne) :
    Links.OneToOne (SetRel.comp L L') := by
  rintro ⟨t, t''⟩ ⟨t', ht, ht'⟩ ⟨u, u''⟩ ⟨u', hu, hu'⟩
  exact (hL _ ht _ hu).trans (hL' _ ht' _ hu')

lemma Joins.inv (h : L.Joins t t') : Links.Joins (SetRel.inv L) t' t := by
  induction h with
  | var x => exact .var x
  | int v => exact .int v
  | lam x _ ih => exact .lam x ih
  | app _ _ ihf iha => exact .app ihf iha
  | closure h => exact .closure h
  | thunk h => exact .thunk h
  | builtin h => exact .builtin h

lemma Joins.comp (h : L.Joins t t') (h' : L'.Joins t' t'') :
    Links.Joins (SetRel.comp L L') t t'' := by
  induction h generalizing t'' with
  | var x =>
    cases h'
    exact .var x
  | int v =>
    cases h'
    exact .int v
  | lam x _ ih =>
    cases h' with
    | lam _ hb => exact .lam x (ih hb)
  | app _ _ ihf iha =>
    cases h' with
    | app hf ha => exact .app (ihf hf) (iha ha)
  | closure h =>
    cases h' with
    | closure h' => exact .closure ⟨_, h, h'⟩
  | thunk h =>
    cases h' with
    | thunk h' => exact .thunk ⟨_, h, h'⟩
  | builtin h =>
    cases h' with
    | builtin h' => exact .builtin ⟨_, h, h'⟩

lemma Joins.freeVars_eq (h : L.Joins t t') : t.freeVars = t'.freeVars := by
  induction h with
  | lam x _ ih => rw [Term.freeVars, Term.freeVars, ih]
  | app _ _ ihf iha => rw [Term.freeVars, Term.freeVars, ihf, iha]
  | _ => rfl

lemma JoinsCode.inv (h : L.JoinsCode t env t' env') :
    Links.JoinsCode (SetRel.inv L) t' env' t env where
  term := h.term.inv
  bound x hx := optionRel_symm (fun _ _ hu => ⟨hu.1.inv, hu.1.isReady_eq ▸ hu.2⟩)
    (h.bound x (h.term.freeVars_eq ▸ hx))

lemma JoinsCode.comp (h : L.JoinsCode t env t' env') (h' : L'.JoinsCode t' env' t'' env'') :
    Links.JoinsCode (SetRel.comp L L') t env t'' env'' where
  term := h.term.comp h'.term
  bound x hx := optionRel_trans (fun _ _ _ hu hu' => ⟨hu.1.comp hu'.1, hu.2⟩) (h.bound x hx)
    (h'.bound x (h.term.freeVars_eq ▸ hx))

end Links

/-! ### Heaps and machines -/

namespace Comparison

variable {limit : Option ℕ} {exact : Prop} {base L L' : Links} {h h' h'' : Heap}
  {o o' o'' : Stored} {m m' m'' : Machine} {r r' r'' : EStateM.Result Halt Machine Term}

lemma JoinsStored.inv (ho : (plain limit exact base).JoinsStored L h h' o o') :
    (plain limit exact base).JoinsStored (SetRel.inv L) h' h o' o := by
  cases ho with
  | closure hc => exact .closure hc.inv
  | @thunk c c' hmemo hcode =>
    refine .thunk (optionRel_symm (fun _ _ hv => hv.inv) hmemo) fun hnone => ?_
    have hnone' : c.memo = none := by
      rw [hnone] at hmemo
      generalize c.memo = o at hmemo
      cases hmemo
      rfl
    rcases hcode hnone' with hcode | ⟨-, hspecial⟩
    · exact Or.inl hcode.inv
    · exact hspecial.elim
  | @builtin b args hop hargs =>
    have hback : List.Forall₂ (Links.Joins (SetRel.inv L)) args b.supplied :=
      hargs.flip.imp fun _ _ hv => hv.inv
    exact JoinsStored.builtin (b := { b with supplied := args }) hop hback

lemma JoinsStored.comp (ho : (plain limit exact base).JoinsStored L h h' o o')
    (ho' : (plain limit exact base).JoinsStored L' h' h'' o' o'') :
    (plain limit exact base).JoinsStored (SetRel.comp L L') h h'' o o'' := by
  cases ho with
  | closure hc =>
    cases ho' with
    | closure hc' => exact .closure (hc.comp hc')
  | @thunk c c' hmemo hcode =>
    cases ho' with
    | thunk hmemo' hcode' =>
      refine .thunk (optionRel_trans (fun _ _ _ hv hv' => hv.comp hv') hmemo hmemo')
        fun hnone => ?_
      have hnone' : c'.memo = none := by
        rw [hnone] at hmemo
        generalize c'.memo = o at hmemo
        cases hmemo
        rfl
      rcases hcode hnone with hcode | ⟨-, hspecial⟩
      · rcases hcode' hnone' with hcode' | ⟨-, hspecial⟩
        · exact Or.inl (hcode.comp hcode')
        · exact hspecial.elim
      · exact hspecial.elim
  | builtin hop hargs =>
    cases ho' with
    | builtin _ hargs' =>
      exact .builtin hop (forall₂_trans (fun _ _ _ hv hv' => hv.comp hv') hargs hargs')

lemma JoinsHeap.inv (hbase : base ⊆ SetRel.inv base)
    (hh : (plain limit exact base).JoinsHeap L h h') :
    (plain limit exact base).JoinsHeap (SetRel.inv L) h' h where
  oneToOne := hh.oneToOne.inv
  base := hbase.trans (SetRel.inv_mono hh.base)
  stored t t' ht := by
    obtain ⟨o, o', ho, ho', hjoins⟩ := hh.stored t' t ht
    exact ⟨o', o, ho', ho, hjoins.inv⟩
  aside := trivial

lemma JoinsHeap.comp (hbase : base ⊆ SetRel.comp base base)
    (hh : (plain limit exact base).JoinsHeap L h h')
    (hh' : (plain limit exact base).JoinsHeap L' h' h'') :
    (plain limit exact base).JoinsHeap (SetRel.comp L L') h h'' where
  oneToOne := hh.oneToOne.comp hh'.oneToOne
  base := by
    rintro ⟨t, t''⟩ ht
    obtain ⟨t', ht, ht'⟩ := hbase ht
    exact ⟨t', hh.base ht, hh'.base ht'⟩
  stored := by
    rintro t t'' ⟨t', ht, ht'⟩
    obtain ⟨o, o', ho, ho', hjoins⟩ := hh.stored t t' ht
    obtain ⟨o₁, o'', ho₁, ho'', hjoins'⟩ := hh'.stored t' t'' ht'
    obtain rfl := Option.some.inj (ho'.symm.trans ho₁)
    exact ⟨o, o'', ho, ho'', hjoins.comp hjoins'⟩
  aside := trivial

end Comparison

lemma Machine.SameReports.inv {L : Links} {m m' : Machine} (h : SameReports L m m') :
    SameReports (SetRel.inv L) m' m :=
  ⟨h.closures.symm, h.thunks.symm, fun a a' ha => (h.address a' a ha).symm, h.tracing.symm,
    h.log.symm, h.ticks.symm⟩

lemma Machine.SameReports.comp {L L' : Links} {m m' m'' : Machine} (h : SameReports L m m')
    (h' : SameReports L' m' m'') (hh : ∀ a t, (.thunk a, t) ∈ L → ∃ a', t = .thunk a') :
    SameReports (SetRel.comp L L') m m'' := by
  refine ⟨h.closures.trans h'.closures, h.thunks.trans h'.thunks, ?_, h.tracing.trans h'.tracing,
    h.log.trans h'.log, h.ticks.trans h'.ticks⟩
  rintro a a'' ⟨t, ht, ht'⟩
  obtain ⟨a', rfl⟩ := hh a t ht
  exact (h.address a a' ht).trans (h'.address a' a'' ht')

namespace Comparison

variable {limit : Option ℕ} {exact : Prop} {base L L' : Links} {m m' m'' : Machine}

lemma JoinsMachine.inv (hbase : base ⊆ SetRel.inv base)
    (hm : (plain limit exact base).JoinsMachine L m m') :
    (plain limit exact base).JoinsMachine (SetRel.inv L) m' m where
  heap := hm.heap.inv hbase
  depth hlimit := (hm.depth hlimit).symm
  reports hexact := (hm.reports hexact).inv

/-- What is linked to a thunk is a thunk. -/
lemma JoinsHeap.exists_thunk {S : Comparison} {h h' : Heap} (hh : S.JoinsHeap L h h') {a : Addr}
    {t : Term} (ht : (.thunk a, t) ∈ L) : ∃ a', t = .thunk a' := by
  obtain ⟨o, o', ho, ho', hjoins⟩ := hh.stored _ _ ht
  obtain ⟨c, -, rfl⟩ := Option.map_eq_some_iff.1 ho
  cases hjoins with
  | thunk =>
    obtain ⟨a', ha', -⟩ := Heap.stored?_eq_thunk.1 ho'
    exact ⟨a', ha'⟩

lemma JoinsMachine.comp (hbase : base ⊆ SetRel.comp base base)
    (hm : (plain limit exact base).JoinsMachine L m m')
    (hm' : (plain limit exact base).JoinsMachine L' m' m'') :
    (plain limit exact base).JoinsMachine (SetRel.comp L L') m m'' where
  heap := hm.heap.comp hbase hm'.heap
  depth hlimit := (hm.depth hlimit).trans (hm'.depth hlimit)
  reports hexact :=
    (hm.reports hexact).comp (hm'.reports hexact) fun _ _ ht => hm.heap.exists_thunk ht

end Comparison

/-! ### Runs from one heap -/

/-- Two runs from the heap `h` have the same result and the same effects.  They end with joined
values or with the same error, with the same reports and records and as many functions and thunks;
what is linked has the same code in environments that bind its free variables alike, or the same
arguments, or the same value, if any; and every object of `h` is linked to itself. -/
def SameRun (h : Heap) : EStateM.Result Halt Machine Term → EStateM.Result Halt Machine Term →
    Prop := (Comparison.plain none True h.selfLinks).JoinsResult h.selfLinks

namespace SameRun

variable {h : Heap} {r r' r'' : EStateM.Result Halt Machine Term}

lemma symm (hr : SameRun h r r') : SameRun h r' r := by
  have hself : h.selfLinks ⊆ SetRel.inv h.selfLinks := by
    rintro _ ⟨t, s, hs, rfl⟩
    exact Heap.mem_selfLinks hs
  cases hr with
  | ok hL hv hm =>
    exact .ok (hself.trans (SetRel.inv_mono hL)) hv.inv (hm.inv hself)
  | error hL _ he hm =>
    obtain rfl := he trivial
    exact .error (hself.trans (SetRel.inv_mono hL)) (.same _) (fun _ => rfl) (hm.inv hself)

lemma trans (hr : SameRun h r r') (hr' : SameRun h r' r'') : SameRun h r r'' := by
  have hself : ∀ {L L' : Links}, h.selfLinks ⊆ L → h.selfLinks ⊆ L' →
      h.selfLinks ⊆ SetRel.comp L L' := by
    rintro L L' hL hL' _ ⟨t, s, hs, rfl⟩
    exact ⟨t, hL (Heap.mem_selfLinks hs), hL' (Heap.mem_selfLinks hs)⟩
  have hbase := hself (subset_refl _) (subset_refl _)
  cases hr with
  | ok hL hv hm =>
    cases hr' with
    | ok hL' hv' hm' => exact .ok (hself hL hL') (hv.comp hv') (hm.comp hbase hm')
  | error hL _ he hm =>
    cases hr' with
    | error hL' _ he' hm' =>
      obtain rfl := he trivial
      obtain rfl := he' trivial
      exact .error (hself hL hL') (.same _) (fun _ => rfl) (hm.comp hbase hm')

/-- A run that has not been cut short does not become one that has. -/
lemma finished (hr : SameRun h r r') (hfinished : Finished OutOfFuel r) :
    Finished OutOfFuel r' := by
  cases hr with
  | ok => exact EvalM.finished_value
  | @error L' e e' m m' _ _ he =>
    obtain rfl := he trivial
    intro e' m₁ heq
    obtain ⟨rfl, rfl⟩ := EStateM.Result.error.inj heq
    exact hfinished _ m rfl

end SameRun

end Letrec
