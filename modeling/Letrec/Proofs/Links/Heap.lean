import Mathlib
import Letrec.Proofs.Evaluation.Once
import Letrec.Proofs.Unshared.Text
import Letrec.Proofs.Links.Basic

/-!
# Linked heaps

Two heaps are joined by links if linked objects are alike: functions and suspended computations with
joined code, forced thunks with joined values, the same operation with joined arguments.  Objects
without links are garbage to the comparison, except that thunks which do not have joined code may
still be known to do the same by the structure of such garbage (`Comparison.special`), and that
something else may be known of it (`Comparison.aside`).  What such knowledge is, is up to the
comparison; all that is asked for here is that it stays true while the heaps get older
(`Heap.Ages`).

Joined terms have the same text and are the same integer.
-/

namespace Letrec

open ByName.World (Keeps)

/-! ### Objects -/

/-- An object of the heap. -/
inductive Stored where
  | closure (c : Closure)
  | thunk (c : Thunk)
  | builtin (b : Builtin)

namespace Heap

variable {h h₁ : Heap} {t : Term} {o : Stored} {a : Addr} {D D' : Set Term}

/-- The object that a term refers to. -/
def stored? (h : Heap) : Term → Option Stored
  | .closure a => h.closures[a]?.map .closure
  | .thunk a => h.thunks[a]?.map .thunk
  | .builtin a => h.builtins[a]?.map .builtin
  | .var _ | .int _ | .lam _ _ | .app _ _ => none

lemma stored?_eq_closure {c : Closure} :
    h.stored? t = some (.closure c) ↔ ∃ a, t = .closure a ∧ h.closures[a]? = some c := by
  cases t <;> simp [stored?]

lemma stored?_eq_thunk {c : Thunk} :
    h.stored? t = some (.thunk c) ↔ ∃ a, t = .thunk a ∧ h.thunks[a]? = some c := by
  cases t <;> simp [stored?]

lemma stored?_eq_builtin {b : Builtin} :
    h.stored? t = some (.builtin b) ↔ ∃ a, t = .builtin a ∧ h.builtins[a]? = some b := by
  cases t <;> simp [stored?]

/-! ### Additions -/

lemma keeps_refl (h : Heap) : Keeps h h := ⟨fun _ _ h => h, fun _ _ h => h, fun _ _ h => h⟩

lemma stored?_of_keeps (hh : Keeps h h₁) (ho : h.stored? t = some o) : h₁.stored? t = some o := by
  cases o with
  | closure c =>
    obtain ⟨a, rfl, hc⟩ := stored?_eq_closure.1 ho
    exact stored?_eq_closure.2 ⟨a, rfl, hh.closures a c hc⟩
  | thunk c =>
    obtain ⟨a, rfl, hc⟩ := stored?_eq_thunk.1 ho
    exact stored?_eq_thunk.2 ⟨a, rfl, hh.thunks a c hc⟩
  | builtin b =>
    obtain ⟨a, rfl, hb⟩ := stored?_eq_builtin.1 ho
    exact stored?_eq_builtin.2 ⟨a, rfl, hh.builtins a b hb⟩

/-- The objects that the heap has. -/
def contents (h : Heap) : Set Term := {t | ∃ o, h.stored? t = some o}

lemma stored?_eq_none : h.stored? t = none ↔ t ∉ h.contents :=
  Option.eq_none_iff_forall_ne_some.trans not_exists.symm

lemma thunk_mem_contents {c : Thunk} (hc : h.thunks[a]? = some c) : .thunk a ∈ h.contents :=
  ⟨.thunk c, stored?_eq_thunk.2 ⟨a, rfl, hc⟩⟩

lemma contents_mono (hh : Keeps h h₁) : h.contents ⊆ h₁.contents := by
  rintro t ⟨o, ho⟩
  exact ⟨o, stored?_of_keeps hh ho⟩

lemma stored?_pushClosure (h : Heap) (c : Closure) :
    h.stored? (.closure h.closures.size) = none ∧
      (h.pushClosure c).stored? (.closure h.closures.size) = some (.closure c) := by
  simp [stored?, pushClosure]

lemma stored?_pushThunk (h : Heap) (c : Thunk) :
    h.stored? (.thunk h.thunks.size) = none ∧
      (h.pushThunk c).stored? (.thunk h.thunks.size) = some (.thunk c) := by
  simp [stored?, pushThunk]

lemma stored?_pushBuiltin (h : Heap) (b : Builtin) :
    h.stored? (.builtin h.builtins.size) = none ∧
      (h.pushBuiltin b).stored? (.builtin h.builtins.size) = some (.builtin b) := by
  simp [stored?, pushBuiltin]

/-! ### Memo cells -/

lemma stored?_memoize_of_ne (v : Term) (ht : t ≠ .thunk a) :
    (h.memoize a v).stored? t = h.stored? t := by
  cases t with
  | thunk b =>
    have hne : a ≠ b := by
      rintro rfl
      exact ht rfl
    rw [stored?, stored?, thunks_memoize, if_neg hne]
  | _ => rfl

/-! ### Getting older -/

/-- The value is the function in the thunk, with the thunk's environment. -/
def Makes (h : Heap) (c : Thunk) (v : Term) : Prop :=
  ∃ x b a, c.term = .lam x b ∧ v = .closure a ∧
    h.closures[a]? = some { param := x, body := b, env := c.env }

/-- What happens to a heap whose objects in `D` have links: nothing changes but memo cells, and a
thunk without a link gets no value but the function that it holds.  What gets a link is new. -/
structure Ages (D D' : Set Term) (h h₁ : Heap) : Prop where
  closure : ∀ (a : Addr) (c : Closure), h.closures[a]? = some c → h₁.closures[a]? = some c
  thunk : ∀ (a : Addr) (c : Thunk), h.thunks[a]? = some c → .thunk a ∉ D → .thunk a ∉ D' ∧
    ∃ c₁ : Thunk, h₁.thunks[a]? = some c₁ ∧ c₁.term = c.term ∧ c₁.env = c.env ∧
      (∀ v, c.memo = some v → c₁.memo = some v) ∧
      ∀ v, c₁.memo = some v → c.memo = some v ∨ h₁.Makes c v

lemma ages_of_keeps (hh : Keeps h h₁) (hD : ∀ t ∈ D', t ∈ D ∨ h.stored? t = none) :
    h.Ages D D' h₁ where
  closure := hh.closures
  thunk a c hc ha := by
    refine ⟨fun hmem => ?_, c, hh.thunks a c hc, rfl, rfl, fun v hv => hv, fun v hv => Or.inl hv⟩
    rcases hD _ hmem with hmem | hnone
    · exact ha hmem
    · exact absurd (hnone.symm.trans (stored?_eq_thunk.2 ⟨a, rfl, hc⟩)) (by simp)

/-- A new object gets a link. -/
lemma ages_insert_left {L : Links} {t' : Term} (hh : Keeps h h₁) (ht : h.stored? t = none) :
    h.Ages L.left (Links.left (insert (t, t') L)) h₁ := by
  refine ages_of_keeps hh ?_
  rw [Links.left_insert]
  rintro u (rfl | hu)
  · exact Or.inr ht
  · exact Or.inl hu

lemma ages_insert_right {L : Links} {t' : Term} (hh : Keeps h h₁) (ht : h.stored? t = none) :
    h.Ages L.right (Links.right (insert (t', t) L)) h₁ := by
  refine ages_of_keeps hh ?_
  rw [Links.right_insert]
  rintro u (rfl | hu)
  · exact Or.inr ht
  · exact Or.inl hu

/-- A thunk with a link gets a value. -/
lemma ages_memoize (h : Heap) (v : Term) (ha : .thunk a ∈ D) : h.Ages D D (h.memoize a v) where
  closure _ _ hc := hc
  thunk b c hc hb := by
    have hne : a ≠ b := by
      rintro rfl
      exact hb ha
    refine ⟨hb, c, ?_, rfl, rfl, fun v hv => hv, fun v hv => Or.inl hv⟩
    rw [thunks_memoize, if_neg hne, hc]

/-- A suspended function gets its value. -/
lemma ages_memoize_makes {c : Thunk} {v : Term} (hc : h.thunks[a]? = some c)
    (hv : h.Makes c v) : h.Ages D D (h.memoize a v) where
  closure _ _ hc := hc
  thunk b c' hc' hb := by
    rcases eq_or_ne a b with rfl | hne
    · obtain rfl := Option.some.inj (hc.symm.trans hc')
      refine ⟨hb, { c with memo := c.memo.or (some v) }, ?_, rfl, rfl, fun w hw => ?_,
        fun w hw => ?_⟩
      · rw [thunks_memoize, if_pos rfl, hc, Option.map_some]
      · simp [hw]
      · cases hmemo : c.memo with
        | none =>
          simp only [hmemo, Option.none_or, Option.some.injEq] at hw
          exact Or.inr (hw ▸ hv)
        | some u => simpa [hmemo] using Or.inl hw
    · refine ⟨hb, c', ?_, rfl, rfl, fun v hv => hv, fun v hv => Or.inl hv⟩
      rw [thunks_memoize, if_neg hne, hc']

lemma Makes.mono {c c₁ : Thunk} {v : Term} (hv : h.Makes c v)
    (hh : ∀ (a : Addr) (c : Closure), h.closures[a]? = some c → h₁.closures[a]? = some c)
    (hterm : c₁.term = c.term) (henv : c₁.env = c.env) : h₁.Makes c₁ v := by
  obtain ⟨x, b, a, ht, hv, ha⟩ := hv
  exact ⟨x, b, a, hterm.trans ht, hv, henv ▸ hh a _ ha⟩

lemma Ages.trans {D'' : Set Term} {h₂ : Heap} (hh : h.Ages D D' h₁) (hh₁ : h₁.Ages D' D'' h₂) :
    h.Ages D D'' h₂ where
  closure a c hc := hh₁.closure a c (hh.closure a c hc)
  thunk a c hc ha := by
    obtain ⟨ha', c₁, hc₁, hterm, henv, hkept, hgot⟩ := hh.thunk a c hc ha
    obtain ⟨ha'', c₂, hc₂, hterm', henv', hkept', hgot'⟩ := hh₁.thunk a c₁ hc₁ ha'
    refine ⟨ha'', c₂, hc₂, hterm'.trans hterm, henv'.trans henv,
      fun v hv => hkept' v (hkept v hv), fun v hv => ?_⟩
    rcases hgot' v hv with hv | hv
    · exact (hgot v hv).imp_right fun hv => hv.mono hh₁.closure rfl rfl
    · exact Or.inr (hv.mono (fun _ _ hc => hc) hterm.symm henv.symm)

end Heap

/-! ### Comparisons -/

/-- What a comparison of two evaluations is about. -/
structure Comparison where
  /-- The limit on the nesting of both evaluations. -/
  limit : Option ℕ
  /-- Whether the reports and records of the two evaluations are the same as well. -/
  exact : Prop
  /-- The links that operations may depend on. -/
  base : Links
  /-- Thunks that do the same for a reason of their own. -/
  special : Links → Heap → Heap → Thunk → Thunk → Prop
  /-- The reason stays true. -/
  special_ages : ∀ {L L' : Links} {h h' h₁ h₁' : Heap} {c c' : Thunk}, L ⊆ L' →
    h.Ages L.left L'.left h₁ → h'.Ages L.right L'.right h₁' →
    special L h h' c c' → special L' h₁ h₁' c c'
  /-- What else is known of the two heaps. -/
  aside : Links → Heap → Heap → Prop
  /-- It stays true. -/
  aside_ages : ∀ {L L' : Links} {h h' h₁ h₁' : Heap}, L ⊆ L' → h.Ages L.left L'.left h₁ →
    h'.Ages L.right L'.right h₁' → aside L h h' → aside L' h₁ h₁'

/-- The texts of two terms are the same as far as they go, and both come to an end or neither. -/
structure Heap.TextAlike (h h' : Heap) (t t' : Term) : Prop where
  upTo : ∀ n, h.textUpTo n t = h'.textUpTo n t'
  ends : ∀ n, h.Reads n t ↔ h'.Reads n t'

namespace Heap.TextAlike

variable {h h' : Heap} {t t' : Term}

lemma symm (ht : h.TextAlike h' t t') : h'.TextAlike h t' t :=
  ⟨fun n => (ht.upTo n).symm, fun n => (ht.ends n).symm⟩

/-- Texts that come to an end are the same. -/
lemma text_eq {n : ℕ} (ht : h.TextAlike h' t t') (hr : h.Reads n t) : h.text t = h'.text t' := by
  rw [← hr.text_eq le_rfl, ← ((ht.ends n).1 hr).text_eq le_rfl, ht.upTo n]

end Heap.TextAlike

namespace Comparison

variable {S : Comparison} {L L' : Links} {h h' h₁ h₁' : Heap}

/-- Objects that are alike. -/
inductive JoinsStored (S : Comparison) (L : Links) (h h' : Heap) : Stored → Stored → Prop
  | closure {c c' : Closure} :
      L.JoinsCode (.lam c.param c.body) c.env (.lam c'.param c'.body) c'.env →
      JoinsStored S L h h' (.closure c) (.closure c')
  | thunk {c c' : Thunk} : Option.Rel L.Joins c.memo c'.memo →
      (c.memo = none →
        L.JoinsCode c.term c.env c'.term c'.env ∨ ¬ S.exact ∧ S.special L h h' c c') →
      JoinsStored S L h h' (.thunk c) (.thunk c')
  | builtin {b : Builtin} {args : List Term} : b.op.Uniform S.base →
      List.Forall₂ L.Joins b.supplied args →
      JoinsStored S L h h' (.builtin b) (.builtin { b with supplied := args })

/-- Linked objects are alike. -/
structure JoinsHeap (S : Comparison) (L : Links) (h h' : Heap) : Prop where
  oneToOne : L.OneToOne
  base : S.base ⊆ L
  stored : ∀ t t', (t, t') ∈ L → ∃ o o', h.stored? t = some o ∧ h'.stored? t' = some o' ∧
    S.JoinsStored L h h' o o'
  aside : S.aside L h h'

lemma JoinsStored.ages {o o' : Stored} (hL : L ⊆ L') (hages : h.Ages L.left L'.left h₁)
    (hages' : h'.Ages L.right L'.right h₁') (ho : S.JoinsStored L h h' o o') :
    S.JoinsStored L' h₁ h₁' o o' := by
  cases ho with
  | closure hc => exact .closure (hc.mono hL)
  | thunk hmemo hcode =>
    refine .thunk (optionRel_mono (fun _ _ hv => hv.mono hL) hmemo) fun hnone => ?_
    rcases hcode hnone with hcode | ⟨hexact, hspecial⟩
    · exact Or.inl (hcode.mono hL)
    · exact Or.inr ⟨hexact, S.special_ages hL hages hages' hspecial⟩
  | builtin hop hargs => exact .builtin hop (hargs.imp fun _ _ hv => hv.mono hL)

namespace JoinsHeap

variable {t t' : Term}

section Read

variable (hh : S.JoinsHeap L h h') {a a' : Addr}

include hh

lemma closure (ha : (.closure a, .closure a') ∈ L) :
    L.JoinsCode (.lam (h.closure a).param (h.closure a).body) (h.closure a).env
      (.lam (h'.closure a').param (h'.closure a').body) (h'.closure a').env := by
  obtain ⟨o, o', ho, ho', hjoins⟩ := hh.stored _ _ ha
  obtain ⟨c, hc, rfl⟩ := Option.map_eq_some_iff.1 ho
  obtain ⟨c', hc', rfl⟩ := Option.map_eq_some_iff.1 ho'
  rw [Heap.closure, Heap.closure, hc, hc']
  cases hjoins with
  | closure hcode => exact hcode

lemma thunk (ha : (.thunk a, .thunk a') ∈ L) :
    Option.Rel L.Joins (h.thunk a).memo (h'.thunk a').memo ∧
      ((h.thunk a).memo = none →
        L.JoinsCode (h.thunk a).term (h.thunk a).env (h'.thunk a').term (h'.thunk a').env ∨
          ¬ S.exact ∧ S.special L h h' (h.thunk a) (h'.thunk a')) := by
  obtain ⟨o, o', ho, ho', hjoins⟩ := hh.stored _ _ ha
  obtain ⟨c, hc, rfl⟩ := Option.map_eq_some_iff.1 ho
  obtain ⟨c', hc', rfl⟩ := Option.map_eq_some_iff.1 ho'
  rw [Heap.thunk, Heap.thunk, hc, hc']
  cases hjoins with
  | thunk hmemo hcode => exact ⟨hmemo, hcode⟩

lemma builtin (ha : (.builtin a, .builtin a') ∈ L) :
    ∃ args, h'.builtin a' = { h.builtin a with supplied := args } ∧
      (h.builtin a).op.Uniform S.base ∧ List.Forall₂ L.Joins (h.builtin a).supplied args := by
  obtain ⟨o, o', ho, ho', hjoins⟩ := hh.stored _ _ ha
  obtain ⟨b, hb, rfl⟩ := Option.map_eq_some_iff.1 ho
  obtain ⟨b', hb', rfl⟩ := Option.map_eq_some_iff.1 ho'
  rw [Heap.builtin, Heap.builtin, hb, hb']
  cases hjoins with
  | builtin hop hargs => exact ⟨_, rfl, hop, hargs⟩

/-- Linked objects are there. -/
lemma left_subset : L.left ⊆ h.contents := by
  rintro _ ⟨⟨u, u'⟩, hu, rfl⟩
  obtain ⟨o, o', ho, -⟩ := hh.stored u u' hu
  exact ⟨o, ho⟩

lemma right_subset : L.right ⊆ h'.contents := by
  rintro _ ⟨⟨u, u'⟩, hu, rfl⟩
  obtain ⟨o, o', -, ho', -⟩ := hh.stored u u' hu
  exact ⟨o', ho'⟩

lemma notMem_left (ht : h.stored? t = none) : t ∉ L.left :=
  fun hmem => Heap.stored?_eq_none.1 ht (hh.left_subset hmem)

lemma notMem_right (ht : h'.stored? t = none) : t ∉ L.right :=
  fun hmem => Heap.stored?_eq_none.1 ht (hh.right_subset hmem)

/-! ### Texts and integers -/

lemma inner? {o o' : Term} (ho : (o, o') ∈ L) :
    Option.Rel L.Joins (h.inner? o) (h'.inner? o') := by
  obtain ⟨s, s', hs, hs', hjoins⟩ := hh.stored o o' ho
  cases hjoins with
  | closure hcode =>
    obtain ⟨a, rfl, hc⟩ := Heap.stored?_eq_closure.1 hs
    obtain ⟨a', rfl, hc'⟩ := Heap.stored?_eq_closure.1 hs'
    rw [Heap.inner?, Heap.inner?]
    exact .some (hh.closure ho).term
  | thunk =>
    obtain ⟨a, rfl, hc⟩ := Heap.stored?_eq_thunk.1 hs
    obtain ⟨a', rfl, hc'⟩ := Heap.stored?_eq_thunk.1 hs'
    rw [Heap.inner?, Heap.inner?, ← Heap.memo_thunk, ← Heap.memo_thunk]
    exact (hh.thunk ho).1
  | builtin =>
    obtain ⟨a, rfl, -⟩ := Heap.stored?_eq_builtin.1 hs
    obtain ⟨a', rfl, -⟩ := Heap.stored?_eq_builtin.1 hs'
    exact .none

/-- Linked thunks have joined values, or none. -/
lemma memo? {a a' : Addr} (ha : (.thunk a, .thunk a') ∈ L) :
    Option.Rel L.Joins (h.memo? a) (h'.memo? a') := by
  have hinner := hh.inner? ha
  rwa [Heap.inner?, Heap.inner?] at hinner

lemma textUpTo_eq (n : ℕ) (ht : L.Joins t t') : h.textUpTo n t = h'.textUpTo n t' := by
  induction n generalizing t t' with
  | zero => exact ht.textWith_eq fun _ _ _ => rfl
  | succ n ih =>
    refine ht.textWith_eq fun o o' ho => ?_
    obtain ⟨s, s', hs, hs', hjoins⟩ := hh.stored o o' ho
    cases hjoins with
    | closure =>
      obtain ⟨a, rfl, -⟩ := Heap.stored?_eq_closure.1 hs
      obtain ⟨a', rfl, -⟩ := Heap.stored?_eq_closure.1 hs'
      rw [Heap.objectText, Heap.objectText, ih (hh.closure ho).term]
    | thunk =>
      obtain ⟨a, rfl, -⟩ := Heap.stored?_eq_thunk.1 hs
      obtain ⟨a', rfl, -⟩ := Heap.stored?_eq_thunk.1 hs'
      rw [Heap.objectText, Heap.objectText]
      have hmemo := hh.memo? ho
      generalize h.memo? a = m at hmemo ⊢
      generalize h'.memo? a' = m' at hmemo ⊢
      cases hmemo with
      | none => rfl
      | some hv => exact ih hv
    | builtin _ hargs =>
      obtain ⟨a, rfl, hb⟩ := Heap.stored?_eq_builtin.1 hs
      obtain ⟨a', rfl, hb'⟩ := Heap.stored?_eq_builtin.1 hs'
      rw [Heap.objectText, Heap.objectText, Heap.builtin, Heap.builtin, hb, hb']
      exact Builtin.text_eq rfl rfl hargs.length_eq

lemma reads_iff {n : ℕ} (ht : L.Joins t t') : h.Reads n t ↔ h'.Reads n t' := by
  induction n generalizing t t' with
  | zero =>
    rw [Heap.Reads, Heap.Reads, ← List.length_eq_zero_iff, ← List.length_eq_zero_iff,
      ht.objects.length_eq]
  | succ n ih =>
    refine forall₂_forall_iff ht.objects fun o o' ho => ?_
    have hinner := hh.inner? ho
    generalize h.inner? o = u at hinner
    generalize h'.inner? o' = u' at hinner
    cases hinner with
    | none => exact iff_of_true (fun _ hu => by cases hu) fun _ hu => by cases hu
    | some hu =>
      refine ⟨fun hr _ heq => ?_, fun hr _ heq => ?_⟩
      · exact Option.some.inj heq ▸ (ih hu).1 (hr _ rfl)
      · exact Option.some.inj heq ▸ (ih hu).2 (hr _ rfl)

/-- Joined terms have the same text. -/
lemma textAlike (ht : L.Joins t t') : h.TextAlike h' t t' :=
  ⟨fun n => hh.textUpTo_eq n ht, fun _ => hh.reads_iff ht⟩

/-- The text of joined terms is the same if the heaps have as many objects. -/
lemma text_eq_of_hops (hhops : h.hops = h'.hops) (ht : L.Joins t t') : h.text t = h'.text t' := by
  rw [Heap.text, Heap.text, hhops, hh.textUpTo_eq _ ht]

lemma asIntUpTo_eq (n : ℕ) (ht : L.Joins t t') : h.asIntUpTo n t = h'.asIntUpTo n t' := by
  induction n generalizing t t' with
  | zero => cases ht <;> rfl
  | succ n ih =>
    cases ht with
    | @thunk a a' ha =>
      rw [Heap.asIntUpTo, Heap.asIntUpTo]
      have hmemo := hh.memo? ha
      generalize h.memo? a = m at hmemo ⊢
      generalize h'.memo? a' = m' at hmemo ⊢
      cases hmemo with
      | none => rfl
      | some hv => exact ih hv
    | _ => rfl

lemma asInt?_eq (ht : L.Joins t t') : h.asInt? t = h'.asInt? t' := by
  refine Option.ext fun i => ?_
  rw [Heap.asInt?_eq_some_iff, Heap.asInt?_eq_some_iff]
  exact exists_congr fun n => by rw [hh.asIntUpTo_eq n ht]

end Read

/-! ### Changes -/

section Change

variable (hh : S.JoinsHeap L h h')

include hh

/-- The heaps get older.  Linked objects stay the same or are alike again. -/
lemma ages (hL : L ⊆ L') (hone : L'.OneToOne) (hages : h.Ages L.left L'.left h₁)
    (hages' : h'.Ages L.right L'.right h₁')
    (hstored : ∀ t t', (t, t') ∈ L' →
      ((t, t') ∈ L ∧ h₁.stored? t = h.stored? t ∧ h₁'.stored? t' = h'.stored? t') ∨
      ∃ o o', h₁.stored? t = some o ∧ h₁'.stored? t' = some o' ∧ S.JoinsStored L' h₁ h₁' o o') :
    S.JoinsHeap L' h₁ h₁' := by
  refine ⟨hone, hh.base.trans hL, fun t t' ht => ?_, S.aside_ages hL hages hages' hh.aside⟩
  rcases hstored t t' ht with ⟨hmem, heq, heq'⟩ | hnew
  · obtain ⟨o, o', ho, ho', hjoins⟩ := hh.stored t t' hmem
    exact ⟨o, o', heq.trans ho, heq'.trans ho', hjoins.ages hL hages hages'⟩
  · exact hnew

/-- New objects without links. -/
lemma extend (hkeeps : Keeps h h₁) (hkeeps' : Keeps h' h₁') : S.JoinsHeap L h₁ h₁' := by
  refine hh.ages (subset_refl L) hh.oneToOne (Heap.ages_of_keeps hkeeps fun _ ht => Or.inl ht)
    (Heap.ages_of_keeps hkeeps' fun _ ht => Or.inl ht) fun t t' ht => Or.inl ⟨ht, ?_⟩
  obtain ⟨o, o', ho, ho', -⟩ := hh.stored t t' ht
  rw [ho, ho', Heap.stored?_of_keeps hkeeps ho, Heap.stored?_of_keeps hkeeps' ho']
  exact ⟨rfl, rfl⟩

/-- New objects that are alike. -/
lemma link {o o' : Stored} (hkeeps : Keeps h h₁) (hkeeps' : Keeps h' h₁')
    (ht : h.stored? t = none) (ht' : h'.stored? t' = none) (ho : h₁.stored? t = some o)
    (ho' : h₁'.stored? t' = some o')
    (hjoins : S.JoinsStored (insert (t, t') L) h₁ h₁' o o') :
    S.JoinsHeap (insert (t, t') L) h₁ h₁' := by
  refine hh.ages (Set.subset_insert _ _)
    (hh.oneToOne.insert (hh.notMem_left ht) (hh.notMem_right ht'))
    (Heap.ages_insert_left hkeeps ht) (Heap.ages_insert_right hkeeps' ht') ?_
  rintro u u' (hu | hu)
  · obtain ⟨rfl, rfl⟩ := Prod.mk.inj hu
    exact Or.inr ⟨o, o', ho, ho', hjoins⟩
  · obtain ⟨s, s', hs, hs', -⟩ := hh.stored u u' hu
    rw [hs, hs']
    exact Or.inl ⟨hu, Heap.stored?_of_keeps hkeeps hs, Heap.stored?_of_keeps hkeeps' hs'⟩

/-- New functions that are alike. -/
lemma pushClosure {c c' : Closure}
    (hc : L.JoinsCode (.lam c.param c.body) c.env (.lam c'.param c'.body) c'.env) :
    S.JoinsHeap (insert (.closure h.closures.size, .closure h'.closures.size) L)
      (h.pushClosure c) (h'.pushClosure c') := by
  obtain ⟨hnone, hnew⟩ := h.stored?_pushClosure c
  obtain ⟨hnone', hnew'⟩ := h'.stored?_pushClosure c'
  exact hh.link (ByName.World.keeps_pushClosure _ c) (ByName.World.keeps_pushClosure _ c')
    hnone hnone' hnew hnew' (.closure (hc.mono (Set.subset_insert _ _)))

/-- Linked thunks get joined values. -/
lemma memoize {a a' : Addr} {v v' : Term} (ha : (.thunk a, .thunk a') ∈ L) (hv : L.Joins v v') :
    S.JoinsHeap L (h.memoize a v) (h'.memoize a' v') := by
  refine hh.ages (subset_refl L) hh.oneToOne (Heap.ages_memoize h v (Links.mem_left ha))
    (Heap.ages_memoize h' v' (Links.mem_right ha)) fun t t' ht => ?_
  have hsame := hh.oneToOne _ ht _ ha
  by_cases heq : t = .thunk a
  · obtain rfl := heq
    obtain rfl := hsame.1 rfl
    obtain ⟨o, o', ho, ho', hjoins⟩ := hh.stored _ _ ha
    cases hjoins with
    | @thunk c c' hmemo hcode =>
      obtain ⟨b, hb, hc⟩ := Heap.stored?_eq_thunk.1 ho
      obtain rfl := Term.thunk.inj hb
      obtain ⟨b', hb', hc'⟩ := Heap.stored?_eq_thunk.1 ho'
      obtain rfl := Term.thunk.inj hb'
      refine Or.inr ⟨.thunk { c with memo := c.memo.or (some v) },
        .thunk { c' with memo := c'.memo.or (some v') }, ?_, ?_, .thunk ?_ fun hnone => ?_⟩
      · rw [Heap.stored?, Heap.thunks_memoize, if_pos rfl, hc]
        rfl
      · rw [Heap.stored?, Heap.thunks_memoize, if_pos rfl, hc']
        rfl
      · generalize c.memo = m at hmemo
        generalize c'.memo = m' at hmemo
        cases hmemo with
        | none => exact .some hv
        | some hw => exact .some hw
      · exact absurd hnone (by cases c.memo <;> simp)
    | closure => exact absurd (Heap.stored?_eq_closure.1 ho) (by simp)
    | builtin => exact absurd (Heap.stored?_eq_builtin.1 ho) (by simp)
  · refine Or.inl ⟨ht, Heap.stored?_memoize_of_ne v heq,
      Heap.stored?_memoize_of_ne v' fun heq' => ?_⟩
    exact heq (hsame.2 heq')

end Change

end JoinsHeap

end Comparison

end Letrec
