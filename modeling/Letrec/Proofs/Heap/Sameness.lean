import Mathlib
import Letrec.Heap.Sameness
import Letrec.Proofs.Heap.Text

/-!
# Terms that are the same by value

A term resolves to the term that has the values of its forced thunks in their places, to the end
(`Heap.Resolves`).  If no memo cell leads back to itself, every term resolves to one term, and two
terms are the same exactly if they resolve to one and the same term (`Heap.Acyclic.sameByValue`).

Comparing ends for the same reason: the memo cell that is looked into is none of those that are
still ahead of its content (`Heap.Acyclic.card_ahead_lt`).  There are at most as many cells ahead of
a term as there are thunks, so the limit on the cells that a comparison goes through is never
reached.
-/

namespace Letrec.Heap

variable {h : Heap} {t u v r : Term} {a b c : Addr}

/-! ### Memo cells without a cycle -/

/-- The first thunk has been forced, and the second one occurs in its value. -/
def Contains (h : Heap) (a b : Addr) : Prop := ∃ v, h.memo? a = some v ∧ .thunk b ∈ v.objects

/-- No memo cell leads back to itself. -/
def Acyclic (h : Heap) : Prop := ∀ a, ¬ Relation.TransGen h.Contains a a

lemma acyclic_of_lt (hlt : ∀ a b, h.Contains a b → b < a) : h.Acyclic := by
  intro a hcycle
  have hdown : ∀ b, Relation.TransGen h.Contains a b → b < a := fun b hab => by
    induction hab with
    | single hab => exact hlt _ _ hab
    | tail _ hbc ih => exact (hlt _ _ hbc).trans ih
  exact lt_irrefl a (hdown a hcycle)

/-- The second term is the first one with the values of forced thunks in their places, everywhere
and to the end. -/
inductive Resolves (h : Heap) : Term → Term → Prop
  | var (x : String) : Resolves h (.var x) (.var x)
  | int (n : Int64) : Resolves h (.int n) (.int n)
  | closure (a : Addr) : Resolves h (.closure a) (.closure a)
  | builtin (a : Addr) : Resolves h (.builtin a) (.builtin a)
  | lam {x : String} {s r : Term} : Resolves h s r → Resolves h (.lam x s) (.lam x r)
  | app {f g s r : Term} : Resolves h f g → Resolves h s r → Resolves h (.app f s) (.app g r)
  | unforced {a : Addr} : h.memo? a = none → Resolves h (.thunk a) (.thunk a)
  | forced {a : Addr} {v r : Term} :
    h.memo? a = some v → Resolves h v r → Resolves h (.thunk a) r

lemma Resolves.unique {r' : Term} (hr : h.Resolves t r) (hr' : h.Resolves t r') : r = r' := by
  induction hr generalizing r' with
  | var x | int n | closure a | builtin a =>
    cases hr'
    rfl
  | lam _ ih =>
    cases hr' with
    | lam hs => rw [ih hs]
  | app _ _ ihf ihs =>
    cases hr' with
    | app hf hs => rw [ihf hf, ihs hs]
  | unforced hmemo =>
    cases hr' with
    | unforced _ => rfl
    | forced hmemo' _ => cases hmemo.symm.trans hmemo'
  | forced hmemo _ ih =>
    cases hr' with
    | unforced hmemo' => cases hmemo.symm.trans hmemo'
    | forced hmemo' hv =>
      obtain rfl := Option.some.inj (hmemo.symm.trans hmemo')
      exact ih hv

lemma resolves_thunk (hmemo : h.memo? a = some v) : h.Resolves (.thunk a) r ↔ h.Resolves v r := by
  refine ⟨fun hr => ?_, .forced hmemo⟩
  cases hr with
  | unforced hmemo' => cases hmemo.symm.trans hmemo'
  | forced hmemo' hv => rwa [Option.some.inj (hmemo.symm.trans hmemo')]

/-! ### The memo cells ahead -/

open scoped Classical in
/-- The memo cells with content that can be reached from a term. -/
noncomputable def ahead (h : Heap) (t : Term) : Finset Addr :=
  (Finset.range h.thunks.size).filter fun a =>
    (h.memo? a).isSome ∧ ∃ b, .thunk b ∈ t.objects ∧ Relation.ReflTransGen h.Contains b a

open scoped Classical in
lemma mem_ahead : a ∈ h.ahead t ↔
    (h.memo? a).isSome ∧ ∃ b, .thunk b ∈ t.objects ∧ Relation.ReflTransGen h.Contains b a := by
  rw [ahead, Finset.mem_filter, Finset.mem_range, and_iff_right_iff_imp]
  rintro ⟨hmemo, -⟩
  by_contra ha
  simp [memo?, Array.getElem?_eq_none (Nat.le_of_not_lt ha)] at hmemo

lemma card_ahead_le (h : Heap) (t : Term) : (h.ahead t).card ≤ h.thunks.size := by
  classical
  exact (Finset.card_filter_le _ _).trans_eq (Finset.card_range _)

lemma card_ahead_mono (hsub : t.objects ⊆ u.objects) : (h.ahead t).card ≤ (h.ahead u).card := by
  refine Finset.card_le_card fun a ha => ?_
  obtain ⟨hmemo, b, hb, hreach⟩ := mem_ahead.1 ha
  exact mem_ahead.2 ⟨hmemo, b, hsub hb, hreach⟩

/-- Looking into a memo cell leaves it behind. -/
lemma Acyclic.card_ahead_lt (hac : h.Acyclic) (hmemo : h.memo? a = some v) :
    (h.ahead v).card < (h.ahead (.thunk a)).card := by
  refine Finset.card_lt_card (Finset.ssubset_iff_of_subset (fun c hc => ?_) |>.2 ⟨a, ?_, ?_⟩)
  · obtain ⟨hc, b, hb, hreach⟩ := mem_ahead.1 hc
    exact mem_ahead.2 ⟨hc, a, List.mem_singleton_self _, .head ⟨v, hmemo, hb⟩ hreach⟩
  · exact mem_ahead.2 ⟨Option.isSome_iff_exists.2 ⟨v, hmemo⟩, a, List.mem_singleton_self _, .refl⟩
  · intro ha
    obtain ⟨-, b, hb, hreach⟩ := mem_ahead.1 ha
    exact hac a (.head' ⟨v, hmemo, hb⟩ hreach)

/-- Every term resolves. -/
lemma Acyclic.exists_resolves (hac : h.Acyclic) (t : Term) : ∃ r, h.Resolves t r := by
  -- by the number of memo cells ahead, and for each of them by the form of the term
  suffices hlt : ∀ n t, (h.ahead t).card < n → ∃ r, h.Resolves t r from hlt _ t (Nat.lt_succ_self _)
  clear t
  intro n
  induction n with
  | zero => exact fun t ht => absurd ht (Nat.not_lt_zero _)
  | succ n ih =>
    intro t
    induction t with
    | var x => exact fun _ => ⟨_, .var x⟩
    | int m => exact fun _ => ⟨_, .int m⟩
    | closure a => exact fun _ => ⟨_, .closure a⟩
    | builtin a => exact fun _ => ⟨_, .builtin a⟩
    | lam x s ihs =>
      intro ht
      obtain ⟨r, hs⟩ := ihs ht
      exact ⟨_, .lam hs⟩
    | app f s ihf ihs =>
      intro ht
      obtain ⟨g, hf⟩ := ihf ((card_ahead_mono (List.subset_append_left _ _)).trans_lt ht)
      obtain ⟨r, hs⟩ := ihs ((card_ahead_mono (List.subset_append_right _ _)).trans_lt ht)
      exact ⟨_, .app hf hs⟩
    | thunk a =>
      intro ht
      cases hmemo : h.memo? a with
      | none => exact ⟨_, .unforced hmemo⟩
      | some v =>
        obtain ⟨r, hv⟩ := ih v (by have := hac.card_ahead_lt hmemo; omega)
        exact ⟨r, .forced hmemo hv⟩

/-! ### Comparing ends -/

/-- The first comparison may be made for the second one. -/
inductive Calls (h : Heap) : Term × Term → Term × Term → Prop
  | left {a : Addr} {v : Term} (u : Term) : h.memo? a = some v → Calls h (v, u) (.thunk a, u)
  | right {b : Addr} {w : Term} (t : Term) : h.memo? b = some w → Calls h (w, t) (t, .thunk b)
  | body (x y : String) (s t : Term) : Calls h (s, t) (.lam x s, .lam y t)
  | fn (f g s t : Term) : Calls h (f, g) (.app f s, .app g t)
  | arg (f g s t : Term) : Calls h (s, t) (.app f s, .app g t)

/-- The number of memo cells ahead of two terms. -/
noncomputable def hopsLeft (h : Heap) (t u : Term) : ℕ := (h.ahead t).card + (h.ahead u).card

lemma hopsLeft_le (h : Heap) (t u : Term) : h.hopsLeft t u ≤ 2 * h.thunks.size := by
  have ht := h.card_ahead_le t
  have hu := h.card_ahead_le u
  unfold hopsLeft
  omega

lemma hopsLeft_mono {t' u' : Term} (ht : t.objects ⊆ t'.objects) (hu : u.objects ⊆ u'.objects) :
    h.hopsLeft t u ≤ h.hopsLeft t' u' := Nat.add_le_add (card_ahead_mono ht) (card_ahead_mono hu)

lemma Acyclic.hopsLeft_left (hac : h.Acyclic) (hmemo : h.memo? a = some v) (u : Term) :
    h.hopsLeft v u < h.hopsLeft (.thunk a) u := Nat.add_lt_add_right (hac.card_ahead_lt hmemo) _

lemma Acyclic.hopsLeft_right (hac : h.Acyclic) (hmemo : h.memo? a = some v) (u : Term) :
    h.hopsLeft v u < h.hopsLeft u (.thunk a) :=
  (hac.hopsLeft_left hmemo u).trans_eq (Nat.add_comm _ _)

/-- A comparison does not lead to an endless chain of further comparisons. -/
lemma Acyclic.wellFounded_calls (hac : h.Acyclic) : WellFounded h.Calls := by
  refine Subrelation.wf (r := InvImage (Prod.Lex (· < ·) (· < ·))
    fun p => (h.hopsLeft p.1 p.2, sizeOf p.1 + sizeOf p.2)) (fun {p q} hpq => ?_)
    (InvImage.wf _ (WellFounded.prod_lex wellFounded_lt wellFounded_lt))
  rw [InvImage, Prod.lex_iff]
  cases hpq with
  | left u hmemo => exact .inl (hac.hopsLeft_left hmemo u)
  | right t hmemo => exact .inl (hac.hopsLeft_right hmemo t)
  | body x y s t =>
    have hle : h.hopsLeft s t ≤ h.hopsLeft (.lam x s) (.lam y t) := le_rfl
    refine hle.lt_or_eq.imp_right fun heq => ⟨heq, ?_⟩
    simp only [Term.lam.sizeOf_spec]
    omega
  | fn f g s t =>
    have hle : h.hopsLeft f g ≤ h.hopsLeft (.app f s) (.app g t) :=
      hopsLeft_mono (List.subset_append_left _ _) (List.subset_append_left _ _)
    refine hle.lt_or_eq.imp_right fun heq => ⟨heq, ?_⟩
    simp only [Term.app.sizeOf_spec]
    omega
  | arg f g s t =>
    have hle : h.hopsLeft s t ≤ h.hopsLeft (.app f s) (.app g t) :=
      hopsLeft_mono (List.subset_append_right _ _) (List.subset_append_right _ _)
    refine hle.lt_or_eq.imp_right fun heq => ⟨heq, ?_⟩
    simp only [Term.app.sizeOf_spec]
    omega

/-- What a comparison asks about has fewer memo cells ahead. -/
lemma Acyclic.sameWith_congr (hac : h.Acyclic) {f g : Term → Term → Bool}
    (hfg : ∀ t' u', h.hopsLeft t' u' < h.hopsLeft t u → f t' u' = g t' u') :
    h.sameWith f t u = h.sameWith g t u := by
  fun_induction sameWith h f t u with
  | case1 a u v hmemo => simp only [sameWith, hmemo, hfg v u (hac.hopsLeft_left hmemo u)]
  | case2 a hnone b w hmemo =>
    simp only [sameWith, hnone, hmemo, hfg w (.thunk a) (hac.hopsLeft_right hmemo _)]
  | case3 a hnone b hnone' => simp only [sameWith, hnone, hnone']
  | case4 a u hnone hu => simp only [sameWith, hnone]
  | case5 t b ht =>
    rw [sameWith]
    · cases hmemo : h.memo? b with
      | none => rfl
      | some w => exact hfg w t (hac.hopsLeft_right hmemo t)
    · exact ht
  | case8 x s y t ih =>
    rw [sameWith, ih hfg]
  | case9 f s g t ihf ihs =>
    have hfn : h.hopsLeft f g ≤ h.hopsLeft (.app f s) (.app g t) :=
      hopsLeft_mono (List.subset_append_left _ _) (List.subset_append_left _ _)
    have harg : h.hopsLeft s t ≤ h.hopsLeft (.app f s) (.app g t) :=
      hopsLeft_mono (List.subset_append_right _ _) (List.subset_append_right _ _)
    rw [sameWith, ihf fun t' u' hlt => hfg t' u' (hlt.trans_le hfn),
      ihs fun t' u' hlt => hfg t' u' (hlt.trans_le harg)]
  | case12 t u => rw [sameWith] <;> assumption
  | _ => rw [sameWith]

/-- Within the limit, the limit does not matter. -/
lemma Acyclic.sameUpTo_eq (hac : h.Acyclic) {n k : ℕ} (hn : h.hopsLeft t u < n)
    (hk : h.hopsLeft t u < k) : h.sameUpTo n t u = h.sameUpTo k t u := by
  induction n generalizing k t u with
  | zero => exact absurd hn (Nat.not_lt_zero _)
  | succ n ih =>
    obtain ⟨k, rfl⟩ : ∃ j, k = j + 1 := ⟨k - 1, by omega⟩
    exact hac.sameWith_congr fun t' u' hlt => ih (by omega) (by omega)

/-- Comparing follows the memo cells to the end: the limit is never reached. -/
lemma Acyclic.same_eq (hac : h.Acyclic) (t u : Term) : h.same t u = h.sameWith h.same t u := by
  have hle := h.hopsLeft_le t u
  exact hac.sameWith_congr fun t' u' hlt => hac.sameUpTo_eq (by omega) (by omega)

/-! ### Comparing values -/

/-- The terms resolve to one and the same term. -/
def Agree (h : Heap) (t u : Term) : Prop := ∃ r, h.Resolves t r ∧ h.Resolves u r

lemma agree_comm : h.Agree t u ↔ h.Agree u t := exists_congr fun _ => and_comm

lemma agree_thunk (hmemo : h.memo? a = some v) : h.Agree (.thunk a) u ↔ h.Agree v u := by
  simp only [Agree, resolves_thunk hmemo]

/-- Terms without forced thunks agree only with themselves. -/
lemma agree_iff_eq (ht : h.Resolves t t) (hu : h.Resolves u u) : h.Agree t u ↔ t = u := by
  constructor
  · rintro ⟨r, htr, hur⟩
    rw [ht.unique htr, hu.unique hur]
  · rintro rfl
    exact ⟨t, ht, hu⟩

lemma agree_lam {x y : String} {s : Term} :
    h.Agree (.lam x s) (.lam y t) ↔ x = y ∧ h.Agree s t := by
  constructor
  · rintro ⟨_, ⟨⟩ | ⟨⟩, ⟨⟩⟩
    exact ⟨rfl, _, ‹_›, ‹_›⟩
  · rintro ⟨rfl, r, hs, ht⟩
    exact ⟨_, .lam hs, .lam ht⟩

lemma agree_app {f g s : Term} :
    h.Agree (.app f s) (.app g t) ↔ h.Agree f g ∧ h.Agree s t := by
  constructor
  · rintro ⟨_, ⟨⟩, ⟨⟩⟩
    exact ⟨⟨_, ‹_›, ‹_›⟩, _, ‹_›, ‹_›⟩
  · rintro ⟨⟨r, hf, hg⟩, r', hs, ht⟩
    exact ⟨_, .app hf hs, .app hg ht⟩

/-- Where no forced thunk is on top, the form of a term stays. -/
lemma Resolves.kind_eq (hr : h.Resolves t r) (ht : ∀ a, t = .thunk a → h.memo? a = none) :
    r.kind = t.kind := by
  cases hr with
  | forced hmemo hv => cases hmemo.symm.trans (ht _ rfl)
  | _ => rfl

lemma not_agree (hkind : t.kind ≠ u.kind) (ht : ∀ a, t = .thunk a → h.memo? a = none)
    (hu : ∀ a, u = .thunk a → h.memo? a = none) : ¬ h.Agree t u := by
  rintro ⟨r, htr, hur⟩
  exact hkind ((htr.kind_eq ht).symm.trans (hur.kind_eq hu))

/-- Two terms are the same exactly if they resolve to one term. -/
lemma Acyclic.same_iff (hac : h.Acyclic) (t u : Term) : h.same t u ↔ h.Agree t u := by
  suffices hpair : ∀ p : Term × Term, h.same p.1 p.2 ↔ h.Agree p.1 p.2 from hpair (t, u)
  clear t u
  intro p
  induction p using hac.wellFounded_calls.induction with
  | _ p ih =>
    obtain ⟨t, u⟩ := p
    rw [hac.same_eq]
    change h.sameWith h.same t u ↔ h.Agree t u
    fun_cases sameWith h h.same t u with
    | case1 a u v hmemo =>
      rw [agree_thunk hmemo, Bool.or_eq_true, ih (v, u) (.left u hmemo), or_iff_left_iff_imp,
        beq_iff_eq]
      rintro rfl
      obtain ⟨r, hr⟩ := hac.exists_resolves v
      exact ⟨r, hr, .forced hmemo hr⟩
    | case2 a hnone b w hmemo =>
      rw [ih (w, .thunk a) (.right _ hmemo), agree_comm (u := .thunk b), agree_thunk hmemo]
    | case3 a hnone b hnone' =>
      rw [agree_iff_eq (.unforced hnone) (.unforced hnone'), beq_iff_eq, Term.thunk.injEq]
    | case4 a u hnone hu =>
      refine iff_of_false Bool.false_ne_true (not_agree ?_ ?_ fun b hb => absurd hb (hu b))
      · cases u with
        | thunk b => exact absurd rfl (hu b)
        | _ => exact Term.Kind.noConfusion
      · rintro _ ⟨⟩
        exact hnone
    | case5 t b ht =>
      cases hmemo : h.memo? b with
      | none =>
        refine iff_of_false Bool.false_ne_true (not_agree ?_ (fun a ha => absurd ha (ht a)) ?_)
        · cases t with
          | thunk a => exact absurd rfl (ht a)
          | _ => exact Term.Kind.noConfusion
        · rintro _ ⟨⟩
          exact hmemo
      | some w =>
        rw [Option.any_some, ih (w, t) (.right t hmemo), agree_comm (u := .thunk b),
          agree_thunk hmemo]
    | case6 x y => rw [agree_iff_eq (.var x) (.var y), beq_iff_eq, Term.var.injEq]
    | case7 m n => rw [agree_iff_eq (.int m) (.int n), beq_iff_eq, Term.int.injEq]
    | case8 x s y t =>
      rw [agree_lam, Bool.and_eq_true, beq_iff_eq, ← hac.same_eq, ih (s, t) (.body x y s t)]
    | case9 f s g t =>
      rw [agree_app, Bool.and_eq_true, ← hac.same_eq, ← hac.same_eq, ih (f, g) (.fn f g s t),
        ih (s, t) (.arg f g s t)]
    | case10 a b => rw [agree_iff_eq (.closure a) (.closure b), beq_iff_eq, Term.closure.injEq]
    | case11 a b => rw [agree_iff_eq (.builtin a) (.builtin b), beq_iff_eq, Term.builtin.injEq]
    | case12 t u ht hu hvar hint hlam happ hclosure hbuiltin =>
      refine iff_of_false Bool.false_ne_true
        (not_agree (fun hkind => ?_) (fun a ha => absurd ha (ht a)) fun a ha => absurd ha (hu a))
      -- terms of one form have been compared above
      cases t with
      | var x => cases u with
        | var y => exact hvar x y rfl rfl
        | _ => cases hkind
      | int m => cases u with
        | int n => exact hint m n rfl rfl
        | _ => cases hkind
      | lam x s => cases u with
        | lam y t => exact hlam x s y t rfl rfl
        | _ => cases hkind
      | app f s => cases u with
        | app g t => exact happ f s g t rfl rfl
        | _ => cases hkind
      | closure a => cases u with
        | closure b => exact hclosure a b rfl rfl
        | _ => cases hkind
      | builtin a => cases u with
        | builtin b => exact hbuiltin a b rfl rfl
        | _ => cases hkind
      | thunk a => exact ht a rfl

/-! ### Comparing by value -/

/-- Comparing terms is comparing the terms that they resolve to. -/
structure SameByValue (h : Heap) : Prop where
  /-- No comparison leads to an endless chain of comparisons. -/
  ends : WellFounded h.Calls
  /-- A comparison is what the comparisons it leads to make it, without any limit. -/
  unfolds (t u : Term) : h.same t u = h.sameWith h.same t u
  /-- To be the same is an equivalence. -/
  equivalence : Equivalence fun t u => h.same t u
  /-- Every term resolves to one term. -/
  resolves (t : Term) : ∃! r, h.Resolves t r
  /-- The same are the terms that resolve to one term. -/
  iff_agree (t u : Term) : h.same t u ↔ ∃ r, h.Resolves t r ∧ h.Resolves u r

lemma Acyclic.equivalence (hac : h.Acyclic) : Equivalence h.Agree where
  refl t := (hac.exists_resolves t).imp fun r hr => ⟨hr, hr⟩
  symm := agree_comm.1
  trans := by
    rintro t u v ⟨r, ht, hu⟩ ⟨r', hu', hv⟩
    exact ⟨r, ht, hu'.unique hu ▸ hv⟩

/-- If no memo cell leads back to itself, terms are compared by value. -/
theorem same_by_value (hac : h.Acyclic) : h.SameByValue where
  ends := hac.wellFounded_calls
  unfolds := hac.same_eq
  equivalence := by
    simp only [hac.same_iff]
    exact hac.equivalence
  resolves t := by
    obtain ⟨r, hr⟩ := hac.exists_resolves t
    exact ⟨r, hr, fun r' hr' => hr'.unique hr⟩
  iff_agree := hac.same_iff

/-- A number, a thunk that has not been forced, one whose value is the number, and one whose value
is a function that applies the second one to the third one. -/
def chained : Heap where
  thunks := #[⟨.var "n", [], some (.int 7)⟩, ⟨.var "m", [], none⟩, ⟨.var "n", [], some (.thunk 0)⟩,
    ⟨.var "f", [], some (.lam "x" (.app (.thunk 1) (.thunk 2)))⟩]

theorem same_by_value_chained : chained.Acyclic ∧
    chained.same (.thunk 3) (.lam "x" (.app (.thunk 1) (.thunk 0))) = true ∧
    chained.same (.lam "x" (.thunk 2)) (.lam "x" (.thunk 1)) = false ∧ chained.SameByValue := by
  have hac : chained.Acyclic := by
    refine acyclic_of_lt ?_
    rintro a b ⟨v, hv, hb⟩
    match a with
    | 0 =>
      cases hv
      exact absurd hb List.not_mem_nil
    | 2 =>
      cases hv
      simp only [Term.objects, List.mem_singleton, Term.thunk.injEq] at hb
      rw [hb]
      decide
    | 3 =>
      cases hv
      simp only [Term.objects, List.mem_append, List.mem_singleton, Term.thunk.injEq] at hb
      rcases hb with rfl | rfl <;> decide
    | 1 | a + 4 => cases hv
  exact ⟨hac, by decide, by decide, same_by_value hac⟩

end Letrec.Heap
