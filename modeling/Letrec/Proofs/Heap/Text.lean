import Mathlib
import Letrec.Heap.Text

/-!
# Texts that come to an end

A text goes from an object to what is shown in its place, and from there to further objects.  Either
it goes round in a circle, or it comes to an end (`Heap.Reads`).  It has come to an end after as
many hops as the heap has objects, because what is shown in place of the objects on the way gets
smaller (`Heap.Reads.hops`).  So the text that is cut off after so many hops is the text to the end.
-/

namespace Letrec

/-- The objects of the heap that occur in a term. -/
def Term.objects : Term → List Term
  | closure a => [closure a]
  | thunk a => [thunk a]
  | builtin a => [builtin a]
  | lam _ b => b.objects
  | app f a => f.objects ++ a.objects
  | var _ | int _ => []

lemma Term.cases_of_mem_objects {t o : Term} (ho : o ∈ t.objects) :
    ∃ a, o = .closure a ∨ o = .thunk a ∨ o = .builtin a := by
  induction t with
  | var x => exact absurd ho List.not_mem_nil
  | int v => exact absurd ho List.not_mem_nil
  | lam x b ih => exact ih ho
  | app f a ihf iha => exact (List.mem_append.1 ho).elim ihf iha
  | closure a => exact ⟨a, Or.inl (List.mem_singleton.1 ho)⟩
  | thunk a => exact ⟨a, Or.inr (Or.inl (List.mem_singleton.1 ho))⟩
  | builtin a => exact ⟨a, Or.inr (Or.inr (List.mem_singleton.1 ho))⟩

lemma Term.textWith_congr {t : Term} {f g : Term → String} (h : ∀ o ∈ t.objects, f o = g o) :
    t.textWith f = t.textWith g := by
  induction t with
  | var x => rfl
  | int v => rfl
  | lam x b ih => rw [textWith, textWith, ih h]
  | app u v ihu ihv =>
    rw [textWith, textWith, ihu fun o ho => h o (List.mem_append_left _ ho),
      ihv fun o ho => h o (List.mem_append_right _ ho)]
  | closure a => exact h _ (List.mem_singleton_self _)
  | thunk a => exact h _ (List.mem_singleton_self _)
  | builtin a => exact h _ (List.mem_singleton_self _)

namespace Heap

variable {h : Heap} {t u : Term} {n k : ℕ}

/-- The term that is shown in place of an object. -/
def inner? (h : Heap) : Term → Option Term
  | .closure a => some (.lam (h.closure a).param (h.closure a).body)
  | .thunk a => h.memo? a
  | _ => none

/-- The text of a term comes to an end within `n` hops. -/
def Reads (h : Heap) : ℕ → Term → Prop
  | 0, t => t.objects = []
  | n + 1, t => ∀ o ∈ t.objects, ∀ u, h.inner? o = some u → h.Reads n u

lemma Reads.succ (hr : h.Reads n t) : h.Reads (n + 1) t := by
  induction n generalizing t with
  | zero =>
    intro o ho
    rw [Reads] at hr
    exact absurd ho (hr ▸ List.not_mem_nil)
  | succ n ih => exact fun o ho u hu => ih (hr o ho u hu)

lemma Reads.mono (hr : h.Reads n t) (hnk : n ≤ k) : h.Reads k t := by
  induction hnk with
  | refl => exact hr
  | step _ ih => exact ih.succ

/-- A text that has come to an end stays the same. -/
lemma Reads.textUpTo_eq (hr : h.Reads n t) (hnk : n ≤ k) : h.textUpTo k t = h.textUpTo n t := by
  induction n generalizing k t with
  | zero =>
    have hnone : ∀ o, o ∉ t.objects := by
      rw [Reads] at hr
      simp [hr]
    cases k with
    | zero => rfl
    | succ k => exact Term.textWith_congr fun o ho => absurd ho (hnone o)
  | succ n ih =>
    obtain ⟨k, rfl⟩ : ∃ j, k = j + 1 := ⟨k - 1, by omega⟩
    refine Term.textWith_congr fun o ho => ?_
    have hinner : ∀ u, h.inner? o = some u → h.textUpTo k u = h.textUpTo n u :=
      fun u hu => ih (hr o ho u hu) (by omega)
    obtain ⟨a, rfl | rfl | rfl⟩ := Term.cases_of_mem_objects ho
    · rw [objectText, objectText, hinner _ rfl]
    · rw [objectText, objectText]
      cases hmemo : h.memo? a with
      | none => rfl
      | some v => exact hinner v hmemo
    · rfl

/-! ### The number of hops is enough -/

/-- The text comes to an end within `n` hops and no fewer. -/
def EndsAt (h : Heap) (n : ℕ) (t : Term) : Prop := h.Reads n t ∧ ∀ k < n, ¬ h.Reads k t

lemma Reads.exists_endsAt (hr : h.Reads n t) : ∃ k ≤ n, h.EndsAt k t := by
  classical
  have hex : ∃ n, h.Reads n t := ⟨n, hr⟩
  exact ⟨Nat.find hex, Nat.find_min' hex hr, Nat.find_spec hex, fun k hk => Nat.find_min hex hk⟩

lemma EndsAt.unique (hn : h.EndsAt n t) (hk : h.EndsAt k t) : n = k := by
  rcases lt_trichotomy n k with hlt | rfl | hlt
  · exact absurd hn.1 (hk.2 n hlt)
  · rfl
  · exact absurd hk.1 (hn.2 k hlt)

/-- One of the objects on the way takes as many hops as are left. -/
lemma EndsAt.exists_inner (hn : h.EndsAt (n + 2) t) :
    ∃ o u, h.inner? o = some u ∧ h.EndsAt (n + 1) u := by
  have hnot := hn.2 (n + 1) (by omega)
  rw [Reads] at hnot
  push Not at hnot
  obtain ⟨o, ho, u, hu, hreads⟩ := hnot
  exact ⟨o, u, hu, hn.1 o ho u hu, fun k hk hr => hreads (hr.mono (by omega))⟩

/-- For every number of hops that are left, there is an object that takes so many. -/
lemma EndsAt.exists_object (hn : h.EndsAt (n + 1) t) {i : ℕ} (hi : 0 < i) (hin : i ≤ n) :
    ∃ o u, h.inner? o = some u ∧ h.EndsAt i u := by
  induction n generalizing t with
  | zero => omega
  | succ n ih =>
    obtain ⟨o, u, hu, hends⟩ := hn.exists_inner
    rcases Nat.lt_or_ge n i with hlt | hle
    · obtain rfl : i = n + 1 := by omega
      exact ⟨o, u, hu, hends⟩
    · exact ih hends hle

/-- The objects of the heap that other terms are shown for. -/
def shownObjects (h : Heap) : Finset Term :=
  (Finset.range h.closures.size).image .closure ∪ (Finset.range h.thunks.size).image .thunk

lemma card_shownObjects_lt (h : Heap) : h.shownObjects.card < h.hops := by
  have hclosures := Finset.card_image_le (s := Finset.range h.closures.size) (f := Term.closure)
  have hthunks := Finset.card_image_le (s := Finset.range h.thunks.size) (f := Term.thunk)
  have hunion := Finset.card_union_le ((Finset.range h.closures.size).image Term.closure)
    ((Finset.range h.thunks.size).image Term.thunk)
  rw [Finset.card_range] at hclosures hthunks
  unfold shownObjects hops
  omega

/-- An address that has not been given out is shown without further objects. -/
lemma EndsAt.mem_shownObjects {o : Term} (hu : h.inner? o = some u) (hn : h.EndsAt n u)
    (hpos : 0 < n) : o ∈ h.shownObjects := by
  cases o with
  | closure a =>
    by_cases ha : a < h.closures.size
    · simp [shownObjects, ha]
    · have hdefault : h.closure a = default := by
        simp [closure, Array.getElem?_eq_none (Nat.le_of_not_lt ha)]
      obtain rfl := Option.some.inj hu
      rw [hdefault] at hn
      exact absurd rfl (hn.2 0 hpos)
  | thunk a =>
    by_cases ha : a < h.thunks.size
    · simp [shownObjects, ha]
    · simp [inner?, memo?, Array.getElem?_eq_none (Nat.le_of_not_lt ha)] at hu
  | _ => cases hu

/-- A text that comes to an end does so within as many hops as the heap has objects. -/
lemma Reads.hops (hr : h.Reads n t) : h.Reads h.hops t := by
  obtain ⟨k, -, hends⟩ := hr.exists_endsAt
  refine hends.1.mono ?_
  cases k with
  | zero => exact Nat.zero_le _
  | succ k =>
    have hex : ∀ i : ℕ, ∃ o : Term, 0 < i → i ≤ k → ∃ u, h.inner? o = some u ∧ h.EndsAt i u := by
      intro i
      by_cases hi : 0 < i ∧ i ≤ k
      · obtain ⟨o, hu⟩ := hends.exists_object hi.1 hi.2
        exact ⟨o, fun _ _ => hu⟩
      · exact ⟨.int 0, fun hpos hle => absurd ⟨hpos, hle⟩ hi⟩
    choose o ho using hex
    -- objects that take different numbers of hops are different
    have hcard : (Finset.Icc 1 k).card ≤ h.shownObjects.card := by
      refine Finset.card_le_card_of_injOn o (fun i hi => ?_) fun i hi j hj hij => ?_
      · obtain ⟨hpos, hle⟩ := Finset.mem_Icc.1 hi
        obtain ⟨u, hu, hends⟩ := ho i hpos hle
        exact hends.mem_shownObjects hu hpos
      · obtain ⟨hpos, hle⟩ := Finset.mem_Icc.1 hi
        obtain ⟨hpos', hle'⟩ := Finset.mem_Icc.1 hj
        obtain ⟨u, hu, hends⟩ := ho i hpos hle
        obtain ⟨u', hu', hends'⟩ := ho j hpos' hle'
        rw [hij, hu'] at hu
        obtain rfl := Option.some.inj hu
        exact hends.unique hends'
    have hlt := h.card_shownObjects_lt
    rw [Nat.card_Icc] at hcard
    omega

/-- The text to the end. -/
lemma Reads.text_eq (hr : h.Reads n t) (hnk : n ≤ k) : h.textUpTo k t = h.text t := by
  obtain ⟨i, hin, hends⟩ := hr.exists_endsAt
  have hhops : h.Reads h.hops t := hr.hops
  rcases Nat.le_total k h.hops with hle | hle
  · exact ((hr.mono hnk).textUpTo_eq hle).symm
  · exact hhops.textUpTo_eq hle

/-! ### Integers -/

/-- The text of an integer comes to an end. -/
lemma reads_of_asIntUpTo {i : Int64} (hi : h.asIntUpTo n t = some i) : h.Reads n t := by
  induction n generalizing t with
  | zero => cases t <;> simp_all [asIntUpTo, Reads, Term.objects]
  | succ n ih =>
    cases t with
    | int v => exact fun o ho => absurd ho List.not_mem_nil
    | thunk a =>
      intro o ho u hu
      obtain rfl := List.mem_singleton.1 ho
      change h.memo? a = some u at hu
      rw [asIntUpTo, hu] at hi
      exact ih hi
    | _ => cases hi

lemma Reads.asIntUpTo_eq {i : Int64} (hr : h.Reads n t) (hi : h.asIntUpTo k t = some i) :
    h.asIntUpTo n t = some i := by
  induction n generalizing k t with
  | zero =>
    cases t with
    | int v => cases k <;> exact hi
    | thunk a => exact absurd hr (by simp [Reads, Term.objects])
    | _ => cases k <;> cases hi
  | succ n ih =>
    cases t with
    | int v => cases k <;> exact hi
    | thunk a =>
      cases k with
      | zero => cases hi
      | succ k =>
        rw [asIntUpTo] at hi ⊢
        cases hmemo : h.memo? a with
        | none => simp [hmemo] at hi
        | some v =>
          rw [hmemo] at hi
          exact ih (hr _ (List.mem_singleton_self _) v hmemo) hi
    | _ => cases k <;> cases hi

/-- A term is an integer if its memo cells lead to one, however many there are. -/
lemma asInt?_eq_some_iff {i : Int64} : h.asInt? t = some i ↔ ∃ n, h.asIntUpTo n t = some i := by
  refine ⟨fun hi => ⟨_, hi⟩, fun hi => ?_⟩
  obtain ⟨n, hn⟩ := hi
  exact (reads_of_asIntUpTo hn).hops.asIntUpTo_eq hn

end Heap

end Letrec
