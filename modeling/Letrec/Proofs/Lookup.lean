import Mathlib

/-!
# Looking up names in association lists

Environments, scopes, tables and numberings are association lists in which the first pair for a key
counts.  These are the facts about `List.lookup` that all of them share.
-/

namespace Letrec

variable {α β : Type*} [DecidableEq α]

lemma lookup_cons_ite (a k : α) (v : β) (l : List (α × β)) :
    ((k, v) :: l).lookup a = if a = k then some v else l.lookup a := by
  rw [List.lookup_cons]
  split_ifs with h
  · simp [h]
  · rw [beq_eq_false_iff_ne.2 h]

lemma lookup_append_or (a : α) (l₁ l₂ : List (α × β)) :
    (l₁ ++ l₂).lookup a = (l₁.lookup a).or (l₂.lookup a) := by
  induction l₁ with
  | nil => simp
  | cons p l₁ ih =>
    obtain ⟨k, v⟩ := p
    rw [List.cons_append, lookup_cons_ite, lookup_cons_ite, ih]
    split_ifs <;> simp

lemma lookup_eq_none_iff_notMem {a : α} {l : List (α × β)} :
    l.lookup a = none ↔ a ∉ l.map Prod.fst := by
  induction l with
  | nil => simp
  | cons p l ih =>
    obtain ⟨k, v⟩ := p
    rw [lookup_cons_ite]
    split_ifs with h
    · simp [h]
    · simp [ih, h]

lemma mem_of_lookup_eq_some {a : α} {b : β} {l : List (α × β)} (h : l.lookup a = some b) :
    (a, b) ∈ l := by
  obtain ⟨l₁, l₂, rfl, -⟩ := List.lookup_eq_some_iff.1 h
  simp

lemma lookup_isSome_of_mem {a : α} {l : List (α × β)} (h : a ∈ l.map Prod.fst) :
    ∃ b, l.lookup a = some b := by
  cases hl : l.lookup a with
  | none => exact absurd h (lookup_eq_none_iff_notMem.1 hl)
  | some b => exact ⟨b, rfl⟩

/-- Where no key is repeated, every pair counts. -/
lemma lookup_eq_some_of_mem {a : α} {b : β} {l : List (α × β)} (hl : (l.map Prod.fst).Nodup)
    (h : (a, b) ∈ l) : l.lookup a = some b := by
  induction l with
  | nil => simp at h
  | cons p l ih =>
    obtain ⟨k, v⟩ := p
    rw [List.map_cons, List.nodup_cons] at hl
    rw [lookup_cons_ite]
    rcases List.mem_cons.1 h with hp | hmem
    · obtain ⟨rfl, rfl⟩ := Prod.mk.inj hp
      simp
    · have hne : a ≠ k := by
        rintro rfl
        exact hl.1 (List.mem_map.2 ⟨(a, b), hmem, rfl⟩)
      rw [if_neg hne, ih hl.2 hmem]

/-- Lists with the same keys have related values for each of them. -/
lemma lookup_of_forall₂ {γ : Type*} {R : β → γ → Prop} {l : List (α × β)} {l' : List (α × γ)}
    (h : List.Forall₂ (fun p q => p.1 = q.1 ∧ R p.2 q.2) l l') (a : α) :
    (l.lookup a = none ∧ l'.lookup a = none) ∨
      ∃ b c, l.lookup a = some b ∧ l'.lookup a = some c ∧ R b c := by
  induction h with
  | nil => exact Or.inl ⟨rfl, rfl⟩
  | @cons p q l l' hp _ ih =>
    obtain ⟨k, b⟩ := p
    obtain ⟨k', c⟩ := q
    obtain ⟨rfl, hbc⟩ := hp
    rw [lookup_cons_ite, lookup_cons_ite]
    split_ifs with ha
    · exact Or.inr ⟨b, c, rfl, rfl, hbc⟩
    · exact ih

/-- Changing keys injectively and values at will. -/
lemma lookup_map_map {α' β' : Type*} [DecidableEq α'] {u : α → α'} (hu : u.Injective) (v : β → β')
    (a : α) (l : List (α × β)) :
    (l.map (Prod.map u v)).lookup (u a) = (l.lookup a).map v := by
  induction l with
  | nil => rfl
  | cons p l ih =>
    obtain ⟨b, c⟩ := p
    rw [List.map_cons, Prod.map_apply, lookup_cons_ite, lookup_cons_ite, ih]
    simp only [hu.eq_iff]
    split_ifs <;> rfl

end Letrec
