import Mathlib
import Letrec.Evaluation

/-!
# Lowered terms

Lowering builds terms of variables, integers, functions and applications only; such a term means
the same over every heap.
-/

namespace Letrec.Term

/-- The term refers to no object of a heap. -/
def Lowered : Term → Prop
  | var _ | int _ => True
  | lam _ b => b.Lowered
  | app f a => f.Lowered ∧ a.Lowered
  | closure _ | thunk _ | builtin _ => False

instance decidableLowered : (t : Term) → Decidable t.Lowered
  | var _ | int _ => .isTrue trivial
  | lam _ b => decidableLowered b
  | app f a => @instDecidableAnd _ _ (decidableLowered f) (decidableLowered a)
  | closure _ | thunk _ | builtin _ => .isFalse id

/-- Of the lowered terms only integers mean the same in every environment. -/
lemma Lowered.eq_int {t : Term} (h : t.Lowered) (hready : t.isReady = true) : ∃ v, t = .int v := by
  cases t with
  | int v => exact ⟨v, rfl⟩
  | var x => exact absurd hready (by simp [isReady])
  | lam x b => exact absurd hready (by simp [isReady])
  | app f a => exact absurd hready (by simp [isReady])
  | _ => exact h.elim

lemma Lowered.textWith_eq {t : Term} (h : t.Lowered) (object object' : Term → String) :
    t.textWith object = t.textWith object' := by
  induction t with
  | var x => rfl
  | int v => rfl
  | lam x b ih => rw [textWith, textWith, ih h]
  | app f a ihf iha => rw [textWith, textWith, ihf h.1, iha h.2]
  | closure a => exact h.elim
  | thunk a => exact h.elim
  | builtin a => exact h.elim

lemma Lowered.textUpTo_eq {t : Term} (h : t.Lowered) (heap : Heap) (n : ℕ) :
    heap.textUpTo n t = t.text := by
  cases n <;> exact h.textWith_eq _ _

end Letrec.Term
