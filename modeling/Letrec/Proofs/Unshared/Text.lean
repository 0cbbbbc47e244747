import Mathlib
import Letrec.Heap.Text
import Letrec.Proofs.Unshared.World

/-!
# Values with the same tree

Two heaps may hold the same value under different addresses.  If both are described by trees over
the same world and the trees of two values are the same, then the values are the same integer, the
same function or the same operation with as many arguments (`SameValue`), and they are shown alike
as long as thunks are shown unforced (`ShownAlike`).

A thunk inside a function is shown by its value once it has been forced, so the texts themselves
need not be the same.
-/

namespace Letrec

lemma Builtin.text_eq {b b' : Builtin} (hname : b.name = b'.name) (harity : b.arity = b'.arity)
    (hlength : b.supplied.length = b'.supplied.length) : b.text = b'.text := by
  have hempty : b.supplied.isEmpty = b'.supplied.isEmpty := by
    rw [Bool.eq_iff_iff, List.isEmpty_iff_length_eq_zero, List.isEmpty_iff_length_eq_zero, hlength]
  unfold Builtin.text
  rw [hempty, hname, harity, hlength]

namespace Heap

/-- The heap with empty memo cells.  All thunks are shown unforced in it. -/
def unforced (h : Heap) : Heap :=
  { h with thunks := h.thunks.map fun c => { c with memo := none } }

@[simp] lemma closure_unforced (h : Heap) (a : Addr) : h.unforced.closure a = h.closure a := rfl

@[simp] lemma builtin_unforced (h : Heap) (a : Addr) : h.unforced.builtin a = h.builtin a := rfl

@[simp] lemma memo?_unforced (h : Heap) (a : Addr) : h.unforced.memo? a = none := by
  simp [memo?, unforced, Option.bind_map]

lemma text_unforced (h : Heap) (t : Term) : h.unforced.text t
    = t.textWith (h.unforced.objectText
        (h.unforced.textUpTo (h.closures.size + h.thunks.size))) := by
  have hhops : h.unforced.hops = h.closures.size + h.thunks.size + 1 := by simp [hops, unforced]
  rw [text, hhops, textUpTo]

/-- The same integer, a function with the same parameter and body, or the same operation with as
many arguments. -/
inductive SameValue (h h' : Heap) : Term → Term → Prop
  | int (v : Int64) : SameValue h h' (.int v) (.int v)
  | closure {a a' : Addr} : (h.closure a).param = (h'.closure a').param →
      (h.closure a).body = (h'.closure a').body → SameValue h h' (.closure a) (.closure a')
  | builtin {a a' : Addr} : (h.builtin a).name = (h'.builtin a').name →
      (h.builtin a).arity = (h'.builtin a').arity →
      (h.builtin a).supplied.length = (h'.builtin a').supplied.length →
      SameValue h h' (.builtin a) (.builtin a')

/-- The same value, with the same text if thunks are shown unforced. -/
structure ShownAlike (h h' : Heap) (v v' : Term) : Prop where
  value : SameValue h h' v v'
  text : h.unforced.text v = h'.unforced.text v'

end Heap

namespace Unshared.World

open Heap (SameValue ShownAlike)

/-- The text of a term is made of the texts of the objects that it mentions. -/
lemma Knows.textWith_eq {G : World} {f g : Term → String} {N : ℕ} {t : Term} (ht : G.Knows t)
    (hN : t.ClosuresBelow N)
    (hclosure : ∀ a < N, ∀ o, G (.closure a) = some o → f (.closure a) = g (.closure a))
    (hthunk : ∀ a, f (.thunk a) = g (.thunk a))
    (hbuiltin : ∀ a o, G (.builtin a) = some o → f (.builtin a) = g (.builtin a)) :
    t.textWith f = t.textWith g := by
  induction t with
  | var x => rfl
  | int v => rfl
  | lam x b ih => rw [Term.textWith, Term.textWith, ih ht hN]
  | app u v ihu ihv => rw [Term.textWith, Term.textWith, ihu ht.1 hN.1, ihv ht.2 hN.2]
  | closure a =>
    obtain ⟨o, ho⟩ := ht
    exact hclosure a hN o ho
  | thunk a => exact hthunk a
  | builtin a =>
    obtain ⟨o, ho⟩ := ht
    exact hbuiltin a o ho

section Alike

variable {G W₁ W₂ : World} {h₁ h₂ : Heap} (hW₁ : Describes G W₁ h₁) (hW₂ : Describes G W₂ h₂)

include hW₁ hW₂

lemma Describes.closure_eq {a₁ a₂ : Addr} {o : Object} (ha₁ : W₁ (.closure a₁) = some o)
    (ha₂ : W₂ (.closure a₂) = some o) :
    (h₁.closure a₁).param = (h₂.closure a₂).param ∧ (h₁.closure a₁).body = (h₂.closure a₂).body ∧
      G.Knows (h₁.closure a₁).body ∧ (h₁.closure a₁).body.ClosuresBelow a₁ ∧
      (h₁.closure a₁).body.ClosuresBelow a₂ := by
  obtain ⟨c₁, ρ₁, hc₁, rfl, hb₁, hbelow₁, -⟩ := hW₁.closure ha₁
  obtain ⟨c₂, ρ₂, hc₂, heq, -, hbelow₂, -⟩ := hW₂.closure ha₂
  obtain ⟨hparam, hbody, -⟩ := Object.closure.inj heq
  rw [Heap.closure_eq hc₁, Heap.closure_eq hc₂]
  exact ⟨hparam, hbody, hb₁, hbelow₁, hbody ▸ hbelow₂⟩

lemma Describes.builtin_eq {a₁ a₂ : Addr} {o : Object} (ha₁ : W₁ (.builtin a₁) = some o)
    (ha₂ : W₂ (.builtin a₂) = some o) :
    (h₁.builtin a₁).name = (h₂.builtin a₂).name ∧ (h₁.builtin a₁).arity = (h₂.builtin a₂).arity ∧
      (h₁.builtin a₁).supplied.length = (h₂.builtin a₂).supplied.length := by
  obtain ⟨p, supplied₁, args, hb₁, rfl, hargs₁⟩ := hW₁.builtin ha₁
  obtain ⟨q, supplied₂, args', hb₂, heq, hargs₂⟩ := hW₂.builtin ha₂
  obtain ⟨rfl, rfl⟩ := Object.builtin.inj heq
  rw [Heap.builtin_eq hb₁, Heap.builtin_eq hb₂]
  exact ⟨rfl, rfl, hargs₁.length_eq.trans hargs₂.length_eq.symm⟩

/-- Terms over the common world are shown alike.  The induction is on the closures that the term
mentions: those in the body of a closure are older than the closure. -/
lemma Describes.textUpTo_unforced_eq {N n₁ n₂ : ℕ} {t : Term} (ht : G.Knows t)
    (hN : t.ClosuresBelow N) (hn₁ : N < n₁) (hn₂ : N < n₂) :
    h₁.unforced.textUpTo n₁ t = h₂.unforced.textUpTo n₂ t := by
  induction N using Nat.strong_induction_on generalizing t n₁ n₂ with
  | _ N ih =>
    obtain ⟨k₁, rfl⟩ := Nat.exists_eq_add_of_lt hn₁
    obtain ⟨k₂, rfl⟩ := Nat.exists_eq_add_of_lt hn₂
    rw [Heap.textUpTo, Heap.textUpTo]
    refine ht.textWith_eq hN (fun a ha o ho => ?_) (fun a => ?_) fun a o ho => ?_
    · obtain ⟨hparam, hbody, hknows, hbelow, -⟩ :=
        hW₁.closure_eq hW₂ (hW₁.grows _ _ ho) (hW₂.grows _ _ ho)
      have htext : h₁.unforced.textUpTo (N + k₁) (.lam (h₁.closure a).param (h₁.closure a).body)
          = h₂.unforced.textUpTo (N + k₂) (.lam (h₁.closure a).param (h₁.closure a).body) :=
        ih a ha hknows hbelow (by omega) (by omega)
      rw [Heap.objectText, Heap.objectText, Heap.closure_unforced, Heap.closure_unforced, htext,
        hparam, hbody]
    · simp [Heap.objectText]
    · obtain ⟨hname, harity, hlength⟩ :=
        hW₁.builtin_eq hW₂ (hW₁.grows _ _ ho) (hW₂.grows _ _ ho)
      exact Builtin.text_eq hname harity hlength

lemma Describes.shownAlike {v₁ v₂ : Term} {w : Object} (hv₁ : W₁.Value v₁ w)
    (hv₂ : W₂.Value v₂ w) : ShownAlike h₁ h₂ v₁ v₂ := by
  cases hW₁.object v₁ w hv₁.1 with
  | thunk => exact hv₁.2.elim
  | int v =>
    cases hW₂.object v₂ _ hv₂.1 with
    | int _ =>
      refine ⟨.int v, ?_⟩
      rw [Heap.text_unforced, Heap.text_unforced, Term.textWith, Term.textWith]
  | @builtin a₁ p supplied args hb₁ hargs₁ =>
    cases hW₂.object v₂ _ hv₂.1 with
    | @builtin a₂ p supplied args hb₂ hargs₂ =>
      obtain ⟨hname, harity, hlength⟩ := hW₁.builtin_eq hW₂ hv₁.1 hv₂.1
      refine ⟨.builtin hname harity hlength, ?_⟩
      rw [Heap.text_unforced, Heap.text_unforced, Term.textWith, Term.textWith, Heap.objectText,
        Heap.objectText, Heap.builtin_unforced, Heap.builtin_unforced]
      exact Builtin.text_eq hname harity hlength
  | @closure a₁ c₁ ρ hc₁ =>
    -- `v₂` has the tree of a closure as well
    obtain ⟨a₂, rfl⟩ : ∃ a₂, v₂ = .closure a₂ := by
      generalize ho : Object.closure c₁.param c₁.body ρ = o at hv₂
      cases hW₂.object v₂ o hv₂.1 with
      | @closure a₂ => exact ⟨a₂, rfl⟩
      | _ => cases ho
    obtain ⟨hparam, hbody, hknows, hbelow₁, hbelow₂⟩ := hW₁.closure_eq hW₂ hv₁.1 hv₂.1
    obtain ⟨c₂, -, hc₂, -⟩ := hW₂.closure hv₂.1
    have ha₁ := (Array.getElem?_eq_some_iff.1 hc₁).1
    have ha₂ := (Array.getElem?_eq_some_iff.1 hc₂).1
    refine ⟨.closure hparam hbody, ?_⟩
    have htext : h₁.unforced.textUpTo (h₁.closures.size + h₁.thunks.size)
          (.lam (h₁.closure a₁).param (h₁.closure a₁).body)
        = h₂.unforced.textUpTo (h₂.closures.size + h₂.thunks.size)
          (.lam (h₁.closure a₁).param (h₁.closure a₁).body) := by
      rcases Nat.le_total a₁ a₂ with hle | hle
      · exact hW₁.textUpTo_unforced_eq hW₂ hknows hbelow₁ (by omega) (by omega)
      · exact hW₁.textUpTo_unforced_eq hW₂ hknows hbelow₂ (by omega) (by omega)
    rw [Heap.text_unforced, Heap.text_unforced, Term.textWith, Term.textWith, Heap.objectText,
      Heap.objectText, Heap.closure_unforced, Heap.closure_unforced, htext, hparam, hbody]

end Alike

end Unshared.World

end Letrec
