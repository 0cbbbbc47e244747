import Mathlib
import Letrec.Evaluation

/-!
# The addresses of a heap

A heap has the addresses that it has given out, and what was stored at one of them is read there.
An object that is made gets the next address and changes nothing at the others.  Filling a memo cell
changes nothing but that cell, and not even that if it has a value.

Everything that is said about a heap while it grows rests on these facts.
-/

namespace Letrec.Heap

variable {h h' h'' : Heap} {a b : Addr} {t v : Term}

/-! ### Reading -/

lemma closure_eq {c : Closure} (hc : h.closures[a]? = some c) : h.closure a = c := by
  rw [closure, hc, Option.getD_some]

lemma thunk_eq {c : Thunk} (hc : h.thunks[a]? = some c) : h.thunk a = c := by
  rw [thunk, hc, Option.getD_some]

lemma builtin_eq {c : Builtin} (hc : h.builtins[a]? = some c) : h.builtin a = c := by
  rw [builtin, hc, Option.getD_some]

lemma memo?_eq {c : Thunk} (hc : h.thunks[a]? = some c) : h.memo? a = c.memo := by
  rw [memo?, hc, Option.bind_some]

lemma memo_thunk (h : Heap) (a : Addr) : (h.thunk a).memo = h.memo? a := by
  unfold thunk memo?
  cases h.thunks[a]? <;> rfl

lemma getElem?_closures (ha : a < h.closures.size) : h.closures[a]? = some (h.closure a) := by
  rw [closure, Array.getElem?_eq_getElem ha, Option.getD_some]

lemma getElem?_thunks (ha : a < h.thunks.size) : h.thunks[a]? = some (h.thunk a) := by
  rw [thunk, Array.getElem?_eq_getElem ha, Option.getD_some]

lemma getElem?_builtins (ha : a < h.builtins.size) : h.builtins[a]? = some (h.builtin a) := by
  rw [builtin, Array.getElem?_eq_getElem ha, Option.getD_some]

/-! ### Addresses that have been given out -/

/-- An integer, or an object that the heap has. -/
def Has (h : Heap) : Term → Prop
  | .int _ => True
  | .closure a => a < h.closures.size
  | .thunk a => a < h.thunks.size
  | .builtin a => a < h.builtins.size
  | .var _ | .lam _ _ | .app _ _ => False

/-- The second heap has all addresses of the first. -/
structure Within (h h' : Heap) : Prop where
  closures : h.closures.size ≤ h'.closures.size
  thunks : h.thunks.size ≤ h'.thunks.size
  builtins : h.builtins.size ≤ h'.builtins.size

lemma Within.refl (h : Heap) : h.Within h := ⟨le_rfl, le_rfl, le_rfl⟩

lemma Within.trans (hh : h.Within h') (hh' : h'.Within h'') : h.Within h'' :=
  ⟨hh.closures.trans hh'.closures, hh.thunks.trans hh'.thunks, hh.builtins.trans hh'.builtins⟩

lemma Has.mono (hh : h.Within h') (ht : h.Has t) : h'.Has t := by
  cases t with
  | int v => trivial
  | closure a => exact lt_of_lt_of_le ht hh.closures
  | thunk a => exact lt_of_lt_of_le ht hh.thunks
  | builtin a => exact lt_of_lt_of_le ht hh.builtins
  | var x => exact ht.elim
  | lam x b => exact ht.elim
  | app f a => exact ht.elim

lemma Has.isReady (ht : h.Has t) : t.isReady = true := by
  cases t with
  | var x => exact ht.elim
  | lam x b => exact ht.elim
  | app f a => exact ht.elim
  | _ => rfl

/-- What knows only objects of the heap knows nothing at the addresses that come next. -/
lemma eq_none_of_has {α : Type} {W : Term → Option α} (hW : ∀ t o, W t = some o → h.Has t) :
    W (.closure h.closures.size) = none ∧ W (.thunk h.thunks.size) = none ∧
      W (.builtin h.builtins.size) = none := by
  have hnone : ∀ t, ¬ h.Has t → W t = none := fun t ht =>
    Option.eq_none_iff_forall_ne_some.2 fun o ho => ht (hW t o ho)
  exact ⟨hnone _ (lt_irrefl _), hnone _ (lt_irrefl _), hnone _ (lt_irrefl _)⟩

/-! ### Making objects -/

lemma getElem?_push_of_some {α : Type} {xs : Array α} {a : ℕ} {x : α} (y : α)
    (h : xs[a]? = some x) : (xs.push y)[a]? = some x := by
  obtain ⟨hlt, rfl⟩ := Array.getElem?_eq_some_iff.1 h
  rw [Array.getElem?_push_lt hlt]

lemma getElem?_push_eq_some {α : Type} {xs : Array α} {x y : α} {a : ℕ}
    (h : (xs.push y)[a]? = some x) : xs[a]? = some x ∨ a = xs.size ∧ x = y := by
  rw [Array.getElem?_push] at h
  split_ifs at h with ha
  · exact Or.inr ⟨ha, (Option.some.inj h).symm⟩
  · exact Or.inl h

lemma within_pushClosure (h : Heap) (c : Closure) : h.Within (h.pushClosure c) :=
  ⟨by simp [pushClosure], le_rfl, le_rfl⟩

lemma within_pushThunk (h : Heap) (c : Thunk) : h.Within (h.pushThunk c) :=
  ⟨le_rfl, by simp [pushThunk], le_rfl⟩

lemma within_pushBuiltin (h : Heap) (b : Builtin) : h.Within (h.pushBuiltin b) :=
  ⟨le_rfl, le_rfl, by simp [pushBuiltin]⟩

lemma closures_pushClosure (h : Heap) (c : Closure) :
    (h.pushClosure c).closures[h.closures.size]? = some c := Array.getElem?_push_size

lemma thunks_pushThunk (h : Heap) (c : Thunk) :
    (h.pushThunk c).thunks[h.thunks.size]? = some c := Array.getElem?_push_size

lemma builtins_pushBuiltin (h : Heap) (b : Builtin) :
    (h.pushBuiltin b).builtins[h.builtins.size]? = some b := Array.getElem?_push_size

/-- A new thunk has no value. -/
lemma memo?_pushThunk (h : Heap) (t : Term) (env : Env) (a : Addr) :
    (h.pushThunk { term := t, env }).memo? a = h.memo? a := by
  unfold memo? pushThunk
  rw [Array.getElem?_push]
  split_ifs with ha
  · rw [ha, Array.getElem?_eq_none le_rfl]
    rfl
  · rfl

/-! ### Filling memo cells -/

lemma within_memoize (h : Heap) (a : Addr) (v : Term) : h.Within (h.memoize a v) :=
  ⟨le_rfl, by simp [memoize], le_rfl⟩

lemma thunks_memoize (h : Heap) (a b : Addr) (v : Term) : (h.memoize a v).thunks[b]?
    = if a = b then h.thunks[b]?.map fun c => { c with memo := c.memo.or (some v) }
      else h.thunks[b]? := by
  rw [memoize, Array.getElem?_modify]

lemma memo?_memoize (h : Heap) (a b : Addr) (v : Term) : (h.memoize a v).memo? b
    = if a = b then h.thunks[b]?.bind fun c => c.memo.or (some v) else h.memo? b := by
  unfold memo?
  rw [thunks_memoize]
  split_ifs
  · rw [Option.bind_map]
    rfl
  · rfl

/-- A thunk keeps its term and its environment, and the value that it has; a new value is the one
that the cell was filled with. -/
lemma thunk_memoize {c : Thunk} (a : Addr) (v : Term) (hc : h.thunks[b]? = some c) :
    ∃ c' : Thunk, (h.memoize a v).thunks[b]? = some c' ∧ c'.term = c.term ∧ c'.env = c.env ∧
      ∀ w, c'.memo = some w → c.memo = some w ∨ b = a ∧ w = v := by
  rw [thunks_memoize, hc]
  split_ifs with heq
  · refine ⟨_, rfl, rfl, rfl, fun w hw => ?_⟩
    rcases Option.or_eq_some_iff.1 hw with hw | ⟨-, hw⟩
    · exact Or.inl hw
    · exact Or.inr ⟨heq.symm, (Option.some.inj hw).symm⟩
  · exact ⟨c, rfl, rfl, rfl, fun w hw => Or.inl hw⟩

/-- Every thunk was there before. -/
lemma thunk_of_memoize {c' : Thunk} (hc' : (h.memoize a v).thunks[b]? = some c') :
    ∃ c : Thunk, h.thunks[b]? = some c ∧ c'.term = c.term ∧ c'.env = c.env ∧
      ∀ w, c'.memo = some w → c.memo = some w ∨ b = a ∧ w = v := by
  have hb : b < h.thunks.size := by
    simpa [memoize] using (Array.getElem?_eq_some_iff.1 hc').1
  obtain ⟨c'', hc'', hrest⟩ := thunk_memoize a v (getElem?_thunks hb)
  obtain rfl := Option.some.inj (hc'.symm.trans hc'')
  exact ⟨_, getElem?_thunks hb, hrest⟩

end Letrec.Heap
