import Mathlib
import Letrec.Proofs.Lookup
import Letrec.Proofs.Heap.Addresses
import Letrec.Proofs.ByName.Evaluation

/-!
# The objects of a heap as trees

The machine refers to its objects by address and shares them; evaluation by name has trees.  A world
gives every address its tree.  It grows with every object that is made and is otherwise never
changed, so what has once been said about a term stays true (`Denotes.mono`).

A world describes a heap when the trees fit the objects.  The one part of the heap that changes is
the memo cells, and they are where the invariant is: a filled cell holds what the tree of the thunk
evaluates to by name (`Described.thunk`).

The machine passes some arguments on as they are where evaluation by name makes a pair.  `Denotes`
allows for that: what a variable stands for denotes also the pair of the variable and its
environment.
-/

namespace Letrec.ByName

/-- What the integers and the objects of a heap are, as trees. -/
def World := Term → Option Object

namespace World

/-- The second world says all that the first does. -/
def Grows (W W' : World) : Prop := ∀ t o, W t = some o → W' t = some o

/-- The term stands for the object, or is passed on in its place. -/
inductive Denotes (W : World) : Term → Object → Prop
  /-- The tree of the term. -/
  | object {t o} : W t = some o → Denotes W t o
  /-- An integer is passed on as it is. -/
  | literal {v ρ} : Denotes W (.int v) (.pair (.int v) ρ)
  /-- What a variable stands for is passed on as it is. -/
  | variable {t x o ρ} : List.lookup x ρ = some o → Denotes W t o → Denotes W t (.pair (.var x) ρ)

/-- The environments bind the same names, to terms and to what they denote. -/
def DenotesEnv (W : World) : Letrec.Env → Env → Prop :=
  List.Forall₂ fun p q => p.1 = q.1 ∧ W.Denotes p.2 q.2

/-- The tree of a term fits the heap. -/
inductive Described (W : World) (h : Heap) : Term → Object → Prop
  | int (v : Int64) : Described W h (.int v) (.int v)
  | closure {a c ρ} : h.closures[a]? = some c → c.body.Lowered → W.DenotesEnv c.env ρ →
      Described W h (.closure a) (.closure c.param c.body ρ)
  | builtin {a p supplied args} : h.builtins[a]? = some (Primitive.builtin p supplied) →
      List.Forall₂ W.Denotes supplied args → Described W h (.builtin a) (.builtin p args)
  | thunk {a c ρ} : h.thunks[a]? = some c → c.term.Lowered → W.DenotesEnv c.env ρ →
      (∀ v, c.memo = some v → ∃ w, Evaluates c.term ρ (.ok w) ∧ W v = some w ∧ w.IsValue) →
      Described W h (.thunk a) (.pair c.term ρ)

/-- The trees of a world fit a heap. -/
structure Describes (W : World) (h : Heap) : Prop where
  int : ∀ v, W (.int v) = some (.int v)
  object : ∀ t o, W t = some o → W.Described h t o

variable {W W' W'' : World} {h h' : Heap} {env : Letrec.Env} {ρ : Env} {t : Term} {o : Object}

lemma Grows.refl (W : World) : W.Grows W := fun _ _ h => h

lemma Grows.trans (h : W.Grows W') (h' : W'.Grows W'') : W.Grows W'' :=
  fun t o ho => h' t o (h t o ho)

/-! ### Denoted objects -/

lemma Denotes.mono (hW : W.Grows W') (h : W.Denotes t o) : W'.Denotes t o := by
  induction h with
  | object ho => exact .object (hW _ _ ho)
  | literal => exact .literal
  | «variable» hx _ ih => exact .variable hx ih

lemma Denotes.ite {c : Prop} [Decidable c] {t' : Term} {o' : Object} (h : W.Denotes t o)
    (h' : W.Denotes t' o') : W.Denotes (if c then t else t') (if c then o else o') := by
  split_ifs
  · exact h
  · exact h'

lemma DenotesEnv.mono (hW : W.Grows W') (h : W.DenotesEnv env ρ) : W'.DenotesEnv env ρ :=
  h.imp fun _ _ hp => ⟨hp.1, hp.2.mono hW⟩

lemma DenotesEnv.extend (h : W.DenotesEnv env ρ) (x : String) (ht : W.Denotes t o) :
    W.DenotesEnv (env.extend x t) ((x, o) :: ρ) := List.Forall₂.cons ⟨rfl, ht⟩ h

lemma DenotesEnv.lookup (h : W.DenotesEnv env ρ) (x : String) :
    (env.lookup? x = none ∧ List.lookup x ρ = none) ∨
      ∃ t o, env.lookup? x = some t ∧ List.lookup x ρ = some o ∧ W.Denotes t o :=
  lookup_of_forall₂ h x

/-- A term has a tree, and its tree is forced like every object that it denotes. -/
lemma Denotes.forces_iff (hW : W.Describes h) (ht : W.Denotes t o) :
    ∃ o', W t = some o' ∧ ∀ r, Forces o r ↔ Forces o' r := by
  induction ht with
  | object ho => exact ⟨_, ho, fun r => Iff.rfl⟩
  | @literal v ρ =>
    refine ⟨.int v, hW.int v, fun r => ?_⟩
    rw [forces_pair, evaluates_int, forces_of_isValue (o := .int v) trivial]
  | «variable» hx _ ih =>
    obtain ⟨o', ho', hiff⟩ := ih
    refine ⟨o', ho', fun r => ?_⟩
    rw [forces_pair, evaluates_var_of_some hx, hiff]

lemma Describes.builtin (hW : W.Describes h) {a : Addr} (ha : W (.builtin a) = some o) :
    ∃ p supplied args, h.builtins[a]? = some (Primitive.builtin p supplied) ∧
      o = .builtin p args ∧ List.Forall₂ W.Denotes supplied args := by
  cases hW.object _ _ ha with
  | builtin hb hargs => exact ⟨_, _, _, hb, rfl, hargs⟩

lemma Describes.thunk (hW : W.Describes h) {a : Addr} (ha : W (.thunk a) = some o) :
    ∃ c ρ, h.thunks[a]? = some c ∧ o = .pair c.term ρ ∧ c.term.Lowered ∧ W.DenotesEnv c.env ρ ∧
      ∀ v, c.memo = some v → ∃ w, Evaluates c.term ρ (.ok w) ∧ W v = some w ∧ w.IsValue := by
  cases hW.object _ _ ha with
  | thunk hc ht henv hmemo => exact ⟨_, _, hc, rfl, ht, henv, hmemo⟩

/-- Only objects of the heap have trees. -/
lemma Describes.has (hW : W.Describes h) (ht : W t = some o) : h.Has t := by
  cases hW.object t o ht with
  | int v => trivial
  | closure ha => exact (Array.getElem?_eq_some_iff.1 ha).1
  | builtin ha => exact (Array.getElem?_eq_some_iff.1 ha).1
  | thunk ha => exact (Array.getElem?_eq_some_iff.1 ha).1

lemma Denotes.isReady (hW : W.Describes h) (ht : W.Denotes t o) : t.isReady = true := by
  obtain ⟨o', ho', -⟩ := ht.forces_iff hW
  exact (hW.has ho').isReady

/-! ### Growing heaps -/

/-- The objects of one heap are also in the other. -/
structure Keeps (h h' : Heap) : Prop where
  closures : ∀ (a : ℕ) c, h.closures[a]? = some c → h'.closures[a]? = some c
  thunks : ∀ (a : ℕ) c, h.thunks[a]? = some c → h'.thunks[a]? = some c
  builtins : ∀ (a : ℕ) b, h.builtins[a]? = some b → h'.builtins[a]? = some b

lemma Keeps.trans {h'' : Heap} (hh : Keeps h h') (hh' : Keeps h' h'') : Keeps h h'' :=
  ⟨fun a c hc => hh'.closures a c (hh.closures a c hc),
    fun a c hc => hh'.thunks a c (hh.thunks a c hc),
    fun a b hb => hh'.builtins a b (hh.builtins a b hb)⟩

lemma keeps_pushClosure (h : Heap) (c : Closure) : Keeps h (h.pushClosure c) where
  closures _ _ := Heap.getElem?_push_of_some c
  thunks _ _ h := h
  builtins _ _ h := h

lemma keeps_pushThunk (h : Heap) (c : Thunk) : Keeps h (h.pushThunk c) where
  closures _ _ h := h
  thunks _ _ := Heap.getElem?_push_of_some c
  builtins _ _ h := h

lemma keeps_pushBuiltin (h : Heap) (b : Builtin) : Keeps h (h.pushBuiltin b) where
  closures _ _ h := h
  thunks _ _ h := h
  builtins _ _ := Heap.getElem?_push_of_some b

lemma Described.mono (hW : W.Grows W') (hh : Keeps h h') (ho : W.Described h t o) :
    W'.Described h' t o := by
  cases ho with
  | int v => exact .int v
  | closure ha hb henv => exact .closure (hh.closures _ _ ha) hb (henv.mono hW)
  | builtin ha hargs => exact .builtin (hh.builtins _ _ ha) (hargs.imp fun _ _ h => h.mono hW)
  | thunk ha ht henv hmemo =>
    refine .thunk (hh.thunks _ _ ha) ht (henv.mono hW) fun v hv => ?_
    obtain ⟨w, hw, hvw, hval⟩ := hmemo v hv
    exact ⟨w, hw, hW _ _ hvw, hval⟩

/-- The world with one more tree. -/
def add (W : World) (t : Term) (o : Object) : World := fun u => if u = t then some o else W u

lemma add_self : W.add t o t = some o := if_pos rfl

lemma grows_add (ht : W t = none) : W.Grows (W.add t o) := by
  intro u p hu
  have hne : u ≠ t := by
    rintro rfl
    exact absurd (hu.symm.trans ht) (by simp)
  rwa [add, if_neg hne]

lemma add_eq_some {u : Term} {p : Object} (hu : W.add t o u = some p) :
    u = t ∧ p = o ∨ W u = some p := by
  rw [add] at hu
  split_ifs at hu with hut
  · exact Or.inl ⟨hut, (Option.some.inj hu).symm⟩
  · exact Or.inr hu

lemma Describes.add (hW : W.Describes h) (hh : Keeps h h') (ht : W t = none)
    (ho : (W.add t o).Described h' t o) : (W.add t o).Describes h' where
  int v := grows_add ht _ _ (hW.int v)
  object u p hu := by
    rcases add_eq_some hu with ⟨rfl, rfl⟩ | hu
    · exact ho
    · exact (hW.object u p hu).mono (grows_add ht) hh

lemma Describes.pushClosure (hW : W.Describes h) {x : String} {b : Term} (hb : b.Lowered)
    (henv : W.DenotesEnv env ρ) :
    ∃ W', W.Grows W' ∧ W'.Describes (h.pushClosure { param := x, body := b, env }) ∧
      W' (.closure h.closures.size) = some (.closure x b ρ) := by
  have hfresh := (Heap.eq_none_of_has fun _ _ => hW.has).1
  have hgrows := grows_add (o := .closure x b ρ) hfresh
  refine ⟨_, hgrows, hW.add (keeps_pushClosure h _) hfresh ?_, add_self⟩
  exact .closure (h.closures_pushClosure { param := x, body := b, env }) hb (henv.mono hgrows)

lemma Describes.pushThunk (hW : W.Describes h) (ht : t.Lowered) (henv : W.DenotesEnv env ρ) :
    ∃ W', W.Grows W' ∧ W'.Describes (h.pushThunk { term := t, env }) ∧
      W' (.thunk h.thunks.size) = some (.pair t ρ) := by
  have hfresh := (Heap.eq_none_of_has fun _ _ => hW.has).2.1
  have hgrows := grows_add (o := .pair t ρ) hfresh
  refine ⟨_, hgrows, hW.add (keeps_pushThunk h _) hfresh ?_, add_self⟩
  exact .thunk (h.thunks_pushThunk { term := t, env }) ht (henv.mono hgrows)
    fun v hv => absurd hv (by simp)

lemma Describes.pushBuiltin (hW : W.Describes h) {p : Primitive} {supplied : List Term}
    {args : List Object} (hargs : List.Forall₂ W.Denotes supplied args) :
    ∃ W', W.Grows W' ∧ W'.Describes (h.pushBuiltin (p.builtin supplied)) ∧
      W' (.builtin h.builtins.size) = some (.builtin p args) := by
  have hfresh := (Heap.eq_none_of_has fun _ _ => hW.has).2.2
  have hgrows := grows_add (o := .builtin p args) hfresh
  refine ⟨_, hgrows, hW.add (keeps_pushBuiltin h _) hfresh ?_, add_self⟩
  exact .builtin (h.builtins_pushBuiltin _) (hargs.imp fun _ _ h => h.mono hgrows)

/-! ### Memo cells -/

/-- A cell may be filled with what the tree of its thunk evaluates to. -/
lemma Describes.memoize (hW : W.Describes h) {a : Addr} (ha : W (.thunk a) = some (.pair t ρ))
    {v : Term} {w : Object} (hw : Evaluates t ρ (.ok w)) (hv : W v = some w) (hval : w.IsValue) :
    W.Describes (h.memoize a v) where
  int := hW.int
  object u p hu := by
    cases hW.object u p hu with
    | int i => exact .int i
    | closure hc hb henv => exact .closure hc hb henv
    | builtin hb hargs => exact .builtin hb hargs
    | @thunk a' c ρ' hc ht henv hmemo =>
      obtain ⟨c', hc', hterm, henv', hnew⟩ := Heap.thunk_memoize a v hc
      rw [← hterm] at hu ht hmemo ⊢
      refine .thunk hc' ht (henv' ▸ henv) fun v' hv' => ?_
      rcases hnew v' hv' with hv' | ⟨rfl, rfl⟩
      · exact hmemo v' hv'
      · obtain ⟨rfl, rfl⟩ := Object.pair.inj (Option.some.inj (hu.symm.trans ha))
        exact ⟨w, hw, hv, hval⟩

end World

end Letrec.ByName
