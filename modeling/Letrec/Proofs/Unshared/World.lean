import Mathlib
import Letrec.Proofs.ByName.World
import Letrec.Proofs.Unshared.Evaluation

/-!
# The heap of a session as trees

A world gives every address its tree.  It describes a heap when the trees fit the objects and every
filled memo cell holds what the tree of its thunk evaluates to.  Two worlds are about: `W` knows the
objects of the heap, and grows as objects are made; `G` knows the objects that terms mention.  Terms
are only taken over by evaluation, never made, so while it runs `G` stays what it was.

A closure mentions only closures that were made before it (`Described.closure`), so there is an end
to showing it.
-/

namespace Letrec

/-- The closures that a term mentions have addresses below the bound. -/
def Term.ClosuresBelow (n : ℕ) : Term → Prop
  | .var _ | .int _ | .thunk _ | .builtin _ => True
  | .lam _ b => b.ClosuresBelow n
  | .app f a => f.ClosuresBelow n ∧ a.ClosuresBelow n
  | .closure a => a < n

namespace Unshared.World

open ByName.World (Keeps keeps_pushClosure keeps_pushThunk keeps_pushBuiltin)

/-- The objects that a term mentions are known. -/
def Knows (G : World) : Term → Prop
  | .var _ | .int _ => True
  | .lam _ b => G.Knows b
  | .app f a => G.Knows f ∧ G.Knows a
  | .closure a => ∃ o, G (.closure a) = some o
  | .thunk a => ∃ o, G (.thunk a) = some o
  | .builtin a => ∃ o, G (.builtin a) = some o

/-- The term stands for the object.  A term that is bound or passed unevaluated stands for
itself. -/
inductive Denotes (G W : World) : Term → Object → Prop
  | object {t o} : W t = some o → Denotes G W t o
  | raw {t} : t.isReady = false → G.Knows t → Denotes G W t (.raw t)

/-- The environments bind the same names, to terms and to what they stand for. -/
def DenotesEnv (G W : World) : Letrec.Env → Env → Prop :=
  List.Forall₂ fun p q => p.1 = q.1 ∧ Denotes G W p.2 q.2

/-- A value of the heap and its tree. -/
def Value (W : World) (v : Term) (w : Object) : Prop := W v = some w ∧ w.IsValue

/-- The tree of a term fits the heap. -/
inductive Described (G W : World) (h : Heap) : Term → Object → Prop
  | int (v : Int64) : Described G W h (.int v) (.int v)
  | closure {a c ρ} : h.closures[a]? = some c → G.Knows c.body → c.body.ClosuresBelow a →
      DenotesEnv G W c.env ρ → Described G W h (.closure a) (.closure c.param c.body ρ)
  | builtin {a p supplied args} : h.builtins[a]? = some (Primitive.builtin p supplied) →
      List.Forall₂ (Denotes G W) supplied args → Described G W h (.builtin a) (.builtin p args)
  | thunk {a c ρ} : h.thunks[a]? = some c → G.Knows c.term → DenotesEnv G W c.env ρ →
      (∀ v, c.memo = some v →
        ∃ w, Yields (fun k => evaluate G k c.term ρ) (.ok w) ∧ W.Value v w) →
      Described G W h (.thunk a) (.suspended c.term ρ)

/-- The trees of a world fit a heap, whose terms mention what `G` knows. -/
structure Describes (G W : World) (h : Heap) : Prop where
  grows : G.Grows W
  int : ∀ v, W (.int v) = some (.int v)
  thunks : ∀ a < h.thunks.size, ∃ o, W (.thunk a) = some o
  object : ∀ t o, W t = some o → Described G W h t o

variable {G G' W W' W'' : World} {h h' : Heap} {env : Letrec.Env} {ρ : Env} {t : Term} {o : Object}

lemma Grows.refl (W : World) : W.Grows W := fun _ _ h => h

lemma Grows.trans (h : W.Grows W') (h' : W'.Grows W'') : W.Grows W'' :=
  fun t o ho => h' t o (h t o ho)

/-! ### Larger worlds -/

lemma Knows.mono (hG : G.Grows G') (ht : G.Knows t) : G'.Knows t := by
  induction t with
  | var x => trivial
  | int v => trivial
  | lam x b ih => exact ih ht
  | app f a ihf iha => exact ⟨ihf ht.1, iha ht.2⟩
  | closure a => exact ht.imp fun o ho => hG _ _ ho
  | thunk a => exact ht.imp fun o ho => hG _ _ ho
  | builtin a => exact ht.imp fun o ho => hG _ _ ho

lemma Denotes.mono (hG : G.Grows G') (hW : W.Grows W') (ht : Denotes G W t o) :
    Denotes G' W' t o := by
  cases ht with
  | object ho => exact .object (hW _ _ ho)
  | raw hready ht => exact .raw hready (ht.mono hG)

lemma DenotesEnv.mono (hG : G.Grows G') (hW : W.Grows W') (h : DenotesEnv G W env ρ) :
    DenotesEnv G' W' env ρ :=
  h.imp fun _ _ hp => ⟨hp.1, hp.2.mono hG hW⟩

lemma Value.mono (hW : W.Grows W') {w : Object} (h : W.Value t w) : W'.Value t w :=
  ⟨hW _ _ h.1, h.2⟩

lemma Described.mono (hG : G.Grows G') (hW : W.Grows W') (hh : Keeps h h')
    (ho : Described G W h t o) : Described G' W' h' t o := by
  cases ho with
  | int v => exact .int v
  | closure ha hb hbelow henv =>
    exact .closure (hh.closures _ _ ha) (hb.mono hG) hbelow (henv.mono hG hW)
  | builtin ha hargs =>
    exact .builtin (hh.builtins _ _ ha) (hargs.imp fun _ _ h => h.mono hG hW)
  | thunk ha ht henv hmemo =>
    refine .thunk (hh.thunks _ _ ha) (ht.mono hG) (henv.mono hG hW) fun v hv => ?_
    obtain ⟨w, ⟨k, hk⟩, hvw⟩ := hmemo v hv
    exact ⟨w, ⟨k, evaluate_grows hG k _ _ _ hk⟩, hvw.mono hW⟩

/-- Once evaluation has come to an end, terms may mention all objects that there are. -/
lemma Describes.rebase (hW : Describes G W h) : Describes W W h where
  grows := .refl W
  int := hW.int
  thunks := hW.thunks
  object t o ho :=
    (hW.object t o ho).mono hW.grows (.refl W) ⟨fun _ _ h => h, fun _ _ h => h, fun _ _ h => h⟩

/-! ### Objects of the heap -/

lemma DenotesEnv.extend (h : DenotesEnv G W env ρ) (x : String) (ht : Denotes G W t o) :
    DenotesEnv G W (env.extend x t) ((x, o) :: ρ) := List.Forall₂.cons ⟨rfl, ht⟩ h

lemma DenotesEnv.lookup (h : DenotesEnv G W env ρ) (x : String) :
    (env.lookup? x = none ∧ List.lookup x ρ = none) ∨
      ∃ t o, env.lookup? x = some t ∧ List.lookup x ρ = some o ∧ Denotes G W t o :=
  lookup_of_forall₂ h x

/-- Only objects of the heap have trees. -/
lemma Describes.has (hW : Describes G W h) (ht : W t = some o) : h.Has t := by
  cases hW.object t o ht with
  | int v => trivial
  | closure ha => exact (Array.getElem?_eq_some_iff.1 ha).1
  | builtin ha => exact (Array.getElem?_eq_some_iff.1 ha).1
  | thunk ha => exact (Array.getElem?_eq_some_iff.1 ha).1

/-- The objects of a heap are ready, and their trees are not bare terms. -/
lemma Describes.isReady (hW : Describes G W h) (ho : W t = some o) :
    t.isReady = true ∧ ∀ u, o ≠ .raw u := by
  cases hW.object t o ho <;> exact ⟨rfl, nofun⟩

lemma Describes.closure (hW : Describes G W h) {a : Addr} (ha : W (.closure a) = some o) :
    ∃ c ρ, h.closures[a]? = some c ∧ o = .closure c.param c.body ρ ∧ G.Knows c.body ∧
      c.body.ClosuresBelow a ∧ DenotesEnv G W c.env ρ := by
  cases hW.object _ _ ha with
  | closure hc hb hbelow henv => exact ⟨_, _, hc, rfl, hb, hbelow, henv⟩

lemma Describes.builtin (hW : Describes G W h) {a : Addr} (ha : W (.builtin a) = some o) :
    ∃ p supplied args, h.builtins[a]? = some (Primitive.builtin p supplied) ∧
      o = .builtin p args ∧ List.Forall₂ (Denotes G W) supplied args := by
  cases hW.object _ _ ha with
  | builtin hb hargs => exact ⟨_, _, _, hb, rfl, hargs⟩

lemma Describes.thunk (hW : Describes G W h) {a : Addr} (ha : W (.thunk a) = some o) :
    ∃ c ρ, h.thunks[a]? = some c ∧ o = .suspended c.term ρ ∧ G.Knows c.term ∧
      DenotesEnv G W c.env ρ ∧ ∀ v, c.memo = some v →
        ∃ w, Yields (fun k => evaluate G k c.term ρ) (.ok w) ∧ W.Value v w := by
  cases hW.object _ _ ha with
  | thunk hc ht henv hmemo => exact ⟨_, _, hc, rfl, ht, henv, hmemo⟩

/-- A closure is older than any that is made now. -/
lemma Describes.closuresBelow (hW : Describes G W h) (ht : G.Knows t) :
    t.ClosuresBelow h.closures.size := by
  induction t with
  | lam x b ih => exact ih ht
  | app f a ihf iha => exact ⟨ihf ht.1, iha ht.2⟩
  | closure a =>
    obtain ⟨o, ho⟩ := ht
    obtain ⟨c, -, hc, -⟩ := hW.closure (hW.grows _ _ ho)
    exact (Array.getElem?_eq_some_iff.1 hc).1
  | _ => trivial

/-! ### Making objects -/

/-- The world with one more tree. -/
def add (W : World) (t : Term) (o : Object) : World := fun u => if u = t then some o else W u

lemma add_self : W.add t o t = some o := if_pos rfl

lemma grows_add (ht : W t = none) : W.Grows (W.add t o) := by
  intro u p hu
  have hne : u ≠ t := by
    rintro rfl
    exact absurd (hu.symm.trans ht) (by simp)
  rwa [add, if_neg hne]

lemma add_eq_some {u : Term} {p : Object} (hu : W.add t o u = some p) :
    u = t ∧ p = o ∨ W u = some p := by
  rw [add] at hu
  split_ifs at hu with hut
  · exact Or.inl ⟨hut, (Option.some.inj hu).symm⟩
  · exact Or.inr hu

lemma Describes.add (hW : Describes G W h) (hh : Keeps h h') (ht : W t = none)
    (hthunks : ∀ a < h'.thunks.size, a < h.thunks.size ∨ t = .thunk a)
    (ho : Described G (W.add t o) h' t o) : Describes G (W.add t o) h' where
  grows := hW.grows.trans (grows_add ht)
  int v := grows_add ht _ _ (hW.int v)
  thunks a ha := by
    rcases hthunks a ha with ha | rfl
    · exact (hW.thunks a ha).imp fun o' ho' => grows_add ht _ _ ho'
    · exact ⟨o, add_self⟩
  object u p hu := by
    rcases add_eq_some hu with ⟨rfl, rfl⟩ | hu
    · exact ho
    · exact (hW.object u p hu).mono (.refl G) (grows_add ht) hh

lemma Describes.pushClosure (hW : Describes G W h) {x : String} {b : Term} (hb : G.Knows b)
    (henv : DenotesEnv G W env ρ) :
    ∃ W', W.Grows W' ∧ Describes G W' (h.pushClosure { param := x, body := b, env }) ∧
      W' (.closure h.closures.size) = some (.closure x b ρ) := by
  have hfresh := (Heap.eq_none_of_has fun _ _ => hW.has).1
  have hgrows : W.Grows (W.add _ (.closure x b ρ)) := grows_add hfresh
  refine ⟨_, hgrows, hW.add (keeps_pushClosure h _) hfresh (fun _ => Or.inl) ?_, add_self⟩
  exact .closure (h.closures_pushClosure { param := x, body := b, env }) hb (hW.closuresBelow hb)
    (henv.mono (.refl G) hgrows)

lemma Describes.pushThunk (hW : Describes G W h) (ht : G.Knows t)
    (henv : DenotesEnv G W env ρ) :
    ∃ W', W.Grows W' ∧ Describes G W' (h.pushThunk { term := t, env }) ∧
      W' (.thunk h.thunks.size) = some (.suspended t ρ) := by
  have hfresh := (Heap.eq_none_of_has fun _ _ => hW.has).2.1
  have hgrows : W.Grows (W.add _ (.suspended t ρ)) := grows_add hfresh
  refine ⟨_, hgrows, hW.add (keeps_pushThunk h _) hfresh (fun a ha => ?_) ?_, add_self⟩
  · rw [Heap.pushThunk, Array.size_push] at ha
    rcases Nat.lt_succ_iff_lt_or_eq.1 ha with ha | rfl
    · exact Or.inl ha
    · exact Or.inr rfl
  · exact .thunk (h.thunks_pushThunk { term := t, env }) ht (henv.mono (.refl G) hgrows)
      fun v hv => absurd hv (by simp)

lemma Describes.pushBuiltin (hW : Describes G W h) {p : Primitive} {supplied : List Term}
    {args : List Object} (hargs : List.Forall₂ (Denotes G W) supplied args) :
    ∃ W', W.Grows W' ∧ Describes G W' (h.pushBuiltin (p.builtin supplied)) ∧
      W' (.builtin h.builtins.size) = some (.builtin p args) := by
  have hfresh := (Heap.eq_none_of_has fun _ _ => hW.has).2.2
  have hgrows : W.Grows (W.add _ (.builtin p args)) := grows_add hfresh
  refine ⟨_, hgrows, hW.add (keeps_pushBuiltin h _) hfresh (fun _ => Or.inl) ?_, add_self⟩
  exact .builtin (h.builtins_pushBuiltin _) (hargs.imp fun _ _ h => h.mono (.refl G) hgrows)

/-! ### Memo cells -/

/-- A cell may be filled with what the tree of its thunk evaluates to. -/
lemma Describes.memoize (hW : Describes G W h) {a : Addr}
    (ha : W (.thunk a) = some (.suspended t ρ)) {v : Term} {w : Object}
    (hw : Yields (fun k => evaluate G k t ρ) (.ok w)) (hv : W.Value v w) :
    Describes G W (h.memoize a v) where
  grows := hW.grows
  int := hW.int
  thunks a ha := hW.thunks a (by simpa [Heap.memoize] using ha)
  object u p hu := by
    cases hW.object u p hu with
    | int i => exact .int i
    | closure hc hb hbelow henv => exact .closure hc hb hbelow henv
    | builtin hb hargs => exact .builtin hb hargs
    | @thunk a' c ρ' hc ht henv hmemo =>
      obtain ⟨c', hc', hterm, henv', hnew⟩ := Heap.thunk_memoize a v hc
      rw [← hterm] at hu ht hmemo ⊢
      refine .thunk hc' ht (henv' ▸ henv) fun v' hv' => ?_
      rcases hnew v' hv' with hv' | ⟨rfl, rfl⟩
      · exact hmemo v' hv'
      · obtain ⟨rfl, rfl⟩ := Object.suspended.inj (Option.some.inj (hu.symm.trans ha))
        exact ⟨w, hw, hv⟩

end Unshared.World

end Letrec
