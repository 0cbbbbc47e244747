import Mathlib
import Letrec.Term.Recursive
import Letrec.Proofs.Evaluation.Rounds
import Letrec.Proofs.Links.Closed

/-!
# Unfolding fixed points

The machine does not replace the name of a fixed point by the fixed point literally: what the name
stands for is a suspended `x x`, which shares one half of the combinator and the function `\z. b`
with all later unfoldings.  `SelfThunk` describes all thunks that stand for a fixed point, and a
comparison in which any two of them count as the same (`Comparison.unfolding`) follows evaluation
(`Comparison.unfolding_follows`).

One of the two evaluations may go on inside of others that have forced thunks which the other one
does not have.  They get a value in the end.  Until then they wait (`Heap.Waits`): nothing that is
compared leads to them.

The combinator binds the names `f` and `x`, but the body is closed over the environment of the fixed
point, so neither hides anything from it, and either may be the name of the fixed point itself.
-/

namespace Letrec

open EvalM
open ByName.World (Keeps)

/-- The body of one half of the combinator. -/
def Term.yCall : Term := .app (.var "f") (.app (.var "x") (.var "x"))

/-- What its names stand for: suspended are the function `f` and one half of the combinator `x`. -/
def yEnv (f x : Addr) (env : Env) : Env := ("x", .thunk x) :: ("f", .thunk f) :: env

/-! ### Thunks that stand for a fixed point -/

/-- A thunk stands for the fixed point of `body` under the name `z`: the whole fixed point is
suspended in it, or `x x`, where `x` is one half of the combinator and `f` is the function from `z`
to `body`.  The thunks of `x` and `f` are not in `D`. -/
inductive SelfThunk (D : Set Term) (h : Heap) (z : String) (body : Term) (env : Env) : Thunk → Prop
  | whole {c : Thunk} : c.term = .fix z body → c.env = env → SelfThunk D h z body env c
  | again {c : Thunk} {f x : Addr} : h.Suspends D f z body env →
      h.Suspends D x "x" .yCall (("f", .thunk f) :: env) → c.term = .app (.var "x") (.var "x") →
      c.env = yEnv f x env → SelfThunk D h z body env c

variable {D D' : Set Term} {h h₁ : Heap} {z : String} {body : Term} {env : Env} {c : Thunk}
  {m : Machine}

lemma SelfThunk.ages (hc : SelfThunk D h z body env c) (hh : h.Ages D D' h₁) :
    SelfThunk D' h₁ z body env c := by
  cases hc with
  | whole hterm henv => exact .whole hterm henv
  | again hf hx hterm henv => exact .again (hf.ages hh) (hx.ages hh) hterm henv

/-- The heap has got a new thunk for the fixed point. -/
def Heap.Renews (D : Set Term) (h h₂ : Heap) (z : String) (body : Term) (env : Env) (a : Addr) :
    Prop :=
  ∃ h₁ c, h.Spares D h₁ ∧ h₂ = h₁.pushThunk c ∧ a = h₁.thunks.size ∧ c.memo = none ∧
    SelfThunk D h₁ z body env c

lemma Heap.Renews.of_spares {h₂ : Heap} {a : Addr} (hh : h.Spares D h₁)
    (hh₁ : h₁.Renews D h₂ z body env a) : h.Renews D h₂ z body env a := by
  obtain ⟨h₀, c, hspares, heq, ha, hmemo, hself⟩ := hh₁
  exact ⟨h₀, c, hh.trans hspares, heq, ha, hmemo, hself⟩

/-! ### Unfolding once -/

/-- Evaluation has come to the call of the function: it goes on with the body, where `z` stands for
a new thunk. -/
lemma yCall_becomes {f x : Addr} (hf : m.heap.Suspends D f z body env)
    (hx : m.heap.Suspends D x "x" .yCall (("f", .thunk f) :: env))
    (hD : D ⊆ m.heap.contents) : ∃ m₁ a, m.heap.Renews D m₁.heap z body env a ∧
      Becomes [] (fun n => evaluate none n .yCall (yEnv f x env) m)
        fun n => evaluate none n body (env.extend z (.thunk a)) m₁ := by
  obtain ⟨m₁, g, htakes, hspares, hg⟩ := takes_var (m := m.entered)
    (show (yEnv f x env).lookup? "f" = some (.thunk f) from rfl) hf hD
  obtain ⟨m₂, hsuspend, hheap⟩ := suspend_compound (t := .app (.var "x") (.var "x")) rfl
    (by simp) (yEnv f x env) m₁
  have hself : SelfThunk D m₁.heap z body env
      { term := .app (.var "x") (.var "x"), env := yEnv f x env } :=
    .again (hf.ages hspares.ages) (hx.ages hspares.ages) rfl rfl
  have hg₂ : m₂.heap.closures[g]? = some { param := z, body, env } := hheap ▸ hg
  exact ⟨m₂, _, ⟨m₁.heap, _, hspares, hheap, rfl, rfl, hself⟩, becomes_app htakes hsuspend hg₂⟩

/-- Forcing a thunk that stands for a fixed point goes on with the body, where `z` stands for a new
thunk of that kind. -/
lemma SelfThunk.unfolds (hc : SelfThunk D m.heap z body env c)
    (hD : D ⊆ m.heap.contents) : ∃ m₁ a, m.heap.Renews D m₁.heap z body env a ∧
      Becomes [] (fun n => evaluate none n c.term c.env m)
        fun n => evaluate none n body (env.extend z (.thunk a)) m₁ := by
  cases hc with
  | @again f x hf hx hterm henv =>
    rw [hterm, henv]
    obtain ⟨m₁, g, htakes, hspares, hg⟩ := takes_var (m := m.entered)
      (show (yEnv f x env).lookup? "x" = some (.thunk x) from rfl) hx hD
    have hsuspend : suspend (.var "x") (yEnv f x env) m₁ = .ok (.thunk x) m₁ := rfl
    obtain ⟨m₂, a, hrenews, hbody⟩ :=
      yCall_becomes (hf.ages hspares.ages) (hx.ages hspares.ages) (hspares.subset_contents hD)
    exact ⟨m₂, a, hrenews.of_spares hspares, (becomes_app htakes hsuspend hg).trans hbody⟩
  | whole hterm henv =>
    rw [hterm, henv]
    obtain ⟨m₁, f, hspares, hf, hfirst⟩ :=
      becomes_redex hD "f" (.app .yHalf .yHalf) z body env
    obtain ⟨m₂, x, hspares', hx, hsecond⟩ :=
      becomes_redex (hspares.subset_contents hD) "x" .yCall "x" .yCall (("f", .thunk f) :: env)
    obtain ⟨m₃, a, hrenews, hbody⟩ := yCall_becomes (hf.ages hspares'.ages) hx
      (hspares'.subset_contents (hspares.subset_contents hD))
    exact ⟨m₃, a, hrenews.of_spares (hspares.trans hspares'), (hfirst.trans hsecond).trans hbody⟩

/-! ### A new thunk for a fixed point -/

lemma SelfThunk.of_subset (hc : SelfThunk D h z body env c) (hD : D' ⊆ D) :
    SelfThunk D' h z body env c := by
  cases hc with
  | whole hterm henv => exact .whole hterm henv
  | again hf hx hterm henv =>
    exact .again ⟨fun hmem => hf.1 (hD hmem), hf.2⟩ ⟨fun hmem => hx.1 (hD hmem), hx.2⟩ hterm henv

/-- The heap `h₁` has what `h` has, and a new thunk that stands for a fixed point. -/
structure Heap.Unfolds (h h₁ : Heap) (z : String) (body : Term) (env : Env) (a : Addr) : Prop where
  keeps : Keeps h h₁
  new : .thunk a ∉ h.contents
  self : ∃ c, h₁.thunks[a]? = some c ∧ c.memo = none ∧
    SelfThunk (insert (.thunk a) h.contents) h₁ z body env c

namespace Heap

variable {h₂ : Heap} {a : Addr}

lemma Unfolds.mono (hu : h.Unfolds h₁ z body env a) (hh : Keeps h₁ h₂) :
    h.Unfolds h₂ z body env a := by
  obtain ⟨c, hc, hmemo, hself⟩ := hu.self
  exact ⟨hu.keeps.trans hh, hu.new, c, hh.thunks a c hc, hmemo,
    hself.ages (ages_of_keeps hh fun _ ht => Or.inl ht)⟩

lemma unfolds_pushThunk (hh : Keeps h h₁) (hmemo : c.memo = none)
    (hc : SelfThunk h.contents h₁ z body env c) :
    h.Unfolds (h₁.pushThunk c) z body env h₁.thunks.size := by
  obtain ⟨hnone, hsome⟩ := h₁.stored?_pushThunk c
  have hkeeps := ByName.World.keeps_pushThunk h₁ c
  have hnew : .thunk h₁.thunks.size ∉ h.contents :=
    fun hmem => stored?_eq_none.1 hnone (contents_mono hh hmem)
  refine ⟨hh.trans hkeeps, hnew, c, h₁.thunks_pushThunk c, hmemo, hc.ages
    (ages_of_keeps hkeeps ?_)⟩
  rintro t (rfl | ht)
  · exact Or.inr hnone
  · exact Or.inl ht

lemma Renews.unfolds (hr : h.Renews h.contents h₂ z body env a) : h.Unfolds h₂ z body env a := by
  obtain ⟨h₁, c, hspares, rfl, rfl, hmemo, hself⟩ := hr
  exact unfolds_pushThunk hspares.keeps hmemo hself

end Heap

/-! ### Thunks that wait for a value -/

/-- What is known of waiting thunks and of fixed points stays true. -/
structure Heap.Settles (D : Set Term) (h h₁ : Heap) : Prop where
  same : ∀ t ∈ D, h₁.stored? t = h.stored? t
  self : ∀ {z body env c}, SelfThunk D h z body env c → SelfThunk D h₁ z body env c

namespace Heap

variable {a b f : Addr}

/-- Another thunk gets its value. -/
lemma Waits.memoize_of_ne (hb : h.Waits D b) (hne : a ≠ b) (v : Term) :
    (h.memoize a v).Waits D b := by
  obtain ⟨hmem, c, hc, hb⟩ := hb
  exact ⟨hmem, c, (thunks_memoize_of_ne hne v).trans hc, hb⟩

lemma Suspends.memoize {s : String} {b : Term} {env : Env} {c : Thunk}
    (hf : h.Suspends D f s b env) (hc : h.thunks[a]? = some c) (hterm : ∀ s b, c.term ≠ .lam s b)
    (v : Term) : (h.memoize a v).Suspends D f s b env := by
  obtain ⟨hmem, c', hc', hterm', henv, hmade⟩ := hf
  have hne : a ≠ f := by
    rintro rfl
    obtain rfl := Option.some.inj (hc.symm.trans hc')
    exact hterm s b hterm'
  exact ⟨hmem, c', (thunks_memoize_of_ne hne v).trans hc', hterm', henv, hmade⟩

lemma Settles.refl (D : Set Term) (h : Heap) : h.Settles D h := ⟨fun _ _ => rfl, id⟩

end Heap

lemma SelfThunk.memoize {a : Addr} {c' : Thunk} (hc : SelfThunk D h z body env c)
    (ha : h.thunks[a]? = some c') (hterm : ∀ s b, c'.term ≠ .lam s b) (v : Term) :
    SelfThunk D (h.memoize a v) z body env c := by
  cases hc with
  | whole hterm henv => exact .whole hterm henv
  | again hf hx hterm' henv =>
    exact .again (hf.memoize ha hterm v) (hx.memoize ha hterm v) hterm' henv

/-- A thunk that was there before gets a value. -/
lemma Heap.Unfolds.memoize {h₂ : Heap} {a b : Addr} {c' : Thunk} {v : Term}
    (hu : h₁.Unfolds h₂ z body env a) (hh : Keeps h h₁) (hb : .thunk b ∉ h.contents)
    (hc' : h₁.thunks[b]? = some c') (hterm : ∀ s b, c'.term ≠ .lam s b) :
    h.Unfolds (h₂.memoize b v) z body env a := by
  obtain ⟨c, hc, hmemo, hself⟩ := hu.self
  have hne : b ≠ a := by
    rintro rfl
    exact hu.new (thunk_mem_contents hc')
  have hsubset := contents_mono hh
  refine ⟨keeps_memoize (hh.trans hu.keeps) hb v, fun hmem => hu.new (hsubset hmem), c,
    (thunks_memoize_of_ne hne v).trans hc, hmemo, ?_⟩
  exact (hself.of_subset (Set.insert_subset_insert hsubset)).memoize (hu.keeps.thunks b c' hc')
    hterm v

/-- A waiting thunk gets its value. -/
lemma Heap.Waits.settles {a : Addr} (ha : h.Waits D a) (v : Term) :
    h.Settles D (h.memoize a v) := by
  obtain ⟨hmem, c, hc, -, hterm⟩ := ha
  refine ⟨fun t ht => stored?_memoize_of_ne v ?_, fun hself => hself.memoize hc hterm v⟩
  rintro rfl
  exact hmem ht

/-! ### Any two thunks for a fixed point do the same -/

namespace Comparison

variable {S : Comparison} {L base : Links} {P P' Q Q' : List Addr} {a : Addr}
  {m' m₁ m₁' : Machine} {h' h₁' : Heap} {body' : Term} {env' : Env}
  {r r' : EStateM.Result Halt Machine Term} {x y x' y' : ℕ → EStateM.Result Halt Machine Term}

/-- A comparison in which thunks do the same if they stand for joined fixed points.  The thunks `P`
on the left and `P'` on the right wait for a value. -/
def unfolding (base : Links) (P P' : List Addr) : Comparison where
  limit := none
  exact := False
  base := base
  special L h h' c c' := ∃ z body env body' env',
    L.JoinsCode (.lam z body) env (.lam z body') env' ∧
      SelfThunk L.left h z body env c ∧ SelfThunk L.right h' z body' env' c'
  special_ages hL hages hages' := by
    rintro ⟨z, body, env, body', env', hcode, hc, hc'⟩
    exact ⟨z, body, env, body', env', hcode.mono hL, hc.ages hages, hc'.ages hages'⟩
  aside L h h' := (∀ a ∈ P, h.Waits L.left a) ∧ ∀ a ∈ P', h'.Waits L.right a
  aside_ages _ hages hages' h :=
    ⟨fun a ha => (h.1 a ha).ages hages, fun a ha => (h.2 a ha).ages hages'⟩

/-- Nothing happens to linked objects. -/
lemma JoinsHeap.spares (hh : S.JoinsHeap L h h') (hs : h.Spares L.left h₁)
    (hs' : h'.Spares L.right h₁') : S.JoinsHeap L h₁ h₁' :=
  hh.ages (subset_refl L) hh.oneToOne hs.ages hs'.ages fun t t' ht =>
    Or.inl ⟨ht, hs.same t (Links.mem_left ht), hs'.same t' (Links.mem_right ht)⟩

/-- The new thunks are linked.  Then the bodies are joined. -/
lemma renew_joins {a a' : Addr} (hm : (unfolding base P P').JoinsMachine L m m')
    (hcode : L.JoinsCode (.lam z body) env (.lam z body') env')
    (hh : m.heap.Renews L.left m₁.heap z body env a)
    (hh' : m'.heap.Renews L.right m₁'.heap z body' env' a') :
    ∃ L', L ⊆ L' ∧ (unfolding base P P').JoinsMachine L' m₁ m₁' ∧
      L'.JoinsCode body (env.extend z (.thunk a)) body' (env'.extend z (.thunk a')) := by
  obtain ⟨h₁, c, hspares, heq, rfl, hmemo, hself⟩ := hh
  obtain ⟨h₁', c', hspares', heq', rfl, hmemo', hself'⟩ := hh'
  have hheap := hm.heap.spares hspares hspares'
  obtain ⟨hnone, hnew⟩ := h₁.stored?_pushThunk c
  obtain ⟨hnone', hnew'⟩ := h₁'.stored?_pushThunk c'
  have hL := Set.subset_insert (Term.thunk h₁.thunks.size, Term.thunk h₁'.thunks.size) L
  have hkeeps := ByName.World.keeps_pushThunk h₁ c
  have hkeeps' := ByName.World.keeps_pushThunk h₁' c'
  have hspecial := (unfolding base P P').special_ages hL (Heap.ages_insert_left hkeeps hnone)
    (Heap.ages_insert_right hkeeps' hnone') ⟨z, body, env, body', env', hcode, hself, hself'⟩
  have hmemos : Option.Rel (Links.Joins (insert (Term.thunk h₁.thunks.size,
      Term.thunk h₁'.thunks.size) L)) c.memo c'.memo := by
    rw [hmemo, hmemo']
    exact .none
  have hlinked := (hm.heap.spares hspares hspares').link hkeeps hkeeps' hnone hnone' hnew hnew'
    (.thunk hmemos fun _ => Or.inr ⟨not_false, hspecial⟩)
  refine ⟨_, hL, ⟨heq ▸ heq' ▸ hlinked, fun hlimit => absurd rfl hlimit, False.elim⟩, ?_⟩
  exact (hcode.mono hL).body (.thunk (Set.mem_insert _ _)) rfl

/-- From a closed heap, two such thunks can be linked. -/
lemma unfolds_joins {a' : Addr} (hh : h.Closed)
    (hcode : h.selfLinks.JoinsCode (.lam z body) env (.lam z body) env)
    (hu : h.Unfolds h₁ z body env a) (hu' : h.Unfolds h₁' z body env a') :
    (unfolding h.selfLinks [] []).JoinsHeap (insert (.thunk a, .thunk a') h.selfLinks) h₁ h₁' := by
  obtain ⟨c, hc, hmemo, hself⟩ := hu.self
  obtain ⟨c', hc', hmemo', hself'⟩ := hu'.self
  have hbase : (unfolding h.selfLinks [] []).JoinsHeap h.selfLinks h h :=
    hh.joinsHeap rfl ⟨by simp, by simp⟩
  refine hbase.link hu.keeps hu'.keeps (Heap.stored?_eq_none.2 hu.new)
    (Heap.stored?_eq_none.2 hu'.new)
    (Heap.stored?_eq_thunk.2 ⟨a, rfl, hc⟩) (Heap.stored?_eq_thunk.2 ⟨a', rfl, hc'⟩)
    (.thunk ?_ fun _ => Or.inr ⟨not_false, z, body, env, body, env, ?_, ?_, ?_⟩)
  · rw [hmemo, hmemo']
    exact .none
  · exact hcode.mono (Set.subset_insert _ _)
  · rwa [Links.left_insert, Heap.left_selfLinks]
  · rwa [Links.right_insert, Heap.right_selfLinks]

/-! ### Values for waiting thunks -/

lemma JoinsHeap.settle (hh : (unfolding base P P').JoinsHeap L h h') (hs : h.Settles L.left h₁)
    (hs' : h'.Settles L.right h₁') (hQ : ∀ a ∈ Q, h₁.Waits L.left a)
    (hQ' : ∀ a ∈ Q', h₁'.Waits L.right a) : (unfolding base Q Q').JoinsHeap L h₁ h₁' := by
  refine ⟨hh.oneToOne, hh.base, fun t t' ht => ?_, hQ, hQ'⟩
  obtain ⟨o, o', ho, ho', hjoins⟩ := hh.stored t t' ht
  refine ⟨o, o', (hs.same t (Links.mem_left ht)).trans ho,
    (hs'.same t' (Links.mem_right ht)).trans ho', ?_⟩
  cases hjoins with
  | closure hcode => exact .closure hcode
  | builtin hop hargs => exact .builtin hop hargs
  | thunk hmemo hcode =>
    refine .thunk hmemo fun hnone => (hcode hnone).imp_right ?_
    rintro ⟨-, z, body, env, body', env', hcode, hc, hc'⟩
    exact ⟨not_false, z, body, env, body', env', hcode, hs.self hc, hs'.self hc'⟩

/-- Fewer thunks are known to wait. -/
lemma JoinsHeap.fewer (hh : (unfolding base P P').JoinsHeap L h h') (hQ : Q ⊆ P) (hQ' : Q' ⊆ P') :
    (unfolding base Q Q').JoinsHeap L h h' :=
  hh.settle (.refl _ _) (.refl _ _) (fun a ha => hh.aside.1 a (hQ ha)) fun a ha =>
    hh.aside.2 a (hQ' ha)

lemma JoinsMachine.of_heap (hh : (unfolding base P P').JoinsHeap L m.heap m'.heap) :
    (unfolding base P P').JoinsMachine L m m' :=
  ⟨hh, fun hlimit => absurd rfl hlimit, False.elim⟩

lemma JoinsResult.fewer (h : (unfolding base P P').JoinsResult L r r') (hQ : Q ⊆ P)
    (hQ' : Q' ⊆ P') : (unfolding base Q Q').JoinsResult L r r' := by
  cases h with
  | ok hL hv hm => exact .ok hL hv (.of_heap (hm.heap.fewer hQ hQ'))
  | error hL he _ hm => exact .error hL he False.elim (.of_heap (hm.heap.fewer hQ hQ'))

lemma JoinsResult.memoize_left (h : (unfolding base (a :: P) P').JoinsResult L r r')
    (ha : a ∉ P) : (unfolding base P P').JoinsResult L ((Ending.memoize a).apply r) r' := by
  cases h with
  | error hL he _ hm =>
    exact .error hL he False.elim
      (.of_heap (hm.heap.fewer (List.subset_cons_self a P) (List.Subset.refl P')))
  | @ok L' v v' m m' hL hv hm =>
    have hwaits := hm.heap.aside.1 a List.mem_cons_self
    have hvalue : (m.memoize a v).1 = v := by
      rw [Machine.memoize, hwaits.memo?, Option.getD_none]
    rw [Ending.apply, hvalue]
    refine .ok hL hv (.of_heap (hm.heap.settle (hwaits.settles v) (.refl _ _) (fun b hb => ?_)
      hm.heap.aside.2))
    refine (hm.heap.aside.1 b (List.mem_cons_of_mem a hb)).memoize_of_ne ?_ v
    rintro rfl
    exact ha hb

lemma JoinsResult.memoize_right (h : (unfolding base P (a :: P')).JoinsResult L r r')
    (ha : a ∉ P') : (unfolding base P P').JoinsResult L r ((Ending.memoize a).apply r') := by
  cases h with
  | error hL he _ hm =>
    exact .error hL he False.elim
      (.of_heap (hm.heap.fewer (List.Subset.refl P) (List.subset_cons_self a P')))
  | @ok L' v v' m m' hL hv hm =>
    have hwaits := hm.heap.aside.2 a List.mem_cons_self
    have hvalue : (m'.memoize a v').1 = v' := by
      rw [Machine.memoize, hwaits.memo?, Option.getD_none]
    rw [Ending.apply, hvalue]
    refine .ok hL hv (.of_heap (hm.heap.settle (.refl _ _) (hwaits.settles v') hm.heap.aside.1
      fun b hb => ?_))
    refine (hm.heap.aside.2 b (List.mem_cons_of_mem a hb)).memoize_of_ne ?_ v'
    rintro rfl
    exact ha hb

/-- The waiting thunks get their values on the way back. -/
lemma JoinsResult.windUp_left {F : List Ending} (hF : F.filterMap Ending.addr? = P)
    (h : (unfolding base (P ++ Q) P').JoinsResult L r r') (hP : P.Nodup) (hQ : P.Disjoint Q) :
    (unfolding base Q P').JoinsResult L (windUp F r) r' := by
  induction F generalizing P Q with
  | nil =>
    obtain rfl := hF
    exact h
  | cons e F ih =>
    cases e with
    | leave => exact (ih hF h hP hQ).leaving_left rfl
    | memoize a =>
      obtain rfl := hF
      obtain ⟨ha, hP⟩ := List.nodup_cons.1 hP
      obtain ⟨haQ, hQ⟩ := List.disjoint_cons_left.1 hQ
      refine (ih rfl (h.fewer (List.perm_middle.subset) (List.Subset.refl P')) hP
        (List.disjoint_cons_right.2 ⟨ha, hQ⟩)).memoize_left haQ

lemma JoinsResult.windUp_right {F : List Ending} (hF : F.filterMap Ending.addr? = P')
    (h : (unfolding base P (P' ++ Q')).JoinsResult L r r') (hP : P'.Nodup)
    (hQ : P'.Disjoint Q') : (unfolding base P Q').JoinsResult L r (windUp F r') := by
  induction F generalizing P' Q' with
  | nil =>
    obtain rfl := hF
    exact h
  | cons e F ih =>
    cases e with
    | leave => exact (ih hF h hP hQ).leaving_right rfl
    | memoize a =>
      obtain rfl := hF
      obtain ⟨ha, hP⟩ := List.nodup_cons.1 hP
      obtain ⟨haQ, hQ⟩ := List.disjoint_cons_left.1 hQ
      refine (ih rfl (h.fewer (List.Subset.refl P) (List.perm_middle.subset)) hP
        (List.disjoint_cons_right.2 ⟨ha, hQ⟩)).memoize_right haQ

/-! ### Runs that go on as others -/

/-- The run on the left goes on as another one. -/
lemma Matched.becomes_left {n : ℕ} (hx : Becomes P x y)
    (hy : ∀ k < n, (unfolding base (P ++ Q) P').Matched L (y k) y') (hP : P.Nodup)
    (hQ : P.Disjoint Q) : (unfolding base Q P').Matched L (x n) y' := by
  obtain ⟨d, e, F, hF, hed, hcut, hx⟩ := hx
  intro hr
  rcases Nat.lt_or_ge n d with hlt | hle
  · obtain ⟨m, hm⟩ := hcut n hlt
    exact absurd rfl (hr _ m hm)
  · obtain ⟨k, rfl⟩ := Nat.exists_eq_add_of_le' hle
    rw [hx k] at hr ⊢
    obtain ⟨r', hk, hjoins⟩ := hy (k + e) (by omega) (finished_windUp.1 hr)
    exact ⟨r', hk, hjoins.windUp_left hF hP hQ⟩

/-- The run on the right goes on as another one. -/
lemma Matched.becomes_right (hx : Becomes P' x' y')
    (hy : (unfolding base P (P' ++ Q')).Matched L r y') (hP : P'.Nodup) (hQ : P'.Disjoint Q') :
    (unfolding base P Q').Matched L r x' := by
  obtain ⟨d, e, F, hF, hed, -, hx⟩ := hx
  intro hr
  obtain ⟨r', ⟨k, hk⟩, hjoins⟩ := hy hr
  refine ⟨_, ⟨k + d, fun j hj => ?_⟩, hjoins.windUp_right hF hP hQ⟩
  obtain ⟨l, rfl⟩ := Nat.exists_eq_add_of_le' (le_trans (Nat.le_add_left d k) hj)
  rw [hx l, hk (l + e) (by omega)]

lemma unfolding_follows (base : Links) (P P' : List Addr) (n : ℕ) :
    (unfolding base P P').Follows (evaluate none n) := by
  refine evaluate_follows (S := unfolding base P P') (fun n ih L m m' c c' hspecial hm => ?_) n
  obtain ⟨z, body, env, body', env', hcode, hc, hc'⟩ := hspecial
  obtain ⟨m₁, a, hrenews, hleft⟩ := hc.unfolds hm.heap.left_subset
  obtain ⟨m₁', a', hrenews', hright⟩ := hc'.unfolds hm.heap.right_subset
  obtain ⟨L', hL, hm₁, hbody⟩ := renew_joins hm hcode hrenews hrenews'
  refine .becomes_right hright (.becomes_left hleft (fun k hk => ?_) List.nodup_nil
    (List.disjoint_nil_left _)) List.nodup_nil (List.disjoint_nil_left _)
  exact .of_subset hL ((ih k hk).code hbody hm₁)

end Comparison

end Letrec
