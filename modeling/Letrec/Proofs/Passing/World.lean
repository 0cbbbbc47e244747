import Mathlib
import Letrec.Proofs.ByName.World

/-!
# Objects of a heap that may wait to be evaluated

An operation may return its argument as it stands.  Then the machine takes a thunk for a value: it
hands it on as the end of an evaluation, and puts it into memo cells.

In evaluation by name there is no such operation, but there is the identity function, and nothing
that the machine hands on unforced is lost: forcing it has the same answers.  It has them sooner,
because evaluation by name has called the function already (`Leads`).  So a memo cell holds what
its thunk leads to, and no longer what the thunk evaluates to (`Described.thunk`).
-/

namespace Letrec.ByName.Passing

/-- The operation that returns its argument as it stands. -/
def raw : Builtin := { name := "raw", arity := 1, op := Probe.op "raw" .raw }

/-- The computations lead to the object: they have the answers that forcing it has, and forcing it
takes a smaller bound. -/
structure Leads (x : ℕ → Answer) (o : Object) : Prop where
  yields : ∀ r, Forces o r → Yields x r
  gives : ∀ k r, (x (k + 1)).Gives r → (force (evaluate k) o).Gives r

/-- The tree of a term fits the heap. -/
inductive Described (W : World) (h : Heap) : Term → Object → Prop
  | int (v : Int64) : Described W h (.int v) (.int v)
  | closure {a c ρ} : h.closures[a]? = some c → c.body.Lowered → W.DenotesEnv c.env ρ →
      Described W h (.closure a) (.closure c.param c.body ρ)
  | builtin {a p supplied args} : h.builtins[a]? = some (Primitive.builtin p supplied) →
      List.Forall₂ W.Denotes supplied args → Described W h (.builtin a) (.builtin p args)
  /-- The operation that returns its argument is the identity function. -/
  | raw {a x ρ} : h.builtins[a]? = some raw → Described W h (.builtin a) (.closure x (.var x) ρ)
  | thunk {a c ρ} : h.thunks[a]? = some c → c.term.Lowered → W.DenotesEnv c.env ρ →
      (∀ v, c.memo = some v → ∃ o, W v = some o ∧ Leads (fun k => evaluate k c.term ρ) o) →
      Described W h (.thunk a) (.pair c.term ρ)

/-- The trees of a world fit a heap. -/
structure Describes (W : World) (h : Heap) : Prop where
  int : ∀ v, W (.int v) = some (.int v)
  object : ∀ t o, W t = some o → Described W h t o

/-! ### What computations lead to -/

section Leads

variable {x y : ℕ → Answer} {o : Object}

/-- A value is where computations lead that have it as their answer. -/
lemma Leads.of_isValue (hx : Growing x) (ho : o.IsValue) (h : Yields x (.ok o)) : Leads x o where
  yields r hr := by rwa [(forces_of_isValue ho).1 hr]
  gives k r hr := by
    obtain rfl := Yields.unique hx ⟨_, hr⟩ h
    cases o with
    | pair t ρ => exact ho.elim
    | _ => exact Partial.pure_gives.2 rfl

lemma Leads.force_of_isValue (ho : o.IsValue) : Leads (fun k => force (evaluate k) o) o :=
  .of_isValue (force_growing o) ho ((forces_of_isValue ho).2 rfl)

/-- What other computations lead to, if they end where the first ones do. -/
lemma Leads.of_below (h : Leads y o) (hyields : ∀ r, Yields y r → Yields x r)
    (hbelow : ∀ k, (x k).Below (y k)) : Leads x o where
  yields r hr := hyields r (h.yields r hr)
  gives k r hr := h.gives k r (hbelow (k + 1) r hr)

end Leads

variable {W W' : World} {h h' : Heap} {env : Letrec.Env} {ρ : Env} {t : Term} {o : Object}

/-! ### Denoted objects -/

/-- A term has a tree.  It is forced like every object that the term denotes, and takes no larger
bound. -/
lemma Describes.denotes (hW : Describes W h) (ht : W.Denotes t o) :
    ∃ o', W t = some o' ∧ (∀ r, Forces o' r → Forces o r) ∧
      ∀ k, (force (evaluate k) o).Below (force (evaluate k) o') := by
  induction ht with
  | object ho => exact ⟨_, ho, fun _ h => h, fun _ => .refl _⟩
  | @literal v ρ =>
    refine ⟨.int v, hW.int v, fun r hr => ?_, fun k r hr => ?_⟩
    · rw [forces_pair, evaluates_int]
      exact (forces_of_isValue (o := .int v) trivial).1 hr
    · obtain rfl := evaluates_int.1 ⟨k, hr⟩
      exact Partial.pure_gives.2 rfl
  | @«variable» t x o ρ hx _ ih =>
    obtain ⟨o', ho', hforces, hbelow⟩ := ih
    refine ⟨o', ho', fun r hr => ?_, fun k r hr => ?_⟩
    · rw [forces_pair, evaluates_var_of_some hx]
      exact hforces r hr
    · cases k with
      | zero => exact absurd hr Partial.never_gives
      | succ k =>
        change (step (evaluate k) (.var x) ρ).Gives r at hr
        simp only [step, hx] at hr
        exact hbelow (k + 1) r (force_growing o (Nat.le_succ k) r hr)

lemma Describes.thunk (hW : Describes W h) {a : Addr} (ha : W (.thunk a) = some o) :
    ∃ c ρ, h.thunks[a]? = some c ∧ o = .pair c.term ρ ∧ c.term.Lowered ∧ W.DenotesEnv c.env ρ ∧
      ∀ v, c.memo = some v → ∃ o, W v = some o ∧ Leads (fun k => evaluate k c.term ρ) o := by
  cases hW.object _ _ ha with
  | thunk hc ht henv hmemo => exact ⟨_, _, hc, rfl, ht, henv, hmemo⟩

/-- The tree of a term that is no thunk is a value. -/
lemma Describes.isValue_or (hW : Describes W h) (ht : W t = some o) :
    o.IsValue ∨ ∃ a u ρ, t = .thunk a ∧ o = .pair u ρ := by
  cases hW.object t o ht with
  | thunk => exact Or.inr ⟨_, _, _, rfl, rfl⟩
  | _ => exact Or.inl trivial

/-- Only objects of the heap have trees. -/
lemma Describes.has (hW : Describes W h) (ht : W t = some o) : h.Has t := by
  cases hW.object t o ht with
  | int v => trivial
  | closure ha => exact (Array.getElem?_eq_some_iff.1 ha).1
  | builtin ha => exact (Array.getElem?_eq_some_iff.1 ha).1
  | raw ha => exact (Array.getElem?_eq_some_iff.1 ha).1
  | thunk ha => exact (Array.getElem?_eq_some_iff.1 ha).1

lemma Describes.isReady (hW : Describes W h) (ht : W.Denotes t o) : t.isReady = true := by
  obtain ⟨o', ho', -⟩ := hW.denotes ht
  exact (hW.has ho').isReady

/-! ### Growing heaps -/

lemma Described.mono (hW : W.Grows W') (hh : World.Keeps h h') (ho : Described W h t o) :
    Described W' h' t o := by
  cases ho with
  | int v => exact .int v
  | closure ha hb henv => exact .closure (hh.closures _ _ ha) hb (henv.mono hW)
  | builtin ha hargs => exact .builtin (hh.builtins _ _ ha) (hargs.imp fun _ _ h => h.mono hW)
  | raw ha => exact .raw (hh.builtins _ _ ha)
  | thunk ha ht henv hmemo =>
    refine .thunk (hh.thunks _ _ ha) ht (henv.mono hW) fun v hv => ?_
    obtain ⟨o, ho, hleads⟩ := hmemo v hv
    exact ⟨o, hW _ _ ho, hleads⟩

lemma Describes.add (hW : Describes W h) (hh : World.Keeps h h') (ht : W t = none)
    (ho : Described (W.add t o) h' t o) : Describes (W.add t o) h' where
  int v := World.grows_add ht _ _ (hW.int v)
  object u p hu := by
    rcases World.add_eq_some hu with ⟨rfl, rfl⟩ | hu
    · exact ho
    · exact (hW.object u p hu).mono (World.grows_add ht) hh

lemma Describes.pushClosure (hW : Describes W h) {x : String} {b : Term} (hb : b.Lowered)
    (henv : W.DenotesEnv env ρ) :
    ∃ W', W.Grows W' ∧ Describes W' (h.pushClosure { param := x, body := b, env }) ∧
      W' (.closure h.closures.size) = some (.closure x b ρ) := by
  have hfresh := (Heap.eq_none_of_has fun _ _ => hW.has).1
  have hgrows := World.grows_add (o := .closure x b ρ) hfresh
  refine ⟨_, hgrows, hW.add (World.keeps_pushClosure h _) hfresh ?_, World.add_self⟩
  exact .closure (h.closures_pushClosure { param := x, body := b, env }) hb (henv.mono hgrows)

lemma Describes.pushThunk (hW : Describes W h) (ht : t.Lowered) (henv : W.DenotesEnv env ρ) :
    ∃ W', W.Grows W' ∧ Describes W' (h.pushThunk { term := t, env }) ∧
      W' (.thunk h.thunks.size) = some (.pair t ρ) := by
  have hfresh := (Heap.eq_none_of_has fun _ _ => hW.has).2.1
  have hgrows := World.grows_add (o := .pair t ρ) hfresh
  refine ⟨_, hgrows, hW.add (World.keeps_pushThunk h _) hfresh ?_, World.add_self⟩
  exact .thunk (h.thunks_pushThunk { term := t, env }) ht (henv.mono hgrows)
    fun v hv => absurd hv (by simp)

lemma Describes.pushBuiltin (hW : Describes W h) {p : Primitive} {supplied : List Term}
    {args : List Object} (hargs : List.Forall₂ W.Denotes supplied args) :
    ∃ W', W.Grows W' ∧ Describes W' (h.pushBuiltin (p.builtin supplied)) ∧
      W' (.builtin h.builtins.size) = some (.builtin p args) := by
  have hfresh := (Heap.eq_none_of_has fun _ _ => hW.has).2.2
  have hgrows := World.grows_add (o := .builtin p args) hfresh
  refine ⟨_, hgrows, hW.add (World.keeps_pushBuiltin h _) hfresh ?_, World.add_self⟩
  exact .builtin (h.builtins_pushBuiltin _) (hargs.imp fun _ _ h => h.mono hgrows)

lemma Describes.pushRaw (hW : Describes W h) (x : String) (ρ : Env) :
    ∃ W', W.Grows W' ∧ Describes W' (h.pushBuiltin raw) ∧
      W' (.builtin h.builtins.size) = some (.closure x (.var x) ρ) := by
  have hfresh := (Heap.eq_none_of_has fun _ _ => hW.has).2.2
  have hgrows := World.grows_add (o := .closure x (.var x) ρ) hfresh
  refine ⟨_, hgrows, hW.add (World.keeps_pushBuiltin h _) hfresh ?_, World.add_self⟩
  exact .raw (h.builtins_pushBuiltin raw)

/-! ### Memo cells -/

/-- A cell may be filled with what its thunk leads to. -/
lemma Describes.memoize (hW : Describes W h) {a : Addr} (ha : W (.thunk a) = some (.pair t ρ))
    {v : Term} (hv : W v = some o) (hleads : Leads (fun k => evaluate k t ρ) o) :
    Describes W (h.memoize a v) where
  int := hW.int
  object u p hu := by
    cases hW.object u p hu with
    | int i => exact .int i
    | closure hc hb henv => exact .closure hc hb henv
    | builtin hb hargs => exact .builtin hb hargs
    | raw hb => exact .raw hb
    | @thunk a' c ρ' hc ht henv hmemo =>
      obtain ⟨c', hc', hterm, henv', hnew⟩ := Heap.thunk_memoize a v hc
      rw [← hterm] at hu ht hmemo ⊢
      refine .thunk hc' ht (henv' ▸ henv) fun v' hv' => ?_
      rcases hnew v' hv' with hv' | ⟨rfl, rfl⟩
      · exact hmemo v' hv'
      · obtain ⟨rfl, rfl⟩ := Object.pair.inj (Option.some.inj (hu.symm.trans ha))
        exact ⟨o, hv, hleads⟩

end Letrec.ByName.Passing
