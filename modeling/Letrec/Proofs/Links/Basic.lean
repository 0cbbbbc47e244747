import Mathlib
import Letrec.Evaluation
import Letrec.Proofs.Lookup
import Letrec.Proofs.Primitive
import Letrec.Proofs.Heap.Text

/-!
# Terms over two heaps

Two evaluations that do the same may hold the same objects at different addresses, and one of them
may hold objects that the other one does not have.  `Links` says which objects stand for one
another.  Terms are joined if they differ only in linked objects; a term with its environment is
joined to another if, in addition, the environments bind the names that are free in the term to
joined terms.  What else the environments bind does not matter.

An operation is uniform if it does the same with joined arguments.  It may compare objects, because
links are one to one, but it cannot depend on their addresses.
-/

namespace Letrec

lemma lookup?_extend_of_ne {x y : String} (h : y ≠ x) (env : Env) (u : Term) :
    (env.extend x u).lookup? y = env.lookup? y := by
  rw [Env.extend, Env.lookup?, lookup_cons_ite, if_neg h]
  rfl

lemma optionRel_mono {α β : Type} {R R' : α → β → Prop} (hR : ∀ a b, R a b → R' a b)
    {o : Option α} {o' : Option β} (h : Option.Rel R o o') : Option.Rel R' o o' := by
  cases h with
  | some h => exact .some (hR _ _ h)
  | none => exact .none

lemma forall₂_forall_iff {α β : Type} {R : α → β → Prop} {P : α → Prop} {Q : β → Prop}
    {l : List α} {l' : List β} (h : List.Forall₂ R l l') (hPQ : ∀ a b, R a b → (P a ↔ Q b)) :
    (∀ a ∈ l, P a) ↔ ∀ b ∈ l', Q b := by
  induction h with
  | nil => simp
  | cons hab _ ih => rw [List.forall_mem_cons, List.forall_mem_cons, hPQ _ _ hab, ih]

/-- Which objects of two heaps stand for one another. -/
abbrev Links := Set (Term × Term)

namespace Links

variable {L L' : Links} {t t' : Term} {env env' : Env}

/-- No object stands for two others. -/
def OneToOne (L : Links) : Prop := ∀ p ∈ L, ∀ q ∈ L, p.1 = q.1 ↔ p.2 = q.2

/-- The objects of the first heap that have a link. -/
def left (L : Links) : Set Term := Prod.fst '' L

/-- The objects of the second heap that have a link. -/
def right (L : Links) : Set Term := Prod.snd '' L

lemma mem_left (h : (t, t') ∈ L) : t ∈ L.left := ⟨_, h, rfl⟩

lemma mem_right (h : (t, t') ∈ L) : t' ∈ L.right := ⟨_, h, rfl⟩

@[simp]
lemma left_insert (p : Term × Term) (L : Links) : left (insert p L) = insert p.1 L.left :=
  Set.image_insert_eq

@[simp]
lemma right_insert (p : Term × Term) (L : Links) : right (insert p L) = insert p.2 L.right :=
  Set.image_insert_eq

/-- Objects without links can be linked. -/
lemma OneToOne.insert (hL : L.OneToOne) (ht : t ∉ L.left) (ht' : t' ∉ L.right) :
    OneToOne (insert (t, t') L) := by
  rintro ⟨u, u'⟩ (hu | hu) ⟨w, w'⟩ (hw | hw)
  · obtain ⟨rfl, rfl⟩ := Prod.mk.inj hu
    obtain ⟨rfl, rfl⟩ := Prod.mk.inj hw
    simp
  · obtain ⟨rfl, rfl⟩ := Prod.mk.inj hu
    refine iff_of_false ?_ ?_
    · rintro rfl
      exact ht (mem_left hw)
    · rintro rfl
      exact ht' (mem_right hw)
  · obtain ⟨rfl, rfl⟩ := Prod.mk.inj hw
    refine iff_of_false ?_ ?_
    · rintro rfl
      exact ht (mem_left hu)
    · rintro rfl
      exact ht' (mem_right hu)
  · exact hL _ hu _ hw

/-! ### Terms -/

/-- Terms that differ only in linked objects. -/
inductive Joins (L : Links) : Term → Term → Prop
  | var (x : String) : Joins L (.var x) (.var x)
  | int (v : Int64) : Joins L (.int v) (.int v)
  | lam (x : String) {b b' : Term} : Joins L b b' → Joins L (.lam x b) (.lam x b')
  | app {f f' a a' : Term} : Joins L f f' → Joins L a a' → Joins L (.app f a) (.app f' a')
  | closure {a a' : Addr} : (.closure a, .closure a') ∈ L → Joins L (.closure a) (.closure a')
  | thunk {a a' : Addr} : (.thunk a, .thunk a') ∈ L → Joins L (.thunk a) (.thunk a')
  | builtin {a a' : Addr} : (.builtin a, .builtin a') ∈ L → Joins L (.builtin a) (.builtin a')

lemma Joins.mono (hL : L ⊆ L') (h : L.Joins t t') : L'.Joins t t' := by
  induction h with
  | var x => exact .var x
  | int v => exact .int v
  | lam x _ ih => exact .lam x ih
  | app _ _ ihf iha => exact .app ihf iha
  | closure h => exact .closure (hL h)
  | thunk h => exact .thunk (hL h)
  | builtin h => exact .builtin (hL h)

lemma Joins.kind_eq (h : L.Joins t t') : t.kind = t'.kind := by
  cases h <;> rfl

lemma Joins.isReady_eq (h : L.Joins t t') : t.isReady = t'.isReady := by
  cases h <;> rfl

lemma Joins.objects (h : L.Joins t t') :
    List.Forall₂ (fun o o' => (o, o') ∈ L) t.objects t'.objects := by
  induction h with
  | var x => exact .nil
  | int v => exact .nil
  | lam x _ ih => exact ih
  | app _ _ ihf iha => exact List.rel_append ihf iha
  | closure h => exact .cons h .nil
  | thunk h => exact .cons h .nil
  | builtin h => exact .cons h .nil

/-- The texts of joined terms are the same if those of linked objects are. -/
lemma Joins.textWith_eq {f g : Term → String} (h : L.Joins t t')
    (hfg : ∀ o o', (o, o') ∈ L → f o = g o') : t.textWith f = t'.textWith g := by
  induction h with
  | var x => rfl
  | int v => rfl
  | lam x _ ih => rw [Term.textWith, Term.textWith, ih]
  | app _ _ ihf iha => rw [Term.textWith, Term.textWith, ihf, iha]
  | closure h => exact hfg _ _ h
  | thunk h => exact hfg _ _ h
  | builtin h => exact hfg _ _ h

/-! ### Terms with their environments -/

/-- What a name stands for on both sides: nothing, or joined terms that mean the same in every
environment. -/
def JoinsBinding (L : Links) : Option Term → Option Term → Prop :=
  Option.Rel fun u u' => L.Joins u u' ∧ u.isReady = true

/-- Joined terms in environments that bind their free variables alike. -/
structure JoinsCode (L : Links) (t : Term) (env : Env) (t' : Term) (env' : Env) : Prop where
  term : L.Joins t t'
  bound : ∀ x ∈ t.freeVars, L.JoinsBinding (env.lookup? x) (env'.lookup? x)

/-- What a name stands for on one side, it stands for on the other. -/
lemma JoinsBinding.exists_right {o : Option Term} {u : Term} (h : L.JoinsBinding (some u) o) :
    ∃ u', o = some u' ∧ L.Joins u u' ∧ u.isReady = true := by
  cases h with
  | some hu => exact ⟨_, rfl, hu⟩

lemma JoinsBinding.exists_left {o : Option Term} {u' : Term} (h : L.JoinsBinding o (some u')) :
    ∃ u, o = some u ∧ L.Joins u u' ∧ u.isReady = true := by
  cases h with
  | some hu => exact ⟨_, rfl, hu⟩

lemma JoinsBinding.mono {o o' : Option Term} (hL : L ⊆ L') (h : L.JoinsBinding o o') :
    L'.JoinsBinding o o' := optionRel_mono (fun _ _ h => ⟨h.1.mono hL, h.2⟩) h

namespace JoinsCode

lemma mono (hL : L ⊆ L') (h : L.JoinsCode t env t' env') : L'.JoinsCode t env t' env' :=
  ⟨h.term.mono hL, fun x hx => (h.bound x hx).mono hL⟩

/-- A term without free variables needs no environment. -/
lemma of_joins (h : L.Joins t t') (hfree : t.isReady = true) : L.JoinsCode t env t' env' := by
  refine ⟨h, fun x hx => ?_⟩
  cases t <;> first
    | exact absurd hx List.not_mem_nil
    | exact absurd hfree (by simp [Term.isReady])

/-- In the empty environment every name is unbound. -/
lemma nil (h : L.Joins t t') : L.JoinsCode t [] t' [] := ⟨h, fun _ _ => .none⟩

lemma var {x : String} (h : L.JoinsCode (.var x) env (.var x) env') :
    L.JoinsBinding (env.lookup? x) (env'.lookup? x) := h.bound x List.mem_cons_self

section App

variable {f f' a a' : Term} (h : L.JoinsCode (.app f a) env (.app f' a') env')

include h

lemma fn : L.JoinsCode f env f' env' := by
  obtain ⟨_ | _ | _ | ⟨hf, -⟩, hbound⟩ := h
  exact ⟨hf, fun x hx => hbound x (List.mem_append_left _ hx)⟩

lemma arg : L.JoinsCode a env a' env' := by
  obtain ⟨_ | _ | _ | ⟨-, ha⟩, hbound⟩ := h
  exact ⟨ha, fun x hx => hbound x (List.mem_append_right _ hx)⟩

end App

/-- The body of a function, once the parameter is bound. -/
lemma body {x x' : String} {b b' u u' : Term} (h : L.JoinsCode (.lam x b) env (.lam x' b') env')
    (hu : L.Joins u u') (hready : u.isReady = true) :
    L.JoinsCode b (env.extend x u) b' (env'.extend x' u') := by
  obtain ⟨_ | _ | ⟨_, hb⟩, hbound⟩ := h
  refine ⟨hb, fun y hy => ?_⟩
  by_cases hyx : y = x
  · subst hyx
    rw [Env.extend, Env.extend, Env.lookup?, Env.lookup?, List.lookup_cons_self,
      List.lookup_cons_self]
    exact .some ⟨hu, hready⟩
  · have hfree : y ∈ (Term.lam x b).freeVars := List.mem_filter.2 ⟨hy, by simpa using hyx⟩
    rw [lookup?_extend_of_ne hyx, lookup?_extend_of_ne hyx]
    exact hbound y hfree

/-- A binding of a name that is not free in a term does not matter to it. -/
lemma extend_unused (h : L.JoinsCode t env t' env') {x : String} (hx : x ∉ t.freeVars)
    (u u' : Term) : L.JoinsCode t (env.extend x u) t' (env'.extend x u') := by
  refine ⟨h.term, fun y hy => ?_⟩
  have hne : y ≠ x := by
    rintro rfl
    exact hx hy
  rw [lookup?_extend_of_ne hne, lookup?_extend_of_ne hne]
  exact h.bound y hy

end JoinsCode

/-! ### Actions and operations -/

/-- Actions that do the same with joined terms.  While a term is forced, objects are made and
linked. -/
inductive JoinsAction : Links → Action → Action → Prop
  | done {L : Links} {t t' : Term} : L.Joins t t' → JoinsAction L (.done t) (.done t')
  | fail {L : Links} (e : EvalError) : JoinsAction L (.fail e) (.fail e)
  | missingOperand {L : Links} : JoinsAction L .missingOperand .missingOperand
  | force {L : Links} {t t' : Term} {next next' : Term → Action} : L.Joins t t' →
      (∀ L' : Links, L ⊆ L' → L'.OneToOne → ∀ v v', L'.Joins v v' →
        JoinsAction L' (next v) (next' v')) →
      JoinsAction L (.force t next) (.force t' next')
  | asInt {L : Links} {t t' : Term} {next next' : Int64 → Action}
      (otherwise : String → EvalError) : L.Joins t t' →
      (∀ i, JoinsAction L (next i) (next' i)) →
      JoinsAction L (.asInt t otherwise next) (.asInt t' otherwise next')
  | record {L : Links} {t t' : Term} {next next' : Action} (label : String) : L.Joins t t' →
      JoinsAction L next next' → JoinsAction L (.record label t next) (.record label t' next')

end Links

/-- Whatever the links beyond those of `base`, joined arguments make the operation do the same. -/
def Operation.Uniform (base : Links) (op : Operation) : Prop :=
  ∀ L : Links, base ⊆ L → L.OneToOne → ∀ args args', List.Forall₂ L.Joins args args' →
    L.JoinsAction (op args) (op args')

namespace Operation

open Links

variable {base : Links}

lemma binary_uniform (name : String) (f : Int64 → Int64 → Except EvalError Int64) :
    (Primitive.binary name f).operation.Uniform base := by
  intro L _ _ args args' hargs
  cases hargs with
  | nil => exact .missingOperand
  | @cons a a' _ _ ha hargs =>
    cases hargs with
    | nil => exact .missingOperand
    | @cons b b' _ _ hb hargs =>
      refine .force ha fun L₁ hL₁ _ v v' hv => .asInt _ hv fun i => ?_
      refine .force (hb.mono hL₁) fun L₂ _ _ w w' hw => .asInt _ hw fun j => ?_
      dsimp only
      cases f i j with
      | ok v => exact .done (.int v)
      | error e => exact .fail e

lemma conditional_uniform : conditional.Uniform base := by
  intro L _ _ args args' hargs
  cases hargs with
  | nil => exact .missingOperand
  | @cons c c' _ _ hc hargs =>
    cases hargs with
    | nil => exact .missingOperand
    | @cons t t' _ _ ht hargs =>
      cases hargs with
      | nil => exact .missingOperand
      | @cons e e' _ _ he hargs =>
        refine .force hc fun L₁ hL₁ _ v v' hv => .asInt _ hv fun i => ?_
        refine .force ?_ fun L₂ _ _ w w' hw => .done hw
        split_ifs
        · exact ht.mono hL₁
        · exact he.mono hL₁

/-- The standard operations do not depend on addresses. -/
lemma primitive_uniform (p : Primitive) : p.operation.Uniform base := by
  cases p with
  | binary name f => exact binary_uniform name f
  | conditional => exact conditional_uniform

lemma sequence_joins (name : String) {L : Links} {last last' : Term} {ts ts' : List Term}
    (hlast : L.Joins last last') (hts : List.Forall₂ L.Joins ts ts') :
    L.JoinsAction (Probe.sequence name last ts) (Probe.sequence name last' ts') := by
  induction ts generalizing L last last' ts' with
  | nil =>
    cases hts
    exact .done hlast
  | cons t ts ih =>
    cases hts with
    | cons ht hts =>
      refine .force ht fun L₁ hL₁ _ v v' hv => .record name hv ?_
      exact ih hv (hts.imp fun _ _ h => h.mono hL₁)

/-- Nor do the probes. -/
lemma probe_uniform (name : String) (p : Probe) : (p.op name).Uniform base := by
  intro L _ _ args args' hargs
  cases p with
  | seq => exact sequence_joins name (.int 0) hargs
  | count =>
    show L.JoinsAction (.done (.int (Int64.ofNat args.length)))
      (.done (.int (Int64.ofNat args'.length)))
    rw [hargs.length_eq]
    exact .done (.int _)
  | tick =>
    cases hargs with
    | nil => exact .missingOperand
    | cons ht _ => exact .force ht fun L₁ _ _ v v' hv => .record name hv (.done hv)
  | raw =>
    cases hargs with
    | nil => exact .missingOperand
    | cons ht _ => exact .record name ht (.done ht)
  | int =>
    cases hargs with
    | nil => exact .missingOperand
    | cons ht _ => exact .force ht fun L₁ _ _ v v' hv => .asInt _ hv fun i => .done (.int i)

end Operation

end Letrec
