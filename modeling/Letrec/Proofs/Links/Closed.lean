import Mathlib
import Letrec.Proofs.Links.Evaluation

/-!
# Closed heaps

A heap is closed if its objects mention only objects that it has and if its operations are uniform.
A closed heap is joined to itself, each of its objects being linked to itself, and so evaluations
that start from it on both sides can be compared.  A table of standard operations and probes makes a
closed heap (`Builtins.Uniform.closed`).

What a comparison says about two evaluations is put in terms of what is seen of them: `SameAnswer`
and `ReadAlike` of results, and `EndAlike` of runs.
-/

namespace Letrec

open EvalM (Finished OutOfFuel)

/-! ### A heap and itself -/

namespace Heap

variable {h : Heap} {t : Term} {env env' : Env}

/-- The heap has all objects that occur in a term. -/
def Holds (h : Heap) (t : Term) : Prop := ∀ o ∈ t.objects, ∃ s, h.stored? o = some s

/-- Every object stands for itself. -/
def selfLinks (h : Heap) : Links := {p | ∃ t s, h.stored? t = some s ∧ p = (t, t)}

/-- The objects mention only objects that the heap has, environments bind names to integers and
objects, and operations are uniform. -/
structure Closed (h : Heap) : Prop where
  closure : ∀ (a : Addr) (c : Closure), h.closures[a]? = some c →
    h.Holds c.body ∧ ∀ p ∈ c.env, h.Has p.2
  thunk : ∀ (a : Addr) (c : Thunk), h.thunks[a]? = some c →
    h.Holds c.term ∧ (∀ p ∈ c.env, h.Has p.2) ∧ ∀ v, c.memo = some v → h.Holds v
  builtin : ∀ (a : Addr) (b : Builtin), h.builtins[a]? = some b →
    (∀ t ∈ b.supplied, h.Holds t) ∧ b.op.Uniform h.selfLinks

lemma holds_of_lowered (ht : t.Lowered) : h.Holds t := by
  have hnone : t.objects = [] := by
    induction t with
    | app f a ihf iha => rw [Term.objects, ihf ht.1, iha ht.2, List.append_nil]
    | lam x b ih => exact ih ht
    | var x => rfl
    | int v => rfl
    | _ => exact ht.elim
  intro o ho
  exact absurd ho (hnone ▸ List.not_mem_nil)

lemma oneToOne_selfLinks (h : Heap) : h.selfLinks.OneToOne := by
  rintro _ ⟨t, -, -, rfl⟩ _ ⟨u, -, -, rfl⟩
  exact Iff.rfl

lemma mem_selfLinks {s : Stored} (hs : h.stored? t = some s) : (t, t) ∈ h.selfLinks :=
  ⟨t, s, hs, rfl⟩

lemma left_selfLinks (h : Heap) : h.selfLinks.left = h.contents := by
  ext t
  constructor
  · rintro ⟨_, ⟨u, s, hs, rfl⟩, rfl⟩
    exact ⟨s, hs⟩
  · rintro ⟨s, hs⟩
    exact Links.mem_left (mem_selfLinks hs)

lemma right_selfLinks (h : Heap) : h.selfLinks.right = h.contents := by
  ext t
  constructor
  · rintro ⟨_, ⟨u, s, hs, rfl⟩, rfl⟩
    exact ⟨s, hs⟩
  · rintro ⟨s, hs⟩
    exact Links.mem_right (mem_selfLinks hs)

lemma Holds.joins (ht : h.Holds t) : h.selfLinks.Joins t t := by
  induction t with
  | var x => exact .var x
  | int v => exact .int v
  | lam x b ih => exact .lam x (ih ht)
  | app f a ihf iha =>
    exact .app (ihf fun o ho => ht o (List.mem_append_left _ ho))
      (iha fun o ho => ht o (List.mem_append_right _ ho))
  | closure a =>
    obtain ⟨s, hs⟩ := ht _ (List.mem_singleton_self _)
    exact .closure (mem_selfLinks hs)
  | thunk a =>
    obtain ⟨s, hs⟩ := ht _ (List.mem_singleton_self _)
    exact .thunk (mem_selfLinks hs)
  | builtin a =>
    obtain ⟨s, hs⟩ := ht _ (List.mem_singleton_self _)
    exact .builtin (mem_selfLinks hs)

lemma Has.holds (ht : h.Has t) : h.Holds t := by
  cases t with
  | int v => exact fun o ho => absurd ho List.not_mem_nil
  | closure a =>
    intro o ho
    obtain rfl := List.mem_singleton.1 ho
    exact ⟨_, by rw [stored?, Array.getElem?_eq_getElem ht, Option.map_some]⟩
  | thunk a =>
    intro o ho
    obtain rfl := List.mem_singleton.1 ho
    exact ⟨_, by rw [stored?, Array.getElem?_eq_getElem ht, Option.map_some]⟩
  | builtin a =>
    intro o ho
    obtain rfl := List.mem_singleton.1 ho
    exact ⟨_, by rw [stored?, Array.getElem?_eq_getElem ht, Option.map_some]⟩
  | _ => exact ht.elim

/-- A term of the heap, in environments that bind its free variables to the same. -/
lemma Holds.joinsCode (ht : h.Holds t)
    (hsame : ∀ x ∈ t.freeVars, env.lookup? x = env'.lookup? x)
    (hhas : ∀ x ∈ t.freeVars, ∀ u, env.lookup? x = some u → h.Has u) :
    h.selfLinks.JoinsCode t env t env' := by
  refine ⟨ht.joins, fun x hx => ?_⟩
  rw [← hsame x hx]
  have hbound := hhas x hx
  cases hu : env.lookup? x with
  | none => exact .none
  | some u => exact .some ⟨(hbound u hu).holds.joins, (hbound u hu).isReady⟩

lemma has_of_lookup? (henv : ∀ p ∈ env, h.Has p.2) {x : String} {u : Term}
    (hu : env.lookup? x = some u) : h.Has u := henv _ (mem_of_lookup_eq_some hu)

/-- A closed heap is joined to itself. -/
lemma Closed.joinsHeap (hh : h.Closed) {S : Comparison} (hbase : S.base = h.selfLinks)
    (haside : S.aside h.selfLinks h h) : S.JoinsHeap h.selfLinks h h := by
  refine ⟨h.oneToOne_selfLinks, hbase.le, ?_, haside⟩
  rintro t t' ⟨u, s, hs, heq⟩
  obtain ⟨rfl, rfl⟩ := Prod.mk.inj heq
  refine ⟨s, s, hs, hs, ?_⟩
  cases s with
  | closure c =>
    obtain ⟨a, -, hc⟩ := stored?_eq_closure.1 hs
    obtain ⟨hbody, henv⟩ := hh.closure a c hc
    have hlam : h.Holds (.lam c.param c.body) := hbody
    exact .closure (hlam.joinsCode (fun _ _ => rfl) fun x _ u hu => has_of_lookup? henv hu)
  | thunk c =>
    obtain ⟨a, -, hc⟩ := stored?_eq_thunk.1 hs
    obtain ⟨hterm, henv, hmemo⟩ := hh.thunk a c hc
    refine .thunk ?_ fun _ => Or.inl (hterm.joinsCode (fun _ _ => rfl) fun x _ u hu =>
      has_of_lookup? henv hu)
    cases hm : c.memo with
    | none => exact .none
    | some v => exact .some (hmemo v hm).joins
  | builtin b =>
    obtain ⟨a, -, hb⟩ := stored?_eq_builtin.1 hs
    obtain ⟨hsupplied, hop⟩ := hh.builtin a b hb
    have hself : List.Forall₂ h.selfLinks.Joins b.supplied b.supplied :=
      List.forall₂_same.2 fun t ht => (hsupplied t ht).joins
    exact .builtin (hbase ▸ hop) hself

end Heap

/-! ### Tables of operations -/

namespace Builtins

/-- A table of uniform operations, none of which has an argument yet. -/
def Uniform (bs : Builtins) : Prop :=
  ∀ b ∈ bs.entries, b.supplied = [] ∧ ∀ base : Links, b.op.Uniform base

variable {bs : Builtins}

lemma uniform_standard : standard.Uniform := by
  intro b hb
  rw [standard_entries] at hb
  obtain ⟨p, -, rfl⟩ := List.mem_map.1 hb
  exact ⟨rfl, fun base => Operation.primitive_uniform p⟩

/-- Probes may be added to a table. -/
lemma Uniform.insert_probe (h : bs.Uniform) (name : String) (arity : ℕ) (p : Probe) :
    (bs.insert name arity (p.op name)).Uniform := by
  intro b hb
  rcases mem_insertInto hb with rfl | hb
  · exact ⟨rfl, fun base => Operation.probe_uniform name p⟩
  · exact h b hb

/-- The heap that has the operations of the table and nothing else. -/
lemma Uniform.closed (h : bs.Uniform) : bs.heap.Closed where
  closure a c hc := by simp [heap] at hc
  thunk a c hc := by simp [heap] at hc
  builtin a b hb := by
    have hmem : b ∈ bs.entries := by
      have hget : bs.entries[a]? = some b := by simpa [heap] using hb
      exact List.mem_of_getElem? hget
    obtain ⟨hsupplied, hop⟩ := h b hmem
    exact ⟨by simp [hsupplied], hop _⟩

lemma closed_standard : standard.heap.Closed := uniform_standard.closed

end Builtins

/-! ### What is seen -/

/-- What a user sees of two ends is the same: the kind and the text of a value, or an error. -/
inductive SameAnswer : EStateM.Result Halt Machine Term → EStateM.Result Halt Machine Term → Prop
  | ok {v v' : Term} {m m' : Machine} : v.kind = v'.kind → m.heap.text v = m'.heap.text v' →
      SameAnswer (.ok v m) (.ok v' m')
  | error (e : Halt) (m m' : Machine) : SameAnswer (.error e m) (.error e m')

/-- The same is seen of two ends, except that texts that never end are only compared as far as they
go. -/
inductive ReadAlike : EStateM.Result Halt Machine Term → EStateM.Result Halt Machine Term → Prop
  | ok {v v' : Term} {m m' : Machine} : v.kind = v'.kind → m.heap.TextAlike m'.heap v v' →
      ReadAlike (.ok v m) (.ok v' m')
  | error {e e' : Halt} {m m' : Machine} : m.heap.HaltsAlike m'.heap e e' →
      ReadAlike (.error e m) (.error e' m')

lemma SameAnswer.symm {r r' : EStateM.Result Halt Machine Term} (h : SameAnswer r r') :
    SameAnswer r' r := by
  cases h with
  | ok hkind htext => exact .ok hkind.symm htext.symm
  | error e m m' => exact .error e m' m

lemma ReadAlike.symm {r r' : EStateM.Result Halt Machine Term} (h : ReadAlike r r') :
    ReadAlike r' r := by
  cases h with
  | ok hkind htext => exact .ok hkind.symm htext.symm
  | error he => exact .error he.symm

/-- If one run ends, the other one does, in a related way, within some bound. -/
structure EndAlike (R : EStateM.Result Halt Machine Term → EStateM.Result Halt Machine Term → Prop)
    (x y : ℕ → EStateM.Result Halt Machine Term) : Prop where
  forth : ∀ n, Finished OutOfFuel (x n) → ∃ k, R (x n) (y k)
  back : ∀ n, Finished OutOfFuel (y n) → ∃ k, R (x k) (y n)

namespace Comparison

variable {S : Comparison} {L : Links} {r : EStateM.Result Halt Machine Term}
  {y : ℕ → EStateM.Result Halt Machine Term}

/-- A comparison without special thunks. -/
def plain (limit : Option ℕ) (exact : Prop) (base : Links) : Comparison where
  limit := limit
  exact := exact
  base := base
  special := fun _ _ _ _ _ => False
  special_ages _ _ _ h := h
  aside := fun _ _ _ => True
  aside_ages _ _ _ h := h

lemma plain_follows (limit : Option ℕ) (exact : Prop) (base : Links) (n : ℕ) :
    (plain limit exact base).Follows (evaluate limit n) :=
  evaluate_follows (fun _ _ _ _ _ _ _ (h : False) _ => h.elim) n

/-- A machine with a closed heap is joined to itself. -/
lemma joinsMachine_self {m : Machine} (hm : m.heap.Closed) (hbase : S.base = m.heap.selfLinks)
    (haside : S.aside m.heap.selfLinks m.heap m.heap) : S.JoinsMachine m.heap.selfLinks m m := by
  refine ⟨hm.joinsHeap hbase haside, fun _ => rfl, fun _ => ⟨rfl, rfl, ?_, rfl, rfl, rfl⟩⟩
  rintro a a' ⟨t, -, -, heq⟩
  obtain ⟨ha, ha'⟩ := Prod.mk.inj heq
  exact Term.thunk.inj (ha.trans ha'.symm)

lemma JoinsResult.readAlike {r' : EStateM.Result Halt Machine Term} (h : S.JoinsResult L r r') :
    ReadAlike r r' := by
  cases h with
  | ok _ hv hm => exact .ok hv.kind_eq (hm.heap.textAlike hv)
  | error _ he _ _ => exact .error he

lemma JoinsResult.sameAnswer {r' : EStateM.Result Halt Machine Term} (h : S.JoinsResult L r r')
    (hexact : S.exact) : SameAnswer r r' := by
  cases h with
  | ok _ hv hm => exact .ok hv.kind_eq (hm.text_eq hexact hv)
  | error _ _ he _ =>
    obtain rfl := he hexact
    exact .error _ _ _

lemma Matched.exists_sameAnswer (h : S.Matched L r y) (hr : Finished OutOfFuel r)
    (hexact : S.exact) : ∃ k, SameAnswer r (y k) := by
  obtain ⟨r', ⟨k, hk⟩, hjoins⟩ := h hr
  exact ⟨k, hk k le_rfl ▸ hjoins.sameAnswer hexact⟩

lemma Matched.exists_readAlike (h : S.Matched L r y) (hr : Finished OutOfFuel r) :
    ∃ k, ReadAlike r (y k) := by
  obtain ⟨r', ⟨k, hk⟩, hjoins⟩ := h hr
  exact ⟨k, hk k le_rfl ▸ hjoins.readAlike⟩

end Comparison

end Letrec
