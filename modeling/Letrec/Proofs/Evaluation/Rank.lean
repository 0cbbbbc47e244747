import Mathlib
import Letrec.Proofs.Evaluation.Invariant
import Letrec.Proofs.Evaluation.Steps

/-!
# Objects do not refer to one another in cycles

An object refers to what its environment binds, to the arguments it has, and to its value.  The
value of a thunk is newer than the thunk, so the age of objects says nothing about cycles.

What excludes cycles is that an evaluation sees only what its thunk refers to and what it makes
itself.  To say so, every object gets a rank: it is higher than the ranks of all that the object
refers to, and whatever is in use while the value of a thunk is computed has a lower rank than the
thunk.  Ranks are rational numbers, so there is always room for a new object between what it refers
to and the thunks that wait.

Every step keeps this up (`Config.Steps.ranked`).  So a thunk is not forced while its own value is
computed (`Ranking.notMem_of_below`).
-/

namespace Letrec

/-! ### References -/

namespace Heap

variable {h : Heap} {o u v : Term} {a : Addr}

/-- What an object of the heap refers to. -/
inductive Refers (h : Heap) : Term → Term → Prop
  | closure {a : Addr} {c p} : h.closures[a]? = some c → p ∈ c.env → Refers h (.closure a) p.2
  | thunk {a : Addr} {c p} : h.thunks[a]? = some c → p ∈ c.env → Refers h (.thunk a) p.2
  | memo {a : Addr} {c v} : h.thunks[a]? = some c → c.memo = some v → Refers h (.thunk a) v
  | builtin {a : Addr} {b t} : h.builtins[a]? = some b → t ∈ b.supplied → Refers h (.builtin a) t

lemma Complete.has_of_refers (hc : h.Complete) (hr : h.Refers o u) : h.Has o ∧ h.Has u := by
  cases hr with
  | closure ha hp => exact ⟨(Array.getElem?_eq_some_iff.1 ha).1, (hc.closure ha).bound _ hp⟩
  | thunk ha hp => exact ⟨(Array.getElem?_eq_some_iff.1 ha).1, (hc.thunk ha).1.bound _ hp⟩
  | memo ha hv => exact ⟨(Array.getElem?_eq_some_iff.1 ha).1, ((hc.thunk ha).2 _ hv).1⟩
  | builtin ha ht => exact ⟨(Array.getElem?_eq_some_iff.1 ha).1, (hc.builtin ha).2.1 _ ht⟩

lemma refers_pushClosure {c : Closure} (hr : (h.pushClosure c).Refers o u) :
    h.Refers o u ∨ o = .closure h.closures.size ∧ u ∈ c.env.map Prod.snd := by
  cases hr with
  | closure ha hp =>
    rcases getElem?_push_eq_some ha with ha | ⟨rfl, rfl⟩
    · exact Or.inl (.closure ha hp)
    · exact Or.inr ⟨rfl, List.mem_map_of_mem hp⟩
  | thunk ha hp => exact Or.inl (.thunk ha hp)
  | memo ha hv => exact Or.inl (.memo ha hv)
  | builtin ha ht => exact Or.inl (.builtin ha ht)

lemma refers_pushThunk {t : Term} {env : Env} (hr : (h.pushThunk { term := t, env }).Refers o u) :
    h.Refers o u ∨ o = .thunk h.thunks.size ∧ u ∈ env.map Prod.snd := by
  cases hr with
  | closure ha hp => exact Or.inl (.closure ha hp)
  | thunk ha hp =>
    rcases getElem?_push_eq_some ha with ha | ⟨rfl, rfl⟩
    · exact Or.inl (.thunk ha hp)
    · exact Or.inr ⟨rfl, List.mem_map_of_mem hp⟩
  | memo ha hv =>
    rcases getElem?_push_eq_some ha with ha | ⟨rfl, rfl⟩
    · exact Or.inl (.memo ha hv)
    · -- a new thunk has no value yet
      exact absurd hv (by simp)
  | builtin ha ht => exact Or.inl (.builtin ha ht)

lemma refers_pushBuiltin {b : Builtin} (hr : (h.pushBuiltin b).Refers o u) :
    h.Refers o u ∨ o = .builtin h.builtins.size ∧ u ∈ b.supplied := by
  cases hr with
  | closure ha hp => exact Or.inl (.closure ha hp)
  | thunk ha hp => exact Or.inl (.thunk ha hp)
  | memo ha hv => exact Or.inl (.memo ha hv)
  | builtin ha ht =>
    rcases getElem?_push_eq_some ha with ha | ⟨rfl, rfl⟩
    · exact Or.inl (.builtin ha ht)
    · exact Or.inr ⟨rfl, ht⟩

/-- A value that is stored is the only new reference. -/
lemma refers_memoize (hr : (h.memoize a v).Refers o u) :
    h.Refers o u ∨ o = .thunk a ∧ u = v := by
  cases hr with
  | closure ha hp => exact Or.inl (.closure ha hp)
  | thunk ha hp =>
    obtain ⟨c, hc, -, henv, -⟩ := thunk_of_memoize ha
    exact Or.inl (.thunk hc (henv ▸ hp))
  | memo ha hv =>
    obtain ⟨c, hc, -, -, hmemo⟩ := thunk_of_memoize ha
    rcases hmemo _ hv with hv | ⟨rfl, rfl⟩
    · exact Or.inl (.memo hc hv)
    · exact Or.inr ⟨rfl, rfl⟩
  | builtin ha ht => exact Or.inl (.builtin ha ht)

end Heap

/-! ### Ranks -/

/-- A rank for every object. -/
abbrev Ranking := Term → ℚ

namespace Ranking

variable {rk rk' : Ranking} {h h' : Heap} {b b' : WithTop ℚ} {t u v : Term} {env : Env}

/-- An integer, or an object of a lower rank. -/
def Below (rk : Ranking) (b : WithTop ℚ) (u : Term) : Prop :=
  (∃ i, u = .int i) ∨ (rk u : WithTop ℚ) < b

/-- An object has a higher rank than all it refers to. -/
def Sorts (rk : Ranking) (h : Heap) : Prop := ∀ o u, h.Refers o u → rk.Below (rk o) u

/-- An integer or an object of the heap, of a lower rank. -/
structure Knows (rk : Ranking) (h : Heap) (b : WithTop ℚ) (u : Term) : Prop where
  has : h.Has u
  below : rk.Below b u

/-- The second heap has all objects of the first, and they have the ranks they had. -/
structure Extends (rk rk' : Ranking) (h h' : Heap) : Prop where
  within : h.Within h'
  agrees : ∀ u, h.Has u → rk' u = rk u

lemma Below.mono (hu : rk.Below b u) (hb : b ≤ b') : rk.Below b' u :=
  hu.imp_right fun hlt => hlt.trans_le hb

lemma Below.lt_of_thunk {a : Addr} (ha : rk.Below b (.thunk a)) : (rk (.thunk a) : WithTop ℚ) < b :=
  ha.resolve_left (by simp)

/-- What an object refers to is below every bound that the object is below. -/
lemma Sorts.below {o : Term} (hs : rk.Sorts h) (hou : h.Refers o u) (ho : rk.Below b o) :
    rk.Below b u := by
  rcases ho with ⟨i, rfl⟩ | hlt
  · exact nomatch hou
  · exact (hs o u hou).mono hlt.le

lemma Below.extend (hu : rk.Below b u) (hext : Extends rk rk' h h') (hhas : h.Has u) :
    rk'.Below b u := by
  rw [Below, hext.agrees u hhas]
  exact hu

lemma Knows.int (i : Int64) : rk.Knows h b (.int i) := ⟨trivial, Or.inl ⟨i, rfl⟩⟩

lemma Knows.mono (hu : rk.Knows h b u) (hb : b ≤ b') : rk.Knows h b' u :=
  ⟨hu.has, hu.below.mono hb⟩

lemma Knows.extend (hu : rk.Knows h b u) (hext : Extends rk rk' h h') : rk'.Knows h' b u :=
  ⟨hu.has.mono hext.within, hu.below.extend hext hu.has⟩

/-- There is a rank between what is below a bound and the bound. -/
lemma exists_rank {us : List Term} (hus : ∀ u ∈ us, rk.Below b u) :
    ∃ q : ℚ, (q : WithTop ℚ) < b ∧ ∀ u ∈ us, rk.Below q u := by
  induction us with
  | nil =>
    obtain ⟨q, hq⟩ := exists_lt b
    obtain ⟨q, rfl⟩ := WithTop.ne_top_iff_exists.1 hq.ne_top
    exact ⟨q, hq, by simp⟩
  | cons u us ih =>
    rw [List.forall_mem_cons] at hus
    obtain ⟨q, hq, hbelow⟩ := ih hus.2
    rcases hus.1 with hint | hlt
    · exact ⟨q, hq, List.forall_mem_cons.2 ⟨Or.inl hint, hbelow⟩⟩
    · -- here ranks have to be dense
      obtain ⟨q', hmax, hq'⟩ := exists_between (max_lt hq hlt)
      obtain ⟨q', rfl⟩ := WithTop.ne_top_iff_exists.1 hq'.ne_top
      refine ⟨q', hq', List.forall_mem_cons.2 ⟨Or.inr ((le_max_right _ _).trans_lt hmax), ?_⟩⟩
      exact fun u hu => (hbelow u hu).mono ((le_max_left _ _).trans hmax.le)

end Ranking

/-! ### What is in use -/

section Use

variable (rk : Ranking) (h : Heap) (b : WithTop ℚ)

/-- A term that may be evaluated: an environment binds its variables to what is known, or it is
known itself. -/
inductive Ranking.Evaluable : Term → Env → Prop
  | covered {t env} : h.Covers env t → (∀ p ∈ env, rk.Below b p.2) → Evaluable t env
  | object {t env} : rk.Knows h b t → Evaluable t env

/-- The arguments of a builtin operation and the values it got are known. -/
structure Ranking.Supplies (args vs : List Term) : Prop where
  known : ∀ t ∈ args ++ vs, rk.Knows h b t
  values : ∀ v ∈ vs, v.IsValue

/-- What is under way uses only what is known. -/
def Control.Ranked : Control → Prop
  | .eval t env => rk.Evaluable h b t env
  | .force a => rk.Knows h b (.thunk a)
  | .call f arg => rk.Knows h b f ∧ rk.Knows h b arg
  | .perform act => ∃ args vs, act.OnlyForces args vs ∧ rk.Supplies h b args vs
  | .value v => rk.Knows h b v ∧ v.IsValue
  | .fail _ => True

/-- What waits for a value uses only what is known. -/
def Frame.Ranked : Frame → Prop
  | .leave => True
  | .argument arg env => h.Covers env arg ∧ ∀ p ∈ env, rk.Below b p.2
  | .supply arg => rk.Knows h b arg
  | .memoize a => rk.Knows h b (.thunk a)
  | .resume next => ∃ args vs, (∀ v, v.IsValue → (next v).OnlyForces args (v :: vs)) ∧
      rk.Supplies h b args vs

end Use

section Extend

variable {rk rk' : Ranking} {h h' : Heap} {b : WithTop ℚ}

lemma Ranking.Supplies.extend {args vs : List Term} (hs : rk.Supplies h b args vs)
    (hext : Extends rk rk' h h') : rk'.Supplies h' b args vs :=
  ⟨fun t ht => (hs.known t ht).extend hext, hs.values⟩

lemma Frame.Ranked.extend {f : Frame} (hf : f.Ranked rk h b)
    (hext : Ranking.Extends rk rk' h h') : f.Ranked rk' h' b := by
  cases f with
  | leave => trivial
  | argument arg env =>
    exact ⟨hf.1.mono hext.within, fun p hp => (hf.2 p hp).extend hext (hf.1.bound p hp)⟩
  | supply arg => exact Ranking.Knows.extend hf hext
  | memoize a => exact Ranking.Knows.extend hf hext
  | resume next =>
    obtain ⟨args, vs, hnext, hs⟩ := hf
    exact ⟨args, vs, hnext, hs.extend hext⟩

end Extend

namespace Ranking

variable {rk rk' : Ranking} {h h' : Heap} {t v : Term} {env : Env} {K : List Frame}

/-- The rank of the innermost thunk whose value is computed. -/
def bound (rk : Ranking) : List Frame → WithTop ℚ
  | [] => ⊤
  | .memoize a :: _ => rk (.thunk a)
  | _ :: K => rk.bound K

/-- Every frame uses only what is known where it waits. -/
def RanksStack (rk : Ranking) (h : Heap) : List Frame → Prop
  | [] => True
  | f :: K => f.Ranked rk h (rk.bound K) ∧ rk.RanksStack h K

/-- All is in order but for what is under way. -/
structure Holds (rk : Ranking) (h : Heap) (K : List Frame) : Prop where
  complete : h.Complete
  sorts : rk.Sorts h
  stack : rk.RanksStack h K

lemma RanksStack.bound_extend (hK : rk.RanksStack h K) (hext : Extends rk rk' h h') :
    rk'.bound K = rk.bound K := by
  induction K with
  | nil => rfl
  | cons f K ih =>
    cases f with
    | memoize a => exact congrArg _ (hext.agrees _ hK.1.has)
    | _ => exact ih hK.2

lemma RanksStack.extend (hK : rk.RanksStack h K) (hext : Extends rk rk' h h') :
    rk'.RanksStack h' K := by
  induction K with
  | nil => trivial
  | cons f K ih => exact ⟨(hK.2.bound_extend hext).symm ▸ hK.1.extend hext, ih hK.2⟩

/-- The thunks whose values are computed have ranks that are not below the bound. -/
lemma RanksStack.bound_le (hK : rk.RanksStack h K) {a : Addr} (ha : .memoize a ∈ K) :
    rk.bound K ≤ rk (.thunk a) := by
  induction K with
  | nil => exact absurd ha (by simp)
  | cons f K ih =>
    rcases List.mem_cons.1 ha with rfl | ha
    · exact le_rfl
    · have hle := ih hK.2 ha
      cases f with
      | memoize c => exact hK.1.below.lt_of_thunk.le.trans hle
      | _ => exact hle

/-- A thunk whose value is computed is not known. -/
lemma notMem_of_below (hK : rk.RanksStack h K) {a : Addr}
    (ha : rk.Below (rk.bound K) (.thunk a)) : .memoize a ∉ K :=
  fun hmem => absurd ha.lt_of_thunk (hK.bound_le hmem).not_gt

/-! ### Changes of the heap -/

/-- A new object gets a rank between what it refers to and the innermost thunk that waits. -/
lemma Holds.push (hw : rk.Holds h K) (hcomplete : h'.Complete) (hwithin : h.Within h') {n : Term}
    {us : List Term} (hnew : ¬ h.Has n) (hn : h'.Has n)
    (hrefers : ∀ o u, h'.Refers o u → h.Refers o u ∨ o = n ∧ u ∈ us)
    (hus : ∀ u ∈ us, rk.Knows h (rk.bound K) u) :
    ∃ rk' : Ranking, Extends rk rk' h h' ∧ rk'.Holds h' K ∧ rk'.Knows h' (rk'.bound K) n := by
  obtain ⟨q, hq, hbelow⟩ := exists_rank fun u hu => (hus u hu).below
  have hext : Extends rk (Function.update rk n q) h h' := by
    refine ⟨hwithin, fun u hu => Function.update_of_ne ?_ q rk⟩
    rintro rfl
    exact hnew hu
  refine ⟨Function.update rk n q, hext,
    ⟨hcomplete, fun o u hou => ?_, hw.stack.extend hext⟩, hn, ?_⟩
  · rcases hrefers o u hou with hou | ⟨rfl, hu⟩
    · obtain ⟨ho, hu⟩ := hw.complete.has_of_refers hou
      rw [hext.agrees o ho]
      exact (hw.sorts o u hou).extend hext hu
    · rw [Function.update_self]
      exact (hbelow u hu).extend hext (hus u hu).has
  · rw [hw.stack.bound_extend hext, Below, Function.update_self]
    exact Or.inr hq

lemma Holds.pushClosure (hw : rk.Holds h K) {c : Closure}
    (hcovers : h.Covers c.env (.lam c.param c.body))
    (henv : ∀ p ∈ c.env, rk.Below (rk.bound K) p.2) :
    ∃ rk' : Ranking, Extends rk rk' h (h.pushClosure c) ∧ rk'.Holds (h.pushClosure c) K ∧
      rk'.Knows (h.pushClosure c) (rk'.bound K) (.closure h.closures.size) := by
  refine hw.push (hw.complete.pushClosure hcovers) (h.within_pushClosure c) (lt_irrefl _)
    (by simp [Heap.Has, Heap.pushClosure]) (fun o u => Heap.refers_pushClosure) ?_
  rw [List.forall_mem_map]
  exact fun p hp => ⟨hcovers.bound p hp, henv p hp⟩

lemma Holds.pushThunk (hw : rk.Holds h K) (hcovers : h.Covers env t)
    (henv : ∀ p ∈ env, rk.Below (rk.bound K) p.2) :
    ∃ rk' : Ranking, Extends rk rk' h (h.pushThunk { term := t, env }) ∧
      rk'.Holds (h.pushThunk { term := t, env }) K ∧
      rk'.Knows (h.pushThunk { term := t, env }) (rk'.bound K) (.thunk h.thunks.size) := by
  refine hw.push (hw.complete.pushThunk hcovers) (h.within_pushThunk _) (lt_irrefl _)
    (by simp [Heap.Has, Heap.pushThunk]) (fun o u => Heap.refers_pushThunk) ?_
  rw [List.forall_mem_map]
  exact fun p hp => ⟨hcovers.bound p hp, henv p hp⟩

lemma Holds.pushBuiltin (hw : rk.Holds h K) {c : Builtin} (hlt : c.supplied.length < c.arity)
    (hop : c.OnlyForces) (hsupplied : ∀ t ∈ c.supplied, rk.Knows h (rk.bound K) t) :
    ∃ rk' : Ranking, Extends rk rk' h (h.pushBuiltin c) ∧ rk'.Holds (h.pushBuiltin c) K ∧
      rk'.Knows (h.pushBuiltin c) (rk'.bound K) (.builtin h.builtins.size) :=
  hw.push (hw.complete.pushBuiltin hlt (fun t ht => (hsupplied t ht).has) hop)
    (h.within_pushBuiltin c) (lt_irrefl _) (by simp [Heap.Has, Heap.pushBuiltin])
    (fun _ _ => Heap.refers_pushBuiltin) hsupplied

/-- What is stored in a memo cell has a lower rank than the thunk. -/
lemma Holds.memoize {a : Addr} (hw : rk.Holds h (.memoize a :: K))
    (hv : rk.Knows h (rk.bound (.memoize a :: K)) v) (hval : v.IsValue) :
    rk.Holds (h.memoize a v) K ∧ rk.Knows (h.memoize a v) (rk.bound K) ((h.memo? a).getD v) ∧
      ((h.memo? a).getD v).IsValue := by
  have hext : Extends rk rk h (h.memoize a v) := ⟨h.within_memoize a v, fun _ _ => rfl⟩
  have hle : rk.bound (.memoize a :: K) ≤ rk.bound K := hw.stack.1.below.lt_of_thunk.le
  have hsorts : rk.Sorts (h.memoize a v) := by
    intro o u hou
    rcases Heap.refers_memoize hou with hou | ⟨rfl, rfl⟩
    · exact hw.sorts o u hou
    · exact hv.below
  refine ⟨⟨hw.complete.memoize a hv.has hval, hsorts, hw.stack.2.extend hext⟩, ?_⟩
  cases hu : h.memo? a with
  | none => exact ⟨(hv.mono hle).extend hext, hval⟩
  | some u =>
    -- the value that the thunk has already is handed on, and it is below the thunk as well
    obtain ⟨c, hc, hmemo⟩ := Option.bind_eq_some_iff.1 hu
    obtain ⟨hhas, hvalue⟩ := (hw.complete.thunk hc).2 u hmemo
    have hknows : rk.Knows h (rk.bound K) u :=
      ⟨hhas, hw.sorts.below (.memo hc hmemo) hw.stack.1.below⟩
    exact ⟨hknows.extend hext, hvalue⟩

end Ranking

/-! ### Steps -/

/-- There are ranks for all objects, and what is in use is known. -/
def Config.Ranked (s : Config) : Prop :=
  ∃ rk : Ranking, rk.Holds s.machine.heap s.stack ∧
    s.control.Ranked rk s.machine.heap (rk.bound s.stack)

namespace Config

variable {limit : Option ℕ} {rk : Ranking} {K : List Frame} {m : Machine} {s s' : Config}

lemma evaluating_ranked (hw : rk.Holds m.heap K) {t : Term} {env : Env}
    (ht : rk.Evaluable m.heap (rk.bound K) t env) : (evaluating t env K m).Ranked := by
  cases ht with
  | covered hcovers henv =>
    cases t with
    | int v => exact ⟨rk, hw, .int v, trivial⟩
    | lam x b =>
      obtain ⟨rk', -, hw', hknows⟩ :=
        hw.pushClosure (c := { param := x, body := b, env }) hcovers henv
      exact ⟨rk', hw', hknows, trivial⟩
    | app f a => exact ⟨rk, ⟨hw.complete, hw.sorts, ⟨hcovers.arg, henv⟩, hw.stack⟩,
        .covered hcovers.fn henv⟩
    | var x =>
      obtain ⟨u, hu, hhas⟩ := hcovers.lookup
      have hknows : rk.Knows m.heap (rk.bound K) u := ⟨hhas, henv _ (mem_of_lookup_eq_some hu)⟩
      rw [evaluating, hu]
      cases u with
      | thunk a => exact ⟨rk, hw, hknows⟩
      | _ => exact ⟨rk, hw, .object hknows⟩
    -- a program contains no objects of the heap
    | closure a => exact hcovers.closed.lowered.elim
    | thunk a => exact hcovers.closed.lowered.elim
    | builtin a => exact hcovers.closed.lowered.elim
  | object hknows =>
    cases t with
    | thunk a => exact ⟨rk, hw, hknows⟩
    | int v => exact ⟨rk, hw, hknows, trivial⟩
    | closure a => exact ⟨rk, hw, hknows, trivial⟩
    | builtin a => exact ⟨rk, hw, hknows, trivial⟩
    | var x => exact hknows.has.elim
    | lam x b => exact hknows.has.elim
    | app f a => exact hknows.has.elim

lemma supplying_ranked (hw : rk.Holds m.heap K) {a : Addr} {arg : Term}
    (ha : rk.Knows m.heap (rk.bound K) (.builtin a)) (harg : rk.Knows m.heap (rk.bound K) arg) :
    (supplying a arg K m).Ranked := by
  have hb := Heap.getElem?_builtins ha.has
  obtain ⟨hlt, hsupplied, hop⟩ := hw.complete.builtin hb
  have hall : ∀ t ∈ (m.heap.builtin a).supplied ++ [arg], rk.Knows m.heap (rk.bound K) t :=
    List.forall_mem_append.2
      ⟨fun t ht => ⟨hsupplied t ht, hw.sorts.below (.builtin hb ht) ha.below⟩,
        List.forall_mem_singleton.2 harg⟩
  have hlen : ((m.heap.builtin a).supplied ++ [arg]).length
      = (m.heap.builtin a).supplied.length + 1 := by simp
  rw [supplying]
  dsimp only
  split_ifs with hmany hfew
  · exact ⟨rk, hw, trivial⟩
  · obtain ⟨rk', -, hw', hknows⟩ := hw.pushBuiltin (c := { m.heap.builtin a with
      supplied := (m.heap.builtin a).supplied ++ [arg] }) hfew hop hall
    exact ⟨rk', hw', hknows, trivial⟩
  · have hexact : ((m.heap.builtin a).supplied ++ [arg]).length = (m.heap.builtin a).arity := by
      omega
    rw [Config.Ranked, EvalM.heap_trace]
    exact ⟨rk, hw, _, [], hop _ hexact, by rwa [List.append_nil], by simp⟩

lemma performing_ranked (hw : rk.Holds m.heap K) {args vs : List Term} {act : Action}
    (hact : act.OnlyForces args vs) (hs : rk.Supplies m.heap (rk.bound K) args vs) :
    (performing act K m).Ranked := by
  cases hact with
  | int => exact ⟨rk, hw, .int _, trivial⟩
  | value hv => exact ⟨rk, hw, hs.known _ (List.mem_append_right _ hv), hs.values _ hv⟩
  | fail he => exact ⟨rk, hw, trivial⟩
  | @force _ t next ht hnext =>
    have hw' : rk.Holds m.heap (.resume next :: K) :=
      ⟨hw.complete, hw.sorts, ⟨args, vs, hnext, hs⟩, hw.stack⟩
    have hknows := hs.known t ht
    cases t with
    | thunk a => exact ⟨rk, hw', hknows⟩
    | _ => exact ⟨rk, hw', .object hknows⟩
  | @asInt _ t otherwise next ht _ hnext =>
    rw [performing]
    cases m.heap.asInt? t with
    | some i => exact ⟨rk, hw, args, vs, hnext i, hs⟩
    | none => exact ⟨rk, hw, trivial⟩
  | record ht hnext => exact ⟨rk, hw, args, vs, hnext, hs⟩

lemma returning_ranked {f : Frame} (hw : rk.Holds m.heap (f :: K)) {v : Term}
    (hv : rk.Knows m.heap (rk.bound (f :: K)) v) (hval : v.IsValue) :
    (returning v f K m).Ranked := by
  obtain ⟨hf, hK⟩ := hw.stack
  have hw' : rk.Holds m.heap K := ⟨hw.complete, hw.sorts, hK⟩
  cases f with
  | leave => exact ⟨rk, hw', hv, hval⟩
  | supply arg => exact ⟨rk, hw', hv, hf⟩
  | memoize a =>
    obtain ⟨hholds, hknows, hvalue⟩ := hw.memoize hv hval
    exact ⟨rk, hholds, hknows, hvalue⟩
  | resume next =>
    obtain ⟨args, vs, hnext, hs⟩ := hf
    refine ⟨rk, hw', args, v :: vs, hnext v hval, ?_, List.forall_mem_cons.2 ⟨hval, hs.values⟩⟩
    intro t ht
    rcases List.mem_append.1 ht with ht | ht
    · exact hs.known t (List.mem_append_left _ ht)
    · rcases List.mem_cons.1 ht with rfl | ht
      · exact hv
      · exact hs.known t (List.mem_append_right _ ht)
  | argument arg env =>
    obtain ⟨hcovers, henv⟩ := hf
    rw [returning]
    rcases EvalM.suspend_cases arg env m with
      ⟨u, hu, ⟨rfl, hready⟩ | ⟨x, rfl, hx⟩⟩ | ⟨m', hu, hheap⟩
    · -- of the terms that are passed as they are, only integers occur in programs
      rw [hu]
      cases u with
      | int i => exact ⟨rk, hw', hv, .int i⟩
      | closure a => exact hcovers.closed.lowered.elim
      | thunk a => exact hcovers.closed.lowered.elim
      | builtin a => exact hcovers.closed.lowered.elim
      | _ => exact absurd hready (by simp [Term.isReady])
    · rw [hu]
      have hmem := mem_of_lookup_eq_some hx
      exact ⟨rk, hw', hv, hcovers.bound _ hmem, henv _ hmem⟩
    · rw [hu]
      obtain ⟨rk', hext, hholds, hknows⟩ := hw'.pushThunk hcovers henv
      refine ⟨rk', hheap ▸ hholds, ?_, hheap ▸ hknows⟩
      have hv' : rk'.Knows m'.heap (rk.bound K) v := hheap ▸ hv.extend hext
      rwa [← hK.bound_extend hext] at hv'

/-- Every step keeps the ranks in order. -/
lemma Steps.ranked (h : Steps limit s s') (hs : s.Ranked) : s'.Ranked := by
  obtain ⟨c, K, m⟩ := s
  obtain ⟨rk, hw, hc⟩ := hs
  cases c with
  | eval t env =>
    rw [Steps, next] at h
    split at h <;> obtain rfl := Option.some.inj h
    · exact ⟨rk, hw, trivial⟩
    · have hw' : rk.Holds m.heap (.leave :: K) := ⟨hw.complete, hw.sorts, trivial, hw.stack⟩
      exact evaluating_ranked
        (m := { m with depth := m.depth + 1, peak := max m.peak (m.depth + 1) }) hw' hc
  | force a =>
    have ha := Heap.getElem?_thunks hc.has
    obtain ⟨hcovers, hmemo⟩ := hw.complete.thunk ha
    rw [Steps, next] at h
    split at h <;> obtain rfl := Option.some.inj h
    · rename_i v hv
      obtain ⟨hhas, hval⟩ := hmemo v hv
      exact ⟨rk, hw, ⟨hhas, hw.sorts.below (.memo ha hv) hc.below⟩, hval⟩
    · -- from now on only what is below this thunk is in use
      rw [Config.Ranked, EvalM.heap_trace]
      exact ⟨rk, ⟨hw.complete, hw.sorts, hc, hw.stack⟩,
        .covered hcovers fun p hp => hw.sorts _ p.2 (.thunk ha hp)⟩
  | call f arg =>
    obtain ⟨hf, harg⟩ := hc
    cases f with
    | closure a =>
      obtain rfl := Option.some.inj h
      have ha := Heap.getElem?_closures hf.has
      refine ⟨rk, hw, .covered ((hw.complete.closure ha).body harg.has) ?_⟩
      exact List.forall_mem_cons.2
        ⟨harg.below, fun p hp => hw.sorts.below (.closure ha hp) hf.below⟩
    | builtin a =>
      obtain rfl := Option.some.inj h
      exact supplying_ranked hw hf harg
    | thunk a =>
      obtain rfl := Option.some.inj h
      exact ⟨rk, ⟨hw.complete, hw.sorts, harg, hw.stack⟩, hf⟩
    | _ =>
      obtain rfl := Option.some.inj h
      exact ⟨rk, hw, trivial⟩
  | perform act =>
    obtain rfl := Option.some.inj h
    obtain ⟨args, vs, hact, hsupplies⟩ := hc
    exact performing_ranked hw hact hsupplies
  | value v =>
    cases K with
    | nil => exact absurd h (by simp [Steps, next])
    | cons f K =>
      obtain rfl := Option.some.inj h
      exact returning_ranked hw hc.1 hc.2
  | fail e =>
    cases K with
    | nil => exact absurd h (by simp [Steps, next])
    | cons f K =>
      have hw' : rk.Holds m.heap K := ⟨hw.complete, hw.sorts, hw.stack.2⟩
      cases f <;> obtain rfl := Option.some.inj h <;> exact ⟨rk, hw', trivial⟩

end Config

end Letrec
