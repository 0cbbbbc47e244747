import Mathlib
import Letrec.Proofs.Sharing.Times
import Letrec.Proofs.Sharing.Guarded

/-!
# Where a run comes to the rest of a binding

If a term has `rest` only as what one binding `(\y. rest) v` goes on with, then a run of the term
evaluates `rest` only five steps after it has evaluated that binding (`Ranked.evaluates_before`).

The function that the binding makes is called once and then spent: nothing mentions it any more,
so nothing can call it again.  This is what `Calm` says of the states outside of the binding:
whatever they mention is usable, and a function with the body `rest` is not.
-/

namespace Letrec

namespace Term

variable {t f a b rest v : Term} {y z : String}

/-- The term `rest` occurs only as what the binding `(\y. rest) v` goes on with. -/
def OnlyAfter : Term → String → Term → Term → Prop
  | .var z, _, rest, _ => .var z ≠ rest
  | .lam z b, y, rest, v => .lam z b ≠ rest ∧ b.OnlyAfter y rest v
  | .app f a, y, rest, v => .app f a ≠ rest ∧ a.OnlyAfter y rest v ∧
      (f.OnlyAfter y rest v ∨ f = .lam y rest ∧ a = v)
  | .int _, _, _, _ | .closure _, _, _, _ | .thunk _, _, _, _ | .builtin _, _, _, _ => True

lemma not_onlyAfter_self (h : rest.isReady = false) : ¬ rest.OnlyAfter y rest v := by
  cases rest with
  | var z => exact fun hg => hg rfl
  | lam z b => exact fun hg => hg.1 rfl
  | app f a => exact fun hg => hg.1 rfl
  | _ => exact absurd h (by simp [isReady])

lemma onlyAfter_of_symbols_lt (h : t.symbols < rest.symbols) : t.OnlyAfter y rest v := by
  have hne : ∀ {u : Term}, u.symbols < rest.symbols → u ≠ rest := fun hu heq => (heq ▸ hu).ne rfl
  induction t with
  | var z => exact hne h
  | lam z b ih => exact ⟨hne h, ih ((Nat.lt_succ_self _).trans h)⟩
  | app f a ihf iha =>
    simp only [symbols] at h
    exact ⟨hne (by simpa only [symbols] using h), iha (by omega), Or.inl (ihf (by omega))⟩
  | _ => trivial

/-- The bindings `pre` around `rest` occur only together: after each of them come the others. -/
def Follows (t : Term) : List (String × Term) → Term → Prop
  | [], _ => True
  | (y, v) :: pre, rest => t.OnlyAfter y (LowerContext.chain pre rest) v ∧ t.Follows pre rest

lemma OnlyAfter.body (h : (Term.lam z b).OnlyAfter y rest v ∨ .lam z b = rest) :
    b.OnlyAfter y rest v := by
  rcases h with h | rfl
  · exact h.2
  · exact onlyAfter_of_symbols_lt (Nat.lt_succ_self _)

lemma OnlyAfter.arg (h : (Term.app f a).OnlyAfter y rest v ∨ .app f a = rest) :
    a.OnlyAfter y rest v := by
  rcases h with h | rfl
  · exact h.2.1
  · exact onlyAfter_of_symbols_lt (by simp only [symbols]; omega)

lemma OnlyAfter.fn (h : (Term.app f a).OnlyAfter y rest v ∨ .app f a = rest) :
    f.OnlyAfter y rest v ∨ f = .lam y rest ∧ a = v := by
  rcases h with h | rfl
  · exact h.2.2
  · exact Or.inl (onlyAfter_of_symbols_lt (by simp only [symbols]; omega))

end Term

/-! ### Calm states -/

section

variable (y : String) (rest v : Term)

/-- An integer, or an object of the heap that is not a function with the body `rest`. -/
def Heap.Usable (h : Heap) (u : Term) : Prop :=
  h.Has u ∧ ∀ a c, u = .closure a → h.closures[a]? = some c → c.body.OnlyAfter y rest v

/-- All objects mention only what is usable, and no thunk has the code `rest`. -/
structure Heap.Calm (h : Heap) : Prop where
  refers : ∀ o u, h.Refers o u → h.Usable y rest v u
  thunk : ∀ {a : Addr} {c}, h.thunks[a]? = some c → c.term.OnlyAfter y rest v

/-- What waits mentions only what is usable. -/
def Frame.Calm (h : Heap) : Frame → Prop
  | .leave | .memoize _ => True
  | .argument arg env => arg.OnlyAfter y rest v ∧ ∀ p ∈ env, h.Usable y rest v p.2
  | .supply arg => h.Usable y rest v arg
  | .resume next => ∃ args vs, (∀ w, w.IsValue → (next w).OnlyForces args (w :: vs)) ∧
      ∀ t ∈ args ++ vs, h.Usable y rest v t

/-- What is under way mentions only what is usable.  It may be the evaluation of `rest`. -/
def Control.Calm (h : Heap) : Control → Prop
  | .eval t env => (t.OnlyAfter y rest v ∨ t = rest) ∧ (∀ p ∈ env, h.Usable y rest v p.2) ∧
      (t.isReady = true → h.Usable y rest v t)
  | .force _ | .fail _ => True
  | .call f arg => h.Usable y rest v f ∧ h.Usable y rest v arg
  | .perform act => ∃ args vs, act.OnlyForces args vs ∧ ∀ t ∈ args ++ vs, h.Usable y rest v t
  | .value w => h.Usable y rest v w

/-- A state that is not inside of the binding. -/
structure Config.Calm (s : Config) : Prop where
  heap : s.machine.heap.Calm y rest v
  control : s.control.Calm y rest v s.machine.heap
  stack : ∀ f ∈ s.stack, f.Calm y rest v s.machine.heap

end

variable {y : String} {rest v : Term}

namespace Heap

variable {h h' : Heap} {u : Term} {env : Env}

lemma usable_of_lowered (hu : u.Lowered) (hready : u.isReady = true) : h.Usable y rest v u := by
  obtain ⟨i, rfl⟩ := hu.eq_int hready
  exact ⟨trivial, fun a c heq => absurd heq (by simp)⟩

/-- What is usable stays so. -/
lemma Usable.grows (hu : h.Usable y rest v u) (hg : h.Grows h') : h'.Usable y rest v u := by
  obtain ⟨hhas, hbody⟩ := hu
  have hold : ∀ {h' : Heap}, h.Within h' → h'.closures = h.closures → h'.Usable y rest v u :=
    fun hw heq => ⟨hhas.mono hw, fun a c hua hc => hbody a c hua (heq ▸ hc)⟩
  cases hg with
  | same => exact ⟨hhas, hbody⟩
  | closure c =>
    refine ⟨hhas.mono (h.within_pushClosure c), ?_⟩
    rintro a c' rfl hc'
    rcases getElem?_push_eq_some hc' with hc' | ⟨rfl, -⟩
    · exact hbody a c' rfl hc'
    · exact absurd hhas (lt_irrefl _)
  | thunk t env => exact hold (h.within_pushThunk _) rfl
  | builtin b => exact hold (h.within_pushBuiltin b) rfl
  | memoize a w => exact hold (h.within_memoize a w) rfl

lemma usable_thunk {a : Addr} (ha : a < h.thunks.size) : h.Usable y rest v (.thunk a) :=
  ⟨ha, fun a c heq => absurd heq (by simp)⟩

lemma usable_builtin {a : Addr} (ha : a < h.builtins.size) : h.Usable y rest v (.builtin a) :=
  ⟨ha, fun a c heq => absurd heq (by simp)⟩

namespace Calm

variable (hh : h.Calm y rest v)

include hh

/-- A function that is made need not be usable. -/
lemma pushClosure {c : Closure} (henv : ∀ p ∈ c.env, h.Usable y rest v p.2) :
    (h.pushClosure c).Calm y rest v where
  refers o u hr := by
    rcases refers_pushClosure hr with hr | ⟨-, hu⟩
    · exact (hh.refers o u hr).grows (.closure c)
    · obtain ⟨p, hp, rfl⟩ := List.mem_map.1 hu
      exact (henv p hp).grows (.closure c)
  thunk := hh.thunk

lemma pushThunk {t : Term} (ht : t.OnlyAfter y rest v)
    (henv : ∀ p ∈ env, h.Usable y rest v p.2) :
    (h.pushThunk { term := t, env }).Calm y rest v where
  refers o u hr := by
    rcases refers_pushThunk hr with hr | ⟨-, hu⟩
    · exact (hh.refers o u hr).grows (.thunk t env)
    · obtain ⟨p, hp, rfl⟩ := List.mem_map.1 hu
      exact (henv p hp).grows (.thunk t env)
  thunk ha := by
    rcases getElem?_push_eq_some ha with ha | ⟨-, rfl⟩
    · exact hh.thunk ha
    · exact ht

lemma pushBuiltin {b : Builtin} (hb : ∀ t ∈ b.supplied, h.Usable y rest v t) :
    (h.pushBuiltin b).Calm y rest v where
  refers o u hr := by
    rcases refers_pushBuiltin hr with hr | ⟨-, hu⟩
    · exact (hh.refers o u hr).grows (.builtin b)
    · exact (hb u hu).grows (.builtin b)
  thunk := hh.thunk

lemma memoize (a : Addr) {w : Term} (hw : h.Usable y rest v w) :
    (h.memoize a w).Calm y rest v where
  refers o u hr := by
    rcases refers_memoize hr with hr | ⟨-, rfl⟩
    · exact (hh.refers o u hr).grows (.memoize a w)
    · exact hw.grows (.memoize a u)
  thunk hb := by
    obtain ⟨c, hc, hterm, -⟩ := thunk_of_memoize hb
    rw [hterm]
    exact hh.thunk hc

/-- A thunk that has a value already hands that on. -/
lemma usable_memo? {a : Addr} {w : Term} (hw : h.Usable y rest v w) :
    h.Usable y rest v ((h.memo? a).getD w) := by
  cases hu : h.memo? a with
  | none => exact hw
  | some u =>
    obtain ⟨c, hc, hmemo⟩ := Option.bind_eq_some_iff.1 hu
    exact hh.refers _ u (.memo hc hmemo)

end Calm

end Heap

lemma Frame.Calm.grows {h h' : Heap} {f : Frame} (hf : f.Calm y rest v h) (hg : h.Grows h') :
    f.Calm y rest v h' := by
  cases f with
  | leave => trivial
  | memoize a => trivial
  | argument arg env => exact ⟨hf.1, fun p hp => (hf.2 p hp).grows hg⟩
  | supply arg => exact Heap.Usable.grows hf hg
  | resume next =>
    obtain ⟨args, vs, hnext, hs⟩ := hf
    exact ⟨args, vs, hnext, fun t ht => (hs t ht).grows hg⟩

namespace Config

variable {limit : Option ℕ} {s s' start : Config} {K : List Frame} {m : Machine} {h : Heap}
  {env : Env} {t : Term}

/-! ### Steps -/

/-- A state that is calm and does not evaluate `rest`. -/
def Quiet (y : String) (rest v : Term) (s : Config) : Prop :=
  s.Calm y rest v ∧ ¬ s.Evaluates rest

lemma Quiet.of_calm (hs : s.Calm y rest v) (hc : ∀ t env, s.control ≠ .eval t env) :
    s.Quiet y rest v := ⟨hs, fun ⟨env, henv⟩ => hc rest env henv⟩

/-- A term that has `rest` only after the binding is evaluated. -/
lemma Quiet.eval (hrest : rest.isReady = false) (hh : m.heap.Calm y rest v)
    (hK : ∀ f ∈ K, f.Calm y rest v m.heap) (ht : t.OnlyAfter y rest v)
    (henv : ∀ p ∈ env, m.heap.Usable y rest v p.2)
    (hready : t.isReady = true → m.heap.Usable y rest v t) :
    Quiet y rest v ⟨.eval t env, K, m⟩ := by
  refine ⟨⟨hh, ⟨Or.inl ht, henv, hready⟩, hK⟩, fun ⟨env', heq⟩ => ?_⟩
  obtain ⟨rfl, -⟩ := Control.eval.inj heq
  exact Term.not_onlyAfter_self hrest ht

/-- An object is evaluated. -/
lemma Quiet.evalObject {u : Term} (hrest : rest.isReady = false) (hh : m.heap.Calm y rest v)
    (hK : ∀ f ∈ K, f.Calm y rest v m.heap) (hu : m.heap.Usable y rest v u)
    (henv : ∀ p ∈ env, m.heap.Usable y rest v p.2) :
    Quiet y rest v ⟨.eval u env, K, m⟩ := by
  have hready : u.isReady = true := hu.1.isReady
  refine .eval hrest hh hK ?_ henv fun _ => hu
  cases u with
  | var x => exact hu.1.elim
  | lam x b => exact hu.1.elim
  | app f a => exact hu.1.elim
  | _ => trivial

lemma evaluating_quiet (hrest : rest.isReady = false) (hh : m.heap.Calm y rest v)
    (hK : ∀ f ∈ K, f.Calm y rest v m.heap) (ht : t.OnlyAfter y rest v ∨ t = rest)
    (henv : ∀ p ∈ env, m.heap.Usable y rest v p.2)
    (hready : t.isReady = true → m.heap.Usable y rest v t)
    (hlowered : t.isReady = false → t.Lowered) (hne : t ≠ .app (.lam y rest) v) :
    (evaluating t env K m).Quiet y rest v := by
  cases t with
  | int i => exact .of_calm ⟨hh, hready rfl, hK⟩ (by simp [evaluating])
  | closure a => exact .of_calm ⟨hh, hready rfl, hK⟩ (by simp [evaluating])
  | builtin a => exact .of_calm ⟨hh, hready rfl, hK⟩ (by simp [evaluating])
  | thunk a => exact .of_calm ⟨hh, trivial, hK⟩ (by simp [evaluating])
  | lam z b =>
    have hbody := Term.OnlyAfter.body ht
    refine .of_calm ⟨hh.pushClosure henv, ⟨?_, ?_⟩, fun f hf => (hK f hf).grows (.closure _)⟩
      (by simp [evaluating])
    · show m.heap.closures.size < (m.heap.pushClosure _).closures.size
      simp [Heap.pushClosure]
    · rintro a c heq hc
      obtain rfl := Term.closure.inj heq
      obtain rfl := Option.some.inj ((m.heap.closures_pushClosure _).symm.trans hc)
      exact hbody
  | var z =>
    unfold evaluating
    dsimp only
    cases hz : env.lookup? z with
    | none => exact .of_calm ⟨hh, trivial, hK⟩ (by simp)
    | some u =>
      have hu := henv _ (mem_of_lookup_eq_some hz)
      cases u with
      | thunk a => exact .of_calm ⟨hh, trivial, hK⟩ (by simp)
      | _ => exact .evalObject hrest hh hK hu henv
  | app f a =>
    obtain ⟨hf, ha⟩ := hlowered rfl
    have hfn := (Term.OnlyAfter.fn ht).resolve_right fun heq => hne (heq.1 ▸ heq.2 ▸ rfl)
    exact .eval hrest hh (List.forall_mem_cons.2 ⟨⟨Term.OnlyAfter.arg ht, henv⟩, hK⟩) hfn henv
      fun hr => Heap.usable_of_lowered hf hr

lemma supplying_quiet (hh : m.heap.Calm y rest v) (hK : ∀ f ∈ K, f.Calm y rest v m.heap)
    (hcomplete : m.heap.Complete) {a : Addr} {arg : Term} (ha : m.heap.Has (.builtin a))
    (harg : m.heap.Usable y rest v arg) : (supplying a arg K m).Quiet y rest v := by
  have hb := Heap.getElem?_builtins ha
  obtain ⟨-, -, hop⟩ := hcomplete.builtin hb
  have hall : ∀ t ∈ (m.heap.builtin a).supplied ++ [arg], m.heap.Usable y rest v t :=
    List.forall_mem_append.2
      ⟨fun t ht => hh.refers _ t (.builtin hb ht), List.forall_mem_singleton.2 harg⟩
  rw [supplying]
  dsimp only
  split_ifs with hmany hfew
  · exact .of_calm ⟨hh, trivial, hK⟩ (by simp)
  · refine .of_calm ⟨hh.pushBuiltin hall, Heap.usable_builtin ?_,
      fun f hf => (hK f hf).grows (.builtin _)⟩ (by simp)
    show m.heap.builtins.size < (m.heap.pushBuiltin _).builtins.size
    simp [Heap.pushBuiltin]
  · have hexact : ((m.heap.builtin a).supplied ++ [arg]).length = (m.heap.builtin a).arity := by
      omega
    refine .of_calm ?_ (by simp)
    constructor <;> rw [EvalM.heap_trace]
    · exact hh
    · exact ⟨_, [], hop _ hexact, by rwa [List.append_nil]⟩
    · exact hK

lemma performing_quiet (hrest : rest.isReady = false) (hh : m.heap.Calm y rest v)
    (hK : ∀ f ∈ K, f.Calm y rest v m.heap) {args vs : List Term} {act : Action}
    (hact : act.OnlyForces args vs) (hs : ∀ t ∈ args ++ vs, m.heap.Usable y rest v t) :
    (performing act K m).Quiet y rest v := by
  cases hact with
  | int =>
    exact .of_calm ⟨hh, Heap.usable_of_lowered trivial rfl, hK⟩ (by simp [performing])
  | value hv =>
    exact .of_calm ⟨hh, hs _ (List.mem_append_right _ hv), hK⟩ (by simp [performing])
  | fail he => exact .of_calm ⟨hh, trivial, hK⟩ (by simp [performing])
  | @force _ t next ht hnext =>
    have hK' : ∀ f ∈ Frame.resume next :: K, f.Calm y rest v m.heap :=
      List.forall_mem_cons.2 ⟨⟨args, vs, hnext, hs⟩, hK⟩
    cases t with
    | thunk a => exact .of_calm ⟨hh, trivial, hK'⟩ (by simp [performing, forcing])
    | _ => exact .evalObject hrest hh hK' (hs _ ht) (by simp)
  | @asInt _ t otherwise next ht _ hnext =>
    rw [performing]
    cases m.heap.asInt? t with
    | some i => exact .of_calm ⟨hh, ⟨args, vs, hnext i, hs⟩, hK⟩ (by simp)
    | none => exact .of_calm ⟨hh, trivial, hK⟩ (by simp)
  | record ht hnext =>
    exact .of_calm ⟨hh, ⟨args, vs, hnext, hs⟩, hK⟩ (by simp [performing])

lemma suspend_usable {h' : Heap} {u arg : Term} (hu : Suspended h arg env u h')
    (hh : h.Calm y rest v) (harg : arg.OnlyAfter y rest v) (hlowered : arg.Lowered)
    (henv : ∀ p ∈ env, h.Usable y rest v p.2) :
    h'.Calm y rest v ∧ h.Grows h' ∧ h'.Usable y rest v u := by
  rcases hu with ⟨rfl, ⟨rfl, hready⟩ | ⟨x, -, hx⟩⟩ | ⟨rfl, rfl⟩
  · exact ⟨hh, .same, Heap.usable_of_lowered hlowered hready⟩
  · exact ⟨hh, .same, henv _ (mem_of_lookup_eq_some hx)⟩
  · exact ⟨hh.pushThunk harg henv, .thunk arg env, Heap.usable_thunk (by simp [Heap.pushThunk])⟩

lemma returning_quiet {f : Frame} (hh : m.heap.Calm y rest v) (hf : f.Calm y rest v m.heap)
    (hK : ∀ f ∈ K, f.Calm y rest v m.heap) {w : Term} (hw : m.heap.Usable y rest v w)
    (hval : w.IsValue) (hlowered : ∀ arg env, f = .argument arg env → arg.Lowered) :
    (returning w f K m).Quiet y rest v := by
  cases f with
  | leave => exact .of_calm ⟨hh, hw, hK⟩ (by simp [returning])
  | supply arg => exact .of_calm ⟨hh, ⟨hw, hf⟩, hK⟩ (by simp [returning])
  | memoize a =>
    have hg : m.heap.Grows (m.heap.memoize a w) := .memoize a w
    refine .of_calm ⟨hh.memoize a hw, ?_, fun f hf => (hK f hf).grows hg⟩ (by simp [returning])
    exact (hh.usable_memo? hw).grows hg
  | resume next =>
    obtain ⟨args, vs, hnext, hs⟩ := hf
    refine .of_calm ⟨hh, ⟨args, w :: vs, hnext w hval, fun t ht => ?_⟩, hK⟩ (by simp [returning])
    rcases List.mem_append.1 ht with ht | ht
    · exact hs t (List.mem_append_left _ ht)
    · rcases List.mem_cons.1 ht with rfl | ht
      · exact hw
      · exact hs t (List.mem_append_right _ ht)
  | argument arg env =>
    have hquiet : ∀ {u m'}, EvalM.suspend arg env m = .ok u m' →
        Suspended m.heap arg env u m'.heap →
        (returning w (.argument arg env) K m).Quiet y rest v := by
      intro u m' hsuspend hu
      obtain ⟨hh', hg, hu⟩ := suspend_usable hu hh hf.1 (hlowered arg env rfl) hf.2
      rw [returning, hsuspend]
      exact .of_calm ⟨hh', ⟨hw.grows hg, hu⟩, fun f hf => (hK f hf).grows hg⟩ (by simp)
    rcases EvalM.suspend_cases arg env m with ⟨u, hu, hpassed⟩ | ⟨m', hu, hheap⟩
    · exact hquiet hu (Or.inl ⟨rfl, hpassed⟩)
    · exact hquiet hu (Or.inr ⟨rfl, hheap⟩)

/-- A step outside of the binding does not lead to `rest`. -/
lemma Steps.quiet (h : Steps limit s s') (hranked : s.Ranked) (hrest : rest.isReady = false)
    (hs : s.Calm y rest v) (hne : ¬ s.Evaluates (.app (.lam y rest) v)) : s'.Quiet y rest v := by
  obtain ⟨c, K, m⟩ := s
  obtain ⟨hh, hc, hK⟩ := hs
  obtain ⟨rk, hw, hcranked⟩ := hranked
  cases c with
  | eval t env =>
    rw [Steps, next] at h
    split at h <;> obtain rfl := Option.some.inj h
    · exact .of_calm ⟨hh, trivial, hK⟩ (by simp)
    · obtain ⟨ht, henv, hready⟩ := hc
      have hlowered : t.isReady = false → t.Lowered := fun hnot => by
        cases hcranked with
        | covered hcovers _ => exact hcovers.closed.lowered
        | object hknows => exact absurd (hknows.has.isReady.symm.trans hnot) (by simp)
      exact evaluating_quiet hrest hh (List.forall_mem_cons.2 ⟨trivial, hK⟩) ht henv hready hlowered
        fun heq => hne ⟨env, by rw [heq]⟩
  | force a =>
    have ha := Heap.getElem?_thunks hcranked.has
    rw [Steps, next] at h
    split at h <;> obtain rfl := Option.some.inj h
    · rename_i w hw
      exact .of_calm ⟨hh, hh.refers _ w (.memo ha hw), hK⟩ (by simp)
    · refine .eval hrest ?_ ?_ (hh.thunk ha) ?_ fun hready => ?_
      · rwa [EvalM.heap_trace]
      · rw [EvalM.heap_trace]
        exact List.forall_mem_cons.2 ⟨trivial, hK⟩
      · rw [EvalM.heap_trace]
        exact fun p hp => hh.refers _ _ (.thunk ha hp)
      · exact Heap.usable_of_lowered (hw.complete.thunk ha).1.closed.lowered hready
  | call f arg =>
    obtain ⟨hf, harg⟩ := hc
    cases f with
    | closure a =>
      obtain rfl := Option.some.inj h
      have ha := Heap.getElem?_closures hf.1
      refine .eval hrest hh hK (hf.2 a _ rfl ha) ?_ fun hready => ?_
      · exact List.forall_mem_cons.2 ⟨harg, fun p hp => hh.refers _ _ (.closure ha hp)⟩
      · exact Heap.usable_of_lowered (hw.complete.closure ha).closed.lowered hready
    | builtin a =>
      obtain rfl := Option.some.inj h
      exact supplying_quiet hh hK hw.complete hf.1 harg
    | thunk a =>
      obtain rfl := Option.some.inj h
      exact .of_calm ⟨hh, trivial, List.forall_mem_cons.2 ⟨harg, hK⟩⟩ (by simp)
    | _ =>
      obtain rfl := Option.some.inj h
      exact .of_calm ⟨hh, trivial, hK⟩ (by simp)
  | perform act =>
    obtain rfl := Option.some.inj h
    obtain ⟨args, vs, hact, hs⟩ := hc
    exact performing_quiet hrest hh hK hact hs
  | value w =>
    cases K with
    | nil => exact absurd h (by simp [Steps, next])
    | cons f K =>
      obtain rfl := Option.some.inj h
      rw [List.forall_mem_cons] at hK
      refine returning_quiet hh hK.1 hK.2 hc hcranked.2 ?_
      rintro arg env rfl
      exact hw.stack.1.1.closed.lowered
  | fail e =>
    cases K with
    | nil => exact absurd h (by simp [Steps, next])
    | cons f K =>
      have hK' := (List.forall_mem_cons.1 hK).2
      cases f <;> obtain rfl := Option.some.inj h <;> exact .of_calm ⟨hh, trivial, hK'⟩ (by simp)

/-! ### Inside of the binding -/

/-- The run is inside of the binding, and what is outside of it is calm. -/
structure Inside (y : String) (rest v : Term) (env : Env) (K : List Frame) (h : Heap) (i : ℕ)
    (s : Config) : Prop where
  passing : Passing y rest v env K h i s
  heap : h.Calm y rest v
  bound : ∀ p ∈ env, h.Usable y rest v p.2
  stack : ∀ f ∈ K, f.Calm y rest v h
  argument : v.OnlyAfter y rest v
  lowered : v.Lowered

variable {i : ℕ}

lemma Inside.of_binding (hs : s.Calm y rest v) (hranked : s.Ranked)
    (hcontrol : s.control = .eval (.app (.lam y rest) v) env) :
    Inside y rest v env s.stack s.machine.heap 0 s := by
  obtain ⟨c, K, m⟩ := s
  obtain rfl := hcontrol
  obtain ⟨ht, henv, -⟩ := hs.control
  obtain ⟨rk, -, hc⟩ := hranked
  have hcovers : m.heap.Covers env (.app (.lam y rest) v) := by
    cases hc with
    | covered hcovers _ => exact hcovers
    | object hknows => exact hknows.has.elim
  exact ⟨.binding rfl, hs.heap, henv, hs.stack, Term.OnlyAfter.arg ht, hcovers.arg.closed.lowered⟩

/-- The function that was made is spent: what is mentioned is what was mentioned before, and the
argument. -/
lemma Inside.calm (hs : Inside y rest v env K h 5 s) (hrest : rest.isReady = false) :
    s.Calm y rest v := by
  obtain ⟨hpassing, hh, henv, hK, harg, hlowered⟩ := hs
  cases hpassing with
  | @entered m u hu =>
    have hg : h.Grows (bindingHeap y rest env h) := .closure _
    obtain ⟨hh', hg', hu⟩ := suspend_usable hu (hh.pushClosure henv) harg hlowered
      fun p hp => (henv p hp).grows hg
    refine ⟨hh', ⟨Or.inr rfl, ?_, fun hready => absurd (hready.symm.trans hrest) (by simp)⟩, ?_⟩
    · exact List.forall_mem_cons.2 ⟨hu, fun p hp => ((henv p hp).grows hg).grows hg'⟩
    · exact List.forall_mem_cons.2 ⟨trivial, fun f hf => ((hK f hf).grows hg).grows hg'⟩

/-! ### Runs -/

/-- A state of a run whose evaluations of `rest` are accounted for up to the time `t`. -/
inductive Accounted (limit : Option ℕ) (start : Config) (y : String) (rest v : Term) (t : ℕ)
    (s : Config) : Prop
  /-- Outside of the binding. -/
  | quiet : s.Quiet y rest v → Accounted limit start y rest v t s
  /-- Inside of it, `i` steps after it was evaluated. -/
  | inside {t₀ s₀ i env K h} : t₀ + i = t → i ≤ 5 → start.after? limit t₀ = some s₀ →
      s₀.Evaluates (.app (.lam y rest) v) → Inside y rest v env K h i s →
      Accounted limit start y rest v t s
  | failed {e} : s.control = .fail e → Accounted limit start y rest v t s

/-- Every step keeps the account. -/
lemma Accounted.next {t : ℕ} (ht : start.after? limit t = some s)
    (hs : Accounted limit start y rest v t s) (hranked : s.Ranked) (hrest : rest.isReady = false)
    (hstep : Steps limit s s') : Accounted limit start y rest v (t + 1) s' := by
  have hcalm : s.Calm y rest v → Accounted limit start y rest v (t + 1) s' := by
    intro hcalm
    by_cases hev : s.Evaluates (.app (.lam y rest) v)
    · obtain ⟨env, henv⟩ := hev
      have hinside := Inside.of_binding hcalm hranked henv
      obtain ⟨s₁, hnext, hs₁⟩ := hinside.passing.next (by omega) limit
      obtain rfl := Option.some.inj (hstep.symm.trans hnext)
      rcases hs₁ with ⟨l, hl⟩ | hpassing
      · exact .failed hl
      · exact .inside rfl (by omega) ht ⟨env, henv⟩ { hinside with passing := hpassing }
    · exact .quiet (hstep.quiet hranked hrest hcalm hev)
  cases hs with
  | quiet hquiet => exact hcalm hquiet.1
  | failed he => exact .failed (hstep.fail he)
  | @inside t₀ s₀ i env K h hadd hi ht₀ hev hinside =>
    rcases hi.eq_or_lt with rfl | hlt
    · exact hcalm (hinside.calm hrest)
    · obtain ⟨s₁, hnext, hs₁⟩ := hinside.passing.next hlt limit
      obtain rfl := Option.some.inj (hstep.symm.trans hnext)
      rcases hs₁ with ⟨l, hl⟩ | hpassing
      · exact .failed hl
      · exact .inside (by omega) hlt ht₀ hev { hinside with passing := hpassing }

lemma Passing.eq_five (hs : Passing y rest v env K h i s) (hev : s.Evaluates rest) : i = 5 := by
  obtain ⟨env', hcontrol⟩ := hev
  -- the binding and the function are larger than `rest`
  have hne : ∀ {t : Term}, Control.eval t env = .eval rest env' → ¬ rest.symbols < t.symbols :=
    fun heq => (Control.eval.inj heq).1 ▸ lt_irrefl _
  cases hs with
  | binding => exact absurd (by simp only [Term.symbols]; omega) (hne hcontrol)
  | function => exact absurd (Nat.lt_succ_self _) (hne hcontrol)
  | made => exact absurd hcontrol (by simp)
  | ready => exact absurd hcontrol (by simp)
  | called => exact absurd hcontrol (by simp)
  | entered => rfl

/-- A run that starts calm evaluates `rest` only five steps after it has evaluated the binding. -/
theorem Ranked.evaluates_before (hranked : start.Ranked) (hstart : start.Quiet y rest v)
    (hrest : rest.isReady = false) {n : ℕ} (h : EvaluatesAt limit start rest n) :
    ∃ n₀, n₀ + 5 = n ∧ EvaluatesAt limit start (.app (.lam y rest) v) n₀ := by
  have hrun : ∀ n s, start.after? limit n = some s → Accounted limit start y rest v n s := by
    intro n
    induction n with
    | zero =>
      intro s hs
      obtain rfl := Option.some.inj hs
      exact .quiet hstart
    | succ n ih =>
      intro s' hs'
      obtain ⟨s, hs, hstep⟩ := exists_of_after?_succ hs'
      exact (ih s hs).next hs ((reaches_of_after? hs).ranked hranked) hrest hstep
  obtain ⟨s, hs, hev⟩ := h
  cases hrun n s hs with
  | quiet hquiet => exact absurd hev hquiet.2
  | @inside n₀ s₀ i env K h hadd hi hs₀ hev₀ hinside =>
    obtain rfl := hinside.passing.eq_five hev
    exact ⟨n₀, hadd, s₀, hs₀, hev₀⟩
  | failed he =>
    obtain ⟨env, henv⟩ := hev
    exact absurd (he.symm.trans henv) (by simp)

/-! ### Blocks -/

/-- At the start there is nothing but the term. -/
lemma quiet_start {bs : Builtins} (hbs : bs.OnlyForce) (hrest : rest.isReady = false)
    (ht : t.OnlyAfter y rest v) (hlowered : t.Lowered) (tracing : Bool) (log : Array Event) :
    (Config.start bs tracing log t).Quiet y rest v := by
  refine .eval hrest ⟨fun o u hou => absurd hou (not_refers_start hbs o u), fun ha => ?_⟩
    (by simp) ht (fun p hp => ⟨bs.has_env p hp, fun a c _ ha => ?_⟩)
    fun hready => Heap.usable_of_lowered hlowered hready
  · exact absurd ha (by simp [Machine.ofBuiltins, Builtins.heap])
  · exact absurd ha (by simp [Machine.ofBuiltins, Builtins.heap])

/-- A run comes to `rest` only through the bindings around it, in five steps for each. -/
theorem evaluates_chain {bs : Builtins} (hbs : bs.OnlyForce) (tracing : Bool) (log : Array Event)
    (hranked : (Config.start bs tracing log t).Ranked) (hlowered : t.Lowered)
    (hrest : rest.isReady = false) {pre : List (String × Term)} (ht : t.Follows pre rest) {n : ℕ}
    (h : EvaluatesAt limit (Config.start bs tracing log t) rest n) :
    ∃ n₀, n₀ + 5 * pre.length = n ∧
      EvaluatesAt limit (Config.start bs tracing log t) (LowerContext.chain pre rest) n₀ := by
  induction pre with
  | nil => exact ⟨n, rfl, h⟩
  | cons q pre ih =>
    obtain ⟨y, v⟩ := q
    obtain ⟨hafter, hfollows⟩ := ht
    obtain ⟨n₁, hn₁, h₁⟩ := ih hfollows
    have hready : (LowerContext.chain pre rest).isReady = false := by
      cases pre with
      | nil => exact hrest
      | cons => rfl
    obtain ⟨n₀, hn₀, h₀⟩ := hranked.evaluates_before
      (quiet_start hbs hready hafter hlowered tracing log) hready h₁
    refine ⟨n₀, ?_, h₀⟩
    rw [List.length_cons]
    omega

end Config

end Letrec
