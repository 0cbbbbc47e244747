import Mathlib
import Letrec.Session
import Letrec.Proofs.Unshared.Simulation

/-!
# Sessions keep their heaps described

A session can be in any state that its steps lead to.  As long as none of them stores a value in a
thunk of its own accord, there is a world that describes the heap and knows all that the session can
mention later: the terms and environments that it has kept and the table of builtin operations
(`DescribesSession`).  An evaluation runs over the world that it finds; after it, however it has
ended, the objects that it has made can be mentioned too (`Describes.rebase`).
-/

namespace Letrec

/-- The step stores a value in a thunk of its own accord. -/
def Step.Memoizes : Step → Prop
  | .memoize _ _ => True
  | _ => False

namespace Unshared

namespace World

variable {G W W' : World} {h : Heap} {t : Term} {α β : Type}

/-! ### Terms that are put together -/

lemma Knows.lams (ht : G.Knows t) (params : List String) : G.Knows (.lams params t) := by
  induction params with
  | nil => exact ht
  | cons x params ih => exact ih

lemma Knows.apps {f : Term} {args : List Term} (hf : G.Knows f) (hargs : ∀ a ∈ args, G.Knows a) :
    G.Knows (.apps f args) := by
  induction args generalizing f with
  | nil => exact hf
  | cons a args ih =>
    exact ih ⟨hf, hargs a List.mem_cons_self⟩ fun b hb => hargs b (List.mem_cons_of_mem a hb)

lemma knows_y : G.Knows .y := by simp [Term.y, Term.yHalf, Knows]

lemma Knows.fix {b : Term} (hb : G.Knows b) (self : String) : G.Knows (.fix self b) :=
  ⟨knows_y, hb⟩

lemma Knows.cond {c t e : Term} (hc : G.Knows c) (ht : G.Knows t) (he : G.Knows e) :
    G.Knows (.cond c t e) :=
  .apps trivial (by simp [hc, ht, he])

lemma knows_tagIs (id : DispatchId) : G.Knows (.tagIs id) :=
  .apps trivial (by simp [Knows, Term.ofId])

lemma knows_selection {ms : List (DispatchId × Term)} {m : DispatchId × Term}
    (hm : G.Knows m.2) (hms : ∀ p ∈ ms, G.Knows p.2) : G.Knows (.selection m ms) := by
  induction ms generalizing m with
  | nil => exact hm
  | cons m' ms ih =>
    refine .cond (knows_tagIs m.1) hm (ih (hms m' List.mem_cons_self) fun p hp => ?_)
    exact hms p (List.mem_cons_of_mem m' hp)

lemma knows_dispatchTable? {name : String} {ms : List (DispatchId × Term)}
    (hms : ∀ p ∈ ms, G.Knows p.2) (ht : Term.dispatchTable? name ms = some t) : G.Knows t := by
  cases ms with
  | nil => exact nomatch ht
  | cons m ms =>
    obtain rfl := Option.some.inj ht
    have hselection := knows_selection (hms m List.mem_cons_self)
      fun p hp => hms p (List.mem_cons_of_mem m hp)
    exact .fix (b := .lam tagName _) hselection name

/-- A term that is known stands for something. -/
lemma Describes.denotes (hW : Describes W W h) (ht : W.Knows t) : ∃ o, Denotes W W t o := by
  cases t with
  | int v => exact ⟨_, .object (hW.int v)⟩
  | closure a => exact ht.imp fun o ho => .object ho
  | thunk a => exact ht.imp fun o ho => .object ho
  | builtin a => exact ht.imp fun o ho => .object ho
  | _ => exact ⟨_, .raw rfl ht⟩

lemma exists_forall₂ {P : α → β → Prop} {xs : List α} (h : ∀ x ∈ xs, ∃ y, P x y) :
    ∃ ys, List.Forall₂ P xs ys := by
  induction xs with
  | nil => exact ⟨[], .nil⟩
  | cons x xs ih =>
    obtain ⟨⟨y, hy⟩, hxs⟩ := List.forall_mem_cons.1 h
    obtain ⟨ys, hys⟩ := ih hxs
    exact ⟨y :: ys, .cons hy hys⟩

lemma Describes.denotesAll (hW : Describes W W h) {ts : List Term} (hts : ∀ t ∈ ts, W.Knows t) :
    ∃ os, List.Forall₂ (Denotes W W) ts os :=
  exists_forall₂ fun t ht => hW.denotes (hts t ht)

lemma Describes.denotesEnv (hW : Describes W W h) {env : Letrec.Env}
    (henv : ∀ p ∈ env, W.Knows p.2) : ∃ ρ, DenotesEnv W W env ρ := by
  refine exists_forall₂ fun p hp => ?_
  obtain ⟨o, ho⟩ := hW.denotes (henv p hp)
  exact ⟨(p.1, o), rfl, ho⟩

/-- A value can be mentioned once the evaluation has ended. -/
lemma Describes.knows_of_value (hW : Describes G W h) {w : Object} (hv : W.Value t w) :
    W.Knows t := by
  cases hW.object t w hv.1 with
  | int v => trivial
  | closure => exact ⟨_, hv.1⟩
  | builtin => exact ⟨_, hv.1⟩
  | thunk => exact hv.2.elim

/-! ### States of a session -/

/-- A world describes the heap of a session and knows what the session can mention. -/
structure DescribesSession (W : World) (s : Session) : Prop where
  heap : Describes W W s.machine.heap
  terms : ∀ p ∈ s.terms, W.Knows p.2
  envs : ∀ p ∈ s.envs, ∀ q ∈ p.2, W.Knows q.2
  table : ∀ q ∈ s.builtins.env, W.Knows q.2
  operations : ∀ name a, s.builtins.address? name = some a → W.Knows (.builtin a)

lemma DescribesSession.onMachine {s : Session} (hs : W.DescribesSession s) (hW : W.Grows W')
    {m : Machine} (hm : Describes W' W' m.heap) :
    W'.DescribesSession { s with machine := m } where
  heap := hm
  terms p hp := (hs.terms p hp).mono hW
  envs p hp q hq := (hs.envs p hp q hq).mono hW
  table q hq := (hs.table q hq).mono hW
  operations name a ha := (hs.operations name a ha).mono hW

/-- From a described state the computation leads to a described state, with a result that has the
property. -/
def Maintains (W : World) (x : SessionM α) (Q : World → α → Prop) : Prop :=
  ∀ s a s', W.DescribesSession s → x s = .ok a s' →
    ∃ W', W.Grows W' ∧ W'.DescribesSession s' ∧ Q W' a

section Maintains

variable {x : SessionM α} {f : α → SessionM β} {Q : World → α → Prop} {Q' : World → β → Prop}

lemma Maintains.pure {a : α} (h : Q W a) : Maintains W (pure a) Q := by
  intro s b s' hs heq
  obtain ⟨rfl, rfl⟩ := EStateM.Result.ok.inj heq
  exact ⟨W, .refl W, hs, h⟩

lemma Maintains.throw (e : SessionFailure) : Maintains W (throw e : SessionM α) Q :=
  fun _ _ _ _ heq => nomatch heq

/-- What the described heap says of the terms that are known may be used. -/
lemma Maintains.of_describes (h : ∀ h : Heap, Describes W W h → Maintains W x Q) :
    Maintains W x Q :=
  fun s a s' hs heq => h s.machine.heap hs.heap s a s' hs heq

lemma Maintains.bind (h : Maintains W x Q)
    (hf : ∀ W' a, W.Grows W' → Q W' a → Maintains W' (f a) Q') : Maintains W (x >>= f) Q' := by
  intro s b s' hs heq
  change EStateM.bind x f s = _ at heq
  rw [EStateM.bind] at heq
  cases hx : x s with
  | error e s₁ =>
    rw [hx] at heq
    exact nomatch heq
  | ok a s₁ =>
    rw [hx] at heq
    obtain ⟨W₁, hgrows₁, hs₁, ha⟩ := h s a s₁ hs hx
    obtain ⟨W₂, hgrows₂, hs₂, hb⟩ := hf W₁ a hgrows₁ ha s₁ b s' hs₁ heq
    exact ⟨W₂, hgrows₁.trans hgrows₂, hs₂, hb⟩

lemma Maintains.get {f : Session → SessionM β}
    (h : ∀ s, W.DescribesSession s → Maintains W (f s) Q') : Maintains W (get >>= f) Q' :=
  fun s b s' hs heq => h s hs s b s' hs heq

lemma Maintains.modify {g : Session → Session} {Q : World → PUnit → Prop}
    (h : ∀ s, W.DescribesSession s → W.DescribesSession (g s)) (hQ : Q W ⟨⟩) :
    Maintains W (modify g) Q := by
  intro s _ s' hs heq
  obtain ⟨-, rfl⟩ := EStateM.Result.ok.inj heq
  exact ⟨W, .refl W, h s hs, hQ⟩

lemma Maintains.require {name : String} {o : Option α} (h : ∀ a, o = some a → Q W a) :
    Maintains W (Session.require name o) Q := by
  cases o with
  | none => exact .throw _
  | some a => exact .pure (h a rfl)

/-- A run that does what an evaluation without memo cells does, however it ends. -/
lemma Maintains.evaluating {x : EvalM α} {limit : Option ℕ} {n k : ℕ} {R : World → α → β → Prop}
    {y : ℕ → Partial Fault β}
    (h : ∀ m : Machine, Describes W W m.heap → Matches W limit n k R W m x y)
    (hQ : ∀ {W' : World} {h : Heap} {a b}, Describes W W' h → R W' a b → Q W' a) :
    Maintains W (Session.evaluating x) fun W' r => ∀ a, r = .ok a → Q W' a := by
  intro s r s' hs heq
  obtain ⟨W₁, hgrows, hW₁, -, hanswers⟩ := h s.machine hs.heap
  unfold Session.evaluating at heq
  cases hx : x s.machine with
  | ok a m =>
    rw [hx] at heq hW₁ hanswers
    obtain ⟨rfl, rfl⟩ := EStateM.Result.ok.inj heq
    obtain ⟨b, hb, -⟩ := hanswers
    refine ⟨W₁, hgrows, hs.onMachine hgrows hW₁.rebase, fun a' ha' => ?_⟩
    obtain rfl := Except.ok.inj ha'
    exact hQ hW₁ hb
  | error e m =>
    rw [hx] at heq hW₁
    cases e with
    | missingOperand => exact nomatch heq
    | outOfFuel => exact nomatch heq
    | failed e =>
      obtain ⟨rfl, rfl⟩ := EStateM.Result.ok.inj heq
      exact ⟨W₁, hgrows, hs.onMachine hgrows hW₁.rebase, fun a' ha' => nomatch ha'⟩

end Maintains

/-! ### Building terms -/

lemma environment_maintains (W : World) (r : EnvRef) :
    Maintains W (Session.environment r) fun W' env => ∀ q ∈ env, W'.Knows q.2 := by
  cases r with
  | empty => exact .pure (by simp)
  | builtins => exact .get fun s hs => .pure hs.table
  | kept name =>
    refine .get fun s hs => .require fun env henv => ?_
    exact hs.envs _ (mem_of_lookup_eq_some henv)

lemma newThunk_maintains {env : Letrec.Env} (ht : W.Knows t) (henv : ∀ q ∈ env, W.Knows q.2) :
    Maintains W (Session.onMachine (·.newThunk t env)) fun W' u => W'.Knows u := by
  intro s u s' hs heq
  obtain ⟨rfl, rfl⟩ := EStateM.Result.ok.inj heq
  obtain ⟨ρ, hρ⟩ := hs.heap.denotesEnv henv
  obtain ⟨W', hgrows, hW', hthunk⟩ := hs.heap.pushThunk ht hρ
  refine ⟨W', hgrows, hs.onMachine hgrows ?_, .suspended t ρ, ?_⟩
  · simpa [Machine.newThunk] using hW'.rebase
  · simpa [Machine.newThunk] using hthunk

mutual

lemma build_maintains (W : World) : ∀ r : Recipe,
    Maintains W (Session.build r) fun W' t => W'.Knows t
  | .var x => .pure trivial
  | .int v => .pure trivial
  | .lams ps b => .bind (build_maintains W b) fun W₁ t hgrows ht => .pure (ht.lams ps)
  | .apps f args => by
    refine .bind (build_maintains W f) fun W₁ t hgrows₁ ht => ?_
    refine .bind (buildAll_maintains W₁ args) fun W₂ ts hgrows₂ hts => ?_
    exact .pure ((ht.mono hgrows₂).apps hts)
  | .kept name => by
    refine .get fun s hs => .require fun t ht => ?_
    exact hs.terms _ (mem_of_lookup_eq_some ht)
  | .thunk r env => by
    refine .bind (build_maintains W r) fun W₁ t hgrows₁ ht => ?_
    refine .bind (environment_maintains W₁ env) fun W₂ env hgrows₂ henv => ?_
    exact newThunk_maintains (ht.mono hgrows₂) henv
  | .builtin name => by
    refine .get fun s hs => ?_
    refine .bind (Q := fun W' a => W'.Knows (.builtin a)) (.require fun a ha => ?_) ?_
    · exact hs.operations name a ha
    · exact fun W₁ a hgrows ha => .pure ha
  | .y => .pure knows_y
  | .fix self b => .bind (build_maintains W b) fun W₁ t hgrows ht => .pure (ht.fix self)
  | .cond c t e => by
    refine .bind (build_maintains W c) fun W₁ c hgrows₁ hc => ?_
    refine .bind (build_maintains W₁ t) fun W₂ t hgrows₂ ht => ?_
    refine .bind (build_maintains W₂ e) fun W₃ e hgrows₃ he => ?_
    exact .pure (.cond ((hc.mono hgrows₂).mono hgrows₃) (ht.mono hgrows₃) he)
  | .dispatch table id => .pure ⟨trivial, trivial⟩
  | .table name members => by
    refine .bind (buildMembers_maintains W members) fun W₁ ms hgrows hms => ?_
    cases ht : Term.dispatchTable? name ms with
    | none => exact .throw _
    | some t => exact .pure (knows_dispatchTable? hms ht)

lemma buildAll_maintains (W : World) : ∀ rs : List Recipe,
    Maintains W (Session.buildAll rs) fun W' ts => ∀ t ∈ ts, W'.Knows t
  | [] => .pure (by simp)
  | r :: rs => by
    refine .bind (build_maintains W r) fun W₁ t hgrows₁ ht => ?_
    refine .bind (buildAll_maintains W₁ rs) fun W₂ ts hgrows₂ hts => ?_
    exact .pure (List.forall_mem_cons.2 ⟨ht.mono hgrows₂, hts⟩)

lemma buildMembers_maintains (W : World) : ∀ rs : List (DispatchId × Recipe),
    Maintains W (Session.buildMembers rs) fun W' ms => ∀ p ∈ ms, W'.Knows p.2
  | [] => .pure (by simp)
  | (id, r) :: rs => by
    refine .bind (build_maintains W r) fun W₁ t hgrows₁ ht => ?_
    refine .bind (buildMembers_maintains W₁ rs) fun W₂ ms hgrows₂ hms => ?_
    exact .pure (List.forall_mem_cons.2 ⟨ht.mono hgrows₂, hms⟩)

end

lemma extendAll_maintains (W : World) (pairs : List (String × Recipe)) {env : Letrec.Env}
    (henv : ∀ q ∈ env, W.Knows q.2) :
    Maintains W (Session.extendAll env pairs) fun W' env' => ∀ q ∈ env', W'.Knows q.2 := by
  induction pairs generalizing W env with
  | nil => exact .pure henv
  | cons p pairs ih =>
    refine .bind (build_maintains W p.2) fun W₁ t hgrows ht => ih W₁ ?_
    exact List.forall_mem_cons.2 ⟨ht, fun q hq => (henv q hq).mono hgrows⟩

/-! ### Steps -/

lemma text_maintains (W : World) (t : Term) :
    Maintains W (Session.text t) fun _ _ => True := .get fun _ _ => .pure trivial

lemma keepTerm_maintains (keep : Option String) (ht : W.Knows t) :
    Maintains W (Session.keepTerm keep t) fun W' _ => W'.Knows t := by
  cases keep with
  | none => exact .pure ht
  | some name =>
    refine .modify (fun s hs => ?_) ht
    exact { hs with terms := List.forall_mem_cons.2 ⟨ht, hs.terms⟩ }

lemma answerTerm_maintains (keep : Option String) (ht : W.Knows t) :
    Maintains W (Session.answerTerm keep t) fun _ _ => True := by
  refine .bind (keepTerm_maintains keep ht) fun W₁ _ hgrows _ => ?_
  exact .bind (text_maintains W₁ t) fun _ _ _ _ => .pure trivial

lemma answerResult_maintains (keep : Option String) {r : Except EvalError Term}
    (hr : ∀ t, r = .ok t → W.Knows t) :
    Maintains W (Session.answerResult keep r) fun _ _ => True := by
  cases r with
  | ok t => exact answerTerm_maintains keep (hr t rfl)
  | error e => exact .pure trivial

/-- An evaluation whose value is kept. -/
lemma answer_maintains (keep : Option String) {x : EvalM Term} {limit : Option ℕ} {n k : ℕ}
    {y : ℕ → Answer} (h : ∀ m : Machine, Describes W W m.heap → Matches W limit n k Value W m x y) :
    Maintains W (Session.evaluating x >>= Session.answerResult keep) fun _ _ => True :=
  .bind (.evaluating h fun hW hv => hW.knows_of_value hv) fun _ _ _ hr =>
    answerResult_maintains keep hr

/-- However a step ends, the world grows by the objects that it has made. -/
theorem step_maintains (W : World) {st : Step} (hst : ¬ st.Memoizes) :
    Maintains W (Session.step st) fun _ _ => True := by
  cases st with
  | memoize t v => exact absurd trivial hst
  | term r keep =>
    exact .bind (build_maintains W r) fun W₁ t _ ht => answerTerm_maintains keep ht
  | env base pairs keep =>
    refine .bind (environment_maintains W base) fun W₁ env _ henv => ?_
    refine .bind (extendAll_maintains W₁ pairs henv) fun W₂ env' _ henv' => ?_
    refine .bind (Q := fun _ _ => True) (.modify (fun s hs => ?_) trivial) fun _ _ _ _ =>
      .pure trivial
    exact { hs with envs := List.forall_mem_cons.2 ⟨henv', hs.envs⟩ }
  | lookup env name keep =>
    refine .bind (environment_maintains W env) fun W₁ env _ henv => ?_
    cases hx : env.lookup? name with
    | none => exact .pure trivial
    | some t =>
      have ht := henv _ (mem_of_lookup_eq_some hx)
      refine .bind (keepTerm_maintains keep ht) fun W₂ _ _ _ => ?_
      exact .bind (text_maintains W₂ t) fun _ _ _ _ => .pure trivial
  | eval r env keep =>
    refine .bind (build_maintains W r) fun W₁ t _ ht => ?_
    -- building the term may have made objects, so only now are the trees of the bindings read off
    refine .bind (environment_maintains W₁ env) fun W₂ env hgrows henv =>
      .of_describes fun h hW => ?_
    obtain ⟨ρ, hρ⟩ := hW.denotesEnv henv
    exact .get fun s _ => answer_maintains keep fun m hm =>
      (evaluate_follows W₂ s.limit ampleFuel).code hm hρ (ht.mono hgrows)
  | evalUnlimited r env keep =>
    refine .bind (build_maintains W r) fun W₁ t _ ht => ?_
    refine .bind (environment_maintains W₁ env) fun W₂ env hgrows henv =>
      .of_describes fun h hW => ?_
    obtain ⟨ρ, hρ⟩ := hW.denotesEnv henv
    exact answer_maintains keep fun m hm =>
      (evaluate_follows W₂ none ampleFuel).code hm hρ (ht.mono hgrows)
  | force r keep =>
    refine .bind (build_maintains W r) fun W₁ t _ ht => .of_describes fun h hW => ?_
    obtain ⟨o, ho⟩ := hW.denotes ht
    exact .get fun s _ => answer_maintains keep fun m hm =>
      force_matches (evaluate_follows W₁ s.limit ampleFuel) hm ho
  | forceInt name r =>
    refine .bind (build_maintains W r) fun W₁ t _ ht => .of_describes fun h hW => ?_
    obtain ⟨o, ho⟩ := hW.denotes ht
    refine .get fun s _ => .bind (.evaluating (Q := fun _ _ => True) (fun m hm =>
      integer_matches (evaluate_follows W₁ s.limit ampleFuel) hm ho name) fun _ _ => trivial) ?_
    intro _ r _ _
    cases r <;> exact .pure trivial
  | apply fn args keep =>
    refine .bind (build_maintains W fn) fun W₁ f _ hf => ?_
    refine .bind (buildAll_maintains W₁ args) fun W₂ ts hgrows hts => .of_describes fun h hW => ?_
    obtain ⟨o, ho⟩ := hW.denotes (hf.mono hgrows)
    obtain ⟨os, hos⟩ := hW.denotesAll hts
    exact .get fun s _ => answer_maintains keep fun m hm =>
      apply_matches (evaluate_follows W₂ s.limit ampleFuel) hm ampleFuel ho hos
  | builtin name args keep =>
    refine .bind (buildAll_maintains W args) fun W₁ ts _ hts => .of_describes fun h hW => ?_
    obtain ⟨os, hos⟩ := hW.denotesAll hts
    refine .get fun s hs => ?_
    cases ha : s.builtins.address? name with
    | none => exact .pure trivial
    | some a =>
      obtain ⟨o, ho⟩ := hs.operations name a ha
      obtain ⟨p, supplied, args', -, rfl, -⟩ := hW.builtin ho
      exact .get fun s _ => answer_maintains keep fun m hm =>
        supply_matches (evaluate_follows W₁ s.limit ampleFuel) hm ho hos
  | inspect r =>
    exact .bind (build_maintains W r) fun _ _ _ _ => .get fun _ _ => .pure trivial
  | debug r =>
    exact .bind (build_maintains W r) fun _ _ _ _ => .get fun _ _ => .pure trivial
  | debugEnv env => exact .bind (environment_maintains W env) fun _ _ _ _ => .pure trivial
  | freeVars r => exact .bind (build_maintains W r) fun _ _ _ _ => .pure trivial
  | compare a b =>
    refine .bind (build_maintains W a) fun W₁ _ _ _ => ?_
    exact .bind (build_maintains W₁ b) fun _ _ _ _ => .get fun _ _ => .pure trivial
  | tableName ids => exact .pure trivial
  | names => exact .get fun _ _ => .pure trivial

theorem steps_maintains (W : World) {sts : List Step} (hsts : ∀ st ∈ sts, ¬ st.Memoizes) :
    Maintains W (Session.steps sts) fun _ _ => True := by
  induction sts generalizing W with
  | nil => exact .pure trivial
  | cons st sts ih =>
    obtain ⟨hst, hsts⟩ := List.forall_mem_cons.1 hsts
    refine .bind (step_maintains W hst) fun W₁ _ _ _ => ?_
    exact .bind (ih W₁ hsts) fun _ _ _ _ => .pure trivial

/-! ### The start -/

/-- The integers and the standard operations. -/
def standard : World
  | .int v => some (.int v)
  | .builtin a => Primitive.standard[a]?.map (.builtin · [])
  | _ => none

lemma knows_standard {a : Addr} (ha : a < Builtins.standard.entries.length) :
    standard.Knows (.builtin a) := by
  rw [Builtins.standard_entries, List.length_map] at ha
  refine ⟨.builtin Primitive.standard[a] [], ?_⟩
  rw [standard, List.getElem?_eq_getElem ha]
  rfl

lemma describes_standard : Describes standard standard Builtins.standard.heap where
  grows := .refl standard
  int _ := rfl
  thunks a ha := absurd ha (Nat.not_lt_zero a)
  object t o ho := by
    cases t with
    | int v =>
      obtain rfl := Option.some.inj ho
      exact .int v
    | builtin a =>
      obtain ⟨p, hp, rfl⟩ := Option.map_eq_some_iff.1 ho
      have hentry : Builtins.standard.heap.builtins[a]? = some (p.builtin []) := by
        simp [Builtins.heap, Builtins.standard_entries, hp]
      exact .builtin hentry .nil
    | _ => cases ho

lemma describesSession_start (limit : Option ℕ) (tracing : Bool) :
    standard.DescribesSession (.start .standard limit tracing) where
  heap := describes_standard
  terms _ hp := absurd hp List.not_mem_nil
  envs _ hp := absurd hp List.not_mem_nil
  table q hq := by
    obtain ⟨i, hi, rfl⟩ := List.mem_mapIdx.1 (List.mem_reverse.1 hq)
    exact knows_standard hi
  operations name a ha := by
    obtain ⟨hlt, -⟩ := List.findIdx?_eq_some_iff_getElem.1 ha
    rw [Builtins.names, List.length_map] at hlt
    exact knows_standard hlt

/-- What a session without steps that store values has come to is described. -/
theorem exists_describes {sts : List Step} (hsts : ∀ st ∈ sts, ¬ st.Memoizes) {limit : Option ℕ}
    {tracing : Bool} {answers : List Letrec.Answer} {s : Session}
    (hrun : Session.steps sts (.start .standard limit tracing) = .ok answers s) :
    ∃ W, Describes W W s.machine.heap := by
  obtain ⟨W, -, hW, -⟩ :=
    steps_maintains standard hsts _ _ _ (describesSession_start limit tracing) hrun
  exact ⟨W, hW.heap⟩

end World

end Unshared

end Letrec
