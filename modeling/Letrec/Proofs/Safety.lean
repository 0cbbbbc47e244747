import Mathlib
import Letrec.Proofs.Primitive
import Letrec.Proofs.Evaluation.Arity
import Letrec.Proofs.Evaluation.Invariant

/-!
# Programs do not get stuck

A program that compiles is closed over the names of the builtin operations, and the heap of a table
is complete; so the invariant of evaluation holds from the first step on.  A run then never ends
because a variable is unbound or a builtin operation has the wrong number of arguments, and a
program that has a value has an integer, a function or an operation that waits for arguments:
`run_safe`.
-/

namespace Letrec

/-- A value of the heap: an integer, a closure, or a builtin operation with fewer arguments than it
takes. -/
def Heap.IsAnswer (h : Heap) : Term → Prop
  | .int _ => True
  | .closure a => a < h.closures.size
  | .builtin a => ∃ b, h.builtins[a]? = some b ∧ b.supplied.length < b.arity
  | .var _ | .lam _ _ | .app _ _ | .thunk _ => False

/-- The run did not get stuck, and its value, if it has one, needs no further evaluation. -/
structure Outcome.Safe (o : Outcome) : Prop where
  failed : ∀ e, o.result = .error (.eval (.failed e)) → ¬ e.IsStuck
  operands : o.result ≠ .error (.eval .missingOperand)
  value : ∀ v, o.result = .ok v → o.machine.heap.IsAnswer v

/-- A table whose operations take at least one argument, force their arguments and return values. -/
def Builtins.OnlyForce (bs : Builtins) : Prop :=
  ∀ b ∈ bs.entries, b.supplied = [] ∧ 1 ≤ b.arity ∧ b.OnlyForces

lemma Heap.Complete.isAnswer {h : Heap} (hh : h.Complete) {v : Term} (hv : h.Has v)
    (hval : v.IsValue) : h.IsAnswer v := by
  cases v with
  | int i => trivial
  | closure a => exact hv
  | builtin a =>
    have hb : h.builtins[a]? = some h.builtins[a] := Array.getElem?_eq_getElem hv
    exact ⟨_, hb, (hh.builtin hb).1⟩
  | var x => exact hval.elim
  | lam x b => exact hval.elim
  | app f a => exact hval.elim
  | thunk a => exact hval.elim

/-! ### The start of a run -/

section Start

variable {bs : Builtins}

lemma Builtins.complete_heap (hbs : bs.OnlyForce) : bs.heap.Complete where
  closure ha := by simp [Builtins.heap] at ha
  thunk ha := by simp [Builtins.heap] at ha
  builtin {a b} ha := by
    have hb : b ∈ bs.entries := by
      have hget : bs.entries[a]? = some b := by simpa [Builtins.heap] using ha
      exact List.mem_of_getElem? hget
    obtain ⟨hsupplied, harity, hop⟩ := hbs b hb
    refine ⟨?_, ?_, hop⟩
    · rw [hsupplied]
      exact harity
    · simp [hsupplied]

lemma Builtins.mem_names_env {x : String} (hx : x ∈ bs.names) : x ∈ bs.env.names := by
  obtain ⟨b, hb, rfl⟩ := List.mem_map.1 hx
  obtain ⟨i, hi, rfl⟩ := List.getElem_of_mem hb
  refine List.mem_map.2 ⟨(bs.entries[i].name, .builtin i), ?_, rfl⟩
  exact List.mem_reverse.2 (List.mem_mapIdx.2 ⟨i, hi, rfl⟩)

lemma Builtins.has_env (bs : Builtins) : ∀ q ∈ bs.env, bs.heap.Has q.2 := by
  intro q hq
  unfold Builtins.env at hq
  obtain ⟨i, hi, rfl⟩ := List.mem_mapIdx.1 (List.mem_reverse.1 hq)
  simpa [Heap.Has, Builtins.heap] using hi

/-- Nothing is free in the term of a program but names of the table. -/
lemma closedIn_of_compile {entry : String} {p : Program Span} {c : Compiled}
    {log log' : Array Event} (hc : compile bs.names entry p log = .ok c log')
    (hif : "if" ∈ bs.names) (heq : "==" ∈ bs.names) : c.term.ClosedIn {x | x ∈ bs.env.names} :=
  (compile_closed hc hif heq).mono fun _ hx => Builtins.mem_names_env hx

/-- To run a program that compiles is to evaluate its term. -/
lemma run_of_compile {opts : Options} {p : Program Span} {c : Compiled} {log : Array Event}
    (hc : compile bs.names opts.entry p #[] = .ok c log) (tracing : Bool) :
    run bs opts tracing p
      = evaluateIn bs opts.maxDepth c.term { Machine.ofBuiltins bs tracing with log } := by
  have hc' : compile bs.names opts.entry p (Machine.ofBuiltins bs tracing).log = .ok c log := hc
  rw [run, hc']

/-- A program that does not compile is not evaluated. -/
lemma compile_error_ne_eval {names : List String} {entry : String} {p : Program Span}
    {log log' : Array Event} {t : Halt} : compile names entry p log ≠ .error (.eval t) log' := by
  intro h
  unfold compile at h
  rcases bind_eq_error h with h | ⟨r, log₁, -, h⟩
  · obtain ⟨e, he⟩ := adaptExcept_eq_error h
    exact absurd he (by simp)
  rcases bind_eq_error h with h | ⟨c, log₂, -, h⟩
  · exact absurd h (by simp [Resolution.classifyReporting, Reporting.reportAll, bind, EStateM.bind,
      modify, modifyGet, MonadStateOf.modifyGet, EStateM.modifyGet, pure, EStateM.pure])
  rcases bind_eq_error h with h | ⟨u, log₃, -, h⟩
  · obtain ⟨e, he⟩ := adaptExcept_eq_error h
    exact absurd he (by simp)
  exact absurd h (by simp [Reporting.report, bind, EStateM.bind,
      modify, modifyGet, MonadStateOf.modifyGet, EStateM.modifyGet, pure, EStateM.pure])

end Start

/-- Over a table whose operations force their arguments and return values, no program gets stuck,
and no operation is run with another number of arguments than its arity. -/
theorem run_safe {bs : Builtins} (hbs : bs.OnlyForce) (hif : "if" ∈ bs.names)
    (heq : "==" ∈ bs.names) (opts : Options) (tracing : Bool) (p : Program Span) :
    (run bs opts tracing p).Safe ∧ ∀ other,
      (run (bs.elsewhere other) opts tracing p).result = (run bs opts tracing p).result := by
  refine ⟨?_, fun other => run_elsewhere other bs opts tracing p⟩
  unfold run
  dsimp only
  cases hc : compile bs.names opts.entry p (Machine.ofBuiltins bs tracing).log with
  | error e log =>
    refine ⟨fun e' he' => ?_, fun he' => ?_, fun v hv => absurd hv (by simp)⟩
    · obtain rfl := Except.error.inj he'
      exact absurd hc compile_error_ne_eval
    · obtain rfl := Except.error.inj he'
      exact absurd hc compile_error_ne_eval
  | ok c log =>
    dsimp only
    have hclosed := closedIn_of_compile hc hif heq
    have hsafe := (evaluate_safe opts.maxDepth (ampleFuel + opts.maxDepth.getD 0)).covered
      (m := { Machine.ofBuiltins bs tracing with log }) (t := c.term) (Builtins.complete_heap hbs)
      ⟨hclosed, bs.has_env⟩
    obtain ⟨hok, hfailed, hmissing⟩ := EvalM.ensures_iff.1 hsafe
    unfold evaluateIn
    cases hrun : evaluate opts.maxDepth (ampleFuel + opts.maxDepth.getD 0) c.term bs.env
        { Machine.ofBuiltins bs tracing with log } with
    | ok v m =>
      obtain ⟨hm, -, hhas, hval⟩ := hok v m hrun
      refine ⟨fun e he => absurd he (by simp), by simp, fun v' hv' => ?_⟩
      obtain rfl := Except.ok.inj hv'
      exact hm.isAnswer hhas hval
    | error t m =>
      refine ⟨fun e he => ?_, fun he => ?_, fun v hv => absurd hv (by simp)⟩
      · obtain rfl := Failure.eval.inj (Except.error.inj he)
        exact hfailed e m hrun
      · obtain rfl := Failure.eval.inj (Except.error.inj he)
        exact hmissing m hrun

/-! ### The standard table -/

/-- The only error that a standard operation has of its own. -/
lemma Primitive.divisionByZero_of_error {name : String}
    {f : Int64 → Int64 → Except EvalError Int64} (h : binary name f ∈ standard) {x y : Int64}
    {e : EvalError} (he : f x y = .error e) : e = .divisionByZero := by
  simp only [standard, arithmetic, comparison, division, List.mem_cons, binary.injEq,
    List.not_mem_nil, reduceCtorEq, or_false] at h
  rcases h with h | h | h | h | h | h | h | h | h | h | h <;> obtain ⟨-, rfl⟩ := h
  case inr.inr.inr.inr.inl =>
    dsimp only at he
    split_ifs at he
    exact (Except.error.inj he).symm
  all_goals exact absurd he (by simp)

lemma Primitive.onlyForces_of_mem_standard {p : Primitive} (h : p ∈ standard) :
    (p.builtin []).OnlyForces := by
  intro args hargs
  cases p with
  | binary name f =>
    obtain ⟨a, b, rfl⟩ := List.length_eq_two.1 hargs
    refine .force (by simp) fun v _ => .asInt (by simp) (fun _ => id) fun x => ?_
    refine .force (by simp) fun w _ => .asInt (by simp) (fun _ => id) fun y => ?_
    dsimp only
    cases hf : f x y with
    | ok i => exact .int
    | error e =>
      refine .fail ?_
      rw [divisionByZero_of_error h hf]
      exact id
  | conditional =>
    obtain ⟨c, t, e, rfl⟩ := List.length_eq_three.1 hargs
    refine .force (by simp) fun v _ => .asInt (by simp) (fun _ => id) fun i => ?_
    refine .force ?_ fun w _ => .value (by simp)
    split_ifs <;> simp

lemma Builtins.standard_onlyForce : Builtins.standard.OnlyForce := by
  intro b hb
  rw [standard_entries] at hb
  obtain ⟨p, hp, rfl⟩ := List.mem_map.1 hb
  refine ⟨rfl, ?_, Primitive.onlyForces_of_mem_standard hp⟩
  cases p with
  | binary name f => exact one_le_two
  | conditional => exact Nat.one_le_iff_ne_zero.2 (Nat.succ_ne_zero 2)

lemma Builtins.OnlyForce.insert {bs : Builtins} (hbs : bs.OnlyForce) {name : String} {arity : ℕ}
    {op : Operation} (harity : 1 ≤ arity) (hop : ({ name, arity, op } : Builtin).OnlyForces) :
    (bs.insert name arity op).OnlyForce := by
  intro b hb
  rcases mem_insertInto hb with rfl | hb
  · exact ⟨rfl, harity, hop⟩
  · exact hbs b hb

lemma Probe.sequence_onlyForces (name : String) {args vs ts : List Term} {last : Term}
    (hts : ts ⊆ args) (hlast : (∃ i, last = .int i) ∨ last ∈ vs) :
    (sequence name last ts).OnlyForces args vs := by
  induction ts generalizing last vs with
  | nil =>
    rcases hlast with ⟨i, rfl⟩ | hlast
    · exact .int
    · exact .value hlast
  | cons t ts ih =>
    obtain ⟨ht, hts⟩ := List.cons_subset.1 hts
    refine .force (List.mem_append_left _ ht) fun v _ => .record (by simp) ?_
    exact ih hts (Or.inr List.mem_cons_self)

/-- All probes may be added to a table but `raw`, which returns its argument as it stands. -/
lemma Probe.onlyForces (name : String) {p : Probe} (hp : p ≠ .raw) {arity : ℕ}
    (harity : 1 ≤ arity) : ({ name, arity, op := p.op name } : Builtin).OnlyForces := by
  intro args hargs
  have hpos : 0 < args.length := Nat.lt_of_lt_of_eq harity hargs.symm
  obtain ⟨t, ts, rfl⟩ := List.exists_cons_of_length_pos hpos
  cases p with
  | tick => exact .force (by simp) fun v _ => .record (by simp) (.value (by simp))
  | raw => exact absurd rfl hp
  | seq => exact sequence_onlyForces name (List.Subset.refl _) (Or.inl ⟨0, rfl⟩)
  | count => exact .int
  | int => exact .force (by simp) fun v _ => .asInt (by simp) (fun _ => id) fun i => .int

lemma Term.exists_addr_of_kind {t : Term} (h : t.kind = .builtin) : ∃ a, t = .builtin a := by
  cases t with
  | builtin a => exact ⟨a, rfl⟩
  | _ => exact absurd h (by simp [Term.kind])

/-- A recursive definition that ends with an operation that waits for its second argument. -/
def countdown : Program Span where
  defs :=
    [⟨⟨"main", .nowhere⟩, [],
      .call (.ident ⟨"count", .nowhere⟩) (.int 2 .nowhere) .nowhere, .nowhere⟩,
     ⟨⟨"count", .nowhere⟩, [⟨"n", .nowhere⟩],
      .ite (.ident ⟨"n", .nowhere⟩)
        (.call (.ident ⟨"count", .nowhere⟩)
          (.callAll (.ident ⟨"-", .nowhere⟩) [.ident ⟨"n", .nowhere⟩, .int 1 .nowhere] .nowhere)
          .nowhere)
        (.call (.ident ⟨"+", .nowhere⟩) (.int 1 .nowhere) .nowhere) .nowhere, .nowhere⟩]
  ann := .nowhere

theorem run_safe_countdown : Builtins.standard.OnlyForce ∧ "if" ∈ Builtins.standard.names ∧
    "==" ∈ Builtins.standard.names ∧ ∃ a b o, run .standard {} false countdown = o ∧
      o.result = .ok (.builtin a) ∧ o.machine.heap.builtins[a]? = some b ∧
      b.supplied.length < b.arity ∧
      ∀ other, (run (Builtins.standard.elsewhere other) {} false countdown).result = o.result := by
  have hif : "if" ∈ Builtins.standard.names := by decide +kernel
  have heq : "==" ∈ Builtins.standard.names := by decide +kernel
  have hkind : (match (run .standard {} false countdown).result with
      | .ok v => some v.kind
      | .error _ => none) = some .builtin := by
    decide +kernel
  obtain ⟨hsafe, harity⟩ := run_safe Builtins.standard_onlyForce hif heq {} false countdown
  generalize run .standard {} false countdown = o at hkind hsafe harity ⊢
  refine ⟨Builtins.standard_onlyForce, hif, heq, ?_⟩
  cases hv : o.result with
  | error e =>
    rw [hv] at hkind
    exact absurd hkind (by simp)
  | ok v =>
    rw [hv] at hkind harity
    obtain ⟨a, rfl⟩ := Term.exists_addr_of_kind (Option.some.inj hkind)
    obtain ⟨b, hb, hlt⟩ := hsafe.value _ hv
    exact ⟨a, b, o, rfl, hv, hb, hlt, hv ▸ harity⟩

end Letrec
