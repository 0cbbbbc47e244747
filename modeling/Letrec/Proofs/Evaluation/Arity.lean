import Mathlib
import Letrec.Compilation

/-!
# Operations run with exactly their arguments

An operation can be given any behaviour on lists of another length than its arity, and no run
notices: `run_elsewhere`.  Changing the operations of a machine in this way commutes with every rule
of evaluation, since the one rule that runs an operation has counted the arguments before.
-/

namespace Letrec

variable (other : String → Operation)

/-- The operation with another behaviour where the number of arguments is not its arity. -/
def Builtin.elsewhere (b : Builtin) : Builtin :=
  { b with op := fun args => if args.length = b.arity then b.op args else other b.name args }

/-- The table with the operations changed elsewhere. -/
def Builtins.elsewhere (bs : Builtins) : Builtins := ⟨bs.entries.map (Builtin.elsewhere other)⟩

/-- The heap with the operations changed elsewhere. -/
def Heap.elsewhere (h : Heap) : Heap :=
  { h with builtins := h.builtins.map (Builtin.elsewhere other) }

/-- The machine with the operations changed elsewhere. -/
def Machine.elsewhere (m : Machine) : Machine := { m with heap := m.heap.elsewhere other }

/-! ### What can be read is the same -/

section Reading

lemma Heap.builtin_elsewhere (h : Heap) (a : Addr) :
    (h.elsewhere other).builtin a = (h.builtin a).elsewhere other ∨
      (h.elsewhere other).builtin a = default ∧ h.builtin a = default := by
  unfold Heap.builtin Heap.elsewhere
  dsimp only
  rw [Array.getElem?_map]
  cases h.builtins[a]? with
  | none => exact Or.inr ⟨rfl, rfl⟩
  | some b => exact Or.inl rfl

variable {other}

lemma Heap.objectText_elsewhere (h : Heap) (inner : Term → String) :
    (h.elsewhere other).objectText inner = h.objectText inner := by
  funext t
  cases t with
  | builtin a =>
    show ((h.elsewhere other).builtin a).text = (h.builtin a).text
    rcases h.builtin_elsewhere other a with heq | ⟨heq, heq'⟩
    · rw [heq]
      rfl
    · rw [heq, heq']
  | _ => rfl

lemma Heap.textUpTo_elsewhere (h : Heap) (n : ℕ) :
    (h.elsewhere other).textUpTo n = h.textUpTo n := by
  induction n with
  | zero => rfl
  | succ n ih => rw [textUpTo, textUpTo, ih, objectText_elsewhere]

lemma Heap.text_elsewhere (h : Heap) : (h.elsewhere other).text = h.text := by
  funext t
  exact congrFun (h.textUpTo_elsewhere h.hops) t

lemma Heap.asInt?_elsewhere (h : Heap) : (h.elsewhere other).asInt? = h.asInt? := by
  have hupto : ∀ n, (h.elsewhere other).asIntUpTo n = h.asIntUpTo n := by
    intro n
    induction n with
    | zero =>
      funext t
      cases t <;> rfl
    | succ n ih =>
      funext t
      cases t with
      | thunk a =>
        show (h.memo? a).bind ((h.elsewhere other).asIntUpTo n) = _
        rw [ih]
        rfl
      | _ => rfl
  funext t
  exact congrFun (hupto h.hops) t

end Reading

/-! ### Runs are the same -/

namespace EvalM

variable {α β : Type}

/-- Change the operations of the machine that a run has left. -/
def elsewhere : EStateM.Result Halt Machine α → EStateM.Result Halt Machine α
  | .ok a m => .ok a (m.elsewhere other)
  | .error e m => .error e (m.elsewhere other)

/-- The computation does the same on a machine whose operations are changed elsewhere. -/
def Unmoved (x : EvalM α) : Prop := ∀ m, x (m.elsewhere other) = elsewhere other (x m)

variable {other}

lemma Unmoved.pure (a : α) : Unmoved other (pure a) := fun _ => rfl

lemma Unmoved.throw (e : Halt) : Unmoved other (throw e : EvalM α) := fun _ => rfl

lemma Unmoved.bind {x : EvalM α} {f : α → EvalM β} (hx : Unmoved other x)
    (hf : ∀ a, Unmoved other (f a)) : Unmoved other (x >>= f) := by
  intro m
  simp only [Bind.bind, EStateM.bind]
  rw [hx m]
  cases x m with
  | ok a m' => exact hf a m'
  | error e m' => rfl

lemma Unmoved.readHeap {g : Heap → α} (h : ∀ heap : Heap, g (heap.elsewhere other) = g heap) :
    Unmoved other (EvalM.readHeap g) := by
  intro m
  exact congrArg (EStateM.Result.ok · (m.elsewhere other)) (h m.heap)

lemma Unmoved.modifyGet {g : Machine → α × Machine}
    (h : ∀ m, g (m.elsewhere other) = ((g m).1, (g m).2.elsewhere other)) :
    Unmoved other (modifyGet g) := by
  intro m
  show EStateM.modifyGet g (m.elsewhere other) = elsewhere other (EStateM.modifyGet g m)
  simp only [EStateM.modifyGet, h m, elsewhere]

lemma Unmoved.modify {g : Machine → Machine}
    (h : ∀ m, g (m.elsewhere other) = (g m).elsewhere other) : Unmoved other (modify g) :=
  .modifyGet fun m => by simp only [h m]

lemma Unmoved.nested {x : EvalM α} (limit : Option ℕ) (h : Unmoved other x) :
    Unmoved other (EvalM.nested limit x) := by
  intro m
  rw [EvalM.nested, EvalM.nested, show (m.elsewhere other).depth = m.depth from rfl]
  cases limit.filter (· ≤ m.depth) with
  | some l => rfl
  | none =>
    have hx := h { m with depth := m.depth + 1, peak := max m.peak (m.depth + 1) }
    dsimp only [Machine.elsewhere] at hx ⊢
    rw [hx]
    cases x { m with depth := m.depth + 1, peak := max m.peak (m.depth + 1) } <;> rfl

lemma trace_elsewhere {e : Heap → Event} (he : ∀ h : Heap, e (h.elsewhere other) = e h)
    (m : Machine) : (m.elsewhere other).trace e = (m.trace e).elsewhere other := by
  unfold Machine.trace
  show (if m.tracing then _ else _) = _
  split_ifs
  · show Machine.mk _ _ _ _ _ (m.log.push (e (m.heap.elsewhere other))) = _
    rw [he]
    rfl
  · rfl

variable (other) in
lemma newBuiltin_elsewhere (m : Machine) (b : Builtin) :
    (m.elsewhere other).newBuiltin (b.elsewhere other)
      = ((m.newBuiltin b).1, (m.newBuiltin b).2.elsewhere other) := by
  simp [Machine.newBuiltin, Machine.elsewhere, Heap.elsewhere, Heap.pushBuiltin]

lemma suspend_unmoved (t : Term) (env : Env) : Unmoved other (suspend t env) := by
  have hnew : Unmoved other (modifyGet (·.newThunk t env)) := by
    refine .modifyGet fun m => ?_
    rw [Machine.newThunk]
    rw [trace_elsewhere fun h => by rw [Heap.text_elsewhere]; rfl]
    rfl
  unfold suspend
  split_ifs
  · exact .pure t
  · split
    · split
      · split_ifs
        · exact .pure _
        · exact hnew
      · exact hnew
    · exact hnew

section Rules

variable {ev : Evaluator} (hev : ∀ t env, Unmoved other (ev t env))

include hev

lemma forceThunk_unmoved (a : Addr) : Unmoved other (forceThunk ev a) := by
  rw [forceThunk]
  refine .bind (.readHeap fun _ => rfl) fun c => ?_
  cases c.memo with
  | some v => exact .pure v
  | none =>
    refine .bind (.modify (trace_elsewhere fun h => by rw [Heap.text_elsewhere])) fun _ => ?_
    exact .bind (hev _ _) fun v => .modifyGet fun _ => rfl

lemma perform_unmoved (act : Action) : Unmoved other (perform ev act) := by
  induction act with
  | done t => exact .pure t
  | fail e => exact .throw _
  | missingOperand => exact .throw _
  | force t next ih =>
    have hforce : Unmoved other (force ev t) := by
      cases t with
      | thunk a => exact forceThunk_unmoved hev a
      | _ => exact hev _ _
    exact .bind hforce ih
  | asInt t otherwise next ih =>
    rw [perform]
    refine .bind (.readHeap fun h => by rw [Heap.asInt?_elsewhere]) fun o => ?_
    cases o with
    | some i => exact ih i
    | none => exact .bind (.readHeap fun h => by rw [Heap.text_elsewhere]) fun s => .throw _
  | record label t next ih =>
    refine .bind (.modify fun m => ?_) fun _ => ih
    rw [Machine.record]
    show Machine.mk _ _ _ (m.ticks.push (label ++ " " ++ (m.heap.elsewhere other).text t)) _ _ = _
    rw [Heap.text_elsewhere]
    rfl

/-- The rule that runs operations compares the number of arguments with the arity first. -/
lemma applyBuiltin_unmoved (a : Addr) (args : List Term) :
    Unmoved other (applyBuiltin ev a args) := by
  have hinvoke : ∀ (name : String) (act : Action),
      Unmoved other (do modify (·.trace fun _ => .invoking name); perform ev act) :=
    fun name act => .bind (.modify (trace_elsewhere fun _ => rfl)) fun _ => perform_unmoved hev act
  intro m
  rw [applyBuiltin]
  simp only [EvalM.readHeap, bind, EStateM.bind]
  rcases m.heap.builtin_elsewhere other a with heq | ⟨heq, heq'⟩
  · have hread : (m.elsewhere other).heap.builtin a = (m.heap.builtin a).elsewhere other := heq
    rw [hread]
    generalize m.heap.builtin a = b
    have harity : (b.elsewhere other).arity = b.arity := rfl
    have hsupplied : (b.elsewhere other).supplied = b.supplied := rfl
    rw [harity, hsupplied]
    split_ifs with hmany hfew
    · rfl
    · have hnew := newBuiltin_elsewhere other m { b with supplied := b.supplied ++ args }
      show EStateM.modifyGet (·.newBuiltin (Builtin.elsewhere other
        { b with supplied := b.supplied ++ args })) (m.elsewhere other) = _
      rw [EStateM.modifyGet, hnew]
      rfl
    · have hexact : (b.supplied ++ args).length = b.arity := by omega
      have hop : (b.elsewhere other).op (b.supplied ++ args) = b.op (b.supplied ++ args) :=
        if_pos hexact
      rw [hop]
      exact hinvoke b.name (b.op (b.supplied ++ args)) m
  · have hread : (m.elsewhere other).heap.builtin a = default := heq
    rw [hread, heq']
    split_ifs with hmany hfew
    · rfl
    · exact absurd hfew (Nat.not_lt_zero _)
    · exact hinvoke _ _ m

lemma call_unmoved (n : ℕ) (f arg : Term) : Unmoved other (call ev n f arg) := by
  induction n generalizing f with
  | zero =>
    cases f with
    | closure a => exact .bind (.readHeap fun _ => rfl) fun c => hev _ _
    | builtin a => exact applyBuiltin_unmoved hev a [arg]
    | thunk a => exact .throw _
    | _ => exact .bind (.readHeap fun h => by rw [Heap.text_elsewhere]) fun _ => .throw _
  | succ n ih =>
    cases f with
    | closure a => exact .bind (.readHeap fun _ => rfl) fun c => hev _ _
    | builtin a => exact applyBuiltin_unmoved hev a [arg]
    | thunk a => exact .bind (forceThunk_unmoved hev a) fun f => ih f
    | _ => exact .bind (.readHeap fun h => by rw [Heap.text_elsewhere]) fun _ => .throw _

lemma step_unmoved (n : ℕ) (t : Term) (env : Env) : Unmoved other (step ev n t env) := by
  cases t with
  | int v => exact .pure _
  | closure a => exact .pure _
  | builtin a => exact .pure _
  | thunk a => exact forceThunk_unmoved hev a
  | lam x b => exact .modifyGet fun _ => rfl
  | var x =>
    unfold EvalM.step
    dsimp only
    split
    · exact forceThunk_unmoved hev _
    · exact hev _ _
    · exact .throw _
  | app f a =>
    exact .bind (hev f env) fun f => .bind (suspend_unmoved a env) fun a => call_unmoved hev n f a

end Rules

end EvalM

lemma evaluate_unmoved (limit : Option ℕ) (n : ℕ) (t : Term) (env : Env) :
    EvalM.Unmoved other (evaluate limit n t env) := by
  induction n generalizing t env with
  | zero => exact .throw _
  | succ n ih => exact .nested limit (EvalM.step_unmoved ih n t env)

/-! ### Programs -/

namespace Builtins

lemma names_elsewhere (bs : Builtins) : (bs.elsewhere other).names = bs.names := by
  unfold names elsewhere
  rw [List.map_map]
  rfl

lemma env_elsewhere (bs : Builtins) : (bs.elsewhere other).env = bs.env := by
  unfold env elsewhere
  simp [List.mapIdx_eq_zipIdx_map, List.zipIdx_map, Builtin.elsewhere, Function.comp_def]

lemma ofBuiltins_elsewhere (bs : Builtins) (tracing : Bool) :
    Machine.ofBuiltins (bs.elsewhere other) tracing
      = (Machine.ofBuiltins bs tracing).elsewhere other := by
  simp [Machine.ofBuiltins, Machine.elsewhere, heap, Heap.elsewhere, elsewhere]

end Builtins

/-- What operations do with another number of arguments than their arity never matters. -/
theorem run_elsewhere (bs : Builtins) (opts : Options) (tracing : Bool) (p : Program Span) :
    (run (bs.elsewhere other) opts tracing p).result = (run bs opts tracing p).result := by
  have hlog : ((Machine.ofBuiltins bs tracing).elsewhere other).log
      = (Machine.ofBuiltins bs tracing).log := rfl
  unfold run
  dsimp only
  rw [Builtins.names_elsewhere, Builtins.ofBuiltins_elsewhere, hlog]
  cases compile bs.names opts.entry p (Machine.ofBuiltins bs tracing).log with
  | error e log => rfl
  | ok c log =>
    dsimp only
    unfold evaluateIn
    rw [Builtins.env_elsewhere]
    have hrun := evaluate_unmoved other opts.maxDepth
      (ampleFuel + opts.maxDepth.getD 0) c.term bs.env
      { Machine.ofBuiltins bs tracing with log }
    dsimp only [Machine.elsewhere] at hrun ⊢
    rw [hrun]
    cases evaluate opts.maxDepth (ampleFuel + opts.maxDepth.getD 0) c.term bs.env
      { Machine.ofBuiltins bs tracing with log } <;> rfl

end Letrec
