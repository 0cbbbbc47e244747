import Mathlib
import Letrec.Proofs.ByName.Sharing
import Letrec.Proofs.Evaluation.Limit
import Letrec.Proofs.Safety
import Letrec.Proofs.Surface.Program

/-!
# Lowering keeps the meaning of programs

A program that compiles can be run in two ways: evaluated as it is written (`Surface.Means`), or
lowered and evaluated by the machine under a limit on the nesting.  The results are the same:
`run_iff_means`.  On the way from one to the other there are three steps: from the program to its
term, both evaluated by name; from evaluation by name to the machine without a limit; and from there
to the machine with a limit that is high enough.
-/

namespace Letrec

/-- The outcome is this integer, or an error of this kind. -/
def Outcome.Returns (o : Outcome) : Except EvalError.Kind Int64 → Prop
  | .ok v => o.result = .ok (.int v)
  | .error k => ∃ e, o.result = .error (.eval (.failed e)) ∧ e.kind = k

/-- The end of a run is this integer, or an error of this kind. -/
def EndsWith (r : Except EvalError.Kind Int64) (s : EStateM.Result Halt Machine Term) : Prop :=
  match r with
  | .ok v => ∃ m, s = .ok (.int v) m
  | .error k => ∃ e m, s = .error (.failed e) m ∧ e.kind = k

lemma EndsWith.finished {r : Except EvalError.Kind Int64} (hr : r ≠ .error .recursionLimit)
    {s : EStateM.Result Halt Machine Term} (h : EndsWith r s) :
    EvalM.Finished EvalM.OutOfFuel s ∧ EvalM.Finished EvalM.AtLimit s := by
  cases r with
  | ok v =>
    obtain ⟨m, rfl⟩ := h
    exact ⟨fun e m' heq => (nomatch heq), fun e m' heq => (nomatch heq)⟩
  | error k =>
    obtain ⟨e, m, rfl, rfl⟩ := h
    refine ⟨?_, ?_⟩
    · rintro _ _ heq ⟨⟩
      exact nomatch heq
    · rintro _ _ heq ⟨l, rfl⟩
      obtain rfl := Halt.failed.inj (EStateM.Result.error.inj heq).1
      exact hr rfl

/-! ### The machine and evaluation by name -/

section Machine

open ByName

lemma denotesEnv_standard :
    (World.ofHeap Builtins.standard.heap).DenotesEnv Builtins.standard.env ByName.standard := by
  unfold World.DenotesEnv Builtins.env ByName.standard
  rw [List.forall₂_reverse_iff, List.forall₂_iff_get]
  have hlen : Builtins.standard.entries.length = Primitive.standard.length := by
    rw [Builtins.standard_entries, List.length_map]
  refine ⟨by simpa using hlen, fun i hi hi' => ?_⟩
  have hi'' : i < Primitive.standard.length := by simpa using hi'
  have hentry : Builtins.standard.entries[i]? = some (Primitive.standard[i].builtin []) := by
    rw [Builtins.standard_entries, List.getElem?_map, List.getElem?_eq_getElem hi'']
    rfl
  have hunfolds : Unfolds Builtins.standard.heap (.builtin i)
      (.builtin Primitive.standard[i] []) := by
    refine .builtin (s := []) ?_ rfl (by simp)
    simpa [Builtins.heap] using hentry
  obtain ⟨hlt, hget⟩ := List.getElem?_eq_some_iff.1 hentry
  simp only [List.get_eq_getElem, List.getElem_mapIdx, List.getElem_map, hget]
  exact ⟨rfl, .object (World.ofHeap_eq_some.2 hunfolds)⟩

lemma shown?_eq_int {h : Heap} {t : Term} {v : Int64} (ht : shown? h t = some (.int v)) :
    t = .int v := by
  cases t with
  | int i => rw [Shown.int.inj (Option.some.inj ht)]
  | _ => exact absurd ht (by simp [shown?])

lemma Object.shown?_eq_int {w : ByName.Object} {v : Int64} (hw : w.shown? = some (.int v)) :
    w = .int v := by
  cases w with
  | int i => rw [Shown.int.inj (Option.some.inj hw)]
  | _ => exact absurd hw (by simp [ByName.Object.shown?])

variable {m : Machine} (hm : m.heap = Builtins.standard.heap) {t : Term} (ht : t.Lowered)

include hm ht

lemma endsWith_ok_iff {v : Int64} :
    (∃ n, EndsWith (.ok v) (evaluate none n t Builtins.standard.env m)) ↔
      Evaluates t ByName.standard (.ok (.int v)) := by
  have hW := World.describes_ofHeap m.heap
  have henv : (World.ofHeap m.heap).DenotesEnv Builtins.standard.env ByName.standard :=
    hm ▸ denotesEnv_standard
  constructor
  · rintro ⟨n, m', hn⟩
    obtain ⟨w, hw, hshown, -⟩ := (evaluates_of_evaluate hW henv ht).1 _ m' hn
    obtain rfl := Object.shown?_eq_int hshown.symm
    exact hw
  · intro hv
    obtain ⟨n, ⟨v', m', w, hn, heq, hshown, -⟩ | ⟨e, m', -, heq⟩⟩ :=
      evaluate_of_evaluates hW henv ht hv
    · obtain rfl := Except.ok.inj heq
      obtain rfl := shown?_eq_int hshown
      exact ⟨n, m', hn⟩
    · exact absurd heq (by simp)

lemma endsWith_error_iff {k : EvalError.Kind} :
    (∃ n, EndsWith (.error k) (evaluate none n t Builtins.standard.env m)) ↔
      ∃ e, e.kind = k ∧ Evaluates t ByName.standard (.error e) := by
  have hW := World.describes_ofHeap m.heap
  have henv : (World.ofHeap m.heap).DenotesEnv Builtins.standard.env ByName.standard :=
    hm ▸ denotesEnv_standard
  constructor
  · rintro ⟨n, e, m', hn, hk⟩
    exact ⟨e, hk, (evaluates_of_evaluate hW henv ht).2.1 e m' hn⟩
  · rintro ⟨e, hk, he⟩
    obtain ⟨n, ⟨v', m', w, -, heq, -⟩ | ⟨e', m', hn, heq⟩⟩ := evaluate_of_evaluates hW henv ht he
    · exact absurd heq (by simp)
    · obtain rfl := Except.error.inj heq
      exact ⟨n, e, m', hn, hk⟩

end Machine

/-! ### Programs -/

lemma returns_evaluateIn_iff {bs : Builtins} {l : ℕ} {t : Term} {m : Machine}
    {r : Except EvalError.Kind Int64} : (evaluateIn bs (some l) t m).Returns r ↔
      EndsWith r (evaluate (some l) (ampleFuel + l) t bs.env m) := by
  unfold evaluateIn
  rw [Option.getD_some]
  cases evaluate (some l) (ampleFuel + l) t bs.env m with
  | ok v m' => cases r <;> simp [Outcome.Returns, EndsWith]
  | error h m' => cases r <;> simp [Outcome.Returns, EndsWith]

/-- Over the standard operations, a program that compiles and does not use the names that lowering
makes up returns what it means: under some limit on the nesting it returns an integer, or an error
of a kind other than that of the limit, if and only if evaluating the program as it is written does.
-/
theorem run_iff_means {p : Program Span} (havoid : ∀ x ∈ p.names, ¬ Generated x) {entry : String}
    {c : Compiled} {log : Array Event}
    (h : compile Builtins.standard.names entry p #[] = .ok c log) (tracing : Bool)
    {r : Except EvalError.Kind Int64} (hr : r ≠ .error .recursionLimit) :
    (∃ l, (run .standard { entry, maxDepth := some l } tracing p).Returns r) ↔
      Surface.Means p entry r := by
  have hrun : ∀ l, run .standard { entry, maxDepth := some l } tracing p
      = evaluateIn .standard (some l) c.term
          { Machine.ofBuiltins .standard tracing with log } := fun l => run_of_compile h tracing
  have hif : "if" ∈ Builtins.standard.names := by decide +kernel
  have heq : "==" ∈ Builtins.standard.names := by decide +kernel
  have hlowered := (compile_closed h hif heq).lowered
  simp only [hrun, returns_evaluateIn_iff]
  rw [EvalM.exists_limit_iff rfl fun s hs => hs.finished hr]
  cases r with
  | ok v => rw [endsWith_ok_iff rfl hlowered, Surface.means_ok_iff h havoid]
  | error k => rw [endsWith_error_iff rfl hlowered, Surface.means_error_iff h havoid]

/-- Two definitions that call each other, used through a local definition that hides one of them, in
a program with its own `if` and `==`. -/
def hidden : Program Span where
  defs :=
    [⟨⟨"main", .nowhere⟩, [],
      .letIn
        [⟨⟨"even", .nowhere⟩, [⟨"if", .nowhere⟩],
          .call (.ident ⟨"odd", .nowhere⟩) (.ident ⟨"if", .nowhere⟩) .nowhere, .nowhere⟩,
         ⟨⟨"_", .nowhere⟩, [], .ident ⟨"main", .nowhere⟩, .nowhere⟩]
        (.callAll (.ident ⟨"if", .nowhere⟩)
          [.int 0 .nowhere, .call (.ident ⟨"even", .nowhere⟩) (.int 4 .nowhere) .nowhere] .nowhere)
        .nowhere, .nowhere⟩,
     ⟨⟨"even", .nowhere⟩, [⟨"n", .nowhere⟩],
      .ite (.ident ⟨"n", .nowhere⟩)
        (.call (.ident ⟨"odd", .nowhere⟩)
          (.callAll (.ident ⟨"-", .nowhere⟩) [.ident ⟨"n", .nowhere⟩, .int 1 .nowhere] .nowhere)
          .nowhere)
        (.int 0 .nowhere) .nowhere, .nowhere⟩,
     ⟨⟨"odd", .nowhere⟩, [⟨"n", .nowhere⟩],
      .ite (.ident ⟨"n", .nowhere⟩)
        (.call (.ident ⟨"even", .nowhere⟩)
          (.callAll (.ident ⟨"-", .nowhere⟩) [.ident ⟨"n", .nowhere⟩, .int 1 .nowhere] .nowhere)
          .nowhere)
        (.ident ⟨"==", .nowhere⟩) .nowhere, .nowhere⟩,
     ⟨⟨"if", .nowhere⟩, [⟨"_", .nowhere⟩, ⟨"x", .nowhere⟩], .ident ⟨"x", .nowhere⟩, .nowhere⟩,
     ⟨⟨"==", .nowhere⟩, [], .int 1 .nowhere, .nowhere⟩]
  ann := .nowhere

theorem run_iff_means_hidden :
    (∃ l, (run .standard { entry := "main", maxDepth := some l } false hidden).Returns (.ok 1)) ∧
      Surface.Means hidden "main" (.ok 1) := by
  have hfirst : ∀ x ∈ hidden.names, x.toList.head? ≠ some '<' := by decide +kernel
  have havoid : ∀ x ∈ hidden.names, ¬ Generated x := fun x hx h => hfirst x hx h.head?
  have hcompiles : (value? (compile Builtins.standard.names "main" hidden #[])).isSome = true := by
    decide +kernel
  obtain ⟨c, hc⟩ := Option.isSome_iff_exists.1 hcompiles
  obtain ⟨log, hc⟩ := value?_eq_some.1 hc
  have hreturns :
      (run .standard { entry := "main", maxDepth := some 100 } false hidden).Returns (.ok 1) := by
    show (run .standard { entry := "main", maxDepth := some 100 } false hidden).result
      = .ok (.int 1)
    decide +kernel
  exact ⟨⟨100, hreturns⟩, (run_iff_means havoid hc false (by simp)).1 ⟨100, hreturns⟩⟩

end Letrec
