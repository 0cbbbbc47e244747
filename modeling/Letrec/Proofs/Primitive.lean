import Mathlib
import Letrec.Builtins
import Letrec.Proofs.Partial

/-!
# The standard operations as data

Every operation of the standard table is a function on two integers or the conditional.  Written
down as such (`Primitive`), an operation can be run by any semantics that knows how to force its own
objects: `Primitive.run`.  `Builtins.standard_entries` says that the table consists of primitives.
-/

namespace Letrec

/-- A standard operation. -/
inductive Primitive where
  /-- Force two integers and compute with them. -/
  | binary (name : String) (f : Int64 → Int64 → Except EvalError Int64)
  /-- Force an integer and then one of two arguments. -/
  | conditional

namespace Primitive

/-- Its name in messages. -/
def name : Primitive → String
  | binary name _ => name
  | conditional => "if"

/-- The number of arguments it takes. -/
def arity : Primitive → ℕ
  | binary _ _ => 2
  | conditional => 3

/-- What it does with all its arguments. -/
def operation : Primitive → Operation
  | binary name f => Operation.binary name fun x y =>
    match f x y with
    | .ok v => .done (.int v)
    | .error e => .fail e
  | conditional => Operation.conditional

/-- The operation with some of its arguments, as an object of the heap. -/
def builtin (p : Primitive) (supplied : List Term) : Builtin :=
  { name := p.name, arity := p.arity, op := p.operation, supplied }

/-- Arithmetic that always has a result. -/
def arithmetic (name : String) (f : Int64 → Int64 → Int64) : Primitive :=
  binary name fun x y => .ok (f x y)

/-- A comparison, as one or zero. -/
def comparison (name : String) (f : Int64 → Int64 → Bool) : Primitive :=
  binary name fun x y => .ok (if f x y then 1 else 0)

/-- Division toward zero. -/
def division (name : String) : Primitive :=
  binary name fun x y => if y = 0 then .error .divisionByZero else .ok (x / y)

/-- The standard operations, by name. -/
def standard : List Primitive :=
  [comparison "!=" (· != ·), arithmetic "*" (· * ·), arithmetic "+" (· + ·),
    arithmetic "-" (· - ·), division "/", comparison "/=" (· != ·), comparison "<" (· < ·),
    comparison "<=" (· ≤ ·), comparison "==" (· == ·), comparison ">" (· > ·),
    comparison ">=" (· ≥ ·), conditional]

lemma operation_division (name : String) :
    (division name).operation = Operation.division name := by
  show Operation.binary name _ = Operation.binary name _
  congr 1
  funext x y
  by_cases h : y = 0
  · simp [h]
  · simp [h]

/-- What a binary operation does determines what it computes. -/
lemma binary_operation_injective {name : String} {f g : Int64 → Int64 → Except EvalError Int64}
    (h : (binary name f).operation = (binary name g).operation) : f = g := by
  funext x y
  have hargs := congrFun h [.int 0, .int 0]
  have hx := congrFun (Action.asInt.inj (congrFun (Action.force.inj hargs).2 (.int 0))).2.2 x
  have hy := congrFun (Action.asInt.inj (congrFun (Action.force.inj hx).2 (.int 0))).2.2 y
  dsimp only at hy
  cases hf : f x y with
  | ok v =>
    cases hg : g x y with
    | ok w =>
      rw [hf, hg] at hy
      rw [Term.int.inj (Action.done.inj hy)]
    | error e =>
      rw [hf, hg] at hy
      exact absurd hy (by simp)
  | error e =>
    cases hg : g x y with
    | ok w =>
      rw [hf, hg] at hy
      exact absurd hy (by simp)
    | error e' =>
      rw [hf, hg] at hy
      rw [Action.fail.inj hy]

lemma builtin_injective {p q : Primitive} {s s' : List Term} (h : p.builtin s = q.builtin s') :
    p = q ∧ s = s' := by
  obtain ⟨hname, harity, hop, hs⟩ := Builtin.mk.inj h
  refine ⟨?_, hs⟩
  cases p with
  | conditional =>
    cases q with
    | conditional => rfl
    | binary name g => exact absurd harity (by simp [arity])
  | binary name f =>
    cases q with
    | conditional => exact absurd harity (by simp [arity])
    | binary name' g =>
      obtain rfl : name = name' := hname
      rw [binary_operation_injective hop]
end Primitive

lemma Builtins.standard_entries :
    Builtins.standard.entries = Primitive.standard.map (·.builtin []) := by
  have hdiv : Primitive.builtin (.division "/") []
      = { name := "/", arity := 2, op := Operation.division "/" } := by
    rw [Primitive.builtin, Primitive.operation_division]
    rfl
  simp only [Primitive.standard, List.map_cons, List.map_nil, hdiv]
  rfl

lemma Builtins.mem_insertInto {b c : Builtin} {bs : List Builtin} (h : c ∈ insertInto b bs) :
    c = b ∨ c ∈ bs := by
  induction bs with
  | nil => exact Or.inl (List.mem_singleton.1 h)
  | cons c' bs ih =>
    rw [insertInto] at h
    split_ifs at h
    · exact List.mem_cons.1 h
    · exact (List.mem_cons.1 h).imp_right (List.mem_cons_of_mem _)
    · rcases List.mem_cons.1 h with rfl | h
      · exact Or.inr List.mem_cons_self
      · exact (ih h).imp_right (List.mem_cons_of_mem _)

/-! ### Running an operation -/

section Run

variable {ε D : Type} (force : D → Partial ε D) (int? : D → Except String Int64)
  (ofInt : Int64 → D) (report : EvalError → ε)

/-- Force an object that has to be an integer. -/
def forceInteger (otherwise : String → EvalError) (o : D) : Partial ε Int64 := do
  match int? (← force o) with
  | .ok v => pure v
  | .error found => throw (report (otherwise found))

/-- Run an operation on objects that `force` knows how to force and `int?` to read.  With a wrong
number of arguments there is no answer. -/
def Primitive.run : Primitive → List D → Partial ε D
  | .binary name f, [a, b] => do
    let x ← forceInteger force int? report (.expectedInteger name) a
    let y ← forceInteger force int? report (.expectedInteger name) b
    match f x y with
    | .ok v => pure (ofInt v)
    | .error e => throw (report e)
  | .conditional, [c, t, e] => do
    let i ← forceInteger force int? report .conditionNotInteger c
    force (if i ≠ 0 then t else e)
  | _, _ => .never

variable {force} {force' : D → Partial ε D} {int? ofInt report}
  (hforce : ∀ o, (force o).Below (force' o))

include hforce

lemma forceInteger_below (otherwise : String → EvalError) (o : D) :
    (forceInteger force int? report otherwise o).Below
      (forceInteger force' int? report otherwise o) :=
  .bind (hforce o) fun _ => .refl _

lemma Primitive.run_below (p : Primitive) (args : List D) :
    (p.run force int? ofInt report args).Below (p.run force' int? ofInt report args) := by
  unfold Primitive.run
  split
  · refine .bind (forceInteger_below hforce _ _) fun x => ?_
    exact .bind (forceInteger_below hforce _ _) fun y => .refl _
  · exact .bind (forceInteger_below hforce _ _) fun i => hforce _
  · exact .refl _

end Run

/-! ### Answers of an operation -/

section Answers

variable {ε D : Type} {force : ℕ → D → Partial ε D} {int? : D → Except String Int64}
  {ofInt : Int64 → D} {report : EvalError → ε} (hforce : ∀ o, Growing (force · o))

include hforce

lemma forceInteger_growing (otherwise : String → EvalError) (o : D) :
    Growing fun n => forceInteger (force n) int? report otherwise o :=
  fun _ _ hnk => forceInteger_below (fun o => hforce o hnk) otherwise o

lemma yields_forceInteger {otherwise : String → EvalError} {o : D} {r : Except ε Int64} :
    Yields (fun n => forceInteger (force n) int? report otherwise o) r ↔
      (∃ w, Yields (force · o) (.ok w) ∧
        r = (int? w).mapError fun found => report (otherwise found)) ∨
      ∃ e, Yields (force · o) (.error e) ∧ r = .error e := by
  refine (Yields.bind_const_iff (hforce o)).trans ?_
  refine or_congr (exists_congr fun w => and_congr_right fun _ => ?_) Iff.rfl
  cases int? w with
  | ok v => exact Partial.pure_gives
  | error found => exact Partial.throw_gives

lemma yields_run_binary {name : String} {f : Int64 → Int64 → Except EvalError Int64} {a b : D}
    {r : Except ε D} :
    Yields (fun n => (Primitive.binary name f).run (force n) int? ofInt report [a, b]) r ↔
      (∃ x, Yields (fun n => forceInteger (force n) int? report (.expectedInteger name) a) (.ok x) ∧
        ((∃ y, Yields (fun n => forceInteger (force n) int? report (.expectedInteger name) b)
            (.ok y) ∧ r = ((f x y).mapError report).map ofInt) ∨
          ∃ e, Yields (fun n => forceInteger (force n) int? report (.expectedInteger name) b)
            (.error e) ∧ r = .error e)) ∨
      ∃ e, Yields (fun n => forceInteger (force n) int? report (.expectedInteger name) a)
        (.error e) ∧ r = .error e := by
  have hint : ∀ o, Growing fun n =>
      forceInteger (force n) int? report (.expectedInteger name) o :=
    forceInteger_growing hforce _
  refine (Yields.bind_iff (hint a) ?_).trans ?_
  · exact fun x => (hint b).bind fun y => growing_const _
  refine or_congr (exists_congr fun x => and_congr_right fun _ => ?_) Iff.rfl
  refine (Yields.bind_const_iff (hint b)).trans ?_
  refine or_congr (exists_congr fun y => and_congr_right fun _ => ?_) Iff.rfl
  cases f x y with
  | ok v => exact Partial.pure_gives
  | error e => exact Partial.throw_gives

lemma yields_run_conditional {c t e : D} {r : Except ε D} :
    Yields (fun n => Primitive.conditional.run (force n) int? ofInt report [c, t, e]) r ↔
      (∃ i, Yields (fun n => forceInteger (force n) int? report .conditionNotInteger c) (.ok i) ∧
        Yields (force · (if i ≠ 0 then t else e)) r) ∨
      ∃ e, Yields (fun n => forceInteger (force n) int? report .conditionNotInteger c) (.error e) ∧
        r = .error e :=
  Yields.bind_iff (forceInteger_growing hforce _ c) fun _ => hforce _

end Answers

end Letrec
