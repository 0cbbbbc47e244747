import Mathlib
import Letrec.Proofs.Primitive
import Letrec.Proofs.Term

/-!
# Evaluation by name

A second semantics of lowered terms, without a heap.  Every argument is wrapped as a pair of its
term and its environment, whatever it is, and the pair is evaluated anew each time it is used:
nothing is passed on, shared or remembered.  Objects are trees, with the environments written out
inside.

The rules are written against an evaluator for the terms inside and closed by a bound on the
recursion.  `Evaluates`, `Forces` and `Applies` say what holds within some bound; the lemmas about
them are the rules of the semantics.
-/

namespace Letrec.ByName

/-- A value, or an argument that waits to be evaluated. -/
inductive Object where
  /-- An integer of 64 bits. -/
  | int (value : Int64)
  /-- A function with its environment. -/
  | closure (param : String) (body : Term) (env : List (String × Object))
  /-- A builtin operation with the arguments supplied so far. -/
  | builtin (op : Primitive) (args : List Object)
  /-- A term with its environment. -/
  | pair (term : Term) (env : List (String × Object))

/-- What variables stand for, the innermost binding first. -/
abbrev Env := List (String × Object)

/-- An answer, if there is one. -/
abbrev Answer := Partial EvalError Object

namespace Object

/-- Whether an object needs no further evaluation. -/
def IsValue : Object → Prop
  | int _ | closure _ _ _ | builtin _ _ => True
  | pair _ _ => False

/-- The text of an object. -/
def text : Object → String
  | int v => toString v.toInt
  | closure x b _ => "<closure " ++ (Term.lam x b).text ++ ">"
  | builtin p args =>
    if args.isEmpty then
      "<builtin " ++ p.name ++ ">"
    else
      "<builtin " ++ p.name ++ " " ++ toString args.length ++ "/" ++ toString p.arity ++ ">"
  | pair _ _ => "<thunk>"

/-- The integer that an object is, or else its text. -/
def int? : Object → Except String Int64
  | int v => .ok v
  | o => .error o.text

end Object

/-! ### Rules -/

section Rules

variable (ev : Term → Env → Answer)

/-- The value of an object. -/
def force : Object → Answer
  | .pair t ρ => ev t ρ
  | o => pure o

/-- Call a function with one argument. -/
def apply : Object → Object → Answer
  | .closure x b ρ, o => ev b ((x, o) :: ρ)
  | .builtin p args, o =>
    let all := args ++ [o]
    if p.arity < all.length then
      throw (.tooManyArguments p.name p.arity all.length)
    else if all.length < p.arity then
      pure (.builtin p all)
    else
      p.run (force ev) Object.int? .int id all
  | f, _ => throw (.notAFunction f.text)

/-- Evaluate a term whose parts are evaluated by `ev`.  Objects of a heap mean nothing here. -/
def step (t : Term) (ρ : Env) : Answer :=
  match t with
  | .int v => pure (.int v)
  | .lam x b => pure (.closure x b ρ)
  | .var x =>
    match ρ.lookup x with
    | some o => force ev o
    | none => throw (.unboundVariable x)
  | .app f a => do
    let f ← ev f ρ
    apply ev f (.pair a ρ)
  | .closure _ | .thunk _ | .builtin _ => .never

end Rules

/-- Evaluate a term in an environment, with a bound on the recursion. -/
def evaluate : ℕ → Term → Env → Answer
  | 0, _, _ => .never
  | n + 1, t, ρ => step (evaluate n) t ρ

/-! ### Larger bounds -/

section Below

variable {ev ev' : Term → Env → Answer} (hev : ∀ t ρ, (ev t ρ).Below (ev' t ρ))

include hev

lemma force_below (o : Object) : (force ev o).Below (force ev' o) := by
  cases o with
  | pair t ρ => exact hev t ρ
  | _ => exact .refl _

lemma apply_below (f o : Object) : (apply ev f o).Below (apply ev' f o) := by
  cases f with
  | closure x b ρ => exact hev _ _
  | builtin p args =>
    unfold apply
    dsimp only
    split_ifs
    · exact .refl _
    · exact .refl _
    · exact Primitive.run_below (force_below hev) p _
  | int v => exact .refl _
  | pair t ρ => exact .refl _

lemma step_below (t : Term) (ρ : Env) : (step ev t ρ).Below (step ev' t ρ) := by
  cases t with
  | var x =>
    unfold step
    dsimp only
    cases ρ.lookup x with
    | none => exact .refl _
    | some o => exact force_below hev o
  | app f a => exact .bind (hev f ρ) fun w => apply_below hev w _
  | _ => exact .refl _

end Below

lemma evaluate_below (t : Term) (ρ : Env) (n : ℕ) :
    (evaluate n t ρ).Below (evaluate (n + 1) t ρ) := by
  induction n generalizing t ρ with
  | zero => exact fun r h => absurd h Partial.never_gives
  | succ n ih => exact step_below ih t ρ

lemma evaluate_growing (t : Term) (ρ : Env) : Growing fun n => evaluate n t ρ :=
  growing_of_succ (evaluate_below t ρ)

lemma force_growing (o : Object) : Growing fun n => force (evaluate n) o :=
  fun _ _ hnk => force_below (fun t ρ => evaluate_growing t ρ hnk) o

lemma apply_growing (f o : Object) : Growing fun n => apply (evaluate n) f o :=
  fun _ _ hnk => apply_below (fun t ρ => evaluate_growing t ρ hnk) f o

/-! ### Answers -/

/-- A term has this answer. -/
def Evaluates (t : Term) (ρ : Env) (r : Except EvalError Object) : Prop :=
  Yields (fun n => evaluate n t ρ) r

/-- Forcing an object has this answer. -/
def Forces (o : Object) (r : Except EvalError Object) : Prop :=
  Yields (fun n => force (evaluate n) o) r

/-- Calling a function has this answer. -/
def Applies (f o : Object) (r : Except EvalError Object) : Prop :=
  Yields (fun n => apply (evaluate n) f o) r

/-- Forcing an object that has to be an integer has this answer. -/
def ForcesInt (otherwise : String → EvalError) (o : Object) (r : Except EvalError Int64) : Prop :=
  Yields (fun n => forceInteger (force (evaluate n)) Object.int? id otherwise o) r

/-- Running an operation has this answer. -/
def Operates (p : Primitive) (args : List Object) (r : Except EvalError Object) : Prop :=
  Yields (fun n => p.run (force (evaluate n)) Object.int? .int id args) r

section Answers

variable {t f a b : Term} {ρ : Env} {r r' : Except EvalError Object} {x : String} {o : Object}

lemma Evaluates.unique (h : Evaluates t ρ r) (h' : Evaluates t ρ r') : r = r' :=
  Yields.unique (evaluate_growing t ρ) h h'

lemma evaluates_iff : Evaluates t ρ r ↔ Yields (fun n => step (evaluate n) t ρ) r :=
  Yields.succ_iff (fun _ => Partial.never_gives) fun _ => rfl

lemma evaluates_int {v : Int64} : Evaluates (.int v) ρ r ↔ r = .ok (.int v) :=
  evaluates_iff.trans (Yields.const_iff.trans Partial.pure_gives)

lemma evaluates_lam : Evaluates (.lam x b) ρ r ↔ r = .ok (.closure x b ρ) :=
  evaluates_iff.trans (Yields.const_iff.trans Partial.pure_gives)

lemma evaluates_var_of_some (h : ρ.lookup x = some o) : Evaluates (.var x) ρ r ↔ Forces o r := by
  rw [evaluates_iff]
  simp only [step, h]
  exact Iff.rfl

lemma evaluates_var_of_none (h : ρ.lookup x = none) :
    Evaluates (.var x) ρ r ↔ r = .error (.unboundVariable x) := by
  rw [evaluates_iff]
  simp only [step, h]
  exact Yields.const_iff.trans Partial.throw_gives

lemma evaluates_app : Evaluates (.app f a) ρ r ↔
    (∃ w, Evaluates f ρ (.ok w) ∧ Applies w (.pair a ρ) r) ∨
      ∃ e, Evaluates f ρ (.error e) ∧ r = .error e :=
  evaluates_iff.trans (Yields.bind_iff (evaluate_growing f ρ) fun w => apply_growing w _)

@[simp] lemma forces_pair : Forces (.pair t ρ) r ↔ Evaluates t ρ r := Iff.rfl

lemma forces_of_isValue (h : o.IsValue) : Forces o r ↔ r = .ok o := by
  cases o with
  | pair t ρ => exact h.elim
  | _ => exact Yields.const_iff.trans Partial.pure_gives

lemma forcesInt_iff {otherwise : String → EvalError} {i : Except EvalError Int64} :
    ForcesInt otherwise o i ↔
      (∃ w, Forces o (.ok w) ∧ i = w.int?.mapError otherwise) ∨
        ∃ e, Forces o (.error e) ∧ i = .error e :=
  yields_forceInteger force_growing

lemma operates_binary {name : String} {g : Int64 → Int64 → Except EvalError Int64}
    {o' : Object} : Operates (.binary name g) [o, o'] r ↔
      (∃ i, ForcesInt (.expectedInteger name) o (.ok i) ∧
        ((∃ j, ForcesInt (.expectedInteger name) o' (.ok j) ∧
            r = ((g i j).mapError id).map .int) ∨
          ∃ e, ForcesInt (.expectedInteger name) o' (.error e) ∧ r = .error e)) ∨
      ∃ e, ForcesInt (.expectedInteger name) o (.error e) ∧ r = .error e :=
  yields_run_binary force_growing

lemma operates_conditional {c p n : Object} : Operates .conditional [c, p, n] r ↔
    (∃ i, ForcesInt .conditionNotInteger c (.ok i) ∧ Forces (if i ≠ 0 then p else n) r) ∨
      ∃ e, ForcesInt .conditionNotInteger c (.error e) ∧ r = .error e :=
  yields_run_conditional force_growing

lemma applies_builtin_of_lt {p : Primitive} {args : List Object} (h : p.arity < args.length + 1) :
    Applies (.builtin p args) o r ↔
      r = .error (.tooManyArguments p.name p.arity (args.length + 1)) := by
  unfold Applies apply
  simp only [List.length_append, List.length_singleton, if_pos h]
  exact Yields.const_iff.trans Partial.throw_gives

lemma applies_builtin_of_gt {p : Primitive} {args : List Object} (h : args.length + 1 < p.arity) :
    Applies (.builtin p args) o r ↔ r = .ok (.builtin p (args ++ [o])) := by
  unfold Applies apply
  simp only [List.length_append, List.length_singleton, if_neg h.asymm, if_pos h]
  exact Yields.const_iff.trans Partial.pure_gives

lemma applies_builtin_of_eq {p : Primitive} {args : List Object} (h : args.length + 1 = p.arity) :
    Applies (.builtin p args) o r ↔ Operates p (args ++ [o]) r := by
  unfold Applies apply
  simp only [List.length_append, List.length_singleton, h, lt_irrefl, if_false]
  exact Iff.rfl

lemma applies_int {v : Int64} :
    Applies (.int v) o r ↔ r = .error (.notAFunction (Object.int v).text) :=
  Yields.const_iff.trans Partial.throw_gives

end Answers

end Letrec.ByName
