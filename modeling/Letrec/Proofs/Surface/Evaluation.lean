import Mathlib
import Letrec.Expr
import Letrec.Proofs.Expr
import Letrec.Proofs.Primitive

/-!
# The meaning of programs

A semantics of programs as they are written, without resolution, classification or lowering.  It is
call by name: an argument is suspended with its environment and evaluated each time it is used.

An environment is a list of frames.  A frame binds one name, or all names of a grouping at once: a
definition found in a frame of definitions is suspended with the environment that starts with that
same frame, so all definitions of a grouping see one another and themselves.  The innermost frame
that has a name decides what it stands for; the discard binds nothing.  The outermost frames are the
standard operations, so a program may hide them; a conditional does not look at any name.

Only the kind of an error is recorded, not its wording.
-/

namespace Letrec

/-- The kinds of errors. -/
inductive EvalError.Kind where
  | unboundVariable | notAFunction | conditionNotInteger | tooManyArguments | expectedInteger
  | divisionByZero | recursionLimit
deriving DecidableEq, Repr

/-- The kind of an error. -/
def EvalError.kind : EvalError → EvalError.Kind
  | .unboundVariable _ => .unboundVariable
  | .notAFunction _ => .notAFunction
  | .conditionNotInteger _ => .conditionNotInteger
  | .tooManyArguments .. => .tooManyArguments
  | .expectedInteger .. => .expectedInteger
  | .divisionByZero => .divisionByZero
  | .recursionLimit _ => .recursionLimit

namespace Surface

mutual

/-- A value, or a function or expression that waits to be evaluated. -/
inductive Object where
  /-- An integer of 64 bits. -/
  | int (value : Int64)
  /-- A function with its environment; it has at least one parameter. -/
  | fn (param : String) (params : List String) (body : Expr Span) (env : List Frame)
  /-- A builtin operation with the arguments supplied so far. -/
  | builtin (op : Primitive) (args : List Object)
  /-- A definition or an argument with its environment; an argument has no parameters. -/
  | suspended (params : List String) (body : Expr Span) (env : List Frame)

/-- What an environment is made of. -/
inductive Frame where
  /-- A name stands for an object. -/
  | bind (name : String) (object : Object)
  /-- The names of the definitions stand for them. -/
  | recursive (ds : List (Definition Span))

end

/-- What names stand for, the innermost frame first. -/
abbrev Env := List Frame

/-- An answer, if there is one. -/
abbrev Answer := Partial EvalError.Kind Object

/-- The integer that an object is. -/
def Object.int? : Object → Except String Int64
  | .int v => .ok v
  | _ => .error "no integer"

/-- What a name stands for. -/
def lookup (x : String) : Env → Option Object
  | [] => none
  | .bind y o :: ρ => if x = y then some o else lookup x ρ
  | .recursive ds :: ρ =>
    match ds.find? fun d => !d.isDiscard && d.name.name == x with
    | some d => some (.suspended (d.params.map Ident.name) d.body (.recursive ds :: ρ))
    | none => lookup x ρ

/-- Bind a parameter. -/
def extend (x : String) (o : Object) (ρ : Env) : Env := if isDiscard x then ρ else .bind x o :: ρ

/-! ### Rules -/

section Rules

variable (ev : Expr Span → Env → Answer)

/-- A function is a value once it waits for an argument. -/
def enter (params : List String) (body : Expr Span) (ρ : Env) : Answer :=
  match params with
  | [] => ev body ρ
  | x :: xs => pure (.fn x xs body ρ)

/-- The value of an object. -/
def force : Object → Answer
  | .suspended params body ρ => enter ev params body ρ
  | o => pure o

/-- Call a function with one argument. -/
def apply : Object → Object → Answer
  | .fn x xs body ρ, o => enter ev xs body (extend x o ρ)
  | .builtin p args, o =>
    let all := args ++ [o]
    if p.arity < all.length then
      throw .tooManyArguments
    else if all.length < p.arity then
      pure (.builtin p all)
    else
      p.run (force ev) Object.int? .int EvalError.kind all
  | _, _ => throw .notAFunction

/-- Evaluate an expression; the expressions that take a step of their own are evaluated by `ev`. -/
def step : Expr Span → Env → Answer
  | .ident i, ρ =>
    match lookup i.name ρ with
    | some o => force ev o
    | none => throw .unboundVariable
  | .int v _, _ => pure (.int v)
  | .lam ps body _, ρ =>
    match ps with
    | [] => step body ρ
    | p :: ps => pure (.fn p.name (ps.map Ident.name) body ρ)
  | .call f x _, ρ => do
    let f ← ev f ρ
    apply ev f (.suspended [] x ρ)
  | .ite c t e _, ρ => do
    let i ← forceInteger (force ev) Object.int? EvalError.kind .conditionNotInteger
      (.suspended [] c ρ)
    ev (if i ≠ 0 then t else e) ρ
  | .letIn ds body _, ρ => step body (.recursive ds :: ρ)

end Rules

/-- Evaluate an expression in an environment, with a bound on the recursion. -/
def evaluate : ℕ → Expr Span → Env → Answer
  | 0, _, _ => .never
  | n + 1, e, ρ => step (evaluate n) e ρ

/-- The standard operations under their names. -/
def standard : Env := Primitive.standard.map fun p => .bind p.name (.builtin p [])

/-- Evaluate the entry point of a program, with a bound on the recursion. -/
def run (n : ℕ) (p : Program Span) (entry : String) : Answer :=
  evaluate n (.ident ⟨entry, p.ann⟩) (.recursive p.defs :: standard)

/-- A program evaluates to an integer, or to an error of a kind. -/
def Means (p : Program Span) (entry : String) (r : Except EvalError.Kind Int64) : Prop :=
  Yields (fun n => run n p entry) (r.map .int)

/-! ### Larger bounds -/

section Below

variable {ev ev' : Expr Span → Env → Answer} (hev : ∀ e ρ, (ev e ρ).Below (ev' e ρ))

include hev

lemma enter_below (params : List String) (body : Expr Span) (ρ : Env) :
    (enter ev params body ρ).Below (enter ev' params body ρ) := by
  cases params with
  | nil => exact hev body ρ
  | cons x xs => exact .refl _

lemma force_below (o : Object) : (force ev o).Below (force ev' o) := by
  cases o with
  | suspended params body ρ => exact enter_below hev params body ρ
  | _ => exact .refl _

lemma apply_below (f o : Object) : (apply ev f o).Below (apply ev' f o) := by
  cases f with
  | fn x xs body ρ => exact enter_below hev xs body _
  | builtin p args =>
    unfold apply
    dsimp only
    split_ifs
    · exact .refl _
    · exact .refl _
    · exact Primitive.run_below (force_below hev) p _
  | _ => exact .refl _

lemma step_below (e : Expr Span) (ρ : Env) : (step ev e ρ).Below (step ev' e ρ) := by
  induction e using Expr.induction generalizing ρ with
  | ident i =>
    unfold step
    cases lookup i.name ρ with
    | none => exact .refl _
    | some o => exact force_below hev o
  | int v a => exact .refl _
  | lam ps b a ih =>
    cases ps with
    | nil => exact ih ρ
    | cons p ps => exact .refl _
  | call f x a _ _ => exact .bind (hev f ρ) fun w => apply_below hev w _
  | ite c t e a _ _ _ =>
    exact .bind (forceInteger_below (force_below hev) _ _) fun i => hev _ ρ
  | letIn ds b a _ ih => exact ih _

end Below

lemma evaluate_growing (e : Expr Span) (ρ : Env) : Growing fun n => evaluate n e ρ := by
  refine growing_of_succ fun n => ?_
  induction n generalizing e ρ with
  | zero => exact fun r h => absurd h Partial.never_gives
  | succ n ih => exact step_below ih e ρ

lemma force_growing (o : Object) : Growing fun n => force (evaluate n) o :=
  fun _ _ hnk => force_below (fun e ρ => evaluate_growing e ρ hnk) o

lemma apply_growing (f o : Object) : Growing fun n => apply (evaluate n) f o :=
  fun _ _ hnk => apply_below (fun e ρ => evaluate_growing e ρ hnk) f o

/-- A program means one thing at most. -/
theorem Means.unique {p : Program Span} {entry : String} {r r' : Except EvalError.Kind Int64}
    (h : Means p entry r) (h' : Means p entry r') : r = r' := by
  have heq : r.map Object.int = r'.map Object.int := Yields.unique (evaluate_growing _ _) h h'
  cases r with
  | error k =>
    cases r' with
    | error k' => rw [Except.error.inj heq]
    | ok v' => exact absurd heq (by simp [Except.map])
  | ok v =>
    cases r' with
    | error k' => exact absurd heq (by simp [Except.map])
    | ok v' => rw [Object.int.inj (Except.ok.inj heq)]

end Surface

end Letrec
