import Mathlib
import Letrec.Proofs.Primitive

/-!
# Evaluation without memo cells

A semantics of terms as sessions build them, without a heap.  Such terms may mention objects that
have been made before, and environments may bind names to terms that are not evaluated at all.
Objects are trees, with the environments written out inside; what the objects mentioned in terms
are is a parameter, the world `G`.

An argument is suspended as it is on the machine, so both end with the same objects; but a suspended
term is evaluated anew each time it is forced.  What forcing an object ends with thus depends on the
object alone.  Faults carry the object they are about, not its text.
-/

namespace Letrec.Unshared

/-- A value, or something that has to be evaluated. -/
inductive Object where
  /-- An integer of 64 bits. -/
  | int (value : Int64)
  /-- A function with its environment. -/
  | closure (param : String) (body : Term) (env : List (String × Object))
  /-- A builtin operation with the arguments supplied so far. -/
  | builtin (op : Primitive) (args : List Object)
  /-- A suspended computation. -/
  | suspended (term : Term) (env : List (String × Object))
  /-- A term that is bound or passed without an environment. -/
  | raw (term : Term)

/-- What variables stand for, the innermost binding first. -/
abbrev Env := List (String × Object)

/-- What the integers and the objects of a heap are, as trees. -/
def World := Term → Option Object

/-- Why there is no value. -/
inductive Fault where
  /-- An error that shows no object. -/
  | plain (e : EvalError)
  /-- Something that is no function is applied. -/
  | notAFunction (o : Object)
  /-- A condition is no integer. -/
  | conditionNotInteger (o : Object)
  /-- An operand is no integer. -/
  | expectedInteger (name : String) (o : Object)

/-- An answer, if there is one. -/
abbrev Answer := Partial Fault Object

/-- Whether an object needs no further evaluation. -/
def Object.IsValue : Object → Prop
  | int _ | closure _ _ _ | builtin _ _ => True
  | suspended _ _ | raw _ => False

/-- The integer that an object has to be. -/
def Object.toInt (fault : Object → Fault) : Object → Partial Fault Int64
  | .int v => pure v
  | o => throw (fault o)

/-! ### Rules -/

section Rules

variable (G : World)

/-- The argument of a call, unevaluated.  What means the same everywhere is passed as it is, and so
is what a variable stands for, unless that is a bare term. -/
def suspend (t : Term) (ρ : Env) : Option Object :=
  match t with
  | .int v => some (.int v)
  | .closure _ | .thunk _ | .builtin _ => G t
  | .var x =>
    match ρ.lookup x with
    | some (.raw _) | none => some (.suspended t ρ)
    | some o => some o
  | .lam _ _ | .app _ _ => some (.suspended t ρ)

variable (ev : Term → Env → Answer)

/-- The value of an object. -/
def force : Object → Answer
  | .suspended t ρ => ev t ρ
  | .raw t => ev t []
  | o => pure o

/-- Run an operation on all its arguments. -/
def operate : Primitive → List Object → Answer
  | .binary name f, [a, b] => do
    let x ← (← force ev a).toInt (.expectedInteger name)
    let y ← (← force ev b).toInt (.expectedInteger name)
    match f x y with
    | .ok v => pure (.int v)
    | .error e => throw (.plain e)
  | .conditional, [c, p, n] => do
    let i ← (← force ev c).toInt .conditionNotInteger
    force ev (if i ≠ 0 then p else n)
  | _, _ => .never

/-- Give an operation all arguments that there are. -/
def supply (p : Primitive) (args : List Object) : Answer :=
  if p.arity < args.length then
    throw (.plain (.tooManyArguments p.name p.arity args.length))
  else if args.length < p.arity then
    pure (.builtin p args)
  else
    operate ev p args

/-- Call a function with one argument. -/
def apply : Object → Object → Answer
  | .closure x b ρ, o => ev b ((x, o) :: ρ)
  | .builtin p args, o => supply ev p (args ++ [o])
  | f, _ => throw (.notAFunction f)

/-- Call a function with several arguments. -/
def applyAll : Object → List Object → Answer
  | f, [] => pure f
  | .builtin p args, o :: os => supply ev p (args ++ o :: os)
  | f, o :: os => do
    let g ← apply ev f o
    applyAll g os

/-- Evaluate a term whose parts are evaluated by `ev`.  With an object that is not known there is no
answer. -/
def step (t : Term) (ρ : Env) : Answer :=
  match t with
  | .int v => pure (.int v)
  | .lam x b => pure (.closure x b ρ)
  | .closure _ | .thunk _ | .builtin _ =>
    match G t with
    | some o => force ev o
    | none => .never
  | .var x =>
    match ρ.lookup x with
    | some (.raw u) => ev u ρ
    | some o => force ev o
    | none => throw (.plain (.unboundVariable x))
  | .app f a => do
    let f ← ev f ρ
    match suspend G a ρ with
    | some o => apply ev f o
    | none => .never

end Rules

/-- Evaluate a term in an environment, with a bound on the recursion. -/
def evaluate (G : World) : ℕ → Term → Env → Answer
  | 0, _, _ => .never
  | n + 1, t, ρ => step G (evaluate G n) t ρ

/-! ### Larger bounds and larger worlds -/

/-- The second world says all that the first does. -/
def World.Grows (W W' : World) : Prop := ∀ t o, W t = some o → W' t = some o

section Below

variable {G G' : World} (hG : G.Grows G') {ev ev' : Term → Env → Answer}
  (hev : ∀ t ρ, (ev t ρ).Below (ev' t ρ))

include hev

lemma force_below (o : Object) : (force ev o).Below (force ev' o) := by
  cases o with
  | suspended t ρ => exact hev t ρ
  | raw t => exact hev t []
  | _ => exact .refl _

lemma operate_below (p : Primitive) (args : List Object) :
    (operate ev p args).Below (operate ev' p args) := by
  unfold operate
  split
  · refine .bind (force_below hev _) fun _ => .bind (.refl _) fun x => ?_
    exact .bind (force_below hev _) fun _ => .refl _
  · exact .bind (force_below hev _) fun _ => .bind (.refl _) fun i => force_below hev _
  · exact .refl _

lemma supply_below (p : Primitive) (args : List Object) :
    (supply ev p args).Below (supply ev' p args) := by
  unfold supply
  split_ifs
  · exact .refl _
  · exact .refl _
  · exact operate_below hev p args

lemma apply_below (f o : Object) : (apply ev f o).Below (apply ev' f o) := by
  cases f with
  | closure x b ρ => exact hev _ _
  | builtin p args => exact supply_below hev p _
  | _ => exact .refl _

lemma applyAll_below (f : Object) (os : List Object) :
    (applyAll ev f os).Below (applyAll ev' f os) := by
  induction os generalizing f with
  | nil => exact .refl _
  | cons o os ih =>
    cases f with
    | builtin p args => exact supply_below hev p _
    | _ => exact .bind (apply_below hev _ o) ih

include hG

lemma step_below (t : Term) (ρ : Env) : (step G ev t ρ).Below (step G' ev' t ρ) := by
  have hobject : ∀ u, (match G u with | some o => force ev o | none => .never).Below
      (match G' u with | some o => force ev' o | none => .never) := by
    intro u
    cases hu : G u with
    | none => exact fun r h => absurd h Partial.never_gives
    | some o =>
      rw [hG u o hu]
      exact force_below hev o
  cases t with
  | int v => exact .refl _
  | lam x b => exact .refl _
  | closure a => exact hobject _
  | thunk a => exact hobject _
  | builtin a => exact hobject _
  | var x =>
    unfold step
    dsimp only
    cases ρ.lookup x with
    | none => exact .refl _
    | some o =>
      cases o with
      | raw u => exact hev u ρ
      | _ => exact force_below hev _
  | app f a =>
    refine .bind (hev f ρ) fun w => ?_
    cases ha : suspend G a ρ with
    | none => exact fun r h => absurd h Partial.never_gives
    | some o =>
      have ha' : suspend G' a ρ = some o := by
        cases a with
        | closure b => exact hG _ _ ha
        | thunk b => exact hG _ _ ha
        | builtin b => exact hG _ _ ha
        | _ => exact ha
      rw [ha']
      exact apply_below hev w o

end Below

lemma evaluate_grows {G G' : World} (hG : G.Grows G') (n : ℕ) (t : Term) (ρ : Env) :
    (evaluate G n t ρ).Below (evaluate G' n t ρ) := by
  induction n generalizing t ρ with
  | zero => exact .refl _
  | succ n ih => exact step_below hG ih t ρ

variable (G : World)

lemma evaluate_below (n : ℕ) (t : Term) (ρ : Env) :
    (evaluate G n t ρ).Below (evaluate G (n + 1) t ρ) := by
  induction n generalizing t ρ with
  | zero => exact fun r h => absurd h Partial.never_gives
  | succ n ih => exact step_below (fun _ _ h => h) ih t ρ

lemma evaluate_growing (t : Term) (ρ : Env) : Growing fun k => evaluate G k t ρ :=
  growing_of_succ fun k => evaluate_below G k t ρ

lemma force_growing (o : Object) : Growing fun k => force (evaluate G k) o :=
  fun _ _ h => force_below (fun t ρ => evaluate_growing G t ρ h) o

lemma apply_growing (f o : Object) : Growing fun k => apply (evaluate G k) f o :=
  fun _ _ h => apply_below (fun t ρ => evaluate_growing G t ρ h) f o

lemma applyAll_growing (f : Object) (os : List Object) :
    Growing fun k => applyAll (evaluate G k) f os :=
  fun _ _ h => applyAll_below (fun t ρ => evaluate_growing G t ρ h) f os

end Letrec.Unshared
