import Letrec.Span

/-!
# Programs

A program is a list of definitions that may all refer to one another.  A definition gives a name
to an expression, possibly with parameters; an expression is an identifier, an integer, an
anonymous function, a call with one argument, a conditional, or a `let` block whose bindings are
again definitions that may all refer to one another.

Every node carries an annotation.  As handed over by a front end it is the node's position; after
resolution it is the position together with a scope.  `Program.map` changes annotations and leaves
everything else alone.
-/

namespace Letrec

/-- A name at one place of a program: where it is bound or where it is used. -/
structure Ident (α : Type) where
  /-- The name. -/
  name : String
  /-- The annotation of this occurrence. -/
  ann : α
deriving DecidableEq, Repr, Inhabited

mutual

/-- An expression with annotations in `α`. -/
inductive Expr (α : Type) where
  /-- A use of a name. -/
  | ident (id : Ident α)
  /-- An integer of 64 bits. -/
  | int (value : Int64) (ann : α)
  /-- An anonymous function, of any number of parameters. -/
  | lam (params : List (Ident α)) (body : Expr α) (ann : α)
  /-- A call with one argument. -/
  | call (fn arg : Expr α) (ann : α)
  /-- A choice between two expressions. -/
  | ite (cond pos neg : Expr α) (ann : α)
  /-- An expression under local definitions. -/
  | letIn (defs : List (Definition α)) (body : Expr α) (ann : α)

/-- A named expression, possibly with parameters. -/
structure Definition (α : Type) where
  /-- The name that is defined. -/
  name : Ident α
  /-- The parameters, outermost first. -/
  params : List (Ident α)
  /-- What the name stands for, given the parameters. -/
  body : Expr α
  /-- The annotation of the whole definition. -/
  ann : α

end

deriving instance Inhabited for Expr
deriving instance Inhabited for Definition

/-- A program with annotations in `α`. -/
structure Program (α : Type) where
  /-- The definitions in source order. -/
  defs : List (Definition α)
  /-- The annotation of the whole program. -/
  ann : α
deriving Inhabited

variable {α β : Type}

/-! ### Names -/

/-- The name that binds nothing. -/
def discard : String := "_"

/-- Whether a name binds nothing. -/
def isDiscard (name : String) : Bool := name == discard

/-- A definition that nothing can refer to. -/
def Definition.isDiscard (d : Definition α) : Bool := Letrec.isDiscard d.name.name

/-- The first definition of that name. -/
def Program.definition? (p : Program α) (name : String) : Option (Definition α) :=
  p.defs.find? (·.name.name == name)

/-! ### Changing annotations -/

/-- Change the annotation of an occurrence. -/
def Ident.map (f : α → β) (i : Ident α) : Ident β := ⟨i.name, f i.ann⟩

mutual

/-- Change every annotation of an expression. -/
def Expr.map (f : α → β) : Expr α → Expr β
  | .ident i => .ident (i.map f)
  | .int v a => .int v (f a)
  | .lam ps b a => .lam (ps.map (Ident.map f)) (b.map f) (f a)
  | .call g x a => .call (g.map f) (x.map f) (f a)
  | .ite c t e a => .ite (c.map f) (t.map f) (e.map f) (f a)
  | .letIn ds b a => .letIn (mapDefs f ds) (b.map f) (f a)

/-- Change every annotation of a definition. -/
def Definition.map (f : α → β) : Definition α → Definition β
  | ⟨n, ps, b, a⟩ => ⟨n.map f, ps.map (Ident.map f), b.map f, f a⟩

/-- Change every annotation of a list of definitions. -/
def mapDefs (f : α → β) : List (Definition α) → List (Definition β)
  | [] => []
  | d :: ds => d.map f :: mapDefs f ds

end

theorem mapDefs_eq_map (f : α → β) (ds : List (Definition α)) :
    mapDefs f ds = ds.map (Definition.map f) := by
  induction ds with
  | nil => rw [mapDefs, List.map_nil]
  | cons d ds ih => rw [mapDefs, ih, List.map_cons]

/-- Change every annotation of a program. -/
def Program.map (f : α → β) (p : Program α) : Program β :=
  ⟨p.defs.map (Definition.map f), f p.ann⟩

/-! ### The names that occur -/

mutual

/-- The names that occur in an expression, as binder or as use, in source order. -/
def Expr.names : Expr α → List String
  | .ident i => [i.name]
  | .int _ _ => []
  | .lam ps b _ => ps.map Ident.name ++ b.names
  | .call g x _ => g.names ++ x.names
  | .ite c t e _ => c.names ++ t.names ++ e.names
  | .letIn ds b _ => namesOfDefs ds ++ b.names

/-- The names that occur in a definition, its own name first. -/
def Definition.names : Definition α → List String
  | ⟨n, ps, b, _⟩ => n.name :: ps.map Ident.name ++ b.names

/-- The names that occur in a list of definitions. -/
def namesOfDefs : List (Definition α) → List String
  | [] => []
  | d :: ds => d.names ++ namesOfDefs ds

end

/-- The names that occur in a program. -/
def Program.names (p : Program α) : List String := namesOfDefs p.defs

/-! ### Building expressions -/

namespace Expr

/-- Calls of `fn` with one argument after the other: `((fn a) b) …`. -/
def callAll (fn : Expr α) (args : List (Expr α)) (ann : α) : Expr α :=
  args.foldl (fun f a => .call f a ann) fn

end Expr

end Letrec
