import Letrec.Event

/-!
# Resolution of names

Resolution opens a scope for every construct that binds names and annotates every node of the
program with a scope: an identifier, integer, call or conditional with the scope it stands in; a
definition, anonymous function, `let` block or program with the scope it opens.  What an identifier
denotes is read off the finished tree, so a definition may be used before it is declared.

A definition is entered into its grouping after its body has been resolved; that is also when it
gets its number.  Resolution fails at the first name that is bound twice in one scope.  The discard
binds nothing and may be repeated.

Main definitions:

* `resolve`: the scope tree and the annotated program;
* `unboundIdentifiers`: every identifier that denotes nothing.
-/

namespace Letrec

/-- The annotation of a resolved program. -/
structure Scoped where
  /-- Where the node stands in the source. -/
  span : Span
  /-- The scope it is evaluated in, or the scope it opens. -/
  scope : ScopeId
deriving DecidableEq, Repr, Inhabited

/-- A resolved program and the scopes its annotations refer to. -/
structure Resolution where
  /-- The scopes and the definitions. -/
  tree : ScopeTree
  /-- The program, every node with its scope. -/
  program : Program Scoped

/-! ### Errors -/

/-- What a repeated name was meant to bind. -/
inductive BinderKind where
  /-- A parameter. -/
  | parameter
  /-- A definition. -/
  | definition
deriving DecidableEq, Repr

/-- The word for a kind of binder. -/
def BinderKind.text : BinderKind → String
  | .parameter => "parameter"
  | .definition => "definition"

/-- What can be wrong with the names of a program. -/
inductive ResolveError where
  /-- A name is bound twice in one scope. -/
  | duplicateBinding (name : String) (kind : BinderKind) (span : Span)
  /-- A name denotes nothing where it is used. -/
  | unboundIdentifier (name : String) (span : Span)
deriving DecidableEq, Repr

namespace ResolveError

/-- Where the error is. -/
def span : ResolveError → Span
  | duplicateBinding _ _ span | unboundIdentifier _ span => span

/-- The wording of the error, without its position. -/
def message : ResolveError → String
  | duplicateBinding name kind _ =>
    "`" ++ name ++ "` is already defined in this scope (redefined as " ++ kind.text ++ ")"
  | unboundIdentifier name _ => "use of undefined symbol `" ++ name ++ "`"

/-- The error with its position; nothing if the position does not fit its source. -/
def report (e : ResolveError) (colour : Bool) : Option String :=
  e.span.report colour "Resolution error" e.message

end ResolveError

/-- Why resolution stops. -/
inductive ResolveFailure where
  /-- The program is wrong. -/
  | error (e : ResolveError)
  /-- There is no further number for a definition. -/
  | idsExhausted
deriving DecidableEq, Repr

/-! ### The state of resolution -/

/-- What resolution has built so far. -/
structure Resolving where
  /-- The scopes and definitions so far. -/
  tree : ScopeTree
  /-- The number of the next definition. -/
  nextId : DispatchId
  /-- What has been reported. -/
  log : Array Event

/-- Resolution threads its state also through failures, so that reports are not lost. -/
abbrev ResolveM := EStateM ResolveFailure Resolving

namespace ResolveM

/-- Add an event to the log. -/
def report (e : Event) : ResolveM Unit :=
  modify fun r => { r with log := r.log.push e }

/-- Open a scope inside another one. -/
def openScope (kind : ScopeKind) (parent : ScopeId) : ResolveM ScopeId :=
  modifyGet fun r => (r.tree.scopes.size, { r with tree := r.tree.push kind parent })

/-- The number of the next definition.  The counter itself has to stay in range. -/
def freshId : ResolveM DispatchId := do
  let r ← get
  if r.nextId + 1 < dispatchIdBound then
    set { r with nextId := r.nextId + 1 }
    return r.nextId
  else
    throw .idsExhausted

/-- Bind a name in a scope, unless it is the discard; a name that the scope has already is
refused. -/
def bindName (scope : ScopeId) (name : String) (span : Span) (kind : BinderKind) (e : Entry) :
    ResolveM Unit := do
  if isDiscard name then
    return
  let r ← get
  match r.tree.entry? scope name with
  | some _ => throw (.error (.duplicateBinding name kind span))
  | none => set { r with tree := r.tree.enter scope name e }

/-- Record a definition that has been resolved. -/
def register (b : Binding) : ResolveM Unit := do
  report (.registered b.name b.id b.scope)
  modify fun r => { r with tree := r.tree.register b }

/-- Bind the parameters of a function in its scope, in order. -/
def parameters (scope : ScopeId) : List (Ident Span) → ResolveM (List (Ident Scoped))
  | [] => return []
  | p :: ps => do
    bindName scope p.name p.ann .parameter .parameter
    let rest ← parameters scope ps
    return ⟨p.name, p.ann, scope⟩ :: rest

mutual

/-- Resolve an expression that stands in a scope. -/
def expression (scope : ScopeId) : Expr Span → ResolveM (Expr Scoped)
  | .ident i => return .ident ⟨i.name, i.ann, scope⟩
  | .int v a => return .int v ⟨a, scope⟩
  | .lam ps body a => do
    let inner ← openScope .lambda scope
    let ps ← parameters inner ps
    let body ← expression inner body
    return .lam ps body ⟨a, inner⟩
  | .call f x a => do
    let f ← expression scope f
    let x ← expression scope x
    return .call f x ⟨a, scope⟩
  | .ite c t e a => do
    let c ← expression scope c
    let t ← expression scope t
    let e ← expression scope e
    return .ite c t e ⟨a, scope⟩
  | .letIn ds body a => do
    let inner ← openScope .letBlock scope
    report (.resolvingLet inner)
    let ds ← definitions inner ds
    let body ← expression inner body
    return .letIn ds body ⟨a, inner⟩

/-- Resolve a definition of a grouping.  Its own name is bound last. -/
def definition (grouping : ScopeId) : Definition Span → ResolveM (Definition Scoped)
  | ⟨name, ps, body, a⟩ => do
    let inner ← openScope .function grouping
    let ps' ← parameters inner ps
    let body ← expression inner body
    let id ← freshId
    bindName grouping name.name name.ann .definition (.binding id)
    register
      { id, name := name.name, scope := grouping, paramScope := inner
        arity := ps.length, span := a }
    return ⟨⟨name.name, name.ann, grouping⟩, ps', body, ⟨a, inner⟩⟩

/-- Resolve the definitions of a grouping in order. -/
def definitions (grouping : ScopeId) :
    List (Definition Span) → ResolveM (List (Definition Scoped))
  | [] => return []
  | d :: ds => do
    let d ← definition grouping d
    let ds ← definitions grouping ds
    return d :: ds

end

/-- Resolve a program in a scope below the root. -/
def program (p : Program Span) : ResolveM (Program Scoped) := do
  let scope ← openScope .program ScopeTree.root
  report (.resolvingProgram scope)
  let ds ← definitions scope p.defs
  return ⟨ds, p.ann, scope⟩

end ResolveM

/-- Resolve a program over the given builtin names, numbering its definitions from `seed` on. -/
def resolve (builtins : List String) (seed : DispatchId) (p : Program Span) :
    Reporting ResolveFailure Resolution := fun log =>
  match ResolveM.program p { tree := .ofBuiltins builtins, nextId := seed, log } with
  | .ok program r => .ok { tree := r.tree, program } r.log
  | .error e r => .error e r.log

/-! ### Unbound identifiers -/

mutual

/-- The identifiers of an expression, in source order. -/
def Expr.idents {α : Type} : Expr α → List (Ident α)
  | .ident i => [i]
  | .int _ _ => []
  | .lam _ b _ => b.idents
  | .call f x _ => f.idents ++ x.idents
  | .ite c t e _ => c.idents ++ t.idents ++ e.idents
  | .letIn ds b _ => identsOfDefs ds ++ b.idents

/-- The identifiers in the bodies of a list of definitions, in source order. -/
def identsOfDefs {α : Type} : List (Definition α) → List (Ident α)
  | [] => []
  | ⟨_, _, b, _⟩ :: ds => b.idents ++ identsOfDefs ds

end

/-- What an identifier of a resolved program denotes. -/
def ScopeTree.denotes (t : ScopeTree) (i : Ident Scoped) : Option Entry :=
  t.lookup i.ann.scope i.name

/-- An error for every identifier of the program that denotes nothing, in source order. -/
def Resolution.unboundIdentifiers (r : Resolution) : List ResolveError :=
  (identsOfDefs r.program.defs).filterMap fun i =>
    match r.tree.denotes i with
    | some _ => none
    | none => some (.unboundIdentifier i.name i.ann.span)

end Letrec
