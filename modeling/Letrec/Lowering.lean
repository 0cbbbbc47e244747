import Letrec.Recursion
import Letrec.Term.Recursive

/-!
# Lowering

A resolved program becomes one closed term.  The definitions of a grouping become a chain of
functions applied at once, `(\name. rest) value`, in the order of their components, so that a
definition stands under the names it refers to.  A self-recursive definition becomes a fixed
point, a mutually recursive group one dispatch table.  Definitions that bind no name are dropped,
whatever they contain.

The classification decides which of these a definition becomes.  Lowering with the classification
of another program is refused where that classification names a definition that the program does
not have.
-/

namespace Letrec

/-- Why a program cannot be lowered. -/
inductive LowerError where
  /-- There is no definition with the name of the entry point. -/
  | missingMain (entry : String) (span : Span)
  /-- A name denotes nothing where it is used. -/
  | unboundIdentifier (name : String) (span : Span)
  /-- The classification names a definition that the grouping does not have. -/
  | unknownDefinition (id : DispatchId) (span : Span)
  /-- A recursive group has no members. -/
  | emptyGroup (span : Span)
deriving DecidableEq, Repr

namespace LowerError

/-- Where the error is. -/
def span : LowerError → Span
  | missingMain _ span | unboundIdentifier _ span | unknownDefinition _ span => span
  | emptyGroup span => span

/-- The wording of the error, without its position. -/
def message : LowerError → String
  | missingMain entry _ => "program has no `" ++ entry ++ "` function"
  | unboundIdentifier name _ => "use of undefined symbol `" ++ name ++ "`"
  | unknownDefinition id _ => "no definition with dispatch id " ++ toString id
  | emptyGroup _ => "recursive group has no members"

/-- The error with its position; nothing if the position does not fit its source. -/
def report (e : LowerError) (colour : Bool) : Option String :=
  e.span.report colour "Lowering error" e.message

end LowerError

/-- Lowering reports events and may fail. -/
abbrev LowerM := Reporting LowerError

/-- What lowering knows of the program. -/
structure LowerContext where
  /-- The scopes and definitions. -/
  tree : ScopeTree
  /-- How the definitions are recursive. -/
  classification : Classification
  /-- The name of its table for every member of a mutually recursive group. -/
  tables : List (DispatchId × String)

/-- A definition that waits to be lowered. -/
structure Member where
  /-- Its number. -/
  id : DispatchId
  /-- Its name. -/
  name : String
  /-- Where it stands. -/
  span : Span
  /-- Its function, once lowered. -/
  code : LowerM Term

/-- The tables of the mutually recursive groups of a classification, by member. -/
def Classification.tables (c : Classification) : List (DispatchId × String) :=
  c.mutualGroups.flatMap fun group =>
    ((dispatchAlias? group).map fun table => group.map (·, table)).getD []

namespace LowerContext

/-- The context of a program and a classification. -/
def of (tree : ScopeTree) (c : Classification) : LowerContext :=
  { tree, classification := c, tables := c.tables }

/-- The name of the table that a definition is in. -/
def table? (ctx : LowerContext) (id : DispatchId) : Option String := ctx.tables.lookup id

/-- A reference to a definition, through its table if it is in one. -/
def reference (ctx : LowerContext) (id : DispatchId) (name : String) : Term :=
  match ctx.table? id with
  | some table => .dispatch table id
  | none => .var name

/-- Lower an identifier. -/
def identifier (ctx : LowerContext) (i : Ident Scoped) : LowerM Term :=
  match ctx.tree.denotes i with
  | some (.binding id) => return ctx.reference id i.name
  | some .parameter | some .builtin => return .var i.name
  | none => throw (.unboundIdentifier i.name i.ann.span)

/-! ### Groupings -/

/-- Lower a definition on its own; a self-recursive one becomes a fixed point. -/
def single (ctx : LowerContext) (m : Member) : LowerM Term := do
  let code ← m.code
  if (ctx.classification.flags m.id).selfRecursive then
    Reporting.report (.wrappedInY m.name)
    return .fix m.name code
  else
    return code

/-- Insert a member into a list that ascends by number. -/
def insertMember (m : Member) : List Member → List Member
  | [] => [m]
  | n :: ns => if m.id ≤ n.id then m :: n :: ns else n :: insertMember m ns

/-- Lower the members of a group in order, each with its number. -/
def codes : List Member → LowerM (List (DispatchId × Term))
  | [] => return []
  | m :: ms => do
    let code ← m.code
    let rest ← codes ms
    return (m.id, code) :: rest

/-- Lower a group to its table.  Members are tried by number, the lowest first. -/
def group (ctx : LowerContext) (ms : List Member) : LowerM (String × Term) :=
  match ms.foldr insertMember [] with
  | [] => throw (.emptyGroup .nowhere)
  | first :: rest =>
    match ctx.table? first.id with
    | none => throw (.unknownDefinition first.id first.span)
    | some table => do
      Reporting.report (.emittedTable table ((first :: rest).map fun m => (m.name, m.id)))
      let code ← first.code
      let codes ← codes rest
      return (table, .dispatchTable table (first.id, code) codes)

/-- Find the members of a component among the definitions of its grouping. -/
def membersOf (members : List Member) : List DispatchId → LowerM (List Member)
  | [] => return []
  | id :: ids => do
    match members.find? (·.id == id) with
    | none => throw (.unknownDefinition id .nowhere)
    | some m => return m :: (← membersOf members ids)

/-- Lower one component to a name and a value, or to nothing if it binds no name. -/
def component (ctx : LowerContext) : List Member → LowerM (Option (String × Term))
  | [] => return none
  | [m] =>
    if (ctx.table? m.id).isSome then
      return some (← ctx.group [m])
    else if isDiscard m.name then
      return none
    else
      return some (m.name, ← ctx.single m)
  | ms => return some (← ctx.group ms)

/-- Lower the components of a grouping in order. -/
def bindings (ctx : LowerContext) (members : List Member) :
    List (List DispatchId) → LowerM (List (String × Term))
  | [] => return []
  | c :: cs => do
    let ms ← membersOf members c
    let b ← ctx.component ms
    let rest ← bindings ctx members cs
    return b.toList ++ rest

/-- Bind names around a body, the first outermost. -/
def chain (bindings : List (String × Term)) (body : Term) : Term :=
  bindings.foldr (fun b rest => .app (.lam b.1 rest) b.2) body

/-- Bind the definitions of a grouping around a body. -/
def grouping (ctx : LowerContext) (scope : ScopeId) (members : List Member) (body : Term) :
    LowerM Term := do
  let bs ← ctx.bindings members (ctx.classification.components scope)
  return chain bs body

/-! ### Expressions -/

mutual

/-- Lower an expression. -/
def expression (ctx : LowerContext) : Expr Scoped → LowerM Term
  | .ident i => ctx.identifier i
  | .int v _ => return .int v
  | .lam ps b _ => do
    let b ← ctx.expression b
    return .lams (ps.map Ident.name) b
  | .call f x _ => do
    let f ← ctx.expression f
    let x ← ctx.expression x
    return .app f x
  | .ite c t e _ => do
    let c ← ctx.expression c
    let t ← ctx.expression t
    let e ← ctx.expression e
    return .cond c t e
  | .letIn ds b a => do
    let b ← ctx.expression b
    ctx.grouping a.scope (ctx.members ds) b

/-- The definitions of a grouping, ready to be lowered in any order. -/
def members (ctx : LowerContext) : List (Definition Scoped) → List Member
  | [] => []
  | ⟨name, ps, b, a⟩ :: ds =>
    let code : LowerM Term := do
      let b ← ctx.expression b
      return .lams (ps.map Ident.name) b
    match ctx.tree.ownerOf? a.scope with
    | some d => { id := d.id, name := name.name, span := a.span, code } :: ctx.members ds
    | none => ctx.members ds

end

/-- Lower a program to a term that evaluates its entry point. -/
def program (ctx : LowerContext) (p : Program Scoped) (entry : String) : LowerM Term := do
  match ctx.tree.entry? p.ann.scope entry with
  | some (.binding id) =>
    Reporting.report (.loweringProgram entry id)
    let body ← ctx.grouping p.ann.scope (ctx.members p.defs) (ctx.reference id entry)
    return .app (.lam ifAlias (.app (.lam eqAlias body) (.var "=="))) (.var "if")
  | _ => throw (.missingMain entry p.ann.span)

end LowerContext

/-- Lower a resolved program with a classification, starting from an entry point. -/
def Resolution.lower (r : Resolution) (c : Classification) (entry : String) : LowerM Term :=
  (LowerContext.of r.tree c).program r.program entry

end Letrec
