import Letrec.Scope.Resolution

/-!
# Outlines

An outline lists the nodes of a resolved program, a node before its parts, each with a label and its
annotation.  It shows at a glance which scope every node got.
-/

namespace Letrec

/-- One node of an outline. -/
structure OutlineItem where
  /-- What the node is. -/
  label : String
  /-- Its position and scope. -/
  ann : Scoped
deriving DecidableEq, Repr

/-- The parameters of a function in an outline. -/
def outlineOfParams (ps : List (Ident Scoped)) : List OutlineItem :=
  ps.map fun p => ⟨"param " ++ p.name, p.ann⟩

mutual

/-- The nodes of an expression. -/
def Expr.outline : Expr Scoped → List OutlineItem
  | .ident i => [⟨"ident " ++ i.name, i.ann⟩]
  | .int v a => [⟨"int " ++ toString v.toInt, a⟩]
  | .lam ps b a => ⟨"lambda", a⟩ :: outlineOfParams ps ++ b.outline
  | .call f x a => ⟨"call", a⟩ :: f.outline ++ x.outline
  | .ite c t e a => ⟨"if", a⟩ :: c.outline ++ t.outline ++ e.outline
  | .letIn ds b a => ⟨"let", a⟩ :: outlineOfDefs ds ++ b.outline

/-- The nodes of a list of definitions. -/
def outlineOfDefs : List (Definition Scoped) → List OutlineItem
  | [] => []
  | ⟨n, ps, b, a⟩ :: ds =>
    ⟨"def " ++ n.name ++ " in " ++ toString n.ann.scope, a⟩ :: outlineOfParams ps ++ b.outline
      ++ outlineOfDefs ds

end

/-- The nodes of a program. -/
def Program.outline (p : Program Scoped) : List OutlineItem :=
  ⟨"program", p.ann⟩ :: outlineOfDefs p.defs

end Letrec
