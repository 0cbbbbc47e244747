import Letrec.Expr
import Letrec.Text.Alphanumeric

/-!
# The text of a program

A program is written one definition a line.  Three levels decide where parentheses stand: a whole
expression needs none; an operand is put in parentheses when it would swallow what follows it (a
function, a conditional, a `let` block), when it is itself written infix, or when it starts with
a minus sign; an argument is put in parentheses when it is a call, too.

A call of an operator with two arguments is written infix.  Everywhere else an operator name stands
in parentheses.
-/

namespace Letrec

variable {α : Type}

/-- Where an expression stands, from the place that allows most to the one that allows least. -/
inductive Level where
  /-- A whole body, branch or condition. -/
  | top
  /-- The function of a call, or an operand of an infix operator. -/
  | operand
  /-- The argument of a call. -/
  | argument
deriving DecidableEq, Repr

/-- A character that operator names are made of. -/
def isOperatorChar (c : Char) : Bool :=
  !Text.isAlphanumeric c && c != '_' && c != '\''

/-- A name that is written between its operands. -/
def isOperator (name : String) : Bool :=
  !name.isEmpty && name.toList.all isOperatorChar

/-- Put a text in parentheses if the condition holds. -/
def parens (needed : Bool) (text : String) : String :=
  if needed then "(" ++ text ++ ")" else text

/-- A name outside infix position. -/
def nameText (name : String) : String := parens (isOperator name) name

mutual

/-- The text of an expression at a level. -/
def Expr.textAt : Level → Expr α → String
  | _, .ident i => nameText i.name
  | level, .int v _ => parens (v < 0 && level != .top) (toString v.toInt)
  | level, .call (.call (.ident op) left a) right _ =>
    if isOperator op.name then
      parens (level != .top)
        (left.textAt .operand ++ " " ++ op.name ++ " " ++ right.textAt .operand)
    else
      parens (level == .argument)
        (Expr.textAt .operand (.call (.ident op) left a) ++ " " ++ right.textAt .argument)
  | level, .call fn arg _ =>
    parens (level == .argument) (fn.textAt .operand ++ " " ++ arg.textAt .argument)
  | level, .lam ps body _ =>
    parens (level != .top)
      ("\\" ++ " ".intercalate (ps.map fun p => nameText p.name) ++ " -> " ++ body.textAt .top)
  | level, .ite c t e _ =>
    parens (level != .top)
      ("if " ++ c.textAt .top ++ " then " ++ t.textAt .top ++ " else " ++ e.textAt .top)
  | level, .letIn ds body _ =>
    parens (level != .top)
      ("let \x7b " ++ "; ".intercalate (textsOfDefs ds) ++ " \x7d in " ++ body.textAt .top)

/-- The text of a definition: name, parameters and body. -/
def Definition.text : Definition α → String
  | ⟨n, ps, body, _⟩ =>
    nameText n.name ++ String.join (ps.map fun p => " " ++ nameText p.name) ++ " = "
      ++ body.textAt .top

/-- The texts of a list of definitions. -/
def textsOfDefs : List (Definition α) → List String
  | [] => []
  | d :: ds => d.text :: textsOfDefs ds

end

/-- The text of a whole expression. -/
def Expr.text (e : Expr α) : String := e.textAt .top

/-- The text of a program, one definition a line. -/
def Program.text (p : Program α) : String :=
  String.join (p.defs.map fun d => d.text ++ "\n")

end Letrec
