import Letrec.Expr
import Letrec.Proofs.Expr.Tokens

/-!
# Reading programs back

The text of a program is read token by token, with a stack of what has been begun and not ended.  An
operand is kept on the stack until it is known what it is part of: an argument makes it a function,
an operator makes it a left operand, and the end of a bracket, of a branch or of a definition ends
everything that reaches as far as it can (`finish`).

Names are read as operands as well: the head of a definition and the parameters of a function look
like calls, and `names` takes the call apart when the `=` or the arrow has been read.
-/

namespace Letrec.Reader

/-- Something that has been begun, with what has been read of it. -/
inductive Frame where
  /-- An operand.  It is the function of a call if an argument follows. -/
  | operand (e : Expr Unit)
  /-- An operator that nothing stands before: a name in parentheses or the sign of a number. -/
  | lone (op : List Char)
  /-- A left operand and its operator. -/
  | between (left : Expr Unit) (op : String)
  /-- An opening parenthesis. -/
  | paren
  /-- The start of a function, before its arrow. -/
  | lambda
  /-- The parameters of a function. -/
  | under (ps : List (Ident Unit))
  /-- The start of a conditional. -/
  | cond
  /-- The condition of a conditional. -/
  | pos (c : Expr Unit)
  /-- The condition and the first branch of a conditional. -/
  | neg (c t : Expr Unit)
  /-- The start of a `let` block. -/
  | block
  /-- The definitions of a grouping, the last one first. -/
  | defs (ds : List (Definition Unit))
  /-- The name and the parameters of a definition. -/
  | define (name : Ident Unit) (ps : List (Ident Unit))
  /-- The definitions of a `let` block, before its body. -/
  | body (ds : List (Definition Unit))

/-- What has been begun, the innermost first. -/
abbrev Stack := List Frame

/-- The names that a call is made of. -/
def names : Expr Unit → Option (List (Ident Unit))
  | .ident i => some [i]
  | .call f (.ident i) _ => (names f).map (· ++ [i])
  | _ => none

/-- Read an operand or an argument. -/
def operand (e : Expr Unit) : Stack → Stack
  | .operand f :: st => .operand (.call f e ()) :: st
  | st => .operand e :: st

/-- Read a number. -/
def number (n : ℕ) : Stack → Stack
  | .lone ['-'] :: st => .operand (.int (.ofInt (-n)) ()) :: st
  | st => operand (.int (.ofInt n) ()) st

/-- End an expression with everything that reaches as far as it. -/
def finish (e : Expr Unit) : Stack → Expr Unit × Stack
  | .between l op :: st => finish (.call (.call (.ident ⟨op, ()⟩) l ()) e ()) st
  | .under ps :: st => finish (.lam ps e ()) st
  | .neg c t :: st => finish (.ite c t e ()) st
  | .body ds :: st => finish (.letIn ds e ()) st
  | st => (e, st)

/-- End the expression that is on the stack. -/
def ended : Stack → Option (Expr Unit × Stack)
  | .operand e :: st => some (finish e st)
  | _ => none

/-- End a definition. -/
def endDefinition (st : Stack) : Option Stack :=
  match ended st with
  | some (b, .define n ps :: .defs ds :: st) => some (.defs (⟨n, ps, b, ()⟩ :: ds) :: st)
  | _ => none

/-- The words that are no names. -/
def keywords : List String := ["if", "then", "else", "let", "in"]

/-- Read a key word. -/
def keyword (w : String) (st : Stack) : Option Stack :=
  if w = "if" then some (.cond :: st)
  else if w = "then" then
    match ended st with
    | some (c, .cond :: st) => some (.pos c :: st)
    | _ => none
  else if w = "else" then
    match ended st with
    | some (t, .pos c :: st) => some (.neg c t :: st)
    | _ => none
  else if w = "let" then some (.block :: st)
  else
    match st with
    | .defs ds :: st => some (.body ds.reverse :: st)
    | _ => none

/-- Read a word: a key word, a number or a name. -/
def word (w : List Char) (st : Stack) : Option Stack :=
  if String.ofList w ∈ keywords then keyword (String.ofList w) st
  else if w.all Char.isDigit then some (number (Nat.ofDigitChars 10 w 0) st)
  else some (operand (.ident ⟨String.ofList w, ()⟩) st)

/-- Read an operator, the sign of a definition or the arrow of a function. -/
def symbol (op : List Char) (st : Stack) : Option Stack :=
  if op = ['='] then
    match st with
    | .operand e :: st =>
      match names e with
      | some (n :: ps) => some (.define n ps :: st)
      | _ => none
    | _ => none
  else if op = ['-', '>'] then
    match st with
    | .operand e :: .lambda :: st => (names e).map (.under · :: st)
    | .lambda :: st => some (.under [] :: st)
    | _ => none
  else
    match st with
    | .operand l :: st => some (.between l (String.ofList op) :: st)
    | st => some (.lone op :: st)

/-- Read a closing parenthesis: of an operator that is a name here, or of an expression. -/
def closeParen (st : Stack) : Option Stack :=
  match st with
  | .lone op :: .paren :: st => some (operand (.ident ⟨String.ofList op, ()⟩) st)
  | _ =>
    match ended st with
    | some (e, .paren :: st) => some (operand e st)
    | _ => none

/-- Read a closing brace, after the last definition or without any. -/
def closeBrace (st : Stack) : Option Stack :=
  match st with
  | .defs ds :: st => some (.defs ds :: st)
  | _ => endDefinition st

/-- Read a mark. -/
def mark (c : List Char) (st : Stack) : Option Stack :=
  if c = ['('] then some (.paren :: st)
  else if c = [')'] then closeParen st
  else if c = ['\\'] then some (.lambda :: st)
  else if c = ['\x7b'] then
    match st with
    | .block :: st => some (.defs [] :: st)
    | _ => none
  else if c = ['\x7d'] then closeBrace st
  else if c = [';'] ∨ c = ['\n'] then endDefinition st
  else none

/-- Read a token. -/
def step (st : Stack) (t : Token) : Option Stack :=
  match t.kind with
  | .word => word t.chars st
  | .symbol => symbol t.chars st
  | .blank => some st
  | .mark => mark t.chars st

/-- Read characters. -/
def read (cs : List Char) (st : Stack) : Option Stack := (tokens cs).foldlM step st

variable {c : Char} {run rest : List Char} {t : Token} {st st' : Stack}

lemma read_of_tokens {cs : List Char} (h : tokens cs = t :: tokens rest) :
    read cs st = (step st t).bind (read rest) := by
  rw [read, h, List.foldlM_cons]
  rfl

lemma read_blank : read (' ' :: rest) st = read rest st :=
  read_of_tokens (tokens_single rfl rfl)

lemma read_mark (hc : charKind c = .mark) : read (c :: rest) st = (mark [c] st).bind (read rest) :=
  read_of_tokens (tokens_single hc rfl)

lemma charKind_of_isWordChar (hc : isWordChar c) : charKind c = .word := if_pos hc

lemma charKind_of_isSymbolChar (hc : isSymbolChar c) : charKind c = .symbol := by
  simp only [isSymbolChar, List.contains_iff_mem] at hc
  fin_cases hc <;> decide

lemma read_word (hne : run ≠ []) (hrun : ∀ c ∈ run, isWordChar c) (hrest : Ends .word rest) :
    read (run ++ rest) st = (word run st).bind (read rest) :=
  read_of_tokens (tokens_run hne (fun c hc => charKind_of_isWordChar (hrun c hc)) rfl hrest)

lemma read_symbol (hne : run ≠ []) (hrun : ∀ c ∈ run, isSymbolChar c)
    (hrest : Ends .symbol rest) : read (run ++ rest) st = (symbol run st).bind (read rest) :=
  read_of_tokens (tokens_run hne (fun c hc => charKind_of_isSymbolChar (hrun c hc)) rfl hrest)

/-- The stack of a reader that does not go on with an operand. -/
def Awaits : Stack → Prop
  | .operand _ :: _ | .lone _ :: _ => False
  | _ => True

/-- The stack of a reader that takes an operand as it is. -/
def Takes : Stack → Prop
  | .lone _ :: _ => False
  | _ => True

lemma Awaits.takes (h : Awaits st) : Takes st := by
  cases st with
  | nil => trivial
  | cons f st => cases f <;> trivial

lemma Awaits.operand_eq {e : Expr Unit} (h : Awaits st) : operand e st = .operand e :: st := by
  cases st with
  | nil => rfl
  | cons f st => cases f <;> first | rfl | exact absurd h id

lemma Takes.number_eq {n : ℕ} (h : Takes st) : number n st = operand (.int (.ofInt n) ()) st := by
  cases st with
  | nil => rfl
  | cons f st => cases f <;> first | rfl | exact absurd h id

lemma exists_operand_of_ended {r : Expr Unit × Stack} (h : ended st = some r) :
    ∃ e us, st = .operand e :: us := by
  cases st with
  | nil => cases h
  | cons f st => cases f <;> first | exact ⟨_, _, rfl⟩ | cases h

lemma closeParen_of_ended {e : Expr Unit} (h : ended st = some (e, .paren :: st')) :
    closeParen st = some (operand e st') := by
  obtain ⟨e', us, rfl⟩ := exists_operand_of_ended h
  simp only [closeParen, h]

lemma closeBrace_of_ended {e : Expr Unit} {us : Stack} (h : ended st = some (e, us)) :
    closeBrace st = endDefinition st := by
  obtain ⟨e', us, rfl⟩ := exists_operand_of_ended h
  rfl

lemma endDefinition_of_ended {d : Definition Unit} {ds : List (Definition Unit)}
    (h : ended st = some (d.body, .define d.name d.params :: .defs ds :: st')) :
    endDefinition st = some (.defs (d :: ds) :: st') := by
  obtain ⟨n, ps, b, ⟨⟩⟩ := d
  simp only [endDefinition, h]

/-- A call whose arguments are names. -/
def spine (f : Expr Unit) (ps : List (Ident Unit)) : Expr Unit :=
  ps.foldl (fun f p => .call f (.ident p) ()) f

lemma names_spine (f : Expr Unit) (ps : List (Ident Unit)) :
    names (spine f ps) = (names f).map (· ++ ps) := by
  induction ps generalizing f with
  | nil => simp [spine]
  | cons p ps ih =>
    have hcall : spine f (p :: ps) = spine (.call f (.ident p) ()) ps := rfl
    rw [hcall, ih, names, Option.map_map]
    simp [Function.comp_def]

/-- Read a program. -/
def program? (text : String) : Option (Program Unit) :=
  match read text.toList [.defs []] with
  | some [.defs ds] => some ⟨ds.reverse, ()⟩
  | _ => none

end Letrec.Reader
