/-!
# Source positions

A span is a stretch of a source text, from a start to an end, each a line and a column.  Lines and
columns count from zero and a column is a number of bytes.  A span whose source is empty has no
text to point into.

`Span.excerpt` shows a message below the lines it is about.  There is nothing to show when the
span does not fit its source: a line that does not exist, a column past the end of its line or in
the middle of a character, an end before its start on one line, or an end in column zero or in a
column that no text can have.
-/

namespace Letrec

/-- A stretch of a source text. -/
structure Span where
  /-- The whole text that the span points into; empty when there is none. -/
  source : String := ""
  /-- The line of the first byte. -/
  startLine : Nat := 0
  /-- The column of the first byte. -/
  startColumn : Nat := 0
  /-- The line of the end. -/
  endLine : Nat := 0
  /-- The column just past the last byte. -/
  endColumn : Nat := 0
deriving DecidableEq, Repr, Inhabited

namespace Span

/-- The position of a thing that no source text contains. -/
def nowhere : Span := {}

/-- Whether there is a source text to show. -/
def hasSource (s : Span) : Bool := !s.source.isEmpty

/-! ### Lines and byte columns -/

/-- Put a character in front of the first line. -/
def consToFirst (c : Char) : List (List Char) → List (List Char)
  | [] => [[c]]
  | l :: ls => (c :: l) :: ls

/-- The lines of a text.  A line ends at a line feed, a carriage return right before that line
feed belongs to the line end, and a line feed at the very end starts no further line. -/
def linesOf : List Char → List (List Char)
  | [] => []
  | '\n' :: cs => [] :: linesOf cs
  | '\r' :: '\n' :: cs => [] :: linesOf cs
  | c :: cs => consToFirst c (linesOf cs)

/-- Cut a line at a byte column; there is no such cut past the end or inside a character. -/
def cutAtByte : List Char → Nat → Option (List Char × List Char)
  | cs, 0 => some ([], cs)
  | [], _ + 1 => none
  | c :: cs, n + 1 =>
    if c.utf8Size ≤ n + 1 then
      (cutAtByte cs (n + 1 - c.utf8Size)).map fun p => (c :: p.1, p.2)
    else
      none

/-! ### Excerpts -/

/-- The control sequence that turns red on. -/
def redOn : String := "\x1b[31m"

/-- The control sequence that turns all colours off. -/
def coloursOff : String := "\x1b[0m"

/-- Turn red on again wherever a text turns colours off by itself. -/
def keepRed : List Char → List Char
  | [] => []
  | '\x1b' :: '[' :: '0' :: 'm' :: cs => coloursOff.toList ++ redOn.toList ++ keepRed cs
  | c :: cs => c :: keepRed cs

/-- The faulty part of an excerpt, red from end to end when colour is on. -/
def highlight (colour : Bool) (text : List Char) : String :=
  if colour then redOn ++ String.ofList (keepRed text) ++ coloursOff else String.ofList text

/-- The first line of an excerpt, with the part from the start of the span highlighted: up to its
end when the span ends on the same line, and up to the end of the line otherwise. -/
def firstLine (s : Span) (colour : Bool) (line : List Char) : Option String := do
  let (left, right) ← cutAtByte line s.startColumn
  if s.startLine ≠ s.endLine then
    return String.ofList left ++ highlight colour right
  if s.endColumn < s.startColumn then
    none
  let (fault, after) ← cutAtByte right (s.endColumn - s.startColumn)
  return String.ofList left ++ highlight colour fault ++ String.ofList after

/-- The lines of a span after its first one; there are none such when the source ends before. -/
def followingLines (s : Span) (lines : List (List Char)) : Option (List (List Char)) :=
  let count := s.endLine - s.startLine
  let following := (lines.drop (s.startLine + 1)).take count
  if following.length = count then some following else none

/-- No text has this many columns. -/
def columnBound : Nat := 2305843009213693952

/-- The message below the lines that the span covers, or nothing when the span does not fit its
source.  The line before the span is shown too, and the arrow stands below the last byte. -/
def excerpt (s : Span) (colour : Bool) (message : String) : Option String := do
  let lines := linesOf s.source.toList
  let margin := "".pushn ' ' (toString s.endLine).length ++ " |"
  let before ← if s.startLine = 0 then some [] else lines[s.startLine - 1]?
  let first ← s.firstLine colour (← lines[s.startLine]?)
  let following ← s.followingLines lines
  if s.endColumn = 0 ∨ columnBound < s.endColumn then
    none
  return margin ++ "\n" ++ margin ++ String.ofList before ++ " \n"
    ++ toString (s.startLine + 1) ++ " |" ++ first
    ++ String.join (following.map fun line => "\n" ++ margin ++ highlight colour line)
    ++ "\n" ++ toString (s.endLine + 2) ++ " |" ++ "".pushn ' ' (s.endColumn - 1) ++ "^--- "
    ++ message ++ "\n" ++ margin

/-- The wording of an error: with a source, the excerpt around its position; without one, the
message behind the name of the stage that failed. -/
def report (s : Span) (colour : Bool) (stage message : String) : Option String :=
  if s.hasSource then s.excerpt colour message else some (stage ++ ": " ++ message)

end Span

end Letrec
