import Letrec.Demo

/-!
# Command line

Without arguments the program prints the demonstration.
-/

/-- Print the demonstration. -/
def main : IO UInt32 := do
  match Letrec.Demo.text? with
  | some text =>
    IO.print text
    return 0
  | none => return 1
