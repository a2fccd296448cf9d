/-
The program.
-/
import Erasure.CommandLine

/-- Runs the command line and prints what it leaves behind. -/
def main (args : List String) : IO UInt32 := do
  let outcome := Erasure.CommandLine.run args
  IO.print outcome.stdout
  IO.eprint outcome.stderr
  return outcome.code
