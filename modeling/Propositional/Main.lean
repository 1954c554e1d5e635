import Propositional.CommandLine.Outcome

/-!
# The program

Prints the truth table of the expressions given as arguments.
-/

open Propositional.CommandLine in
/-- Writes what the arguments ask for and returns the exit code. -/
def main (args : List String) : IO UInt32 := do
  let outcome := Outcome.ofArguments args
  IO.print outcome.stdout
  if outcome.exit = 2 then
    IO.eprintln "usage: [-r] [-v] [-f human|latex] [-b FALSE,TRUE] EXPRESSION..."
  return outcome.exit.toUInt32
