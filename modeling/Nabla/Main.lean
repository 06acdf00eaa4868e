import Nabla.Session.Script

/-!
# Command line

Runs the script in the file that the first argument names, or else the one on standard input. The
output goes to standard output and the failures of lines to standard error.
-/

namespace Nabla

/-- The headline, the label and the help of a failure, as far as it has them. -/
def Failure.lines : Failure → List String
  | .unreadable _ fault => fault.cause.message :: fault.cause.label :: fault.cause.help?.toList
  | .rejected fault => fault.cause.message :: fault.cause.label :: fault.cause.help?.toList

/-- Print the result of a line. -/
def printResult (result : Except Failure (List String)) : IO Unit :=
  match result with
  | .ok output => output.forM IO.println
  | .error failure => failure.lines.forM IO.eprintln

/-- Run a script and print the result of every line. -/
def printScript (script : String) : IO Unit :=
  (Session.runScript script.toList).2.forM fun (_, result) ↦ printResult result

/-- The script of a run with the given arguments. -/
def readScript (arguments : List String) : IO String := do
  match arguments with
  | file :: _ => IO.FS.readFile file
  | [] => (← IO.getStdin).readToEnd

end Nabla

/-- Run the script that the arguments or standard input give. -/
def main (arguments : List String) : IO Unit := do
  Nabla.printScript (← Nabla.readScript arguments)
