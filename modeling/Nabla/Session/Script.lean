import Nabla.Session.Basic

/-!
# Scripts

A script is a text whose lines are run in one session. Blank lines are skipped, and a line that
fails prints nothing.
-/

namespace Nabla.Session

/-- The lines of a script that are run. -/
def scriptLines (script : List Char) : List (List Char) :=
  (Text.lines script).filter fun line ↦ !Text.isBlankLine line

/-- The result of every line, and the session at the end. -/
def runLines (session : Session) :
    List (List Char) → Session × List (List Char × Except Failure (List String))
  | [] => (session, [])
  | line :: rest =>
      let (next, result) := session.execute line
      let (final, results) := next.runLines rest
      (final, (line, result) :: results)

/-- The printed lines of a result. -/
def printed : Except Failure (List String) → List String
  | .ok output => output
  | .error _ => []

/-- Run a script in a new session: the session at the end, and every line with its result. -/
def runScript (script : List Char) : Session × List (List Char × Except Failure (List String)) :=
  initial.runLines (scriptLines script)

/-- The lines that a script prints. -/
def scriptOutput (script : List Char) : List String :=
  (runScript script).2.flatMap fun (_, result) ↦ printed result

/-- The text that a script prints, each line with a line feed at its end. -/
def scriptText (script : List Char) : String :=
  String.join ((scriptOutput script).map (· ++ "\n"))

end Nabla.Session
