import Nabla.Proofs.Session.Transition
import Nabla.Proofs.Text.Lines
import Nabla.Session.Script

/-!
# Lines that fail

A line that fails leaves the session as it was, and prints nothing. A line that is carried out
changes at most one part of the session, the one that its command is about. So the lines of a script
that fail can be deleted: the rest runs in the same sessions (`runScript_withoutFailures`).
-/

namespace Nabla

/-- The parts of a session. -/
inductive Session.Part where
  | mode
  | reader
  | trace
  | current
deriving DecidableEq, Repr

/-- The part of a session that a command may change. -/
def Command.part? : Command → Option Session.Part
  | .mode => some .mode
  | .parser => some .reader
  | .trace => some .trace
  | .diff => some .current
  | .simplify => some .current
  | .help => none
  | .eval => none
  | .field => none

namespace Session

/-! ### What a line changes -/

/-- The part of a session that a line may change: what its command is about, or the current
expression if the line is an expression. -/
def part? (line : List Char) : Option Part :=
  if isCommandLine line then (commandOf? line).bind Command.part? else some .current

/-- Two sessions agree on a part. -/
def AgreeOn (session next : Session) : Part → Prop
  | .mode => next.mode = session.mode
  | .reader => next.reader = session.reader
  | .trace => next.trace = session.trace
  | .current => next.current = session.current

/-- Two sessions agree on every part but the given one. -/
def SameExcept (changed : Option Part) (session next : Session) : Prop :=
  ∀ part, changed ≠ some part → session.AgreeOn next part

/-- A command line may change what its command is about. -/
theorem part?_of_commandOf? {line : List Char} {command : Command}
    (h : commandOf? line = some command) : part? line = command.part? := by
  have hline : isCommandLine line = true := by
    unfold commandOf? at h
    split at h
    · assumption
    · cases h
  rw [part?, if_pos hline, h, Option.bind_some]

/-- A session agrees with itself on every part. -/
theorem agreeOn_self (session : Session) (part : Part) : session.AgreeOn session part := by
  cases part <;> rfl

/-- A transition changes at most the part that the line is about. -/
theorem Transition.sameExcept {session next : Session} {line : List Char}
    (h : Transition session line next) : session.SameExcept (part? line) next := by
  intro part hpart
  cases h with
  | read hline hread =>
    rw [part?, hline] at hpart
    cases part <;> first | rfl | exact absurd rfl hpart
  | mode hcommand | reader hcommand | trace hcommand | diff hcommand | simplify hcommand =>
    rw [part?_of_commandOf? hcommand] at hpart
    cases part <;> first | rfl | exact absurd rfl hpart
  | unchanged => exact session.agreeOn_self part

/-- A line that fails leaves the session as it was. -/
theorem execute_of_error {session : Session} {line : List Char} {failure : Failure}
    (h : (session.execute line).2 = .error failure) :
    session.execute line = (session, .error failure) :=
  Prod.ext ((session.ends_answer line).error failure h) h

/-! ### Deleting lines -/

/-- The pieces of a script that are left when those of the failing lines are deleted. Blank lines
are not run, so they do not fail. -/
def keptPieces (session : Session) : List (List Char) → List (List Char)
  | [] => []
  | piece :: rest =>
      if Text.isBlankLine (Text.lineOfPiece piece) then piece :: session.keptPieces rest
      else
        let (next, result) := session.execute (Text.lineOfPiece piece)
        if result.isOk then piece :: next.keptPieces rest else next.keptPieces rest

/-- A script without the lines that fail when it is run. -/
def withoutFailures (script : List Char) : List Char :=
  (initial.keptPieces (Text.pieces script)).flatten

/-- The pieces that are left are some of the pieces, in order. -/
theorem keptPieces_sublist (session : Session) (pieces : List (List Char)) :
    (session.keptPieces pieces).Sublist pieces := by
  induction pieces generalizing session with
  | nil => exact List.Sublist.refl []
  | cons piece rest ih =>
    unfold keptPieces
    split
    · exact (ih session).cons_cons piece
    · simp only
      split
      · exact (ih _).cons_cons piece
      · exact (ih _).cons piece

/-- The lines of some pieces that are run. -/
def linesOfPieces (pieces : List (List Char)) : List (List Char) :=
  (pieces.map Text.lineOfPiece).filter fun line ↦ !Text.isBlankLine line

/-- The lines of a script are those of its pieces. -/
theorem scriptLines_flatten {pieces : List (List Char)} (h : Text.Cut pieces) :
    scriptLines pieces.flatten = linesOfPieces pieces := by
  rw [scriptLines, h.lines_flatten, linesOfPieces]

/-- Without the failing lines, the others have the same results and lead to the same session. -/
theorem runLines_keptPieces (session : Session) (pieces : List (List Char)) :
    session.runLines (linesOfPieces (session.keptPieces pieces)) =
      ((session.runLines (linesOfPieces pieces)).1,
        (session.runLines (linesOfPieces pieces)).2.filter fun (_, result) ↦ result.isOk) := by
  induction pieces generalizing session with
  | nil => rfl
  | cons piece rest ih =>
    unfold keptPieces
    by_cases hblank : Text.isBlankLine (Text.lineOfPiece piece) = true
    · have hskip (pieces : List (List Char)) :
          linesOfPieces (piece :: pieces) = linesOfPieces pieces := by
        simp [linesOfPieces, hblank]
      rw [if_pos hblank, hskip, hskip, ih]
    · have hrun (pieces : List (List Char)) :
          linesOfPieces (piece :: pieces) = Text.lineOfPiece piece :: linesOfPieces pieces := by
        simp [linesOfPieces, hblank]
      rw [if_neg hblank, hrun]
      cases hresult : (session.execute (Text.lineOfPiece piece)).2 with
      | error failure =>
        -- The session goes on as it was, with or without the line.
        have hexecute := execute_of_error hresult
        have hfailed : (Except.error failure : Except Failure (List String)).isOk = false := rfl
        simp only [hexecute, hfailed, Bool.false_eq_true, if_false, runLines, ih session,
          not_false_eq_true, List.filter_cons_of_neg]
      | ok output =>
        have hexecute : session.execute (Text.lineOfPiece piece) =
            ((session.execute (Text.lineOfPiece piece)).1, .ok output) := Prod.ext rfl hresult
        have hok : (Except.ok output : Except Failure (List String)).isOk = true := rfl
        generalize (session.execute (Text.lineOfPiece piece)).1 = next at hexecute
        simp only [hexecute, hok, if_true, hrun, runLines, ih next, List.filter_cons_of_pos]

/-- Without its failing lines a script runs through the same sessions, and every line that is left
has the result it had. -/
theorem runScript_withoutFailures (script : List Char) :
    runScript (withoutFailures script) =
      ((runScript script).1, (runScript script).2.filter fun (_, result) ↦ result.isOk) := by
  have hcut : Text.Cut (Text.pieces script) := Text.cut_pieces script
  have hkept : Text.Cut (initial.keptPieces (Text.pieces script)) :=
    hcut.sublist (initial.keptPieces_sublist (Text.pieces script))
  have hscript : scriptLines script = linesOfPieces (Text.pieces script) := by
    rw [← scriptLines_flatten hcut, Text.flatten_pieces]
  unfold runScript withoutFailures
  rw [hscript, scriptLines_flatten hkept, runLines_keptPieces]

/-- A result that is not printed prints nothing. -/
theorem flatMap_printed_filter (results : List (List Char × Except Failure (List String))) :
    (results.filter fun (_, result) ↦ result.isOk).flatMap (fun (_, result) ↦ printed result) =
      results.flatMap fun (_, result) ↦ printed result := by
  induction results with
  | nil => rfl
  | cons entry rest ih =>
    obtain ⟨line, result⟩ := entry
    cases result with
    | error failure => exact ih
    | ok output => exact congrArg (output ++ ·) ih

/-- A script prints the same without the lines that fail. -/
theorem scriptText_withoutFailures (script : List Char) :
    scriptText (withoutFailures script) = scriptText script := by
  rw [scriptText, scriptOutput, runScript_withoutFailures, flatMap_printed_filter]
  rfl

/-- A line that fails leaves every part of the session unchanged, and one that is carried out
changes at most the part that it is about. So a script without the lines that fail prints the same
and ends in the same session. -/
theorem failing_lines_leave_no_trace :
    (∀ (session : Session) (line : List Char),
      match session.execute line with
      | (next, .error _) => next = session
      | (next, .ok _) => session.SameExcept (part? line) next) ∧
    ∀ script : List Char,
      (runScript (withoutFailures script)).1 = (runScript script).1 ∧
      (runScript (withoutFailures script)).2 =
        ((runScript script).2.filter fun (_, result) ↦ result.isOk) ∧
      scriptText (withoutFailures script) = scriptText script := by
  refine ⟨fun session line ↦ ?_, fun script ↦ ?_⟩
  · have hends := session.ends_answer line
    split
    · rename_i next failure h
      have hsame : (session.execute line).1 = session := hends.error failure (congrArg Prod.snd h)
      rw [h] at hsame
      exact hsame
    · rename_i next output h
      have hstep : Transition session line (session.execute line).1 :=
        hends.ok output (congrArg Prod.snd h)
      rw [h] at hstep
      exact hstep.sameExcept
  · rw [runScript_withoutFailures]
    exact ⟨rfl, rfl, scriptText_withoutFailures script⟩

end Session

end Nabla
