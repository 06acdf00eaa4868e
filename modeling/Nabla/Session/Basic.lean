import Nabla.Decimal.Numeral
import Nabla.Expr.Derivative
import Nabla.Expr.Simplification
import Nabla.Formula.Reader
import Nabla.Session.Failure
import Nabla.Text.Words
import Nabla.Vector.Field

/-!
# Sessions

A session has settings and a current expression, and works line by line. A line that begins with a
`:` is a command; any other line is an expression, which becomes the current one. What a line does
is an `Action`, which assigns to the parts of the session as it goes and may end early in a failure.
`answer` is the action of a line, and `execute` runs it.
-/

namespace Nabla

open Formula (Reader)

/-- The settings of a session and the expression its commands work on. -/
structure Session where
  mode : Mode
  reader : Reader
  trace : Bool
  current : Option Expr
deriving DecidableEq

/-- A command line: the line, the word that names the command and the words after it. -/
structure Request where
  line : List Char
  name : Text.Word
  arguments : List Text.Word

/-- The commands of a session. -/
inductive Command where
  | help
  | mode
  | parser
  | trace
  | eval
  | diff
  | simplify
  | field
deriving DecidableEq, Repr

/-- Every command. -/
def Command.all : List Command := [help, mode, parser, trace, eval, diff, simplify, field]

/-- The word that names a command. -/
def Command.word : Command → String
  | help => ":help"
  | mode => ":mode"
  | parser => ":parser"
  | trace => ":trace"
  | eval => ":eval"
  | diff => ":diff"
  | simplify => ":simplify"
  | field => ":field"

/-- The command that a word names. -/
def Command.ofWord? (word : List Char) : Option Command :=
  Command.all.find? fun command ↦ command.word.toList == word

namespace Session

/-- What is done in a session. A failure ends it, and what it has assigned until then stays
assigned. -/
abbrev Action := ExceptT Failure (StateM Session)

/-- Run an action in a session: the session after it, and its result or the failure. -/
def run {α : Type} (session : Session) (action : Action α) : Session × Except Failure α :=
  let (result, next) := Id.run (action.run.run session)
  (next, result)

/-- The session at the start. -/
def initial : Session := ⟨.multiVariable, .token, false, none⟩

/-- The number of decimal places that numbers are printed with. -/
def places : Nat := 4

/-- The box that the lengths of a field are sampled in, by its reach along each axis. -/
def fieldRange : Expr.Point := ⟨2, 2, 2⟩

/-- The step that the lengths of a field are sampled in. -/
def fieldStep : Float32 := 1

/-- The lines that list the commands. -/
def helpLines : List String := [
  "<expression>            parse an expression and make it the current one",
  ":mode none|single|multi  choose the symbols expressions may use",
  ":parser token|direct     choose the parser",
  ":trace on|off            print the parser trace",
  ":eval X [Y Z]            evaluate the current expression",
  ":diff SYMBOL             differentiate the current expression",
  ":simplify                simplify the current expression, listing the rules used",
  ":field I ; J ; K         print a vector field, its curl and the range of its lengths",
  ":help                    print this message"]

/-! ### Failures -/

/-- The failure of a command at a region of its line. -/
def reject {α : Type} (cause : CommandCause) (span : Text.Span) : Except Failure α :=
  .error (.rejected ⟨cause, [span]⟩)

/-- The only argument of a command. -/
def onlyArgument (request : Request) (expected : Expectation) : Except Failure Text.Word :=
  match request.arguments with
  | [] => reject (.missingArgument expected) request.name.span
  | [argument] => .ok argument
  | _ :: second :: _ => reject (.invalidArgument .nothingMore) second.span

/-- What a word stands for, or the failure at the word. -/
def interpret {α : Type} (expected : Expectation) (meaning : List Char → Option α)
    (word : Text.Word) : Except Failure α :=
  match meaning word.text with
  | some value => .ok value
  | none => reject (.invalidArgument expected) word.span

/-- The current expression, or the failure of a command that needs one. -/
def needCurrent (request : Request) : Action Expr := do
  match (← get).current with
  | some e => return e
  | none => reject .noExpression request.name.span

/-! ### Expressions -/

/-- Read an expression with the reader of the session. The trace is added to the output, if it is
on, before the reading can fail. -/
def readExpr (mode : Mode) (input : List Char) (output : List String) :
    Action (Expr × List String) := do
  let session ← get
  let recorded := session.reader.read mode input
  let traced := if session.trace then recorded.events.map ("trace: " ++ ·.text) else []
  match recorded.outcome with
  | .ok e => return (e, output ++ traced)
  | .error fault => throw (.unreadable input fault)

/-- Answer a line that is an expression. -/
def answerExpression (line : List Char) : Action (List String) := do
  let (e, output) ← readExpr (← get).mode line []
  let output := output ++ ["expression: " ++ e.plain, "simplified: " ++ e.simplify.plain]
  modify fun session ↦ { session with current := some e }
  return output

/-! ### Settings -/

/-- The mode with the given name in a command. -/
def modeOfWord? (word : List Char) : Option Mode :=
  if word = "none".toList then some .constant
  else if word = "single".toList then some .singleVariable
  else if word = "multi".toList then some .multiVariable
  else none

/-- The reader with the given name. -/
def readerOfWord? (word : List Char) : Option Reader :=
  if word = "token".toList then some .token
  else if word = "direct".toList then some .direct
  else none

/-- Whether a switch is on, by name. -/
def switchOfWord? (word : List Char) : Option Bool :=
  if word = "on".toList then some true
  else if word = "off".toList then some false
  else none

/-- The name of the state of a switch. -/
def switchName (on : Bool) : String := if on then "on" else "off"

/-- Answer a command that chooses a setting. What its only argument stands for is assigned, and the
output is taken from the session after that. -/
def choose {α : Type} (request : Request) (expected : Expectation)
    (meaning : List Char → Option α) (assign : α → Session → Session)
    (shown : Session → String) : Action (List String) := do
  let argument ← onlyArgument request expected
  let chosen ← interpret expected meaning argument
  modify (assign chosen)
  return [shown (← get)]

/-- Answer a command that chooses the mode. -/
def answerMode (request : Request) : Action (List String) :=
  choose request .modeName modeOfWord? (fun mode session ↦ { session with mode })
    fun session ↦ "mode: " ++ session.mode.name

/-- Answer a command that chooses the reader. -/
def answerParser (request : Request) : Action (List String) :=
  choose request .readerName readerOfWord? (fun reader session ↦ { session with reader })
    fun session ↦ "parser: " ++ session.reader.name

/-- Answer a command that turns the trace on or off. -/
def answerTrace (request : Request) : Action (List String) :=
  choose request .onOrOff switchOfWord? (fun trace session ↦ { session with trace })
    fun session ↦ "trace: " ++ switchName session.trace

/-! ### The current expression -/

/-- The point with the given coordinates; those that are left out are zero. -/
def pointOf (coordinates : List Float32) : Expr.Point :=
  ⟨coordinates.getD 0 0, coordinates.getD 1 0, coordinates.getD 2 0⟩

/-- The coordinates that the arguments of a command give: one to three numbers. -/
def coordinatesOf (request : Request) : Except Failure (List Float32) :=
  match request.arguments with
  | [] => reject (.missingArgument .point) request.name.span
  | _ :: _ :: _ :: fourth :: _ => reject (.invalidArgument .threeCoordinates) fourth.span
  | arguments => arguments.mapM (interpret .number Decimal.readNumber?)

/-- Answer a command that evaluates the current expression. -/
def answerEval (request : Request) : Action (List String) := do
  let e ← needCurrent request
  let coordinates ← coordinatesOf request
  return [Decimal.trimmed (e.eval (pointOf coordinates)) places]

/-- Answer a command that differentiates the current expression. -/
def answerDiff (request : Request) : Action (List String) := do
  let e ← needCurrent request
  let argument ← onlyArgument request .symbol
  let symbol ← interpret .symbolLetter Formula.symbolOfText? argument
  let derivative := (e.derivative symbol).simplify
  let output := ["d/d" ++ symbol.letter.toString ++ ": " ++ derivative.plain]
  modify fun session ↦ { session with current := some derivative }
  return output

/-- Answer a command that simplifies the current expression. -/
def answerSimplify (request : Request) : Action (List String) := do
  let e ← needCurrent request
  let (simplified, steps) := e.simplifyWithSteps
  let output := ("simplified: " ++ simplified.plain) :: steps.map ("  " ++ ·.text)
  modify fun session ↦ { session with current := some simplified }
  return output

/-! ### Vector fields -/

/-- The line about the range of the lengths of a field, if there is one. -/
def lengthLines (field : VectorField) : List String :=
  match field.lengthRange? fieldRange fieldStep with
  | some (least, greatest) =>
      ["lengths: " ++ Decimal.trimmed least places ++ " to " ++ Decimal.trimmed greatest places]
  | none => []

/-- The failure of a command whose text after its name is not three components. -/
def rejectComponents {α : Type} (request : Request) (text : List Char)
    (components : List (List Char)) : Except Failure α :=
  reject (.fieldComponents (components.filter (!·.isEmpty)).length)
    (if Text.isBlankLine text then request.name.span
    else ⟨request.name.span.stop, Text.byteLength request.line⟩)

/-- The three texts between the separators behind the name of a command, each without the white
space around it. -/
def threeComponents (request : Request) :
    Except Failure (List Char × List Char × List Char) :=
  let text := Text.dropBytes request.name.span.stop request.line
  let components := (Text.fields ';' text).map Text.trim
  match components with
  | [first, second, third] =>
      if components.any List.isEmpty then rejectComponents request text components
      else .ok (first, second, third)
  | _ => rejectComponents request text components

/-- Answer a command that prints a vector field. -/
def answerField (request : Request) : Action (List String) := do
  let (first, second, third) ← threeComponents request
  let (i, output) ← readExpr .multiVariable first []
  let (j, output) ← readExpr .multiVariable second output
  let (k, output) ← readExpr .multiVariable third output
  let field : VectorField := ⟨i, j, k⟩
  return output ++ ["field: " ++ field.text .plain, "curl: " ++ field.curl.text .plain] ++
    lengthLines field

/-! ### Lines -/

/-- Answer a command. -/
def answerCommand (request : Request) : Action (List String) :=
  match Command.ofWord? request.name.text with
  | some .help => return helpLines
  | some .mode => answerMode request
  | some .parser => answerParser request
  | some .trace => answerTrace request
  | some .eval => answerEval request
  | some .diff => answerDiff request
  | some .simplify => answerSimplify request
  | some .field => answerField request
  | none => reject (.unknownCommand request.name.text) request.name.span

/-- Whether a line is a command. -/
def isCommandLine (line : List Char) : Bool := (Text.trimStart line).head? == some ':'

/-- Answer a line. -/
def answer (line : List Char) : Action (List String) :=
  if isCommandLine line then
    match Text.words line with
    | [] => return []
    | name :: arguments => answerCommand ⟨line, name, arguments⟩
  else answerExpression line

/-- Run a line: the session after it, and the output or the failure. -/
def execute (session : Session) (line : List Char) : Session × Except Failure (List String) :=
  session.run (answer line)

end Session

end Nabla
