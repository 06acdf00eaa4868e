import Nabla.Formula.Fault

/-!
# Failures of a session line

A line fails because a text in it is no expression, or because it is no proper command. A
`CommandFault` is a cause with the regions of the line that it points at.
-/

namespace Nabla

/-- What a command expects at some place. -/
inductive Expectation where
  | modeName
  | readerName
  | onOrOff
  | point
  | threeCoordinates
  | number
  | symbol
  | symbolLetter
  | nothingMore
deriving DecidableEq, Repr

/-- What is expected, in words. -/
def Expectation.description : Expectation → String
  | modeName => "one of `none`, `single` or `multi`"
  | readerName => "`token` or `direct`"
  | onOrOff => "`on` or `off`"
  | point => "a point"
  | threeCoordinates => "at most three coordinates"
  | number => "a number"
  | symbol => "a symbol"
  | symbolLetter => "one of `t`, `x`, `y` or `z`"
  | nothingMore => "nothing more"

/-- Why a command is not carried out. -/
inductive CommandCause where
  /-- There is no command of this name. -/
  | unknownCommand (name : List Char)
  /-- An argument is missing. -/
  | missingArgument (expected : Expectation)
  /-- An argument is not what is expected. -/
  | invalidArgument (expected : Expectation)
  /-- There is no current expression. -/
  | noExpression
  /-- A vector field is not given by three components. -/
  | fieldComponents (found : Nat)
deriving DecidableEq

/-- A cause and the regions of the line it points at. -/
abbrev CommandFault := Text.Report CommandCause

/-- Why a line of a session fails. -/
inductive Failure where
  /-- The text `input` is not an expression. The fault points into that text. -/
  | unreadable (input : List Char) (fault : Formula.Fault)
  /-- A command is not carried out. The fault points into the line. -/
  | rejected (fault : CommandFault)
deriving DecidableEq

namespace CommandCause

/-- The headline of a fault. -/
def message : CommandCause → String
  | unknownCommand name => "unknown command `" ++ String.ofList name ++ "`"
  | missingArgument _ => "missing argument"
  | invalidArgument _ => "invalid argument"
  | noExpression => "there is no expression to work on"
  | fieldComponents found => "a vector field has three components, found " ++ toString found

/-- The label of the region a fault points at. -/
def label : CommandCause → String
  | unknownCommand _ => "this command"
  | missingArgument expected => "this command needs " ++ expected.description
  | invalidArgument expected => "expected " ++ expected.description
  | noExpression => "this command"
  | fieldComponents _ => "these components"

/-- What to do about a fault, where there is something to say. -/
def help? : CommandCause → Option String
  | unknownCommand _ => some "type :help to list the commands"
  | missingArgument _ => none
  | invalidArgument _ => none
  | noExpression => some "enter an expression first"
  | fieldComponents _ => some "separate the components with `;`, as in :field y ; -x ; 0"

end CommandCause

end Nabla
