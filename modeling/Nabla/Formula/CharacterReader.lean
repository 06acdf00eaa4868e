import Nabla.Formula.Assembly

/-!
# Reading expressions from characters

A reader for a smaller language: numbers, symbols, parentheses and the five binary operators. A `-`
always subtracts, there are no functions and nothing is multiplied implicitly. Spaces are dropped
everywhere, even inside a leaf, so `1 2` is the number 12.

The text is gone through twice: once for the operators, checking the parentheses and the
characters, and once for the leaves between them. The indices of both are byte positions.
-/

namespace Nabla.Formula

open Decimal (Numeral)

/-- Whether a character can be part of a leaf. -/
def isLeafChar (c : Char) : Bool := c.isAlphanum || c == '.'

/-! ### Operators -/

/-- The operators of a text that begins at the given position, given the opening parentheses that
are still to be closed. -/
def scanOperators (opened : List Text.Span) (position : Nat) :
    List Char → Except Fault (List Occurrence)
  | [] =>
      match opened with
      | [] => .ok []
      | last :: _ => .error ⟨.unbalancedParentheses true, [last]⟩
  | c :: rest =>
      let span := Text.Span.ofLength position c.utf8Size
      if c = '(' then scanOperators (span :: opened) span.stop rest
      else if c = ')' then
        match opened with
        | [] => .error ⟨.unbalancedParentheses false, [span]⟩
        | _ :: outer => scanOperators outer span.stop rest
      else if c = ' ' ∨ isLeafChar c then scanOperators opened span.stop rest
      else
        match Operator.ofCharacter? c with
        | some operator =>
            (scanOperators opened span.stop rest).map fun operators ↦
              .ofDepth position operator opened.length :: operators
        | none =>
            if Token.foreignOperators.contains c then .error ⟨.unknownOperator c, [span]⟩
            else .error ⟨.illegalCharacter c, [span]⟩

/-! ### Leaves -/

/-- A run of leaf characters, without the spaces between them, and the region from the first of
them to the last. -/
structure LeafRun where
  text : List Char
  span : Text.Span
deriving DecidableEq

/-- A run with one more leaf character at its end, which takes the given region. -/
def LeafRun.extend (run : Option LeafRun) (c : Char) (span : Text.Span) : LeafRun :=
  match run with
  | none => ⟨[c], span⟩
  | some run => ⟨run.text ++ [c], ⟨run.span.start, span.stop⟩⟩

/-- The runs of leaf characters in a text that begins at the given position. A run goes on across
spaces; `current` is the one that is being read. -/
def leafRuns (current : Option LeafRun) (position : Nat) : List Char → List LeafRun
  | [] => current.toList
  | c :: rest =>
      let span := Text.Span.ofLength position c.utf8Size
      if isLeafChar c then leafRuns (some (.extend current c span)) span.stop rest
      else if c = ' ' then leafRuns current span.stop rest
      else current.toList ++ leafRuns none span.stop rest

/-- Whether a text is a digit followed by digits and points. -/
def isNumeralText : List Char → Bool
  | [] => false
  | first :: rest => first.isDigit && rest.all Decimal.isNumeralChar

/-- The symbol that a text is the letter of. -/
def symbolOfText? : List Char → Option Symbol
  | [c] => Symbol.ofLetter? c
  | _ => none

/-- The leaf that a text stands for: a symbol that the mode allows, or a number. -/
def leafOfText (mode : Mode) (text : List Char) : Except Cause Expr :=
  match symbolOfText? text with
  | some name =>
      if mode.allows name then .ok (.symbol name) else .error (.symbolNotAllowed name mode)
  | none =>
      if isNumeralText text then
        match Numeral.ofChars? text with
        | some numeral => .ok (.constant numeral.value numeral.places)
        | none => .error .multipleDecimalPoints
      else .error (.notALeaf text)

/-- The leaf that a run stands for, at the position of the run. -/
def LeafRun.leaf (mode : Mode) (run : LeafRun) : Except Fault (Nat × Expr) :=
  match leafOfText mode run.text with
  | .ok leaf => .ok (run.span.start, leaf)
  | .error cause => .error ⟨cause, [run.span]⟩

/-- The leaves of runs, or the fault of the first run that stands for none. -/
def leavesOfRuns (mode : Mode) : List LeafRun → Except Fault (List (Nat × Expr))
  | [] => .ok []
  | run :: rest =>
      match run.leaf mode with
      | .error fault => .error fault
      | .ok leaf => (leavesOfRuns mode rest).map (leaf :: ·)

/-! ### Regions -/

/-- The number of bytes up to the end of the last leaf character before anything but leaf
characters and spaces. -/
def leafRunLength (text : List Char) : Nat :=
  let run := text.takeWhile fun c ↦ isLeafChar c || c == ' '
  Text.byteLength (run.reverse.dropWhile (· == ' ')).reverse

/-- The region of the leaf or the operator at a position. -/
def spanAtPosition (text : List Char) (position : Nat) : Text.Span :=
  match Text.dropBytes position text with
  | [] => .ofLength position 0
  | c :: rest =>
      if isLeafChar c then .ofLength position (leafRunLength (c :: rest))
      else .ofLength position c.utf8Size

/-! ### Reading -/

/-- The leaves and operators of a text. -/
def gatherCharacters (mode : Mode) (text : List Char) : Except Fault Gathered := do
  let operators ← scanOperators [] 0 text
  let leaves ← leavesOfRuns mode (leafRuns none 0 text)
  .ok ⟨.ofList leaves, operators⟩

/-- Read an expression through its characters. -/
def readCharacters (mode : Mode) (text : List Char) : Recorded Expr :=
  let length := Text.byteLength text
  (Recorded.ofExcept (gatherCharacters mode text)).andThen fun gathered ↦
    gathered.build ⟨spanAtPosition text, ⟨0, length⟩⟩ 0 length

end Nabla.Formula
