import Nabla.Decimal.Fixed
import Nabla.Decimal.Numeral
import Nabla.Formula.Fault
import Nabla.Formula.Token

/-!
# Lexemes

Lexemes are the tokens of an expression. Spaces are dropped, numerals are read, symbols are checked
against the mode, and a `-` is told apart: directly before a space it subtracts, anywhere else it
negates. Wherever a value is followed by another value or a function, a multiplication is inserted
between them and marked as implicit.

`lex` stops at the first fault and keeps the lexemes before it.
-/

namespace Nabla.Formula

open Decimal (Numeral)

/-- The kinds of lexemes. -/
inductive Lexeme.Kind where
  | symbol (name : Symbol)
  | number (numeral : Numeral)
  | openParen
  | closeParen
  /-- A `-` that subtracts. -/
  | minus
  /-- A `-` that negates. -/
  | negative
  | plus
  | times
  | divide
  | power
  | sine
  | cosine
deriving DecidableEq

/-- A lexeme. The offset is its position, with one more character counted for every implicit
multiplication before it. The span of an implicit multiplication is that of the lexeme after
it. -/
structure Lexeme where
  kind : Lexeme.Kind
  offset : Nat
  span : Text.Span
  implicit : Bool
deriving DecidableEq

namespace Lexeme

namespace Kind

/-- The expression of a symbol or a number. -/
def value? : Kind → Option Expr
  | symbol name => some (.symbol name)
  | number numeral => some (.constant numeral.value numeral.places)
  | _ => none

/-- Whether a lexeme is a symbol or a number. -/
def isValue : Kind → Bool
  | symbol _ => true
  | number _ => true
  | _ => false

/-- The function a lexeme names. -/
def function? : Kind → Option Function
  | sine => some .sin
  | cosine => some .cos
  | _ => none

/-- Whether a lexeme names a function. -/
def isFunction (kind : Kind) : Bool := kind.function?.isSome

/-- The binary operator a lexeme stands for. -/
def operator? : Kind → Option Operator
  | plus => some .add
  | minus => some .sub
  | times => some .mul
  | divide => some .div
  | power => some .pow
  | _ => none

/-- A lexeme as it is listed. -/
def text : Kind → String
  | symbol name => name.letter.toString
  | number numeral => Decimal.fixed numeral.value numeral.places
  | openParen => "("
  | closeParen => ")"
  | minus => "-"
  | negative => "unary -"
  | plus => "+"
  | times => "*"
  | divide => "/"
  | power => "^"
  | sine => "sin"
  | cosine => "cos"

end Kind

end Lexeme

/-! ### From tokens to lexemes -/

/-- The kind of a symbol, if the mode allows it. -/
def symbolKind (mode : Mode) (symbol : Symbol) : Except Cause Lexeme.Kind :=
  if mode.allows symbol then .ok (.symbol symbol)
  else .error (.symbolNotAllowed symbol mode)

/-- The kind of a numeral, unless it has more than one decimal point. -/
def numeralKind (text : List Char) : Except Cause Lexeme.Kind :=
  match Numeral.ofChars? text with
  | some numeral => .ok (.number numeral)
  | none => .error .multipleDecimalPoints

/-- The kind of lexeme a token stands for, given whether a space follows it. Spaces stand for
none. -/
def classify (mode : Mode) (token : Token) (beforeSpace : Bool) :
    Except Cause (Option Lexeme.Kind) :=
  match token.kind with
  | .spaces => .ok none
  | .plus => .ok (some .plus)
  | .minus => .ok (some (if beforeSpace then .minus else .negative))
  | .times => .ok (some .times)
  | .divide => .ok (some .divide)
  | .power => .ok (some .power)
  | .openParen => .ok (some .openParen)
  | .closeParen => .ok (some .closeParen)
  | .sine => .ok (some .sine)
  | .cosine => .ok (some .cosine)
  | .letterT => (symbolKind mode .t).map some
  | .letterX => (symbolKind mode .x).map some
  | .letterY => (symbolKind mode .y).map some
  | .letterZ => (symbolKind mode .z).map some
  | .numeral => (numeralKind token.text).map some
  | .foreignOperator => .error (.unknownOperator (token.text.headD ' '))
  | .other => .error (.illegalCharacter (token.text.headD ' '))
  | .lineFeed => .error (.illegalCharacter (token.text.headD ' '))

/-- Whether the first of the tokens is a run of spaces. -/
def startsWithSpaces : List Token → Bool
  | [] => false
  | token :: _ => token.kind == .spaces

/-- The lexemes that tokens stand for, up to the first fault. -/
def classifyAll (mode : Mode) : List Token → List Lexeme × Option Fault
  | [] => ([], none)
  | token :: rest =>
      match classify mode token (startsWithSpaces rest) with
      | .error cause => ([], some ⟨cause, [token.span]⟩)
      | .ok none => classifyAll mode rest
      | .ok (some kind) =>
          let (lexemes, fault) := classifyAll mode rest
          (⟨kind, token.span.start, token.span, false⟩ :: lexemes, fault)

/-! ### Implicit multiplication -/

/-- Whether two neighbouring lexemes are multiplied without an operator between them. -/
def joins (left right : Lexeme.Kind) : Bool :=
  left.isValue && (right.isValue || right.isFunction)

/-- A lexeme moved to the right. -/
def Lexeme.shift (lexeme : Lexeme) (distance : Nat) : Lexeme :=
  { lexeme with offset := lexeme.offset + distance }

/-- The multiplication inserted in front of a lexeme, at its offset. -/
def Lexeme.implicitTimes (next : Lexeme) : Lexeme :=
  ⟨.times, next.offset, next.span, true⟩

/-- Insert the implicit multiplications into a list of lexemes. Those before the list have moved
it by the given distance. -/
def insertTimes (distance : Nat) : List Lexeme → List Lexeme
  | [] => []
  | [last] => [last.shift distance]
  | lexeme :: next :: rest =>
      if joins lexeme.kind next.kind then
        lexeme.shift distance :: (next.shift distance).implicitTimes ::
          insertTimes (distance + 1) (next :: rest)
      else lexeme.shift distance :: insertTimes distance (next :: rest)

/-- The lexemes of a text up to the first fault, and that fault. -/
structure Lexed where
  lexemes : List Lexeme
  fault : Option Fault

/-- Read the lexemes of a text. -/
def lex (mode : Mode) (text : List Char) : Lexed :=
  let (lexemes, fault) := classifyAll mode (Token.scan text)
  ⟨insertTimes 0 lexemes, fault⟩

/-- The lexemes of a text without a fault. -/
def Lexed.toExcept (lexed : Lexed) : Except Fault (List Lexeme) :=
  match lexed.fault with
  | some fault => .error fault
  | none => .ok lexed.lexemes

end Nabla.Formula
