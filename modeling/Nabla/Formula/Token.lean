import Nabla.Decimal.Numeral
import Nabla.Text.Span

/-!
# Raw tokens

`Token.scan` cuts a text into tokens: runs of spaces, numerals, the names `sin` and `cos`, and
single characters. Every character belongs to a token, and every token is as long as it can be.
-/

namespace Nabla.Formula

namespace Token

/-- The kinds of raw tokens. -/
inductive Kind where
  | spaces
  | plus
  | minus
  | times
  | divide
  | power
  | openParen
  | closeParen
  | sine
  | cosine
  | letterT
  | letterX
  | letterY
  | letterZ
  /-- A digit and the digits and points after it. -/
  | numeral
  /-- An operator that is known from elsewhere. -/
  | foreignOperator
  /-- Any other character of a line. -/
  | other
  /-- The end of a line, which is part of no token. -/
  | lineFeed
deriving DecidableEq, Repr

end Token

/-- A raw token: its kind, its characters and its region. -/
structure Token where
  kind : Token.Kind
  text : List Char
  span : Text.Span
deriving DecidableEq

namespace Token

/-- The operators that are known from elsewhere. -/
def foreignOperators : List Char := ['%', '!', '=', '<', '>', '&', '|']

/-- The kind of a token that is a single character. -/
def singleKind (c : Char) : Kind :=
  match c with
  | '+' => .plus
  | '-' => .minus
  | '*' => .times
  | '/' => .divide
  | '^' => .power
  | '(' => .openParen
  | ')' => .closeParen
  | 't' => .letterT
  | 'x' => .letterX
  | 'y' => .letterY
  | 'z' => .letterZ
  | '\n' => .lineFeed
  | c => if foreignOperators.contains c then .foreignOperator else .other

/-- The kind of the first token of a text with the given first character, and the number of
characters it takes from the rest. -/
def first (c : Char) (rest : List Char) : Kind × Nat :=
  if c = ' ' then (.spaces, (rest.takeWhile (· == ' ')).length)
  else if c.isDigit then (.numeral, (rest.takeWhile Decimal.isNumeralChar).length)
  else if c = 's' ∧ rest.take 2 = ['i', 'n'] then (.sine, 2)
  else if c = 'c' ∧ rest.take 2 = ['o', 's'] then (.cosine, 2)
  else (singleKind c, 0)

/-- The tokens of a text that begins at the given byte position. -/
def scanFrom (position : Nat) : List Char → List Token
  | [] => []
  | c :: rest =>
      let (kind, count) := first c rest
      let text := c :: rest.take count
      let span := Text.Span.ofChars position text
      ⟨kind, text, span⟩ :: scanFrom span.stop (rest.drop count)
termination_by text => text.length
decreasing_by simp only [List.length_drop, List.length_cons]; omega

/-- The tokens of a text. -/
def scan (text : List Char) : List Token := scanFrom 0 text

end Token

end Nabla.Formula
