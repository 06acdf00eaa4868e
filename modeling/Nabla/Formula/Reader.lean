import Nabla.Formula.CharacterReader
import Nabla.Formula.LexemeReader

/-!
# Readers

The two ways to read an expression from a text.
-/

namespace Nabla.Formula

/-- A way to read expressions: through lexemes, or directly through characters. -/
inductive Reader where
  | token
  | direct
deriving DecidableEq, Repr

namespace Reader

/-- The name of a reader. -/
def name : Reader → String
  | token => "token"
  | direct => "direct"

/-- Read an expression, with the events. -/
def read (reader : Reader) (mode : Mode) (text : List Char) : Recorded Expr :=
  match reader with
  | token => readLexemes mode text
  | direct => readCharacters mode text

/-- Read an expression. -/
def parse (reader : Reader) (mode : Mode) (text : List Char) : Except Fault Expr :=
  (reader.read mode text).outcome

end Reader

end Nabla.Formula
