/-!
# Symbols and the modes that allow them

An expression is a function of the curve parameter `t` or of the coordinates `x`, `y` and `z`. A
mode says which of these symbols a text may use.
-/

namespace Nabla

/-- The name of a variable. -/
inductive Symbol where
  | t
  | x
  | y
  | z
deriving DecidableEq, Repr

namespace Symbol

/-- Every symbol, in the order they are listed in. -/
def all : List Symbol := [t, x, y, z]

/-- The letter of a symbol. -/
def letter : Symbol → Char
  | t => 't'
  | x => 'x'
  | y => 'y'
  | z => 'z'

/-- The symbol with the given letter. -/
def ofLetter? : Char → Option Symbol
  | 't' => some t
  | 'x' => some x
  | 'y' => some y
  | 'z' => some z
  | _ => none

/-- A symbol is read back from its letter. -/
theorem ofLetter?_letter (symbol : Symbol) : ofLetter? symbol.letter = some symbol := by
  cases symbol <;> rfl

end Symbol

/-- Which symbols a text may use. -/
inductive Mode where
  /-- No symbol at all. -/
  | constant
  /-- The curve parameter only. -/
  | singleVariable
  /-- The coordinates only. -/
  | multiVariable
deriving DecidableEq, Repr

namespace Mode

/-- Every mode, from the fewest symbols to the most. -/
def all : List Mode := [constant, singleVariable, multiVariable]

/-- Whether a mode allows a symbol. -/
def allows : Mode → Symbol → Bool
  | constant, _ => false
  | singleVariable, symbol => symbol == .t
  | multiVariable, symbol => symbol != .t

/-- The name of a mode in messages. -/
def name : Mode → String
  | constant => "constant"
  | singleVariable => "single-variable"
  | multiVariable => "multi-variable"

end Mode

end Nabla
