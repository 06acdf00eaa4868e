import Nabla.Binary32.Parts

/-!
# Numbers read from decimal text

`Numeral.ofChars?` reads an unsigned literal such as `2` or `0.75`, keeping the number of decimal
places it was written with. `readNumber?` reads a number with an optional sign and an optional
exponent, and the names of infinity and not-a-number. Both give the binary32 number nearest to the
decimal value.
-/

namespace Nabla.Decimal

/-- The natural number that a string of decimal digits denotes. -/
def digitsValue (digits : List Char) : Nat :=
  digits.foldl (fun value digit ↦ 10 * value + (digit.toNat - '0'.toNat)) 0

/-- The number nearest to `digits * 10 ^ exponent`. -/
def ofDigits (digits : List Char) (exponent : Int) : Float32 :=
  if exponent < 0 then Float32.ofScientific (digitsValue digits) true (-exponent).toNat
  else Float32.ofScientific (digitsValue digits) false exponent.toNat

/-- A number together with the number of decimal places it is written with. -/
structure Numeral where
  value : Float32
  places : Nat
deriving DecidableEq

/-- The numeral with the given integer digits and fraction digits. -/
def Numeral.ofDigits (integer fraction : List Char) : Numeral :=
  ⟨Decimal.ofDigits (integer ++ fraction) (-fraction.length), fraction.length⟩

/-- Whether a character can stand in a numeral. -/
def isNumeralChar (c : Char) : Bool := c.isDigit || c == '.'

/-- The numeral that a text of digits and points denotes, unless it has more than one point. -/
def Numeral.ofChars? (text : List Char) : Option Numeral :=
  let fraction := (text.dropWhile (· != '.')).drop 1
  if fraction.contains '.' then none
  else some (Numeral.ofDigits (text.takeWhile (· != '.')) fraction)

/-- The exponent part of a number: nothing, or `e` in either case with an optional sign and at
least one digit. -/
def readExponent? : List Char → Option Int
  | [] => some 0
  | mark :: rest =>
      if mark = 'e' ∨ mark = 'E' then
        let (negative, digits) := match rest with
          | '-' :: digits => (true, digits)
          | '+' :: digits => (false, digits)
          | digits => (false, digits)
        if digits.isEmpty || !digits.all Char.isDigit then none
        else if negative then some (-(digitsValue digits : Int)) else some (digitsValue digits)
      else none

/-- The fraction digits after an integer part, and the rest of the text. -/
def readFraction : List Char → List Char × List Char
  | '.' :: rest => (rest.takeWhile Char.isDigit, rest.dropWhile Char.isDigit)
  | rest => ([], rest)

/-- A number without a sign. The names are read in any letter case. -/
def readUnsigned? (text : List Char) : Option Float32 :=
  let name := text.map Char.toLower
  if name = "inf".toList ∨ name = "infinity".toList then some (Binary32.infinity false)
  else if name = "nan".toList then some Binary32.nan
  else
    let integer := text.takeWhile Char.isDigit
    let (fraction, rest) := readFraction (text.dropWhile Char.isDigit)
    if integer.isEmpty && fraction.isEmpty then none
    else (readExponent? rest).map fun exponent ↦
      ofDigits (integer ++ fraction) (exponent - fraction.length)

/-- A number with an optional sign. -/
def readNumber? : List Char → Option Float32
  | '-' :: rest => (readUnsigned? rest).map (- ·)
  | '+' :: rest => readUnsigned? rest
  | text => readUnsigned? text

end Nabla.Decimal
