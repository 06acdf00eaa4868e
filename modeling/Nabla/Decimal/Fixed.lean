import Nabla.Binary32.Parts

/-!
# Decimal text with a fixed number of places

`fixed x places` writes the exact value of a number with the given number of decimal places. The
value is rounded once, half to even. A negative number keeps its sign even when it rounds to zero.

`trimmed x places` is the shortest text of the same decimal number: no zero at the end of the
fraction, no point without a fraction, and no sign on a zero.
-/

namespace Nabla.Decimal

open Binary32

/-- The natural number nearest to a quotient, a tie going to the even one. -/
def roundHalfEven (numerator denominator : Nat) : Nat :=
  let quotient := numerator / denominator
  let rest := numerator % denominator
  if 2 * rest < denominator then quotient
  else if denominator < 2 * rest then quotient + 1
  else quotient + quotient % 2

/-- The number of units of the last of the given decimal places in `significand * 2 ^ exponent`. -/
def units (significand : Nat) (exponent : Int) (places : Nat) : Nat :=
  if 0 ≤ exponent then significand * Nat.pow 2 exponent.toNat * Nat.pow 10 places
  else roundHalfEven (significand * Nat.pow 10 places) (Nat.pow 2 (-exponent).toNat)

/-- The last `count` decimal digits of a natural number, with leading zeros. -/
def lastDigits : (count value : Nat) → List Char
  | 0, _ => []
  | count + 1, value => lastDigits count (value / 10) ++ [Nat.digitChar (value % 10)]

/-- The text of a number of units of the last decimal place. -/
def unitsText (places value : Nat) : List Char :=
  Nat.toDigits 10 (value / Nat.pow 10 places) ++
    if places = 0 then [] else '.' :: lastDigits places value

/-- The sign in front of a negative number. -/
def signText (negative : Bool) : List Char :=
  if negative then ['-'] else []

/-- The characters of a number with a fixed number of decimal places. -/
def fixedChars (x : Float32) (places : Nat) : List Char :=
  match parts x with
  | .nan => "NaN".toList
  | .infinite negative => signText negative ++ "inf".toList
  | .finite negative significand exponent =>
      signText negative ++ unitsText places (units significand exponent places)

/-- A number with a fixed number of decimal places. -/
def fixed (x : Float32) (places : Nat) : String := String.ofList (fixedChars x places)

/-- A text without the given character at its end. -/
def dropTrailing (c : Char) (text : List Char) : List Char :=
  (text.reverse.dropWhile (· == c)).reverse

/-- Zero is written without a sign. -/
def unsignZero (text : List Char) : List Char :=
  if text = ['-', '0'] then ['0'] else text

/-- The shortest text of the decimal number that a text with a fixed number of places denotes. A
text without a point has no zeros to lose. -/
def trim (text : List Char) : List Char :=
  unsignZero (if text.contains '.' then dropTrailing '.' (dropTrailing '0' text) else text)

/-- A number rounded to the given number of decimal places, in its shortest text. -/
def trimmed (x : Float32) (places : Nat) : String := String.ofList (trim (fixedChars x places))

end Nabla.Decimal
