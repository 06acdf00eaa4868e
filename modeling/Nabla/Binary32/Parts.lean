/-!
# Binary32 numbers and their exact values

The numbers of the library are the core type `Float32`. `parts` reads a number as not-a-number, a
signed infinity, or a sign with an integer significand and a power of two, and `nearest` goes back:
it is the number closest to a signed dyadic value, a tie going to the even significand. Both use
the core model that the arithmetic on `Float32` is defined by, so a statement about them is a
statement about `+`, `-`, `*` and `/` as well.

`floor?` and `truncate?` are the integers that a finite number rounds to, and `minNumber` and
`maxNumber` prefer a number to not-a-number.
-/

namespace Nabla.Binary32

open Float.Model Float.Model.UnpackedFloat

/-- What a binary32 number denotes. A finite number is `significand * 2 ^ exponent`, negated when
`negative` holds, and zero keeps its sign. -/
inductive Parts where
  | nan
  | infinite (negative : Bool)
  | finite (negative : Bool) (significand : Nat) (exponent : Int)
deriving DecidableEq

/-- Whether a sign bit is set. -/
def isNegative : Sign → Bool
  | .negative => true
  | .positive => false

/-- The sign with the given sign bit. -/
def signOf (negative : Bool) : Sign :=
  if negative then .negative else .positive

/-- The exact meaning of a number. Both zeros have significand zero. -/
def parts (x : Float32) : Parts :=
  match x.toModel.unpack with
  | .notANumber => .nan
  | .infinity sign => .infinite (isNegative sign)
  | .zero sign => .finite (isNegative sign) 0 0
  | .finite sign significand exponent _ => .finite (isNegative sign) significand exponent

/-- The number nearest to `significand * 2 ^ exponent` with the given sign. A tie goes to the even
significand, and what is too large becomes an infinity. -/
def nearest (negative : Bool) (significand : Nat) (exponent : Int) : Float32 :=
  .ofModel (.pack (round Format.binary32 (signOf negative) significand exponent))

/-- The quiet not-a-number. -/
def nan : Float32 := .ofBits 0x7fc00000

/-- The infinity of the given sign. -/
def infinity (negative : Bool) : Float32 :=
  if negative then .ofBits 0xff800000 else .ofBits 0x7f800000

/-- The zero of the given sign. -/
def zero (negative : Bool) : Float32 :=
  if negative then .ofBits 0x80000000 else .ofBits 0

/-- The signed significand of a finite number. -/
def signed (negative : Bool) (significand : Nat) : Int :=
  if negative then -significand else significand

/-- The greatest integer not above a finite number. -/
def floor? (x : Float32) : Option Int :=
  match parts x with
  | .finite negative significand exponent =>
      let value := signed negative significand
      some (if 0 ≤ exponent then value * Int.pow 2 exponent.toNat
        else value / Int.pow 2 (-exponent).toNat)
  | _ => none

/-- A finite number with its fraction cut off. -/
def truncate? (x : Float32) : Option Int :=
  match parts x with
  | .finite negative significand exponent =>
      let value := signed negative significand
      some (if 0 ≤ exponent then value * Int.pow 2 exponent.toNat
        else value.tdiv (Int.pow 2 (-exponent).toNat))
  | _ => none

/-- The smaller of two numbers; the other one when one of them is not a number. -/
def minNumber (x y : Float32) : Float32 :=
  if x.isNaN then y else if y.isNaN then x else if x ≤ y then x else y

/-- The larger of two numbers; the other one when one of them is not a number. -/
def maxNumber (x y : Float32) : Float32 :=
  if x.isNaN then y else if y.isNaN then x else if y ≤ x then x else y

end Nabla.Binary32
