import Nabla.Binary32.Parts

/-!
# Fixed-point series

Real numbers approximated by integers: the integer `n` stands for `n / 2 ^ precision`. The series
below give `π / 2`, `ln 2`, the logarithm, the exponential, the sine and the cosine of reduced
arguments to about 250 bits. `toFloat32` turns such a value into the nearest binary32 number.

The precision leaves room for the whole exponent range of binary32: a multiple of `π / 2` next to
the largest finite number is known to more than 120 bits after the binary point.
-/

namespace Nabla.Binary32.FixedPoint

/-- The number of bits after the binary point. -/
def precision : Nat := 256

/-- The fixed-point number one. -/
def one : Int := Int.pow 2 precision

/-- The product of two fixed-point numbers, rounded down. -/
def mul (a b : Int) : Int := (a * b) >>> precision

/-- The quotient of two integers as a fixed-point number, rounded down. -/
def ratio (numerator denominator : Int) : Int := (numerator * one) / denominator

/-- The fixed-point number `significand * 2 ^ exponent`, rounded down. -/
def ofDyadic (significand exponent : Int) : Int :=
  let shift := exponent + precision
  if 0 ≤ shift then significand * Int.pow 2 shift.toNat else significand >>> (-shift).toNat

/-- The fixed-point number `a * 2 ^ exponent`, rounded down. -/
def scale (a exponent : Int) : Int :=
  if 0 ≤ exponent then a * Int.pow 2 exponent.toNat else a >>> (-exponent).toNat

/-- The integer nearest to `a / b` for a positive `b`. -/
def roundDiv (a b : Int) : Int := (2 * a + b) / (2 * b)

/-- The sum `1 / (2 i + 1) + s / (2 i + 3) + s ^ 2 / (2 i + 5) + ...` of the given number of terms,
with `s` the given square and `i` the given index. -/
def oddSeries (square : Int) : (terms index : Nat) → Int
  | 0, _ => 0
  | terms + 1, index =>
      one / (2 * index + 1) + mul square (oddSeries square terms (index + 1))

/-- The inverse hyperbolic tangent of a fixed-point number of absolute value at most a fifth. -/
def artanh (z : Int) : Int := mul z (oddSeries (mul z z) 58 0)

/-- The inverse tangent of a fixed-point number of absolute value at most a fifth. -/
def arctan (z : Int) : Int := mul z (oddSeries (-mul z z) 58 0)

/-- Half of `π`, from `π / 4 = 4 arctan (1 / 5) - arctan (1 / 239)`. -/
def halfPi : Int := 8 * arctan (ratio 1 5) - 2 * arctan (ratio 1 239)

/-- The natural logarithm of two, from `ln 2 = 2 artanh (1 / 5) + 2 artanh (1 / 7)`. -/
def lnTwo : Int := 2 * artanh (ratio 1 5) + 2 * artanh (ratio 1 7)

/-- The natural logarithm of `significand * 2 ^ exponent` for a positive significand. The
significand is divided by a power of two that leaves a factor between two thirds and four
thirds. -/
def ln (significand : Nat) (exponent : Int) : Int :=
  let bits := significand.log2
  let shift := if 3 * significand > 4 * Nat.pow 2 bits then bits + 1 else bits
  let power : Int := Int.pow 2 shift
  (exponent + shift) * lnTwo + 2 * artanh (ratio (significand - power) (significand + power))

/-- The nested sum `1 + a / i (1 + a / (i + 1) (1 + ...))` of the given number of terms, with `i`
the given index. -/
def expSeries (a : Int) : (terms index : Nat) → Int
  | 0, _ => one
  | terms + 1, index => one + mul a (expSeries a terms (index + 1)) / index

/-- The exponential of a fixed-point number of absolute value at most a half. -/
def exp (a : Int) : Int := expSeries a 52 1

/-- The alternating series `1 - s / (i (i + 1)) (1 - s / ((i + 2) (i + 3)) (1 - ...))` in the
square `s` of the argument, with `i` the given index. -/
def alternating (square : Int) : (terms index : Nat) → Int
  | 0, _ => one
  | terms + 1, index =>
      one - mul square (alternating square terms (index + 2)) / (index * (index + 1))

/-- The sine of a fixed-point number of absolute value at most one. -/
def sin (a : Int) : Int := mul a (alternating (mul a a) 32 2)

/-- The cosine of a fixed-point number of absolute value at most one. -/
def cos (a : Int) : Int := alternating (mul a a) 32 1

/-- The number of leading bits after the first that are kept. Every series here is more exact than
this, and a value that is no tie between two binary32 numbers is not this close to one. -/
def reliableBits : Nat := 60

/-- The binary32 number nearest to the fixed-point value `a * 2 ^ exponent`. The value is first
rounded to its reliable bits, which restores a value that has no more bits than these. -/
def toFloat32 (a exponent : Int) : Float32 :=
  let extra := a.natAbs.log2 - reliableBits
  let reliable := (a.natAbs + Nat.pow 2 extra / 2) / Nat.pow 2 extra
  nearest (a < 0) reliable (exponent - precision + extra)

end Nabla.Binary32.FixedPoint
