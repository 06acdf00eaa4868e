import Nabla.Binary32.FixedPoint

/-!
# Elementary functions on binary32 numbers

Sine, cosine, natural logarithm and power. Each is the exact real value rounded once to the
nearest number: `FixedPoint` approximates the real value far beyond the precision of the result.
Zeros, infinities and not-a-number follow the usual conventions of floating-point arithmetic, and
a power with a small whole exponent is computed exactly before it is rounded.
-/

namespace Nabla.Binary32

/-! ### Sine and cosine -/

/-- The position of an angle on the circle: the number of quarter turns next to it, and the signed
fixed-point angle that remains. -/
structure Turn where
  quarters : Int
  rest : Int

/-- The nearest quarter turn to the angle `significand * 2 ^ exponent`. -/
def Turn.ofAngle (significand : Nat) (exponent : Int) : Turn :=
  let angle := FixedPoint.ofDyadic significand exponent
  let quarters := FixedPoint.roundDiv angle FixedPoint.halfPi
  ⟨quarters, angle - quarters * FixedPoint.halfPi⟩

/-- The fixed-point sine of an angle, after `shift` further quarter turns. -/
def Turn.sine (turn : Turn) (shift : Int) : Int :=
  match (turn.quarters + shift) % 4 with
  | 0 => FixedPoint.sin turn.rest
  | 1 => FixedPoint.cos turn.rest
  | 2 => -FixedPoint.sin turn.rest
  | _ => -FixedPoint.cos turn.rest

/-- The sine of a number in radians. The sine of a zero is that zero. -/
def sin (x : Float32) : Float32 :=
  match parts x with
  | .finite _ 0 _ => x
  | .finite negative significand exponent =>
      let sine := (Turn.ofAngle significand exponent).sine 0
      FixedPoint.toFloat32 (if negative then -sine else sine) 0
  | _ => nan

/-- The cosine of a number in radians. -/
def cos (x : Float32) : Float32 :=
  match parts x with
  | .finite _ significand exponent =>
      FixedPoint.toFloat32 ((Turn.ofAngle significand exponent).sine 1) 0
  | _ => nan

/-! ### Logarithm -/

/-- The natural logarithm of a number. It is negative infinity at a zero, and not a number below
zero. -/
def ln (x : Float32) : Float32 :=
  match parts x with
  | .finite _ 0 _ => infinity true
  | .finite false significand exponent =>
      FixedPoint.toFloat32 (FixedPoint.ln significand exponent) 0
  | .infinite false => infinity false
  | _ => nan

/-! ### Power -/

/-- The value of `significand * 2 ^ exponent` if it is a whole number. -/
def whole? (significand : Nat) (exponent : Int) : Option Nat :=
  if 0 ≤ exponent then some (significand * Nat.pow 2 exponent.toNat)
  else if significand % Nat.pow 2 (-exponent).toNat = 0 then
    some (significand / Nat.pow 2 (-exponent).toNat)
  else none

/-- The fixed-point exponential of a fixed-point number, as the nearest binary32 number. Above 90
it is too large for a finite number and below -105 too small for one that is not zero. -/
def expOfFixed (negative : Bool) (a : Int) : Float32 :=
  if a > 90 * FixedPoint.one then infinity negative
  else if a < -105 * FixedPoint.one then zero negative
  else
    let doublings := FixedPoint.roundDiv a FixedPoint.lnTwo
    let value := FixedPoint.exp (a - doublings * FixedPoint.lnTwo)
    FixedPoint.toFloat32 (if negative then -value else value) doublings

/-- The greatest whole exponent for which a power is computed exactly. -/
def exactPowerLimit : Nat := 16

/-- The power of the positive number `m * 2 ^ e`, given the sign of the result, as the exponential
of the logarithm times the exponent. -/
def powOfLogarithm (negative : Bool) (m : Nat) (e : Int) (exponentNegative : Bool)
    (significand : Nat) (scale : Int) : Float32 :=
  let product := FixedPoint.scale (FixedPoint.ln m e * significand) scale
  expOfFixed negative (if exponentNegative then -product else product)

/-- The power of the positive number `m * 2 ^ e`, given the sign of the result. A small whole
exponent multiplies exactly. -/
def powPositive (negative : Bool) (m : Nat) (e : Int) (exponentNegative : Bool)
    (significand : Nat) (scale : Int) : Float32 :=
  match exponentNegative, whole? significand scale with
  | false, some n =>
      if n ≤ exactPowerLimit then nearest negative (m.pow n) (e * n)
      else powOfLogarithm negative m e false significand scale
  | _, _ => powOfLogarithm negative m e exponentNegative significand scale

/-- A number raised to an infinite exponent: it depends on whether its absolute value is below,
at or above one. -/
def powInfinite (base : Float32) (exponentNegative : Bool) : Float32 :=
  if base.isNaN then nan
  else if base.abs == 1 then 1
  else if decide (base.abs < 1) = exponentNegative then infinity false
  else zero false

/-- A number raised to a finite exponent that is not zero. The result is negative when the base is
and the exponent is odd. -/
def powFinite (base : Float32) (exponentNegative : Bool) (significand : Nat) (scale : Int) :
    Float32 :=
  let whole := whole? significand scale
  let odd := whole.any (· % 2 = 1)
  match parts base with
  | .nan => nan
  | .infinite negative =>
      if exponentNegative then zero (negative && odd) else infinity (negative && odd)
  | .finite negative 0 _ =>
      if exponentNegative then infinity (negative && odd) else zero (negative && odd)
  | .finite negative m e =>
      if negative && whole.isNone then nan
      else powPositive (negative && odd) m e exponentNegative significand scale

/-- The power of two numbers. It is one when the exponent is a zero or the base is one, even if
the other is not a number. -/
def pow (base exponent : Float32) : Float32 :=
  match parts exponent with
  | .finite _ 0 _ => 1
  | .finite negative significand scale =>
      if base == 1 then 1 else powFinite base negative significand scale
  | .infinite negative => powInfinite base negative
  | .nan => if base == 1 then 1 else nan

end Nabla.Binary32
