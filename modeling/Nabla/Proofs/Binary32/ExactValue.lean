import Mathlib
import Nabla.Proofs.Binary32.SameNumber

/-!
# Exact values

The value of a finite number as a rational number.
-/

namespace Nabla.Binary32

/-- The exact value of a finite number. -/
def rational? (x : Float32) : Option ℚ :=
  match parts x with
  | .finite negative significand exponent => some (signed negative significand * 2 ^ exponent)
  | _ => none

/-- A finite number has a sign, a significand and an exponent. -/
theorem exists_parts_of_isFinite {x : Float32} (h : x.isFinite = true) :
    ∃ negative significand exponent, parts x = .finite negative significand exponent := by
  obtain ⟨sign, hzero⟩ | ⟨sign, significand, exponent, hpos, hfinite⟩ := isZero_or_exists_finite h
  · exact ⟨isNegative sign, 0, 0, by rw [parts, hzero]⟩
  · exact ⟨isNegative sign, significand, exponent, by rw [parts, hfinite]⟩

/-- The rational value of a number, from its parts. -/
theorem rational?_of_parts {x : Float32} {negative : Bool} {significand : Nat} {exponent : Int}
    (h : parts x = .finite negative significand exponent) :
    rational? x = some ((signed negative significand : ℚ) * 2 ^ exponent) := by
  rw [rational?, h]

/-- A finite number has a rational value. -/
theorem exists_rational? {x : Float32} (h : x.isFinite = true) :
    ∃ value, rational? x = some value := by
  obtain ⟨negative, significand, exponent, hparts⟩ := exists_parts_of_isFinite h
  exact ⟨_, rational?_of_parts hparts⟩

end Nabla.Binary32
