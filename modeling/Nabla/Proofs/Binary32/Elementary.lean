import Nabla.Proofs.Binary32.Integer

/-!
# Elementary functions of the same numbers

Sine, cosine, logarithm and power give the same number at the same arguments. For a power this needs
that the result is finite: a negative power of a zero is an infinity with a sign.
-/

namespace Nabla.Binary32

open Float.Model Float.Model.UnpackedFloat

variable {x x' y y' : Float32}

/-- The parts of a zero are a sign and no significand. -/
theorem IsZero.exists_parts (h : IsZero x) : ∃ negative, parts x = .finite negative 0 0 := by
  obtain ⟨sign, hunpack⟩ := h
  exact ⟨isNegative sign, by rw [parts, hunpack]⟩

/-- A zero of either sign is a zero. -/
theorem isZero_signedZero (negative : Bool) : IsZero (zero negative) := by
  cases negative
  · exact ⟨.positive, rfl⟩
  · exact ⟨.negative, rfl⟩

/-- An infinity is not finite. -/
theorem isFinite_infinity (negative : Bool) : (infinity negative).isFinite = false := by
  cases negative <;> rfl

/-! ### Functions of one argument -/

/-- The sine of a zero is that zero. -/
theorem sin_of_isZero (h : IsZero x) : sin x = x := by
  obtain ⟨negative, hparts⟩ := h.exists_parts
  simp only [sin, hparts]

/-- The same numbers have the same sine. -/
theorem SameNumber.sin (h : SameNumber x x') : SameNumber (sin x) (sin x') := by
  rcases h.eq_or_isZero with rfl | ⟨hx, hx'⟩
  · rfl
  · rwa [sin_of_isZero hx, sin_of_isZero hx']

/-- The same numbers have the same cosine. -/
theorem SameNumber.cos (h : SameNumber x x') : SameNumber (cos x) (cos x') := by
  rcases h.eq_or_isZero with rfl | ⟨hx, hx'⟩
  · rfl
  · obtain ⟨negative, hparts⟩ := hx.exists_parts
    obtain ⟨other, hparts'⟩ := hx'.exists_parts
    simp only [Binary32.cos, hparts, hparts']
    rfl

/-- The same numbers have the same logarithm. -/
theorem SameNumber.ln (h : SameNumber x x') : SameNumber (ln x) (ln x') := by
  rcases h.eq_or_isZero with rfl | ⟨hx, hx'⟩
  · rfl
  · obtain ⟨negative, hparts⟩ := hx.exists_parts
    obtain ⟨other, hparts'⟩ := hx'.exists_parts
    simp only [Binary32.ln, hparts, hparts']
    rfl

/-! ### Powers -/

/-- The same bases have the same power with an infinite exponent. -/
theorem SameNumber.powInfinite_eq (h : SameNumber x x') (negative : Bool) :
    powInfinite x negative = powInfinite x' negative := by
  unfold powInfinite
  rw [h.isNaN_eq, h.abs_eq]

/-- A finite power of a zero is a zero. -/
theorem sameNumber_powFinite (h : IsZero x) (h' : IsZero x') {negative : Bool}
    {significand : Nat} {scale : Int}
    (hfinite : (powFinite x negative significand scale).isFinite = true) :
    SameNumber (powFinite x negative significand scale)
      (powFinite x' negative significand scale) := by
  obtain ⟨sign, hparts⟩ := h.exists_parts
  obtain ⟨other, hparts'⟩ := h'.exists_parts
  simp only [powFinite, hparts, hparts'] at hfinite ⊢
  cases negative with
  | true =>
    rw [if_pos rfl, isFinite_infinity] at hfinite
    cases hfinite
  | false => exact (isZero_signedZero _).sameNumber (isZero_signedZero _)

/-- A power with a finite result does not depend on the sign of a zero. -/
theorem SameNumber.pow (hx : SameNumber x x') (hy : SameNumber y y')
    (hfinite : (pow x y).isFinite = true) : SameNumber (pow x y) (pow x' y') := by
  -- first the exponent is replaced, then the base
  have hexponent : SameNumber (Binary32.pow x y) (Binary32.pow x y') := by
    rcases hy.eq_or_isZero with rfl | ⟨hzero, hzero'⟩
    · rfl
    · obtain ⟨negative, hparts⟩ := hzero.exists_parts
      obtain ⟨other, hparts'⟩ := hzero'.exists_parts
      simp only [Binary32.pow, hparts, hparts']
      rfl
  refine hexponent.trans ?_
  rw [hexponent.isFinite_eq] at hfinite
  rcases hx.eq_or_isZero with rfl | ⟨hzero, hzero'⟩
  · rfl
  · cases hparts : parts y' with
    | nan =>
      simp only [Binary32.pow, hparts, hx.beq_eq]
      rfl
    | infinite negative =>
      simp only [Binary32.pow, hparts, hx.powInfinite_eq]
      rfl
    | finite negative significand scale =>
      cases significand with
      | zero =>
        simp only [Binary32.pow, hparts]
        rfl
      | succ significand =>
        simp only [Binary32.pow, hparts, hx.beq_eq] at hfinite ⊢
        split
        · rfl
        · rename_i hne
          rw [if_neg hne] at hfinite
          exact sameNumber_powFinite hzero hzero' hfinite

end Nabla.Binary32
