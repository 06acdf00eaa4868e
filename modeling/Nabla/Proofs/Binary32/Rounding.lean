import Nabla.Proofs.Binary32.Integer

/-!
# Rounded results

What an operation returns is a mantissa and an exponent that are rounded, packed and unpacked again.
`roundWithAccuracy_cases` says what rounding makes of them: a zero, or a canonical number whose
exponent is at most one above the one that is rounded to. A canonical number is kept by packing
unless it is too large, where it becomes an infinity (`unpack_ofUnpacked_finite`).
-/

namespace Nabla.Binary32

open Float.Model Float.Model.UnpackedFloat

/-! ### Rounding -/

/-- A shift to the right divides by a power of two. -/
theorem mantissa_shiftRight (extended : ExtendedMantissa) (k : Nat) :
    (extended >>> k).mantissa = extended.mantissa / 2 ^ k := by
  induction k with
  | zero => exact (Nat.div_one _).symm
  | succ k ih =>
    show (extended >>> k).mantissa / 2 = _
    rw [ih, Nat.div_div_eq_div_mul, Nat.pow_succ]

/-- The accuracy is kept beside the significand. -/
theorem mantissa_ofMantissaAndAccuracy (mantissa : Nat) (accuracy : Accuracy) :
    (ExtendedMantissa.ofMantissaAndAccuracy mantissa accuracy).mantissa = mantissa := by
  unfold ExtendedMantissa.ofMantissaAndAccuracy
  split <;> rfl

/-- A mantissa is rounded to itself or to the next one. -/
theorem roundedMantissa_bounds (extended : ExtendedMantissa) :
    extended.mantissa ≤ extended.roundedMantissa ∧
      extended.roundedMantissa ≤ extended.mantissa + 1 := by
  obtain ⟨mantissa, roundBit, stickyBit⟩ := extended
  cases roundBit <;> cases stickyBit <;>
    simp only [ExtendedMantissa.roundedMantissa, ExtendedMantissa.accuracy,
      Accuracy.roundToNearestEven] <;> omega

/-- A mantissa with at most as many digits as are kept is not shifted. -/
theorem shiftToTargetExponent_of_lt {mantissa : Nat} {exponent : Int} (hlt : mantissa < 2 ^ 24)
    (hleast : -149 ≤ exponent) :
    shiftToTargetExponent Format.binary32 mantissa exponent .exact =
      (⟨mantissa, false, false⟩, exponent) := by
  have hlog : mantissa.log2 ≤ 23 := by
    rcases Nat.eq_zero_or_pos mantissa with rfl | hpos
    · decide
    · exact Nat.le_of_lt_succ ((Nat.log2_lt hpos.ne').2 hlt)
  have hshift : (Format.binary32.targetExponent (totalExponent mantissa exponent) -
      exponent).toNat = 0 := by
    rw [targetExponent_eq, totalExponent]
    omega
  unfold shiftToTargetExponent shiftToExponent
  dsimp only
  rw [hshift]
  exact Prod.ext rfl (Int.add_zero exponent)

/-- A mantissa that was rounded up to one more digit loses it again. -/
theorem shiftToTargetExponent_two_pow {exponent : Int} (hleast : -149 ≤ exponent) :
    shiftToTargetExponent Format.binary32 (2 ^ 24) exponent .exact =
      (⟨2 ^ 23, false, false⟩, exponent + 1) := by
  have hshift : (Format.binary32.targetExponent (totalExponent (2 ^ 24) exponent) -
      exponent).toNat = 1 := by
    rw [targetExponent_eq, totalExponent, Nat.log2_two_pow]
    omega
  unfold shiftToTargetExponent shiftToExponent
  dsimp only
  rw [hshift]
  rfl

/-- The exponent that a number of this size is rounded to. -/
def roundedExponent (mantissa : Nat) (exponent : Int) : Int :=
  max (mantissa.log2 + exponent - 23) (-149)

/-- The exponent that a number is rounded to. -/
theorem roundedExponent_eq (mantissa : Nat) (exponent : Int) :
    Format.binary32.targetExponent (totalExponent mantissa exponent) =
      roundedExponent mantissa exponent := by
  rw [targetExponent_eq, totalExponent, roundedExponent]
  omega

/-- What is left of a mantissa without the digits that are not kept. -/
theorem kept_lt {mantissa k : Nat} (h : mantissa.log2 ≤ 23 + k) : mantissa / 2 ^ k < 2 ^ 24 := by
  rw [Nat.div_lt_iff_lt_mul (Nat.two_pow_pos k), ← Nat.pow_add]
  calc mantissa < 2 ^ (mantissa.log2 + 1) := Nat.lt_log2_self
    _ ≤ 2 ^ (24 + k) := Nat.pow_le_pow_right (by decide) (by omega)

/-- The result of rounding, if no digits are missing: the mantissa without the digits that are not
kept is rounded to itself or to the next one. If this is zero, so is the result, and if it has a
digit too many, the exponent is raised again. -/
theorem roundWithAccuracy_eq {mantissa : Nat} {exponent target : Int}
    (htarget : roundedExponent mantissa exponent = target) (hdigits : exponent ≤ target)
    (sign : Sign) (accuracy : Accuracy) :
    ∃ rounded, mantissa / 2 ^ (target - exponent).toNat ≤ rounded ∧
      rounded ≤ mantissa / 2 ^ (target - exponent).toNat + 1 ∧
      roundWithAccuracy Format.binary32 sign mantissa exponent accuracy =
        if h : rounded = 0 then .zero sign
        else if rounded < 2 ^ 24 then .finite sign rounded target (Nat.pos_of_ne_zero h)
        else .finite sign (2 ^ 23) (target + 1) (by decide) := by
  have hleast : -149 ≤ target := htarget ▸ le_max_right _ _
  set k := (target - exponent).toNat with hk
  set kept := ExtendedMantissa.ofMantissaAndAccuracy mantissa accuracy >>> k with hkept
  have hmantissa : kept.mantissa = mantissa / 2 ^ k := by
    rw [hkept, mantissa_shiftRight, mantissa_ofMantissaAndAccuracy]
  obtain ⟨hlower, hupper⟩ := roundedMantissa_bounds kept
  rw [hmantissa] at hlower hupper
  have hlt : mantissa / 2 ^ k < 2 ^ 24 := kept_lt (by unfold roundedExponent at htarget; omega)
  have hfirst : shiftToTargetExponent Format.binary32 mantissa exponent accuracy =
      (kept, target) := by
    unfold shiftToTargetExponent shiftToExponent
    dsimp only
    rw [roundedExponent_eq, htarget, ← hk]
    exact Prod.ext rfl (show exponent + k = target by omega)
  refine ⟨kept.roundedMantissa, hlower, hupper, ?_⟩
  unfold roundWithAccuracy
  rw [hfirst]
  dsimp only
  -- rounding up can carry into a digit too many, and then only to the power of two
  by_cases hsmall : kept.roundedMantissa < 2 ^ 24
  · rw [shiftToTargetExponent_of_lt hsmall hleast]
    simp only [if_pos hsmall]
  · have hpower : kept.roundedMantissa = 2 ^ 24 := by omega
    rw [hpower, shiftToTargetExponent_two_pow hleast]
    rfl

/-- The mantissa keeps all its digits, unless the exponent is the least one. -/
theorem le_kept {mantissa k : Nat} (hne : mantissa ≠ 0) (h : mantissa.log2 = 23 + k) :
    2 ^ 23 ≤ mantissa / 2 ^ k := by
  rw [Nat.le_div_iff_mul_le (Nat.two_pow_pos k), ← Nat.pow_add, ← h]
  exact Nat.log2_self_le hne

/-- A rounded number is a zero, or canonical with an exponent at most one above the one that is
rounded to. It is a zero only if no digit is kept. -/
theorem roundWithAccuracy_cases {mantissa : Nat} {exponent : Int}
    (hdigits : exponent ≤ roundedExponent mantissa exponent) (sign : Sign) (accuracy : Accuracy) :
    (mantissa / 2 ^ (roundedExponent mantissa exponent - exponent).toNat = 0 ∧
        roundWithAccuracy Format.binary32 sign mantissa exponent accuracy = .zero sign) ∨
      ∃ rounded target, ∃ hpos : 0 < rounded,
        roundWithAccuracy Format.binary32 sign mantissa exponent accuracy =
          .finite sign rounded target hpos ∧
        Canonical rounded target ∧ target ≤ roundedExponent mantissa exponent + 1 := by
  obtain ⟨rounded, hlower, -, hround⟩ := roundWithAccuracy_eq rfl hdigits sign accuracy
  have hleast : -149 ≤ roundedExponent mantissa exponent := le_max_right _ _
  by_cases hzero : rounded = 0
  · rw [dif_pos hzero] at hround
    exact .inl ⟨Nat.le_zero.1 (hzero ▸ hlower), hround⟩
  rw [dif_neg hzero] at hround
  by_cases hlt : rounded < 2 ^ 24
  · rw [if_pos hlt] at hround
    have hlog : rounded.log2 ≤ 23 := Nat.le_of_lt_succ ((Nat.log2_lt hzero).2 hlt)
    -- a mantissa with fewer digits comes only with the least exponent
    have hnormal : rounded.log2 = 23 ∨ roundedExponent mantissa exponent = -149 := by
      refine or_iff_not_imp_right.2 fun hne ↦ ?_
      have hmax : roundedExponent mantissa exponent = mantissa.log2 + exponent - 23 := by
        unfold roundedExponent at hne ⊢
        omega
      have hmantissa : mantissa ≠ 0 := by
        rintro rfl
        rw [show Nat.log2 0 = 0 from rfl] at hmax
        omega
      have hkept := le_kept hmantissa (k := (roundedExponent mantissa exponent - exponent).toNat)
        (by omega)
      exact Nat.le_antisymm hlog ((Nat.le_log2 hzero).2 (hkept.trans hlower))
    exact .inr ⟨rounded, _, _, hround, canonical_iff.2 ⟨hlog, hleast, hnormal⟩, by omega⟩
  · rw [if_neg hlt] at hround
    have hlog : Nat.log2 (2 ^ 23) = 23 := Nat.log2_two_pow
    exact .inr ⟨2 ^ 23, _, _, hround, canonical_iff.2 ⟨hlog.le, by omega, .inl hlog⟩, le_refl _⟩

/-! ### Packing -/

/-- A normal number is unpacked as it was packed. -/
theorem unpack_packComponents_normal {sign : Sign} {mantissa : Nat} {biased : Nat}
    (hlog : mantissa.log2 = 23) (hlower : 0 < biased) (hupper : biased < 255) :
    ∃ hpos, UnpackedFloat.unpack Format.binary32 (packComponents Format.binary32 sign
      (BitVec.ofNat 8 biased) (BitVec.ofNat 23 mantissa)) =
        .finite sign mantissa (biased - 150) hpos := by
  have hne : mantissa ≠ 0 := by
    rintro rfl
    cases hlog
  have hlow : 2 ^ 23 ≤ mantissa := hlog ▸ Nat.log2_self_le hne
  have hhigh : mantissa < 2 ^ 24 := (Nat.log2_lt hne).1 (by omega)
  have hbiased : (BitVec.ofNat 8 biased).toNat = biased := by
    rw [BitVec.toNat_ofNat, Nat.mod_eq_of_lt (by omega)]
  -- the two reserved exponents are those of the infinities and of the subnormal numbers
  have hones : BitVec.ofNat 8 biased ≠ -1#8 := by
    intro heq
    have hnat := congrArg BitVec.toNat heq
    rw [hbiased, show (-1#8).toNat = 255 from rfl] at hnat
    omega
  have hzero : BitVec.ofNat 8 biased ≠ 0#8 := by
    intro heq
    have hnat := congrArg BitVec.toNat heq
    rw [hbiased, show (0#8).toNat = 0 from rfl] at hnat
    omega
  have hmantissa : (1#1 ++ BitVec.ofNat 23 mantissa).toNat = mantissa := by
    rw [toNat_one_append, BitVec.toNat_ofNat]
    omega
  refine ⟨by omega, ?_⟩
  unfold UnpackedFloat.unpack
  simp only [unpackExponent_packComponents, unpackMantissa_packComponents,
    unpackSign_packComponents, Sign.ofBitVec_toBitVec]
  rw [if_neg hones, if_neg hzero]
  simp only [hmantissa, hbiased]
  rfl

/-- A number below the normal ones is unpacked as it was packed. -/
theorem unpack_packComponents_subnormal {sign : Sign} {mantissa : Nat} (hpos : 0 < mantissa)
    (hlt : mantissa < 2 ^ 23) :
    UnpackedFloat.unpack Format.binary32 (packComponents Format.binary32 sign 0#8
      (BitVec.ofNat 23 mantissa)) = .finite sign mantissa (-149) hpos := by
  have hmantissa : (BitVec.ofNat 23 mantissa).toNat = mantissa := by
    rw [BitVec.toNat_ofNat, Nat.mod_eq_of_lt hlt]
  have hne : BitVec.ofNat 23 mantissa ≠ 0#23 := by
    intro heq
    have hnat := congrArg BitVec.toNat heq
    rw [hmantissa, show (0#23).toNat = 0 from rfl] at hnat
    omega
  unfold UnpackedFloat.unpack
  simp only [unpackExponent_packComponents, unpackMantissa_packComponents,
    unpackSign_packComponents, Sign.ofBitVec_toBitVec]
  rw [if_neg (by decide), if_pos trivial, dif_neg hne]
  simp only [hmantissa]
  rfl

/-- A canonical number is kept if it is not too large. -/
theorem unpack_ofUnpacked_finite {sign : Sign} {mantissa : Nat} {exponent : Int}
    {hpos : 0 < mantissa} (h : Canonical mantissa exponent) (hle : exponent ≤ 104) :
    (ofUnpacked (.finite sign mantissa exponent hpos)).toModel.unpack =
      .finite sign mantissa exponent hpos := by
  obtain ⟨hlog, hleast, hnormal⟩ := canonical_iff.1 h
  have hbias : exponent + (Format.binary32.exponentBias : Nat) + (23 : Nat) = exponent + 150 := by
    have : ((Format.binary32.exponentBias : Nat) : Int) = 127 := rfl
    omega
  show UnpackedFloat.unpack Format.binary32 (UnpackedFloat.pack Format.binary32
    (.finite sign mantissa exponent hpos)) = _
  unfold UnpackedFloat.pack
  simp only [hbias]
  rw [if_neg (by omega)]
  by_cases hdigits : mantissa.log2 = 23
  · have hbits : mantissa.log2 + 1 = Format.binary32.mantissaBits := congrArg (· + 1) hdigits
    rw [if_pos hbits]
    obtain ⟨_, hunpack⟩ := @unpack_packComponents_normal sign mantissa (exponent + 150).toNat
      hdigits (by omega) (by omega)
    have hexponent : ((exponent + 150).toNat : Int) - 150 = exponent := by omega
    rw [hunpack]
    simp only [hexponent]
  · have hbits : mantissa.log2 + 1 ≠ Format.binary32.mantissaBits :=
      fun heq ↦ hdigits (Nat.succ.inj heq)
    rw [if_neg hbits]
    obtain rfl : exponent = -149 := by omega
    exact unpack_packComponents_subnormal hpos ((Nat.log2_lt hpos.ne').1 (by omega))

/-- Packing and unpacking again keeps an infinity. -/
theorem unpack_packedInfinity (sign : Sign) :
    UnpackedFloat.unpack Format.binary32 (packedInfinity Format.binary32 sign) =
      .infinity sign := by
  unfold UnpackedFloat.unpack packedInfinity
  simp only [unpackExponent_packComponents, unpackMantissa_packComponents,
    unpackSign_packComponents, Sign.ofBitVec_toBitVec]
  rfl

/-- A number that is too large becomes an infinity. -/
theorem unpack_ofUnpacked_large {sign : Sign} {mantissa : Nat} {exponent : Int}
    {hpos : 0 < mantissa} (hlt : 104 < exponent) :
    (ofUnpacked (.finite sign mantissa exponent hpos)).toModel.unpack = .infinity sign := by
  have hbias : exponent + (Format.binary32.exponentBias : Nat) + (23 : Nat) = exponent + 150 := by
    have : ((Format.binary32.exponentBias : Nat) : Int) = 127 := rfl
    omega
  show UnpackedFloat.unpack Format.binary32 (UnpackedFloat.pack Format.binary32
    (.finite sign mantissa exponent hpos)) = _
  unfold UnpackedFloat.pack
  simp only [hbias]
  rw [if_pos (by omega)]
  exact unpack_packedInfinity sign

/-! ### Results -/

/-- A rounded result that is not too large is finite. -/
theorem isFinite_roundWithAccuracy {mantissa : Nat} {exponent : Int}
    (hdigits : exponent ≤ roundedExponent mantissa exponent)
    (hsize : roundedExponent mantissa exponent ≤ 103) (sign : Sign) (accuracy : Accuracy) :
    (ofUnpacked (roundWithAccuracy Format.binary32 sign mantissa exponent accuracy)).isFinite =
      true := by
  show UnpackedFloat.isFinite (ofUnpacked _).toModel.unpack = true
  rcases roundWithAccuracy_cases hdigits sign accuracy with
    ⟨-, hround⟩ | ⟨rounded, target, hpos, hround, hcanonical, hle⟩
  · rw [hround, unpack_ofUnpacked_zero]
    rfl
  · rw [hround, unpack_ofUnpacked_finite hcanonical (by omega)]
    rfl

/-- A rounded result is no zero if a digit of it is kept. -/
theorem not_isZero_roundWithAccuracy {mantissa : Nat} {exponent : Int}
    (hdigits : exponent ≤ roundedExponent mantissa exponent)
    (hkept : 2 ^ (roundedExponent mantissa exponent - exponent).toNat ≤ mantissa) (sign : Sign)
    (accuracy : Accuracy) :
    ¬ IsZero (ofUnpacked (roundWithAccuracy Format.binary32 sign mantissa exponent accuracy)) := by
  rintro ⟨other, hzero⟩
  rcases roundWithAccuracy_cases hdigits sign accuracy with
    ⟨hnone, -⟩ | ⟨rounded, target, hpos, hround, hcanonical, -⟩
  · have hpositive := Nat.div_pos hkept (Nat.two_pow_pos _)
    exact hpositive.ne' hnone
  · rw [hround] at hzero
    by_cases hle : target ≤ 104
    · rw [unpack_ofUnpacked_finite hcanonical hle] at hzero
      cases hzero
    · rw [unpack_ofUnpacked_large (Int.not_le.1 hle)] at hzero
      cases hzero

/-- Nothing is rounded to a zero. -/
theorem roundWithAccuracy_zero (sign : Sign) (exponent : Int) :
    roundWithAccuracy Format.binary32 sign 0 exponent .exact = .zero sign := by
  have hshift (k : Nat) : (⟨0, false, false⟩ : ExtendedMantissa) >>> k = ⟨0, false, false⟩ := by
    have hzero := shiftRight_mul_two_pow 0 k
    rwa [Nat.zero_mul] at hzero
  unfold roundWithAccuracy shiftToTargetExponent shiftToExponent
  simp only [ExtendedMantissa.ofMantissaAndAccuracy, hshift, ExtendedMantissa.roundedMantissa,
    ExtendedMantissa.accuracy, Accuracy.roundToNearestEven]
  rfl

/-- The number nearest to a value below `2 ^ 127` is finite. -/
theorem isFinite_nearest (negative : Bool) {significand : Nat} {exponent : Int}
    (h : significand.log2 + exponent ≤ 126) :
    (nearest negative significand exponent).isFinite = true := by
  show (ofUnpacked (UnpackedFloat.round Format.binary32 (signOf negative) significand
    exponent)).isFinite = true
  unfold UnpackedFloat.round decreaseExponent
  simp only [roundedExponent_eq, Nat.shiftLeft_eq]
  rcases Nat.eq_zero_or_pos significand with rfl | hpos
  · rw [Nat.zero_mul, roundWithAccuracy_zero]
    show UnpackedFloat.isFinite (ofUnpacked _).toModel.unpack = true
    rw [unpack_ofUnpacked_zero]
    rfl
  · -- digits are added until the exponent is the one that is rounded to
    have hlog := log2_mul_two_pow hpos (exponent - roundedExponent significand exponent).toNat
    refine isFinite_roundWithAccuracy ?_ ?_ _ _ <;> unfold roundedExponent at hlog ⊢ <;>
      rw [hlog] <;> omega

/-- A product with a number of absolute value at least one is a zero only if the other factor
is. -/
theorem not_isZero_mul {x y : Float32} {sign other : Sign} {mantissa m : Nat} {exponent e : Int}
    {hpos : 0 < mantissa} {hm : 0 < m} (hx : x.toModel.unpack = .finite sign mantissa exponent hpos)
    (hy : y.toModel.unpack = .finite other m e hm) (hdigits : m.log2 = 23) (hone : -23 ≤ e) :
    ¬ IsZero (x * y) := by
  obtain ⟨-, hleast, -⟩ := canonical_iff.1 (canonical_unpack hx)
  have hmul : mantissa * m ≠ 0 := Nat.mul_ne_zero hpos.ne' hm.ne'
  have hlog : 23 ≤ (mantissa * m).log2 := by
    rw [Nat.le_log2 hmul]
    calc 2 ^ 23 ≤ m := hdigits ▸ Nat.log2_self_le hm.ne'
      _ ≤ mantissa * m := Nat.le_mul_of_pos_left m hpos
  show ¬ IsZero (ofUnpacked (UnpackedFloat.mul Format.binary32 x.toModel.unpack y.toModel.unpack))
  rw [hx, hy]
  refine not_isZero_roundWithAccuracy ?_ ?_ _ _
  · unfold roundedExponent
    omega
  · refine (Nat.pow_le_pow_right (by decide) ?_).trans (Nat.log2_self_le hmul)
    unfold roundedExponent
    omega

end Nabla.Binary32
