import Nabla.Binary32.Elementary
import Nabla.Proofs.Binary32.SameNumber

/-!
# Integers and the number one

An integer that is cut off to zero is a zero, and one that is cut off to one is the number one. To
multiply by one or to divide by one is exact: a number is unpacked with the exponent that results
are rounded to (`canonical_unpack`), so rounding takes off just the digits that were added.
-/

namespace Nabla.Binary32

open Float.Model Float.Model.UnpackedFloat

/-! ### Canonical exponents -/

/-- The exponent is the one that a result of this size is rounded to. -/
def Canonical (mantissa : Nat) (exponent : Int) : Prop :=
  Format.binary32.targetExponent (totalExponent mantissa exponent) = exponent

/-- The exponent that 24 bits are rounded to, or the least one. -/
theorem targetExponent_eq (total : Int) :
    Format.binary32.targetExponent total = max (total - 24) (-149) := rfl

/-- A significand has 24 bits, or fewer with the least exponent. -/
theorem canonical_iff {mantissa : Nat} {exponent : Int} :
    Canonical mantissa exponent ↔ mantissa.log2 ≤ 23 ∧ -149 ≤ exponent ∧
      (mantissa.log2 = 23 ∨ exponent = -149) := by
  rw [Canonical, targetExponent_eq, totalExponent]
  omega

/-- The leading bit of a normal number is worth `2 ^ 23`. -/
theorem toNat_one_append (bits : BitVec 23) : (1#1 ++ bits).toNat = 2 ^ 23 + bits.toNat := by
  rw [BitVec.toNat_append, ← Nat.shiftLeft_add_eq_or_of_lt bits.isLt]
  rfl

/-- Numbers are unpacked in canonical form. -/
theorem canonical_unpack {x : Float32} {sign : Sign} {mantissa : Nat} {exponent : Int}
    {hpos : 0 < mantissa} (h : x.toModel.unpack = .finite sign mantissa exponent hpos) :
    Canonical mantissa exponent := by
  have hunpack : UnpackedFloat.unpack Format.binary32 x.toModel.toBits.toBitVec =
      .finite sign mantissa exponent hpos := h
  generalize x.toModel.toBits.toBitVec = bits at hunpack
  unfold UnpackedFloat.unpack at hunpack
  dsimp only at hunpack
  rw [canonical_iff]
  have hbits : (@unpackMantissa Format.binary32 bits).toNat < 2 ^ 23 := BitVec.isLt _
  have hbias : ((Format.binary32.exponentBias : Nat) : Int) = 127 := rfl
  split at hunpack
  · split at hunpack <;> cases hunpack
  · split at hunpack
    · rename_i hzero
      split at hunpack <;> cases hunpack
      -- A number below the normal ones has the least exponent.
      have hlog := (Nat.log2_lt (Nat.pos_iff_ne_zero.1 hpos)).2 hbits
      have hexponent : (@unpackExponent Format.binary32 bits).toNat = 0 := by
        rw [hzero]
        rfl
      rw [hexponent, hbias]
      omega
    · rename_i hnonzero
      cases hunpack
      -- A normal number has its first digit in front of the digits that are kept.
      have hlog : (1#1 ++ @unpackMantissa Format.binary32 bits).toNat.log2 = 23 := by
        rw [toNat_one_append, Nat.log2_eq_iff (by omega)]
        omega
      have hexponent : (@unpackExponent Format.binary32 bits).toNat ≠ 0 :=
        fun h ↦ hnonzero (BitVec.eq_of_toNat_eq h)
      rw [hlog, hbias]
      omega

/-! ### Exact rounding -/

/-- What was shifted to the left is shifted back without a loss. -/
theorem shiftRight_mul_two_pow (mantissa k : Nat) :
    (⟨mantissa * 2 ^ k, false, false⟩ : ExtendedMantissa) >>> k = ⟨mantissa, false, false⟩ := by
  induction k generalizing mantissa with
  | zero => exact congrArg (ExtendedMantissa.mk · false false) (Nat.mul_one mantissa)
  | succ k ih =>
    have hstep : (⟨mantissa * 2 ^ (k + 1), false, false⟩ : ExtendedMantissa) >>> (k + 1) =
        ((⟨mantissa * 2 * 2 ^ k, false, false⟩ : ExtendedMantissa) >>> k).shiftRightOne := by
      rw [Nat.pow_succ', ← Nat.mul_assoc]
      rfl
    rw [hstep, ih]
    simp [ExtendedMantissa.shiftRightOne]

/-- A shift to the left adds to the binary logarithm. -/
theorem log2_mul_two_pow {n : Nat} (hpos : 0 < n) (k : Nat) : (n * 2 ^ k).log2 = n.log2 + k := by
  have hne : n ≠ 0 := Nat.pos_iff_ne_zero.1 hpos
  rw [Nat.log2_eq_iff (Nat.mul_ne_zero hne (Nat.two_pow_pos k).ne')]
  constructor
  · rw [Nat.pow_add]
    exact Nat.mul_le_mul_right _ (Nat.log2_self_le hne)
  · rw [Nat.add_right_comm, Nat.pow_add]
    exact Nat.mul_lt_mul_of_pos_right Nat.lt_log2_self (Nat.two_pow_pos k)

/-- The digits that were added to a number with its own exponent are taken off again. -/
theorem shiftToTargetExponent_of_canonical {mantissa : Nat} {exponent : Int}
    (hpos : 0 < mantissa) (h : Canonical mantissa exponent) (k : Nat) :
    shiftToTargetExponent Format.binary32 (mantissa * 2 ^ k) (exponent - k) .exact =
      (⟨mantissa, false, false⟩, exponent) := by
  have htotal : totalExponent (mantissa * 2 ^ k) (exponent - k) =
      totalExponent mantissa exponent := by
    rw [totalExponent, totalExponent, log2_mul_two_pow hpos]
    omega
  have hshift : (exponent - (exponent - k)).toNat = k := by omega
  unfold shiftToTargetExponent shiftToExponent
  dsimp only
  rw [htotal, h, hshift]
  simp only [ExtendedMantissa.ofMantissaAndAccuracy, shiftRight_mul_two_pow, Prod.mk.injEq,
    true_and]
  omega

/-- A canonical number is rounded to itself, however far it is shifted to the left. -/
theorem roundWithAccuracy_of_canonical {mantissa : Nat} {exponent : Int} (hpos : 0 < mantissa)
    (h : Canonical mantissa exponent) (sign : Sign) (k : Nat) :
    roundWithAccuracy Format.binary32 sign (mantissa * 2 ^ k) (exponent - k) .exact =
      .finite sign mantissa exponent hpos := by
  have hagain : shiftToTargetExponent Format.binary32 mantissa exponent .exact =
      (⟨mantissa, false, false⟩, exponent) := by
    have hzero := shiftToTargetExponent_of_canonical hpos h 0
    simpa using hzero
  unfold roundWithAccuracy
  rw [shiftToTargetExponent_of_canonical hpos h k]
  simp only [ExtendedMantissa.roundedMantissa, ExtendedMantissa.accuracy,
    Accuracy.roundToNearestEven, hagain]
  exact dif_neg (Nat.pos_iff_ne_zero.1 hpos)

/-! ### One -/

/-- One is `2 ^ 23` times `2 ^ -23`. -/
theorem unpack_one : (1 : Float32).toModel.unpack = .finite .positive (2 ^ 23) (-23) (by decide) :=
  rfl

/-- One times a number is the number. -/
protected theorem one_mul (x : Float32) : 1 * x = x := by
  refine Eq.trans (congrArg ofUnpacked ?_) (ofUnpacked_unpack x)
  rw [unpack_one]
  cases hx : x.toModel.unpack with
  | notANumber => rfl
  | infinity sign | zero sign => cases sign <;> rfl
  | finite sign mantissa exponent hpos =>
    have hsign : Sign.positive * sign = sign := by cases sign <;> rfl
    have hround := roundWithAccuracy_of_canonical hpos (canonical_unpack hx) sign 23
    show roundWithAccuracy Format.binary32 (.positive * sign) (2 ^ 23 * mantissa) (-23 + exponent)
      .exact = _
    rwa [hsign, Nat.mul_comm, Int.add_comm]

/-- A number times one is the number. -/
protected theorem mul_one (x : Float32) : x * 1 = x := by
  refine Eq.trans (congrArg ofUnpacked ?_) (ofUnpacked_unpack x)
  rw [unpack_one]
  cases hx : x.toModel.unpack with
  | notANumber => rfl
  | infinity sign | zero sign => cases sign <;> rfl
  | finite sign mantissa exponent hpos =>
    have hsign : sign * Sign.positive = sign := by cases sign <;> rfl
    have hround := roundWithAccuracy_of_canonical hpos (canonical_unpack hx) sign 23
    show roundWithAccuracy Format.binary32 (sign * .positive) _ _ .exact = _
    rwa [hsign]

/-- The quotient of a number and one is the number with some zero digits added. -/
theorem divCore_one {mantissa : Nat} {exponent : Int} (h : Canonical mantissa exponent) :
    ∃ k : Nat, divCore Format.binary32 mantissa exponent (2 ^ 23) (-23) =
      (mantissa * 2 ^ k, exponent - k, .exact) := by
  obtain ⟨hlog, hleast, hexponent⟩ := canonical_iff.1 h
  set target : Int := max (mantissa.log2 + exponent - 24) (-149) with htarget
  have hmin : min (exponent - -23) (Format.binary32.targetExponent
      (totalExponent mantissa exponent - totalExponent (2 ^ 23) (-23))) = target := by
    rw [targetExponent_eq, totalExponent, totalExponent, Nat.log2_two_pow]
    omega
  have hshift : (exponent - -23 - target).toNat = (exponent - target).toNat + 23 := by omega
  have hproduct : mantissa * 2 ^ ((exponent - target).toNat + 23) =
      mantissa * 2 ^ (exponent - target).toNat * 2 ^ 23 := by
    rw [Nat.pow_add, Nat.mul_assoc]
  refine ⟨(exponent - target).toNat, ?_⟩
  unfold divCore
  simp only [hmin, hshift, Nat.shiftLeft_eq, hproduct]
  rw [Nat.mul_div_cancel _ (by decide), Nat.mul_mod_left]
  refine Prod.ext rfl (Prod.ext ?_ rfl)
  show target = exponent - (exponent - target).toNat
  omega

/-- A number divided by one is the number. -/
protected theorem div_one (x : Float32) : x / 1 = x := by
  refine Eq.trans (congrArg ofUnpacked ?_) (ofUnpacked_unpack x)
  rw [unpack_one]
  cases hx : x.toModel.unpack with
  | notANumber => rfl
  | infinity sign | zero sign => cases sign <;> rfl
  | finite sign mantissa exponent hpos =>
    have hsign : sign / Sign.positive = sign := by cases sign <;> rfl
    obtain ⟨k, hquotient⟩ := divCore_one (canonical_unpack hx)
    show (match divCore Format.binary32 mantissa exponent (2 ^ 23) (-23) with
      | (m, e, accuracy) =>
        roundWithAccuracy Format.binary32 (sign / Sign.positive) m e accuracy) = _
    rw [hquotient, hsign]
    exact roundWithAccuracy_of_canonical hpos (canonical_unpack hx) sign k

/-! ### Integers -/

/-- Whether a number is finite and an integer. -/
def isInteger (x : Float32) : Bool :=
  match parts x with
  | .finite _ significand exponent => (whole? significand exponent).isSome
  | _ => false

/-- An integer is finite, and its significand and exponent make a whole number. -/
theorem exists_of_isInteger {x : Float32} (h : isInteger x = true) :
    ∃ negative significand exponent n, parts x = .finite negative significand exponent ∧
      whole? significand exponent = some n := by
  unfold isInteger at h
  split at h
  · rename_i negative significand exponent hparts
    obtain ⟨n, hwhole⟩ := Option.isSome_iff_exists.1 h
    exact ⟨negative, significand, exponent, n, hparts, hwhole⟩
  · cases h

/-- A whole number is a significand shifted to the left, or one that nothing is lost of to the
right. -/
theorem whole?_eq_some_iff {significand n : Nat} {exponent : Int} :
    whole? significand exponent = some n ↔
      (0 ≤ exponent ∧ significand * 2 ^ exponent.toNat = n) ∨
        (exponent < 0 ∧ significand = n * 2 ^ (-exponent).toNat) := by
  unfold whole?
  split
  · rename_i hexponent
    simp [hexponent, Int.not_lt.2 hexponent]
  · rename_i hexponent
    have hpower : 0 < 2 ^ (-exponent).toNat := Nat.two_pow_pos _
    simp only [hexponent, false_and, Int.not_le.1 hexponent, true_and, false_or,
      Option.ite_none_right_eq_some, Option.some.injEq, Nat.pow_eq]
    constructor
    · rintro ⟨hdvd, rfl⟩
      exact (Nat.div_mul_cancel (Nat.dvd_of_mod_eq_zero hdvd)).symm
    · rintro rfl
      exact ⟨Nat.mul_mod_left _ _, Nat.mul_div_cancel _ hpower⟩

/-- An integer is not changed when its fraction is cut off. -/
theorem truncate?_of_whole? {x : Float32} {negative : Bool} {significand n : Nat} {exponent : Int}
    (hparts : parts x = .finite negative significand exponent)
    (hwhole : whole? significand exponent = some n) : truncate? x = some (signed negative n) := by
  have hpower (k : Nat) : Int.pow 2 k = ((2 ^ k : Nat) : Int) := (Int.natCast_pow 2 k).symm
  unfold truncate?
  simp only [hparts, Option.some.injEq, hpower]
  rcases whole?_eq_some_iff.1 hwhole with ⟨hexponent, rfl⟩ | ⟨hexponent, rfl⟩
  · rw [if_pos hexponent]
    cases negative <;> simp [signed]
  · have hne : ((2 ^ (-exponent).toNat : Nat) : Int) ≠ 0 :=
      Int.natCast_ne_zero.2 (Nat.two_pow_pos _).ne'
    rw [if_neg (Int.not_le.2 hexponent)]
    cases negative
    · simp only [signed, Bool.false_eq_true, if_false, Int.natCast_mul]
      exact Int.mul_tdiv_cancel _ hne
    · simp only [signed, if_true, Int.natCast_mul, Int.neg_tdiv]
      rw [Int.mul_tdiv_cancel _ hne]

/-- A sign is found again from whether it is negative. -/
theorem signOf_isNegative (sign : Sign) : signOf (isNegative sign) = sign := by
  cases sign <;> rfl

/-- The unpacked number of a finite one. -/
theorem unpack_of_parts {x : Float32} {negative : Bool} {significand : Nat} {exponent : Int}
    (h : parts x = .finite negative significand exponent) :
    (significand = 0 ∧ x.toModel.unpack = .zero (signOf negative)) ∨
      ∃ hpos, x.toModel.unpack = .finite (signOf negative) significand exponent hpos := by
  unfold parts at h
  split at h
  · cases h
  · cases h
  · rename_i sign hunpack
    injection h with hnegative hsignificand
    rw [← hnegative, signOf_isNegative]
    exact .inl ⟨hsignificand.symm, hunpack⟩
  · rename_i sign mantissa scale hpos hunpack
    injection h with hnegative hsignificand hexponent
    subst hsignificand hexponent
    rw [← hnegative, signOf_isNegative]
    exact .inr ⟨hpos, hunpack⟩

/-- A number without a significand is a zero. -/
theorem isZero_of_parts {x : Float32} {negative : Bool} {exponent : Int}
    (h : parts x = .finite negative 0 exponent) : IsZero x := by
  rcases unpack_of_parts h with ⟨_, hunpack⟩ | ⟨hpos, _⟩
  · exact ⟨_, hunpack⟩
  · exact absurd hpos (Nat.lt_irrefl 0)

/-- An integer that is cut off to zero is a zero. -/
theorem isZero_of_truncate? {x : Float32} (hinteger : isInteger x = true)
    (h : truncate? x = some 0) : IsZero x := by
  obtain ⟨negative, significand, exponent, n, hparts, hwhole⟩ := exists_of_isInteger hinteger
  have hsigned : signed negative n = 0 :=
    Option.some.inj ((truncate?_of_whole? hparts hwhole).symm.trans h)
  have hn : n = 0 := by cases negative <;> simpa [signed] using hsigned
  have hsignificand : significand = 0 := by
    rcases whole?_eq_some_iff.1 hwhole with ⟨_, hproduct⟩ | ⟨_, hproduct⟩
    · exact (Nat.mul_eq_zero.1 (hproduct.trans hn)).resolve_right (Nat.two_pow_pos _).ne'
    · rw [hproduct, hn, Nat.zero_mul]
  exact isZero_of_parts (hsignificand ▸ hparts)

/-- An integer that is cut off to one is the number one. -/
theorem eq_one_of_truncate? {x : Float32} (hinteger : isInteger x = true)
    (h : truncate? x = some 1) : x = 1 := by
  obtain ⟨negative, significand, exponent, n, hparts, hwhole⟩ := exists_of_isInteger hinteger
  have hsigned : signed negative n = 1 :=
    Option.some.inj ((truncate?_of_whole? hparts hwhole).symm.trans h)
  have hpositive : negative = false ∧ n = 1 := by
    unfold signed at hsigned
    cases negative <;> simp at hsigned ⊢ <;> omega
  obtain ⟨rfl, rfl⟩ := hpositive
  rcases unpack_of_parts hparts with ⟨rfl, _⟩ | ⟨hpos, hunpack⟩
  · rcases whole?_eq_some_iff.1 hwhole with ⟨_, hproduct⟩ | ⟨_, hproduct⟩
    · rw [Nat.zero_mul] at hproduct
      cases hproduct
    · exact absurd (hproduct.trans (Nat.one_mul _)) (Nat.two_pow_pos _).ne
  · obtain ⟨hlog, _, hnormal⟩ := canonical_iff.1 (canonical_unpack hunpack)
    -- Of the powers of two that are one, only this one has as many digits as are kept.
    have hexponent : significand = 2 ^ 23 ∧ exponent = -23 := by
      rcases whole?_eq_some_iff.1 hwhole with ⟨hexponent, hproduct⟩ | ⟨hexponent, rfl⟩
      · have hone : significand = 1 := Nat.eq_one_of_mul_eq_one_right hproduct
        have hlog_one : Nat.log2 1 = 0 := @Nat.log2_two_pow 0
        rw [hone, hlog_one] at hnormal
        omega
      · rw [Nat.one_mul] at hlog hnormal ⊢
        rw [Nat.log2_two_pow] at hlog hnormal
        have hexponent : exponent = -23 := by omega
        rw [hexponent]
        exact ⟨rfl, rfl⟩
    obtain ⟨rfl, rfl⟩ := hexponent
    exact unpack_inj (hunpack.trans unpack_one.symm)

end Nabla.Binary32
