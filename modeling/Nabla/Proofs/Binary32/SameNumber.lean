import Mathlib
import Nabla.Binary32.Parts

/-!
# Equal numbers

Two binary32 numbers are the same number if they are identical or both zeros. This is the equality
`==` of numbers, except that not-a-number is the same as itself (`beq_iff_sameNumber`), so it is an
equivalence. Sums, differences and products of the same numbers are the same, and the identities
below hold up to it: they are read off the core model, on unpacked numbers.
-/

namespace Nabla.Binary32

open Float.Model Float.Model.UnpackedFloat

/-! ### Unpacked numbers -/

/-- Two unpacked numbers are identical or both zeros. -/
inductive Near : UnpackedFloat → UnpackedFloat → Prop where
  | same (number : UnpackedFloat) : Near number number
  | zeros (sign other : Sign) : Near (.zero sign) (.zero other)

/-- The number that an unpacked number is packed to. -/
def ofUnpacked (number : UnpackedFloat) : Float32 := .ofModel (.pack number)

/-- What is near is near in the other direction. -/
theorem Near.symm {u v : UnpackedFloat} (h : Near u v) : Near v u := by
  cases h with
  | same => exact .same _
  | zeros => exact .zeros _ _

/-- What is near to something near is near. -/
theorem Near.trans {u v w : UnpackedFloat} (h : Near u v) (h' : Near v w) : Near u w := by
  cases h with
  | same => exact h'
  | zeros sign other =>
    cases h' with
    | same => exact .zeros _ _
    | zeros => exact .zeros _ _

/-- Zeros are both finite, so near numbers are finite alike. -/
theorem Near.isFinite_eq {u v : UnpackedFloat} (h : Near u v) : u.isFinite = v.isFinite := by
  cases h <;> rfl

/-- Zeros are both numbers, so near numbers are not-a-number alike. -/
theorem Near.isNaN_eq {u v : UnpackedFloat} (h : Near u v) : u.isNaN = v.isNaN := by
  cases h <;> rfl

/-- Without their signs, near numbers are identical. -/
theorem Near.abs_eq {u v : UnpackedFloat} (h : Near u v) : u.abs = v.abs := by
  cases h <;> rfl

/-- Negation keeps numbers near. -/
theorem near_neg {u v : UnpackedFloat} (h : Near u v) : Near u.neg v.neg := by
  cases h with
  | same => exact .same _
  | zeros => exact .zeros _ _

/-- Packing and unpacking again keeps a zero. -/
theorem unpack_ofUnpacked_zero (sign : Sign) :
    (ofUnpacked (.zero sign)).toModel.unpack = .zero sign :=
  @unpack_packedZero Format.binary32 sign

/-- Unpacking and packing again changes nothing. -/
theorem ofUnpacked_unpack (x : Float32) : ofUnpacked x.toModel.unpack = x := by
  refine Float32.toBits_inj.1 (UInt32.toBitVec_inj.1 ?_)
  exact @pack_unpack_of_valid Format.binary32 _ x.toModel.valid (by decide)

/-- Numbers are told apart by what they are unpacked to. -/
theorem unpack_inj {x y : Float32} (h : x.toModel.unpack = y.toModel.unpack) : x = y := by
  rw [← ofUnpacked_unpack x, h, ofUnpacked_unpack]

/-! ### Numbers -/

/-- Two numbers are identical or both zeros. -/
def SameNumber (x y : Float32) : Prop := Near x.toModel.unpack y.toModel.unpack

/-- A number is a zero of either sign. -/
def IsZero (x : Float32) : Prop := ∃ sign, x.toModel.unpack = .zero sign

/-- A number is the same as itself, not-a-number too. -/
@[refl]
theorem SameNumber.refl (x : Float32) : SameNumber x x := .same _

/-- The same numbers, in the other order. -/
theorem SameNumber.symm {x y : Float32} (h : SameNumber x y) : SameNumber y x := Near.symm h

/-- What is the same number as a second one is the same as whatever the second one is. -/
theorem SameNumber.trans {x y z : Float32} (h : SameNumber x y) (h' : SameNumber y z) :
    SameNumber x z :=
  Near.trans h h'

/-- Near numbers are packed to the same number. -/
theorem sameNumber_ofUnpacked {u v : UnpackedFloat} (h : Near u v) :
    SameNumber (ofUnpacked u) (ofUnpacked v) := by
  cases h with
  | same => exact .refl _
  | zeros sign other =>
    rw [SameNumber, unpack_ofUnpacked_zero, unpack_ofUnpacked_zero]
    exact .zeros _ _

/-- Two zeros are the same number, whatever their signs. -/
theorem IsZero.sameNumber {x y : Float32} (hx : IsZero x) (hy : IsZero y) : SameNumber x y := by
  obtain ⟨sign, hx⟩ := hx
  obtain ⟨other, hy⟩ := hy
  rw [SameNumber, hx, hy]
  exact .zeros _ _

/-- Of the same numbers, either both are zeros or they are identical. -/
theorem SameNumber.eq_or_isZero {x y : Float32} (h : SameNumber x y) :
    x = y ∨ (IsZero x ∧ IsZero y) := by
  unfold SameNumber at h
  generalize hu : x.toModel.unpack = u at h
  generalize hv : y.toModel.unpack = v at h
  cases h with
  | same => exact .inl (unpack_inj (hu.trans hv.symm))
  | zeros sign other => exact .inr ⟨⟨sign, hu⟩, ⟨other, hv⟩⟩

/-- The same numbers are finite alike. -/
theorem SameNumber.isFinite_eq {x y : Float32} (h : SameNumber x y) : x.isFinite = y.isFinite :=
  Near.isFinite_eq h

/-- The same numbers are not-a-number alike. -/
theorem SameNumber.isNaN_eq {x y : Float32} (h : SameNumber x y) : x.isNaN = y.isNaN :=
  Near.isNaN_eq h

/-- The same numbers have identical absolute values. -/
theorem SameNumber.abs_eq {x y : Float32} (h : SameNumber x y) : x.abs = y.abs :=
  congrArg ofUnpacked (Near.abs_eq h)

/-- The equality of numbers, up to not-a-number. -/
theorem beq_iff_sameNumber {x y : Float32} :
    (x == y) = true ↔ SameNumber x y ∧ x.isNaN = false := by
  show UnpackedFloat.beq x.toModel.unpack y.toModel.unpack = true ↔
    Near x.toModel.unpack y.toModel.unpack ∧ UnpackedFloat.isNaN x.toModel.unpack = false
  generalize x.toModel.unpack = u
  generalize y.toModel.unpack = v
  rw [beq_iff_ne_notANumber_and_eq]
  constructor
  · rintro ⟨hu, -, rfl | ⟨rfl, rfl⟩ | ⟨rfl, rfl⟩⟩
    · exact ⟨.same u, Bool.eq_false_iff.2 (mt isNaN_iff.1 hu)⟩
    · exact ⟨.zeros _ _, rfl⟩
    · exact ⟨.zeros _ _, rfl⟩
  · rintro ⟨hsame | ⟨sign, other⟩, hu⟩
    · have hne : u ≠ .notANumber := by
        rintro rfl
        cases hu
      exact ⟨hne, hne, .inl rfl⟩
    · cases sign <;> cases other <;> simp

/-- The same numbers equal the same ones. -/
theorem SameNumber.beq_eq {x x' : Float32} (h : SameNumber x x') (y : Float32) :
    (x == y) = (x' == y) := by
  rw [Bool.eq_iff_iff, beq_iff_sameNumber, beq_iff_sameNumber, h.isNaN_eq]
  exact and_congr_left' ⟨h.symm.trans, h.trans⟩

/-- A finite number is a zero, or it has a positive significand. -/
theorem isZero_or_exists_finite {x : Float32} (h : x.isFinite = true) : IsZero x ∨
    ∃ sign mantissa exponent hpos, x.toModel.unpack = .finite sign mantissa exponent hpos := by
  have hfinite : UnpackedFloat.isFinite x.toModel.unpack = true := h
  cases hunpack : x.toModel.unpack with
  | notANumber | infinity =>
    rw [hunpack] at hfinite
    cases hfinite
  | zero sign => exact .inl ⟨sign, hunpack⟩
  | finite sign mantissa exponent hpos => exact .inr ⟨sign, mantissa, exponent, hpos, rfl⟩

/-- A finite number is not not-a-number. -/
theorem isNaN_eq_false {x : Float32} (h : x.isFinite = true) : x.isNaN = false := by
  show UnpackedFloat.isNaN x.toModel.unpack = false
  rcases isZero_or_exists_finite h with ⟨_, hunpack⟩ | ⟨_, _, _, _, hunpack⟩
  · rw [hunpack]
    rfl
  · rw [hunpack]
    rfl

/-! ### Operations on the same numbers -/

/-- An operation that does not depend on the sign of a zero has the same results at the same
arguments. -/
theorem near_congr {operation : UnpackedFloat → UnpackedFloat → UnpackedFloat}
    (hleft : ∀ sign other v, Near (operation (.zero sign) v) (operation (.zero other) v))
    (hright : ∀ sign other u, Near (operation u (.zero sign)) (operation u (.zero other)))
    {u u' v v' : UnpackedFloat} (hu : Near u u') (hv : Near v v') :
    Near (operation u v) (operation u' v') := by
  have hfirst : Near (operation u v) (operation u' v) := by
    cases hu with
    | same => exact .same _
    | zeros sign other => exact hleft sign other v
  refine hfirst.trans ?_
  cases hv with
  | same => exact .same _
  | zeros sign other => exact hright sign other u'

/-- A zero added from the left changes no more than the sign of a zero. -/
theorem near_zero_add (sign : Sign) (u : UnpackedFloat) :
    Near (UnpackedFloat.add Format.binary32 (.zero sign) u) u := by
  cases u with
  | notANumber | infinity | finite => exact .same _
  | zero other => cases sign <;> cases other <;> exact .zeros _ _

/-- A zero added from the right changes no more than the sign of a zero. -/
theorem near_add_zero (sign : Sign) (u : UnpackedFloat) :
    Near (UnpackedFloat.add Format.binary32 u (.zero sign)) u := by
  cases u with
  | notANumber | infinity | finite => exact .same _
  | zero other => cases sign <;> cases other <;> exact .zeros _ _

/-- To subtract from a zero is to negate, up to the sign of a zero. -/
theorem near_zero_sub (sign : Sign) (u : UnpackedFloat) :
    Near (UnpackedFloat.sub Format.binary32 (.zero sign) u) u.neg := by
  cases u with
  | notANumber | infinity | finite => exact .same _
  | zero other => cases sign <;> cases other <;> exact .zeros _ _

/-- A zero that is subtracted changes no more than the sign of a zero. -/
theorem near_sub_zero (sign : Sign) (u : UnpackedFloat) :
    Near (UnpackedFloat.sub Format.binary32 u (.zero sign)) u := by
  cases u with
  | notANumber | infinity | finite => exact .same _
  | zero other => cases sign <;> cases other <;> exact .zeros _ _

/-- Sums of near numbers are near. -/
theorem near_add {u u' v v' : UnpackedFloat} (hu : Near u u') (hv : Near v v') :
    Near (UnpackedFloat.add Format.binary32 u v) (UnpackedFloat.add Format.binary32 u' v') :=
  near_congr (fun sign other v ↦ (near_zero_add sign v).trans (near_zero_add other v).symm)
    (fun sign other u ↦ (near_add_zero sign u).trans (near_add_zero other u).symm) hu hv

/-- Differences of near numbers are near. -/
theorem near_sub {u u' v v' : UnpackedFloat} (hu : Near u u') (hv : Near v v') :
    Near (UnpackedFloat.sub Format.binary32 u v) (UnpackedFloat.sub Format.binary32 u' v') :=
  near_congr (fun sign other v ↦ (near_zero_sub sign v).trans (near_zero_sub other v).symm)
    (fun sign other u ↦ (near_sub_zero sign u).trans (near_sub_zero other u).symm) hu hv

/-- Products of near numbers are near. -/
theorem near_mul {u u' v v' : UnpackedFloat} (hu : Near u u') (hv : Near v v') :
    Near (UnpackedFloat.mul Format.binary32 u v) (UnpackedFloat.mul Format.binary32 u' v') := by
  refine near_congr (fun sign other v ↦ ?_) (fun sign other u ↦ ?_) hu hv
  · cases v with
    | notANumber | infinity => exact .same _
    | zero | finite => exact .zeros _ _
  · cases u with
    | notANumber | infinity => exact .same _
    | zero | finite => exact .zeros _ _

/-- Quotients of near numbers by one number are near. By zeros of different signs they need not be.
-/
theorem near_div_right {u u' : UnpackedFloat} (hu : Near u u') (v : UnpackedFloat) :
    Near (UnpackedFloat.div Format.binary32 u v) (UnpackedFloat.div Format.binary32 u' v) := by
  cases hu with
  | same => exact .same _
  | zeros sign other =>
    cases v with
    | notANumber | zero => exact .same _
    | infinity | finite => exact .zeros _ _

variable {x x' y y' : Float32}

/-- The same numbers have the same negations. -/
theorem SameNumber.neg (h : SameNumber x x') : SameNumber (-x) (-x') :=
  sameNumber_ofUnpacked (near_neg h)

/-- The same numbers have the same sums. -/
theorem SameNumber.add (hx : SameNumber x x') (hy : SameNumber y y') :
    SameNumber (x + y) (x' + y') :=
  sameNumber_ofUnpacked (near_add hx hy)

/-- The same numbers have the same differences. -/
theorem SameNumber.sub (hx : SameNumber x x') (hy : SameNumber y y') :
    SameNumber (x - y) (x' - y') :=
  sameNumber_ofUnpacked (near_sub hx hy)

/-- The same numbers have the same products. -/
theorem SameNumber.mul (hx : SameNumber x x') (hy : SameNumber y y') :
    SameNumber (x * y) (x' * y') :=
  sameNumber_ofUnpacked (near_mul hx hy)

/-- A quotient does not depend on the sign of a zero that is divided. -/
theorem SameNumber.div_right (hx : SameNumber x x') (y : Float32) : SameNumber (x / y) (x' / y) :=
  sameNumber_ofUnpacked (near_div_right hx y.toModel.unpack)

/-! ### Negation -/

/-- What has its sign bit turned is unpacked to the negation. -/
theorem unpack_neg_components (format : Format) (bits : BitVec format.numBits) :
    UnpackedFloat.unpack format (packComponents format (-Sign.ofBitVec (unpackSign bits))
      (unpackExponent bits) (unpackMantissa bits)) = (UnpackedFloat.unpack format bits).neg := by
  unfold UnpackedFloat.unpack
  simp only [unpackExponent_packComponents, unpackMantissa_packComponents,
    unpackSign_packComponents, Sign.ofBitVec_toBitVec]
  split
  · split <;> rfl
  · split
    · split <;> rfl
    · rfl

/-- Negation is exact: it only changes the sign. -/
theorem unpack_neg (x : Float32) : (-x).toModel.unpack = x.toModel.unpack.neg := by
  -- It is enough that the negated number is one that some number is unpacked to.
  suffices hnumber : ∃ y : Float32, y.toModel.unpack = x.toModel.unpack.neg by
    obtain ⟨y, hy⟩ := hnumber
    have hneg : -x = y := by
      show ofUnpacked x.toModel.unpack.neg = y
      rw [← hy, ofUnpacked_unpack]
    rw [hneg, hy]
  set bits : BitVec Format.binary32.numBits := x.toModel.toBits.toBitVec
  by_cases hnan : unpackExponent bits = -1#_ ∧ unpackMantissa bits ≠ 0#_
  · have hunpack : x.toModel.unpack = .notANumber := by
      show UnpackedFloat.unpack Format.binary32 bits = .notANumber
      simp [UnpackedFloat.unpack, hnan.1, hnan.2]
    exact ⟨x, by rw [hunpack]; rfl⟩
  · refine ⟨⟨⟨.ofBitVec (packComponents Format.binary32 (-Sign.ofBitVec (unpackSign bits))
      (unpackExponent bits) (unpackMantissa bits)), ⟨fun hexponent hmantissa ↦ ?_⟩⟩⟩, ?_⟩
    · rw [unpackExponent_packComponents] at hexponent
      rw [unpackMantissa_packComponents] at hmantissa
      exact absurd ⟨hexponent, hmantissa⟩ hnan
    · exact unpack_neg_components Format.binary32 bits

/-- A double negation has no effect, on not-a-number either. -/
protected theorem neg_neg (x : Float32) : -(-x) = x := by
  refine unpack_inj ?_
  rw [unpack_neg, unpack_neg]
  generalize x.toModel.unpack = u
  cases u with
  | notANumber => rfl
  | infinity sign | zero sign | finite sign => cases sign <;> rfl

/-- A negated number is finite if the number is. -/
theorem isFinite_neg (x : Float32) : (-x).isFinite = x.isFinite := by
  show UnpackedFloat.isFinite (-x).toModel.unpack = UnpackedFloat.isFinite x.toModel.unpack
  rw [unpack_neg]
  cases x.toModel.unpack <;> rfl

/-- A negated number is not-a-number if the number is. -/
theorem isNaN_neg (x : Float32) : (-x).isNaN = x.isNaN := by
  show UnpackedFloat.isNaN (-x).toModel.unpack = UnpackedFloat.isNaN x.toModel.unpack
  rw [unpack_neg]
  cases x.toModel.unpack <;> rfl

/-- To subtract a negated number is to add it, before packing. -/
theorem unpacked_sub_neg (u v : UnpackedFloat) :
    UnpackedFloat.sub Format.binary32 u v.neg = UnpackedFloat.add Format.binary32 u v := by
  cases u with
  | notANumber => rfl
  | infinity sign =>
    cases v with
    | notANumber | zero | finite => rfl
    | infinity other => cases sign <;> cases other <;> rfl
  | zero sign =>
    cases v with
    | notANumber => rfl
    | zero other | infinity other | finite other => cases sign <;> cases other <;> rfl
  | finite sign mantissa exponent hpos =>
    cases v with
    | notANumber | zero => rfl
    | infinity other => cases other <;> rfl
    | finite other =>
      have happly (n : Int) : (-other).apply n = -other.apply n := by
        cases other with
        | negative => exact (Int.neg_neg n).symm
        | positive => rfl
      simp [UnpackedFloat.sub, UnpackedFloat.add, UnpackedFloat.neg, happly]

/-- To subtract a negated number is to add it. -/
protected theorem sub_neg (x y : Float32) : x - -y = x + y := by
  show ofUnpacked (UnpackedFloat.sub Format.binary32 x.toModel.unpack (-y).toModel.unpack) =
    ofUnpacked (UnpackedFloat.add Format.binary32 x.toModel.unpack y.toModel.unpack)
  rw [unpack_neg, unpacked_sub_neg]

/-! ### Zero -/

variable {z : Float32}

/-- What is near to an unpacked number is packed to the same number. -/
theorem sameNumber_of_near {u : UnpackedFloat} (h : Near u x.toModel.unpack) :
    SameNumber (ofUnpacked u) x := by
  have hsame := sameNumber_ofUnpacked h
  rwa [ofUnpacked_unpack] at hsame

/-- A zero added from the left has no effect. -/
protected theorem zero_add (h : IsZero z) (x : Float32) : SameNumber (z + x) x := by
  obtain ⟨sign, hz⟩ := h
  refine @sameNumber_of_near x (UnpackedFloat.add Format.binary32 z.toModel.unpack _) ?_
  rw [hz]
  exact near_zero_add sign _

/-- A zero added from the right has no effect. -/
protected theorem add_zero (h : IsZero z) (x : Float32) : SameNumber (x + z) x := by
  obtain ⟨sign, hz⟩ := h
  refine @sameNumber_of_near x (UnpackedFloat.add Format.binary32 _ z.toModel.unpack) ?_
  rw [hz]
  exact near_add_zero sign _

/-- To subtract from a zero is to negate. -/
protected theorem zero_sub (h : IsZero z) (x : Float32) : SameNumber (z - x) (-x) := by
  obtain ⟨sign, hz⟩ := h
  refine @sameNumber_of_near (-x) (UnpackedFloat.sub Format.binary32 z.toModel.unpack _) ?_
  rw [hz, unpack_neg]
  exact near_zero_sub sign _

/-- To subtract a zero has no effect. -/
protected theorem sub_zero (h : IsZero z) (x : Float32) : SameNumber (x - z) x := by
  obtain ⟨sign, hz⟩ := h
  refine @sameNumber_of_near x (UnpackedFloat.sub Format.binary32 _ z.toModel.unpack) ?_
  rw [hz]
  exact near_sub_zero sign _

/-- A zero times a finite number is a zero. -/
theorem isZero_zero_mul (h : IsZero z) (hx : x.isFinite = true) : IsZero (z * x) := by
  obtain ⟨sign, hz⟩ := h
  show IsZero (ofUnpacked (UnpackedFloat.mul Format.binary32 z.toModel.unpack x.toModel.unpack))
  rcases isZero_or_exists_finite hx with ⟨other, hunpack⟩ | ⟨_, _, _, _, hunpack⟩ <;>
    rw [hz, hunpack] <;> exact ⟨_, unpack_ofUnpacked_zero _⟩

/-- A finite number times a zero is a zero. -/
theorem isZero_mul_zero (h : IsZero z) (hx : x.isFinite = true) : IsZero (x * z) := by
  obtain ⟨sign, hz⟩ := h
  show IsZero (ofUnpacked (UnpackedFloat.mul Format.binary32 x.toModel.unpack z.toModel.unpack))
  rcases isZero_or_exists_finite hx with ⟨other, hunpack⟩ | ⟨_, _, _, _, hunpack⟩ <;>
    rw [hz, hunpack] <;> exact ⟨_, unpack_ofUnpacked_zero _⟩

/-- A zero divided by anything but a zero or not-a-number is a zero. -/
theorem IsZero.div (h : IsZero z) (hnan : x.isNaN = false) (hne : ¬ IsZero x) : IsZero (z / x) := by
  obtain ⟨sign, hz⟩ := h
  have hnumber : UnpackedFloat.isNaN x.toModel.unpack = false := hnan
  show IsZero (ofUnpacked (UnpackedFloat.div Format.binary32 z.toModel.unpack x.toModel.unpack))
  rw [hz]
  cases hx : x.toModel.unpack with
  | notANumber =>
    rw [hx] at hnumber
    cases hnumber
  | zero other => exact absurd ⟨other, hx⟩ hne
  | infinity | finite => exact ⟨_, unpack_ofUnpacked_zero _⟩

/-- A zero divided by a finite number that is no zero is a zero. -/
theorem isZero_zero_div (h : IsZero z) (hx : x.isFinite = true) (hne : ¬ IsZero x) :
    IsZero (z / x) :=
  h.div (isNaN_eq_false hx) hne

/-- The literal zero is a zero. -/
theorem isZero_zero : IsZero 0 := ⟨.positive, rfl⟩

/-- What is the same number as a zero is a zero. -/
theorem SameNumber.isZero (h : SameNumber x y) (hy : IsZero y) : IsZero x := by
  rcases h.eq_or_isZero with rfl | ⟨hx, -⟩
  · exact hy
  · exact hx

/-- The negation of a zero is a zero. -/
theorem IsZero.neg (h : IsZero z) : IsZero (-z) := by
  obtain ⟨sign, hz⟩ := h
  exact ⟨-sign, by rw [unpack_neg, hz]; rfl⟩

/-- A negated number is a zero exactly if the number is. -/
theorem isZero_neg_iff : IsZero (-z) ↔ IsZero z := by
  refine ⟨fun h ↦ ?_, IsZero.neg⟩
  rw [← Binary32.neg_neg z]
  exact h.neg

/-- The sum of two zeros is a zero. -/
theorem IsZero.add (hx : IsZero x) (hy : IsZero y) : IsZero (x + y) :=
  (Binary32.zero_add hx y).isZero hy

/-- The difference of two zeros is a zero. -/
theorem IsZero.sub (hx : IsZero x) (hy : IsZero y) : IsZero (x - y) :=
  (Binary32.sub_zero hy x).isZero hx

/-- A zero is not not-a-number. -/
theorem IsZero.isNaN_eq_false (h : IsZero z) : z.isNaN = false := by
  obtain ⟨sign, hz⟩ := h
  show UnpackedFloat.isNaN z.toModel.unpack = false
  rw [hz]
  rfl

/-- The numbers that equal zero are the zeros. -/
theorem beq_zero_iff : (x == 0) = true ↔ IsZero x := by
  rw [beq_iff_sameNumber]
  constructor
  · rintro ⟨hsame, -⟩
    exact hsame.isZero isZero_zero
  · intro hzero
    exact ⟨hzero.sameNumber isZero_zero, hzero.isNaN_eq_false⟩

/-! ### Order -/

/-- A zero is at most any positive number. -/
theorem IsZero.le {mantissa : Nat} {exponent : Int} {hpos : 0 < mantissa} (h : IsZero z)
    (hx : x.toModel.unpack = .finite .positive mantissa exponent hpos) : z ≤ x := by
  obtain ⟨sign, hz⟩ := h
  have hle : UnpackedFloat.le z.toModel.unpack x.toModel.unpack = true := by
    rw [hz, hx]
    rfl
  exact decide_eq_true hle

/-- The comparison of two numbers in the other order has the other result. -/
theorem compare_swap (u v : UnpackedFloat) : v.compare u = (u.compare v).map Ordering.swap := by
  have hthen (e e' : Int) (m m' : Nat) : (compare e' e).then (compare m' m) =
      ((compare e e').then (compare m m')).swap := by
    rw [Ordering.swap_then, Int.compare_swap, Nat.compare_swap]
  cases u with
  | notANumber => cases v <;> rfl
  | infinity sign =>
    cases v with
    | notANumber => cases sign <;> rfl
    | infinity other => cases sign <;> cases other <;> rfl
    | zero | finite => cases sign <;> rfl
  | zero sign =>
    cases v with
    | notANumber | zero => rfl
    | infinity other | finite other => cases other <;> rfl
  | finite sign mantissa exponent =>
    cases v with
    | notANumber => cases sign <;> rfl
    | infinity other => cases sign <;> cases other <;> rfl
    | zero => cases sign <;> rfl
    | finite other mantissa' exponent' =>
      cases sign <;> cases other
      · simp [UnpackedFloat.compare, hthen exponent exponent']
      · rfl
      · rfl
      · simp [UnpackedFloat.compare, hthen exponent exponent']

/-- What is below a number is not at or above it. -/
theorem not_le_of_lt (h : x < y) : ¬ y ≤ x := by
  have hlt : UnpackedFloat.compare x.toModel.unpack y.toModel.unpack = some .lt :=
    beq_iff_eq.1 (of_decide_eq_true h)
  intro hle
  have hisLE : (UnpackedFloat.compare y.toModel.unpack x.toModel.unpack).any (·.isLE) = true :=
    of_decide_eq_true hle
  rw [compare_swap, hlt] at hisLE
  cases hisLE

end Nabla.Binary32
