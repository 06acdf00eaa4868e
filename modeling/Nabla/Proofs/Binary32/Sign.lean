import Mathlib
import Nabla.Decimal.Numeral

/-!
# Numbers without a sign

A numeral is read by products and quotients of numbers without a sign, and these have none either.
The sign is followed through the core model: it is a bit of its own, which packing keeps.
-/

namespace Nabla.Binary32

open Float.Model Float.Model.UnpackedFloat

/-! ### Unpacked numbers -/

/-- An unpacked number has a positive sign, or none because it is not a number. -/
def Unsigned : UnpackedFloat → Prop
  | .notANumber => True
  | .infinity sign => sign = .positive
  | .zero sign => sign = .positive
  | .finite sign _ _ _ => sign = .positive

/-- Packing a number without a sign leaves the sign bit clear. -/
theorem unpackSign_pack (format : Format) {number : UnpackedFloat} (h : Unsigned number) :
    unpackSign (UnpackedFloat.pack format number) = 0#1 := by
  cases number with
  | notANumber => exact unpackSign_packComponents _ _ _
  | infinity sign =>
    obtain rfl : sign = .positive := h
    exact unpackSign_packComponents _ _ _
  | zero sign =>
    obtain rfl : sign = .positive := h
    exact unpackSign_packComponents _ _ _
  | finite sign mantissa exponent hpos =>
    obtain rfl : sign = .positive := h
    unfold UnpackedFloat.pack
    simp only
    split
    · exact unpackSign_packComponents _ _ _
    · split <;> exact unpackSign_packComponents _ _ _

/-- A number with a clear sign bit is unpacked without a sign. -/
theorem unsigned_unpack (format : Format) {bits : BitVec format.numBits}
    (h : unpackSign bits = 0#1) : Unsigned (UnpackedFloat.unpack format bits) := by
  have hsign : Sign.ofBitVec (unpackSign bits) = .positive := by
    rw [h]
    rfl
  unfold UnpackedFloat.unpack
  simp only [hsign]
  split
  · split <;> simp [Unsigned]
  · split
    · split <;> simp [Unsigned]
    · simp [Unsigned]

/-- What is rounded keeps its positive sign. -/
theorem unsigned_roundWithAccuracy (format : Format) (mantissa : Nat) (exponent : Int)
    (accuracy : Accuracy) :
    Unsigned (roundWithAccuracy format .positive mantissa exponent accuracy) := by
  unfold roundWithAccuracy
  simp only
  split <;> rfl

/-- A product of numbers without a sign has none. -/
theorem unsigned_mul (format : Format) {left right : UnpackedFloat} (hleft : Unsigned left)
    (hright : Unsigned right) : Unsigned (UnpackedFloat.mul format left right) := by
  unfold UnpackedFloat.mul
  split <;> simp only [Unsigned] at hleft hright ⊢ <;> subst_vars
  all_goals first
    | rfl
    | exact unsigned_roundWithAccuracy format _ _ _

/-- A quotient of numbers without a sign has none. -/
theorem unsigned_div (format : Format) {left right : UnpackedFloat} (hleft : Unsigned left)
    (hright : Unsigned right) : Unsigned (UnpackedFloat.div format left right) := by
  unfold UnpackedFloat.div
  split <;> simp only [Unsigned] at hleft hright ⊢ <;> subst_vars
  all_goals first
    | rfl
    | exact unsigned_roundWithAccuracy format _ _ _

/-- A decimal number has no sign. -/
theorem unsigned_ofScientific (format : Format) (mantissa : Nat) (exponent : Int) :
    Unsigned (UnpackedFloat.ofScientific format mantissa exponent) := by
  unfold UnpackedFloat.ofScientific
  split
  · rfl
  · split
    · rfl
    · split
      · rfl
      · split
        · exact unsigned_mul format rfl rfl
        · exact unsigned_div format rfl rfl

/-- A natural number has no sign. -/
theorem unsigned_ofNat (format : Format) (n : Nat) : Unsigned (UnpackedFloat.ofNat format n) := by
  unfold UnpackedFloat.ofNat UnpackedFloat.ofInt UnpackedFloat.normalize
  split
  · rename_i hlt
    have : (n : Int) < 0 := Int.compare_eq_lt.1 hlt
    omega
  · rfl
  · exact unsigned_roundWithAccuracy format _ _ _

/-! ### Numbers -/

/-- A number has a clear sign bit. -/
def ClearSign (x : Float32) : Prop := Unsigned x.toModel.unpack

/-- Packing sets no sign bit that is not there. -/
theorem clearSign_ofModel_pack {number : UnpackedFloat} (h : Unsigned number) :
    ClearSign (.ofModel (.pack number)) :=
  unsigned_unpack Format.binary32 (unpackSign_pack Format.binary32 h)

/-- A product of numbers with clear sign bits has a clear one. -/
theorem clearSign_mul {x y : Float32} (hx : ClearSign x) (hy : ClearSign y) : ClearSign (x * y) :=
  clearSign_ofModel_pack (unsigned_mul Format.binary32 hx hy)

/-- A quotient of numbers with clear sign bits has a clear one. -/
theorem clearSign_div {x y : Float32} (hx : ClearSign x) (hy : ClearSign y) : ClearSign (x / y) :=
  clearSign_ofModel_pack (unsigned_div Format.binary32 hx hy)

/-- The powers of ten in the table have clear sign bits. -/
theorem clearSign_powerOfTen {power : Float32}
    (h : power ∈ Float32.exactlyRepresentablePowersOfTen) : ClearSign power := by
  have hclear : ∀ power ∈ Float32.exactlyRepresentablePowersOfTen,
      @unpackSign Format.binary32 power.toModel.toBits.toBitVec = 0#1 := by
    decide
  exact unsigned_unpack Format.binary32 (hclear power h)

/-- A number read from decimal digits has a clear sign bit. -/
theorem clearSign_ofScientific (mantissa : Nat) (negative : Bool) (exponent : Nat) :
    ClearSign (Float32.ofScientific mantissa negative exponent) := by
  unfold Float32.ofScientific
  split
  · have hmantissa : ClearSign mantissa.toUInt64.toFloat32 :=
      clearSign_ofModel_pack (unsigned_ofNat Format.binary32 _)
    simp only
    split
    · exact clearSign_div hmantissa (clearSign_powerOfTen (Array.getElem_mem _))
    · exact clearSign_mul hmantissa (clearSign_powerOfTen (Array.getElem_mem _))
  · exact clearSign_ofModel_pack (unsigned_ofScientific Format.binary32 _ _)

/-- A finite number with a clear sign bit is not negative. -/
theorem negative_eq_false {x : Float32} (h : ClearSign x) {negative : Bool} {significand : Nat}
    {exponent : Int} (hparts : parts x = .finite negative significand exponent) :
    negative = false := by
  unfold ClearSign at h
  unfold parts at hparts
  split at hparts <;> cases hparts
  all_goals
    rename_i hunpack
    rw [hunpack] at h
    obtain rfl : _ = Sign.positive := h
    rfl

end Nabla.Binary32
