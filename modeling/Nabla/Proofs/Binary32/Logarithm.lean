import Nabla.Proofs.Binary32.Elementary
import Nabla.Proofs.Binary32.Rounding

/-!
# Finite logarithms

The logarithm of a positive finite number is finite. The series it is computed by are bounded term
by term, far below the largest number that is not rounded to an infinity.
-/

namespace Nabla.Binary32

open Float.Model Float.Model.UnpackedFloat

/-- The binary logarithm of a number that is at most a power of two. -/
theorem log2_le_of_le_two_pow {n k : Nat} (h : n ≤ 2 ^ k) : n.log2 ≤ k := by
  rcases Nat.eq_zero_or_pos n with rfl | hpos
  · exact Nat.zero_le k
  · exact (Nat.pow_le_pow_iff_right (by decide)).1 ((Nat.log2_self_le hpos.ne').trans h)

namespace FixedPoint

/-! ### Bounds of the series -/

/-- One is positive in fixed point. -/
theorem one_pos : 0 < one := by decide

/-- A bound of a product is a bound of the quotient. -/
theorem abs_div_le {a b bound : Int} (hb : 0 < b) (h : |a| ≤ bound * b) : |a / b| ≤ bound := by
  obtain ⟨hlower, hupper⟩ := abs_le.1 h
  refine abs_le.2 ⟨?_, ?_⟩
  · rw [Int.le_ediv_iff_mul_le hb, neg_mul]
    exact hlower
  · exact Int.ediv_le_of_le_mul hb hupper

/-- A product is at most as large as its second factor if the first one is at most one. -/
theorem abs_mul_le {a b bound : Int} (ha : |a| ≤ one) (hb : |b| ≤ bound) : |mul a b| ≤ bound := by
  have hmul : mul a b = a * b / one := Int.shiftRight_eq_div_pow _ _
  rw [hmul]
  refine abs_div_le one_pos ?_
  rw [abs_mul, mul_comm bound]
  exact mul_le_mul ha hb (abs_nonneg b) one_pos.le

/-- A ratio of a number to a greater one is at most one. -/
theorem abs_ratio_le {numerator denominator : Int} (hpos : 0 < denominator)
    (h : |numerator| ≤ denominator) : |ratio numerator denominator| ≤ one := by
  refine abs_div_le hpos ?_
  rw [abs_mul, abs_of_pos one_pos, mul_comm]
  exact mul_le_mul_of_nonneg_left h one_pos.le

/-- No term of the series is larger than one. -/
theorem abs_oddSeries_le {square : Int} (h : |square| ≤ one) (terms index : Nat) :
    |oddSeries square terms index| ≤ terms * one := by
  induction terms generalizing index with
  | zero => simp [oddSeries]
  | succ terms ih =>
    have hrest := abs_mul_le h (ih (index + 1))
    have hterm : |one / (2 * index + 1)| ≤ one := by
      refine abs_div_le (by omega) ?_
      rw [abs_of_pos one_pos]
      exact le_mul_of_one_le_right one_pos.le (by omega)
    calc |oddSeries square (terms + 1) index|
        ≤ |one / (2 * index + 1)| + |mul square (oddSeries square terms (index + 1))| :=
          abs_add_le _ _
      _ ≤ one + terms * one := add_le_add hterm hrest
      _ = (terms + 1 : Nat) * one := by push_cast; ring

/-- The series of the inverse hyperbolic tangent stays bounded. -/
theorem abs_artanh_le {z : Int} (h : |z| ≤ one) : |artanh z| ≤ 58 * one :=
  abs_mul_le h (abs_oddSeries_le (abs_mul_le h h) 58 0)

/-- The logarithm of two is bounded. -/
theorem abs_lnTwo_le : |lnTwo| ≤ 232 * one := by
  have hfifth := abs_le.1 (abs_artanh_le (@abs_ratio_le 1 5 (by decide) (by decide)))
  have hseventh := abs_le.1 (abs_artanh_le (@abs_ratio_le 1 7 (by decide) (by decide)))
  unfold lnTwo
  exact abs_le.2 ⟨by omega, by omega⟩

/-- The logarithm of a number in the range of binary32. -/
theorem abs_ln_le {significand : Nat} {exponent : Int} (hlog : significand.log2 ≤ 23)
    (hlower : -149 ≤ exponent) (hupper : exponent ≤ 104) :
    |ln significand exponent| ≤ 2 ^ 16 * one := by
  obtain ⟨shift, hle, hln⟩ : ∃ shift : Nat, shift ≤ 24 ∧ ln significand exponent =
      (exponent + shift) * lnTwo +
        2 * artanh (ratio (significand - Int.pow 2 shift) (significand + Int.pow 2 shift)) := by
    refine ⟨_, ?_, rfl⟩
    split <;> omega
  have hpower : 0 < Int.pow 2 shift := Int.pow_pos (by decide)
  have hratio := abs_le.1 (abs_artanh_le (@abs_ratio_le (significand - Int.pow 2 shift)
    (significand + Int.pow 2 shift) (by omega) (abs_le.2 ⟨by omega, by omega⟩)))
  have hscale : |exponent + shift| ≤ 200 := abs_le.2 ⟨by omega, by omega⟩
  have hproduct : |(exponent + shift) * lnTwo| ≤ 200 * (232 * one) := by
    rw [abs_mul]
    exact mul_le_mul hscale abs_lnTwo_le (abs_nonneg _) (by decide)
  have hsum := abs_le.1 hproduct
  have hone := one_pos
  rw [hln]
  exact abs_le.2 ⟨by omega, by omega⟩

/-- A fixed-point value that is not too large is nearest to a finite number. -/
theorem isFinite_toFloat32 {a exponent : Int} (h : a.natAbs.log2 + exponent ≤ 381) :
    (toFloat32 a exponent).isFinite = true := by
  unfold toFloat32
  set extra := a.natAbs.log2 - reliableBits
  have hextra : extra ≤ a.natAbs.log2 := Nat.sub_le _ _
  have hreliable : (a.natAbs + Nat.pow 2 extra / 2) / Nat.pow 2 extra ≤
      2 ^ (a.natAbs.log2 + 1 - extra) := by
    rw [Nat.pow_eq]
    refine Nat.le_of_lt_succ ((Nat.div_lt_iff_lt_mul (Nat.two_pow_pos extra)).2 ?_)
    have hlt : a.natAbs < 2 ^ (a.natAbs.log2 + 1 - extra) * 2 ^ extra := by
      rw [← Nat.pow_add, Nat.sub_add_cancel (by omega)]
      exact Nat.lt_log2_self
    have hpower := Nat.two_pow_pos extra
    rw [Nat.succ_mul]
    omega
  refine isFinite_nearest _ ?_
  have hlog := log2_le_of_le_two_pow hreliable
  have hprecision : (precision : Int) = 256 := rfl
  omega

end FixedPoint

/-! ### Logarithms -/

/-- A finite number is not larger than the largest one. -/
theorem exponent_le_of_unpack {x : Float32} {sign : Sign} {mantissa : Nat} {exponent : Int}
    {hpos : 0 < mantissa} (h : x.toModel.unpack = .finite sign mantissa exponent hpos) :
    exponent ≤ 104 := by
  by_contra hlt
  have hlarge := @unpack_ofUnpacked_large sign mantissa exponent hpos (Int.not_le.1 hlt)
  rw [← h, ofUnpacked_unpack, h] at hlarge
  cases hlarge

/-- The logarithm of a positive finite number is finite. -/
theorem isFinite_ln {x : Float32} {mantissa : Nat} {exponent : Int} {hpos : 0 < mantissa}
    (h : x.toModel.unpack = .finite .positive mantissa exponent hpos) :
    (ln x).isFinite = true := by
  obtain ⟨hlog, hlower, -⟩ := canonical_iff.1 (canonical_unpack h)
  have hparts : parts x = .finite false mantissa exponent := by
    rw [parts, h]
    rfl
  have hvalue : ln x = FixedPoint.toFloat32 (FixedPoint.ln mantissa exponent) 0 := by
    obtain ⟨n, rfl⟩ := Nat.exists_eq_succ_of_ne_zero hpos.ne'
    simp only [ln, hparts]
  rw [hvalue]
  refine FixedPoint.isFinite_toFloat32 ?_
  have hbound := FixedPoint.abs_ln_le hlog hlower (exponent_le_of_unpack h)
  have hpower : (2 : Int) ^ 16 * FixedPoint.one = (2 ^ (16 + FixedPoint.precision) : Nat) := by
    rw [Nat.pow_add]
    rfl
  rw [hpower, Int.abs_eq_natAbs, Int.ofNat_le] at hbound
  have hsize := log2_le_of_le_two_pow hbound
  have hprecision : FixedPoint.precision = 256 := rfl
  omega

end Nabla.Binary32
