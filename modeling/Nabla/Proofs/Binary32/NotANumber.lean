import Nabla.Proofs.Binary32.SameNumber

/-!
# Not-a-number

An operation on not-a-number is not a number, and neither is a zero times an infinity. Everything
else can be compared.
-/

namespace Nabla.Binary32

open Float.Model Float.Model.UnpackedFloat

variable {x y z : Float32}

/-! ### Operations -/

/-- Not-a-number stays that when it is packed. -/
theorem isNaN_ofUnpacked : (ofUnpacked .notANumber).isNaN = true :=
  isNaN_iff.2 (@unpack_packedNaN Format.binary32)

/-- A sum with not-a-number is not-a-number. -/
theorem isNaN_add (h : x.isNaN = true) (y : Float32) : (x + y).isNaN = true := by
  show (ofUnpacked (UnpackedFloat.add Format.binary32 x.toModel.unpack y.toModel.unpack)).isNaN =
    true
  rw [isNaN_iff.1 h]
  exact isNaN_ofUnpacked

/-- A product with not-a-number is not-a-number. -/
theorem isNaN_mul (x : Float32) (h : y.isNaN = true) : (x * y).isNaN = true := by
  show (ofUnpacked (UnpackedFloat.mul Format.binary32 x.toModel.unpack y.toModel.unpack)).isNaN =
    true
  rw [isNaN_iff.1 h]
  cases x.toModel.unpack <;> exact isNaN_ofUnpacked

/-- A quotient by not-a-number is not-a-number. -/
theorem isNaN_div (x : Float32) (h : y.isNaN = true) : (x / y).isNaN = true := by
  show (ofUnpacked (UnpackedFloat.div Format.binary32 x.toModel.unpack y.toModel.unpack)).isNaN =
    true
  rw [isNaN_iff.1 h]
  cases x.toModel.unpack <;> exact isNaN_ofUnpacked

/-- A zero times an infinity is not a number. -/
theorem isNaN_zero_mul {sign : Sign} (h : IsZero z) (hx : x.toModel.unpack = .infinity sign) :
    (z * x).isNaN = true := by
  obtain ⟨other, hz⟩ := h
  show (ofUnpacked (UnpackedFloat.mul Format.binary32 z.toModel.unpack x.toModel.unpack)).isNaN =
    true
  rw [hz, hx]
  exact isNaN_ofUnpacked

/-- Not-a-number is no zero. -/
theorem not_isZero_of_isNaN (h : x.isNaN = true) : ¬ IsZero x := by
  intro hzero
  rw [hzero.isNaN_eq_false] at h
  cases h

/-! ### Order -/

/-- Numbers can be compared unless one is not-a-number. -/
theorem exists_compare {u v : UnpackedFloat} (hu : u.isNaN = false) (hv : v.isNaN = false) :
    ∃ order, u.compare v = some order := by
  cases u with
  | notANumber => cases hu
  | infinity sign =>
    cases v with
    | notANumber => cases hv
    | infinity | zero | finite => cases sign <;> exact ⟨_, rfl⟩
  | zero sign =>
    cases v with
    | notANumber => cases hv
    | zero => exact ⟨_, rfl⟩
    | infinity other | finite other => cases other <;> exact ⟨_, rfl⟩
  | finite sign =>
    cases v with
    | notANumber => cases hv
    | zero => cases sign <;> exact ⟨_, rfl⟩
    | infinity other | finite other => cases sign <;> cases other <;> exact ⟨_, rfl⟩

/-- Of two numbers, one is at most the other. -/
theorem le_or_lt (hx : x.isNaN = false) (hy : y.isNaN = false) : x ≤ y ∨ y < x := by
  obtain ⟨order, horder⟩ := exists_compare (show x.toModel.unpack.isNaN = false from hx)
    (show y.toModel.unpack.isNaN = false from hy)
  cases hle : order.isLE with
  | true =>
    refine .inl (decide_eq_true ?_)
    show (UnpackedFloat.compare x.toModel.unpack y.toModel.unpack).any (·.isLE) = true
    rw [horder]
    exact hle
  | false =>
    obtain rfl : order = .gt := Ordering.isLE_eq_false.1 hle
    refine .inr (decide_eq_true ?_)
    show (UnpackedFloat.compare y.toModel.unpack x.toModel.unpack == some .lt) = true
    rw [compare_swap, horder]
    rfl

/-- Nothing is less than not-a-number. -/
theorem isNaN_eq_false_of_lt (h : x < y) : y.isNaN = false := by
  cases hnan : y.isNaN with
  | false => rfl
  | true =>
    have hlt : UnpackedFloat.compare x.toModel.unpack y.toModel.unpack = some .lt :=
      beq_iff_eq.1 (of_decide_eq_true h)
    rw [isNaN_iff.1 hnan] at hlt
    cases hx : x.toModel.unpack <;> rw [hx] at hlt <;> cases hlt

end Nabla.Binary32
