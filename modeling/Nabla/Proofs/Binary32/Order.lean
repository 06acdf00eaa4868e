import Mathlib
import Nabla.Proofs.Binary32.NotANumber

/-!
# The order of the numbers

Numbers are ordered by a key: first by class, from the negative infinity to the positive one, then
by exponent and significand (`le_iff`). So the order is total on the numbers and transitive, and
`minNumber` and `maxNumber`, which are one function for the two directions of the order, find the
extremes of a list: folded over it they give a member (`foldl_firstNumber_mem`) that no number there
is before (`OrdersNumbers.first_foldl`), wherever not-a-number stands between them.
-/

namespace Nabla.Binary32

open Float.Model Float.Model.UnpackedFloat

/-! ### The key -/

/-- The place of a number in the order. Not-a-number gets one as well, but is never compared. -/
def orderKey : UnpackedFloat → ℤ ×ₗ ℤ ×ₗ ℤ
  | .infinity .negative => toLex (-2, toLex (0, 0))
  | .finite .negative significand exponent _ => toLex (-1, toLex (-exponent, -significand))
  | .notANumber | .zero _ => toLex (0, toLex (0, 0))
  | .finite .positive significand exponent _ => toLex (1, toLex (exponent, significand))
  | .infinity .positive => toLex (2, toLex (0, 0))

/-- Natural numbers are compared as integers. -/
theorem compare_natCast (a b : ℕ) : compare (a : ℤ) (b : ℤ) = compare a b := by
  simp [compare, compareOfLessAndEq]

/-- Negations are compared the other way round. -/
theorem compare_neg (a b : ℤ) : compare (-a) (-b) = compare b a := by
  simp [compare, compareOfLessAndEq, eq_comm]

/-- Numbers are compared by their keys. -/
theorem compare_eq_orderKey {u v : UnpackedFloat} (hu : u.isNaN = false) (hv : v.isNaN = false) :
    u.compare v = some (compare (orderKey u) (orderKey v)) := by
  cases u with
  | notANumber => cases hu
  | infinity sign =>
    cases v with
    | notANumber => cases hv
    | zero => cases sign <;> rfl
    -- of two negative numbers the one with the greater magnitude is less, and so are the keys
    | infinity other | finite other => cases sign <;> cases other <;> rfl
  | zero sign =>
    cases v with
    | notANumber => cases hv
    | zero => rfl
    | infinity other | finite other => cases other <;> rfl
  | finite sign significand exponent hpos =>
    cases v with
    | notANumber => cases hv
    | zero => cases sign <;> rfl
    | infinity other => cases sign <;> cases other <;> rfl
    | finite other significand' exponent' hpos' =>
      cases sign <;> cases other
      · show some ((compare exponent exponent').then (compare significand significand')).swap =
          some ((compare (-exponent) (-exponent')).then
            (compare (-(significand : ℤ)) (-(significand' : ℤ))))
        rw [compare_neg, compare_neg, compare_natCast, Ordering.swap_then, Int.compare_swap,
          Nat.compare_swap]
      · rfl
      · rfl
      · show some ((compare exponent exponent').then (compare significand significand')) =
          some ((compare exponent exponent').then
            (compare (significand : ℤ) (significand' : ℤ)))
        rw [compare_natCast]

variable {x y z : Float32}

/-- Only numbers are ordered, and their keys decide. -/
theorem le_iff : x ≤ y ↔ x.isNaN = false ∧ y.isNaN = false ∧
    orderKey x.toModel.unpack ≤ orderKey y.toModel.unpack := by
  have hle : x ≤ y ↔
      (UnpackedFloat.compare x.toModel.unpack y.toModel.unpack).any (·.isLE) = true :=
    decide_eq_true_iff
  rw [hle]
  cases hx : x.isNaN with
  | true => simp [isNaN_iff.1 hx, UnpackedFloat.compare]
  | false =>
    cases hy : y.isNaN with
    | true =>
      rw [isNaN_iff.1 hy]
      cases x.toModel.unpack <;> simp [UnpackedFloat.compare]
    | false =>
      rw [compare_eq_orderKey hx hy, Option.any_some]
      simpa using Ordering.isLE_iff_ne_gt.trans compare_le_iff_le

/-- The order of numbers is transitive. -/
theorem le_trans (hxy : x ≤ y) (hyz : y ≤ z) : x ≤ z := by
  obtain ⟨hx, -, hxy⟩ := le_iff.1 hxy
  obtain ⟨-, hz, hyz⟩ := le_iff.1 hyz
  exact le_iff.2 ⟨hx, hz, hxy.trans hyz⟩

/-- Of two numbers that are not not-a-number one is at most the other. -/
theorem le_or_le (hx : x.isNaN = false) (hy : y.isNaN = false) : x ≤ y ∨ y ≤ x := by
  simp only [le_iff, hx, hy, true_and]
  exact le_total _ _

/-! ### Extremes -/

/-- A relation that orders the numbers, in one direction or the other. -/
structure OrdersNumbers (first : Float32 → Float32 → Prop) : Prop where
  total : ∀ {x y}, x.isNaN = false → y.isNaN = false → first x y ∨ first y x
  trans : ∀ {x y z}, first x y → first y z → first x z

/-- Numbers are ordered from below. -/
theorem ordersNumbers_le : OrdersNumbers (· ≤ ·) := ⟨le_or_le, le_trans⟩

/-- Numbers are ordered from above. -/
theorem ordersNumbers_ge : OrdersNumbers fun x y ↦ y ≤ x :=
  ⟨fun hx hy ↦ le_or_le hy hx, fun hxy hyz ↦ le_trans hyz hxy⟩

variable {first : Float32 → Float32 → Prop}

/-- A number stands in either order to itself. -/
theorem OrdersNumbers.self (h : OrdersNumbers first) (hx : x.isNaN = false) : first x x :=
  (h.total hx hx).elim id id

variable [DecidableRel first]

/-- The one of two numbers that is first in an order; the other one when one of them is not a
number. -/
def firstNumber (first : Float32 → Float32 → Prop) [DecidableRel first] (x y : Float32) : Float32 :=
  if x.isNaN then y else if y.isNaN then x else if first x y then x else y

/-- The least number is the first one from below. -/
theorem minNumber_eq_firstNumber : minNumber = firstNumber (· ≤ ·) := rfl

/-- The greatest number is the first one from above. -/
theorem maxNumber_eq_firstNumber : maxNumber = firstNumber fun x y ↦ y ≤ x := rfl

/-- The first of two numbers is one of them. -/
theorem firstNumber_eq_or_eq (first : Float32 → Float32 → Prop) [DecidableRel first]
    (x y : Float32) : firstNumber first x y = x ∨ firstNumber first x y = y := by
  unfold firstNumber
  split_ifs <;> simp

/-- The first of two numbers is not-a-number only if both are. -/
theorem isNaN_firstNumber (x y : Float32) :
    (firstNumber first x y).isNaN = (x.isNaN && y.isNaN) := by
  unfold firstNumber
  split_ifs with hx hy hfirst <;>
    simp_all only [Bool.not_eq_true, Bool.true_and, Bool.and_true, Bool.and_false]

/-- The first of two numbers comes before the left one. -/
theorem OrdersNumbers.firstNumber_left (h : OrdersNumbers first) (hx : x.isNaN = false)
    (y : Float32) : first (firstNumber first x y) x := by
  rw [firstNumber, hx, if_neg Bool.false_ne_true]
  split_ifs with hy hfirst
  · exact h.self hx
  · exact h.self hx
  · exact (h.total hx (Bool.eq_false_iff.2 hy)).resolve_left hfirst

/-- The first of two numbers comes before the right one. -/
theorem OrdersNumbers.firstNumber_right (h : OrdersNumbers first) (x : Float32)
    (hy : y.isNaN = false) : first (firstNumber first x y) y := by
  rw [firstNumber, hy, if_neg Bool.false_ne_true]
  split_ifs with hx hfirst
  · exact h.self hy
  · exact hfirst
  · exact h.self hy

/-- The first of several numbers is one of them. -/
theorem foldl_firstNumber_mem (first : Float32 → Float32 → Prop) [DecidableRel first]
    (start : Float32) (rest : List Float32) :
    rest.foldl (firstNumber first) start ∈ start :: rest := by
  induction rest generalizing start with
  | nil => exact List.mem_singleton_self _
  | cons next rest ih =>
    rw [List.foldl_cons]
    rcases List.mem_cons.1 (ih (firstNumber first start next)) with heq | hmem
    · rw [heq]
      rcases firstNumber_eq_or_eq first start next with h | h <;> simp [h]
    · exact List.mem_cons_of_mem _ (List.mem_cons_of_mem _ hmem)

/-- No number of a list is before the one that the fold finds. -/
theorem OrdersNumbers.first_foldl (h : OrdersNumbers first) {start : Float32} {rest : List Float32}
    (hmem : x ∈ start :: rest) (hx : x.isNaN = false) :
    first (rest.foldl (firstNumber first) start) x := by
  induction rest generalizing start x with
  | nil =>
    obtain rfl := List.mem_singleton.1 hmem
    exact h.self hx
  | cons next rest ih =>
    have hchosen (hnumber : (firstNumber first start next).isNaN = false) :
        first (rest.foldl (firstNumber first) (firstNumber first start next))
          (firstNumber first start next) :=
      ih List.mem_cons_self hnumber
    rw [List.foldl_cons]
    obtain rfl | rfl | hrest := List.mem_cons.1 hmem |>.imp_right List.mem_cons.1
    · exact h.trans (hchosen (by rw [isNaN_firstNumber, hx, Bool.false_and]))
        (h.firstNumber_left hx next)
    · exact h.trans (hchosen (by rw [isNaN_firstNumber, hx, Bool.and_false]))
        (h.firstNumber_right start hx)
    · exact ih (List.mem_cons_of_mem _ hrest) hx

end Nabla.Binary32
