import Mathlib
import Nabla.Proofs.Binary32.Order
import Nabla.Vector.Curve
import Nabla.Vector.Field

/-!
# The range of the lengths on a grid

The smallest and the largest length of a field are taken over a grid of at most `maxSamples` points,
and they are exact: both are lengths on the grid, and every length there that is a number lies
between them (`lengthRange_spans`). A curve is sampled at no more points either.
-/

namespace Nabla

namespace Grid

/-- Two numbers are the smallest and the largest of a list: they are members of it, every number
there lies between them, and they are numbers themselves unless none is there. -/
structure Spans (lengths : List Float32) (low high : Float32) : Prop where
  low_mem : low ∈ lengths
  high_mem : high ∈ lengths
  between : ∀ length ∈ lengths, length.isNaN = false →
    low.isNaN = false ∧ high.isNaN = false ∧ low ≤ length ∧ length ≤ high
  isNaN : (∀ length ∈ lengths, length.isNaN = true) → low.isNaN = true ∧ high.isNaN = true

/-- The extremes span the lengths. -/
theorem spans_extremes {lengths : List Float32} {low high : Float32}
    (h : extremes lengths = some (low, high)) : Spans lengths low high := by
  cases lengths with
  | nil => cases h
  | cons start rest =>
    rw [extremes, Binary32.minNumber_eq_firstNumber, Binary32.maxNumber_eq_firstNumber] at h
    obtain ⟨rfl, rfl⟩ := Prod.mk.inj (Option.some.inj h)
    have hlow := Binary32.foldl_firstNumber_mem (· ≤ ·) start rest
    have hhigh := Binary32.foldl_firstNumber_mem (fun x y ↦ y ≤ x) start rest
    refine ⟨hlow, hhigh, fun length hmem hnumber ↦ ?_, fun hnan ↦ ⟨hnan _ hlow, hnan _ hhigh⟩⟩
    have hle := Binary32.ordersNumbers_le.first_foldl hmem hnumber
    have hge := Binary32.ordersNumbers_ge.first_foldl hmem hnumber
    exact ⟨(Binary32.le_iff.1 hle).1, (Binary32.le_iff.1 hge).2.1, hle, hge⟩

/-- The last index is below the number of samples that are allowed. -/
theorem lastIndex?_lt {start stop step : Float32} {last : Nat}
    (h : lastIndex? start stop step = some last) : last < maxSamples := by
  unfold lastIndex? at h
  split at h
  · split at h
    · split_ifs at h with hbounds
      obtain rfl := Option.some.inj h
      exact Int.toNat_lt hbounds.1 |>.2 hbounds.2
    · cases h
  · cases h

/-- There is one sample more than the last index. -/
theorem length_samples (start step : Float32) (last : Nat) :
    (samples start step last).length = last + 1 := by
  rw [samples, List.length_map, List.length_range]

/-- The points with the given coordinates. -/
def points (xs ys zs : List Float32) : List Expr.Point :=
  xs.flatMap fun x ↦ ys.flatMap fun y ↦ zs.map fun z ↦ ⟨x, y, z⟩

/-- There is one point for each choice of coordinates. -/
theorem length_points (xs ys zs : List Float32) :
    (points xs ys zs).length = xs.length * ys.length * zs.length := by
  simp [points, List.length_flatMap]
  ring

/-- The points of the grid that covers a box, if there is one. -/
def points? (range : Expr.Point) (step : Float32) : Option (List Expr.Point) := do
  let lastX ← lastIndex? (-range.x) range.x step
  let lastY ← lastIndex? (-range.y) range.y step
  let lastZ ← lastIndex? (-range.z) range.z step
  some (points (samples (-range.x) step lastX) (samples (-range.y) step lastY)
    (samples (-range.z) step lastZ))

/-- A grid has a point. -/
theorem length_pos_of_points?_eq_some {range : Expr.Point} {step : Float32}
    {grid : List Expr.Point} (h : points? range step = some grid) : 1 ≤ grid.length := by
  obtain ⟨lastX, -, h⟩ := Option.bind_eq_some_iff.1 h
  obtain ⟨lastY, -, h⟩ := Option.bind_eq_some_iff.1 h
  obtain ⟨lastZ, -, h⟩ := Option.bind_eq_some_iff.1 h
  obtain rfl := Option.some.inj h
  rw [length_points, length_samples, length_samples, length_samples]
  exact Nat.succ_le_of_lt (by positivity)

/-- A count of points along two or three axes fits in 64 bits. -/
theorem axisCounts_lt {range : Expr.Point} {step : Float32} {lastX lastY lastZ : Nat}
    (hx : lastIndex? (-range.x) range.x step = some lastX)
    (hy : lastIndex? (-range.y) range.y step = some lastY)
    (hz : lastIndex? (-range.z) range.z step = some lastZ) :
    (lastX + 1) * (lastY + 1) < 2 ^ 64 ∧ (lastX + 1) * (lastY + 1) * (lastZ + 1) < 2 ^ 64 := by
  have hmax : maxSamples = 2 ^ 20 := rfl
  have hxy : (lastX + 1) * (lastY + 1) ≤ 2 ^ 20 * 2 ^ 20 :=
    Nat.mul_le_mul (lastIndex?_lt hx) (lastIndex?_lt hy)
  have hxyz : (lastX + 1) * (lastY + 1) * (lastZ + 1) ≤ 2 ^ 20 * 2 ^ 20 * 2 ^ 20 :=
    Nat.mul_le_mul hxy (lastIndex?_lt hz)
  exact ⟨by omega, by omega⟩

end Grid

namespace VectorField

variable (field : VectorField)

/-- The length of a field at a point. -/
def lengthAt (point : Expr.Point) : Float32 := (field.eval point).length

/-- The lengths of a field are those at the points of the grid. -/
theorem lengths_eq_map (xs ys zs : List Float32) :
    field.lengths xs ys zs = (Grid.points xs ys zs).map field.lengthAt := by
  simp only [lengths, Grid.points, List.map_flatMap, List.map_map]
  rfl

/-- The range of the lengths is that over the points of the grid, where these are not too many. -/
theorem lengthRange?_eq (range : Expr.Point) (step : Float32) :
    field.lengthRange? range step = (Grid.points? range step).bind fun grid ↦
      if grid.length ≤ Grid.maxSamples then Grid.extremes (grid.map field.lengthAt) else none := by
  rw [lengthRange?, Grid.points?]
  cases Grid.lastIndex? (-range.x) range.x step with
  | none => rfl
  | some lastX =>
    cases Grid.lastIndex? (-range.y) range.y step with
    | none => rfl
    | some lastY =>
      cases Grid.lastIndex? (-range.z) range.z step with
      | none => rfl
      | some lastZ =>
        simp only [Option.bind_eq_bind, Option.bind_some, lengths_eq_map, Grid.length_points,
          Grid.length_samples]

end VectorField

/-- A curve has a sample, and no more than are allowed. -/
theorem Curve.length_points_of_sample?_eq_some {curve : Curve} {start stop : Float32} {arrows : Nat}
    {samples : CurveSamples} (h : curve.sample? start stop arrows = some samples) :
    1 ≤ samples.points.length ∧ samples.points.length ≤ Grid.maxSamples := by
  unfold Curve.sample? at h
  split_ifs at h
  obtain ⟨last, hlast, rfl⟩ := Option.map_eq_some_iff.1 h
  have hlt : last < Grid.maxSamples := Grid.lastIndex?_lt hlast
  simp only [List.length_map, Grid.length_samples]
  exact ⟨Nat.succ_pos last, hlt⟩

/-- The range of the lengths of a field is bounded and exact. No count of points along the axes
overflows; where there is a range, it comes from between one and `maxSamples` points, and it spans
the lengths there. A sampled curve has between one and `maxSamples` points as well. -/
theorem lengthRange_spans (field : VectorField) (range : Expr.Point) (step : Float32) :
    (∀ lastX lastY lastZ, Grid.lastIndex? (-range.x) range.x step = some lastX →
      Grid.lastIndex? (-range.y) range.y step = some lastY →
      Grid.lastIndex? (-range.z) range.z step = some lastZ →
      (lastX + 1) * (lastY + 1) < 2 ^ 64 ∧ (lastX + 1) * (lastY + 1) * (lastZ + 1) < 2 ^ 64) ∧
    (∀ low high, field.lengthRange? range step = some (low, high) →
      ∃ grid, Grid.points? range step = some grid ∧
        1 ≤ grid.length ∧ grid.length ≤ Grid.maxSamples ∧
        Grid.Spans (grid.map field.lengthAt) low high) ∧
    ∀ (curve : Curve) (start stop : Float32) (arrows : Nat) (samples : CurveSamples),
      curve.sample? start stop arrows = some samples →
        1 ≤ samples.points.length ∧ samples.points.length ≤ Grid.maxSamples := by
  refine ⟨fun _ _ _ ↦ Grid.axisCounts_lt, fun low high h ↦ ?_,
    fun _ _ _ _ _ ↦ Curve.length_points_of_sample?_eq_some⟩
  rw [field.lengthRange?_eq] at h
  obtain ⟨grid, hgrid, h⟩ := Option.bind_eq_some_iff.1 h
  split_ifs at h with hcount
  exact ⟨grid, hgrid, Grid.length_pos_of_points?_eq_some hgrid, hcount, Grid.spans_extremes h⟩

/-- The first three of five lengths are not numbers, as a logarithm is none or infinite there. -/
theorem lengthRange_spans_logarithm :
    let field : VectorField := ⟨.mul (.call .ln (.symbol .x)) .zero, .symbol .x, .zero⟩
    field.lengthRange? ⟨2, 0, 0⟩ 1 = some (1, 2) ∧
      ∃ grid, Grid.points? ⟨2, 0, 0⟩ 1 = some grid ∧
        1 ≤ grid.length ∧ grid.length ≤ Grid.maxSamples ∧
        Grid.Spans (grid.map field.lengthAt) 1 2 := by
  intro field
  have hrange : field.lengthRange? ⟨2, 0, 0⟩ 1 = some (1, 2) := by decide +kernel
  exact ⟨hrange, (lengthRange_spans field ⟨2, 0, 0⟩ 1).2.1 1 2 hrange⟩

end Nabla
