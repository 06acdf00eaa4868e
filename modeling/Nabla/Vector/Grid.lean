import Nabla.Binary32.Parts

/-!
# Evenly spaced samples

`lastIndex?` counts the steps that fit in an interval, and `samples` lists the numbers they lead
to. `extremes` is the smallest and the largest of a list of lengths. A grid never has more than
`maxSamples` points.
-/

namespace Nabla.Grid

/-- The greatest number of points that are evaluated. -/
def maxSamples : Nat := Nat.pow 2 20

/-- The greatest `n` for which `n` steps from `start` stay at or below `stop`, up to rounding.
There is none if a number is not finite, the step is not positive, the interval is empty, or the
samples would be more than `maxSamples`. -/
def lastIndex? (start stop step : Float32) : Option Nat :=
  if start.isFinite && stop.isFinite && step.isFinite && 0 < step then
    match Binary32.floor? ((stop - start) / step) with
    | some last => if 0 ≤ last ∧ last < maxSamples then some last.toNat else none
    | none => none
  else none

/-- The numbers `start + n * step` for `n` from zero to `last`. -/
def samples (start step : Float32) (last : Nat) : List Float32 :=
  (List.range (last + 1)).map fun n ↦ start + n.toFloat32 * step

/-- The smallest and the largest of a list of numbers, if there are any. What is not a number
counts only if nothing else is there. -/
def extremes : List Float32 → Option (Float32 × Float32)
  | [] => none
  | first :: rest =>
      some (rest.foldl Binary32.minNumber first, rest.foldl Binary32.maxNumber first)

end Nabla.Grid
