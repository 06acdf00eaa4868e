import Nabla.Expr.Evaluation
import Nabla.Expr.Markup
import Nabla.Vector.Grid
import Nabla.Vector.Vec3

/-!
# Curves

A curve has three component expressions of one parameter. Sampling a curve takes two points for
every arrow that is to be drawn along it.
-/

namespace Nabla

/-- A curve, by its component expressions. -/
structure Curve where
  x : Expr
  y : Expr
  z : Expr
deriving DecidableEq

/-- The sampled points of a curve, in the order of the parameter, and the parameter step between
them. -/
structure CurveSamples where
  step : Float32
  points : List Vec3
deriving DecidableEq

/-- Every other member of a list, from the first on. -/
def everyOther {α : Type} : List α → List α
  | [] => []
  | [last] => [last]
  | first :: _ :: rest => first :: everyOther rest

namespace CurveSamples

/-- The points at which an arrow is drawn. -/
def arrows (samples : CurveSamples) : List Vec3 := everyOther samples.points

/-- The smallest and the largest length of the arrows. -/
def lengthRange? (samples : CurveSamples) : Option (Float32 × Float32) :=
  Grid.extremes (samples.arrows.map Vec3.length)

end CurveSamples

namespace Curve

/-- The shortest parameter range that is sampled, and the tolerance at its end. -/
def minRange : Float32 := 0.005

/-- The point of a curve at a parameter value. -/
def eval (curve : Curve) (t : Float32) : Vec3 :=
  ⟨curve.x.evalAt t, curve.y.evalAt t, curve.z.evalAt t⟩

/-- The points of a curve between two parameter values, for the given number of arrows. There are
none if no arrow is wanted or the range is too short, not finite or too long for its step. -/
def sample? (curve : Curve) (start stop : Float32) (arrows : Nat) : Option CurveSamples :=
  if arrows = 0 ∨ ¬ minRange ≤ stop - start then none
  else
    let step := (stop - start).abs / (2 * arrows.toFloat32)
    (Grid.lastIndex? start (stop + minRange) step).map fun last ↦
      ⟨step, (Grid.samples start step last).map curve.eval⟩

/-- A curve as text. -/
def text (curve : Curve) : String :=
  "\x7b x = " ++ curve.x.text .html ++ ", y = " ++ curve.y.text .html ++ ", z = " ++
    curve.z.text .html ++ " \x7d"

end Curve

end Nabla
