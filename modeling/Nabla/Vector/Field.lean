import Nabla.Expr.Derivative
import Nabla.Expr.Evaluation
import Nabla.Expr.Markup
import Nabla.Expr.Simplification
import Nabla.Vector.Grid
import Nabla.Vector.Vec3

/-!
# Vector fields

A vector field has three component expressions. It can be evaluated, differentiated to its curl,
and sampled on a grid for the range of its lengths.
-/

namespace Nabla

/-- A vector field, by its component expressions. -/
structure VectorField where
  i : Expr
  j : Expr
  k : Expr
deriving DecidableEq

namespace VectorField

/-- The vector at a point. -/
def eval (field : VectorField) (point : Expr.Point) : Vec3 :=
  ⟨field.i.eval point, field.j.eval point, field.k.eval point⟩

/-- The tip of the vector drawn from a point. -/
def tip (field : VectorField) (point : Expr.Point) : Vec3 :=
  ⟨point.x, point.y, point.z⟩ + field.eval point

/-- The difference of two partial derivatives: that of `f` by `byF` less that of `g` by `byG`. -/
def partialDifference (f g : Expr) (byF byG : Symbol) : Expr :=
  .sub (f.derivative byF) (g.derivative byG)

/-- The curl of a field before its components are simplified. -/
def rawCurl (field : VectorField) : VectorField where
  i := partialDifference field.k field.j .y .z
  j := partialDifference field.i field.k .z .x
  k := partialDifference field.j field.i .x .y

/-- The curl of a field, with simplified components. -/
def curl (field : VectorField) : VectorField :=
  let raw := field.rawCurl
  ⟨raw.i.simplify, raw.j.simplify, raw.k.simplify⟩

/-- The lengths of a field at every point with the given coordinates. -/
def lengths (field : VectorField) (xs ys zs : List Float32) : List Float32 :=
  xs.flatMap fun x ↦ ys.flatMap fun y ↦ zs.map fun z ↦ (field.eval ⟨x, y, z⟩).length

/-- The smallest and the largest length of a field on a grid. The grid covers the box that reaches
as far as the given point on both sides of the origin, in the given step along each axis. -/
def lengthRange? (field : VectorField) (range : Expr.Point) (step : Float32) :
    Option (Float32 × Float32) := do
  let lastX ← Grid.lastIndex? (-range.x) range.x step
  let lastY ← Grid.lastIndex? (-range.y) range.y step
  let lastZ ← Grid.lastIndex? (-range.z) range.z step
  if (lastX + 1) * (lastY + 1) * (lastZ + 1) ≤ Grid.maxSamples then
    Grid.extremes (field.lengths (Grid.samples (-range.x) step lastX)
      (Grid.samples (-range.y) step lastY) (Grid.samples (-range.z) step lastZ))
  else none

/-- A field as text. -/
def text (markup : Markup) (field : VectorField) : String :=
  "\x7b i = " ++ field.i.text markup ++ ", j = " ++ field.j.text markup ++ ", k = " ++
    field.k.text markup ++ " \x7d"

end VectorField

end Nabla
