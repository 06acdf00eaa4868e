import Nabla.Decimal.Fixed

/-!
# Vectors in space

A point or an arrow with three binary32 coordinates. Every operation on a coordinate rounds once.
-/

namespace Nabla

/-- A point or vector in space. -/
structure Vec3 where
  x : Float32
  y : Float32
  z : Float32
deriving DecidableEq

namespace Vec3

/-- The Euclidean length of a vector. -/
def length (v : Vec3) : Float32 := (v.x * v.x + v.y * v.y + v.z * v.z).sqrt

/-- The sum of two vectors, coordinate by coordinate. -/
def add (v w : Vec3) : Vec3 := ⟨v.x + w.x, v.y + w.y, v.z + w.z⟩

instance : Add Vec3 := ⟨add⟩

/-- The number of decimal places that coordinates are shown with. -/
def shownPlaces : Nat := 2

/-- A coordinate as it is shown. -/
def coordinateText (coordinate : Float32) : String := Decimal.trimmed coordinate shownPlaces

/-- A vector as text. -/
def text (v : Vec3) : String :=
  "\x7b " ++ coordinateText v.x ++ ", " ++ coordinateText v.y ++ ", " ++ coordinateText v.z ++
    " \x7d"

end Vec3

end Nabla
