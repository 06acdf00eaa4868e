/-!
# Positions in a text

A text is a list of characters, and a position in it is a number of UTF-8 bytes from its start.
-/

namespace Nabla.Text

/-- A region of a text, from the byte position `start` up to the byte position `stop`. -/
structure Span where
  start : Nat
  stop : Nat
deriving DecidableEq, Repr

/-- The number of bytes of a text. -/
def byteLength : List Char → Nat
  | [] => 0
  | c :: rest => c.utf8Size + byteLength rest

/-- The bytes of two texts, one behind the other. -/
theorem byteLength_append (front back : List Char) :
    byteLength (front ++ back) = byteLength front + byteLength back := by
  induction front with
  | nil => exact (Nat.zero_add _).symm
  | cons c front ih =>
    show c.utf8Size + byteLength (front ++ back) = c.utf8Size + byteLength front + byteLength back
    rw [ih, Nat.add_assoc]

/-- The region of the given number of bytes at a position. -/
def Span.ofLength (start length : Nat) : Span := ⟨start, start + length⟩

/-- The region of a text that is read from a position on. -/
def Span.ofChars (start : Nat) (text : List Char) : Span := Span.ofLength start (byteLength text)

/-- The characters of a text that begin at or after a byte position. -/
def dropBytes : Nat → List Char → List Char
  | 0, text => text
  | _, [] => []
  | position, c :: rest => dropBytes (position - c.utf8Size) rest

/-- The characters of a text that begin before a byte position. -/
def takeBytes : Nat → List Char → List Char
  | 0, _ => []
  | _, [] => []
  | position, c :: rest => c :: takeBytes (position - c.utf8Size) rest

/-- The characters of a text in a region. -/
def Span.slice (span : Span) (text : List Char) : List Char :=
  takeBytes (span.stop - span.start) (dropBytes span.start text)

/-- A cause and the regions of a text that it points at. -/
structure Report (Cause : Type) where
  cause : Cause
  spans : List Span
deriving DecidableEq

/-- The region that the label of a cause is put at: the first one. -/
def Report.span {Cause : Type} (report : Report Cause) : Span := report.spans.headD ⟨0, 0⟩

end Nabla.Text
