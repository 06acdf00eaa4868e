import Nabla.Text.Span

/-!
# Regions that can be shown

A region can be shown in a text if it begins and ends between characters of the text and has at
least one character (`Span.ShowsIn`). Parts of a text are such regions, and so is what reaches from
the start of one to the end of a later one. The whole of a text is one as well, unless the text is
empty (`Span.VisibleIn`). A report can be shown if it has one region, and this one can.
-/

namespace Nabla.Text

/-- A position between two characters of a text, or at one of its ends. -/
def IsBoundary (text : List Char) (position : Nat) : Prop :=
  ∃ front back, front ++ back = text ∧ byteLength front = position

/-- A position that a character of a text begins at. -/
def BeginsChar (text : List Char) (position : Nat) : Prop :=
  ∃ front c rest, front ++ c :: rest = text ∧ byteLength front = position

/-- A region of at least one character. -/
structure Span.ShowsIn (span : Span) (text : List Char) : Prop where
  start : IsBoundary text span.start
  stop : IsBoundary text span.stop
  nonempty : span.start < span.stop

/-- A region that a message can point at: it lies in the text, between characters, and it is not
empty unless the text is. -/
structure Span.VisibleIn (span : Span) (text : List Char) : Prop where
  start : IsBoundary text span.start
  stop : IsBoundary text span.stop
  ordered : span.start ≤ span.stop
  bounded : span.stop ≤ byteLength text
  nonempty : text ≠ [] → span.start < span.stop

/-- A report of one region, which has at least one character. -/
def Report.ShowsIn {Cause : Type} (report : Report Cause) (text : List Char) : Prop :=
  ∃ span, report.spans = [span] ∧ span.ShowsIn text

/-- A report of one region, which a message can point at. -/
def Report.VisibleIn {Cause : Type} (report : Report Cause) (text : List Char) : Prop :=
  ∃ span, report.spans = [span] ∧ span.VisibleIn text

/-- A text that is not empty has bytes. -/
theorem byteLength_pos {text : List Char} (h : text ≠ []) : 0 < byteLength text := by
  cases text with
  | nil => exact absurd rfl h
  | cons c rest => exact Nat.lt_of_lt_of_le c.utf8Size_pos (Nat.le_add_right _ _)

/-- The bytes behind the first character. -/
theorem byteLength_cons_sub (c : Char) (rest : List Char) :
    byteLength (c :: rest) - c.utf8Size = byteLength rest := Nat.add_sub_cancel_left ..

/-- The first character is dropped if a byte is. -/
theorem dropBytes_cons {position : Nat} (h : 0 < position) (c : Char) (rest : List Char) :
    dropBytes position (c :: rest) = dropBytes (position - c.utf8Size) rest := by
  rw [dropBytes]
  exact Nat.ne_of_gt h

/-- The first character is taken if a byte is. -/
theorem takeBytes_cons {position : Nat} (h : 0 < position) (c : Char) (rest : List Char) :
    takeBytes position (c :: rest) = c :: takeBytes (position - c.utf8Size) rest := by
  rw [takeBytes]
  exact Nat.ne_of_gt h

/-- The text behind a boundary is found by its position. -/
theorem dropBytes_append (front back : List Char) :
    dropBytes (byteLength front) (front ++ back) = back := by
  induction front with
  | nil =>
    show dropBytes 0 back = back
    rw [dropBytes.eq_def]
    rfl
  | cons c front ih =>
    rw [List.cons_append, dropBytes_cons (byteLength_pos (List.cons_ne_nil c front)),
      byteLength_cons_sub, ih]

/-- The text in front of a boundary is found by its position. -/
theorem takeBytes_append (front back : List Char) :
    takeBytes (byteLength front) (front ++ back) = front := by
  induction front with
  | nil => cases back <;> rfl
  | cons c front ih =>
    rw [List.cons_append, takeBytes_cons (byteLength_pos (List.cons_ne_nil c front)),
      byteLength_cons_sub, ih]

namespace IsBoundary

variable {text : List Char} {position : Nat}

/-- A boundary is at most at the end of the text. -/
theorem le_byteLength (h : IsBoundary text position) : position ≤ byteLength text := by
  obtain ⟨front, back, rfl, rfl⟩ := h
  rw [byteLength_append]
  exact Nat.le_add_right _ _

/-- A text begins at a boundary. -/
theorem zero (text : List Char) : IsBoundary text 0 := ⟨[], text, rfl, rfl⟩

/-- A text ends at a boundary. -/
theorem byteLength (text : List Char) : IsBoundary text (byteLength text) :=
  ⟨text, [], List.append_nil text, rfl⟩

/-- Between two parts of a text. -/
theorem append (front back : List Char) : IsBoundary (front ++ back) (Text.byteLength front) :=
  ⟨front, back, rfl, rfl⟩

end IsBoundary

namespace Span.ShowsIn

variable {text : List Char} {first last : Span}

/-- A message can point at a region of at least one character. -/
theorem visibleIn {span : Span} (h : span.ShowsIn text) : span.VisibleIn text :=
  ⟨h.start, h.stop, Nat.le_of_lt h.nonempty, h.stop.le_byteLength, fun _ ↦ h.nonempty⟩

/-- A character begins at the start of a region that has one. -/
theorem beginsChar {span : Span} (h : span.ShowsIn text) : BeginsChar text span.start := by
  obtain ⟨front, back, rfl, hstart⟩ := h.start
  have hlt : byteLength front < byteLength (front ++ back) := by
    rw [hstart]
    exact Nat.lt_of_lt_of_le h.nonempty h.stop.le_byteLength
  cases back with
  | nil =>
    rw [List.append_nil] at hlt
    exact absurd hlt (Nat.lt_irrefl _)
  | cons c rest => exact ⟨front, c, rest, rfl, hstart⟩

/-- The region of a part of a text. -/
theorem ofChars (before after : List Char) {shown : List Char} (h : shown ≠ []) :
    (Span.ofChars (byteLength before) shown).ShowsIn (before ++ (shown ++ after)) := by
  refine ⟨.append before _, ?_, Nat.lt_add_of_pos_right (byteLength_pos h)⟩
  rw [← List.append_assoc, Span.ofChars, Span.ofLength, ← byteLength_append]
  exact .append (before ++ shown) after

/-- The region of a character of a text. -/
theorem ofChar (before after : List Char) (c : Char) :
    (Span.ofLength (byteLength before) c.utf8Size).ShowsIn (before ++ c :: after) :=
  ofChars before after (List.cons_ne_nil c [])

/-- From the start of a region to the end of a later one. -/
theorem through (hfirst : first.ShowsIn text) (hlast : last.ShowsIn text)
    (h : first.start ≤ last.start) : (Span.mk first.start last.stop).ShowsIn text :=
  ⟨hfirst.start, hlast.stop, Nat.lt_of_le_of_lt h hlast.nonempty⟩

end Span.ShowsIn

/-- The same of a report. -/
theorem Report.ShowsIn.visibleIn {Cause : Type} {report : Report Cause} {text : List Char}
    (h : report.ShowsIn text) : report.VisibleIn text := by
  obtain ⟨span, hspans, hspan⟩ := h
  exact ⟨span, hspans, hspan.visibleIn⟩

/-- The whole of a text is visible. -/
theorem Span.visibleIn_whole (text : List Char) : (Span.mk 0 (byteLength text)).VisibleIn text :=
  ⟨.zero text, .byteLength text, Nat.zero_le _, Nat.le_refl _, byteLength_pos⟩

end Nabla.Text
