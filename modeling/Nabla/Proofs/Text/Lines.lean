import Nabla.Text.Words

/-!
# Deleting lines from a text

A text is cut behind each line feed into pieces that make up the text again. A piece is a line with
its line end, so a line is deleted by leaving out its piece: the lines of the text that the other
pieces make up are their lines (`Cut.lines_flatten`).
-/

namespace Nabla.Text

/-- A text cut behind each line feed. -/
def pieces : List Char → List (List Char)
  | [] => []
  | c :: rest =>
      if c = '\n' then [c] :: pieces rest
      else
        match pieces rest with
        | [] => [[c]]
        | piece :: others => (c :: piece) :: others

/-- The line of a piece: what is in front of its line end. -/
def lineOfPiece (piece : List Char) : List Char :=
  if piece.getLast? = some '\n' then dropCarriageReturn piece.dropLast else piece

/-- Each text ends with its only line feed, but the last one may have none if it is not empty. -/
inductive Cut : List (List Char) → Prop where
  | nil : Cut []
  | last {line : List Char} (hnonempty : line ≠ []) (hline : '\n' ∉ line) : Cut [line]
  | cons {line : List Char} {rest : List (List Char)} (hline : '\n' ∉ line) (hrest : Cut rest) :
      Cut ((line ++ ['\n']) :: rest)

/-! ### Pieces -/

/-- The pieces of a text are the whole of it. -/
theorem flatten_pieces (text : List Char) : (pieces text).flatten = text := by
  induction text with
  | nil => rfl
  | cons c rest ih =>
    unfold pieces
    by_cases hfeed : c = '\n'
    · rw [if_pos hfeed, List.flatten_cons, ih]
      rfl
    · rw [if_neg hfeed]
      cases hrest : pieces rest with
      | nil =>
        rw [hrest] at ih
        rw [← ih]
        rfl
      | cons piece others =>
        rw [hrest] at ih
        rw [← ih]
        rfl

/-- Each piece ends at its line feed. -/
theorem cut_pieces (text : List Char) : Cut (pieces text) := by
  induction text with
  | nil => exact .nil
  | cons c rest ih =>
    unfold pieces
    by_cases hfeed : c = '\n'
    · rw [if_pos hfeed, hfeed]
      exact @Cut.cons [] _ List.not_mem_nil ih
    · rw [if_neg hfeed]
      have hhead {line : List Char} (hline : '\n' ∉ line) : '\n' ∉ c :: line :=
        List.not_mem_cons_of_ne_of_not_mem (Ne.symm hfeed) hline
      generalize pieces rest = cut at ih
      cases ih with
      | nil => exact .last (List.cons_ne_nil c []) (hhead List.not_mem_nil)
      | last hnonempty hline => exact .last (List.cons_ne_nil c _) (hhead hline)
      | cons hline hrest => exact .cons (hhead hline) hrest

/-- Pieces that are left out leave a text that is cut the same way. -/
theorem Cut.sublist {cut kept : List (List Char)} (h : Cut cut) (hsublist : kept.Sublist cut) :
    Cut kept := by
  induction h generalizing kept with
  | nil => rw [List.sublist_nil.1 hsublist]; exact .nil
  | last hnonempty hline =>
    cases hsublist with
    | cons _ hrest => rw [List.sublist_nil.1 hrest]; exact .nil
    | cons_cons _ hrest => rw [List.sublist_nil.1 hrest]; exact .last hnonempty hline
  | cons hline hrest ih =>
    cases hsublist with
    | cons _ hsublist => exact ih hsublist
    | cons_cons _ hsublist => exact .cons hline (ih hsublist)

/-! ### Lines -/

/-- A text has at least one field. -/
theorem fields_ne_nil (separator : Char) (text : List Char) : fields separator text ≠ [] := by
  cases text with
  | nil => exact List.cons_ne_nil _ _
  | cons c rest =>
    unfold fields
    split
    · exact List.cons_ne_nil _ _
    · split <;> exact List.cons_ne_nil _ _

/-- The first separator ends the first field. -/
theorem fields_append_cons {separator : Char} {field : List Char} (h : separator ∉ field)
    (rest : List Char) :
    fields separator (field ++ separator :: rest) = field :: fields separator rest := by
  induction field with
  | nil =>
    obtain ⟨first, others, hfields⟩ := List.exists_cons_of_ne_nil (fields_ne_nil separator rest)
    simp [fields, hfields]
  | cons c field ih =>
    have hne : separator ≠ c := List.ne_of_not_mem_cons h
    have hfield : separator ∉ field := List.not_mem_of_not_mem_cons h
    simp [fields, ih hfield, Ne.symm hne]

/-- A text without the separator is one field. -/
theorem fields_eq_singleton {separator : Char} {field : List Char} (h : separator ∉ field) :
    fields separator field = [field] := by
  induction field with
  | nil => rfl
  | cons c field ih =>
    have hne : separator ≠ c := List.ne_of_not_mem_cons h
    have hfield : separator ∉ field := List.not_mem_of_not_mem_cons h
    simp [fields, ih hfield, Ne.symm hne]

/-- A text without a line feed is one line. -/
theorem lines_eq_singleton {line : List Char} (hnonempty : line ≠ []) (hline : '\n' ∉ line) :
    lines line = [line] := by
  simp [lines, fields_eq_singleton hline, linesOfFields, hnonempty]

/-- A line ends at its line feed. -/
theorem lines_append_cons {line : List Char} (hline : '\n' ∉ line) (rest : List Char) :
    lines (line ++ '\n' :: rest) = dropCarriageReturn line :: lines rest := by
  obtain ⟨first, others, hfields⟩ := List.exists_cons_of_ne_nil (fields_ne_nil '\n' rest)
  rw [lines, fields_append_cons hline, lines, hfields]
  rfl

/-- A piece without a line feed is a line. -/
theorem lineOfPiece_of_notMem {line : List Char} (hline : '\n' ∉ line) :
    lineOfPiece line = line :=
  if_neg fun hlast ↦ hline (List.mem_of_getLast? hlast)

/-- The line of a piece is what stands in front of its line feed. -/
theorem lineOfPiece_append_feed (line : List Char) :
    lineOfPiece (line ++ ['\n']) = dropCarriageReturn line := by
  simp [lineOfPiece]

/-- The lines of the text that some pieces make up are the lines of the pieces. -/
theorem Cut.lines_flatten {cut : List (List Char)} (h : Cut cut) :
    lines cut.flatten = cut.map lineOfPiece := by
  induction h with
  | nil => rfl
  | last hnonempty hline =>
    rw [List.flatten_singleton, lines_eq_singleton hnonempty hline, List.map_singleton,
      lineOfPiece_of_notMem hline]
  | @cons line rest hline hrest ih =>
    rw [List.flatten_cons, List.append_assoc, List.singleton_append, lines_append_cons hline, ih,
      List.map_cons, lineOfPiece_append_feed]

end Nabla.Text
