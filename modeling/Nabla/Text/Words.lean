import Nabla.Text.Blank
import Nabla.Text.Span

/-!
# Words, fields and lines

Three ways to cut a text: into the words between white space, each with its region; into the
fields between a separator; and into lines.
-/

namespace Nabla.Text

/-- A run of characters that are not white space, and the region it stands in. -/
structure Word where
  text : List Char
  span : Span
deriving DecidableEq

/-- Put a character that is not white space in front of the words after it. It extends the first
word if that one starts right behind it. -/
def consWord (position : Nat) (c : Char) : List Word → List Word
  | [] => [⟨[c], .ofLength position c.utf8Size⟩]
  | word :: words =>
      if word.span.start = position + c.utf8Size then
        ⟨c :: word.text, ⟨position, word.span.stop⟩⟩ :: words
      else ⟨[c], .ofLength position c.utf8Size⟩ :: word :: words

/-- The words of a text that begins at the given byte position. -/
def wordsFrom (position : Nat) : List Char → List Word
  | [] => []
  | c :: rest =>
      let words := wordsFrom (position + c.utf8Size) rest
      if isBlank c then words else consWord position c words

/-- The words of a text, in order. -/
def words (text : List Char) : List Word := wordsFrom 0 text

/-- The texts between the occurrences of a separator; one more than there are occurrences. -/
def fields (separator : Char) : List Char → List (List Char)
  | [] => [[]]
  | c :: rest =>
      match fields separator rest with
      | [] => [[c]]
      | field :: others =>
          if c = separator then [] :: field :: others else (c :: field) :: others

/-- A text without one carriage return at its end. -/
def dropCarriageReturn (text : List Char) : List Char :=
  if text.getLast? = some '\r' then text.dropLast else text

/-- The lines of the given fields between line feeds. A carriage return in front of a line feed
belongs to the line end, and nothing after the last line feed is no line. -/
def linesOfFields : List (List Char) → List (List Char)
  | [] => []
  | [last] => if last.isEmpty then [] else [last]
  | field :: others => dropCarriageReturn field :: linesOfFields others

/-- The lines of a text. -/
def lines (text : List Char) : List (List Char) := linesOfFields (fields '\n' text)

end Nabla.Text
