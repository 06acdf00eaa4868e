import Mathlib.Data.List.TakeWhile
import Nabla.Proofs.Text.WordRuns
import Nabla.Session.Basic

/-!
# The words of a command

A line is cut into its words exactly (`words_maximal_runs`): they are the maximal runs without
white space, in order, with the regions that they stand in. A line whose first character behind
white space is a `:` has therefore a first word, which begins with it, and the line is answered as a
command with this name and the other words as its arguments.
-/

namespace Nabla.Session

open Text (Span Word)

variable {line : List Char} {name : Word} {arguments : List Word}

/-- A command line is told by its first character that is not white space. -/
theorem isCommandLine_iff :
    isCommandLine line = true ↔ line.find? (fun c ↦ !Text.isBlank c) = some ':' := by
  rw [isCommandLine, beq_iff_eq, Text.trimStart, List.find?_not_eq_head?_dropWhile]

/-- The first word of a command line names the command, and the others are its arguments. -/
theorem answer_of_words (hline : isCommandLine line = true)
    (hwords : Text.words line = name :: arguments) :
    answer line = answerCommand ⟨line, name, arguments⟩ := by
  unfold answer
  rw [if_pos hline, hwords]

/-- The words of a line are its maximal runs without white space, in order and apart from each
other. Each is what the line has in its region, between characters, and what is outside of all of
them is white space. If the first character that is not white space is a `:`, then there is a first
word, it begins with the `:`, and the line is answered as a command of this name. -/
theorem words_maximal_runs (line : List Char) :
    (∀ word, word ∈ Text.words line ↔ word.IsRunOf line) ∧
    (Text.words line).Pairwise (fun first second ↦ first.span.stop < second.span.start) ∧
    (∀ word ∈ Text.words line, word.text ≠ [] ∧ (∀ c ∈ word.text, Text.isBlank c = false) ∧
      word.span.slice line = word.text ∧ word.span.ShowsIn line) ∧
    (∀ before c after, before ++ c :: after = line →
      (Text.isBlank c = true ↔ ∀ word ∈ Text.words line,
        Text.byteLength before + c.utf8Size ≤ word.span.start ∨
          word.span.stop ≤ Text.byteLength before)) ∧
    (line.find? (fun c ↦ !Text.isBlank c) = some ':' →
      ∃ name arguments, Text.words line = name :: arguments ∧ name.text.head? = some ':' ∧
        answer line = answerCommand ⟨line, name, arguments⟩) := by
  refine ⟨fun word ↦ Text.mem_words_iff, Text.pairwise_words line, fun word hword ↦ ?_,
    fun before c after htext ↦ Text.isBlank_iff_outside_words htext, fun hcolon ↦ ?_⟩
  · have hrun : word.IsRunOf line := Text.mem_words_iff.1 hword
    exact ⟨hrun.nonempty, hrun.notBlank, hrun.slice, hrun.showsIn⟩
  · obtain ⟨name, arguments, hwords, hhead⟩ := Text.exists_words_of_find? hcolon
    exact ⟨name, arguments, hwords, hhead, answer_of_words (isCommandLine_iff.2 hcolon) hwords⟩

/-- White space of two and three bytes in front of a command, in it and behind it. -/
theorem words_maximal_runs_wide_spaces :
    (Word.mk "é".toList ⟨11, 13⟩ ∈ Text.words "\u3000:diff\u2003é\u00a0".toList ∧
      (Word.mk "é".toList ⟨11, 13⟩).IsRunOf "\u3000:diff\u2003é\u00a0".toList ∧
      (Span.mk 11 13).slice "\u3000:diff\u2003é\u00a0".toList = "é".toList ∧
      (Span.mk 11 13).ShowsIn "\u3000:diff\u2003é\u00a0".toList) ∧
    ("\u3000:diff\u2003é".toList ++ '\u00a0' :: [] = "\u3000:diff\u2003é\u00a0".toList ∧
      Text.isBlank '\u00a0' = true) ∧
    ("\u3000:diff\u2003é\u00a0".toList.find? fun c ↦ !Text.isBlank c) = some ':' ∧
    ∃ name arguments, Text.words "\u3000:diff\u2003é\u00a0".toList = name :: arguments ∧
      name.text.head? = some ':' ∧ answer "\u3000:diff\u2003é\u00a0".toList =
        answerCommand ⟨"\u3000:diff\u2003é\u00a0".toList, name, arguments⟩ := by
  have hwords : Text.words "\u3000:diff\u2003é\u00a0".toList =
      [⟨":diff".toList, ⟨3, 8⟩⟩, ⟨"é".toList, ⟨11, 13⟩⟩] := by rfl
  have hword : Word.mk "é".toList ⟨11, 13⟩ ∈ Text.words "\u3000:diff\u2003é\u00a0".toList := by
    rw [hwords]
    exact List.mem_cons_of_mem _ List.mem_cons_self
  have hcolon : ("\u3000:diff\u2003é\u00a0".toList.find? fun c ↦ !Text.isBlank c) = some ':' := by
    rfl
  have htext : "\u3000:diff\u2003é".toList ++ '\u00a0' :: [] =
      "\u3000:diff\u2003é\u00a0".toList := by rfl
  obtain ⟨hruns, -, hparts, houtside, hfirst⟩ :=
    words_maximal_runs "\u3000:diff\u2003é\u00a0".toList
  obtain ⟨-, -, hslice, hshows⟩ := hparts _ hword
  refine ⟨⟨hword, (hruns _).1 hword, hslice, hshows⟩, ⟨htext, (houtside _ _ _ htext).2 ?_⟩, hcolon,
    hfirst hcolon⟩
  rw [hwords]
  decide

end Nabla.Session
