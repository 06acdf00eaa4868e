import Nabla.Proofs.Text.Regions
import Nabla.Text.Words

/-!
# Words are maximal runs

A word of a text is a part without white space that no character next to it extends
(`Word.IsRunOf`). The words that are found are all of these parts (`mem_words_iff`) in order
(`pairwise_words`), and there is only white space outside of them (`isBlank_iff_outside_words`).

A text may be cut next to white space: its words are those in front of the cut and those behind it
(`wordsFrom_append`). The proofs cut behind every part that white space ends (`part_induction`).
-/

namespace Nabla.Text

variable {position : Nat} {c blank : Char} {front back before after part rest text : List Char}
  {word : Word} {words others : List Word}

/-- White space is no other character. -/
theorem ne_of_isBlank (hblank : isBlank blank = true) (hc : isBlank c = false) : blank ≠ c := by
  rintro rfl
  exact Bool.false_ne_true (hc.symm.trans hblank)

/-! ### Cutting a text next to white space -/

/-- White space in front is no part of a word. -/
theorem wordsFrom_cons_blank (hc : isBlank c = true) :
    wordsFrom position (c :: rest) = wordsFrom (position + c.utf8Size) rest := if_pos hc

/-- Another character in front is part of the first word. -/
theorem wordsFrom_cons (hc : isBlank c = false) :
    wordsFrom position (c :: rest) =
      consWord position c (wordsFrom (position + c.utf8Size) rest) :=
  if_neg (Bool.eq_false_iff.1 hc)

/-- A character that is put in front of words begins the first one, and the others are as before. -/
theorem exists_consWord (position : Nat) (c : Char) (words : List Word) :
    ∃ shown stop others, consWord position c words = ⟨c :: shown, ⟨position, stop⟩⟩ :: others ∧
      ∀ other ∈ others, other ∈ words := by
  cases words with
  | nil => exact ⟨[], _, [], rfl, fun _ h ↦ h⟩
  | cons word words =>
    simp only [consWord]
    split
    · exact ⟨word.text, _, words, rfl, fun _ ↦ List.mem_cons_of_mem _⟩
    · exact ⟨[], _, word :: words, rfl, fun _ h ↦ h⟩

/-- The words behind a gap are left alone by a character in front of them. -/
theorem consWord_append
    (h : words = [] → ∀ other ∈ others, position + c.utf8Size < other.span.start) :
    consWord position c (words ++ others) = consWord position c words ++ others := by
  cases words with
  | nil =>
    cases others with
    | nil => rfl
    | cons other others =>
      exact if_neg (Nat.ne_of_gt (h rfl other List.mem_cons_self))
  | cons word words =>
    simp only [List.cons_append, consWord]
    split <;> rfl

/-- No word begins before the text does. -/
theorem le_start_of_mem_wordsFrom (h : word ∈ wordsFrom position text) :
    position ≤ word.span.start := by
  induction text generalizing position word with
  | nil => exact absurd h List.not_mem_nil
  | cons c rest ih =>
    have hrest (other : Word) (hother : other ∈ wordsFrom (position + c.utf8Size) rest) :
        position ≤ other.span.start := Nat.le_of_add_right_le (ih hother)
    by_cases hc : isBlank c = true
    · rw [wordsFrom_cons_blank hc] at h
      exact hrest word h
    · rw [wordsFrom_cons (Bool.eq_false_iff.2 hc)] at h
      obtain ⟨shown, stop, others, hwords, hothers⟩ :=
        exists_consWord position c (wordsFrom (position + c.utf8Size) rest)
      rw [hwords] at h
      rcases List.mem_cons.1 h with rfl | hother
      · exact Nat.le_refl _
      · exact hrest word (hothers word hother)

/-- A white space character separates the words in front of it from those behind it. -/
theorem wordsFrom_append_blank (hblank : isBlank blank = true) :
    wordsFrom position (front ++ blank :: back) =
      wordsFrom position front ++
        wordsFrom (position + byteLength front + blank.utf8Size) back := by
  induction front generalizing position with
  | nil => exact wordsFrom_cons_blank hblank
  | cons c front ih =>
    have hlength : position + byteLength (c :: front) =
        position + c.utf8Size + byteLength front := (Nat.add_assoc _ _ _).symm
    rw [List.cons_append, hlength]
    by_cases hc : isBlank c = true
    · rw [wordsFrom_cons_blank hc, wordsFrom_cons_blank hc, ih]
    · have hc : isBlank c = false := Bool.eq_false_iff.2 hc
      rw [wordsFrom_cons hc, wordsFrom_cons hc, ih]
      refine consWord_append fun _ other hother ↦ ?_
      -- the white space keeps the words behind it from starting right behind the character
      have hstart := le_start_of_mem_wordsFrom hother
      have hsize := blank.utf8Size_pos
      omega

/-- A text may be cut next to white space. -/
theorem wordsFrom_append
    (h : (∀ c ∈ front.getLast?, isBlank c = true) ∨ ∀ c ∈ back.head?, isBlank c = true) :
    wordsFrom position (front ++ back) =
      wordsFrom position front ++ wordsFrom (position + byteLength front) back := by
  rcases h with hfront | hback
  · rcases List.eq_nil_or_concat front with rfl | ⟨front, blank, rfl⟩
    · rfl
    · rw [List.concat_eq_append] at hfront ⊢
      have hblank : isBlank blank = true := hfront blank List.getLast?_concat
      rw [List.append_assoc, List.singleton_append,
        wordsFrom_append_blank hblank, wordsFrom_append_blank hblank, byteLength_append]
      simp only [wordsFrom, List.append_nil, byteLength, Nat.add_zero, Nat.add_assoc]
  · cases back with
    | nil => rw [List.append_nil, wordsFrom, List.append_nil]
    | cons blank back =>
      have hblank : isBlank blank = true := hback blank rfl
      rw [wordsFrom_append_blank hblank, wordsFrom_cons_blank hblank]

/-! ### Parts without white space -/

/-- A part without white space is a word, unless it is empty. -/
theorem wordsFrom_part (hpart : ∀ c ∈ part, isBlank c = false) (hnonempty : part ≠ []) :
    wordsFrom position part = [⟨part, .ofChars position part⟩] := by
  induction part generalizing position with
  | nil => exact absurd rfl hnonempty
  | cons c part ih =>
    obtain ⟨hc, hpart⟩ := List.forall_mem_cons.1 hpart
    rw [wordsFrom_cons hc]
    cases part with
    | nil => rfl
    | cons d part =>
      have hextended : consWord position c
          [⟨d :: part, .ofChars (position + c.utf8Size) (d :: part)⟩] =
            [⟨c :: d :: part, position, position + c.utf8Size + byteLength (d :: part)⟩] :=
        if_pos rfl
      rw [ih hpart (List.cons_ne_nil d part), hextended, Nat.add_assoc]
      rfl

/-- A text without white space is one word, or none if it is empty. -/
theorem mem_wordsFrom_part (hpart : ∀ c ∈ part, isBlank c = false) :
    word ∈ wordsFrom position part ↔ part ≠ [] ∧ word = ⟨part, .ofChars position part⟩ := by
  by_cases hnonempty : part = []
  · subst hnonempty
    exact ⟨fun h ↦ absurd h List.not_mem_nil, fun h ↦ absurd rfl h.1⟩
  · rw [wordsFrom_part hpart hnonempty, List.mem_singleton]
    exact ⟨fun h ↦ ⟨hnonempty, h⟩, fun h ↦ h.2⟩

/-- Induction on the parts of a text that white space ends: a text is the last part, or a part, a
white space character and the rest of the text. -/
@[elab_as_elim]
theorem part_induction {motive : List Char → Prop}
    (last : ∀ part, (∀ c ∈ part, isBlank c = false) → motive part)
    (cons : ∀ part blank rest, (∀ c ∈ part, isBlank c = false) → isBlank blank = true →
      motive rest → motive (part ++ blank :: rest))
    (text : List Char) : motive text := by
  -- the part that has been read so far is carried along
  suffices h : ∀ part, (∀ c ∈ part, isBlank c = false) → motive (part ++ text) from
    h [] (List.forall_mem_nil _)
  induction text with
  | nil =>
    intro part hpart
    rw [List.append_nil]
    exact last part hpart
  | cons c rest ih =>
    intro part hpart
    by_cases hc : isBlank c = true
    · exact cons part c rest hpart hc (ih [] (List.forall_mem_nil _))
    · rw [← List.singleton_append, ← List.append_assoc]
      exact ih (part ++ [c]) (List.forall_mem_append.2
        ⟨hpart, List.forall_mem_singleton.2 (Bool.eq_false_iff.2 hc)⟩)

/-! ### Maximal runs -/

/-- A character of a text is one of a part, or it stands in front of the part or behind it. -/
theorem mem_or_outside (h : before ++ c :: after = front ++ (part ++ back)) :
    c ∈ part ∨ byteLength before + c.utf8Size ≤ byteLength front ∨
      byteLength front + byteLength part ≤ byteLength before := by
  rcases List.append_eq_append_iff.1 h with ⟨between, rfl, hrest⟩ | ⟨between, rfl, hrest⟩
  · cases between with
    | nil =>
      cases part with
      | nil =>
        right; right
        simp only [List.append_nil, byteLength, Nat.add_zero, Nat.le_refl]
      | cons d part =>
        obtain ⟨rfl, -⟩ := List.cons.inj hrest
        exact .inl List.mem_cons_self
    | cons d between =>
      obtain ⟨rfl, -⟩ := List.cons.inj hrest
      right; left
      rw [byteLength_append, byteLength]
      omega
  · rcases List.append_eq_append_iff.1 hrest with ⟨between, rfl, -⟩ | ⟨shown, rfl, hback⟩
    · right; right
      simp only [byteLength_append]
      omega
    · cases shown with
      | nil =>
        right; right
        simp only [List.append_nil, byteLength_append, Nat.le_refl]
      | cons d shown =>
        obtain ⟨rfl, -⟩ := List.cons.inj hback
        exact .inl (List.mem_append_right _ List.mem_cons_self)

/-- A word between two parts of a text: it has a character, none of its characters is white space,
those next to it are, and its region is the one it stands in. -/
structure Word.RunBetween (word : Word) (before after : List Char) : Prop where
  nonempty : word.text ≠ []
  notBlank : ∀ c ∈ word.text, isBlank c = false
  behind : ∀ c ∈ before.getLast?, isBlank c = true
  ahead : ∀ c ∈ after.head?, isBlank c = true
  span : word.span = .ofChars (byteLength before) word.text

/-- A maximal run of the characters of a text that are not white space. -/
def Word.IsRunOf (word : Word) (text : List Char) : Prop :=
  ∃ before after, before ++ (word.text ++ after) = text ∧ word.RunBetween before after

namespace Word.IsRunOf

/-- A run has a character. -/
theorem nonempty (h : word.IsRunOf text) : word.text ≠ [] := by
  obtain ⟨_, _, _, hrun⟩ := h
  exact hrun.nonempty

/-- There is no white space in a run. -/
theorem notBlank (h : word.IsRunOf text) : ∀ c ∈ word.text, isBlank c = false := by
  obtain ⟨_, _, _, hrun⟩ := h
  exact hrun.notBlank

/-- The region of a run can be shown. -/
theorem showsIn (h : word.IsRunOf text) : word.span.ShowsIn text := by
  obtain ⟨before, after, rfl, hrun⟩ := h
  rw [hrun.span]
  exact .ofChars before after hrun.nonempty

/-- A run is what the text has in its region. -/
theorem slice (h : word.IsRunOf text) : word.span.slice text = word.text := by
  obtain ⟨before, after, rfl, hrun⟩ := h
  rw [hrun.span, Span.slice, Span.ofChars, Span.ofLength, Nat.add_sub_cancel_left,
    dropBytes_append, takeBytes_append]

/-- White space stands in front of a run or behind it. -/
theorem outside_of_blank (h : word.IsRunOf (before ++ c :: after)) (hc : isBlank c = true) :
    byteLength before + c.utf8Size ≤ word.span.start ∨ word.span.stop ≤ byteLength before := by
  obtain ⟨front, back, htext, hrun⟩ := h
  rw [hrun.span]
  rcases mem_or_outside htext.symm with hmem | houtside
  · exact absurd rfl (ne_of_isBlank hc (hrun.notBlank c hmem))
  · exact houtside

end Word.IsRunOf

/-! ### The words that are found -/

/-- Every word is a run: it reaches from white space to white space. -/
theorem isRunOf_of_mem_wordsFrom (hfront : ∀ c ∈ front.getLast?, isBlank c = true) :
    ∀ word ∈ wordsFrom (byteLength front) text, word.IsRunOf (front ++ text) := by
  induction text using part_induction generalizing front with
  | last part hpart =>
    intro word hword
    obtain ⟨hnonempty, rfl⟩ := (mem_wordsFrom_part hpart).1 hword
    exact ⟨front, [], by rw [List.append_nil], hnonempty, hpart, hfront, nofun, rfl⟩
  | cons part blank rest hpart hblank ih =>
    rw [wordsFrom_append_blank hblank]
    refine List.forall_mem_append.2 ⟨fun word hword ↦ ?_, ?_⟩
    · obtain ⟨hnonempty, rfl⟩ := (mem_wordsFrom_part hpart).1 hword
      have hahead : ∀ c ∈ (blank :: rest).head?, isBlank c = true := by
        rintro _ ⟨⟩
        exact hblank
      exact ⟨front, blank :: rest, rfl, hnonempty, hpart, hfront, hahead, rfl⟩
    · have hlast : ∀ c ∈ (front ++ part ++ [blank]).getLast?, isBlank c = true := by
        rw [List.getLast?_concat]
        rintro _ ⟨⟩
        exact hblank
      have hrest := ih hlast
      rw [byteLength_append, byteLength_append, List.append_assoc, List.append_assoc] at hrest
      exact hrest

/-- Every run is a word: the text may be cut on both sides of it. -/
theorem mem_words_of_isRunOf (h : word.IsRunOf text) : word ∈ Text.words text := by
  obtain ⟨before, after, rfl, hrun⟩ := h
  rw [Text.words, wordsFrom_append (.inl hrun.behind), wordsFrom_append (.inr hrun.ahead),
    wordsFrom_part hrun.notBlank hrun.nonempty, Nat.zero_add, ← hrun.span]
  exact List.mem_append_right _ List.mem_cons_self

/-- The words of a text are its maximal runs. -/
theorem mem_words_iff : word ∈ Text.words text ↔ word.IsRunOf text := by
  constructor
  · intro h
    have hstart : ∀ c ∈ ([] : List Char).getLast?, isBlank c = true := nofun
    exact isRunOf_of_mem_wordsFrom hstart word h
  · exact mem_words_of_isRunOf

/-- The region of a word can be shown. -/
theorem showsIn_words (h : word ∈ Text.words text) : word.span.ShowsIn text :=
  (mem_words_iff.1 h).showsIn

/-- The words of a text without white space are apart, since there is at most one. -/
theorem pairwise_wordsFrom_part (hpart : ∀ c ∈ part, isBlank c = false) :
    (wordsFrom position part).Pairwise fun first second ↦ first.span.stop < second.span.start := by
  by_cases hnonempty : part = []
  · subst hnonempty
    exact .nil
  · rw [wordsFrom_part hpart hnonempty]
    exact List.pairwise_singleton _ _

/-- The words of a text are in order and apart. -/
theorem pairwise_wordsFrom :
    (wordsFrom position text).Pairwise fun first second ↦ first.span.stop < second.span.start := by
  induction text using part_induction generalizing position with
  | last part hpart => exact pairwise_wordsFrom_part hpart
  | cons part blank rest hpart hblank ih =>
    rw [wordsFrom_append_blank hblank]
    refine List.pairwise_append.2 ⟨pairwise_wordsFrom_part hpart, ih, ?_⟩
    intro first hfirst second hsecond
    obtain ⟨-, rfl⟩ := (mem_wordsFrom_part hpart).1 hfirst
    exact Nat.lt_of_lt_of_le (Nat.lt_add_of_pos_right blank.utf8Size_pos)
      (le_start_of_mem_wordsFrom hsecond)

/-- The words of a text stand one after the other, with a gap between them. -/
theorem pairwise_words (text : List Char) :
    (Text.words text).Pairwise fun first second ↦ first.span.stop < second.span.start :=
  pairwise_wordsFrom

/-! ### Characters and words -/

/-- Each character of a text without white space is in a word. -/
theorem exists_mem_wordsFrom_part (position : Nat) (hpart : ∀ d ∈ part, isBlank d = false)
    (htext : before ++ c :: after = part) :
    ∃ word ∈ wordsFrom position part, word.span.start ≤ position + byteLength before ∧
      position + byteLength before + c.utf8Size ≤ word.span.stop := by
  subst htext
  have hnonempty : before ++ c :: after ≠ [] :=
    List.append_ne_nil_of_right_ne_nil _ (List.cons_ne_nil c after)
  refine ⟨_, (mem_wordsFrom_part hpart).2 ⟨hnonempty, rfl⟩, Nat.le_add_right _ _, ?_⟩
  show _ ≤ position + byteLength (before ++ c :: after)
  rw [byteLength_append, byteLength]
  omega

/-- A character that is not white space lies in a word. -/
theorem exists_mem_wordsFrom (position : Nat) (hc : isBlank c = false)
    (htext : before ++ c :: after = text) :
    ∃ word ∈ wordsFrom position text, word.span.start ≤ position + byteLength before ∧
      position + byteLength before + c.utf8Size ≤ word.span.stop := by
  induction text using part_induction generalizing position before with
  | last part hpart => exact exists_mem_wordsFrom_part position hpart htext
  | cons part blank rest hpart hblank ih =>
    rw [wordsFrom_append_blank hblank]
    rcases List.append_eq_append_iff.1 htext with
      ⟨shown, hshown, hrest⟩ | ⟨between, rfl, hrest⟩
    · cases shown with
      | nil => exact absurd (List.cons.inj hrest).1.symm (ne_of_isBlank hblank hc)
      | cons d shown =>
        obtain ⟨rfl, -⟩ := List.cons.inj hrest
        obtain ⟨word, hword, hspan⟩ := exists_mem_wordsFrom_part position hpart hshown.symm
        exact ⟨word, List.mem_append_left _ hword, hspan⟩
    · cases between with
      | nil => exact absurd (List.cons.inj hrest).1 (ne_of_isBlank hblank hc)
      | cons d between =>
        obtain ⟨rfl, rfl⟩ := List.cons.inj hrest
        obtain ⟨word, hword, hspan⟩ := ih _ rfl
        refine ⟨word, List.mem_append_right _ hword, ?_⟩
        rw [byteLength_append, byteLength]
        omega

/-- The white space of a text is what stands outside of its words. -/
theorem isBlank_iff_outside_words (htext : before ++ c :: after = text) :
    isBlank c = true ↔ ∀ word ∈ Text.words text,
      byteLength before + c.utf8Size ≤ word.span.start ∨ word.span.stop ≤ byteLength before := by
  constructor
  · intro hc word hword
    subst htext
    exact (mem_words_iff.1 hword).outside_of_blank hc
  · intro houtside
    cases hc : isBlank c with
    | true => rfl
    | false =>
      obtain ⟨word, hword, hstart, hstop⟩ := exists_mem_wordsFrom 0 hc htext
      have hsize := c.utf8Size_pos
      have hside := houtside word hword
      omega

/-- The first word begins with the first character that is not white space. -/
theorem head?_head?_wordsFrom (position : Nat) :
    ((wordsFrom position text).head?.bind fun word ↦ word.text.head?) =
      text.find? fun c ↦ !isBlank c := by
  induction text generalizing position with
  | nil => rfl
  | cons c rest ih =>
    by_cases hc : isBlank c = true
    · rw [wordsFrom_cons_blank hc, ih, List.find?_cons_of_neg]
      rw [hc]
      exact Bool.false_ne_true
    · have hc : isBlank c = false := Bool.eq_false_iff.2 hc
      rw [wordsFrom_cons hc, List.find?_cons_of_pos (by rw [hc]; rfl)]
      obtain ⟨shown, stop, others, hwords, -⟩ :=
        exists_consWord position c (wordsFrom (position + c.utf8Size) rest)
      rw [hwords]
      rfl

/-- A text with a character that is not white space has a first word, which begins with the first
such character. -/
theorem exists_words_of_find? (h : text.find? (fun c ↦ !isBlank c) = some c) :
    ∃ name arguments, Text.words text = name :: arguments ∧ name.text.head? = some c := by
  rw [← head?_head?_wordsFrom 0, Option.bind_eq_some_iff] at h
  obtain ⟨name, hname, hhead⟩ := h
  obtain ⟨arguments, hwords⟩ := List.head?_eq_some_iff.1 hname
  exact ⟨name, arguments, hwords, hhead⟩

end Nabla.Text
