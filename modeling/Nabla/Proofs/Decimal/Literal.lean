import Nabla.Decimal.Fixed
import Nabla.Decimal.Numeral

/-!
# Literals

A literal is a text that `Numeral.ofChars?` reads: a digit, and after it digits and at most one
point. The fixed text of a finite number without a sign is one. A literal is read as the same number
where an optional sign and an exponent could stand (`readNumber?_text`).
-/

namespace Nabla.Decimal

/-- The text of an unsigned number: a digit, and after it digits and at most one point. -/
structure Literal where
  first : Char
  rest : List Char
  isDigit_first : first.isDigit = true
  isNumeralChar_rest : ∀ c ∈ rest, isNumeralChar c = true
  count_rest : rest.count '.' ≤ 1

namespace Literal

/-- The characters of a literal. -/
def text (literal : Literal) : List Char := literal.first :: literal.rest

/-- The numeral that a literal denotes. -/
def numeral (literal : Literal) : Numeral :=
  .ofDigits (literal.text.takeWhile (· != '.')) ((literal.text.dropWhile (· != '.')).drop 1)

/-- A literal begins with nothing but a digit. -/
theorem first_ne {literal : Literal} {c : Char} (h : c.isDigit = false) : literal.first ≠ c := by
  rintro rfl
  rw [literal.isDigit_first] at h
  cases h

/-- A literal denotes a numeral, since it has at most one point. -/
theorem ofChars?_text (literal : Literal) :
    Numeral.ofChars? literal.text = some literal.numeral := by
  have hcount : literal.text.count '.' ≤ 1 := by
    rw [text, List.count_cons_of_ne (first_ne (by decide))]
    exact literal.count_rest
  rw [← List.takeWhile_append_dropWhile (p := (· != '.')) (l := literal.text),
    List.count_append] at hcount
  have hfraction : ((literal.text.dropWhile (· != '.')).drop 1).contains '.' = false := by
    cases hdrop : literal.text.dropWhile (· != '.') with
    | nil => rfl
    | cons c fraction =>
      have hpoint : c = '.' := by
        have hne : literal.text.dropWhile (· != '.') ≠ [] := by
          rw [hdrop]
          exact List.cons_ne_nil c fraction
        have hhead := List.head_dropWhile_not (· != '.') hne
        simpa [hdrop] using hhead
      rw [hdrop, hpoint, List.count_cons_self] at hcount
      have hnone : fraction.count '.' = 0 := by omega
      simpa [List.count_eq_zero] using hnone
  unfold Numeral.ofChars?
  simp only [hfraction]
  rfl

/-- A literal is made of digits, and possibly of a point and further digits after them. -/
theorem exists_parts (literal : Literal) :
    ∃ integer fraction : List Char, literal.text = integer ++ fraction ∧ integer ≠ [] ∧
      (∀ c ∈ integer, c.isDigit = true) ∧ (∀ c ∈ fraction.head?, c = '.') ∧
      ∀ c ∈ fraction.tail, c.isDigit = true := by
  obtain ⟨first, rest, hfirst, hrest, hcount⟩ := literal
  refine ⟨first :: rest.takeWhile Char.isDigit, rest.dropWhile Char.isDigit, ?_,
    List.cons_ne_nil _ _, List.forall_mem_cons.2 ⟨hfirst, List.all_eq_true.1 List.all_takeWhile⟩,
    ?_⟩
  · rw [List.cons_append, List.takeWhile_append_dropWhile]
    rfl
  · have hsublist := List.dropWhile_sublist Char.isDigit (l := rest)
    have hhead := List.head?_dropWhile_not Char.isDigit rest
    cases hdrop : rest.dropWhile Char.isDigit with
    | nil => exact ⟨fun c hc ↦ (nomatch hc), fun c hc ↦ (nomatch hc)⟩
    | cons point digits =>
      rw [hdrop] at hsublist hhead
      have hpoint : point = '.' := by
        have hnumeral := hrest point (hsublist.subset List.mem_cons_self)
        simpa [isNumeralChar, show point.isDigit = false from hhead] using hnumeral
      subst hpoint
      have hnone : digits.count '.' = 0 := by
        have hle := hsublist.count_le '.'
        rw [List.count_cons_self] at hle
        omega
      refine ⟨fun c hc ↦ (Option.some.inj hc).symm, fun c hc ↦ ?_⟩
      have hne : c ≠ '.' := fun heq ↦ List.count_eq_zero.1 hnone (heq ▸ hc)
      have hnumeral := hrest c (hsublist.subset (List.mem_cons_of_mem _ hc))
      simpa [isNumeralChar, hne] using hnumeral

end Literal

/-! ### Reading literals -/

/-- A text is split at the first character that does not have a property. -/
theorem span_eq {p : Char → Bool} {front rest : List Char} (hfront : ∀ c ∈ front, p c = true)
    (hrest : ∀ c ∈ rest.head?, p c = false) :
    (front ++ rest).takeWhile p = front ∧ (front ++ rest).dropWhile p = rest := by
  rw [List.takeWhile_append_of_pos hfront, List.dropWhile_append_of_pos hfront]
  cases rest with
  | nil => exact ⟨List.append_nil front, rfl⟩
  | cons c rest =>
    have hc : p c = false := hrest c rfl
    rw [List.takeWhile_cons_of_neg (by simp [hc]), List.dropWhile_cons_of_neg (by simp [hc])]
    exact ⟨List.append_nil front, rfl⟩

/-- There is no point among digits. -/
theorem point_notMem {text : List Char} (h : ∀ c ∈ text, c.isDigit = true) : '.' ∉ text := by
  intro hpoint
  cases h '.' hpoint

/-- A text is split at the first point. -/
theorem span_point {integer fraction : List Char} (hinteger : '.' ∉ integer)
    (hfraction : ∀ c ∈ fraction.head?, c = '.') :
    (integer ++ fraction).takeWhile (· != '.') = integer ∧
      (integer ++ fraction).dropWhile (· != '.') = fraction := by
  refine span_eq (fun c hc ↦ bne_iff_ne.2 fun heq ↦ hinteger (heq ▸ hc)) fun c hc ↦ ?_
  rw [hfraction c hc]
  rfl

/-- A digit is the same in lower case. -/
theorem toLower_of_isDigit {c : Char} (h : c.isDigit = true) : c.toLower = c := by
  unfold Char.isDigit at h
  unfold Char.toLower
  refine dif_neg fun hupper ↦ ?_
  obtain ⟨-, hle⟩ := Bool.and_eq_true_iff.1 h
  have hbelow : c.val ≤ '9'.val := of_decide_eq_true hle
  exact absurd (UInt32.le_trans hupper.1 hbelow) (by decide)

/-- In lower case too, a literal begins with a digit. -/
theorem Literal.map_toLower_text_ne (literal : Literal) {name : List Char}
    (hletter : name.head?.any Char.isDigit = false) : literal.text.map Char.toLower ≠ name := by
  rintro rfl
  change literal.first.toLower.isDigit = false at hletter
  rw [toLower_of_isDigit literal.isDigit_first, literal.isDigit_first] at hletter
  cases hletter

/-- A literal is read as the number it denotes. -/
theorem Literal.readNumber?_text (literal : Literal) :
    readNumber? literal.text = some literal.numeral.value := by
  obtain ⟨integer, fraction, htext, hne, hinteger, hpoint, hdigits⟩ := literal.exists_parts
  have hbefore : literal.text.takeWhile Char.isDigit = integer ∧
      literal.text.dropWhile Char.isDigit = fraction := by
    rw [htext]
    refine span_eq hinteger fun c hc ↦ ?_
    rw [hpoint c hc]
    rfl
  have hread : readFraction fraction = (fraction.tail, []) := by
    cases fraction with
    | nil => rfl
    | cons point digits =>
      obtain rfl := hpoint point rfl
      have hspan := @span_eq _ digits [] hdigits fun c hc ↦ (nomatch hc)
      rw [List.append_nil] at hspan
      exact Prod.ext hspan.1 hspan.2
  have hnumeral : literal.numeral = .ofDigits integer fraction.tail := by
    have hspan := span_point (point_notMem hinteger) hpoint
    rw [Literal.numeral, htext, hspan.1, hspan.2, List.drop_one]
  have hempty : integer.isEmpty = false := by
    rwa [Bool.eq_false_iff, Ne, List.isEmpty_iff]
  have hunsigned : readUnsigned? literal.text = some literal.numeral.value := by
    unfold readUnsigned?
    -- the names of infinity and not-a-number begin with a letter
    rw [if_neg (not_or.2 ⟨literal.map_toLower_text_ne rfl, literal.map_toLower_text_ne rfl⟩),
      if_neg (literal.map_toLower_text_ne rfl)]
    simp only [hbefore.1, hbefore.2, hread, hempty, Bool.false_and]
    rw [hnumeral, if_neg Bool.false_ne_true, readExponent?, Option.map_some, Int.zero_sub]
    rfl
  unfold readNumber?
  split
  · rename_i heq
    exact absurd (List.cons.inj heq).1 (Literal.first_ne rfl)
  · rename_i heq
    exact absurd (List.cons.inj heq).1 (Literal.first_ne rfl)
  · exact hunsigned

/-! ### Fixed texts -/

/-- The last digits of a number are digits. -/
theorem isDigit_of_mem_lastDigits {count value : Nat} {c : Char} (h : c ∈ lastDigits count value) :
    c.isDigit = true := by
  induction count generalizing value with
  | zero => cases h
  | succ count ih =>
    rcases List.mem_append.1 h with h | h
    · exact ih h
    · obtain rfl := List.mem_singleton.1 h
      rw [Nat.isDigit_digitChar]
      exact decide_eq_true (Nat.mod_lt value (by omega))

/-- A digit can be part of a numeral. -/
theorem isNumeralChar_of_isDigit {c : Char} (h : c.isDigit = true) : isNumeralChar c = true := by
  rw [isNumeralChar, h]
  rfl

/-- There are as many last digits as are asked for. -/
theorem length_lastDigits (count value : Nat) : (lastDigits count value).length = count := by
  induction count generalizing value with
  | zero => rfl
  | succ count ih => rw [lastDigits, List.length_append, ih, List.length_singleton]

/-- There is no point in a sign. -/
theorem point_notMem_signText (negative : Bool) : '.' ∉ signText negative := by
  cases negative <;> decide

/-- A numeral has as many places as it has characters after the point. -/
theorem Numeral.places_of_ofChars? {text : List Char} {numeral : Numeral}
    (h : Numeral.ofChars? text = some numeral) :
    numeral.places = ((text.dropWhile (· != '.')).drop 1).length := by
  obtain ⟨-, h⟩ := Option.ite_none_left_eq_some.1 h
  obtain rfl := Option.some.inj h
  rfl

/-- The fixed text of a finite number shows the number of places it was written with. -/
theorem places_of_fixedChars {x : Float32} {negative : Bool} {significand : Nat} {exponent : Int}
    (h : Binary32.parts x = .finite negative significand exponent) {places : Nat}
    {numeral : Numeral} (hread : Numeral.ofChars? (fixedChars x places) = some numeral) :
    numeral.places = places := by
  let integer := signText negative ++
    Nat.toDigits 10 (units significand exponent places / Nat.pow 10 places)
  let fraction : List Char :=
    if places = 0 then [] else '.' :: lastDigits places (units significand exponent places)
  have htext : fixedChars x places = integer ++ fraction := by
    rw [fixedChars, h]
    exact (List.append_assoc _ _ _).symm
  have hinteger : '.' ∉ integer := by
    refine fun hpoint ↦ (List.mem_append.1 hpoint).elim (point_notMem_signText negative) ?_
    exact point_notMem fun c hc ↦ Nat.isDigit_of_mem_toDigits (by decide) (by decide) hc
  have hfraction : ∀ c ∈ fraction.head?, c = '.' := by
    unfold fraction
    split
    · exact fun c hc ↦ nomatch hc
    · rintro c ⟨⟩
      rfl
  rw [Numeral.places_of_ofChars? hread, htext, (span_point hinteger hfraction).2]
  unfold fraction
  split
  · rename_i hzero
    exact hzero.symm
  · exact length_lastDigits places _

/-- Digits, or digits with a point and further digits after them, are a literal. -/
theorem exists_literal {integer fraction : List Char} (hne : integer ≠ [])
    (hinteger : ∀ c ∈ integer, c.isDigit = true)
    (hfraction : fraction = [] ∨
      ∃ digits, fraction = '.' :: digits ∧ ∀ c ∈ digits, c.isDigit = true) :
    ∃ literal : Literal, literal.text = integer ++ fraction := by
  obtain ⟨first, rest, rfl⟩ := List.exists_cons_of_ne_nil hne
  obtain ⟨hfirst, hrest⟩ := List.forall_mem_cons.1 hinteger
  have hcount : fraction.count '.' ≤ 1 := by
    rcases hfraction with rfl | ⟨digits, rfl, hdigits⟩
    · exact Nat.zero_le 1
    · have hone : ('.' :: digits).count '.' = 1 := by
        rw [List.count_cons_self, List.count_eq_zero.2 (point_notMem hdigits)]
      exact Nat.le_of_eq hone
  have hchars : ∀ c ∈ fraction, isNumeralChar c = true := by
    rcases hfraction with rfl | ⟨digits, rfl, hdigits⟩
    · exact fun c hc ↦ absurd hc List.not_mem_nil
    · exact List.forall_mem_cons.2 ⟨rfl, fun c hc ↦ isNumeralChar_of_isDigit (hdigits c hc)⟩
  refine ⟨⟨first, rest ++ fraction, hfirst, fun c hc ↦ ?_, ?_⟩, rfl⟩
  · rcases List.mem_append.1 hc with hc | hc
    · exact isNumeralChar_of_isDigit (hrest c hc)
    · exact hchars c hc
  · rw [List.count_append, List.count_eq_zero.2 (point_notMem hrest)]
    omega

/-- The fixed text of a finite number without a sign is a literal. -/
theorem exists_literal_fixedChars {x : Float32} {significand : Nat} {exponent : Int}
    (h : Binary32.parts x = .finite false significand exponent) (places : Nat) :
    ∃ literal : Literal, literal.text = fixedChars x places := by
  rw [fixedChars, h]
  show ∃ literal : Literal, literal.text = [] ++ unitsText places _
  rw [List.nil_append, unitsText]
  refine exists_literal Nat.toDigits_ne_nil
    (fun c hc ↦ Nat.isDigit_of_mem_toDigits (by decide) (by decide) hc) ?_
  by_cases hplaces : places = 0
  · exact .inl (if_pos hplaces)
  · exact .inr ⟨_, if_neg hplaces, fun c hc ↦ isDigit_of_mem_lastDigits hc⟩

end Nabla.Decimal
