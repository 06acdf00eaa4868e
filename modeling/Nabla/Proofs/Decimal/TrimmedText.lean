import Nabla.Proofs.Decimal.Literal
import Nabla.Proofs.Decimal.Rounding

/-!
# Trimmed texts

A text with a fixed number of decimal places has a sign, integer digits and fraction digits
(`DecimalText`), and it denotes the decimal number that these digits count (`exactNumber?_chars`).
Trimming such a text drops the zeros at the end of its fraction (`trim_chars`), which leaves the
number as it was. Two numbers therefore have one trimmed text exactly when they are rounded to the
same decimal number.
-/

namespace Nabla.Decimal

open Binary32 (signed)

/-! ### The number that a text denotes -/

/-- A sign in front of a text, and the rest of the text. -/
def splitSign : List Char → Bool × List Char
  | '-' :: text => (true, text)
  | text => (false, text)

/-- The characters before the point, without the sign. -/
def integerPart (text : List Char) : List Char :=
  (splitSign text).2.takeWhile (· != '.')

/-- The characters after the point. -/
def fractionPart (text : List Char) : List Char :=
  ((splitSign text).2.dropWhile (· != '.')).drop 1

/-- The decimal number that a text denotes: an optional sign and at least one digit, with further
digits after an optional point. -/
def exactNumber? (text : List Char) : Option ℚ :=
  let digits := integerPart text ++ fractionPart text
  if integerPart text ≠ [] ∧ ∀ c ∈ digits, c.isDigit = true then
    some (signed (splitSign text).1 (digitsValue digits) / 10 ^ (fractionPart text).length)
  else none

/-- A text without a zero at the end of its fraction and without a point at its end, which is not a
zero with a sign. -/
structure IsTrimmed (text : List Char) : Prop where
  zero : '.' ∈ text → text.getLast? ≠ some '0'
  point : text.getLast? ≠ some '.'
  sign : text ≠ ['-', '0']

/-! ### Digits -/

/-- More digits shift the value of the ones in front of them to the left. -/
theorem digitsValue_append (front rest : List Char) :
    digitsValue (front ++ rest) = digitsValue front * 10 ^ rest.length + digitsValue rest := by
  rw [Nat.mul_comm]
  exact (Nat.ofDigitChars_append 0).trans Nat.ofDigitChars_eq_ofDigitChars_zero

/-- The decimal digits of a number have its value. -/
theorem digitsValue_toDigits (value : Nat) : digitsValue (Nat.toDigits 10 value) = value :=
  Nat.ofDigitChars_toDigits (by decide) (by decide)

/-- The last digits of a number are those of its remainder. -/
theorem digitsValue_lastDigits (count value : Nat) :
    digitsValue (lastDigits count value) = value % 10 ^ count := by
  induction count generalizing value with
  | zero => exact (Nat.mod_one value).symm
  | succ count ih =>
    have hlast : digitsValue [Nat.digitChar (value % 10)] = value % 10 := by
      have hten : value % 10 < 10 := Nat.mod_lt value (by decide)
      show 10 * 0 + ((value % 10).digitChar.toNat - 48) = value % 10
      rw [Nat.toNat_digitChar_sub_48_of_lt_ten hten, Nat.mul_zero, Nat.zero_add]
    rw [lastDigits, digitsValue_append, ih, hlast, List.length_singleton, Nat.pow_one,
      Nat.pow_succ', Nat.mod_mul]
    omega

/-- All the last digits of zero are zeros. -/
theorem lastDigits_zero (count : Nat) : lastDigits count 0 = List.replicate count '0' := by
  induction count with
  | zero => rfl
  | succ count ih =>
    rw [List.replicate_succ', ← ih]
    rfl

/-! ### Dropping at the end -/

/-- A character at the end that is to be dropped makes no difference. -/
theorem dropTrailing_concat_self (c : Char) (text : List Char) :
    dropTrailing c (text ++ [c]) = dropTrailing c text :=
  List.rdropWhile_concat_pos _ text c (beq_self_eq_true c)

/-- Nothing is dropped in front of another character at the end. -/
theorem dropTrailing_concat_of_ne {c d : Char} (h : d ≠ c) (text : List Char) :
    dropTrailing c (text ++ [d]) = text ++ [d] :=
  List.rdropWhile_concat_neg _ text d (by rwa [beq_iff_eq])

/-- Nothing is dropped of a text that does not end with the character. -/
theorem dropTrailing_eq_self {c : Char} {text : List Char} (h : text.getLast? ≠ some c) :
    dropTrailing c text = text := by
  induction text using List.reverseRecOn with
  | nil => rfl
  | append_singleton text d =>
    rw [List.getLast?_concat] at h
    exact dropTrailing_concat_of_ne (fun heq ↦ h (congrArg some heq)) text

/-- The character is no longer at the end after it is dropped. -/
theorem getLast?_dropTrailing_ne (c : Char) (text : List Char) :
    (dropTrailing c text).getLast? ≠ some c := by
  induction text using List.reverseRecOn with
  | nil => exact fun hlast ↦ nomatch hlast
  | append_singleton text d ih =>
    by_cases hd : d = c
    · rwa [hd, dropTrailing_concat_self]
    · rw [dropTrailing_concat_of_ne hd, List.getLast?_concat]
      exact fun heq ↦ hd (Option.some.inj heq)

/-- What is dropped at the end of a text is the one character, repeated. -/
theorem exists_eq_dropTrailing_append (c : Char) (text : List Char) :
    ∃ count, text = dropTrailing c text ++ List.replicate count c := by
  induction text using List.reverseRecOn with
  | nil => exact ⟨0, rfl⟩
  | append_singleton text d ih =>
    by_cases hd : d = c
    · obtain ⟨count, htext⟩ := ih
      refine ⟨count + 1, ?_⟩
      rw [hd, dropTrailing_concat_self, List.replicate_succ', ← List.append_assoc, ← htext]
    · refine ⟨0, ?_⟩
      rw [dropTrailing_concat_of_ne hd, List.replicate_zero, List.append_nil]

/-- Dropping stops at the last character that is another one. -/
theorem dropTrailing_append {c : Char} {front : List Char} (h : front.getLast? ≠ some c)
    (rest : List Char) : dropTrailing c (front ++ rest) = front ++ dropTrailing c rest := by
  induction rest using List.reverseRecOn with
  | nil =>
    rw [List.append_nil, dropTrailing_eq_self h]
    exact (List.append_nil front).symm
  | append_singleton rest d ih =>
    rw [← List.append_assoc]
    by_cases hd : d = c
    · rw [hd, dropTrailing_concat_self, dropTrailing_concat_self, ih]
    · rw [dropTrailing_concat_of_ne hd, dropTrailing_concat_of_ne hd, List.append_assoc]

/-! ### Zero without a sign -/

/-- What a text says of a number does not change when zero loses its sign. -/
theorem exactNumber?_unsignZero (text : List Char) :
    exactNumber? (unsignZero text) = exactNumber? text := by
  unfold unsignZero
  split
  · rename_i hzero
    rw [hzero]
    have hdigit : digitsValue ['0'] = 0 := rfl
    simp [exactNumber?, integerPart, fractionPart, splitSign, signed, hdigit]
  · rfl

/-- The sign of a zero is not in front of its integer part. -/
theorem integerPart_unsignZero (text : List Char) :
    integerPart (unsignZero text) = integerPart text := by
  unfold unsignZero
  split
  · rename_i hzero
    rw [hzero]
    rfl
  · rfl

/-- A text without zeros and points at its end is trimmed once the sign of a zero is gone. -/
theorem isTrimmed_unsignZero {text : List Char} (hzero : '.' ∈ text → text.getLast? ≠ some '0')
    (hpoint : text.getLast? ≠ some '.') : IsTrimmed (unsignZero text) := by
  unfold unsignZero
  split
  · exact ⟨by decide, by decide, by decide⟩
  · rename_i hne
    exact ⟨hzero, hpoint, hne⟩

/-! ### The parts of a decimal text -/

/-- The parts of a decimal text: a sign, integer digits and fraction digits. -/
structure DecimalText where
  negative : Bool
  integer : List Char
  fraction : List Char
  integer_ne_nil : integer ≠ []
  isDigit_integer : ∀ c ∈ integer, c.isDigit = true
  isDigit_fraction : ∀ c ∈ fraction, c.isDigit = true

namespace DecimalText

/-- The characters of a decimal text after its integer digits. -/
def tail (t : DecimalText) : List Char :=
  if t.fraction = [] then [] else '.' :: t.fraction

/-- The characters of a decimal text. -/
def chars (t : DecimalText) : List Char := signText t.negative ++ (t.integer ++ t.tail)

/-- The decimal number that the digits of a text count. -/
def value (t : DecimalText) : ℚ :=
  signed t.negative (digitsValue (t.integer ++ t.fraction)) / 10 ^ t.fraction.length

variable (t : DecimalText)

/-- Without digits behind the point there is no point. -/
theorem chars_of_eq_nil {t : DecimalText} (h : t.fraction = []) :
    t.chars = signText t.negative ++ t.integer := by
  rw [chars, tail, if_pos h, List.append_nil]

/-- The digits behind the point are the end of the text. -/
theorem chars_of_ne_nil {t : DecimalText} (h : t.fraction ≠ []) :
    t.chars = (signText t.negative ++ t.integer ++ ['.']) ++ t.fraction := by
  rw [chars, tail, if_neg h, List.append_assoc, List.append_assoc, List.singleton_append]

/-- The sign of a text is told from its digits. -/
theorem splitSign_chars : splitSign t.chars = (t.negative, t.integer ++ t.tail) := by
  obtain ⟨first, rest, hinteger⟩ := List.exists_cons_of_ne_nil t.integer_ne_nil
  have hfirst : first ≠ '-' := by
    rintro rfl
    have hdigit := t.isDigit_integer '-' (by rw [hinteger]; exact List.mem_cons_self)
    cases hdigit
  unfold chars
  cases t.negative with
  | true => rfl
  | false =>
    rw [hinteger]
    exact splitSign.eq_2 _ fun _ heq ↦ hfirst (List.cons.inj heq).1

/-- The digits in front of the point end at it. -/
theorem span_tail : (t.integer ++ t.tail).takeWhile (· != '.') = t.integer ∧
    (t.integer ++ t.tail).dropWhile (· != '.') = t.tail := by
  refine span_point (point_notMem t.isDigit_integer) ?_
  unfold tail
  split
  · exact fun c hc ↦ nomatch hc
  · rintro c ⟨⟩
    rfl

/-- The integer part is read off the text. -/
theorem integerPart_chars : integerPart t.chars = t.integer := by
  rw [integerPart, splitSign_chars, t.span_tail.1]

/-- The digits behind the point are read off the text. -/
theorem fractionPart_chars : fractionPart t.chars = t.fraction := by
  rw [fractionPart, splitSign_chars, t.span_tail.2, tail]
  split
  · rename_i hnil
    exact hnil.symm
  · rfl

/-- There are only digits in front of the point and behind it. -/
theorem isDigit_of_mem {t : DecimalText} {c : Char} (h : c ∈ t.integer ++ t.fraction) :
    c.isDigit = true :=
  (List.mem_append.1 h).elim (t.isDigit_integer c) (t.isDigit_fraction c)

/-- The value of the parts is the number that the text stands for. -/
theorem exactNumber?_chars : exactNumber? t.chars = some t.value := by
  have hdigits : t.integer ≠ [] ∧ ∀ c ∈ t.integer ++ t.fraction, c.isDigit = true :=
    ⟨t.integer_ne_nil, fun _ ↦ isDigit_of_mem⟩
  simp only [exactNumber?, integerPart_chars, fractionPart_chars, splitSign_chars]
  exact if_pos hdigits

/-- The text ends in the last digit of its fraction, or of its integer part if there is none. -/
theorem getLast?_chars :
    t.chars.getLast? = if t.fraction = [] then t.integer.getLast? else t.fraction.getLast? := by
  split
  · rename_i hnil
    rw [chars_of_eq_nil hnil, List.getLast?_append_of_ne_nil _ t.integer_ne_nil]
  · rename_i hne
    rw [chars_of_ne_nil hne, List.getLast?_append_of_ne_nil _ hne]

/-- The last character of the text is a digit. -/
theorem getLast?_chars_ne {c : Char} (h : c.isDigit = false) : t.chars.getLast? ≠ some c := by
  intro hlast
  have hmem : c ∈ t.integer ++ t.fraction := by
    rw [getLast?_chars] at hlast
    split at hlast
    · exact List.mem_append_left _ (List.mem_of_getLast? hlast)
    · exact List.mem_append_right _ (List.mem_of_getLast? hlast)
  exact Bool.false_ne_true (h.symm.trans (isDigit_of_mem hmem))

/-- There is a point in the text exactly if there are digits behind it. -/
theorem point_mem_chars : '.' ∈ t.chars ↔ t.fraction ≠ [] := by
  constructor
  · rintro hmem hnil
    rw [chars_of_eq_nil hnil] at hmem
    rcases List.mem_append.1 hmem with hsign | hinteger
    · exact point_notMem_signText t.negative hsign
    · exact point_notMem t.isDigit_integer hinteger
  · intro hne
    rw [chars_of_ne_nil hne]
    exact List.mem_append_left _ (List.mem_append_right _ List.mem_cons_self)

/-! ### Trimming -/

/-- A decimal text without the zeros at the end of its fraction. -/
def dropZeros : DecimalText :=
  { t with
    fraction := dropTrailing '0' t.fraction
    isDigit_fraction := fun c hc ↦
      t.isDigit_fraction c ((List.rdropWhile_prefix _ _).subset hc) }

/-- Zeros at the end behind the point have no value. -/
theorem value_dropZeros : t.dropZeros.value = t.value := by
  obtain ⟨count, hfraction⟩ := exists_eq_dropTrailing_append '0' t.fraction
  have hzeros : digitsValue (List.replicate count '0') = 0 := by
    rw [← lastDigits_zero, digitsValue_lastDigits, Nat.zero_mod]
  have hdigits : digitsValue (t.integer ++ t.fraction) =
      digitsValue (t.integer ++ dropTrailing '0' t.fraction) * 10 ^ count := by
    conv_lhs => rw [hfraction]
    rw [← List.append_assoc, digitsValue_append, hzeros, List.length_replicate, Nat.add_zero]
  have hlength : t.fraction.length = (dropTrailing '0' t.fraction).length + count := by
    conv_lhs => rw [hfraction]
    rw [List.length_append, List.length_replicate]
  have hsigned : ∀ n : Nat, (signed t.negative (n * 10 ^ count) : ℚ) =
      signed t.negative n * 10 ^ count := by
    intro n
    cases t.negative <;> simp [signed]
  show (signed t.negative (digitsValue (t.integer ++ dropTrailing '0' t.fraction)) : ℚ) /
    10 ^ (dropTrailing '0' t.fraction).length = _
  rw [value, hdigits, hlength, hsigned, pow_add]
  exact (mul_div_mul_right _ _ (by positivity)).symm

/-- Trimming drops the zeros at the end of the fraction, and the sign of a zero. -/
theorem trim_chars : trim t.chars = unsignZero t.dropZeros.chars := by
  have hcontains : t.chars.contains '.' = true ↔ t.fraction ≠ [] :=
    List.contains_iff_mem.trans t.point_mem_chars
  unfold trim
  by_cases hnil : t.fraction = []
  · have hsame : t.dropZeros = t := by
      unfold dropZeros
      congr
      rw [hnil]
      rfl
    rw [if_neg (mt hcontains.1 (not_not.2 hnil)), hsame]
  · rw [if_pos (hcontains.2 hnil)]
    have hpoint : (signText t.negative ++ t.integer ++ ['.']).getLast? ≠ some '0' := by
      rw [List.getLast?_concat]
      decide
    rw [chars_of_ne_nil hnil, dropTrailing_append hpoint]
    congr 1
    by_cases hzeros : dropTrailing '0' t.fraction = []
    · -- nothing is left after the point, which is dropped too
      have hshort : t.dropZeros.chars = signText t.negative ++ t.integer := chars_of_eq_nil hzeros
      rw [hzeros, List.append_nil, dropTrailing_concat_self, ← hshort]
      exact dropTrailing_eq_self (t.dropZeros.getLast?_chars_ne rfl)
    · have hshort : t.dropZeros.chars =
          signText t.negative ++ t.integer ++ ['.'] ++ dropTrailing '0' t.fraction :=
        chars_of_ne_nil hzeros
      rw [← hshort]
      exact dropTrailing_eq_self (t.dropZeros.getLast?_chars_ne rfl)

/-- A trimmed text stands for the same number. -/
theorem exactNumber?_trim : exactNumber? (trim t.chars) = some t.value := by
  rw [trim_chars, exactNumber?_unsignZero, exactNumber?_chars, value_dropZeros]

/-- Trimming keeps the integer part. -/
theorem integerPart_trim : integerPart (trim t.chars) = t.integer := by
  rw [trim_chars, integerPart_unsignZero, integerPart_chars]
  rfl

/-- What is trimmed has no sign at a zero and no zero at its end behind the point. -/
theorem isTrimmed_trim : IsTrimmed (trim t.chars) := by
  rw [trim_chars]
  refine isTrimmed_unsignZero (fun hpoint ↦ ?_) (t.dropZeros.getLast?_chars_ne rfl)
  rw [getLast?_chars, if_neg (t.dropZeros.point_mem_chars.1 hpoint)]
  exact getLast?_dropTrailing_ne '0' t.fraction

/-! ### Units of the last place -/

/-- The text of a number of units of the last decimal place, with a sign. -/
def ofUnits (negative : Bool) (places value : Nat) : DecimalText where
  negative := negative
  integer := Nat.toDigits 10 (value / Nat.pow 10 places)
  fraction := lastDigits places value
  integer_ne_nil := Nat.toDigits_ne_nil
  isDigit_integer := fun _ hc ↦ Nat.isDigit_of_mem_toDigits (by decide) (by decide) hc
  isDigit_fraction := fun _ hc ↦ isDigit_of_mem_lastDigits hc

variable {negative : Bool} {places value : Nat}

/-- The text of a number of units is its sign in front of its digits. -/
theorem chars_ofUnits :
    (ofUnits negative places value).chars = signText negative ++ unitsText places value := by
  have hnil : lastDigits places value = [] ↔ places = 0 := by
    rw [← List.length_eq_zero_iff, length_lastDigits]
  simp only [chars, tail, ofUnits, unitsText, hnil]

/-- The value of a number of units is that number of last places. -/
theorem value_ofUnits :
    (ofUnits negative places value).value = signed negative value / 10 ^ places := by
  have hdigits : digitsValue (Nat.toDigits 10 (value / Nat.pow 10 places) ++
      lastDigits places value) = value := by
    rw [digitsValue_append, digitsValue_toDigits, digitsValue_lastDigits, length_lastDigits]
    exact Nat.div_add_mod' value (10 ^ places)
  simp only [DecimalText.value, ofUnits, hdigits, length_lastDigits]

/-- Trimmed, a zero has no sign and no fraction. -/
theorem trim_ofUnits_zero : trim (ofUnits negative places 0).chars = ['0'] := by
  have hfraction : dropTrailing '0' (lastDigits places 0) = [] := by
    rw [lastDigits_zero]
    exact List.rdropWhile_eq_nil_iff.2 fun c hc ↦ beq_iff_eq.2 (List.eq_of_mem_replicate hc)
  have hinteger : (ofUnits negative places 0).integer = ['0'] := by
    show Nat.toDigits 10 (0 / Nat.pow 10 places) = ['0']
    rw [Nat.zero_div]
    rfl
  have hchars : (ofUnits negative places 0).dropZeros.chars = signText negative ++ ['0'] := by
    rw [← hinteger]
    exact chars_of_eq_nil hfraction
  rw [trim_chars, hchars]
  cases negative <;> rfl

end DecimalText

/-! ### Trimmed numbers -/

variable {x : Float32}

/-- The fixed text of a finite number shows the decimal number it is rounded to. -/
theorem exists_ofUnits_of_isFinite (h : x.isFinite = true) (places : Nat) :
    ∃ negative value, fixedChars x places = (DecimalText.ofUnits negative places value).chars ∧
      RoundsTo x places (signed negative value / 10 ^ places) := by
  obtain ⟨negative, significand, exponent, hparts⟩ := Binary32.exists_parts_of_isFinite h
  refine ⟨negative, units significand exponent places, ?_, roundsTo_units hparts places⟩
  rw [fixedChars, hparts, DecimalText.chars_ofUnits]

/-- Signed numbers are equal when their parts are, or when both are zero. -/
theorem signed_eq_signed {negative negative' : Bool} {value value' : Nat}
    (h : signed negative value = signed negative' value') :
    negative = negative' ∧ value = value' ∨ value = 0 ∧ value' = 0 := by
  cases negative <;> cases negative' <;> simp [signed] at h ⊢ <;> omega

/-- Trimmed texts of finite numbers are canonical. Trimming a fixed text does not change the decimal
number that it denotes, which is what the number is rounded to, nor any digit of its integer part;
it leaves no zero at the end of a fraction, no point at the end, and no sign on a zero. Two numbers
have the same trimmed text exactly when they are rounded to the same decimal number. -/
theorem trimmed_canonical {a b : Float32} (ha : a.isFinite = true) (hb : b.isFinite = true)
    (places : Nat) :
    (∃ value, RoundsTo a places value ∧ exactNumber? (fixed a places).toList = some value ∧
      exactNumber? (trimmed a places).toList = some value) ∧
    integerPart (trimmed a places).toList = integerPart (fixed a places).toList ∧
    IsTrimmed (trimmed a places).toList ∧
    (trimmed a places = trimmed b places ↔
      ∃ value, RoundsTo a places value ∧ RoundsTo b places value) := by
  obtain ⟨negative, value, hchars, hrounds⟩ := exists_ofUnits_of_isFinite ha places
  obtain ⟨negative', value', hchars', hrounds'⟩ := exists_ofUnits_of_isFinite hb places
  have hvalue := DecimalText.exactNumber?_trim (.ofUnits negative places value)
  have hvalue' := DecimalText.exactNumber?_trim (.ofUnits negative' places value')
  rw [DecimalText.value_ofUnits] at hvalue hvalue'
  simp only [trimmed, fixed, String.toList_ofList, String.ofList_inj, hchars, hchars']
  refine ⟨⟨_, hrounds, ?_, hvalue⟩, ?_, DecimalText.isTrimmed_trim _, ?_, ?_⟩
  · rw [DecimalText.exactNumber?_chars, DecimalText.value_ofUnits]
  · rw [DecimalText.integerPart_trim, DecimalText.integerPart_chars]
  · intro htexts
    rw [htexts, hvalue'] at hvalue
    exact ⟨_, hrounds, Option.some.inj hvalue ▸ hrounds'⟩
  · rintro ⟨common, hcommon, hcommon'⟩
    have heq := (hrounds.unique hcommon).trans (hrounds'.unique hcommon').symm
    have hsigned : signed negative value = signed negative' value' := by
      rw [div_left_inj' (by positivity)] at heq
      exact_mod_cast heq
    -- two zeros can differ in their sign, which trimming drops
    obtain ⟨rfl, rfl⟩ | ⟨rfl, rfl⟩ := signed_eq_signed hsigned
    · rfl
    · rw [DecimalText.trim_ofUnits_zero, DecimalText.trim_ofUnits_zero]

/-- Numbers on both sides of zero that are rounded to it have one trimmed text, without a sign. -/
theorem trimmed_canonical_rounded_to_zero :
    trimmed (-0.001) 2 = "0" ∧ trimmed 0.004 2 = "0" ∧ fixed (-0.001) 2 = "-0.00" ∧
      ∃ value, RoundsTo (-0.001) 2 value ∧ RoundsTo 0.004 2 value := by
  have hnegative : trimmed (-0.001) 2 = "0" := by decide +kernel
  have hpositive : trimmed 0.004 2 = "0" := by decide +kernel
  have hcanonical := trimmed_canonical (a := -0.001) (b := 0.004) (by decide +kernel)
    (by decide +kernel) 2
  exact ⟨hnegative, hpositive, by decide +kernel,
    hcanonical.2.2.2.1 (hnegative.trans hpositive.symm)⟩

end Nabla.Decimal
