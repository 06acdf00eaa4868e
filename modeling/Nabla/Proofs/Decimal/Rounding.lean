import Nabla.Decimal.Fixed
import Nabla.Proofs.Binary32.ExactValue

/-!
# Rounding to decimal places

What a number is rounded to at a number of decimal places: the multiple of the unit of the last
place that is nearest to its exact value, a tie going to the even multiple (`RoundsTo`). There is
one such multiple (`RoundsTo.unique`), and the units of a fixed text count it (`roundsTo_units`).
-/

namespace Nabla.Decimal

open Binary32 (parts rational? signed)

/-! ### Nearest integers -/

/-- The integer nearest to a number. Of two that are equally near it is the even one. -/
structure IsNearest (n : ℤ) (q : ℚ) : Prop where
  near : |q - n| ≤ 1 / 2
  even : |q - n| = 1 / 2 → Even n

variable {n m : ℤ} {q : ℚ}

/-- Of two nearest integers none is above the other. -/
theorem IsNearest.le (hn : IsNearest n q) (hm : IsNearest m q) : n ≤ m := by
  by_contra hlt
  have hnext : (m : ℚ) + 1 ≤ n := by exact_mod_cast not_le.1 hlt
  have hbelow := (abs_le.1 hn.near).1
  have habove := (abs_le.1 hm.near).2
  -- two nearest integers are neighbours, and the number is in the middle between them
  have hq : q = m + 1 / 2 := by linarith
  have hneighbour : n = m + 1 := by
    have : (n : ℚ) = m + 1 := by linarith
    exact_mod_cast this
  have hmEven : Even m := hm.even (by rw [hq]; norm_num)
  have hnEven : Even n := hn.even (by rw [hq, hneighbour]; norm_num)
  rw [hneighbour] at hnEven
  exact absurd hnEven (Int.not_even_iff_odd.2 hmEven.add_one)

/-- There is one nearest integer, the even one at a tie. -/
theorem IsNearest.unique (hn : IsNearest n q) (hm : IsNearest m q) : n = m :=
  le_antisymm (hn.le hm) (hm.le hn)

/-- An integer is the nearest to itself. -/
theorem isNearest_self (n : ℤ) : IsNearest n n := by
  constructor <;> norm_num

/-- The nearest integer to a negated number is the negated one. -/
theorem IsNearest.neg (h : IsNearest n q) : IsNearest (-n) (-q) := by
  have hsame : |-q - (-n : ℤ)| = |q - n| := by
    rw [Int.cast_neg, ← neg_sub', abs_neg]
  exact ⟨hsame ▸ h.near, fun heq ↦ (h.even (hsame ▸ heq)).neg⟩

/-- An integer less than a half away is the nearest. -/
theorem isNearest_of_lt (h : |q - n| < 1 / 2) : IsNearest n q :=
  ⟨h.le, fun heq ↦ absurd heq h.ne⟩

/-- Halfway to the next number, the even one of the two is nearest. -/
theorem isNearest_half (n : ℕ) : IsNearest (n + n % 2 : ℕ) ((n : ℚ) + 1 / 2) := by
  rcases Nat.mod_two_eq_zero_or_one n with heven | hodd
  · rw [heven]
    refine ⟨by norm_num, fun _ ↦ ?_⟩
    exact_mod_cast Nat.even_iff.2 heven
  · rw [hodd]
    refine ⟨by push_cast; norm_num, fun _ ↦ ?_⟩
    exact_mod_cast (Nat.odd_iff.2 hodd).add_one

/-- A quotient is its integer part and the remainder over the denominator. -/
theorem cast_div_eq_add (numerator denominator : ℕ) :
    (numerator : ℚ) / denominator =
      (numerator / denominator : ℕ) + (numerator % denominator : ℕ) / denominator := by
  have hfloor : ((numerator / denominator : ℕ) : ℤ) = ⌊(numerator : ℚ) / denominator⌋ := by
    rw [Rat.floor_natCast_div_natCast, Int.natCast_div]
  rw [← Int.cast_natCast (numerator / denominator), hfloor,
    ← Int.fract_div_natCast_eq_div_natCast_mod, Int.floor_add_fract]

/-- Rounding half to even finds the nearest integer. -/
theorem isNearest_roundHalfEven (numerator : ℕ) {denominator : ℕ} (hpos : 0 < denominator) :
    IsNearest (roundHalfEven numerator denominator : ℕ) (numerator / denominator) := by
  have hcast : (0 : ℚ) < denominator := by exact_mod_cast hpos
  have hrest : numerator % denominator < denominator := Nat.mod_lt numerator hpos
  rw [cast_div_eq_add]
  unfold roundHalfEven
  generalize numerator / denominator = quotient, numerator % denominator = rest at hrest ⊢
  have hnonneg : 0 ≤ (rest : ℚ) / denominator := by positivity
  have hbelow : (rest : ℚ) / denominator < 1 := by
    rw [div_lt_one hcast]
    exact_mod_cast hrest
  dsimp only
  split
  · rename_i hlow
    have hfraction : (rest : ℚ) / denominator < 1 / 2 := by
      rw [div_lt_div_iff₀ hcast two_pos]
      exact_mod_cast (show rest * 2 < 1 * denominator by omega)
    refine isNearest_of_lt (abs_lt.2 ⟨?_, ?_⟩) <;> push_cast <;> linarith
  · split
    · rename_i hhigh
      have hfraction : 1 / 2 < (rest : ℚ) / denominator := by
        rw [div_lt_div_iff₀ two_pos hcast]
        exact_mod_cast (show 1 * denominator < rest * 2 by omega)
      refine isNearest_of_lt (abs_lt.2 ⟨?_, ?_⟩) <;> push_cast <;> linarith
    · have hfraction : (rest : ℚ) / denominator = 1 / 2 := by
        rw [div_eq_div_iff hcast.ne' two_ne_zero]
        exact_mod_cast (show rest * 2 = 1 * denominator by omega)
      rw [hfraction]
      exact isNearest_half quotient

/-! ### Decimal places -/

/-- What a number is rounded to at a number of decimal places. -/
def RoundsTo (x : Float32) (places : Nat) (value : ℚ) : Prop :=
  ∃ number, rational? x = some number ∧
    ∃ n : ℤ, IsNearest n (number * 10 ^ places) ∧ value = n / 10 ^ places

variable {x : Float32} {places : Nat}

/-- A number is rounded to one value. -/
theorem RoundsTo.unique {value other : ℚ} (h : RoundsTo x places value)
    (hother : RoundsTo x places other) : value = other := by
  obtain ⟨number, hnumber, n, hn, rfl⟩ := h
  obtain ⟨_, hsame, m, hm, rfl⟩ := hother
  cases hnumber.symm.trans hsame
  rw [hn.unique hm]

/-- The units of the last place, with the sign of the number, count the nearest multiple. -/
theorem isNearest_units (negative : Bool) (significand : Nat) (exponent : Int) (places : Nat) :
    IsNearest (signed negative (units significand exponent places))
      (signed negative significand * 2 ^ exponent * 10 ^ places) := by
  have hunsigned : IsNearest (units significand exponent places : ℕ)
      (significand * 2 ^ exponent * 10 ^ places) := by
    unfold units
    split
    · -- without a fraction nothing is rounded
      rename_i hexponent
      obtain ⟨k, rfl⟩ := Int.eq_ofNat_of_zero_le hexponent
      have hexact : (significand : ℚ) * 2 ^ (k : ℤ) * 10 ^ places =
          ((significand * Nat.pow 2 k * Nat.pow 10 places : ℕ) : ℤ) := by
        rw [zpow_natCast, Nat.pow_eq, Nat.pow_eq]
        push_cast
        rfl
      rw [hexact]
      exact isNearest_self _
    · rename_i hexponent
      obtain ⟨k, rfl⟩ : ∃ k : ℕ, exponent = -k := ⟨(-exponent).toNat, by omega⟩
      have hexact : (significand : ℚ) * 2 ^ (-(k : ℤ)) * 10 ^ places =
          (significand * Nat.pow 10 places : ℕ) / (Nat.pow 2 k : ℕ) := by
        rw [zpow_neg, zpow_natCast, Nat.pow_eq, Nat.pow_eq]
        push_cast
        ring
      rw [hexact, neg_neg, Int.toNat_natCast]
      exact isNearest_roundHalfEven _ (Nat.pow_pos Nat.two_pos)
  cases negative with
  | false => exact hunsigned
  | true =>
    have hsigned : (signed true significand : ℚ) * 2 ^ exponent * 10 ^ places =
        -(significand * 2 ^ exponent * 10 ^ places) := by
      show ((-(significand : ℤ) : ℤ) : ℚ) * 2 ^ exponent * 10 ^ places = _
      push_cast
      ring
    rw [hsigned]
    exact hunsigned.neg

/-- A finite number is rounded to its number of last places. -/
theorem roundsTo_units {negative : Bool} {significand : Nat} {exponent : Int}
    (h : parts x = .finite negative significand exponent) (places : Nat) :
    RoundsTo x places (signed negative (units significand exponent places) / 10 ^ places) :=
  ⟨_, Binary32.rational?_of_parts h, _, isNearest_units negative significand exponent places, rfl⟩

end Nabla.Decimal
