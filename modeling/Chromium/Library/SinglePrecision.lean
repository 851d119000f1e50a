import Mathlib.Data.Int.Log
import Mathlib.Data.Rat.Floor

/-!
# Rounding to single precision

The value of a single-precision number nearest to a rational, ties going to
the even significand, within the range of the normal numbers.
-/

namespace Chromium.Library

section

variable (value : ℚ)

/-- The nearest integer, the even one of two. -/
def roundHalfEven : ℤ :=
  let fraction := value - ⌊value⌋
  if fraction < 1 / 2 ∨ (fraction = 1 / 2 ∧ ⌊value⌋ % 2 = 0) then ⌊value⌋
  else ⌊value⌋ + 1

theorem floor_le_roundHalfEven : ⌊value⌋ <= roundHalfEven value := by
  unfold roundHalfEven
  dsimp only
  split <;> omega

theorem roundHalfEven_le_floor : roundHalfEven value <= ⌊value⌋ + 1 := by
  unfold roundHalfEven
  dsimp only
  split <;> omega

@[simp] theorem roundHalfEven_intCast (val : ℤ) : roundHalfEven val = val := by
  simp [roundHalfEven]

theorem roundHalfEven_mono (ordered : left ≤ right) : roundHalfEven left ≤ roundHalfEven right := by
  rcases (Int.floor_mono ordered).lt_or_eq with less | same
  · have upper := roundHalfEven_le_floor left
    have lower := floor_le_roundHalfEven right
    omega
  · unfold roundHalfEven
    dsimp only
    rw [same]
    split
    · split <;> omega
    · rename_i up
      rw [if_neg]
      rw [not_or, not_lt, not_and] at up ⊢
      refine ⟨by linarith [up.1], ?_⟩
      intro tie
      apply up.2
      linarith [up.1]

/-- The distance between neighbouring single-precision numbers at a value. -/
def spacing : ℚ := 2 ^ (Int.log 2 |value| - 23)

/-- The nearest single-precision number. -/
def roundSingle : ℚ := roundHalfEven (value / spacing value) * spacing value

theorem spacing_pos : 0 < spacing value := zpow_pos (by norm_num) _

/-- A power of two is a whole number of spacings. -/
theorem pow_eq_mul_spacing (exponent : ℕ) :
    (2 : ℚ) ^ (Int.log 2 |value| - 23 + exponent) = ((2 ^ exponent : ℤ) : ℚ) * spacing value := by
  rw [spacing, zpow_add₀ (by norm_num), mul_comm]
  norm_num

end

/-- A power of two no larger than a number is no larger than its rounding. -/
theorem pow_log_le_roundSingle (pos : 0 < value) :
    (2 : ℚ) ^ Int.log 2 value <= roundSingle value := by
  have below : (2 : ℚ) ^ Int.log 2 value <= value := Int.zpow_log_le_self (by norm_num) pos
  have whole := pow_eq_mul_spacing value 23
  rw [abs_of_pos pos] at whole
  have exponent : Int.log 2 value - 23 + (23 : ℕ) = Int.log 2 value := by omega
  rw [exponent] at whole
  rw [whole] at below ⊢
  have scaled := (le_div_iff₀ (spacing_pos value)).mpr below
  have rounded := roundHalfEven_mono scaled
  rw [roundHalfEven_intCast] at rounded
  exact mul_le_mul_of_nonneg_right (by exact_mod_cast rounded) (spacing_pos value).le

/-- A rounding does not pass the next power of two. -/
theorem roundSingle_le_pow (pos : 0 < value) :
    roundSingle value <= (2 : ℚ) ^ (Int.log 2 value + 1) := by
  have above : value <= (2 : ℚ) ^ (Int.log 2 value + 1) :=
    (Int.lt_zpow_succ_log_self (by norm_num) value).le
  have whole := pow_eq_mul_spacing value 24
  rw [abs_of_pos pos] at whole
  have exponent : Int.log 2 value - 23 + (24 : ℕ) = Int.log 2 value + 1 := by omega
  rw [exponent] at whole
  rw [whole] at above ⊢
  have scaled := (div_le_iff₀ (spacing_pos value)).mpr above
  have rounded := roundHalfEven_mono scaled
  rw [roundHalfEven_intCast] at rounded
  exact mul_le_mul_of_nonneg_right (by exact_mod_cast rounded) (spacing_pos value).le

theorem roundSingle_pos (pos : 0 < value) : 0 < roundSingle value :=
  lt_of_lt_of_le (zpow_pos (by norm_num) _) (pow_log_le_roundSingle pos)

theorem roundSingle_mono (pos : 0 < left) (ordered : left <= right) :
    roundSingle left <= roundSingle right := by
  have rightPositive := lt_of_lt_of_le pos ordered
  rcases (Int.log_mono_right (b := 2) pos ordered).lt_or_eq with less | same
  · calc
      roundSingle left <= 2 ^ (Int.log 2 left + 1) := roundSingle_le_pow pos
      _ <= 2 ^ Int.log 2 right := zpow_le_zpow_right₀ (by norm_num) less
      _ <= roundSingle right := pow_log_le_roundSingle rightPositive
  · have sameSpacing : spacing left = spacing right := by
      rw [spacing, spacing, abs_of_pos pos, abs_of_pos rightPositive, same]
    have scaled : left / spacing right <= right / spacing right :=
      div_le_div_of_nonneg_right ordered (spacing_pos right).le
    rw [roundSingle, roundSingle, sameSpacing]
    exact mul_le_mul_of_nonneg_right
      (by exact_mod_cast roundHalfEven_mono scaled) (spacing_pos right).le

/-- Halving a number halves its rounding. -/
theorem roundSingle_half (pos : 0 < value) : roundSingle (value / 2) = roundSingle value / 2 := by
  have halfPositive : 0 < value / 2 := half_pos pos
  have logHalf : Int.log 2 (value / 2) = Int.log 2 value - 1 := by
    have lower : (2 : ℚ) ^ (Int.log 2 value - 1) <= value / 2 := by
      rw [zpow_sub_one₀ (by norm_num), ← div_eq_mul_inv]
      exact div_le_div_of_nonneg_right (Int.zpow_log_le_self (by norm_num) pos) (by norm_num)
    have upper : value / 2 < (2 : ℚ) ^ (Int.log 2 value - 1 + 1) := by
      rw [sub_add_cancel, div_lt_iff₀ (by norm_num), ← zpow_add_one₀ (by norm_num)]
      exact Int.lt_zpow_succ_log_self (by norm_num) value
    have least : Int.log 2 value - 1 <= Int.log 2 (value / 2) :=
      (Int.zpow_le_iff_le_log (by norm_num) halfPositive).mp lower
    have most : Int.log 2 (value / 2) < Int.log 2 value - 1 + 1 :=
      (Int.lt_zpow_iff_log_lt (by norm_num) halfPositive).mp upper
    omega
  have spacingHalf : spacing (value / 2) = spacing value / 2 := by
    rw [spacing, spacing, abs_of_pos pos, abs_of_pos halfPositive,
      logHalf, show Int.log 2 value - 1 - 23 = Int.log 2 value - 23 - 1 by
        omega, zpow_sub_one₀ (by norm_num), div_eq_mul_inv]
  rw [roundSingle, roundSingle, spacingHalf, div_div_div_cancel_right₀ (by norm_num), mul_div_assoc]

/-- The quotient of two numbers in single precision. -/
def divideSingle (dividend divisor : ℚ) : ℚ :=
  roundSingle (roundSingle dividend / roundSingle divisor)

/-- A quotient that is computed below one half is below one half. -/
theorem lt_of_divideSingle_lt_half (pos : 0 < divisor)
    (less : divideSingle dividend divisor < roundSingle (1 / 2)) :
    2 * dividend < divisor := by
  by_contra atLeast
  have half : divisor / 2 <= dividend := by linarith
  have rounded := roundSingle_mono (half_pos pos) half
  rw [roundSingle_half pos] at rounded
  have divisorPositive := roundSingle_pos pos
  have quotient : 1 / 2 <= roundSingle dividend / roundSingle divisor := by
    rw [le_div_iff₀ divisorPositive]
    linarith
  exact not_lt_of_ge (roundSingle_mono (by norm_num) quotient) less

end Chromium.Library
