import Chromium.Base.StringNumberConversions
import Chromium.Base.StringUtil

/-!
# Numbers in strings

`IntToString`, and `atoi` of the C library, where `long` has 64 bits.
-/

namespace Chromium.Base

open List

/-- The loop of `IntToString`, which fills a buffer from its end. -/
def fillDigits : Nat -> Nat -> Bytes -> Bytes
  | 0, _, out => out
  | room + 1, res, out =>
    let out := digitByte (res % 10) :: out
    if res / 10 = 0 then out else fillDigits room (res / 10) out

/-- `IntToString`. -/
def intToString (value : Int) : Bytes :=
  let kOutputBufSize := 3 * 4 + 1
  let out := fillDigits kOutputBufSize value.natAbs []
  if value < 0 then 0x2d :: out else out

theorem fillDigits_eq (room : Nat) : ∀ (res : Nat) (out : Bytes), res < 10 ^ room → 0 < room →
      fillDigits room res out = decimal res ++ out := by
  induction room with
  | zero =>
    intro _ _ _ pos
    exact absurd pos (lt_irrefl 0)
  | succ room ih =>
    intro res out small _
    rw [fillDigits]
    by_cases single : res < 10
    · rw [if_pos (by omega), decimal_of_lt single, Nat.mod_eq_of_lt single]
      rfl
    · have shorter : res / 10 < 10 ^ room := by omega
      have pos : 0 < room := by
        apply Nat.pos_of_ne_zero
        rintro rfl
        omega
      rw [if_neg (by omega), ih _ _ shorter pos, decimal_of_le (not_lt.mp single), append_assoc]
      rfl

theorem intToString_eq_decimal (pos : 0 < value) (fits : value < 2 ^ 31) :
    intToString value = decimal value.natAbs := by
  rw [intToString, if_neg (by omega),
    fillDigits_eq _ _ _ (by norm_num; omega) (by decide), append_nil]

/-- Every `int` that `IntToString` prints is read back. -/
theorem stringToInt_intToString (val : Int32) :
    stringToInt (intToString val.toInt) = some val.toInt := by
  have low := val.le_toInt
  have high := val.toInt_lt
  have digits := fillDigits_eq 13 val.toInt.natAbs [] (by omega) (by decide)
  have isPrinted : intToString val.toInt = printInt val.toInt := by
    rw [append_nil] at digits
    simp only [intToString, printInt, digits, Nat.reduceMul, Nat.reduceAdd]
  rw [isPrinted, stringToInt_printInt ⟨low, high⟩]

/-- The value of the digits that a string starts with. -/
def leadingDigits (str : Bytes) : Nat :=
  (str.takeWhile fun c => (charToDecimalDigit c).isSome).foldl
    (fun value c => value * 10 + (c.toNat - 0x30)) 0

/-- `atoi`: `strtol` stays within the range of a `long`, and the conversion to
`int` keeps the low 32 bits. -/
def atoi (str : Bytes) : Int :=
  let str := str.dropWhile isWhitespaceASCII
  let value : Int :=
    if str.head? = some 0x2d then -leadingDigits str.tail
    else if str.head? = some 0x2b then leadingDigits str.tail
    else leadingDigits str
  (max (-2 ^ 63) (min value (2 ^ 63 - 1))).bmod (2 ^ 32)

theorem leadingDigits_append
    {front : Bytes} (digits : ∀ c ∈ front, (charToDecimalDigit c).isSome) {digit : Nat}
    (small : digit < 10) :
    leadingDigits (front ++ [digitByte digit]) = leadingDigits front * 10 + digit := by
  have isDigit := charToDecimalDigit_digitByte small
  have val := toNat_digitByte small
  have whole : ∀ c ∈ front ++ [digitByte digit], (charToDecimalDigit c).isSome := by
    intro c mem
    rcases mem_append.mp mem with inFront | isLast
    · exact digits c inFront
    · rw [mem_singleton.mp isLast, isDigit]
      rfl
  rw [leadingDigits, takeWhile_eq_self_iff.mpr whole, foldl_append,
    leadingDigits, takeWhile_eq_self_iff.mpr digits]
  simp [val]

theorem leadingDigits_decimal : leadingDigits (decimal n) = n := by
  have digits : ∀ n, ∀ c ∈ decimal n, (charToDecimalDigit c).isSome := by
    intro n c mem
    obtain ⟨digit, small, rfl⟩ := digits_decimal c mem
    simp [charToDecimalDigit_digitByte small]
  induction n using Nat.strong_induction_on with
  | h n ih =>
    rcases Nat.lt_or_ge n 10 with small | large
    · rw [decimal_of_lt small]
      have one := @leadingDigits_append [] (by simp) n small
      simpa [leadingDigits] using one
    · rw [decimal_of_le large, leadingDigits_append (digits _) (Nat.mod_lt _ (by decide)),
        ih (n / 10) (by omega)]
      omega

/-- A character of a printed number is a digit. -/
theorem plain_of_mem_decimal (mem : c ∈ decimal n) :
    isWhitespaceASCII c = false ∧ c ≠ 0x2d ∧ c ≠ 0x2b ∧ c ≠ 0x2c := by
  have plain : ∀ digit < 10, isWhitespaceASCII (digitByte digit) = false ∧
      digitByte digit ≠ 0x2d ∧ digitByte digit ≠ 0x2b ∧ digitByte digit ≠ 0x2c := by
    decide
  obtain ⟨digit, small, rfl⟩ := digits_decimal c mem
  exact plain digit small

/-- A positive `int` that is printed is read back. -/
theorem atoi_decimal (fits : n < 2 ^ 31) : atoi (decimal n) = n := by
  have trimmed : (decimal n).dropWhile isWhitespaceASCII = decimal n := by
    rw [dropWhile_eq_self_iff]
    intro ne
    rw [(plain_of_mem_decimal (getElem_mem ne)).1]
    exact Bool.false_ne_true
  have unsigned : ∀ sign : UInt8, sign = 0x2d ∨ sign = 0x2b -> (decimal n).head? ≠ some sign := by
    intro sign isSign isHead
    have plain := plain_of_mem_decimal (List.mem_of_head? isHead)
    rcases isSign with rfl | rfl
    · exact plain.2.1 rfl
    · exact plain.2.2.1 rfl
  unfold atoi
  simp only [trimmed, if_neg (unsigned _ (.inl rfl)),
    if_neg (unsigned _ (.inr rfl)), leadingDigits_decimal]
  rw [min_eq_left (by omega), max_eq_right (by omega), Int.bmod_eq_of_le (by omega) (by omega)]

theorem atoi_range : -2 ^ 31 <= atoi str ∧ atoi str < 2 ^ 31 := by
  unfold atoi
  exact ⟨Int.le_bmod (by decide), Int.bmod_lt (by decide)⟩

end Chromium.Base
