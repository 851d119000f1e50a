import Chromium.Library.Bytes
import Mathlib.Data.UInt

/-!
# Strings of digits

Hexadecimal numbers in ranges of bytes. The value is an `int`, whose
arithmetic wraps, while its bound is that of an unsigned number.
-/

namespace Chromium.Base

open List Option

section

/-- The value of an `int` after wrapping. -/
abbrev toInt32 (value : Int) : Int := value.bmod (2 ^ 32)

theorem toInt32_of_lt {val : Nat} (fits : val < 2 ^ 31) : toInt32 val = val := by
  apply Int.bmod_eq_of_le
  · omega
  · norm_num
    omega

/-- `isspace`, in the C locale. -/
def localIsWhitespace (c : UInt8) : Bool := c == 0x20 || (0x09 <= c && c <= 0x0d)

/-- `BaseCharToDigit<char, 16>::Convert`. -/
def charToDigit (c : UInt8) : Option Nat :=
  if 0x30 <= c ∧ c <= 0x39 then some (c.toNat - 0x30)
  else if 0x61 <= c ∧ c < 0x61 + 6 then some (c.toNat - 0x61 + 10)
  else if 0x41 <= c ∧ c < 0x41 + 6 then some (c.toNat - 0x41 + 10)
  else none

/-- The two ways in which `IteratorRangeToNumber` appends digits. -/
inductive Sign where
  | positive
  | negative

/-- `CheckBounds`. The largest value is that of `unsigned int`, to allow
parsing of 0xFFFFFFFF; the smallest is that of `int`. -/
def Sign.checkBounds : Sign -> Int -> Nat -> Bool
  | .positive, output, new_digit =>
    !(0x0fffffff < output || (output == 0x0fffffff && 0xffffffff % 16 < new_digit))
  | .negative, output, new_digit =>
    !(output < -0x08000000 || (output == -0x08000000 && 0 < new_digit))

/-- `Increment`. -/
def Sign.increment : Sign -> Nat -> Int -> Int
  | .positive, increment, output => toInt32 (output + increment)
  | .negative, increment, output => toInt32 (output - increment)

/-- The loop of `Invoke` over the digits after the first. -/
def Sign.digits (sign : Sign) : Bytes -> Int -> Option Int
  | [], output => some output
  | current :: rest, output => do
      let new_digit ← charToDigit current
      if sign.checkBounds output new_digit then
        sign.digits rest (sign.increment new_digit (toInt32 (output * 16)))
      else none

/-- What follows a prefix "0x" or "0X". -/
def skipHexPrefix (range : Bytes) : Bytes :=
  match range with
  | zero :: x :: digits => if zero = 0x30 ∧ (x = 0x78 ∨ x = 0x58) then digits else range
  | _ => range

/-- `Positive::Invoke` and `Negative::Invoke`, for base 16. -/
def Sign.invoke (sign : Sign) (range : Bytes) : Option Int :=
  if range = [] then none
  else
    match skipHexPrefix range with
    | [] => some 0
    | first :: rest => do
        let new_digit ← charToDigit first
        sign.digits rest (sign.increment new_digit 0)

/-- `HexStringToInt`: the number, where the whole range is one. -/
def hexStringToInt : Bytes -> Option Int
  | [] => Sign.positive.invoke []
  | begin :: rest =>
    -- Leading whitespace is skipped, but is not valid.
    if localIsWhitespace begin then none
    else if begin = 0x2d then Sign.negative.invoke rest
    else if begin = 0x2b then Sign.positive.invoke rest
    else Sign.positive.invoke (begin :: rest)

/-- A range of digits only. -/
def HexDigits (digits : Bytes) : Prop := ∀ digit ∈ digits, (charToDigit digit).isSome

instance (digits : Bytes) : Decidable (HexDigits digits) :=
  inferInstanceAs (Decidable (∀ digit ∈ digits, (charToDigit digit).isSome))

/-- The number that digits stand for, behind a number in front of them. -/
def hexValueFrom : Nat -> Bytes -> Nat
  | value, [] => value
  | value, digit :: rest => hexValueFrom (value * 16 + (charToDigit digit).getD 0) rest

/-- The number that digits stand for. -/
def hexValue (digits : Bytes) : Nat := hexValueFrom 0 digits

theorem le_hexValueFrom (val : Nat) (digits : Bytes) : val <= hexValueFrom val digits := by
  induction digits generalizing val with
  | nil => exact Nat.le_refl val
  | cons digit rest ih =>
    have next := ih (val * 16 + (charToDigit digit).getD 0)
    rw [hexValueFrom]
    omega

theorem charToDigit_some (converted : charToDigit c = some digit) :
    (0x30 <= c.toNat ∧ c.toNat <= 0x39 ∧ digit = c.toNat - 0x30) ∨
      (0x61 <= c.toNat ∧ c.toNat < 0x67 ∧ digit = c.toNat - 0x61 + 10) ∨
      (0x41 <= c.toNat ∧ c.toNat < 0x47 ∧ digit = c.toNat - 0x41 + 10) := by
  unfold charToDigit at converted
  split at converted
  next bounds => exact .inl ⟨bounds.1, bounds.2, (some.inj converted).symm⟩
  · split at converted
    next bounds => exact .inr (.inl ⟨bounds.1, bounds.2, (some.inj converted).symm⟩)
    · split at converted
      next bounds => exact .inr (.inr ⟨bounds.1, bounds.2, (some.inj converted).symm⟩)
      · cases converted

theorem charToDigit_lt (converted : charToDigit c = some digit) : digit < 16 := by
  have ranges := charToDigit_some converted
  omega

/-- A value that fits in an `int` is within the bounds while it is read. -/
theorem digits_eq {digits : Bytes} (hex : HexDigits digits) (val : Nat)
    (fits : hexValueFrom val digits < 2 ^ 31) :
    Sign.positive.digits digits val = some (hexValueFrom val digits : Int) := by
  induction digits generalizing val with
  | nil => rfl
  | cons digit rest ih =>
    obtain ⟨new_digit, converted⟩ := isSome_iff_exists.mp (hex digit mem_cons_self)
    have small := charToDigit_lt converted
    rw [hexValueFrom, converted, getD_some] at fits
    have partFits := Nat.lt_of_le_of_lt (le_hexValueFrom (val * 16 + new_digit) rest) fits
    have inBounds : Sign.positive.checkBounds val new_digit = true := by
      simp only [Sign.checkBounds, Bool.not_eq_true', Bool.or_eq_false_iff,
        decide_eq_false_iff_not, Bool.and_eq_false_imp]
      omega
    have next : Sign.positive.increment new_digit (toInt32 ((val : Int) * 16)) =
          ((val * 16 + new_digit : Nat) : Int) := by
      have product := toInt32_of_lt (show val * 16 < 2 ^ 31 by omega)
      exact (congrArg (fun output => toInt32 (output + new_digit))
        product).trans (toInt32_of_lt partFits)
    rw [Sign.digits, converted]
    simp only [bind_eq_bind, bind_some]
    rw [if_pos inBounds, next, hexValueFrom, converted, getD_some]
    exact ih ((forall_mem_cons.mp hex).2) _ fits

set_option maxRecDepth 2048 in
/-- A digit is none of the bytes that are treated separately. -/
theorem charToDigit_isSome_ne (hex : (charToDigit c).isSome)
    (other : c' ∈ [0x20, 0x2d, 0x2b, 0x78, 0x58, 0x3b, 0x0d, 0x0a]) :
    c ≠ c' := by
  obtain ⟨digit, converted⟩ := isSome_iff_exists.mp hex
  rintro rfl
  have notDigit : ∀ c ∈ [(0x20 : UInt8), 0x2d, 0x2b, 0x78, 0x58, 0x3b, 0x0d,
      0x0a], charToDigit c = none := by
    decide
  rw [notDigit c other] at converted
  cases converted

theorem localIsWhitespace_digit (hex : (charToDigit c).isSome) : localIsWhitespace c = false := by
  obtain ⟨digit, converted⟩ := isSome_iff_exists.mp hex
  have ranges := charToDigit_some converted
  have high : ¬ c <= 0x0d := by
    intro low
    have bound : c.toNat <= 0x0d := low
    omega
  have space : c ≠ 0x20 := charToDigit_isSome_ne hex mem_cons_self
  simp [localIsWhitespace, space, high]

theorem skipHexPrefix_digits (hex : HexDigits digits) : skipHexPrefix digits = digits := by
  unfold skipHexPrefix
  split
  next zero x rest =>
    have second : (charToDigit x).isSome := hex x (mem_cons_of_mem _ mem_cons_self)
    rw [if_neg]
    rintro ⟨-, rfl | rfl⟩
    · exact charToDigit_isSome_ne second (by decide) rfl
    · exact charToDigit_isSome_ne second (by decide) rfl
  · rfl

/-- A range of digits is read from zero. -/
theorem hexStringToInt_digits (hex : HexDigits digits)
    (ne : digits ≠ []) : hexStringToInt digits = Sign.positive.digits digits 0 := by
  cases digits with
  | nil => exact absurd rfl ne
  | cons first rest =>
    have firstHex := hex first mem_cons_self
    obtain ⟨new_digit, converted⟩ := isSome_iff_exists.mp firstHex
    rw [hexStringToInt, if_neg (by rw [localIsWhitespace_digit firstHex]; exact Bool.false_ne_true),
      if_neg (charToDigit_isSome_ne firstHex (by decide)),
      if_neg (charToDigit_isSome_ne firstHex (by decide)),
      Sign.invoke, if_neg ne, skipHexPrefix_digits hex, Sign.digits]
    simp only [converted, bind_eq_bind, bind_some]
    exact (if_pos rfl).symm

/-- Digits are read back as the number they stand for. -/
theorem hexStringToInt_eq (hex : HexDigits digits) (ne : digits ≠ [])
    (fits : hexValue digits < 2 ^ 31) :
    hexStringToInt digits = some (hexValue digits : Int) := by
  rw [hexStringToInt_digits hex ne]
  exact digits_eq hex 0 fits

end

/-!
## Decimal numbers

Decimal numbers of the size of an `int`, printed and read back.
-/

/-- `BaseCharToDigit<char, 10>::Convert`. -/
def charToDecimalDigit (c : UInt8) : Option Nat :=
  if 0x30 <= c ∧ c < 0x30 + 10 then some (c.toNat - 0x30) else none

/-- `CheckBounds`, for the largest and the smallest `int`. -/
def Sign.checkDecimalBounds : Sign -> Int -> Nat -> Bool
  | .positive, output, new_digit => !(214748364 < output || (output == 214748364 && 7 < new_digit))
  | .negative, output, new_digit =>
    !(output < -214748364 || (output == -214748364 && 8 < new_digit))

/-- `Increment`, which does not wrap behind `CheckBounds`. -/
def Sign.append : Sign -> Nat -> Int -> Int
  | .positive, increment, output => output + increment
  | .negative, increment, output => output - increment

/-- The step of the loop of `Invoke` for a digit after the first. -/
def Sign.decimalDigit (sign : Sign) (current : UInt8) (output : Int) : Option Int := do
  let new_digit ← charToDecimalDigit current
  if sign.checkDecimalBounds output new_digit then some (sign.append new_digit (output * 10))
  else none

/-- `Positive::Invoke` and `Negative::Invoke`, for base 10. -/
def Sign.invokeDecimal (sign : Sign) : Bytes -> Option Int
  | [] => none
  | first :: rest => do
      let new_digit ← charToDecimalDigit first
      rest.foldlM (fun output current => sign.decimalDigit current output) (sign.append new_digit 0)

/-- `StringToInt`: the number, where the whole string is one. -/
def stringToInt : Bytes -> Option Int
  | [] => Sign.positive.invokeDecimal []
  | begin :: rest =>
    -- Leading whitespace is skipped, but is not valid.
    if localIsWhitespace begin then none
    else if begin = 0x2d then Sign.negative.invokeDecimal rest
    else if begin = 0x2b then Sign.positive.invokeDecimal rest
    else Sign.positive.invokeDecimal (begin :: rest)

/-- The digits of a number. -/
def decimal (n : Nat) : Bytes := (Nat.toDigits 10 n).map fun c => .ofNat c.toNat

/-- `StringAppendF` of an `int` with `%d`. -/
def printInt (value : Int) : Bytes :=
  if value < 0 then 0x2d :: decimal value.natAbs else decimal value.natAbs

/-- The byte of a digit. -/
def digitByte (digit : Nat) : UInt8 := .ofNat (digit + 0x30)

theorem toNat_digitByte (small : digit < 10) : (digitByte digit).toNat = digit + 0x30 := by
  exact Nat.mod_eq_of_lt (show digit + 0x30 < 256 by omega)

theorem charToDecimalDigit_digitByte (small : digit < 10) :
    charToDecimalDigit (digitByte digit) = some digit := by
  have val := toNat_digitByte small
  rw [charToDecimalDigit, if_pos, val, Nat.add_sub_cancel]
  rw [UInt8.le_iff_toNat_le, UInt8.lt_iff_toNat_lt, val]
  constructor
  · exact Nat.le_add_left _ _
  · change digit + 0x30 < 0x3a
    omega

theorem decimal_of_lt (small : n < 10) : decimal n = [digitByte n] := by
  rw [decimal, Nat.toDigits_of_lt_base small, map_singleton, digitByte]
  have all : ∀ n < 10, UInt8.ofNat n.digitChar.toNat = .ofNat (n + 0x30) := by decide
  rw [all n small]

theorem decimal_of_le (large : 10 <= n) : decimal n = decimal (n / 10) ++ [digitByte (n % 10)] := by
  have last := decimal_of_lt (Nat.mod_lt n (show 0 < 10 by decide))
  rw [decimal, Nat.toDigits_of_lt_base (Nat.mod_lt n (by decide))] at last
  rw [decimal, Nat.toDigits_of_base_le (by decide) large, map_append, last]
  rfl

/-- The digits of a number are decimal digits. -/
theorem digits_decimal : ∀ c ∈ decimal n, ∃ digit < 10, c = digitByte digit := by
  induction n using Nat.strong_induction_on with
  | h n ih =>
    intro c mem
    rcases Nat.lt_or_ge n 10 with small | large
    · rw [decimal_of_lt small, mem_singleton] at mem
      exact ⟨n, small, mem⟩
    · rw [decimal_of_le large, mem_append, mem_singleton] at mem
      rcases mem with front | isLast
      · exact ih (n / 10) (by omega) c front
      · exact ⟨n % 10, Nat.mod_lt _ (by decide), isLast⟩

theorem decimal_ne_nil : decimal n ≠ [] := by
  exact fun isNil => Nat.toDigits_ne_nil (map_eq_nil_iff.mp isNil)

/-- Only the number zero starts with a zero. -/
theorem head_decimal (some_ : n ≠ 0) : (decimal n).head? ≠ some 0x30 := by
  induction n using Nat.strong_induction_on with
  | h n ih =>
    rcases Nat.lt_or_ge n 10 with small | large
    · rw [decimal_of_lt small, List.head?_cons]
      intro isZero
      have val := toNat_digitByte small
      rw [some.inj isZero] at val
      have : (0x30 : UInt8).toNat = 0x30 := rfl
      omega
    · rw [decimal_of_le large, List.head?_append_of_ne_nil _ decimal_ne_nil]
      exact ih (n / 10) (by omega) (by omega)

theorem invokeDecimal_append (sign : Sign) (some_ : digits ≠ []) :
    sign.invokeDecimal (digits ++ [current]) =
      (sign.invokeDecimal digits).bind (sign.decimalDigit current) := by
  cases digits with
  | nil => exact absurd rfl some_
  | cons first rest =>
    rw [cons_append, Sign.invokeDecimal, Sign.invokeDecimal]
    cases charToDecimalDigit first with
    | none => rfl
    | some new_digit =>
      simp

/-- The digits of a number that fits are read back, with either sign. -/
theorem invokeDecimal_decimal {sign : Sign}
    (fits : match sign with | .positive => n < 2 ^ 31 | .negative => n <= 2 ^ 31) :
    sign.invokeDecimal (decimal n) = some (sign.append n 0) := by
  induction n using Nat.strong_induction_on with
  | h n ih =>
    rcases Nat.lt_or_ge n 10 with small | large
    · rw [decimal_of_lt small, Sign.invokeDecimal, charToDecimalDigit_digitByte small]
      rfl
    · have before := ih (n / 10) (by omega) (by cases sign <;> dsimp only at fits ⊢ <;> omega)
      rw [decimal_of_le large, invokeDecimal_append _ decimal_ne_nil,
        before, bind_some, Sign.decimalDigit,
        charToDecimalDigit_digitByte (Nat.mod_lt _ (by decide))]
      simp only [bind_eq_bind, bind_some]
      cases sign with
      | positive =>
        have inBounds : Sign.positive.checkDecimalBounds
            (Sign.positive.append (n / 10) 0) (n % 10) = true := by
          simp only [Sign.checkDecimalBounds, Sign.append, Bool.not_eq_true', Bool.or_eq_false_iff,
            decide_eq_false_iff_not, Bool.and_eq_false_imp, beq_iff_eq]
          exact ⟨decide_eq_false (by omega), by omega⟩
        rw [if_pos inBounds, some_inj, Sign.append, Sign.append, Sign.append]
        omega
      | negative =>
        have inBounds : Sign.negative.checkDecimalBounds
            (Sign.negative.append (n / 10) 0) (n % 10) = true := by
          simp only [Sign.checkDecimalBounds, Sign.append, Bool.not_eq_true', Bool.or_eq_false_iff,
            decide_eq_false_iff_not, Bool.and_eq_false_imp, beq_iff_eq]
          exact ⟨decide_eq_false (by omega), by omega⟩
        rw [if_pos inBounds, some_inj, Sign.append, Sign.append, Sign.append]
        omega

/-- An `int` that is printed is read back. -/
theorem stringToInt_printInt (fits : -2 ^ 31 <= value ∧ value < 2 ^ 31) :
    stringToInt (printInt value) = some value := by
  rw [printInt]
  split_ifs with isNegative
  · rw [stringToInt, if_neg (by decide), if_pos rfl,
      invokeDecimal_decimal (by dsimp only; omega), Sign.append]
    congr 1
    omega
  · rcases isDecimal : decimal value.natAbs with _ | ⟨first, rest⟩
    · exact absurd isDecimal decimal_ne_nil
    · obtain ⟨digit, small, isFirst⟩ := digits_decimal first
        (by rw [isDecimal]; exact mem_cons_self)
      have plain : ∀ digit < 10, localIsWhitespace (digitByte digit) = false ∧
          digitByte digit ≠ 0x2d ∧ digitByte digit ≠ 0x2b := by decide
      obtain ⟨notSpace, notMinus, notPlus⟩ := plain digit small
      rw [← isFirst] at notSpace notMinus notPlus
      rw [stringToInt, notSpace, if_neg Bool.false_ne_true, if_neg notMinus,
        if_neg notPlus, ← isDecimal,
        invokeDecimal_decimal (by dsimp only; omega), Sign.append]
      congr 1
      omega

end Chromium.Base
