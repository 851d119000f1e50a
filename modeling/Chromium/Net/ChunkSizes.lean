import Chromium.Base.NumberRanges
import Chromium.Net.ChunkedEncoding

/-!
# Chunk sizes

What `ParseChunkSize` makes of the conversion of hexadecimal numbers.
-/

namespace Chromium.Net

open List Option Base Base.NumberTraits

/-- The output of a conversion that succeeds. -/
def converted : Bool × Int -> Option Int
  | (true, output) => some output
  | (false, _) => none

theorem digits_hexTraits (digits : Bytes) (output : Int) :
    Sign.positive.digits digits output = converted (hexTraits.digits .positive digits output) := by
  induction digits generalizing output with
  | nil => rfl
  | cons current rest ih =>
    have quotient : hexTraits.cast (hexTraits.max.tdiv hexTraits.kBase) = 0xfffffff := by decide
    have remainder : hexTraits.max.tmod hexTraits.kBase = 15 := by decide
    have convert : hexTraits.charToDigit current = charToDigit current := rfl
    unfold Sign.digits NumberTraits.digits
    rw [convert]
    cases charToDigit current with
    | none => rfl
    | some new_digit =>
      have same : Sign.positive.checkBounds output new_digit =
          hexTraits.checkBounds .positive output new_digit := by
        unfold Sign.checkBounds checkBounds
        dsimp only
        rw [quotient, remainder]
        simp
      dsimp only [bind_eq_bind, bind_some]
      rw [same]
      by_cases inBounds : hexTraits.checkBounds .positive output new_digit = true
      · rw [if_pos inBounds, if_pos inBounds]
        exact ih _
      · rw [if_neg inBounds, if_neg inBounds]
        rfl

/-- Digits and trailing spaces are a size if the number is below `2 ^ 32` or
wraps, and what is left of it is not negative. -/
theorem parseChunkSize_iff {digits : Bytes} (hex : HexDigits digits) (some_ : digits ≠ [])
    (spaces size : Nat) :
    HttpChunkedDecoder.parseChunkSize (digits ++ replicate spaces 0x20) = some size ↔
      (hexTraits.numberFrom 0 digits < 2 ^ 32 ∨ Wraps (hexTraits.numberFrom 0 digits)) ∧
        hexTraits.numberFrom 0 digits % 2 ^ 32 < 2 ^ 31 ∧
          size = hexTraits.numberFrom 0 digits % 2 ^ 32 := by
  have split : splitSign digits = (.positive, digits) := by
    obtain ⟨first, rest, rfl⟩ := exists_cons_of_ne_nil some_
    have firstHex := hex first mem_cons_self
    rw [splitSign, if_neg (charToDigit_isSome_ne firstHex (by decide)),
      if_neg (charToDigit_isSome_ne firstHex (by decide))]
  have spells : hexTraits.Spells digits .positive digits := ⟨some_, hex, .inl split⟩
  have loop := invoke_spells spells fun new_digit small => checkBounds_hex 0 small
  have all : (digits.all fun c => (charToDigit c).isSome) = true := List.all_eq_true.mpr hex
  rw [signed_zero] at loop
  unfold HttpChunkedDecoder.parseChunkSize
  rw [rdropWhile_spaces hex]
  dsimp only
  rw [if_pos all, hexStringToInt_digits hex some_, digits_hexTraits, ← loop]
  rcases invoke_hex spells with ⟨taken, read⟩ | ⟨refused, read⟩
  · rw [read, converted, and_iff_right taken]
    have wrapped : hexTraits.signed .positive (hexTraits.numberFrom 0 digits) =
        (hexTraits.numberFrom 0 digits : Int).bmod 4294967296 := rfl
    rw [wrapped, Int.bmod_def]
    generalize hexTraits.numberFrom 0 digits = number
    dsimp only
    rw [Option.ite_none_right_eq_some, some_inj]
    split
    · omega
    · omega
  · rw [read]
    constructor
    · rintro ⟨⟩
    · exact fun inv => absurd inv.1 refused

/-- A text is a chunk size: digits and trailing spaces. -/
def Sized (text : Bytes) (size : Nat) : Prop :=
  ∃ digits spaces, text = digits ++ replicate spaces 0x20 ∧ digits ≠ [] ∧ HexDigits digits ∧
    hexTraits.numberFrom 0 digits = size ∧ size < 2 ^ 31

/-- What is read is digits and trailing spaces. -/
theorem digits_of_parseChunkSize (read : HttpChunkedDecoder.parseChunkSize text = some size) :
    ∃ digits spaces, text = digits ++ replicate spaces 0x20 ∧ digits ≠ [] ∧ HexDigits digits := by
  have whole := @rdropWhile_append_rtakeWhile _ (· == (0x20 : UInt8)) text
  have spaces := eq_replicate_iff.mpr ⟨rfl, fun c mem =>
    beq_iff_eq.mp (@mem_rtakeWhile_imp _ (· == (0x20 : UInt8)) text c mem)⟩
  rw [spaces] at whole
  unfold HttpChunkedDecoder.parseChunkSize at read
  dsimp only at read
  split_ifs at read with hex
  refine ⟨_, _, whole.symm, fun none_ => ?_, List.all_eq_true.mp hex⟩
  rw [none_] at read
  cases read

/-- The sizes that are read are the texts' own, unless digits wrap to a number
that is not negative. -/
theorem parseChunkSize_exact_iff :
    (∀ size, HttpChunkedDecoder.parseChunkSize text = some size ↔ Sized text size) ↔
      ∀ digits spaces, text = digits ++ replicate spaces 0x20 -> HexDigits digits ->
        Wraps (hexTraits.numberFrom 0 digits) ->
          2 ^ 31 <= hexTraits.numberFrom 0 digits % 2 ^ 32 := by
  constructor
  · rintro exact_ digits spaces rfl hex wraps
    rw [← Nat.not_lt]
    intro small
    have some_ : digits ≠ [] := by
      rintro rfl
      exact absurd wraps.1 (by decide)
    have read := (parseChunkSize_iff hex some_ spaces _).mpr ⟨.inr wraps, small, rfl⟩
    obtain ⟨digits', spaces', same, -, hex', n, fits⟩ := (exact_ _).mp read
    have stripped := rdropWhile_spaces hex spaces
    rw [same, rdropWhile_spaces hex'] at stripped
    rw [stripped] at n
    have large := wraps.1
    omega
  · intro noWrap size
    constructor
    · intro read
      obtain ⟨digits, spaces, rfl, some_, hex⟩ := digits_of_parseChunkSize read
      obtain ⟨taken, fits, rfl⟩ := (parseChunkSize_iff hex some_ spaces size).mp read
      have wraps := noWrap digits spaces rfl hex
      have small := taken.resolve_right fun wrapped => absurd (wraps wrapped) (Nat.not_le.mpr fits)
      exact ⟨digits, spaces, rfl, some_, hex, (Nat.mod_eq_of_lt small).symm, fits⟩
    · rintro ⟨digits, spaces, rfl, some_, hex, rfl, fits⟩
      have small : hexTraits.numberFrom 0 digits < 2 ^ 32 := fits.trans (by decide)
      rw [parseChunkSize_iff hex some_, Nat.mod_eq_of_lt small]
      exact ⟨.inl small, fits, rfl⟩

/-- All strings are converted exactly, but for a bare prefix and for long
hexadecimal numbers that wrap without being noticed. -/
theorem conversions_exact_iff (text : Bytes) :
    (((∀ bits ∈ [32, 64], (decimalTraits bits).Exact text) ∧ hexTraits.Exact text) ∧
      ∀ size, HttpChunkedDecoder.parseChunkSize text = some size ↔ Sized text size) ↔
    (¬Bare text ∧ ∀ digits, hexTraits.Spells text .positive digits ->
      ¬Wraps (hexTraits.numberFrom 0 digits)) ∧
    ∀ digits spaces, text = digits ++ replicate spaces 0x20 -> HexDigits digits ->
      Wraps (hexTraits.numberFrom 0 digits) → 2 ^ 31 ≤ hexTraits.numberFrom 0 digits % 2 ^ 32 := by
  rw [exact_hex_iff, parseChunkSize_exact_iff]
  exact and_congr_left' (and_iff_right fun bits known => exact_decimal known text)

/-- "8000000001" is taken for the chunk size 1. -/
theorem not_conversions_exact :
    ¬(∀ text, ((∀ bits ∈ [32, 64], (decimalTraits bits).Exact text) ∧ hexTraits.Exact text) ∧
      ∀ size, HttpChunkedDecoder.parseChunkSize text = some size ↔ Sized text size) := by
  intro exact_
  obtain ⟨digits, spaces, whole, -, hex, number, fits⟩ :=
    ((exact_ [0x38, 0x30, 0x30, 0x30, 0x30, 0x30, 0x30, 0x30, 0x30, 0x31]).2 1).mp (by decide)
  have same := rdropWhile_spaces hex spaces
  rw [← whole] at same
  rw [← same] at number
  exact absurd number (by decide)

end Chromium.Net
