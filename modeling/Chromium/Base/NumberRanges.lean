import Chromium.Base.StringNumberConversions

/-!
# Numbers in ranges

`IteratorRangeToNumber` for all of its traits, with what it leaves in the
output where the range is not a number.
-/

namespace Chromium.Base

open List Option Bool Int Nat

/-- `IteratorRangeToNumberTraits`, with `CharToDigit` for its base and the
number of bits of its `value_type`. -/
structure NumberTraits where
  kBase : Nat
  charToDigit : UInt8 -> Option Nat
  digit : ∀ {c digit}, charToDigit c = some digit -> digit < kBase ∧ Base.charToDigit c = some digit
  bits : Nat
  min : Int
  max : Int

theorem charToDecimalDigit_some (converted : charToDecimalDigit c = some digit) :
    digit < 10 ∧ charToDigit c = some digit := by
  unfold charToDecimalDigit at converted
  split at converted
  · next bounds =>
    have high : c.toNat < 0x3a := bounds.2
    have same := some.inj converted
    refine ⟨by omega, ?_⟩
    rw [charToDigit, if_pos ⟨bounds.1, le_of_lt_succ high⟩, same]
  · cases converted

theorem charToDigit_self (converted : charToDigit c = some digit) :
    digit < 16 ∧ charToDigit c = some digit :=
  ⟨charToDigit_lt converted, converted⟩

/-- `IteratorRangeToIntTraits`, and that of `int64`. -/
def decimalTraits (bits : Nat) : NumberTraits :=
  ⟨10, charToDecimalDigit, charToDecimalDigit_some, bits, -2 ^ (bits - 1), 2 ^ (bits - 1) - 1⟩

/-- `HexIteratorRangeToIntTraits`. -/
def hexTraits : NumberTraits := ⟨16, charToDigit, charToDigit_self, 32, -2 ^ 31, 2 ^ 32 - 1⟩

namespace NumberTraits

section

variable (traits : NumberTraits)

/-- A value of `value_type`, which wraps. -/
def cast (value : Int) : Int := value.bmod (2 ^ traits.bits)

/-- What `CheckBounds` leaves in the output where it fails. -/
def saturated : Sign -> Int
  | .positive => traits.cast traits.max
  | .negative => traits.min

/-- `CheckBounds`. -/
def checkBounds : Sign -> Int -> Nat -> Bool
  | .positive, output, new_digit =>
    !(traits.cast (traits.max.tdiv traits.kBase) < output ||
      (output == traits.cast (traits.max.tdiv traits.kBase) &&
        traits.max.tmod traits.kBase < new_digit))
  | .negative, output, new_digit =>
    !(output < traits.min.tdiv traits.kBase ||
      (output == traits.min.tdiv traits.kBase && 0 - traits.min.tmod traits.kBase < new_digit))

/-- `Increment`. -/
def increment (traits : NumberTraits) : Sign -> Nat -> Int -> Int
  | .positive, increment, output => traits.cast (output + increment)
  | .negative, increment, output => traits.cast (output - increment)

/-- The loop of `Base::Invoke` over the digits after the first. -/
def digits (traits : NumberTraits) (sign : Sign) : Bytes -> Int -> Bool × Int
  | [], output => (true, output)
  | current :: rest, output =>
    match traits.charToDigit current with
    | none => (false, output)
    | some new_digit =>
      if traits.checkBounds sign output new_digit then
        traits.digits sign rest
          (traits.increment sign new_digit (traits.cast (output * traits.kBase)))
      else (false, traits.saturated sign)

/-- `Base::Invoke`. -/
def invokeBase (sign : Sign) (range : Bytes) : Bool × Int :=
  if range = [] then (false, 0)
  else
    match if traits.kBase = 16 then skipHexPrefix range else range with
    | [] => (true, 0)
    | first :: rest =>
      match traits.charToDigit first with
      | none => (false, 0)
      | some new_digit => traits.digits sign rest (traits.increment sign new_digit 0)

/-- The sign of a range and what follows it. -/
def splitSign : Bytes -> Sign × Bytes
  | [] => (.positive, [])
  | begin :: rest =>
    if begin = 0x2d then (.negative, rest)
    else if begin = 0x2b then (.positive, rest)
    else (.positive, begin :: rest)

/-- `IteratorRangeToNumber::Invoke`: its result and the output. -/
def invoke (range : Bytes) : Bool × Int :=
  let trimmed := range.dropWhile localIsWhitespace
  let result := traits.invokeBase (splitSign trimmed).1 (splitSign trimmed).2
  (trimmed == range && result.1, result.2)

/-- The number that digits stand for, behind a number in front of them. -/
def numberFrom (value : Nat) (digits : Bytes) : Nat :=
  digits.foldl (fun value digit => value * traits.kBase + (traits.charToDigit digit).getD 0) value

end

/-- A range is a sign, a prefix and some digits. -/
structure Spells (traits : NumberTraits) (range : Bytes) (sign : Sign) (digits : Bytes) : Prop where
  some_ : digits ≠ []
  all : ∀ digit ∈ digits, (traits.charToDigit digit).isSome
  range : splitSign range = (sign, digits) ∨
    traits.kBase = 16 ∧ ∃ x ∈ [0x78, 0x58], splitSign range = (sign, 0x30 :: x :: digits)

/-- The largest number of a sign. -/
def limit (traits : NumberTraits) : Sign -> Nat
  | .positive => traits.max.toNat
  | .negative => traits.min.natAbs

/-- A number with its sign. -/
def signed (traits : NumberTraits) : Sign -> Nat -> Int
  | .positive, number => traits.cast number
  | .negative, number => traits.cast (-number)

/-- A range is converted if it is a number within the limits; a number outside
of them is saturated. -/
structure Exact (traits : NumberTraits) (range : Bytes) : Prop where
  spelled : ∀ sign digits, traits.Spells range sign digits ->
    traits.invoke range = if traits.numberFrom 0 digits <= traits.limit sign then
      (true, traits.signed sign (traits.numberFrom 0 digits))
    else (false, traits.saturated sign)
  other : (∀ sign digits, ¬traits.Spells range sign digits) -> (traits.invoke range).1 = false

section

variable {traits : NumberTraits} {sign : Sign} {range digits : Bytes}

theorem le_numberFrom (val : Nat) (digits : Bytes) (pos : 0 < traits.kBase) :
    val <= traits.numberFrom val digits := by
  induction digits generalizing val with
  | nil => exact le_refl val
  | cons digit rest ih =>
    have next := ih (val * traits.kBase + (traits.charToDigit digit).getD 0)
    have larger := Nat.le_mul_of_pos_right val pos
    rw [numberFrom, foldl_cons]
    exact (larger.trans (Nat.le_add_right _ _)).trans next

/-- A digit is appended to the number, whatever wraps. -/
theorem increment_signed (val new_digit : Nat) :
    traits.increment sign new_digit (traits.cast (traits.signed sign val * traits.kBase)) =
      traits.signed sign (val * traits.kBase + new_digit) := by
  cases sign with
  | positive =>
    simp only [increment, signed, cast, bmod_mul_bmod, bmod_add_bmod]
    push_cast
    rfl
  | negative =>
    simp only [increment, signed, cast, bmod_mul_bmod, bmod_sub_bmod]
    push_cast
    rw [Int.neg_mul, Int.neg_add, Int.sub_eq_add_neg]

/-- The bounds are those of the numbers that can be told apart. -/
def Tight (traits : NumberTraits) (sign : Sign) : Prop :=
  ∀ value ≤ traits.limit sign, ∀ new_digit < traits.kBase,
    traits.checkBounds sign (traits.signed sign value) new_digit =
      decide (value * traits.kBase + new_digit <= traits.limit sign)

/-- A number with one more digit is compared with a limit by its quotient and
its remainder. -/
theorem append_le_iff {base limit val new_digit : Nat} (digit : new_digit < base) :
    val * base + new_digit <= limit ↔
      ¬(limit / base < val ∨ val = limit / base ∧ limit % base < new_digit) := by
  have parts := div_add_mod limit base
  have remainder := Nat.mod_lt limit (zero_lt_of_lt digit)
  generalize limit / base = quotient at parts ⊢
  rcases Nat.lt_trichotomy val quotient with less | rfl | more
  · have room := Nat.mul_le_mul_left base (succ_le_of_lt less)
    rw [Nat.mul_succ, Nat.mul_comm] at room
    omega
  · rw [Nat.mul_comm] at parts
    omega
  · have room := Nat.mul_le_mul_left base (succ_le_of_lt more)
    rw [Nat.mul_succ, Nat.mul_comm base val] at room
    omega

theorem cast_eq (low : -2 ^ traits.bits <= 2 * value) (high : 2 * value < 2 ^ traits.bits) :
    traits.cast value = value := by
  apply bmod_eq_of_le
  · push_cast
    omega
  · push_cast
    omega

theorem tight_positive {top : Nat} (isTop : traits.max = top) (fits : 2 * top < 2 ^ traits.bits) :
    traits.Tight .positive := by
  have same {val : Nat} (inside : val <= top) : traits.cast val = val := by
    have fits' : (2 * top : Int) < 2 ^ traits.bits := by exact_mod_cast fits
    exact cast_eq (by omega) (by omega)
  intro val inside new_digit digit
  rw [limit, isTop, toNat_natCast] at inside ⊢
  rw [signed, same inside, checkBounds, isTop, ← ofNat_tdiv, same (Nat.div_le_self _ _),
    ← ofNat_tmod, Bool.eq_iff_iff, decide_eq_true_iff, append_le_iff digit]
  generalize top / traits.kBase = quotient
  generalize top % traits.kBase = remainder
  simp [imp_iff_not_or]

theorem tight_negative {bottom : Nat} (isBottom : traits.min = -bottom)
    (fits : 2 * bottom <= 2 ^ traits.bits) :
    traits.Tight .negative := by
  intro val inside new_digit digit
  rw [limit, isBottom, Int.natAbs_neg, Int.natAbs_natCast] at inside ⊢
  have fits' : (2 * bottom : Int) <= 2 ^ traits.bits := by exact_mod_cast fits
  have pos : (0 : Int) < 2 ^ traits.bits := Int.pow_pos (by decide)
  have same : traits.cast (-val) = -val := cast_eq (by omega) (by omega)
  rw [signed, same, checkBounds, isBottom, Int.neg_tdiv, Int.neg_tmod, ← Int.ofNat_tdiv,
    ← Int.ofNat_tmod, Bool.eq_iff_iff, decide_eq_true_iff, append_le_iff digit]
  generalize bottom / traits.kBase = quotient
  generalize bottom % traits.kBase = remainder
  simp [imp_iff_not_or]

theorem tight_decimal {bits : Nat} (known : bits ∈ [32, 64]) (sign : Sign) :
    (decimalTraits bits).Tight sign := by
  rw [mem_cons, mem_singleton] at known
  rcases known with rfl | rfl
  · cases sign with
    | positive => exact tight_positive rfl (by decide)
    | negative => exact tight_negative rfl (by decide)
  · cases sign with
    | positive => exact tight_positive rfl (by decide)
    | negative => exact tight_negative rfl (by decide)

theorem tight_hex : hexTraits.Tight .negative := tight_negative rfl (by decide)

theorem numberFrom_cons (converted : traits.charToDigit cur = some new_digit) (val : Nat) :
    traits.numberFrom val (cur :: rest) =
      traits.numberFrom (val * traits.kBase + new_digit) rest := by
  rw [numberFrom, foldl_cons, converted, getD_some, numberFrom]

theorem digits_cons (converted : traits.charToDigit cur = some new_digit) (val : Nat) :
    traits.digits sign (cur :: rest) (traits.signed sign val) =
      if traits.checkBounds sign (traits.signed sign val) new_digit then
        traits.digits sign rest (traits.signed sign (val * traits.kBase + new_digit))
      else (false, traits.saturated sign) := by
  rw [NumberTraits.digits, converted, ← increment_signed]

/-- Digits behind a number are read until one exceeds the limit. -/
theorem digits_eq (tight : traits.Tight sign) {digits : Bytes}
    (all : ∀ digit ∈ digits, (traits.charToDigit digit).isSome)
    (inside : value <= traits.limit sign) :
    traits.digits sign digits (traits.signed sign value) =
      if traits.numberFrom value digits <= traits.limit sign then
        (true, traits.signed sign (traits.numberFrom value digits))
      else (false, traits.saturated sign) := by
  induction digits generalizing value with
  | nil => exact (if_pos inside).symm
  | cons current rest ih =>
    obtain ⟨new_digit, converted⟩ := isSome_iff_exists.mp (all current mem_cons_self)
    have small := (traits.digit converted).1
    have later := le_numberFrom (value * traits.kBase + new_digit) rest (zero_lt_of_lt small)
    rw [digits_cons converted, numberFrom_cons converted, tight value inside new_digit small]
    by_cases fits : value * traits.kBase + new_digit <= traits.limit sign
    · rw [if_pos (decide_eq_true fits)]
      exact ih ((forall_mem_cons.mp all).2) fits
    · rw [if_neg (by rw [decide_eq_true_iff]; exact fits), if_neg (mt later.trans fits)]

/-- A hexadecimal number has one of the digits 1 to 7 at a place. -/
def Low (number place : Nat) : Prop := 1 <= number / 16 ^ place % 16 ∧ number / 16 ^ place % 16 <= 7

instance (number place : Nat) : Decidable (Low number place) := inferInstanceAs (Decidable (_ ∧ _))

/-- The next digit is accepted by the one eight places in front of it. -/
theorem checkBounds_hex (val : Nat) (small : new_digit < 16) :
    hexTraits.checkBounds .positive (hexTraits.signed .positive val) new_digit =
      !decide (Low val 7) := by
  have quotient : hexTraits.cast (hexTraits.max.tdiv hexTraits.kBase) = 0xfffffff := by decide
  have remainder : ¬hexTraits.max.tmod hexTraits.kBase < new_digit := by
    have last : hexTraits.max.tmod hexTraits.kBase = 15 := by decide
    omega
  have size : 2 ^ hexTraits.bits = 4294967296 := rfl
  unfold checkBounds signed cast
  rw [cast] at quotient
  rw [size] at quotient ⊢
  dsimp only
  rw [quotient, decide_eq_false remainder, Bool.and_false, Bool.or_false, bmod_def]
  refine congrArg not (decide_eq_decide.mpr ?_)
  unfold Low
  split
  · omega
  · omega

theorem numberFrom_div (val : Nat) {digits : Bytes}
    (all : ∀ digit ∈ digits, (traits.charToDigit digit).isSome) :
    traits.numberFrom val digits / traits.kBase ^ digits.length = val := by
  induction digits generalizing val with
  | nil => rw [numberFrom, foldl_nil, length_nil, Nat.pow_zero, Nat.div_one]
  | cons current rest ih =>
    obtain ⟨new_digit, converted⟩ := isSome_iff_exists.mp (all current mem_cons_self)
    have small := (traits.digit converted).1
    rw [length_cons, Nat.pow_succ, ← Nat.div_div_eq_div_mul, numberFrom_cons converted,
      ih _ (forall_mem_cons.mp all).2, Nat.mul_comm,
      Nat.mul_add_div (Nat.zero_lt_of_lt small), Nat.div_eq_of_lt small, Nat.add_zero]

theorem digits_hex {digits : Bytes} (hex : HexDigits digits) (val : Nat) :
    hexTraits.digits .positive digits (hexTraits.signed .positive val) =
      if ∀ place < digits.length, ¬Low (hexTraits.numberFrom val digits) (8 + place) then
        (true, hexTraits.signed .positive (hexTraits.numberFrom val digits))
      else (false, hexTraits.saturated .positive) := by
  induction digits generalizing val with
  | nil => exact (if_pos fun place inside => absurd inside (Nat.not_lt_zero place)).symm
  | cons cur rest ih =>
    obtain ⟨new_digit, converted⟩ := isSome_iff_exists.mp (hex cur mem_cons_self)
    -- The digit at the last place is the one that is looked at first.
    have first : Low (hexTraits.numberFrom val (cur :: rest)) (8 + rest.length) ↔
        Low val 7 := by
      have front := @numberFrom_div hexTraits val _ hex
      have places : 8 + rest.length = (cur :: rest).length + 7 := by
        rw [length_cons]
        omega
      unfold Low
      rw [places, Nat.pow_add, ← Nat.div_div_eq_div_mul]
      change Low (_ / hexTraits.kBase ^ _) 7 ↔ _
      rw [front]
      rfl
    have next := ih ((forall_mem_cons.mp hex).2) (val * hexTraits.kBase + new_digit)
    replace converted : hexTraits.charToDigit cur = some new_digit := converted
    rw [← numberFrom_cons converted] at next
    rw [digits_cons converted, checkBounds_hex val (charToDigit_lt converted), next]
    by_cases low : Low val 7
    · rw [if_neg (by rw [decide_eq_true low]; exact Bool.false_ne_true), if_neg]
      exact fun all => all rest.length (Nat.lt_succ_self _) (first.mpr low)
    · rw [if_pos (by rw [decide_eq_false low]; rfl)]
      refine if_congr ⟨fun all place inside => ?_,
        fun all place inside => all place (Nat.lt_succ_of_lt inside)⟩ rfl rfl
      rcases Nat.lt_succ_iff_lt_or_eq.mp inside with inRest | rfl
      · exact all place inRest
      · exact mt first.mp low

/-- There is no white space in front of a sign or of a digit. -/
theorem dropWhile_of_splitSign (split : splitSign range = (sign, first :: rest))
    (digit : (Base.charToDigit first).isSome) : range.dropWhile localIsWhitespace = range := by
  cases range with
  | nil => cases split
  | cons begin tail =>
    apply dropWhile_cons_of_neg
    rw [not_eq_true]
    unfold splitSign at split
    dsimp only at split
    split_ifs at split with minus plus
    · rw [minus]
      rfl
    · rw [plus]
      rfl
    · cases split
      exact localIsWhitespace_digit digit

/-- A prefix is skipped, or there is none. -/
theorem skipHexPrefix_cases (range : Bytes) :
    skipHexPrefix range = range ∨ ∃ x ∈ [0x78, 0x58], range = 0x30 :: x :: skipHexPrefix range := by
  unfold skipHexPrefix
  split
  · next zero x digits =>
    split_ifs with isPrefix
    · exact .inr ⟨x, by simpa using isPrefix.2, by rw [isPrefix.1]⟩
    · exact .inl rfl
  · exact .inl rfl

theorem signed_zero : traits.signed sign 0 = 0 := by
  cases sign with
  | positive => exact zero_bmod
  | negative => exact zero_bmod

/-- The digits of a spelled number are read from zero. -/
theorem invoke_spells (spells : traits.Spells range sign digits)
    (start : ∀ new_digit < traits.kBase, traits.checkBounds sign 0 new_digit = true) :
    traits.invoke range = traits.digits sign digits (traits.signed sign 0) := by
  have hex : HexDigits digits := fun digit mem => by
    obtain ⟨new_digit, converted⟩ := isSome_iff_exists.mp (spells.all digit mem)
    exact isSome_of_eq_some (traits.digit converted).2
  obtain ⟨first, rest, rfl⟩ := exists_cons_of_ne_nil spells.some_
  obtain ⟨new_digit, converted⟩ := isSome_iff_exists.mp (spells.all first mem_cons_self)
  have loop : traits.digits sign (first :: rest) (traits.signed sign 0) =
      traits.digits sign rest (traits.increment sign new_digit 0) := by
    have one := @increment_signed traits sign 0 new_digit
    rw [signed_zero, Int.zero_mul, show traits.cast 0 = 0 from zero_bmod] at one
    rw [digits_cons converted, signed_zero, if_pos (start _ (traits.digit converted).1), one]
  rw [loop, invoke]
  rcases spells.range with split | ⟨base, x, isX, split⟩
  · have skipped : (if traits.kBase = 16 then skipHexPrefix (first :: rest) else first :: rest) =
        first :: rest := by
      rw [skipHexPrefix_digits hex, ite_self]
    rw [dropWhile_of_splitSign split (hex first mem_cons_self), split, beq_self_eq_true,
      Bool.true_and, invokeBase, if_neg (cons_ne_nil _ _), skipped]
    simp only [converted]
  · have skipped : (if traits.kBase = 16 then skipHexPrefix (0x30 :: x :: first :: rest)
        else 0x30 :: x :: first :: rest) = first :: rest := by
      rw [if_pos base, skipHexPrefix, if_pos ⟨rfl, by simpa using isX⟩]
    rw [dropWhile_of_splitSign split rfl, split, beq_self_eq_true, Bool.true_and, invokeBase,
      if_neg (cons_ne_nil _ _), skipped]
    simp only [converted]

theorem isSome_of_digits (read : (traits.digits sign digits output).1 = true) :
    ∀ digit ∈ digits, (traits.charToDigit digit).isSome := by
  induction digits generalizing output with
  | nil => exact forall_mem_nil _
  | cons current rest ih =>
    rw [NumberTraits.digits] at read
    cases converted : traits.charToDigit current with
    | none =>
      rw [converted] at read
      cases read
    | some new_digit =>
      rw [converted] at read
      dsimp only at read
      split_ifs at read
      exact forall_mem_cons.mpr ⟨isSome_of_eq_some converted, ih read⟩

theorem of_invokeBase (read : (traits.invokeBase sign body).1 = true) :
    body ≠ [] ∧ ∃ digits, (∀ digit ∈ digits, (traits.charToDigit digit).isSome) ∧
      (body = digits ∨ traits.kBase = 16 ∧ ∃ x ∈ [0x78, 0x58], body = 0x30 :: x :: digits) := by
  rw [invokeBase] at read
  by_cases empty : body = []
  · rw [if_pos empty] at read
    cases read
  · rw [if_neg empty] at read
    refine ⟨empty, if traits.kBase = 16 then skipHexPrefix body else body, ?_, ?_⟩
    · split at read
      · next none_ =>
        rw [none_]
        exact forall_mem_nil _
      · next first rest some_ =>
        rw [some_]
        cases converted : traits.charToDigit first with
        | none =>
          rw [converted] at read
          cases read
        | some new_digit =>
          rw [converted] at read
          exact forall_mem_cons.mpr ⟨isSome_of_eq_some converted, isSome_of_digits read⟩
    · by_cases base : traits.kBase = 16
      · rw [if_pos base]
        exact (skipHexPrefix_cases body).imp Eq.symm (⟨base, ·⟩)
      · rw [if_neg base]
        exact .inl rfl

/-- A range is a sign and a prefix. -/
def Bare (range : Bytes) : Prop :=
  ∃ sign, ∃ x ∈ [0x78, 0x58], splitSign range = (sign, [0x30, x])

/-- A prefix without digits is the one range of base 16 that is converted
without being a number. -/
theorem spells_or_bare (read : (traits.invoke range).1 = true) :
    (∃ sign digits, traits.Spells range sign digits) ∨ traits.kBase = 16 ∧ Bare range := by
  unfold invoke at read
  obtain ⟨untrimmed, read⟩ := Bool.and_eq_true_iff.mp read
  rw [beq_iff_eq.mp untrimmed] at read
  obtain ⟨some_, digits, all, whole⟩ := of_invokeBase read
  by_cases none_ : digits = []
  · rw [none_] at whole
    obtain ⟨base, x, isX, whole⟩ := whole.resolve_left some_
    exact .inr ⟨base, _, x, isX, Prod.ext rfl whole⟩
  · exact .inl ⟨_, digits, none_, all, whole.imp (Prod.ext rfl ·) fun ⟨base, x, isX, whole⟩ =>
      ⟨base, x, isX, Prod.ext rfl whole⟩⟩

/-- A prefix without digits is converted. -/
theorem not_exact_of_bare (bare : Bare range) : ¬hexTraits.Exact range := by
  obtain ⟨sign, x, isX, split⟩ := bare
  intro exact_
  have read : (hexTraits.invoke range).1 = true := by
    rw [invoke, dropWhile_of_splitSign split rfl, split, beq_self_eq_true, Bool.true_and]
    rw [mem_cons, mem_singleton] at isX
    rcases isX with rfl | rfl
    · rfl
    · rfl
  refine absurd (exact_.other (fun sign' digits spells => ?_))
    (by rw [read]; exact true_eq_false_eq_False)
  rcases spells.range with whole | ⟨-, x', -, whole⟩
  · have same := (Prod.mk.inj (split.symm.trans whole)).2
    have noDigit : ∀ x ∈ [(0x78 : UInt8), 0x58], ¬(Base.charToDigit x).isSome :=
      forall_mem_cons.mpr ⟨by decide, forall_mem_singleton.mpr (by decide)⟩
    exact noDigit x isX (spells.all x (by rw [← same]; exact mem_cons_of_mem _ mem_cons_self))
  · have same := (Prod.mk.inj (split.symm.trans whole)).2
    exact spells.some_ (cons.inj (cons.inj same).2).2.symm

theorem exact_decimal {bits : Nat} (known : bits ∈ [32, 64]) (range : Bytes) :
    (decimalTraits bits).Exact range where
  spelled sign digits spells := by
    have tight := tight_decimal known sign
    have base : (decimalTraits bits).kBase <= (decimalTraits bits).limit sign := by
      rw [mem_cons, mem_singleton] at known
      rcases known with rfl | rfl <;> cases sign <;> decide
    have start : ∀ new_digit < (decimalTraits bits).kBase,
        (decimalTraits bits).checkBounds sign 0 new_digit = true := by
      intro new_digit small
      rw [← @signed_zero (decimalTraits bits) sign, tight 0 (Nat.zero_le _) _ small, Nat.zero_mul,
        Nat.zero_add]
      exact decide_eq_true (small.le.trans base)
    rw [invoke_spells spells start, digits_eq tight spells.all (Nat.zero_le _)]
  other none_ := by
    rw [← not_eq_true]
    intro read
    rcases spells_or_bare read with ⟨sign, digits, spells⟩ | ⟨base, -⟩
    · exact none_ sign digits spells
    · cases base

theorem not_low_of_lt {n len place : Nat} (small : n < 16 ^ len)
    (behind : len <= place) : ¬Low n place := by
  have inside := small.trans_le (Nat.pow_le_pow_right (by decide) behind)
  rw [Low, Nat.div_eq_of_lt inside]
  decide

/-- The numbers that wrap without being noticed. -/
def Wraps (number : Nat) : Prop := 2 ^ 32 <= number ∧ ∀ place ≥ 8, ¬Low number place

/-- A hexadecimal number is converted if it is below `2 ^ 32` or wraps. -/
theorem invoke_hex (spells : hexTraits.Spells range .positive digits) :
    let n := hexTraits.numberFrom 0 digits
    (n < 2 ^ 32 ∨ Wraps n) ∧
        hexTraits.invoke range = (true, hexTraits.signed .positive n) ∨
      ¬(n < 2 ^ 32 ∨ Wraps n) ∧
        hexTraits.invoke range = (false, hexTraits.saturated .positive) := by
  intro n
  have start : ∀ new_digit < hexTraits.kBase, hexTraits.checkBounds .positive 0 new_digit = true :=
    fun new_digit small => checkBounds_hex 0 small
  have front := numberFrom_div 0 spells.all
  have short : n < 16 ^ digits.length :=
    (Nat.div_eq_zero_iff_lt (Nat.pow_pos (by decide))).mp front
  have places : (∀ place < digits.length, ¬Low n (8 + place)) ↔
      n < 2 ^ 32 ∨ Wraps n := by
    constructor
    · intro all
      by_cases small : n < 2 ^ 32
      · exact .inl small
      · refine .inr ⟨Nat.le_of_not_lt small, fun place behind => ?_⟩
        obtain ⟨rest, rfl⟩ := Nat.exists_eq_add_of_le behind
        by_cases inside : rest < digits.length
        · exact all rest inside
        · exact not_low_of_lt short (by omega)
    · rintro (small | wraps) place -
      · exact @not_low_of_lt _ 8 _ small (Nat.le_add_right _ _)
      · exact wraps.2 _ (Nat.le_add_right _ _)
  rw [← places, invoke_spells spells start, digits_hex spells.all]
  by_cases free : ∀ place < digits.length, ¬Low n (8 + place)
  · exact .inl ⟨free, if_pos free⟩
  · exact .inr ⟨free, if_neg free⟩

theorem exact_hex_iff (range : Bytes) :
    hexTraits.Exact range ↔ ¬Bare range ∧ ∀ digits, hexTraits.Spells range .positive digits ->
      ¬Wraps (hexTraits.numberFrom 0 digits) := by
  have limit (n : Nat) : n <= hexTraits.limit .positive ↔ n < 2 ^ 32 :=
    Nat.lt_succ_iff.symm
  constructor
  · refine fun exact_ => ⟨fun bare => not_exact_of_bare bare exact_, fun digits spells wraps => ?_⟩
    have read := exact_.spelled .positive digits spells
    rw [if_neg (by rw [limit]; exact Nat.not_lt.mpr wraps.1)] at read
    rcases invoke_hex spells with ⟨-, yes⟩ | ⟨no, -⟩
    · cases yes.symm.trans read
    · exact no (.inr wraps)
  · rintro ⟨notBare, noWrap⟩
    refine ⟨fun sign digits spells => ?_, fun none_ => ?_⟩
    · cases sign with
      | positive =>
        rcases invoke_hex spells with ⟨fits, read⟩ | ⟨large, read⟩
        · rw [read, if_pos ((limit _).mpr (fits.resolve_right (noWrap digits spells)))]
        · rw [read, if_neg fun small => large (.inl ((limit _).mp small))]
      | negative =>
        rw [invoke_spells spells fun _ _ => rfl, digits_eq tight_hex spells.all (Nat.zero_le _)]
    · rw [← not_eq_true]
      intro read
      rcases spells_or_bare read with ⟨sign, digits, spells⟩ | ⟨-, bare⟩
      · exact none_ sign digits spells
      · exact notBare bare

end

end NumberTraits
end Chromium.Base
