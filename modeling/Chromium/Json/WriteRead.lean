import Chromium.Json.Acceptance

/-!
# What is written

What `JSONWriter` writes is in the language of JSON. A wide string has a
character for each unit of UTF-16 that is written for it, so that only strings
of the basic plane are those that were written.
-/

namespace Chromium.Json

open List Option

section

open Base

/-- Bytes that are characters of ASCII, but not the null character. -/
def Ascii (json : Bytes) : Prop := ∀ byte ∈ json, 0 < byte.toNat ∧ byte.toNat < 0x80

theorem Ascii.nil : Ascii [] := fun _ mem => absurd mem not_mem_nil

variable {json : Bytes} {c unit : Nat}

theorem Ascii.cons {byte : UInt8} (first : 0 < byte.toNat ∧ byte.toNat < 0x80)
    (ascii : Ascii json) :
    Ascii (byte :: json) :=
  forall_mem_cons.mpr ⟨first, ascii⟩

theorem Ascii.append {behind : Bytes} (ascii : Ascii json) (other : Ascii behind) :
    Ascii (json ++ behind) := by
  intro byte mem
  rcases mem_append.mp mem with inFront | isBehind
  · exact ascii byte inFront
  · exact other byte isBehind

theorem Ascii.intercalate (separates : Ascii separator) (ascii : ∀ piece ∈ pieces, Ascii piece) :
    Ascii (separator.intercalate pieces) := by
  induction pieces with
  | nil => exact .nil
  | cons piece pieces ih =>
    have first := ascii piece mem_cons_self
    have rest := ih fun later mem => ascii later (mem_cons_of_mem _ mem)
    cases pieces with
    | nil =>
      rw [intercalate_singleton]
      exact first
    | cons next pieces =>
      rw [intercalate_cons_cons]
      exact (first.append separates).append rest

/-- The characters of bytes. -/
def codes (json : Bytes) : List Nat := json.map UInt8.toNat

@[simp] theorem codes_nil : codes [] = [] := rfl

@[simp] theorem codes_cons : codes (byte :: json) = byte.toNat :: codes json := rfl

@[simp] theorem codes_append : codes (json ++ behind) = codes json ++ codes behind :=
  map_append

theorem writeUTF8_toNat {byte : UInt8} (ascii : byte.toNat < 0x80) :
    writeUTF8 byte.toNat = [byte] := by
  rw [writeUTF8, if_pos (Nat.le_of_lt_succ ascii), UInt8.ofNat_toNat]

/-- Bytes of ASCII are their characters in UTF-8. -/
theorem Ascii.flatMap_codes (ascii : Ascii json) : (codes json).flatMap writeUTF8 = json := by
  induction json with
  | nil => rfl
  | cons byte json ih =>
    rw [codes_cons, flatMap_cons, writeUTF8_toNat (ascii byte mem_cons_self).2, ih
        fun later mem => ascii later (mem_cons_of_mem _ mem)]
    rfl

theorem Ascii.of_mem_codes (ascii : Ascii json) (mem : c ∈ codes json) : 0 < c ∧ c < 0x80 := by
  obtain ⟨byte, inJson, rfl⟩ := List.mem_map.mp mem
  exact ascii byte inJson

theorem readUTF32_cons (c : Nat) (src : List Nat) :
    readUTF32 (c :: src) = ((some c).filter isValidCodepoint, src) := rfl

theorem isValidCodepoint_of_lt (small : c < 0xd800) : isValidCodepoint c = true :=
  isValidCodepoint_iff.mpr (.inl small)

/-- A wide string of ASCII is converted to its bytes. -/
theorem Ascii.wideToUTF8_codes (ascii : Ascii json) : wideToUTF8 .utf32 (codes json) = json := by
  have single : wideToUTF8 .utf32 (codes json) = _ :=
    Library.transcode_single readUTF32_cons (codes json)
  rw [single]
  calc (codes json).flatMap _ = (codes json).flatMap writeUTF8 := by
        apply flatMap_congr
        intro c mem
        have small := (ascii.of_mem_codes mem).2
        rw [filter_some, if_pos (isValidCodepoint_of_lt (Nat.lt_trans small (by decide)))]
        rfl
    _ = json := ascii.flatMap_codes

/-- A string in UTF-8. -/
def IsUTF8 (str : Bytes) : Prop :=
  ∃ code_points : List Nat, str = code_points.flatMap writeUTF8 ∧
    ∀ c ∈ code_points, isValidCodepoint c = true

/-- A string in UTF-8 without code points above U+FFFF. -/
def BasicString (str : Bytes) : Prop :=
  ∃ code_points : List Nat, str = code_points.flatMap writeUTF8 ∧
    ∀ c ∈ code_points, isValidCodepoint c = true ∧ c <= 0xffff

/-- What is read back is basic, and is what was written if that is basic. -/
structure Rereads (Basic : α -> Prop) (written read : α) : Prop where
  basic : Basic read
  same : Basic written -> read = written

/-- The characters that are read for the units of UTF-16. -/
def replaceSurrogate (unit : Nat) : Nat := if isValidCodepoint unit then unit else 0xfffd

theorem replaceSurrogate_basic (small : unit <= 0xffff) :
    isValidCodepoint (replaceSurrogate unit) = true ∧ replaceSurrogate unit <= 0xffff := by
  rw [replaceSurrogate]
  split_ifs with ok
  · exact ⟨ok, small⟩
  · exact ⟨rfl, by decide⟩

theorem le_of_mem_writeUTF16 (mem : unit ∈ writeUTF16 c) : unit <= 0xffff := by
  rw [writeUTF16] at mem
  split_ifs at mem with one
  · rw [mem_singleton.mp mem]
    exact one
  · simp only [mem_cons, not_mem_nil, or_false] at mem
    omega

theorem le_of_mem_units {code_points : List Nat} (mem : unit ∈ code_points.flatMap writeUTF16) :
    unit <= 0xffff := by
  obtain ⟨c, -, inUnits⟩ := mem_flatMap.mp mem
  exact le_of_mem_writeUTF16 inUnits

theorem flatMap_writeUTF16 {code_points : List Nat} (basic : ∀ c ∈ code_points, c <= 0xffff) :
    code_points.flatMap writeUTF16 = code_points := by
  induction code_points with
  | nil => rfl
  | cons c code_points ih =>
    rw [flatMap_cons, writeUTF16, if_pos (basic c mem_cons_self), ih
        fun later mem => basic later (mem_cons_of_mem _ mem)]
    rfl

/-- A unit of UTF-16 that is a code point is read as one. -/
theorem readUTF16_basic (ok : isValidCodepoint c = true) :
    readUTF16 (c :: src) = (some c, src) := by
  rw [readUTF16.eq_def]
  dsimp only
  rw [isSurrogate_of_isValidCodepoint ok, if_neg Bool.false_ne_true, filter_some, if_pos ok]

/-- The string of wide characters that are units of UTF-16. -/
theorem stringOf_units {units : List Nat} (small : ∀ unit ∈ units, unit <= 0xffff) :
    stringOf .utf32 units = (units.map replaceSurrogate).flatMap writeUTF8 := by
  have basic : ∀ c ∈ units.map replaceSurrogate, isValidCodepoint c = true ∧ c <= 0xffff := by
    intro c mem
    obtain ⟨unit, inUnits, rfl⟩ := List.mem_map.mp mem
    exact replaceSurrogate_basic (small unit inUnits)
  have isWide : wideToUTF16 .utf32 units = units.map replaceSurrogate := by
    have single : wideToUTF16 .utf32 units = _ := Library.transcode_single readUTF32_cons units
    calc wideToUTF16 .utf32 units
      _ = (units.map replaceSurrogate).flatMap writeUTF16 := by
          rw [single, flatMap_map]
          apply flatMap_congr
          intro unit mem
          rw [filter_some, replaceSurrogate]
          split_ifs <;> rfl
      _ = units.map replaceSurrogate := flatMap_writeUTF16 fun c mem => (basic c mem).2
  have isNarrow := @Library.transcode_flatMap _ _ _ readUTF16 writeUTF8 0xfffd
    (fun c => [c]) (units.map replaceSurrogate)
    (fun c mem rest => readUTF16_basic (basic c mem).1)
    (fun c _ => cons_ne_nil c [])
  rw [flatMap_singleton'] at isNarrow
  rw [stringOf, isWide]
  exact isNarrow

/-- A string is read back from the units of UTF-16 that it is written as. -/
theorem rereads_stringOf {str : Bytes} (isUTF8 : IsUTF8 str) :
    Rereads BasicString str (stringOf .utf32 (utf8ToUTF16 str)) := by
  obtain ⟨code_points, rfl, ok⟩ := isUTF8
  rw [utf8ToUTF16_flatMap ok, stringOf_units fun unit => le_of_mem_units]
  constructor
  · refine ⟨_, rfl, fun c mem => ?_⟩
    obtain ⟨unit, inUnits, rfl⟩ := List.mem_map.mp mem
    exact replaceSurrogate_basic (le_of_mem_units inUnits)
  · rintro ⟨basics, isBasic, basic⟩
    have valids : ∀ c ∈ basics, isValidCodepoint c = true := fun c mem => (basic c mem).1
    have sameUnits : code_points.flatMap writeUTF16 = basics := by
      rw [← utf8ToUTF16_flatMap ok, isBasic, utf8ToUTF16_flatMap valids,
        flatMap_writeUTF16 fun c mem => (basic c mem).2]
    have kept : basics.map replaceSurrogate = basics := by
      calc basics.map replaceSurrogate
        _ = basics.map id := by
            apply List.map_congr_left
            intro c mem
            rw [replaceSurrogate, if_pos (valids c mem), id]
        _ = basics := List.map_id basics
    rw [sameUnits, kept, isBasic]

theorem hexDigit_reads (small : digit < 16) :
    isHexDigit (hexDigit digit).toNat = true ∧ hexDigitToInt (hexDigit digit).toNat = digit ∧
      0 < (hexDigit digit).toNat ∧ (hexDigit digit).toNat < 0x80 := by
  have all : ∀ digit < 16, isHexDigit (hexDigit digit).toNat = true ∧
      hexDigitToInt (hexDigit digit).toNat = digit ∧
      0 < (hexDigit digit).toNat ∧ (hexDigit digit).toNat < 0x80 := by
    decide
  exact all digit small

/-- An escape without digits is read as the character that it stands for. -/
theorem jsonSingleEscapeChar_reads (isEscape : jsonSingleEscapeChar c = some escape) :
    ∃ letter : UInt8, escape = [0x5c, letter] ∧ singleEscape letter.toNat = some c ∧
      0 < letter.toNat ∧ letter.toNat < 0x80 := by
  simp only [jsonSingleEscapeChar] at isEscape
  split_ifs at isEscape with b f n r t backslash quote
  all_goals
    obtain rfl := some.inj isEscape
    subst c
    exact ⟨_, rfl, rfl, by decide, by decide⟩

/-- What is written for a unit of UTF-16 is read as that unit. -/
theorem jsonEscape_reads (small : unit <= 0xffff) : Ascii (jsonEscape unit) ∧
      ∀ {w decoded : List Nat}, StringText w decoded ->
        StringText (codes (jsonEscape unit) ++ w) (unit :: decoded) := by
  rw [jsonEscape]
  cases isSingle : jsonSingleEscapeChar unit with
  | some escape =>
    obtain ⟨letter, rfl, reads, some_, ascii⟩ := jsonSingleEscapeChar_reads isSingle
    constructor
    · exact .cons (by decide) (.cons ⟨some_, ascii⟩ .nil)
    · exact fun rest => .single reads rest
  | none =>
    split_ifs with escaped
    · obtain ⟨first, firstIs, firstAscii⟩ := hexDigit_reads (show unit / 4096 < 16 by omega)
      obtain ⟨second, secondIs, secondAscii⟩ := hexDigit_reads (show unit / 256 % 16 < 16 by omega)
      obtain ⟨third, thirdIs, thirdAscii⟩ := hexDigit_reads (show unit / 16 % 16 < 16 by omega)
      obtain ⟨fourth, fourthIs, fourthAscii⟩ := hexDigit_reads (show unit % 16 < 16 by omega)
      constructor
      · exact .cons (by decide) (.cons (by decide) (.cons firstAscii
          (.cons secondAscii (.cons thirdAscii (.cons fourthAscii .nil)))))
      · intro w decoded rest
        have reads := StringText.unicode first second third fourth rest
        rw [firstIs, secondIs, thirdIs, fourthIs] at reads
        have isUnit : unit / 4096 * 4096 + unit / 256 % 16 * 256 +
            unit / 16 % 16 * 16 + unit % 16 = unit := by
          omega
        rw [isUnit] at reads
        exact reads
    · have bounds : 32 <= unit ∧ unit <= 126 := by omega
      have isByte : (UInt8.ofNat unit).toNat = unit := toNat_ofNat (by omega)
      have notQuote : unit ≠ 0x22 := by
        rintro rfl
        cases isSingle
      have notEscape : unit ≠ 0x5c := by
        rintro rfl
        cases isSingle
      constructor
      · intro byte mem
        rw [mem_singleton.mp mem, isByte]
        omega
      · intro w decoded rest
        rw [codes_cons, isByte]
        exact .plain notQuote notEscape rest

theorem flatMap_jsonEscape_reads (small : ∀ unit ∈ units, unit <= 0xffff) :
    Ascii (units.flatMap jsonEscape) ∧ StringText (codes (units.flatMap jsonEscape)) units := by
  induction units with
  | nil => exact ⟨.nil, .nil⟩
  | cons unit units ih =>
    obtain ⟨ascii, reads⟩ := jsonEscape_reads (small unit mem_cons_self)
    obtain ⟨asciiRest, rest⟩ := ih fun later mem => small later (mem_cons_of_mem _ mem)
    rw [flatMap_cons, codes_append]
    exact ⟨ascii.append asciiRest, reads rest⟩

/-- A string is written as a string of JSON. -/
theorem jsonDoubleQuote_text (isUTF8 : IsUTF8 str) :
    ∃ w, jsonDoubleQuote (utf8ToUTF16 str) true = 0x22 :: (w ++ [0x22]) ∧
      Ascii w ∧ StringText (codes w) (utf8ToUTF16 str) := by
  obtain ⟨code_points, rfl, ok⟩ := isUTF8
  rw [utf8ToUTF16_flatMap ok]
  exact ⟨_, rfl, flatMap_jsonEscape_reads fun unit => le_of_mem_units⟩

end

/-!
## Values are read back

A value that is written is read back if and only if its strings and keys have
no code points above U+FFFF.
-/

section

open Base JSONWriter

/-- The strings and the keys of a value have no code points above U+FFFF. -/
inductive Basic {Double : Type} : Value Double -> Prop where
  | null : Basic .null
  | boolean (value : Bool) : Basic (.boolean value)
  | integer (value : Int) : Basic (.integer value)
  | double (value : Double) : Basic (.double value)
  | string (basic : BasicString value) : Basic (.string value)
  | list (basic : ∀ item ∈ items, Basic item) : Basic (.list items)
  | dictionary (keys : ∀ entry ∈ entries, BasicString entry.1)
      (values : ∀ entry ∈ entries, Basic entry.2) :
      Basic (.dictionary entries)

variable {Double : Type} {stringToDouble : Bytes -> Option Double}
  {isFinite : Double -> Bool} {doubleToString : Double -> Bytes}
  {trailing pretty_print : Bool}

/-- Values without doubles of no more levels than given. A value that is not
in another is one level. -/
def Writable : Nat -> Value Double -> Prop
  | 0, _ => False
  | _ + 1, .null => True
  | _ + 1, .boolean _ => True
  | _ + 1, .integer value => -2 ^ 31 <= value ∧ value < 2 ^ 31
  | _ + 1, .double _ => False
  | _ + 1, .string value => IsUTF8 value
  | levels + 1, .list items => ∀ item ∈ items, Writable levels item
  | levels + 1, .dictionary entries =>
    Ascending entries ∧ ∀ entry ∈ entries, IsUTF8 entry.1 ∧ Writable levels entry.2

/-- A key and a value without surrogates. -/
def BasicEntry (entry : Bytes × Value Double) : Prop := BasicString entry.1 ∧ Basic entry.2

/-- Values that are read back one by one. -/
theorem rereads_all {α : Type} {basic : α -> Prop} {written read : List α}
    (rereads : List.Forall₂ (Rereads basic) written read) :
    (∀ a ∈ read, basic a) ∧ ((∀ a ∈ written, basic a) -> read = written) := by
  induction rereads with
  | nil => exact ⟨fun a mem => absurd mem not_mem_nil, fun _ => rfl⟩
  | cons first _ ih =>
    refine ⟨forall_mem_cons.mpr ⟨first.basic, ih.1⟩, ?_⟩
    intro basics
    obtain ⟨basicFirst, basicRest⟩ := forall_mem_cons.mp basics
    rw [first.same basicFirst, ih.2 basicRest]

/-- An item with space around it. -/
def Piece {α : Type} (item : List Nat -> α -> Prop) (piece : Bytes) (a : α) : Prop :=
  ∃ s w s', codes piece = s ++ (w ++ s') ∧ Space s ∧ item w a ∧ Space s'

theorem separated_intercalate {α : Type} {item : List Nat -> α -> Prop} {separator : Bytes}
    (separates : Space (codes separator)) {pieces : List Bytes}
    {as : List α} (reads : List.Forall₂ (Piece item) pieces as)
    {before after : List Nat} (isBefore : Space before) (isAfter : Space after) :
    Separated trailing item
        (before ++ (codes ((0x2c :: separator).intercalate pieces) ++ after)) as ∨
      Space (before ++ (codes ((0x2c :: separator).intercalate pieces) ++ after)) ∧ as = [] := by
  induction reads generalizing before with
  | nil => exact .inr ⟨isBefore.append isAfter, rfl⟩
  | @cons piece a pieces as isPiece rest ih =>
    obtain ⟨s, w, s', isText, space, isItem, space'⟩ := isPiece
    refine .inl ?_
    cases rest with
    | nil =>
      have last : Separated trailing item _ [a] :=
        .last (isBefore.append space) isItem (space'.append isAfter)
      rw [intercalate_singleton, isText]
      simpa only [append_assoc] using last
    | @cons next b pieces as isNext rest =>
      rcases ih separates with separated | ⟨-, isNil⟩
      · have isComma : (0x2c : UInt8).toNat = 0x2c := rfl
        have both := Separated.cons (isBefore.append space) isItem space' separated
        rw [intercalate_cons_cons, codes_append, codes_append, isText]
        simpa only [codes_cons, isComma, append_assoc, cons_append] using both
      · cases isNil

/-- What is written for a value is its text, or that of what is read back. -/
structure Written (nested : List Nat → Value Double → Prop) (json : Bytes) (v : Value Double) :
    Prop where
  ascii : Ascii json
  reads : ∃ w, nested (codes json) w ∧ Rereads Basic v w ∧ (IsRoot v -> IsRoot w)

theorem isDigit_codes_decimal (mem : c ∈ codes (decimal n)) : isDigit c = true := by
  obtain ⟨byte, inDigits, rfl⟩ := List.mem_map.mp mem
  obtain ⟨digit, small, rfl⟩ := digits_decimal byte inDigits
  rw [toNat_digitByte small, isDigit, Bool.and_eq_true, decide_eq_true_iff, decide_eq_true_iff]
  omega

theorem ascii_decimal : Ascii (decimal n) := by
  intro byte mem
  obtain ⟨digit, small, rfl⟩ := digits_decimal byte mem
  rw [toNat_digitByte small]
  omega

theorem integerPart_decimal : IntegerPart (codes (decimal n)) where
  some_ := fun isNil => decimal_ne_nil (List.map_eq_nil_iff.mp isNil)
  digit := fun _ mem => isDigit_codes_decimal mem
  leading := by
    intro several isZero
    rcases Nat.eq_zero_or_pos n with zero | positive
    · subst zero
      exact absurd several (by decide)
    · apply head_decimal (Nat.ne_of_gt positive)
      rcases isDecimal : decimal n with _ | ⟨first, rest⟩
      · exact absurd isDecimal decimal_ne_nil
      · rw [isDecimal, codes_cons, List.head?_cons, some.injEq] at isZero
        rw [List.head?_cons, some.injEq]
        exact UInt8.toNat_inj.mp isZero

/-- A number is written as a number of JSON. -/
theorem printInt_text : Ascii (printInt value) ∧ NumberText (codes (printInt value)) := by
  rw [printInt]
  split_ifs with isNegative
  · constructor
    · exact .cons (by decide) ascii_decimal
    · exact ⟨[0x2d], codes (decimal value.natAbs), [], [], by simp, .inr rfl,
        integerPart_decimal, .nil, .nil⟩
  · refine ⟨ascii_decimal, [], codes (decimal value.natAbs), [], [], ?_, .inl rfl,
      integerPart_decimal, .nil, .nil⟩
    rw [append_nil, append_nil, nil_append]

theorem ascii_white (white : ∀ byte ∈ json, byte = 0x20 ∨ byte = 0x0a) :
    Ascii json ∧ Space (codes json) := by
  induction json with
  | nil => exact ⟨.nil, .nil⟩
  | cons byte json ih =>
    obtain ⟨first, rest⟩ := forall_mem_cons.mp white
    obtain ⟨ascii, space⟩ := ih rest
    constructor
    · refine .cons ?_ ascii
      rcases first with rfl | rfl
      · decide
      · decide
    · refine .white ?_ space
      rcases first with rfl | rfl
      · rfl
      · rfl

theorem pretty_white {json : Bytes} (white : ∀ byte ∈ json, byte = 0x20 ∨ byte = 0x0a) :
    Ascii (pretty pretty_print json) ∧ Space (codes (pretty pretty_print json)) := by
  rw [pretty]
  split_ifs
  · exact ascii_white white
  · exact ⟨.nil, .nil⟩

theorem white_indentLine : ∀ byte ∈ indentLine depth, byte = 0x20 ∨ byte = 0x0a :=
  fun _ mem => .inl (eq_of_mem_replicate mem)

section Building

variable {levels : Nat} {nested : List Nat -> Value Double -> Prop}

section

variable (element : ∀ (v : Value Double) (depth : Nat), Writable levels v ->
  Written nested (buildJSONString doubleToString pretty_print true v depth) v)
include element

/-- The items of a list are written one by one. -/
theorem buildItems_text (writable : ∀ item ∈ items, Writable levels item) :
    (∀ piece ∈ buildItems doubleToString pretty_print true items depth, Ascii piece) ∧
    ∃ ws, List.Forall₂ (Piece nested) (buildItems doubleToString pretty_print true items depth) ws ∧
      List.Forall₂ (Rereads Basic) items ws := by
  induction items with
  | nil =>
    refine ⟨fun piece mem => ?_, [], .nil, .nil⟩
    cases mem
  | cons item items ih =>
    obtain ⟨first, rest⟩ := forall_mem_cons.mp writable
    obtain ⟨ascii, w, isNested, rereads, -⟩ := element item depth first
    obtain ⟨asciiRest, ws, pieces, others⟩ := ih rest
    refine ⟨forall_mem_cons.mpr ⟨ascii, asciiRest⟩, w :: ws, ?_, .cons rereads others⟩
    refine .cons ⟨[], _, [], ?_, .nil, isNested, .nil⟩ pieces
    rw [append_nil, nil_append]

/-- The entries of a dictionary are written one by one. -/
theorem buildEntries_text (writable : ∀ entry ∈ entries, IsUTF8 entry.1 ∧ Writable levels entry.2) :
    (∀ piece ∈ buildEntries doubleToString pretty_print true entries depth, Ascii piece) ∧
    ∃ es, List.Forall₂ (Piece (PairText .utf32 nested))
        (buildEntries doubleToString pretty_print true entries depth) es ∧
      List.Forall₂ (Rereads BasicEntry) entries es := by
  induction entries with
  | nil =>
    refine ⟨fun piece mem => ?_, [], .nil, .nil⟩
    cases mem
  | cons entry entries ih =>
    obtain ⟨⟨isUTF8, first⟩, rest⟩ := forall_mem_cons.mp writable
    obtain ⟨ascii, w, isNested, rereads, -⟩ := element entry.2 (depth + 1) first
    obtain ⟨asciiRest, es, pieces, others⟩ := ih rest
    obtain ⟨key, isKey, asciiKey, keyText⟩ := jsonDoubleQuote_text isUTF8
    obtain ⟨asciiIndent, indent⟩ := @pretty_white pretty_print _ white_indentLine
    obtain ⟨asciiBlank, blank⟩ := @pretty_white pretty_print [0x20] (by simp)
    have keyRereads := rereads_stringOf isUTF8
    rw [buildEntries, appendQuotedString, isKey]
    refine ⟨forall_mem_cons.mpr ⟨?_, asciiRest⟩, (stringOf .utf32 (utf8ToUTF16 entry.1), w) :: es,
      .cons ⟨_, _, [], ?_, indent, .pair keyText .nil blank isNested, .nil⟩
        pieces, .cons ⟨⟨keyRereads.basic, rereads.basic⟩, ?_⟩ others⟩
    · have asciiQuoted : Ascii (0x22 :: (key ++ [0x22])) :=
        .cons (by decide) (asciiKey.append (.cons (by decide) .nil))
      exact ((asciiIndent.append asciiQuoted).append (.cons (by decide) asciiBlank)).append ascii
    · simp
    · rintro ⟨basicKey, basicValue⟩
      exact Prod.ext (keyRereads.same basicKey) (rereads.same basicValue)

theorem written_list {items : List (Value Double)}
    (writable : ∀ item ∈ items, Writable levels item) :
    Written (ValueText .utf32 stringToDouble isFinite trailing nested)
      (buildJSONString doubleToString pretty_print true (.list items) depth) (.list items) := by
  obtain ⟨asciiPieces, ws, pieces, rereads⟩ := buildItems_text element writable
  obtain ⟨asciiBlank, blank⟩ := @pretty_white pretty_print [0x20] (by simp)
  obtain ⟨basic, same⟩ := rereads_all rereads
  have comma : Ascii (0x2c :: pretty pretty_print [0x20]) := .cons (by decide) asciiBlank
  rw [buildJSONString]
  refine ⟨?_, .list ws, ?_, ⟨.list basic, ?_⟩, fun _ => trivial⟩
  · exact ((Ascii.append (.cons (by decide) asciiBlank)
      (comma.intercalate asciiPieces)).append asciiBlank).append (.cons (by decide) .nil)
  · have isText : codes ([0x5b] ++ pretty pretty_print [0x20] ++
        (0x2c :: pretty pretty_print [0x20]).intercalate
          (buildItems doubleToString pretty_print true items depth) ++
        pretty pretty_print [0x20] ++ [0x5d]) =
        0x5b :: (codes (pretty pretty_print [0x20]) ++
          (codes ((0x2c :: pretty pretty_print [0x20]).intercalate
            (buildItems doubleToString pretty_print true items depth)) ++
          codes (pretty pretty_print [0x20])) ++ [0x5d]) := by
      simp
    rw [isText]
    rcases separated_intercalate blank pieces blank blank with
      separated | ⟨space, rfl⟩
    · exact .array separated
    · exact .emptyArray space
  · rintro (- | - | - | - | - | basicItems)
    rw [same basicItems]

/-- A dictionary is written as an object. -/
theorem written_dictionary {entries : List (Bytes × Value Double)} (ascending : Ascending entries)
    (writable : ∀ entry ∈ entries, IsUTF8 entry.1 ∧ Writable levels entry.2) :
    Written (ValueText .utf32 stringToDouble isFinite trailing nested)
      (buildJSONString doubleToString pretty_print true (.dictionary entries) depth)
      (.dictionary entries) := by
  obtain ⟨asciiPieces, es, pieces, rereads⟩ := buildEntries_text element writable
  obtain ⟨asciiEnding, ending⟩ :=
    @pretty_white pretty_print kPrettyPrintLineEnding (by simp [kPrettyPrintLineEnding])
  obtain ⟨asciiLast, last⟩ :=
    @pretty_white pretty_print (kPrettyPrintLineEnding ++ indentLine depth) (by
      intro byte mem
      rcases mem_append.mp mem with isEnding | isIndent
      · exact .inr (mem_singleton.mp isEnding)
      · exact white_indentLine byte isIndent)
  obtain ⟨basic, same⟩ := rereads_all rereads
  have comma : Ascii (0x2c :: pretty pretty_print kPrettyPrintLineEnding) :=
    .cons (by decide) asciiEnding
  have basicEntry : ∀ entry ∈ dictionaryOf es, BasicEntry entry :=
    fun entry mem => basic entry (mem_of_mem_dictionaryOf mem)
  rw [buildJSONString]
  refine ⟨?_, .dictionary (dictionaryOf es), ?_,
    ⟨.dictionary (fun entry mem => (basicEntry entry mem).1)
      (fun entry mem => (basicEntry entry mem).2), ?_⟩, fun _ => trivial⟩
  · exact ((Ascii.append (.cons (by decide) asciiEnding)
      (comma.intercalate asciiPieces)).append asciiLast).append (.cons (by decide) .nil)
  · have isText : codes ([0x7b] ++ pretty pretty_print kPrettyPrintLineEnding ++
        (0x2c :: pretty pretty_print kPrettyPrintLineEnding).intercalate
          (buildEntries doubleToString pretty_print true entries depth) ++
        pretty pretty_print (kPrettyPrintLineEnding ++ indentLine depth) ++ [0x7d]) =
        0x7b :: (codes (pretty pretty_print kPrettyPrintLineEnding) ++
          (codes ((0x2c :: pretty pretty_print kPrettyPrintLineEnding).intercalate
            (buildEntries doubleToString pretty_print true entries depth)) ++
          codes (pretty pretty_print (kPrettyPrintLineEnding ++ indentLine depth))) ++ [0x7d]) := by
      simp
    rw [isText]
    rcases separated_intercalate ending pieces ending last with
      separated | ⟨space, rfl⟩
    · exact .object separated
    · exact .emptyObject space
  · rintro (- | - | - | - | - | - | ⟨basicKeys, basicValues⟩)
    rw [same fun entry mem => ⟨basicKeys entry mem, basicValues entry mem⟩,
      dictionaryOf_eq ascending]

end

end Building

set_option maxRecDepth 2048 in
/-- What is written for a value is in the language. -/
theorem buildJSONString_text (levels : Nat) {v : Value Double} (writable : Writable levels v)
    (depth : Nat) :
    Written (NestedText .utf32 stringToDouble isFinite trailing levels)
      (buildJSONString doubleToString pretty_print true v depth) v := by
  induction levels generalizing v depth with
  | zero => exact writable.elim
  | succ levels ih =>
    have elem : ∀ (v : Value Double) (depth : Nat), Writable levels v ->
        Written (NestedText .utf32 stringToDouble isFinite trailing levels)
          (buildJSONString doubleToString pretty_print true v depth) v :=
      fun v depth writable => ih writable depth
    cases v with
    | null =>
      rw [buildJSONString]
      refine ⟨?_, .null, .null, ⟨.null, fun _ => rfl⟩, id⟩
      intro byte mem
      revert byte
      decide
    | boolean val =>
      rw [buildJSONString]
      refine ⟨?_, .boolean val, ?_, ⟨.boolean val, fun _ => rfl⟩, id⟩
      · intro byte mem
        revert byte
        cases val <;> decide
      · cases val with
        | false => exact .false_
        | true => exact .true_
    | integer val =>
      rw [buildJSONString]
      obtain ⟨ascii, isNumber⟩ := printInt_text
      refine ⟨ascii, .integer val, .number isNumber (.integer ?_),
        ⟨.integer val, fun _ => rfl⟩, id⟩
      rw [ascii.wideToUTF8_codes]
      exact stringToInt_printInt writable
    | double val => exact writable.elim
    | string val =>
      rw [buildJSONString, if_pos rfl]
      obtain ⟨w, isString, ascii, isText⟩ := jsonDoubleQuote_text writable
      have rereads := rereads_stringOf writable
      rw [isString]
      refine ⟨.cons (by decide) (ascii.append (.cons (by decide) .nil)),
        .string (stringOf .utf32 (utf8ToUTF16 val)), ?_,
        ⟨.string rereads.basic, ?_⟩, id⟩
      · rw [codes_cons, codes_append]
        exact .string isText
      · rintro (- | - | - | - | basic)
        rw [rereads.same basic]
    | list items => exact written_list elem writable
    | dictionary entries => exact written_dictionary elem writable.1 writable.2

theorem textOf_codes (ascii : Ascii json) : textOf .utf32 (codes json) = codes json := by
  have noMark : ¬ (codes json).head? = some 0xfeff := by
    intro isMark
    have small := (ascii.of_mem_codes (List.mem_of_mem_head? isMark)).2
    omega
  rw [textOf, if_neg noMark]
  exact flatMap_singleton' _

/-- A value that is written is read, and is that value if and only if its
strings and keys have no code points above U+FFFF. -/
theorem read_write_basic (stringToDouble : Bytes -> Option Double) (isFinite : Double -> Bool)
    (doubleToString : Double -> Bytes)
    (pretty_print allow_trailing_comma : Bool) (v : Value Double)
    (writable : Writable kStackLimit v) (root : IsRoot v) :
    ∃ w, JSONReader.read .utf32 stringToDouble isFinite
        (write doubleToString pretty_print v) allow_trailing_comma = some (some w) ∧
      (w = v ↔ Basic v) := by
  obtain ⟨ascii, w, isNested, rereads, isRoot⟩ :=
    @buildJSONString_text _ stringToDouble isFinite doubleToString
      allow_trailing_comma pretty_print kStackLimit v writable 0
  obtain ⟨asciiEnding, ending⟩ := @pretty_white pretty_print
    kPrettyPrintLineEnding (by simp [kPrettyPrintLineEnding])
  have asciiAll : Ascii (write doubleToString pretty_print v) := ascii.append asciiEnding
  have small : ∀ c ∈ codes (write doubleToString pretty_print v), c < 0xd800 :=
    fun c member => Nat.lt_trans (asciiAll.of_mem_codes member).2 (by decide)
  have isText : RootText .utf32 stringToDouble isFinite allow_trailing_comma
      (textOf .utf32 (codes (write doubleToString pretty_print v))) w := by
    rw [textOf_codes asciiAll]
    exact ⟨[], _, _, codes_append, .nil, isNested, isRoot root, .closed ending⟩
  obtain ⟨result, next, isRead, accepts, -⟩ :=
    jsonToValue_accepts .utf32 stringToDouble isFinite allow_trailing_comma
      JSONReader.create (codes (write doubleToString pretty_print v))
      (fun c member => isValidCodepoint_of_lt (small c member))
  have plain : 0 ∉ codes (write doubleToString pretty_print v) :=
    fun member => Nat.lt_irrefl 0 (asciiAll.of_mem_codes member).1
  have characters : ∀ c ∈ codes (write doubleToString pretty_print v),
      isValidCharacter c = true := by
    intro c member
    rw [isValidCharacter, decide_eq_true (small c member)]
    rfl
  have isSome := (accepts plain w).mpr ⟨characters, isText⟩
  rw [asciiAll.flatMap_codes] at isRead
  refine ⟨w, ?_, ?_⟩
  · rw [JSONReader.read, isRead, isSome]
    rfl
  · constructor
    · rintro rfl
      exact rereads.basic
    · exact rereads.same

/-- A list of a string and a number is read back. -/
theorem read_write_two : JSONReader.read .utf32 (fun _ => some ()) (fun _ => true)
        (write (fun _ : Unit => []) true (.list [.string [0x61], .integer (-1)])) false =
      some (some (.list [.string [0x61], .integer (-1)])) := by
  obtain ⟨w, isRead, same⟩ := read_write_basic (fun _ => some ()) (fun _ => true)
    (fun _ : Unit => []) true false (.list [.string [0x61], .integer (-1)])
    (by
      intro item member
      rcases mem_cons.mp member with rfl | isLast
      · exact ⟨[0x61], rfl, by decide⟩
      · rw [mem_singleton.mp isLast]
        exact ⟨by decide, by decide⟩) trivial
  have basic : Basic (.list [.string [0x61], .integer (-1)] : Value Unit) := by
    refine .list fun item member => ?_
    rcases mem_cons.mp member with rfl | isLast
    · exact .string ⟨[0x61], rfl, by decide⟩
    · rw [mem_singleton.mp isLast]
      exact .integer (-1)
  rw [isRead, same.mpr basic]

/-- The two units of a code point above U+FFFF are read as two replacement
characters. -/
theorem not_read_write : ¬ ∀ (pretty_print : Bool) (v : Value Unit), Writable kStackLimit v ->
      IsRoot v -> JSONReader.read .utf32 (fun _ => none) (fun _ => true)
        (write (fun _ => []) pretty_print v) false = some (some v) := by
  intro reads
  have isRead := reads false (.list [.string [0xf0, 0x9f, 0x98, 0x80]]) (fun item member => by
      rw [mem_singleton.mp member]
      exact ⟨[0x1f600], rfl, by decide⟩) trivial
  have isOther : JSONReader.read .utf32 (fun _ => none) (fun _ => true)
      (write (fun _ : Unit => []) false (.list [.string [0xf0, 0x9f, 0x98, 0x80]])) false =
      some (some (.list [.string [0xef, 0xbf, 0xbd, 0xef, 0xbf, 0xbd]] : Value Unit)) := rfl
  rw [isOther] at isRead
  simp at isRead

end

end Chromium.Json
