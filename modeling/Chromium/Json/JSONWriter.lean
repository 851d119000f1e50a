import Chromium.Base.StringNumberConversions
import Chromium.Base.UtfStringConversions
import Mathlib.Data.List.Lex

/-!
# Values

The values that are written to and read from JSON. What a `double` is stays
open.
-/

namespace Chromium.Json

open List

/-- `Value`. A dictionary has its entries in the order of the keys. -/
inductive Value (Double : Type) where
  | null
  | boolean (value : Bool)
  | integer (value : Int)
  | double (value : Double)
  | string (value : Bytes)
  | list (items : List (Value Double))
  | dictionary (entries : List (Bytes × Value Double))

/-- `DictionaryValue::SetWithoutPathExpansion`. -/
def setWithoutPathExpansion (dictionary : List (Bytes × α)) (key : Bytes) (value : α) :
    List (Bytes × α) :=
  match dictionary with
  | [] => [(key, value)]
  | entry :: rest =>
    if key < entry.1 then (key, value) :: entry :: rest
    else if key = entry.1 then (key, value) :: rest
    else entry :: setWithoutPathExpansion rest key value

/-- A dictionary in which entries are set one after another. -/
def dictionaryOf (entries : List (Bytes × α)) : List (Bytes × α) :=
  entries.foldl (fun dictionary entry => setWithoutPathExpansion dictionary entry.1 entry.2) []

/-- The keys of a dictionary ascend. -/
def Ascending (entries : List (Bytes × α)) : Prop :=
  entries.Pairwise fun entry later => entry.1 < later.1

/-- An entry behind the others is set behind them. -/
theorem setWithoutPathExpansion_append {dictionary : List (Bytes × α)}
    (behind : ∀ entry ∈ dictionary, entry.1 < key) :
    setWithoutPathExpansion dictionary key val = dictionary ++ [(key, val)] := by
  induction dictionary with
  | nil => rfl
  | cons entry rest ih =>
    have before := behind entry mem_cons_self
    have ne : key ≠ entry.1 := by
      rintro rfl
      exact List.lt_irrefl _ before
    rw [setWithoutPathExpansion, if_neg (List.lt_asymm before), if_neg ne, ih
        (forall_mem_cons.mp behind).2]
    rfl

/-- Entries in the order of their keys are the dictionary. -/
theorem dictionaryOf_eq {entries : List (Bytes × α)} (ascending : Ascending entries) :
    dictionaryOf entries = entries := by
  have behind : ∀ dictionary : List (Bytes × α), Ascending (dictionary ++ entries) ->
      entries.foldl (fun dictionary entry =>
        setWithoutPathExpansion dictionary entry.1 entry.2) dictionary = dictionary ++ entries := by
    clear ascending
    induction entries with
    | nil => exact fun dictionary _ => (append_nil _).symm
    | cons entry rest ih =>
      intro dictionary ascending
      have before : ∀ earlier ∈ dictionary, earlier.1 < entry.1 :=
        fun earlier mem => (pairwise_append.mp ascending).2.2 _ mem _ mem_cons_self
      rw [foldl_cons, setWithoutPathExpansion_append before, ih]
      · rw [append_assoc]
        rfl
      · rw [append_assoc]
        exact ascending
  exact behind [] ascending

/-- The keys of a dictionary are those that are set. -/
theorem mem_keys_setWithoutPathExpansion
    (mem : entry ∈ setWithoutPathExpansion dictionary key val) :
    entry = (key, val) ∨ entry ∈ dictionary := by
  induction dictionary with
  | nil => exact .inl (mem_singleton.mp mem)
  | cons first rest ih =>
    rw [setWithoutPathExpansion] at mem
    split_ifs at mem
    · exact mem_cons.mp mem
    · rcases mem_cons.mp mem with isEntry | inRest
      · exact .inl isEntry
      · exact .inr (mem_cons_of_mem _ inRest)
    · rcases mem_cons.mp mem with isFirst | inRest
      · exact .inr (mem_cons.mpr (.inl isFirst))
      · rcases ih inRest with isEntry | later
        · exact .inl isEntry
        · exact .inr (mem_cons_of_mem _ later)

theorem mem_of_mem_dictionaryOf {entry : Bytes × α} (mem : entry ∈ dictionaryOf entries) :
    entry ∈ entries := by
  have either : ∀ dictionary : List (Bytes × α), entry ∈ entries.foldl (fun dictionary entry =>
        setWithoutPathExpansion dictionary entry.1 entry.2) dictionary ->
      entry ∈ dictionary ∨ entry ∈ entries := by
    clear mem
    induction entries with
    | nil => exact fun dictionary inIt => .inl inIt
    | cons first rest ih =>
      intro dictionary inIt
      rcases ih _ inIt with isSet | inRest
      · rcases mem_keys_setWithoutPathExpansion isSet with isFirst | before
        · exact .inr (mem_cons.mpr (.inl isFirst))
        · exact .inl before
      · exact .inr (mem_cons_of_mem _ inRest)
  rcases either [] mem with inNil | inEntries
  · exact absurd inNil not_mem_nil
  · exact inEntries

/-!
## Writing JSON

`JSONWriter`, and the escapes of the strings that it writes.
-/

section

open Base

/-- The bytes of an ASCII string. -/
def narrow (str : String) : Bytes := str.toList.map fun c => .ofNat c.toNat

/-- `JsonSingleEscapeChar`. -/
def jsonSingleEscapeChar (c : Nat) : Option Bytes :=
  if c = 0x08 then some [0x5c, 0x62]
  else if c = 0x0c then some [0x5c, 0x66]
  else if c = 0x0a then some [0x5c, 0x6e]
  else if c = 0x0d then some [0x5c, 0x72]
  else if c = 0x09 then some [0x5c, 0x74]
  else if c = 0x5c then some [0x5c, 0x5c]
  else if c = 0x22 then some [0x5c, 0x22]
  else none

/-- A digit of `%X`. -/
def hexDigit (digit : Nat) : UInt8 := .ofNat (if digit < 10 then digit + 0x30 else digit + 0x37)

/-- `StringAppendF` with `%04X`, of a number of sixteen bits. -/
def printHex4 (n : Nat) : Bytes :=
  [hexDigit (n / 4096), hexDigit (n / 256 % 16), hexDigit (n / 16 % 16), hexDigit (n % 16)]

/-- What the loop of `JsonDoubleQuoteT` appends for a character. -/
def jsonEscape (c : Nat) : Bytes :=
  match jsonSingleEscapeChar c with
  | some escape => escape
  | none =>
    -- `<` and `>` are escaped to prevent script execution.
    if c < 32 ∨ 126 < c ∨ c = 0x3c ∨ c = 0x3e then [0x5c, 0x75] ++ printHex4 c
    else [.ofNat c]

/-- `JsonDoubleQuoteT`, of a string of unsigned characters. -/
def jsonDoubleQuote (str : List Nat) (put_in_quotes : Bool) : Bytes :=
  (if put_in_quotes then [0x22] else []) ++ str.flatMap jsonEscape ++
    (if put_in_quotes then [0x22] else [])

/-- `kPrettyPrintLineEnding`, where it is not that of Windows. -/
def kPrettyPrintLineEnding : Bytes := [0x0a]

namespace JSONWriter

/-- `AppendQuotedString`. -/
def appendQuotedString (str : Bytes) : Bytes := jsonDoubleQuote (utf8ToUTF16 str) true

/-- `IndentLine`. -/
def indentLine (depth : Nat) : Bytes := List.replicate (depth * 3) 0x20

/-- What `BuildJSONString` appends for a double. -/
def realOf (real : Bytes) : Bytes :=
  -- A real must have a point or an exponent.
  let real :=
    if 0x2e ∈ real ∨ 0x65 ∈ real ∨ 0x45 ∈ real then real
    else real ++ narrow ".0"
  -- There must be a zero before the point.
  match real with
  | 0x2e :: rest => 0x30 :: 0x2e :: rest
  | 0x2d :: 0x2e :: rest => 0x2d :: 0x30 :: 0x2e :: rest
  | real => real

section Building

variable {Double : Type} (doubleToString : Double -> Bytes) (pretty_print escape : Bool)

/-- What is appended where lines are pretty. -/
def pretty (json : Bytes) : Bytes := if pretty_print then json else []

mutual

/-- `BuildJSONString`. -/
def buildJSONString : Value Double -> Nat -> Bytes
  | .null, _ => narrow "null"
  | .boolean value, _ => if value then narrow "true" else narrow "false"
  | .integer value, _ => printInt value
  | .double value, _ => realOf (doubleToString value)
  | .string value, _ =>
    if escape then jsonDoubleQuote (utf8ToUTF16 value) true
    else jsonDoubleQuote (value.map UInt8.toNat) true
  | .list items, depth =>
    [0x5b] ++ pretty pretty_print [0x20] ++
      (0x2c :: pretty pretty_print [0x20]).intercalate (buildItems items depth) ++
      pretty pretty_print [0x20] ++ [0x5d]
  | .dictionary entries, depth =>
    [0x7b] ++ pretty pretty_print kPrettyPrintLineEnding ++
      (0x2c :: pretty pretty_print kPrettyPrintLineEnding).intercalate
        (buildEntries entries depth) ++
      pretty pretty_print (kPrettyPrintLineEnding ++ indentLine depth) ++
      [0x7d]

/-- The loop over a list, without the separators. -/
def buildItems : List (Value Double) -> Nat -> List Bytes
  | [], _ => []
  | value :: rest, depth => buildJSONString value depth :: buildItems rest depth

/-- The loop over a dictionary, without the separators. -/
def buildEntries : List (Bytes × Value Double) -> Nat -> List Bytes
  | [], _ => []
  | (key, value) :: rest, depth =>
    (pretty pretty_print (indentLine (depth + 1)) ++ appendQuotedString key ++
      (0x3a :: pretty pretty_print [0x20]) ++
      buildJSONString value (depth + 1)) ::
    buildEntries rest depth

end

/-- `WriteWithOptionalEscape`. -/
def writeWithOptionalEscape (node : Value Double) : Bytes :=
  buildJSONString doubleToString pretty_print escape node 0 ++
    pretty pretty_print kPrettyPrintLineEnding

/-- `Write`. -/
def write (node : Value Double) : Bytes :=
  writeWithOptionalEscape doubleToString pretty_print true node

end Building

end JSONWriter

end

end Chromium.Json
