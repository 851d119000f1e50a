import Chromium.Net.HttpResponseHeaders

/-!
# Headers line by line

What is parsed from raw headers depends on the texts of their lines only, and
not on where they are.
-/

namespace Chromium.Net

open List hiding iter span
open Function

section

open Library (Span tokens tokensFrom)

namespace HttpUtil

/-- The scanner of lines. -/
abbrev advanceLine (_ : Unit) (c : UInt8) : Option Unit := if c = 0 then none else some ()

/-- The texts of the lines between null bytes. -/
def lineTexts (text : Bytes) : List Bytes :=
  (tokens () advanceLine text).map (Span.of · text)

theorem lines_append (front : Bytes) : lines (front ++ text) front.length =
      (tokens () advanceLine text).map (Span.shift front.length) := by
  rw [lines, drop_left]

/-- Where no null byte is, the whole text is a line that has begun. -/
theorem tokensFrom_line (noNull : 0 ∉ line) (first : Nat) :
    tokensFrom () advanceLine pos (some (first, ())) line = [⟨first, pos + line.length⟩] := by
  induction line generalizing pos with
  | nil => rfl
  | cons c rest ih =>
    rw [mem_cons, not_or] at noNull
    have advance : advanceLine () c = some () := if_neg (Ne.symm noNull.1)
    rw [tokensFrom, advance]
    dsimp only
    rw [ih noNull.2, length_cons]
    congr 2
    omega

theorem tokens_line (noNull : 0 ∉ line) :
    tokens () advanceLine line = if line = [] then [] else [⟨0, line.length⟩] := by
  cases line with
  | nil => rfl
  | cons c rest =>
    rw [mem_cons, not_or] at noNull
    have advance : advanceLine () c = some () := if_neg (Ne.symm noNull.1)
    rw [tokens, tokensFrom, advance]
    dsimp only
    rw [tokensFrom_line noNull.2, if_neg (cons_ne_nil _ _), length_cons]
    congr 2
    omega

/-- The line in front of a null byte, and those behind it. -/
theorem lineTexts_append (noNull : 0 ∉ line) :
    lineTexts (line ++ 0 :: rest) = (if line = [] then [] else [line]) ++ lineTexts rest := by
  have stops : ∀ s, advanceLine s 0 = none := fun _ => rfl
  have split := @Library.tokensFrom_append_delimiter _ _ () advanceLine 0 stops 0 none line rest
  rw [Library.tokensFrom_eq_shift () advanceLine rest] at split
  rw [lineTexts, tokens, split, map_append, List.map_map]
  congr 1
  · rw [show tokensFrom () advanceLine 0 none line =
      tokens () advanceLine line from rfl, tokens_line noNull]
    split_ifs with empty
    · rfl
    · rw [map_cons, map_nil, Span.of_append (Nat.le_refl _), Span.of, take_length, drop_zero]
  · apply map_congr_left
    intro span _
    have behind : 0 + line.length + 1 = (line ++ [(0 : UInt8)]).length := by
      rw [length_append, length_singleton, Nat.zero_add]
    rw [comp_apply, behind, show line ++ 0 :: rest =
      (line ++ [0]) ++ rest from append_cons line 0 rest, Span.shift_of]

/-- A line is not empty and has no null byte. -/
theorem lineTexts_single (noNull : 0 ∉ line) :
    lineTexts line = if line = [] then [] else [line] := by
  rw [lineTexts, tokens_line noNull]
  split_ifs with empty
  · rfl
  · rw [map_cons, map_nil, Span.of, take_length, drop_zero]

/-- The values of a header in its line. -/
def valuesInLine (line : Bytes) (header : Header) : List Span :=
  if header.values.first = header.values.last ∨ isNonCoalescingHeader (header.name.of line) then
    [header.values]
  else (values (header.values.of line)).map (Span.shift header.values.first)

/-- The names and the values that a line adds; a continuation has no name. -/
def namesAndValuesOfLine (line : Bytes) : List (Bytes × Bytes) :=
  match headerOfLine line with
  | none => []
  | some header =>
    match valuesInLine line header with
    | [] => []
    | value :: continuations =>
      (header.name.of line, value.of line) :: continuations.map fun value => ([], value.of line)

/-- The parts of a header are inside its line, and the name is not empty. -/
theorem headerOfLine_inside (hit : headerOfLine line = some header) :
    header.name.first < header.name.last ∧ header.name.last < header.values.first ∧
      header.values.first <= header.values.last ∧ header.values.last <= line.length := by
  unfold headerOfLine at hit
  dsimp only at hit
  have colonInside : line.findIdx (· == 0x3a) <= line.length := findIdx_le_length
  split at hit
  · cases hit
  · split at hit
    · cases hit
    · have nameInside := Span.trim_inside isLWS (show (Span.mk 0 (line.findIdx (· == 0x3a))).first ≤
          (Span.mk 0 (line.findIdx (· == 0x3a))).last from Nat.zero_le _)
        colonInside
      have valuesInside := @Span.trim_inside UInt8 line
        ⟨line.findIdx (· == 0x3a) + 1, line.length⟩ isLWS
        (by dsimp only; omega) (Nat.le_refl _)
      split at hit
      · cases hit
      next nonempty =>
        cases hit
        dsimp only [trimLWS] at nonempty valuesInside nameInside ⊢
        omega

theorem values_inside (mem : value ∈ values text) :
    value.first < value.last ∧ value.last <= text.length := by
  obtain ⟨trimmed, ne⟩ := mem_filter.mp mem
  obtain ⟨token, isToken, rfl⟩ := List.mem_map.mp trimmed
  have inside := Library.mem_tokensFrom_inside isToken (fun _ begun => by cases begun)
  rw [Nat.zero_add] at inside
  have ordered := Span.trim_inside isLWS (Nat.le_of_lt inside.1) inside.2
  rw [decide_eq_true_iff] at ne
  unfold trimLWS at ne ⊢
  omega

theorem valuesInLine_inside (hit : headerOfLine line = some header)
    (mem : value ∈ valuesInLine line header) :
    header.values.first <= value.first ∧ value.first <= value.last ∧
      value.last <= header.values.last := by
  obtain ⟨_, _, ordered, inside⟩ := headerOfLine_inside hit
  unfold valuesInLine at mem
  split at mem
  · rw [mem_singleton.mp mem]
    exact ⟨Nat.le_refl _, ordered, Nat.le_refl _⟩
  · obtain ⟨inner, isValue, rfl⟩ := List.mem_map.mp mem
    have insideValue := values_inside isValue
    rw [Span.length_of inside] at insideValue
    dsimp only [Span.shift]
    omega

end HttpUtil

open HttpUtil

namespace HttpResponseHeaders

/-- A line that is part of the raw headers at an offset. -/
def LineAt (raw : Bytes) (offset : Nat) (line : Bytes) : Prop :=
  ∀ span : Span, span.last <= line.length -> (span.shift offset).of raw = span.of line

/-- The headers that a line at an offset adds to those parsed from raw headers
of a given size. -/
def parsedOfLine (size offset : Nat) (line : Bytes) : List ParsedHeader :=
  match headerOfLine line with
  | none => []
  | some header =>
    match valuesInLine line header with
    | [] => []
    | value :: continuations =>
      ⟨header.name.shift offset, value.shift offset⟩ :: continuations.map fun value =>
          ⟨⟨size, size⟩, value.shift offset⟩

theorem addHeader_lineAt (lineAt : LineAt raw offset line)
    (hit : headerOfLine line = some header) :
    addHeader raw (header.shift offset) = parsedOfLine raw.length offset line := by
  obtain ⟨nameOrdered, nameBefore, ordered, inside⟩ := headerOfLine_inside hit
  have name : (header.name.shift offset).of raw = header.name.of line :=
    lineAt header.name (by omega)
  have values_ : (header.values.shift offset).of raw = header.values.of line :=
    lineAt header.values inside
  have sameEmpty : ((header.values.shift offset).first = (header.values.shift offset).last) =
        (header.values.first = header.values.last) := by
    simp only [Span.shift, Nat.add_right_inj]
  unfold addHeader parsedOfLine valuesInLine
  rw [hit]
  dsimp only [Header.shift]
  simp only [name, values_, sameEmpty]
  split
  · rfl
  · rw [show List.map (Span.shift (header.values.shift offset).first)
        (values (header.values.of line)) =
      ((values (header.values.of line)).map
        (Span.shift header.values.first)).map (Span.shift offset) by
      rw [List.map_map]
      apply map_congr_left
      intro span _
      simp only [comp_apply, Span.shift, Nat.add_assoc]]
    cases (values (header.values.of line)).map (Span.shift header.values.first) with
    | nil => rfl
    | cons val continuations =>
      rw [map_cons]
      dsimp only
      rw [List.map_map]
      rfl

theorem lineAt_of_mem (front : Bytes) (isLine : span ∈ tokens () advanceLine text) :
    LineAt (front ++ text) (front.length + span.first) (span.of text) := by
  have inside := Library.mem_tokensFrom_inside isLine (fun _ begun => by cases begun)
  rw [Nat.zero_add] at inside
  intro inner innerInside
  rw [Span.length_of inside.2] at innerInside
  have twice : inner.shift (front.length + span.first) =
      (inner.shift span.first).shift front.length := by
    simp only [Span.shift, Nat.add_assoc]
  rw [twice, Span.shift_of, Span.of_of (by omega)]

/-- The parsed headers are those of the lines. -/
theorem parsed_eq (front : Bytes) :
    (headers (front ++ text) front.length).flatMap (addHeader (front ++ text)) =
      (tokens () advanceLine text).flatMap fun span =>
        parsedOfLine (front ++ text).length (front.length + span.first) (span.of text) := by
  rw [headers, lines_append, filterMap_eq_flatMap_toList, flatMap_map, flatMap_assoc]
  apply flatMap_congr
  intro span isLine
  have lineAt := lineAt_of_mem front isLine
  have whole : (span.shift front.length).of (front ++ text) = span.of text :=
    Span.shift_of
  rw [whole]
  cases hit : headerOfLine (span.of text) with
  | none =>
    rw [parsedOfLine, hit]
    rfl
  | some header =>
    rw [← addHeader_lineAt lineAt hit]
    exact flatMap_singleton _ _

/-- The names and the values at the headers that a line adds. -/
theorem parsedOfLine_texts (lineAt : LineAt raw offset line) :
    (parsedOfLine raw.length offset line).map
        (fun header => (header.name.of raw, header.value.of raw)) = namesAndValuesOfLine line := by
  unfold parsedOfLine namesAndValuesOfLine
  cases found : headerOfLine line with
  | none => rfl
  | some header =>
    obtain ⟨nameOrdered, nameBefore, ordered, inside⟩ := headerOfLine_inside found
    have nameText := lineAt header.name (by omega)
    have valueText : ∀ val ∈ valuesInLine line header,
        (val.shift offset).of raw = val.of line := by
      intro val mem
      have valueInside := valuesInLine_inside found mem
      exact lineAt val (by omega)
    dsimp only
    cases isValues : valuesInLine line header with
    | nil => rfl
    | cons val continuations =>
      rw [isValues] at valueText
      rw [map_cons, nameText, valueText val mem_cons_self, List.map_map]
      congr 1
      apply map_congr_left
      intro later mem
      have noName : (⟨raw.length, raw.length⟩ : Span).of raw = [] := by
        rw [Span.of, take_length, drop_length]
      rw [comp_apply, noName, valueText later (mem_cons_of_mem _ mem)]

/-- The names and the values that are parsed are those of the lines. -/
theorem namesAndValues_eq {headers : HttpResponseHeaders} {front : Bytes}
    (raw : headers.raw_headers = front ++ text)
    (parsed : headers.parsed = (HttpUtil.headers (front ++ text) front.length).flatMap
        (addHeader (front ++ text))) :
    headers.namesAndValues = (lineTexts text).flatMap namesAndValuesOfLine := by
  rw [namesAndValues, raw, parsed, parsed_eq, map_flatMap, lineTexts, flatMap_map]
  apply flatMap_congr
  intro span isLine
  exact parsedOfLine_texts (lineAt_of_mem front isLine)

end HttpResponseHeaders

end

/-!
## Persisted raw headers

What is restored from the raw headers of a response. A normalized status line
is a fixed point of `ParseStatusLine`; where the number is missing from a
status line there is no null byte between it and the first header.
-/

section

open HttpUtil

/-- The bytes behind the first null byte. -/
def behind (text : Bytes) : Bytes := text.drop ((cStr text).length + 1)

/-- A text begins with a line that is not empty. -/
def beginsLine (text : Bytes) : Bool := text.headD 0 != 0

theorem cStr_of_not_mem (noNull : 0 ∉ line) : cStr line = line := by
  rw [cStr, takeWhile_eq_self_iff]
  intro c mem
  exact decide_eq_true fun isNull => noNull (isNull ▸ mem)

theorem cStr_append (noNull : 0 ∉ line) : cStr (line ++ 0 :: rest) = line := by
  rw [cStr, takeWhile_append_of_pos]
  · rw [takeWhile_cons_of_neg (by decide), append_nil]
  · intro c mem
    exact decide_eq_true fun isNull => noNull (isNull ▸ mem)

theorem not_mem_cStr (text : Bytes) : 0 ∉ cStr text := by
  intro mem
  have notNull := mem_takeWhile_imp mem
  exact absurd rfl (of_decide_eq_true notNull)

theorem behind_append (noNull : 0 ∉ line) : behind (line ++ 0 :: rest) = rest := by
  rw [behind, cStr_append noNull, drop_length_add_append]
  rfl

/-- A text with a null byte is split at the first one. -/
theorem cStr_append_behind (hasNull : 0 ∈ text) : cStr text ++ 0 :: behind text = text := by
  induction text with
  | nil => cases hasNull
  | cons c rest ih =>
    by_cases isNull : c = 0
    · subst isNull
      rfl
    · have hasLater : 0 ∈ rest := (mem_cons.mp hasNull).resolve_left (Ne.symm isNull)
      have shape : cStr (c :: rest) = c :: cStr rest :=
        takeWhile_cons_of_pos (decide_eq_true isNull)
      rw [behind, shape, length_cons, drop_succ_cons, cons_append]
      exact congrArg _ (ih hasLater)

namespace HttpResponseHeaders

section

variable (line : Bytes)

/-- A status line from its number on. -/
def statusPart : Bytes := (line.dropWhile (· ≠ 0x20)).dropWhile (· == 0x20)

def statusCode : Bytes := (statusPart line).takeWhile isDigit

def statusText : Bytes :=
  (((statusPart line).dropWhile isDigit).dropWhile (· == 0x20)).rdropWhile (· == 0x20)

/-- There is a space in the status line, but behind it no number. -/
def MissesNumber : Prop := 0x20 ∈ line ∧ statusCode line = []

end

instance (line : Bytes) : Decidable (MissesNumber line) := inferInstanceAs (Decidable (_ ∧ _))

/-- What the normalized status line has behind the version. -/
def numberAndText (code text : Bytes) : Bytes := 0x20 :: code ++ 0x20 :: text

/-- The number and the text of the normalized status line. -/
def normalized (line : Bytes) : Bytes × Bytes :=
  if statusCode line = [] then (ascii "200", ascii "OK")
  else (statusCode line, if statusText line = [] then ascii "OK" else statusText line)

theorem dropWhile_eq_nil_iff_not_mem {line : Bytes} :
    line.dropWhile (· ≠ 0x20) = [] ↔ 0x20 ∉ line := by
  rw [dropWhile_eq_nil_iff]
  constructor
  · intro allOther mem
    exact absurd rfl (of_decide_eq_true (allOther _ mem))
  · intro absent c mem
    exact decide_eq_true fun isSpace => absent (isSpace ▸ mem)

theorem statusCode_of_not_mem (noSpace : 0x20 ∉ line) : statusCode line = [] := by
  rw [statusCode, statusPart, dropWhile_eq_nil_iff_not_mem.mpr noSpace]
  rfl

/-- `ParseStatusLine` puts a null byte behind the status line unless the number
is missing. -/
theorem parseStatusLine_eq : parseStatusLine line has_headers =
      { raw_headers :=
          (clampVersion (parseVersion line) has_headers).2 ++
            numberAndText (normalized line).1 (normalized line).2 ++
              if MissesNumber line then [] else [0]
        http_version := (clampVersion (parseVersion line) has_headers).1
        parsed_http_version := parseVersion line
        response_code := stringToInt (normalized line).1 } := by
  unfold parseStatusLine
  dsimp only
  have okay : ascii " 200 OK" = numberAndText (ascii "200") (ascii "OK") := rfl
  have okayCode : (200 : Int) = stringToInt (ascii "200") := by decide
  by_cases noSpace : 0x20 ∉ line
  · rw [if_pos (dropWhile_eq_nil_iff_not_mem.mpr noSpace), normalized,
      if_pos (statusCode_of_not_mem noSpace),
      if_neg fun misses : MissesNumber line => noSpace misses.1, okay, okayCode]
  · rw [if_neg fun none_ => noSpace (dropWhile_eq_nil_iff_not_mem.mp none_)]
    rw [not_not] at noSpace
    change (if statusCode line = [] then _ else _) = _
    by_cases noCode : statusCode line = []
    · rw [if_pos noCode, normalized, if_pos noCode,
        if_pos (show MissesNumber line from ⟨noSpace, noCode⟩), okay, okayCode,
        append_nil]
    · rw [if_neg noCode, normalized, if_neg noCode,
        if_neg fun misses : MissesNumber line => noCode misses.2]
      simp only [numberAndText, append_assoc, cons_append]
      rfl

/-- A number and a text as they are in a normalized status line, but for spaces
at the end of the text. -/
structure Normal (code text : Bytes) : Prop where
  hasCode : code ≠ []
  digits : ∀ c ∈ code, isDigit c = true
  hasText : text ≠ []
  begins : text.head? ≠ some 0x20

theorem isDigit_ne_space (digit : isDigit c = true) : c ≠ 0x20 := by
  rintro rfl
  exact absurd digit (by decide)

set_option maxRecDepth 2048 in
theorem normal_normalized : Normal (normalized line).1 (normalized line).2 := by
  have okay : Normal (ascii "200") (ascii "OK") := ⟨by decide, by decide, by decide, by decide⟩
  unfold normalized
  split_ifs with noCode noText
  · exact okay
  · exact ⟨noCode, fun _ => mem_takeWhile_imp, okay.hasText, okay.begins⟩
  · refine ⟨noCode, fun _ => mem_takeWhile_imp, noText, ?_⟩
    intro isSpace
    obtain ⟨trimmed, split⟩ := rdropWhile_prefix (· == (0x20 : UInt8))
      (((statusPart line).dropWhile isDigit).dropWhile (· == 0x20))
    have first : (((statusPart line).dropWhile isDigit).dropWhile
        (· == 0x20)).head? = some 0x20 := by
      rw [← split]
      exact (head?_append_of_ne_nil _ noText).trans isSpace
    have notSpace := head?_dropWhile_not (· == (0x20 : UInt8)) ((statusPart line).dropWhile isDigit)
    rw [first] at notSpace
    exact absurd notSpace (by decide)

/-- The text of a normalized status line does not end in a space. -/
theorem rdropWhile_normalized :
    (normalized line).2.rdropWhile (· == 0x20) = (normalized line).2 := by
  have okay : (ascii "OK").rdropWhile (· == 0x20) = ascii "OK" := by decide
  unfold normalized
  split_ifs
  · exact okay
  · exact okay
  · exact rdropWhile_idempotent _ _

theorem Normal.rdropWhile_ne_nil (normal : Normal code text) :
    text.rdropWhile (· == 0x20) ≠ [] := by
  intro empty
  obtain ⟨first, rest, rfl⟩ := exists_cons_of_ne_nil normal.hasText
  have isSpace := rdropWhile_eq_nil_iff.mp empty first mem_cons_self
  exact normal.begins (congrArg some (beq_iff_eq.mp isSpace))

section Normal

variable {front code text : Bytes} (noSpace : 0x20 ∉ front) (normal : Normal code text)

include noSpace normal

theorem statusPart_numberAndText :
    statusPart (front ++ numberAndText code text) = code ++ 0x20 :: text := by
  have other : ∀ c ∈ front, decide (c ≠ 0x20) = true := fun c mem =>
    decide_eq_true fun isSpace => noSpace (isSpace ▸ mem)
  obtain ⟨first, rest, rfl⟩ := exists_cons_of_ne_nil normal.hasCode
  have notSpace : (first :: (rest ++ 0x20 :: text)).head? ≠ some 0x20 :=
    fun isSpace => isDigit_ne_space (normal.digits first mem_cons_self) (Option.some.inj isSpace)
  rw [statusPart, dropWhile_append_of_pos other, numberAndText,
    cons_append, dropWhile_cons_of_neg (by decide),
    dropWhile_cons_of_pos (by decide), cons_append,
    dropWhile_beq_eq_self_of_head?_ne notSpace]

theorem statusCode_numberAndText : statusCode (front ++ numberAndText code text) = code := by
  rw [statusCode, statusPart_numberAndText noSpace normal, takeWhile_append_of_pos normal.digits,
    takeWhile_cons_of_neg (by decide), append_nil]

theorem statusText_numberAndText : statusText (front ++ numberAndText code text) =
      text.rdropWhile (· == 0x20) := by
  rw [statusText, statusPart_numberAndText noSpace normal, dropWhile_append_of_pos normal.digits,
    dropWhile_cons_of_neg (by decide),
    dropWhile_cons_of_pos (by decide),
    dropWhile_beq_eq_self_of_head?_ne normal.begins]

theorem normalized_numberAndText : normalized (front ++ numberAndText code text) =
      (code, text.rdropWhile (· == 0x20)) := by
  rw [normalized, statusCode_numberAndText noSpace normal,
    statusText_numberAndText noSpace normal, if_neg normal.hasCode,
    if_neg normal.rdropWhile_ne_nil]

theorem not_missesNumber : ¬MissesNumber (front ++ numberAndText code text) := by
  intro misses
  have none_ := misses.2
  rw [statusCode_numberAndText noSpace normal] at none_
  exact normal.hasCode none_

end Normal

section

variable (version : Nat)

variable (has_headers : Bool)

theorem clampVersion_cases : (version = httpVersion 0 9 ∧ has_headers = false ∧
      clampVersion version has_headers = (httpVersion 0 9, ascii "HTTP/0.9")) ∨
    clampVersion version has_headers = (httpVersion 1 1, ascii "HTTP/1.1") ∨
    clampVersion version has_headers = (httpVersion 1 0, ascii "HTTP/1.0") := by
  unfold clampVersion
  split_ifs with old new
  · exact Or.inl ⟨old.1, by simpa using old.2, rfl⟩
  · exact Or.inr (Or.inl rfl)
  · exact Or.inr (Or.inr rfl)

/-- A normalized version is read from its text. -/
theorem parseVersion_clampVersion :
    parseVersion ((clampVersion version has_headers).2 ++ 0x20 :: rest) =
      (clampVersion version has_headers).1 := by
  rcases clampVersion_cases version has_headers with
    ⟨_, _, isVersion⟩ | isVersion | isVersion <;>
  · rw [isVersion]
    simp [parseVersion, ascii, lowerCaseEqualsASCII, toLowerASCII,
      findIdx_cons, isDigit, httpVersion]

theorem noSpace_clampVersion : 0x20 ∉ (clampVersion version has_headers).2 := by
  rcases clampVersion_cases version has_headers with
    ⟨_, _, isVersion⟩ | isVersion | isVersion <;>
  · rw [isVersion]
    decide

theorem noNull_clampVersion : 0 ∉ (clampVersion version has_headers).2 := by
  rcases clampVersion_cases version has_headers with
    ⟨_, _, isVersion⟩ | isVersion | isVersion <;>
  · rw [isVersion]
    decide

/-- A normalized version changes only where headers are found behind one that
had none. -/
theorem clampVersion_clampVersion : clampVersion (clampVersion version has_headers).1 again =
      if version = httpVersion 0 9 ∧ has_headers = false ∧ again = true then
        (httpVersion 1 0, ascii "HTTP/1.0")
      else clampVersion version has_headers := by
  rcases clampVersion_cases version has_headers with
    ⟨old, none_, isVersion⟩ | isVersion | isVersion
  · rw [isVersion]
    cases again with
    | false => simp [clampVersion]
    | true => rw [if_pos ⟨old, none_, rfl⟩]; rfl
  · rw [isVersion, ite_eq_right_iff.mpr]
    · cases again <;> rfl
    · rintro ⟨rfl, rfl, _⟩
      exact absurd isVersion (by decide)
  · rw [isVersion, ite_eq_right_iff.mpr]
    · cases again <;> rfl
    · exact fun _ => rfl

/-- The names and the values that the lines of a text add. -/
def namesAndValuesOfText (text : Bytes) : List (Bytes × Bytes) :=
  (lineTexts text).flatMap namesAndValuesOfLine

/-- What is parsed from a status line and the text behind its null byte. -/
theorem parse_append (noNull : 0 ∉ line) (rest : Bytes) :
    let status := parseStatusLine line (beginsLine rest)
    let raw := status.raw_headers ++ rest
    parse (line ++ 0 :: rest) =
      { status with
        raw_headers := raw
        parsed := (HttpUtil.headers raw status.raw_headers.length).flatMap (addHeader raw) } := by
  have begins : ((0 :: rest).length > 1 && (0 :: rest).getD 1 0 != 0) = beginsLine rest := by
    cases rest with
    | nil => rfl
    | cons c rest => simp [beginsLine]
  intro status raw
  simp only [parse]
  rw [cStr_append noNull, drop_left, begins]

theorem namesAndValues_parse (noNull : 0 ∉ line) (rest : Bytes) :
    (parse (line ++ 0 :: rest)).namesAndValues = namesAndValuesOfText rest := by
  apply namesAndValues_eq
  · rw [parse_append noNull]
  · rw [parse_append noNull]

/-- What is parsed from a status line that no null byte is behind. -/
theorem parse_of_not_mem (noNull : 0 ∉ line) : parse line =
      { parseStatusLine line false with
        raw_headers := (parseStatusLine line false).raw_headers ++ [0] } := by
  simp only [parse]
  rw [cStr_of_not_mem noNull, drop_length]
  rfl

/-- A normalized status line is parsed to itself, but for the version and spaces
at its end. -/
theorem parse_normal (normal : Normal code text) (noNull : 0 ∉ numberAndText code text)
    (rest : Bytes) :
    let clamped := clampVersion version has_headers
    let headers := parse (clamped.2 ++ numberAndText code text ++ 0 :: rest)
    headers.raw_headers = (clampVersion clamped.1 (beginsLine rest)).2 ++
          numberAndText code (text.rdropWhile (· == 0x20)) ++ 0 :: rest ∧
      headers.response_code = stringToInt code ∧
      headers.http_version = (clampVersion clamped.1 (beginsLine rest)).1 ∧
      headers.namesAndValues = namesAndValuesOfText rest := by
  intro clamped headers
  have noSpace := noSpace_clampVersion version has_headers
  have isVersion : parseVersion (clamped.2 ++ numberAndText code text) = clamped.1 :=
    parseVersion_clampVersion version has_headers
  have lineNoNull : 0 ∉ clamped.2 ++ numberAndText code text := fun isNull =>
    (mem_append.mp isNull).elim (noNull_clampVersion version has_headers) noNull
  have isParsed := parse_append lineNoNull rest
  rw [parseStatusLine_eq, isVersion, normalized_numberAndText noSpace normal,
    if_neg (not_missesNumber noSpace normal)] at isParsed
  refine ⟨?_, ?_, ?_, namesAndValues_parse lineNoNull rest⟩
  · simp [headers, isParsed]
  · simp only [headers, isParsed]
  · simp only [headers, isParsed]

/-- What two response headers agree in. -/
structure Same (restored headers : HttpResponseHeaders) : Prop where
  raw_headers : restored.raw_headers = headers.raw_headers
  statusLine : restored.getStatusLine = headers.getStatusLine
  response_code : restored.response_code = headers.response_code
  http_version : restored.http_version = headers.http_version
  namesAndValues : restored.namesAndValues = headers.namesAndValues

/-- The raw headers that are parsed from a text can be persisted, and what is
restored from them is the same. -/
def Stable (text : Bytes) : Prop :=
  ∃ payload, (parse text).persist [] none = some payload ∧ Same (ofPickle payload 0) (parse text)

theorem stable_iff_parse : Stable text ↔ (parse text).raw_headers.length < 2 ^ 31 ∧
        Same (parse (parse text).raw_headers) (parse text) := by
  have restored : (parse text).raw_headers.length < 2 ^ 31 ->
        ∃ payload, (parse text).persist [] none = some payload ∧
          ofPickle payload 0 = parse (parse text).raw_headers := by
    intro fits
    obtain ⟨payload, iter, written, read⟩ := Base.Pickle.readString_writeString fits
    refine ⟨payload, written, ?_⟩
    rw [ofPickle, read]
  constructor
  · rintro ⟨payload, persisted, same⟩
    have fits : (parse text).raw_headers.length < 2 ^ 31 := by
      by_contra tooLong
      have none_ : (parse text).persist [] none = none := by exact if_neg tooLong
      rw [none_] at persisted
      cases persisted
    obtain ⟨again, written, isParsed⟩ := restored fits
    rw [persisted] at written
    cases written
    exact ⟨fits, isParsed ▸ same⟩
  · rintro ⟨fits, same⟩
    obtain ⟨payload, written, isParsed⟩ := restored fits
    exact ⟨payload, written, isParsed ▸ same⟩

theorem length_clampVersion : (clampVersion version has_headers).2.length = 8 := by
  rcases clampVersion_cases version has_headers with
    ⟨_, _, isVersion⟩ | isVersion | isVersion <;>
  · rw [isVersion]
    decide

end

theorem noNull_normalized (noNull : 0 ∉ line) :
    0 ∉ numberAndText (normalized line).1 (normalized line).2 := by
  have okay : 0 ∉ ascii "OK" := by decide
  have codeNoNull : 0 ∉ (normalized line).1 := fun isNull =>
    absurd (normal_normalized.digits 0 isNull) (by decide)
  have textNoNull : 0 ∉ (normalized line).2 := by
    unfold normalized
    split_ifs
    · exact okay
    · exact okay
    · intro isNull
      have inPart := ( rdropWhile_prefix _ _).subset isNull
      have inLine := (dropWhile_suffix _).subset ((dropWhile_suffix _).subset
          ((dropWhile_suffix _).subset ((dropWhile_suffix _).subset inPart)))
      exact noNull inLine
  simp only [numberAndText, cons_append, mem_cons, mem_append]
  rintro (isSpace | isNull | isSpace | isNull)
  · exact absurd isSpace (by decide)
  · exact codeNoNull isNull
  · exact absurd isSpace (by decide)
  · exact textNoNull isNull

/-- Raw headers with a null byte behind the normalized status line are parsed to
the same. -/
theorem same_of_separated {headers : HttpResponseHeaders} {line rest : Bytes}
    {has_headers : Bool} (noNull : 0 ∉ line)
    (raw : headers.raw_headers = (clampVersion (parseVersion line) has_headers).2 ++
        numberAndText (normalized line).1 (normalized line).2 ++ 0 :: rest)
    (responseCode : headers.response_code = stringToInt (normalized line).1)
    (version : headers.http_version = (clampVersion (parseVersion line) has_headers).1)
    (texts : headers.namesAndValues = namesAndValuesOfText rest)
    (begins : beginsLine rest = true -> has_headers = true) :
    Same (parse headers.raw_headers) headers := by
  obtain ⟨rawAgain, codeAgain, versionAgain, textsAgain⟩ :=
    parse_normal (parseVersion line) has_headers normal_normalized (noNull_normalized noNull) rest
  have clamped : clampVersion (clampVersion (parseVersion line) has_headers).1
      (beginsLine rest) = clampVersion (parseVersion line) has_headers := by
    rw [clampVersion_clampVersion]
    apply if_neg
    rintro ⟨_, none_, again⟩
    rw [begins again] at none_
    cases none_
  rw [clamped, rdropWhile_normalized, ← raw] at rawAgain
  rw [← raw] at codeAgain versionAgain textsAgain
  rw [clamped] at versionAgain
  exact {
    raw_headers := rawAgain
    statusLine := congrArg cStr rawAgain
    response_code := codeAgain.trans responseCode.symm
    http_version := versionAgain.trans version.symm
    namesAndValues := textsAgain.trans texts.symm
  }

/-- The text of a status line that the first header line was put behind. -/
theorem rdropWhile_okay_append : (ascii "OK" ++ line).rdropWhile (· == 0x20) = ascii "OK" ++ line ↔
      line.getLast? ≠ some 0x20 := by
  rw [rdropWhile_eq_self_iff]
  rcases eq_nil_or_concat' line with rfl | ⟨front, last, rfl⟩
  · simp [ascii]
  · rw [getLast?_concat]
    constructor
    · intro notSpace isSpace
      cases isSpace
      refine notSpace (by simp) ?_
      simp
    · intro notSpace ne isSpace
      apply notSpace
      rw [beq_iff_eq] at isSpace
      rw [← isSpace]
      simp

theorem namesAndValuesOfText_append (noNull : 0 ∉ line) : namesAndValuesOfText (line ++ 0 :: rest) =
      namesAndValuesOfLine line ++ namesAndValuesOfText rest := by
  rw [namesAndValuesOfText, lineTexts_append noNull, flatMap_append, namesAndValuesOfText]
  congr 1
  split_ifs with empty
  · rw [empty]
    rfl
  · exact flatMap_singleton _ _

set_option maxRecDepth 2048 in
/-- Where the null byte is missing, the first header line becomes part of the
status line. -/
theorem same_of_joined_iff {headers : HttpResponseHeaders} (noNull : 0 ∉ line)
    (raw : headers.raw_headers = (clampVersion version has_headers).2 ++
        numberAndText (ascii "200") (ascii "OK") ++ (line ++ 0 :: rest))
    (responseCode : headers.response_code = stringToInt (ascii "200"))
    (isVersion : headers.http_version = (clampVersion version has_headers).1)
    (texts : headers.namesAndValues = namesAndValuesOfText (line ++ 0 :: rest)) :
    Same (parse headers.raw_headers) headers ↔
      namesAndValuesOfLine line = [] ∧ line.getLast? ≠ some 0x20 ∧
        ¬(version = httpVersion 0 9 ∧ has_headers = false ∧ beginsLine rest = true) := by
  have normal : Normal (ascii "200") (ascii "OK" ++ line) :=
    ⟨by decide, by decide, cons_ne_nil _ _, fun isSpace =>
      absurd (Option.some.inj isSpace) (by decide)⟩
  have joined : headers.raw_headers = (clampVersion version has_headers).2 ++
        numberAndText (ascii "200") (ascii "OK" ++ line) ++ 0 :: rest := by
    rw [raw]
    simp [numberAndText]
  have joinedNoNull : 0 ∉ numberAndText (ascii "200") (ascii "OK" ++ line) := by
    have front : 0 ∉ numberAndText (ascii "200") (ascii "OK") := by decide
    rw [numberAndText, ← cons_append, ← append_assoc]
    exact fun isNull => (mem_append.mp isNull).elim front noNull
  obtain ⟨rawAgain, codeAgain, versionAgain, textsAgain⟩ :=
    parse_normal version has_headers normal joinedNoNull rest
  rw [← joined] at rawAgain codeAgain versionAgain textsAgain
  have sameRaw : (parse headers.raw_headers).raw_headers = headers.raw_headers ↔
        (clampVersion (clampVersion version has_headers).1
            (beginsLine rest)).2 = (clampVersion version has_headers).2 ∧
          line.getLast? ≠ some 0x20 := by
    rw [rawAgain, joined, append_assoc, append_assoc, ← rdropWhile_okay_append]
    constructor
    · intro equal
      obtain ⟨front, back⟩ := append_inj equal (by
        rw [length_clampVersion, length_clampVersion])
      exact ⟨front, append_cancel_left
        (append_cancel_right back : 0x20 :: ascii "200" ++ [0x20] ++ _ =
          0x20 :: ascii "200" ++ [0x20] ++ _)⟩
    · rintro ⟨front, back⟩
      rw [front, back]
  have sameVersion : (clampVersion (clampVersion version has_headers).1
      (beginsLine rest)).2 = (clampVersion version has_headers).2 ↔
        ¬(version = httpVersion 0 9 ∧ has_headers = false ∧ beginsLine rest = true) := by
    rw [clampVersion_clampVersion]
    constructor
    · rintro equal ⟨rfl, rfl, again⟩
      rw [if_pos ⟨rfl, rfl, again⟩] at equal
      exact absurd equal (by decide)
    · intro other
      rw [if_neg other]
  constructor
  · intro same
    obtain ⟨front, notSpace⟩ := sameRaw.mp same.raw_headers
    have noTexts := textsAgain.symm.trans (same.namesAndValues.trans texts)
    rw [namesAndValuesOfText_append noNull] at noTexts
    exact ⟨append_left_eq_self.mp noTexts.symm, notSpace, sameVersion.mp front⟩
  · rintro ⟨noTexts, notSpace, other⟩
    have rawSame := sameRaw.mpr ⟨sameVersion.mpr other, notSpace⟩
    rw [clampVersion_clampVersion, if_neg other] at versionAgain
    exact {
      raw_headers := rawSame
      statusLine := congrArg cStr rawSame
      response_code := codeAgain.trans responseCode.symm
      http_version := versionAgain.trans isVersion.symm
      namesAndValues := by
        rw [textsAgain, texts, namesAndValuesOfText_append noNull, noTexts, nil_append]
    }

section

variable (text : Bytes)

/-- The size of the raw headers that are parsed from a text. -/
def storedLength : Nat :=
  let line := cStr text
  8 + (numberAndText (normalized line).1 (normalized line).2).length +
    (if MissesNumber line then 0 else 1) +
    if 0 ∈ text then (behind text).length else 1

/-- The number is not missing from the status line of a text, or no null byte is
behind it, or the line that becomes part of the status line adds no header,
ends in no space and stands not between a status line of HTTP/0.9 and another
line. -/
def Separated : Prop :=
  MissesNumber (cStr text) -> 0 ∈ text -> 0 ∈ behind text ∧
      namesAndValuesOfLine (cStr (behind text)) = [] ∧
      (cStr (behind text)).getLast? ≠ some 0x20 ∧
      ¬(parseVersion (cStr text) = httpVersion 0 9 ∧
        beginsLine (behind text) = false ∧
        beginsLine (behind (behind text)) = true)

theorem length_raw_headers : (parse text).raw_headers.length = storedLength text := by
  have status : ∀ has_headers, (parseStatusLine (cStr text) has_headers).raw_headers.length =
        8 + (numberAndText (normalized (cStr text)).1 (normalized (cStr text)).2).length +
            if MissesNumber (cStr text) then 0 else 1 := by
    intro has_headers
    rw [parseStatusLine_eq]
    rw [length_append, length_append, length_clampVersion]
    split_ifs <;> rfl
  unfold storedLength
  by_cases hasNull : 0 ∈ text
  · have isParsed := parse_append (not_mem_cStr text) (behind text)
    rw [cStr_append_behind hasNull] at isParsed
    rw [isParsed, if_pos hasNull]
    rw [length_append, status]
  · have line := cStr_of_not_mem hasNull
    rw [parse_of_not_mem hasNull, if_neg hasNull]
    dsimp only
    rw [length_append, length_singleton, ← status false, line]

theorem same_of_not_mem {text : Bytes} (noNull : 0 ∉ text) :
    Same (parse (parse text).raw_headers) (parse text) := by
  have isParsed := parse_of_not_mem noNull
  rw [parseStatusLine_eq] at isParsed
  have noBytes : namesAndValuesOfText [] = [] := rfl
  have nullByte : namesAndValuesOfText [0] = [] := rfl
  by_cases misses : MissesNumber text
  · rw [if_pos misses] at isParsed
    refine @same_of_separated _ text [] false noNull ?_ ?_ ?_ ?_ ?_
    · rw [isParsed, append_nil]
    · rw [isParsed]
    · rw [isParsed]
    · rw [isParsed, noBytes]
      rfl
    · exact fun begins => by cases begins
  · rw [if_neg misses] at isParsed
    refine @same_of_separated _ text [0] false noNull ?_ ?_ ?_ ?_ ?_
    · rw [isParsed]
      exact append_assoc (_ ++ numberAndText _ _) [0] [0]
    · rw [isParsed]
    · rw [isParsed]
    · rw [isParsed, nullByte]
      rfl
    · exact fun begins => by cases begins

theorem same_iff : Same (parse (parse text).raw_headers) (parse text) ↔ Separated text := by
  by_cases hasNull : 0 ∈ text
  · have noNull := not_mem_cStr text
    have isParsed := parse_append noNull (behind text)
    have texts := namesAndValues_parse noNull (behind text)
    rw [cStr_append_behind hasNull] at isParsed texts
    rw [parseStatusLine_eq] at isParsed
    have raw := congrArg HttpResponseHeaders.raw_headers isParsed
    have responseCode := congrArg HttpResponseHeaders.response_code isParsed
    have version := congrArg HttpResponseHeaders.http_version isParsed
    by_cases misses : MissesNumber (cStr text)
    · have okay : normalized (cStr text) = (ascii "200", ascii "OK") := if_pos misses.2
      rw [if_pos misses, append_nil, okay] at raw
      rw [okay] at responseCode
      have separated : Separated text ↔ 0 ∈ behind text ∧
          namesAndValuesOfLine (cStr (behind text)) = [] ∧
          (cStr (behind text)).getLast? ≠ some 0x20 ∧
          ¬(parseVersion (cStr text) = httpVersion 0 9 ∧
            beginsLine (behind text) = false ∧
            beginsLine (behind (behind text)) = true) :=
        ⟨fun inv => inv misses hasNull, fun inv _ _ => inv⟩
      rw [separated]
      by_cases another : 0 ∈ behind text
      · have split := cStr_append_behind another
        rw [and_iff_right another]
        refine same_of_joined_iff (not_mem_cStr _) ?_ responseCode version ?_
        · rw [split]
          exact raw
        · rw [split]
          exact texts
      · refine iff_of_false ?_ fun inv => another inv.1
        intro same
        have rawNoNull : 0 ∉ (parse text).raw_headers := by
          have okayNoNull : 0 ∉ numberAndText (ascii "200") (ascii "OK") := by decide
          rw [raw]
          simp only [mem_append, not_or]
          exact ⟨⟨noNull_clampVersion _ _, okayNoNull⟩, another⟩
        have again := same.raw_headers
        rw [parse_of_not_mem rawNoNull] at again
        rw [← again] at rawNoNull
        exact rawNoNull (mem_append_right _ mem_cons_self)
    · rw [if_neg misses] at raw
      refine iff_of_true ?_ fun isMissing => absurd isMissing misses
      refine same_of_separated noNull ?_ responseCode version texts id
      rw [raw]
      simp
  · refine iff_of_true (same_of_not_mem hasNull) ?_
    exact fun _ isNull => absurd isNull hasNull

end

/-- Raw headers are restored as they were exactly where they are no larger than a
string in a pickle and separated from the status line. -/
theorem stable_iff (text : Bytes) : Stable text ↔ storedLength text < 2 ^ 31 ∧ Separated text := by
  rw [stable_iff_parse, length_raw_headers, same_iff]

/-- The header behind a status line without a number is not restored. -/
theorem not_stable_missingNumber :
    ¬Stable (ascii "HTTP/1.1 x" ++ [0] ++ ascii "Foo: bar" ++ [0, 0]) := by
  rintro ⟨payload, persisted, same⟩
  have isPayload : payload = Base.Pickle.writeBytes
      (Base.Pickle.writeInt [] 25) (ascii "HTTP/1.1 200 OKFoo: bar" ++ [0, 0]) :=
    Option.some.inj (persisted.symm.trans (by decide +kernel))
  rw [isPayload] at same
  exact absurd same.namesAndValues (by decide +kernel)

end HttpResponseHeaders

end

end Chromium.Net
