import Chromium.Json.Soundness

/-!
# What is accepted

A text is accepted if and only if it is in the language of JSON and has only
characters. If it is not, there is an error at a place of it.
-/

namespace Chromium.Json

open List Option
open Base

variable {wchar_t : WcharT} {Double : Type} {stringToDouble : Bytes -> Option Double}
  {isFinite : Double -> Bool}
  {code_points text junk : List Nat} {reader : JSONReader}

/-- The text of code points, behind a byte order mark. -/
def textOf (wchar_t : WcharT) (code_points : List Nat) : List Nat :=
  (if code_points.head? = some 0xfeff then code_points.tail else code_points).flatMap
    (writeWide wchar_t)

section

variable (valid : ∀ c ∈ code_points, isValidCodepoint c = true)
include valid

/-- The byte order mark is the first character of the wide string. -/
theorem wide_eq_textOf : (if (code_points.flatMap (writeWide wchar_t)).head? = some 0xfeff then
      (code_points.flatMap (writeWide wchar_t)).tail
    else code_points.flatMap (writeWide wchar_t)) = textOf wchar_t code_points := by
  rw [textOf]
  cases code_points with
  | nil => rfl
  | cons c code_points =>
    have isValid := isValidCodepoint_iff.mp (valid c mem_cons_self)
    have isOne : writeWide wchar_t 0xfeff = [0xfeff] := by cases wchar_t <;> rfl
    have isFirst : (writeWide wchar_t c ++
        code_points.flatMap (writeWide wchar_t)).head? = some 0xfeff ↔ c = 0xfeff := by
      cases wchar_t with
      | utf32 => simp [writeWide, writeUTF32]
      | utf16 =>
        rw [writeWide, writeUTF16]
        split_ifs with one
        · simp
        · simp only [cons_append, List.head?_cons, some.injEq]
          omega
    rw [flatMap_cons, List.head?_cons]
    by_cases mark : c = 0xfeff
    · rw [if_pos (isFirst.mpr mark), if_pos (congrArg some mark), mark, isOne]
      rfl
    · rw [if_neg (fun is_ => mark (isFirst.mp is_)),
        if_neg (fun is_ => mark (some.inj is_)), flatMap_cons]

theorem zero_not_mem_textOf (plain : 0 ∉ code_points) : 0 ∉ textOf wchar_t code_points := by
  have wide : ∀ codes ⊆ code_points, 0 ∉ codes.flatMap (writeWide wchar_t) := by
    intro codes subset mem
    obtain ⟨c, inCodes, inWide⟩ := mem_flatMap.mp mem
    refine zero_not_mem_writeWide (valid c (subset inCodes)) ?_ inWide
    rintro rfl
    exact plain (subset inCodes)
  rw [textOf]
  split_ifs
  · exact wide _ (tail_subset _)
  · exact wide _ (List.Subset.refl _)

/-- The bytes before the first null byte are those of the code points before
the first null character. -/
theorem takeWhile_writeUTF8 : (code_points.flatMap writeUTF8).takeWhile (· != 0) =
      (code_points.takeWhile (· != 0)).flatMap writeUTF8 := by
  induction code_points with
  | nil => rfl
  | cons c code_points ih =>
    rw [flatMap_cons]
    by_cases null : c = 0
    · subst null
      rfl
    · have some_ : ∀ byte ∈ writeUTF8 c, (byte != 0) = true := by
        intro byte mem
        rw [bne_iff_ne]
        rintro rfl
        exact zero_not_mem_writeUTF8 (valid c mem_cons_self) null mem
      rw [takeWhile_append_of_pos some_, ih (forall_mem_cons.mp valid).2,
        takeWhile_cons_of_pos (by simpa using null), flatMap_cons]

end

/-- A text ends at its first null character. -/
theorem exists_text {wide : List Nat} : ∃ junk, wide ++ [0] = wide.takeWhile (· != 0) ++ 0 :: junk ∧
      0 ∉ wide.takeWhile (· != 0) := by
  induction wide with
  | nil => exact ⟨[], rfl, not_mem_nil⟩
  | cons c wide ih =>
    by_cases null : c = 0
    · subst null
      exact ⟨wide ++ [0], rfl, not_mem_nil⟩
    · obtain ⟨junk, isText, plain⟩ := ih
      refine ⟨junk, ?_, ?_⟩
      · rw [takeWhile_cons_of_pos (by simpa using null), cons_append, isText, cons_append]
      · rw [takeWhile_cons_of_pos (by simpa using null), mem_cons, not_or]
        exact ⟨fun isNull => null isNull.symm, plain⟩

/-- The reader at the start of a text. -/
def startOf (reader : JSONReader) (start_pos : Pointer) (allow_trailing_comma : Bool) :
    JSONReader :=
  { reader with
    start_pos := start_pos
    json_pos := start_pos
    allow_trailing_comma := allow_trailing_comma
    stack_depth := 0
    error_code := .noError }

/-- `JsonToValue` behind the check of the encoding. -/
def readRoot (wchar_t : WcharT) (stringToDouble : Bytes -> Option Double)
    (isFinite : Double -> Bool) (reader : JSONReader) :
    Option (Option (Value Double) × JSONReader) :=
  (JSONReader.buildValue wchar_t stringToDouble isFinite (kStackLimit + 1) true
    reader).bind fun built =>
    match built.1 with
    | none =>
      if built.2.error_code = .noError then
        (built.2.setErrorCode .syntaxError built.2.json_pos).bind fun next => some (none, next)
      else some (none, built.2)
    | some value =>
      built.2.parseToken.bind fun ahead =>
        if ahead.1.type = .endOfInput then some (some value, ahead.2)
        else
          (ahead.2.setErrorCode .unexpectedDataAfterRoot ahead.2.json_pos).bind fun next =>
              if next.error_code = .noError then
                (next.setErrorCode .syntaxError next.json_pos).bind fun last => some (none, last)
              else some (none, next)

/-- `JsonToValue` reads the root of a text that has only characters. -/
theorem jsonToValue_eq (ok : ∀ c ∈ code_points, isValidCodepoint c = true)
    (characters : (code_points.takeWhile (· != 0)).all isValidCharacter = true) :
    reader.jsonToValue wchar_t stringToDouble isFinite
        (code_points.flatMap writeUTF8) true trailing = readRoot wchar_t stringToDouble isFinite
        (startOf reader (textOf wchar_t code_points ++ [0]) trailing) := by
  have validFront : ∀ c ∈ code_points.takeWhile (· != 0), isValidCodepoint c = true :=
    fun c mem => ok c ((takeWhile_sublist _).subset mem)
  rw [JSONReader.jsonToValue, takeWhile_writeUTF8 ok,
    isStringUTF8_flatMap validFront, characters, utf8ToWide_flatMap ok]
  dsimp only
  rw [wide_eq_textOf ok, readRoot, startOf]
  simp only [bind_eq_bind]
  apply congrArg (Option.bind _)
  funext built
  rcases built with ⟨root, next⟩
  cases root with
  | none =>
    simp only [bind_some]
    rw [if_neg Bool.false_ne_true]
  | some value =>
    cases next.parseToken with
    | none => rfl
    | some ahead =>
      simp only [bind_some]
      by_cases ends : ahead.1.type = .endOfInput
      · rw [if_pos ends, if_pos ends]
        rfl
      · rw [if_neg ends, if_neg ends]
        cases ahead.2.setErrorCode .unexpectedDataAfterRoot ahead.2.json_pos with
        | none => rfl
        | some last => rfl

/-- A text is read: its root is a value of the language, or there is an error
at a place of the text. -/
theorem readRoot_text (plain : 0 ∉ text) (start : reader.start_pos = text ++ 0 :: junk)
    (here : reader.json_pos = text ++ 0 :: junk) (depth : reader.stack_depth = 0)
    (noError : reader.error_code = .noError) :
    ∃ root next, readRoot wchar_t stringToDouble isFinite reader = some (root, next) ∧
      (∀ v, root = some v -> RootText wchar_t stringToDouble isFinite
        reader.allow_trailing_comma text v) ∧
      (root = none → next.error_code ≠ .noError ∧ IsPlace text next.error_line next.error_col) := by
  have inside : Inside text junk reader :=
    ⟨start, ⟨text, suffix_refl _, here⟩, fun marked => absurd noError marked⟩
  -- An error that is recorded is at a place of the text.
  have failure : ∀ {next : JSONReader} {t : List Nat} (error : JsonParseError),
      error ≠ .noError -> Inside text junk next -> t <:+ text ->
      ∃ last, next.setErrorCode error (t ++ 0 :: junk) = some last ∧ last.error_code ≠ .noError ∧
        IsPlace text last.error_line last.error_col := by
    intro next t error isError insideNext isSuffix
    obtain ⟨last, isSet, insideLast, -, -, code⟩ :=
      setErrorCode_inside plain insideNext isSuffix error
    have marked : last.error_code ≠ .noError := by
      rw [code]
      exact isError
    exact ⟨last, isSet, marked, insideLast.marked marked⟩
  obtain ⟨⟨result, built⟩, isBuilt, insideBuilt, reads⟩ :=
    @buildValue_text text junk wchar_t Double stringToDouble isFinite
      reader.allow_trailing_comma plain kStackLimit true text reader inside
      (suffix_refl _) here (by rw [depth, Nat.add_zero]) rfl
  rw [readRoot, isBuilt, bind_some]
  cases result with
  | none =>
    by_cases marked : built.error_code = .noError
    · obtain ⟨t, isSuffix, hereBuilt⟩ := insideBuilt.here
      obtain ⟨last, isSet, isError, isPlace⟩ :=
        failure .syntaxError (by decide) insideBuilt isSuffix
      refine ⟨none, last, ?_, fun v isSome => (by cases isSome), fun _ => ⟨isError, isPlace⟩⟩
      rw [if_pos marked, hereBuilt, isSet]
      rfl
    · refine ⟨none, built, ?_, fun v isSome => (by cases isSome), fun _ =>
        ⟨marked, insideBuilt.marked marked⟩⟩
      rw [if_neg marked]
  | some val =>
    obtain ⟨keeps, s, w, behind, isText, space, some_, ⟨isValue, isRoot⟩,
      hereBuilt⟩ := reads val rfl
    have isSuffix : behind <:+ text := by
      rw [isText]
      exact (suffix_append w _).trans (suffix_append s _)
    obtain ⟨s', rest, token, next, isBehind, lastSpace, -, isToken, insideNext, -,
      hereNext, isOf⟩ := parseToken_text plain insideBuilt isSuffix hereBuilt
    dsimp only
    rw [isToken, bind_some]
    by_cases ends : token.type = .endOfInput
    · refine ⟨some val, next, if_pos ends, ?_, fun isNone => (by cases isNone)⟩
      intro v isSome
      obtain rfl := some.inj isSome
      have nothing : rest = [] := by
        cases isOf with
        | invalid => cases ends
        | endOfInput nothing => exact nothing
        | @lexeme w behind type isText isLexeme =>
          subst ends
          cases isLexeme with
          | literal isLiteral =>
            have other := literal_cases isLiteral
            simp at other
          | punctuation isOne =>
            have other := punctuation_cases isOne
            simp at other
      subst nothing
      rw [append_nil] at isBehind
      exact ⟨s, w, s', by rw [isText, isBehind], space, isValue, isRoot rfl, lastSpace⟩
    · have isSuffixNext : rest <:+ text := by
        rw [isBehind] at isSuffix
        exact (suffix_append s' _).trans isSuffix
      obtain ⟨last, isSet, isError, isPlace⟩ :=
        failure .unexpectedDataAfterRoot (by decide) insideNext isSuffixNext
      refine ⟨none, last, ?_, fun v isSome => (by cases isSome), fun _ => ⟨isError, isPlace⟩⟩
      rw [if_neg ends, hereNext, isSet, bind_some, if_neg isError]

/-- Behind the root of a text, the last space does not continue it. -/
theorem LastSpace.follows (space : LastSpace s) : Follows (s ++ 0 :: junk) := by
  have ends : Follows (0 :: junk) := follows_cons ⟨rfl, by decide, by decide⟩
  cases space with
  | closed space => exact space.follows ends
  | @open_ s content space comment =>
    rw [append_assoc]
    apply space.follows
    cases comment with
    | line => exact follows_cons ⟨rfl, by decide, by decide⟩
    | block => exact follows_cons ⟨rfl, by decide, by decide⟩

/-- The text of an array or an object is read as its value. -/
theorem readRoot_append (plain : 0 ∉ text) {v : Value Double}
    (isRoot : RootText wchar_t stringToDouble isFinite reader.allow_trailing_comma text v)
    (here : reader.json_pos = text ++ 0 :: junk) (depth : reader.stack_depth = 0) :
    ∃ next, readRoot wchar_t stringToDouble isFinite reader = some (some v, next) := by
  obtain ⟨s, w, s', rfl, space, isValue, root, lastSpace⟩ := isRoot
  simp only [mem_append, not_or] at plain
  have follows : Follows (s' ++ 0 :: junk) := lastSpace.follows
  have isBuilt := @buildValue_append wchar_t Double stringToDouble isFinite
    reader.allow_trailing_comma kStackLimit (kStackLimit + 1) true w s v
    (s' ++ 0 :: junk) reader isValue plain.2.1 space plain.1 follows
    (by rw [here]; simp only [append_assoc]) (Nat.le_succ _)
    (by rw [depth, Nat.zero_add]) rfl (fun _ => root)
  have isToken := @parseToken_last junk
    { reader with json_pos := s' ++ 0 :: junk } s' lastSpace plain.2.2 rfl
  refine ⟨{ reader with json_pos := 0 :: junk }, ?_⟩
  rw [readRoot, isBuilt, bind_some]
  dsimp only
  rw [isToken, bind_some, if_pos rfl]

/-- Whatever is read, no loop runs past the terminator. A text without null
characters is accepted if and only if it has only characters and is in the
language; a text that is not accepted has an error at one of its places, or in
its encoding. -/
theorem jsonToValue_accepts (wchar_t : WcharT) (stringToDouble : Bytes -> Option Double)
    (isFinite : Double -> Bool) (allow_trailing_comma : Bool)
    (reader : JSONReader) (code_points : List Nat)
    (valid : ∀ c ∈ code_points, isValidCodepoint c = true) :
    ∃ root next, reader.jsonToValue wchar_t stringToDouble isFinite
        (code_points.flatMap writeUTF8) true allow_trailing_comma = some (root, next) ∧
      (0 ∉ code_points -> ∀ v, root = some v ↔ (∀ c ∈ code_points, isValidCharacter c = true) ∧
          RootText wchar_t stringToDouble isFinite allow_trailing_comma
            (textOf wchar_t code_points) v) ∧
      (root = none -> (next.error_code = .unsupportedEncoding ∧
          ∃ c ∈ code_points, isValidCharacter c = false) ∨
        (next.error_code ≠ .noError ∧ IsPlace ((textOf wchar_t code_points).takeWhile (· != 0))
            next.error_line next.error_col)) := by
  by_cases characters : (code_points.takeWhile (· != 0)).all isValidCharacter = true
  · obtain ⟨junk, isText, plainFront⟩ := exists_text
    obtain ⟨root, next, isRead, sound, failed⟩ :=
      @readRoot_text wchar_t Double stringToDouble isFinite _ junk
        (startOf reader (textOf wchar_t code_points ++ [0])
          allow_trailing_comma) plainFront isText isText rfl rfl
    refine ⟨root, next, (jsonToValue_eq valid characters).trans isRead, ?_,
      fun isNone => .inr (failed isNone)⟩
    intro plain v
    have plainText := @zero_not_mem_textOf wchar_t code_points valid plain
    have whole : ∀ {codes : List Nat}, 0 ∉ codes -> codes.takeWhile (· != 0) = codes := by
      intro codes plain
      rw [takeWhile_eq_self_iff]
      intro c member
      rw [bne_iff_ne]
      rintro rfl
      exact plain member
    rw [whole plain, List.all_eq_true] at characters
    rw [whole plainText] at sound isText
    constructor
    · exact fun isSome => ⟨characters, sound v isSome⟩
    · rintro ⟨-, isRoot⟩
      obtain ⟨last, isLast⟩ := @readRoot_append wchar_t Double stringToDouble
        isFinite (textOf wchar_t code_points) junk
        (startOf reader (textOf wchar_t code_points ++ [0])
          allow_trailing_comma) plainText v isRoot isText rfl
      rw [isRead] at isLast
      exact congrArg Prod.fst (some.inj isLast)
  · have validFront : ∀ c ∈ code_points.takeWhile (· != 0), isValidCodepoint c = true :=
      fun c member => valid c ((takeWhile_sublist _).subset member)
    have refused : ∃ c ∈ code_points, isValidCharacter c = false := by
      rw [List.all_eq_true] at characters
      push Not at characters
      obtain ⟨c, member, notCharacter⟩ := characters
      exact ⟨c, (takeWhile_sublist _).subset member, Bool.eq_false_iff.mpr notCharacter⟩
    refine ⟨none, { reader with error_code := .unsupportedEncoding }, ?_, ?_,
      fun _ => .inl ⟨rfl, refused⟩⟩
    · rw [JSONReader.jsonToValue, takeWhile_writeUTF8 valid,
        isStringUTF8_flatMap validFront, Bool.eq_false_iff.mpr characters]
      rfl
    · intro plain v
      obtain ⟨c, member, notCharacter⟩ := refused
      refine iff_of_false (fun isSome => by cases isSome) fun both => ?_
      rw [both.1 c member] at notCharacter
      cases notCharacter

/-- An array of one number is accepted. -/
theorem jsonToValue_accepts_one : ∃ next,
      JSONReader.create.jsonToValue .utf32 (fun _ => some ()) (fun _ => true)
          ([0x5b, 0x31, 0x5d].flatMap writeUTF8) true false =
        some (some (.list [.integer 1]), next) ∧
      RootText .utf32 (fun _ => some ()) (fun _ => true) false
        (textOf .utf32 [0x5b, 0x31, 0x5d]) (.list [.integer 1]) := by
  obtain ⟨root, next, isRead, accepts, -⟩ :=
    jsonToValue_accepts .utf32 (fun _ => some ()) (fun _ => true) false
      JSONReader.create [0x5b, 0x31, 0x5d] (by decide)
  have isList : root = some (.list [.integer 1]) := congrArg Prod.fst (some.inj isRead).symm
  subst isList
  exact ⟨next, isRead, ((accepts (by decide) _).mp rfl).2⟩

/-- The text of an array of one string that is not a character. -/
theorem rootText_noncharacter : RootText .utf32 (fun _ => some ()) (fun _ => true) false
      (textOf .utf32 [0x5b, 0x22, 0xfffe, 0x22, 0x5d])
      (.list [.string (stringOf .utf32 [0xfffe])]) :=
  ⟨[], _, [], rfl, .nil, .array (.last .nil (.string (.plain (by decide) (by decide) .nil)) .nil),
    trivial, .closed .nil⟩

/-- A text of the language is not accepted if it has a code point that is not a
character. -/
theorem not_jsonToValue_accepts_language :
    ¬ ∀ (allow_trailing_comma : Bool) (code_points : List Nat),
      (∀ c ∈ code_points, isValidCodepoint c = true) ->
      ∃ root next, JSONReader.create.jsonToValue .utf32 (fun _ => some ()) (fun _ => true)
          (code_points.flatMap writeUTF8) true allow_trailing_comma = some (root, next) ∧
        (root.isSome = true ↔ ∃ v, RootText .utf32 (fun _ => some ())
          (fun _ => true) allow_trailing_comma (textOf .utf32 code_points) v) ∧
        (root = none -> IsPlace (textOf .utf32 code_points) next.error_line next.error_col) := by
  intro accepts
  obtain ⟨root, next, isRead, isAccepted, -⟩ :=
    accepts false [0x5b, 0x22, 0xfffe, 0x22, 0x5d] (by decide)
  have isNone : root = none := congrArg Prod.fst (some.inj isRead).symm
  have isSome := isAccepted.mpr ⟨_, rootText_noncharacter⟩
  rw [isNone] at isSome
  cases isSome

end Chromium.Json
