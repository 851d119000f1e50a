import Chromium.Base.DecimalStrings
import Chromium.Net.HttpUtil
import Mathlib.Data.List.SplitBy

/-!
# The header of strict transport security

`ParseHeader` reads `"max-age" "=" delta-seconds [ ";" "includeSubDomains" ]`.
Each state of the parser skips tokens that begin with white space.
-/

namespace Chromium.Net.TransportSecurityState

open List Base

def kMaxHSTSAgeSecs : Int := 86400 * 365

def isAsciiWhitespace (c : UInt8) : Bool := c == 0x20 || c == 0x0d || c == 0x0a || c == 0x09

def isDelim (c : UInt8) : Bool := [0x20, 0x09, 0x3d, 0x3b].contains c

/-- The tokens of a `StringTokenizer` that returns delimiters. -/
def tokenize (value : Bytes) : List Bytes :=
  value.splitBy fun c next => !isDelim c && !isDelim next

/-- `strtol` of the C library for base 10, and what is behind the number. -/
def strtol (s : Bytes) : Int × Bytes :=
  let str := s.dropWhile isWhitespaceASCII
  let digits := if str.head? = some 0x2d ∨ str.head? = some 0x2b then str.tail else str
  let value : Int := leadingDigits digits
  if (digits.takeWhile fun c => (charToDecimalDigit c).isSome) = [] then (0, s)
  else (max (-2 ^ 63) (min (if str.head? = some 0x2d then -value else value) (2 ^ 63 - 1)),
    digits.dropWhile fun c => (charToDecimalDigit c).isSome)

/-- The end of a string reads as a null byte. -/
def maxAgeToInt (s : Bytes) : Option Int :=
  let (i, endptr) := strtol s
  if endptr.headD 0 ≠ 0 ∨ i < 0 then none else some (min i kMaxHSTSAgeSecs)

inductive ParserState where
  | start
  | afterMaxAgeLabel
  | afterMaxAgeEquals
  | afterMaxAge
  | afterMaxAgeIncludeSubDomainsDelimiter
  | afterIncludeSubdomains

def skips (token : Bytes) : Bool := token.head?.any isAsciiWhitespace

/-- What a token does, with `max_age_candidate`. -/
def ParserState.next (token : Bytes) (max_age : Int) : ParserState -> Option (ParserState × Int)
  | start => if lowerCaseEqualsASCII token "max-age" then some (afterMaxAgeLabel, max_age) else none
  | afterMaxAgeLabel => if token.head? = some 0x3d then some (afterMaxAgeEquals, max_age) else none
  | afterMaxAgeEquals => (maxAgeToInt token).map fun max_age => (afterMaxAge, max_age)
  | afterMaxAge =>
    if token.head? = some 0x3b then some (afterMaxAgeIncludeSubDomainsDelimiter, max_age) else none
  | afterMaxAgeIncludeSubDomainsDelimiter =>
    if lowerCaseEqualsASCII token "includesubdomains" then some (afterIncludeSubdomains, max_age)
    else none
  | afterIncludeSubdomains => none

def ParserState.final (max_age : Int) : ParserState -> Option (Int × Bool)
  | afterMaxAge => some (max_age, false)
  | afterIncludeSubdomains => some (max_age, true)
  | _ => none

def parseTokens (state : ParserState × Int) (tokens : List Bytes) : Option (Int × Bool) := do
  let (state, max_age) ← tokens.foldlM (fun state token =>
    if skips token then some state else state.1.next token state.2) state
  state.final max_age

/-- `ParseHeader`, which sets its outputs only if it returns true. -/
def parseHeader (value : Bytes) : Option (Int × Bool) :=
  parseTokens (.start, 0) (tokenize value)

/-- The tokens of a header other than white space, with a number. -/
def Header (number : Bytes) : List Bytes -> Bool -> Prop
  | [name, equals, age], false =>
    lowerCaseEqualsASCII name "max-age" ∧ equals = [0x3d] ∧ age = number
  | [name, equals, age, semicolon, other], true =>
    lowerCaseEqualsASCII name "max-age" ∧ equals = [0x3d] ∧ age = number ∧ semicolon = [0x3b] ∧
      lowerCaseEqualsASCII other "includesubdomains"
  | _, _ => False

def IsNumber (number : Bytes) : Prop :=
  number ≠ [] ∧ ∀ c ∈ number, (charToDecimalDigit c).isSome

def blank (part : Bytes) : Bool := part == [0x20] || part == [0x09]

/-- A text of the documented grammar: a header, with spaces and tabs between its tokens. -/
def Documents (value : Bytes) (max_age : Int) (include_subdomains : Bool) : Prop :=
  ∃ number, ∃ parts : List Bytes, parts.flatten = value ∧
    Header number (parts.filter (!blank ·)) include_subdomains ∧
    IsNumber number ∧ max_age = min (leadingDigits number : Int) kMaxHSTSAgeSecs

/-- A header has no line breaks at the starts of its tokens and the number has
only digits, if without the tokens that begin with white space it is a header where
`strtol` reads a number that is not negative, up to the end or a null byte. -/
def Plain (value : Bytes) : Prop :=
  ∀ number sub, Header number ((tokenize value).filter (!skips ·)) sub ->
    (strtol number).2.headD 0 = 0 -> 0 <= (strtol number).1 ->
    (∀ token ∈ tokenize value, token.head? ≠ some 0x0a ∧ token.head? ≠ some 0x0d) ∧ IsNumber number

theorem head_delim_iff (mem : token ∈ tokenize value) (delim : isDelim c) :
    token.head? = some c ↔ token = [c] := by
  refine ⟨fun isHead => ?_, fun same => by rw [same, head?_cons]⟩
  obtain ⟨rest, rfl⟩ := head?_eq_some_iff.mp isHead
  cases rest with
  | nil => rfl
  | cons next rest =>
    have apart := (isChain_cons_cons.mp (isChain_of_mem_splitBy mem)).1
    simp [delim] at apart

theorem blank_iff : blank part ↔ part = [0x20] ∨ part = [0x09] := by simp [blank]

theorem skips_of_blank (isBlank : blank token) : skips token := by
  obtain rfl | rfl := blank_iff.mp isBlank
  · rfl
  · rfl

/-- What is skipped is a blank, or begins with a line break. -/
theorem blank_of_skips (mem : token ∈ tokenize value) (skipped : skips token)
    (unbroken : token.head? ≠ some 0x0a ∧ token.head? ≠ some 0x0d) : blank token := by
  obtain ⟨c, isHead, isSpace⟩ := (Option.any_eq_true _ _).mp skipped
  rw [isHead, ne_eq, ne_eq, Option.some.injEq, Option.some.injEq] at unbroken
  have isBlank : c = 0x20 ∨ c = 0x09 := by simpa [isAsciiWhitespace, unbroken] using isSpace
  rcases isBlank with rfl | rfl
  · exact blank_iff.mpr (.inl ((head_delim_iff mem rfl).mp isHead))
  · exact blank_iff.mpr (.inr ((head_delim_iff mem rfl).mp isHead))

theorem parseTokens_filter (s : ParserState × Int) (tokens : List Bytes) :
    parseTokens s (tokens.filter (!skips ·)) = parseTokens s tokens := by
  induction tokens generalizing s with
  | nil => rfl
  | cons token tokens ih =>
    cases skipped : skips token with
    | true =>
      rw [filter_cons_of_neg (by simp [skipped]), ih]
      simp [parseTokens, skipped]
    | false =>
      rw [filter_cons_of_pos (by simp [skipped])]
      simp only [parseTokens, foldlM_cons, skipped] at ih ⊢
      cases s.1.next token s.2 with
      | none => rfl
      | some s => exact ih s

theorem parseHeader_eq_some_iff : parseHeader value = some (max_age, sub) ↔
    ∃ n, Header n ((tokenize value).filter (!skips ·)) sub ∧
      maxAgeToInt n = some max_age := by
  have kept : ∀ item ∈ (tokenize value).filter (!skips ·), skips item = false ∧
      ∀ c, isDelim c -> (item.head? = some c ↔ item = [c]) := by
    intro item mem
    obtain ⟨isToken, isKept⟩ := mem_filter.mp mem
    exact ⟨by simpa using isKept, fun c => head_delim_iff isToken⟩
  have equals : isDelim 0x3d := rfl
  have semicolon : isDelim 0x3b := rfl
  rw [parseHeader, ← parseTokens_filter]
  generalize (tokenize value).filter (!skips ·) = items at kept ⊢
  -- one token for each state: only three or five of them end in a final one
  rcases items with _ | ⟨name, _ | ⟨_, _ | ⟨age, _ | ⟨_, _ | ⟨other, _ | _⟩⟩⟩⟩⟩
  case nil => simp [parseTokens, ParserState.final, Header]
  all_goals
    simp only [forall_mem_cons] at kept
    simp [parseTokens, ParserState.final, kept, ParserState.next, Option.bind_eq_some_iff, equals,
      semicolon]
  all_goals
    cases sub <;> simp [Header, and_assoc, and_left_comm, and_comm]

/-- A token that is no delimiter and is not skipped. -/
def Word (part : Bytes) : Prop :=
  part ≠ [] ∧ ∀ c ∈ part, isDelim c = false ∧ isAsciiWhitespace c = false

theorem word_of_equals (ne : ascii text ≠ [])
    (plain : [0x20, 0x0d, 0x0a, 0x09, 0x3d, 0x3b].all
      fun c => !(ascii text).contains (toLowerASCII c))
    (isName : lowerCaseEqualsASCII name text) : Word name := by
  have same : name.map toLowerASCII = ascii text := eq_of_beq isName
  refine ⟨fun empty => ne (by rw [← same, empty, map_nil]), fun c mem => ?_⟩
  have isLower : toLowerASCII c ∈ ascii text := same ▸ mem_map_of_mem mem
  have other : c ∉ [0x20, 0x0d, 0x0a, 0x09, 0x3d, 0x3b] := fun isIn => by
    simpa [isLower] using all_eq_true.mp plain c isIn
  simp [isDelim, isAsciiWhitespace] at other ⊢
  tauto

theorem plain_of_digit (digit : (charToDecimalDigit c).isSome) :
    isWhitespaceASCII c = false ∧ c ≠ 0x2d ∧ c ≠ 0x2b ∧ isDelim c = false ∧
      isAsciiWhitespace c = false := by
  obtain ⟨least, most⟩ : 0x30 <= c ∧ c < 0x30 + 10 := by
    rw [charToDecimalDigit] at digit
    by_contra other
    rw [if_neg other] at digit
    cases digit
  simp only [isWhitespaceASCII, isDelim, isAsciiWhitespace]
  grind

theorem word_of_number (isNumber : IsNumber number) : Word number :=
  ⟨isNumber.1, fun c mem => (plain_of_digit (isNumber.2 c mem)).2.2.2⟩

theorem maxAgeToInt_of_number (isNumber : IsNumber n) :
    maxAgeToInt n = some (min (leadingDigits n : Int) kMaxHSTSAgeSecs) := by
  obtain ⟨ne, digits⟩ := isNumber
  obtain ⟨c, rest, rfl⟩ := exists_cons_of_ne_nil ne
  obtain ⟨notSpace, notMinus, notPlus, -⟩ := plain_of_digit (digits c mem_cons_self)
  have whole := takeWhile_eq_self_iff.mpr digits
  have nothing := dropWhile_eq_nil_iff.mpr digits
  rw [maxAgeToInt, strtol, dropWhile_cons_of_neg (by simp [notSpace])]
  simp only [head?_cons, Option.some.injEq, notMinus, notPlus, or_self, if_false, whole, nothing,
    reduceCtorEq, headD_nil, kMaxHSTSAgeSecs]
  rw [if_neg (by rintro (other | negative) <;> [exact other rfl; omega])]
  congr 1
  omega

/-- One of two tokens next to each other is a delimiter. -/
def Apart (a b : Bytes) : Prop := ∃ c, isDelim c ∧ (a = [c] ∨ b = [c])

/-- The tokens of a header are words, with delimiters between them. -/
theorem words_of_header (header : Header number items sub) (isNumber : IsNumber number) :
    (∀ item ∈ items, Word item ∨ item = [0x3d] ∨ item = [0x3b]) ∧ items.IsChain Apart := by
  have isWord := word_of_number isNumber
  have equals : ∀ {part}, Apart part [0x3d] ∧ Apart [0x3d] part :=
    ⟨⟨0x3d, rfl, .inr rfl⟩, ⟨0x3d, rfl, .inl rfl⟩⟩
  have semicolon : ∀ {part}, Apart part [0x3b] ∧ Apart [0x3b] part :=
    ⟨⟨0x3b, rfl, .inr rfl⟩, ⟨0x3b, rfl, .inl rfl⟩⟩
  unfold Header at header
  split at header
  · obtain ⟨isName, rfl, rfl⟩ := header
    have nameWord := word_of_equals (by decide) (by rfl) isName
    simp [equals, nameWord, isWord]
  · obtain ⟨isName, rfl, rfl, rfl, isOther⟩ := header
    have nameWord := word_of_equals (by decide) (by rfl) isName
    have otherWord := word_of_equals (by decide) (by rfl) isOther
    simp [equals, semicolon, nameWord, otherWord, isWord]
  · exact header.elim

theorem tokenize_flatten {parts : List Bytes} (header : Header number (parts.filter (!blank ·)) sub)
    (isNumber : IsNumber number) : tokenize parts.flatten = parts := by
  obtain ⟨words, chain⟩ := words_of_header header isNumber
  have blanks : ∀ {part}, blank part -> ∃ c, isDelim c ∧ part = [c] := by
    intro part isBlank
    obtain rfl | rfl := blank_iff.mp isBlank
    · exact ⟨0x20, rfl, rfl⟩
    · exact ⟨0x09, rfl, rfl⟩
  have kinds : ∀ part ∈ parts, Word part ∨ ∃ c, isDelim c ∧ part = [c] := by
    intro part mem
    cases isBlank : blank part with
    | true => exact .inr (blanks isBlank)
    | false =>
      obtain isWord | rfl | rfl := words part (mem_filter.mpr ⟨mem, by simp [isBlank]⟩)
      · exact .inl isWord
      · exact .inr ⟨0x3d, rfl, rfl⟩
      · exact .inr ⟨0x3b, rfl, rfl⟩
  clear words header
  have ne : ∀ part ∈ parts, part ≠ [] := by
    intro part mem
    obtain isWord | ⟨c, -, rfl⟩ := kinds part mem
    · exact isWord.1
    · exact cons_ne_nil c []
  apply splitBy_flatten
  · exact fun empty => ne [] empty rfl
  · intro part mem
    obtain isWord | ⟨c, -, rfl⟩ := kinds part mem
    · refine (pairwise_of_forall_mem_list ?_).isChain
      intro c isIn next isNext
      simp [isWord.2 c isIn, isWord.2 next isNext]
    · exact isChain_singleton _
  · induction parts with
    | nil => exact isChain_nil
    | cons a parts ih =>
      rw [forall_mem_cons] at kinds ne
      have rest : (parts.filter (!blank ·)).IsChain Apart := by
        rw [filter_cons] at chain
        split at chain
        · exact chain.tail
        · exact chain
      cases parts with
      | nil => exact isChain_singleton _
      | cons b parts =>
        refine isChain_cons_cons.mpr ⟨?_, ih rest kinds.2 ne.2⟩
        have apart : Apart a b := by
          cases isBlank : blank a with
          | true =>
            obtain ⟨c, isDelim, rfl⟩ := blanks isBlank
            exact ⟨c, isDelim, .inl rfl⟩
          | false =>
          cases isBlank' : blank b with
          | true =>
            obtain ⟨c, isDelim, rfl⟩ := blanks isBlank'
            exact ⟨c, isDelim, .inr rfl⟩
          | false =>
            rw [filter_cons_of_pos (by simp [isBlank]),
              filter_cons_of_pos (by simp [isBlank'])] at chain
            exact (isChain_cons_cons.mp chain).1
        refine ⟨ne.1, ne.2 b mem_cons_self, ?_⟩
        obtain ⟨c, isDelim, rfl | rfl⟩ := apart
        · simp [isDelim]
        · simp [isDelim]

theorem documents_iff : Documents value max_age sub ↔ ∃ n,
    Header n ((tokenize value).filter (!blank ·)) sub ∧
      IsNumber n ∧ max_age = min (leadingDigits n : Int) kMaxHSTSAgeSecs := by
  constructor
  · rintro ⟨n, parts, rfl, header, isNumber, isAge⟩
    exact ⟨n, (tokenize_flatten header isNumber).symm ▸ header, isNumber, isAge⟩
  · rintro ⟨n, header, isNumber, isAge⟩
    exact ⟨n, _, flatten_splitBy .., header, isNumber, isAge⟩

theorem Header.length (header : Header number items sub) : items.length = if sub then 5 else 3 := by
  unfold Header at header
  split at header
  · rfl
  · rfl
  · cases header

theorem Header.unique (header : Header number items sub)
    (other : Header number' items sub) : number = number' := by
  unfold Header at header other
  split at header
  · exact header.2.2.symm.trans other.2.2
  · exact header.2.2.1.symm.trans other.2.2.1
  · cases header

theorem maxAgeToInt_eq_some_iff : maxAgeToInt number = some max_age ↔
    ((strtol number).2.headD 0 = 0 ∧ 0 <= (strtol number).1) ∧
      min (strtol number).1 kMaxHSTSAgeSecs = max_age := by
  simp only [maxAgeToInt, Option.ite_none_left_eq_some, not_or, not_not, not_lt, Option.some.injEq]

theorem filter_skips (blanks : ∀ token ∈ tokenize val, skips token -> blank token) :
    (tokenize val).filter (!skips ·) = (tokenize val).filter (!blank ·) :=
  filter_congr fun token mem =>
    congrArg not (Bool.eq_iff_iff.mpr ⟨blanks token mem, skips_of_blank⟩)

/-- What is accepted is what the grammar has, with its values, just if the value is plain. -/
theorem parseHeader_iff_documents (value : Bytes) :
    (∀ max_age sub, parseHeader value = some (max_age, sub) ↔
      Documents value max_age sub) ↔ Plain value := by
  constructor
  · intro meets number sub header ends natural
    have isAge := maxAgeToInt_eq_some_iff.mpr ⟨⟨ends, natural⟩, rfl⟩
    obtain ⟨number', header', isNumber, -⟩ := documents_iff.mp
      ((meets _ sub).mp (parseHeader_eq_some_iff.mpr ⟨number, header, isAge⟩))
    -- both ways leave as many tokens
    have kept := Sublist.eq_of_length (monotone_filter_right (tokenize value) fun token isKept => by
        cases isBlank : blank token with
        | true => rw [skips_of_blank isBlank] at isKept; cases isKept
        | false => rfl) (header.length.trans header'.length.symm)
    rw [kept] at header
    obtain rfl := header.unique header'
    refine ⟨fun token member => ?_, isNumber⟩
    have isBlank : skips token -> blank token := by
      intro skipped
      by_contra other
      have isKept : token ∈ (tokenize value).filter (!skips ·) := by
        rw [kept]
        exact mem_filter.mpr ⟨member, by simpa using other⟩
      simp [skipped] at isKept
    have unbroken : ∀ c, isAsciiWhitespace c -> [c] ≠ [0x20] ∧ [c] ≠ [0x09] ->
        token.head? ≠ some c := by
      intro c isSpace others isHead
      obtain rfl | rfl := blank_iff.mp (isBlank (by rw [skips, isHead]; exact isSpace))
      · cases isHead
        exact others.1 rfl
      · cases isHead
        exact others.2 rfl
    exact ⟨unbroken 0x0a rfl (by decide), unbroken 0x0d rfl (by decide)⟩
  · intro plain max_age sub
    rw [parseHeader_eq_some_iff, documents_iff]
    constructor
    · rintro ⟨number, header, isAge⟩
      obtain ⟨⟨ends, natural⟩, -⟩ := maxAgeToInt_eq_some_iff.mp isAge
      obtain ⟨unbroken, isNumber⟩ := plain number sub header ends natural
      have kept := filter_skips fun token member skipped =>
        blank_of_skips member skipped (unbroken token member)
      rw [maxAgeToInt_of_number isNumber, Option.some.injEq] at isAge
      exact ⟨number, kept ▸ header, isNumber, isAge.symm⟩
    · rintro ⟨number, header, isNumber, isAge⟩
      have words := (words_of_header header isNumber).1
      have kept := @filter_skips value fun token member skipped => by
        by_contra other
        obtain ⟨nonempty, plain⟩ | rfl | rfl :=
          words token (mem_filter.mpr ⟨member, by simpa using other⟩)
        · obtain ⟨c, isHead, isSpace⟩ := (Option.any_eq_true _ _).mp skipped
          rw [(plain c (mem_of_mem_head? isHead)).2] at isSpace
          cases isSpace
        · cases skipped
        · cases skipped
      exact ⟨number, kept ▸ header, isAge ▸ maxAgeToInt_of_number isNumber⟩

theorem not_parseHeader_documents : ¬ ∀ value max_age sub, parseHeader value = some (max_age, sub) ↔
        Documents value max_age sub := by
  intro meets
  obtain ⟨number, header, isNumber, -⟩ := documents_iff.mp
    ((meets (ascii "max-age=+5") 5 false).mp (by decide))
  have items : (tokenize (ascii "max-age=+5")).filter (!blank ·) =
      [ascii "max-age", [0x3d], ascii "+5"] := by decide
  rw [items] at header
  obtain ⟨-, -, rfl⟩ := header
  exact absurd (isNumber.2 0x2b (by decide)) (by decide)

end Chromium.Net.TransportSecurityState
