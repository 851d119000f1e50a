import Chromium.Json.Spaces
import Chromium.Json.Strings

/-!
# Tokens

A token is what the reader finds behind the space: the longest lexeme there,
the end of the text, or nothing that is valid.
-/

namespace Chromium.Json

open List Option

section

open Base

/-- The text of a token. -/
inductive Lexeme : TokenType -> List Nat -> Prop where
  | literal (isLiteral : literal c = some (str, type)) : Lexeme type str
  | punctuation (isOne : punctuation c = some type) : Lexeme type [c]
  | number (isNumber : NumberText n) : Lexeme .number n
  | string (isString : StringText w decoded) : Lexeme .string (0x22 :: (w ++ [0x22]))

/-- A token is a lexeme at the front of a text, or the end of the text. -/
inductive TokenOf (t junk : List Nat) : Token -> Prop where
  | invalid : TokenOf t junk kInvalidToken
  | endOfInput (nothing : t = []) : TokenOf t junk ⟨.endOfInput, [], 0⟩
  | lexeme (isText : t = w ++ behind) (isLexeme : Lexeme type w) :
      TokenOf t junk (spanning type w (behind ++ 0 :: junk))

variable {text junk w decoded : List Nat} {p : Pointer} {reader : JSONReader} {type : TokenType}

/-- What is decoded of a string are its characters. -/
theorem decodeCharacters_append (isString : StringText w decoded) (fuel : Nat)
    (enough : w.length < fuel) :
    decodeCharacters fuel (w ++ p) w.length = some (some decoded) := by
  induction isString generalizing fuel with
  | nil =>
    cases fuel with
    | zero => cases enough
    | succ fuel => rfl
  | @plain c w decoded _ notEscape _ ih =>
    cases fuel with
    | zero => cases enough
    | succ fuel =>
      have rest := ih fuel (Nat.lt_of_succ_lt_succ enough)
      rw [decodeCharacters]
      simp [notEscape, rest]
  | @single c d w decoded escape _ ih =>
    simp only [length_cons] at enough
    cases fuel with
    | zero => cases enough
    | succ fuel =>
      have rest := ih fuel (by omega)
      have notHex : c ≠ 0x78 := by
        rintro rfl
        cases escape
      have notUnicode : c ≠ 0x75 := by
        rintro rfl
        cases escape
      rw [decodeCharacters]
      simp [notHex, notUnicode, escape, rest]
  | @hex a b w decoded _ _ _ ih =>
    simp only [length_cons] at enough
    cases fuel with
    | zero => cases enough
    | succ fuel =>
      have rest := ih fuel (by omega)
      rw [decodeCharacters]
      simp [rest]
  | @unicode a b c d w decoded _ _ _ _ _ ih =>
    simp only [length_cons] at enough
    cases fuel with
    | zero => cases enough
    | succ fuel =>
      have rest := ih fuel (by omega)
      rw [decodeCharacters]
      simp [rest]

theorem decodeString_spanning (isString : StringText w decoded) :
    decodeString wchar_t (spanning .string (0x22 :: (w ++ [0x22])) p) =
      some (some (stringOf wchar_t decoded)) := by
  have characters := decodeCharacters_append (p := 0x22 :: p) isString (w.length + 2) (by omega)
  rw [decodeString, spanning]
  simp only [length_cons, length_append, length_nil,
    cons_append, append_assoc, nil_append, drop_succ_cons,
    drop_zero, Nat.zero_add]
  have left : w.length + 1 + 1 - 2 = w.length := by omega
  rw [left, characters]
  rfl

theorem literal_cases (isLiteral : literal c = some (str, type)) :
    (c, str, type) ∈ [(0x6e, wide "null", TokenType.nullToken),
      (0x74, wide "true", .boolTrue), (0x66, wide "false", .boolFalse)] := by
  rw [literal] at isLiteral
  split_ifs at isLiteral with isNull isTrue isFalse
  · obtain ⟨rfl, rfl⟩ := Prod.mk.inj (some.inj isLiteral)
    rw [isNull]
    exact mem_cons_self
  · obtain ⟨rfl, rfl⟩ := Prod.mk.inj (some.inj isLiteral)
    rw [isTrue]
    exact mem_cons_of_mem _ mem_cons_self
  · obtain ⟨rfl, rfl⟩ := Prod.mk.inj (some.inj isLiteral)
    rw [isFalse]
    exact mem_cons_of_mem _ (mem_cons_of_mem _ mem_cons_self)

theorem punctuation_cases (isOne : punctuation c = some type) :
    (c, type) ∈ [(0x5b, TokenType.arrayBegin), (0x5d, .arrayEnd),
      (0x2c, .listSeparator), (0x7b, .objectBegin), (0x7d, .objectEnd),
      (0x3a, .objectPairSeparator)] := by
  rw [punctuation] at isOne
  split_ifs at isOne with one two three four five six
  all_goals
    obtain rfl := some.inj isOne
    simp [*]

theorem NumberText.head (isNumber : NumberText number) :
    ∃ c rest, number = c :: rest ∧ (isDigit c = true ∨ c = 0x2d) := by
  obtain ⟨sign, integer, fraction, exponent, rfl, isSign, isInteger, -, -⟩ := isNumber.parts
  rcases isSign with rfl | rfl
  · rcases isText : integer with _ | ⟨first, others⟩
    · exact absurd isText isInteger.some_
    · exact ⟨first, _, rfl, .inl (isInteger.digit first (by
        rw [isText]
        exact mem_cons_self))⟩
  · exact ⟨0x2d, _, rfl, .inr rfl⟩

theorem isDigit_bounds (digit : isDigit c = true) : 0x30 <= c ∧ c <= 0x39 := by
  rw [isDigit, Bool.and_eq_true, decide_eq_true_iff, decide_eq_true_iff] at digit
  exact digit

/-- What starts a token is neither space nor the end of a text. -/
structure Starts (c : Nat) : Prop where
  some_ : c ≠ 0
  white : isWhitespace c = false
  slash : c ≠ 0x2f

theorem starts_of_digit (isFirst : isDigit c = true ∨ c = 0x2d) :
    Starts c ∧ literal c = none ∧ punctuation c = none := by
  rcases isFirst with digit | rfl
  · have bounds := isDigit_bounds digit
    refine ⟨⟨by omega, ?_, by omega⟩, ?_, ?_⟩
    · simp only [isWhitespace, Bool.or_eq_false_iff, beq_eq_false_iff_ne]
      omega
    · simp only [literal]
      rw [if_neg (by omega), if_neg (by omega), if_neg (by omega)]
    · simp only [punctuation]
      rw [if_neg (by omega), if_neg (by omega), if_neg (by omega),
        if_neg (by omega), if_neg (by omega), if_neg (by omega)]
  · exact ⟨⟨by decide, rfl, by decide⟩, rfl, rfl⟩

theorem Lexeme.head (lexeme : Lexeme type w) : ∃ c rest, w = c :: rest ∧ Starts c := by
  cases lexeme with
  | literal isLiteral =>
    have cases_ := literal_cases isLiteral
    simp only [mem_cons, not_mem_nil, Prod.mk.injEq, or_false] at cases_
    rcases cases_ with ⟨-, rfl, -⟩ | ⟨-, rfl, -⟩ | ⟨-, rfl, -⟩
    · exact ⟨0x6e, _, rfl, by decide, rfl, by decide⟩
    · exact ⟨0x74, _, rfl, by decide, rfl, by decide⟩
    · exact ⟨0x66, _, rfl, by decide, rfl, by decide⟩
  | punctuation isOne =>
    have cases_ := punctuation_cases isOne
    have starts : ∀ pair ∈ [(0x5b, TokenType.arrayBegin), (0x5d, .arrayEnd),
        (0x2c, .listSeparator), (0x7b, .objectBegin), (0x7d, .objectEnd),
        (0x3a, .objectPairSeparator)],
        pair.1 ≠ 0 ∧ isWhitespace pair.1 = false ∧ pair.1 ≠ 0x2f := by
      decide
    obtain ⟨some_, white, slash⟩ := starts _ cases_
    exact ⟨_, [], rfl, some_, white, slash⟩
  | number isNumber =>
    obtain ⟨c, rest, rfl, isFirst⟩ := isNumber.head
    exact ⟨c, rest, rfl, (starts_of_digit isFirst).1⟩
  | string isString => exact ⟨0x22, _, rfl, by decide, rfl, by decide⟩

theorem nextStringMatch_append : nextStringMatch (str ++ p) str = some true := by
  induction str with
  | nil => cases p <;> rfl
  | cons c str ih => rw [cons_append, nextStringMatch, if_pos rfl, ih]

theorem nextStringMatch_text (plain : 0 ∉ str) (t : List Nat) :
    ∃ isMatch, nextStringMatch (t ++ 0 :: junk) str = some isMatch ∧
      (isMatch = true -> ∃ behind, t = str ++ behind) := by
  induction str generalizing t with
  | nil =>
    refine ⟨true, ?_, fun _ => ⟨t, rfl⟩⟩
    cases t <;> rfl
  | cons c str ih =>
    rw [mem_cons, not_or] at plain
    cases t with
    | nil =>
      refine ⟨false, ?_, fun isTrue => absurd isTrue Bool.false_ne_true⟩
      rw [nil_append, nextStringMatch, if_neg plain.1]
    | cons first t =>
      by_cases same : first = c
      · subst same
        obtain ⟨isMatch, isMatched, isBehind⟩ := ih plain.2 t
        refine ⟨isMatch, ?_, fun isTrue => ?_⟩
        · rw [cons_append, nextStringMatch, if_pos rfl, isMatched]
        · obtain ⟨behind, rfl⟩ := isBehind isTrue
          exact ⟨behind, rfl⟩
      · refine ⟨false, ?_, fun isTrue => absurd isTrue Bool.false_ne_true⟩
        rw [cons_append, nextStringMatch, if_neg same]

theorem tokenAt_text (plain : 0 ∉ text) (inside : Inside text junk reader)
    (isSuffix : t <:+ text) (here : reader.json_pos = t ++ 0 :: junk)
    (isFirst : (t ++ 0 :: junk).head? = some c) :
    ∃ token next, reader.tokenAt c = some (token, next) ∧
      Inside text junk next ∧ Keeps reader next ∧
      next.json_pos = t ++ 0 :: junk ∧ TokenOf t junk token := by
  have simple : ∀ token, reader.tokenAt c = some (token, reader) -> TokenOf t junk token ->
      ∃ token next, reader.tokenAt c = some (token, next) ∧
        Inside text junk next ∧ Keeps reader next ∧
        next.json_pos = t ++ 0 :: junk ∧ TokenOf t junk token :=
    fun token isToken isOf => ⟨token, reader, isToken, inside, Keeps.refl _, here, isOf⟩
  cases t with
  | nil =>
    obtain rfl := some.inj isFirst
    exact simple _ rfl (.endOfInput rfl)
  | cons first t =>
    obtain rfl := some.inj isFirst
    have some_ : first ≠ 0 := by
      rintro rfl
      exact plain (isSuffix.subset mem_cons_self)
    cases isLiteral : literal first with
    | some entry =>
      obtain ⟨str, type⟩ := entry
      have plainStr : 0 ∉ str := by
        have all : ∀ entry ∈ [(0x6e, wide "null", TokenType.nullToken),
            (0x74, wide "true", .boolTrue), (0x66, wide "false", .boolFalse)],
            0 ∉ entry.2.1 := by decide
        exact all _ (literal_cases isLiteral)
      obtain ⟨isMatch, isMatched, isBehind⟩ := nextStringMatch_text plainStr (first :: t)
      have isToken : reader.tokenAt first =
          some (if isMatch then ⟨type, reader.json_pos, str.length⟩
            else kInvalidToken, reader) := by
        rw [JSONReader.tokenAt, if_neg some_, isLiteral, here]
        dsimp only
        rw [isMatched]
        rfl
      cases isMatch with
      | false => exact simple _ isToken .invalid
      | true =>
        obtain ⟨behind, isText⟩ := isBehind rfl
        refine simple _ isToken ?_
        rw [if_pos rfl, here, isText, append_assoc]
        exact .lexeme rfl (.literal isLiteral)
    | none =>
      cases isOne : punctuation first with
      | some type =>
        refine simple (spanning type [first] (t ++ 0 :: junk)) ?_ (.lexeme rfl (.punctuation isOne))
        rw [JSONReader.tokenAt, if_neg some_, isLiteral, isOne, here]
        rfl
      | none =>
        by_cases digit : isDigit first = true ∨ first = 0x2d
        · obtain ⟨token, isToken, isOf⟩ := parseNumberToken_text junk
          refine simple token ?_ ?_
          · rw [JSONReader.tokenAt, if_neg some_, isLiteral, isOne]
            rw [if_pos digit, here, isToken]
            rfl
          · rcases isOf with rfl | ⟨number, behind, isText, isNumber, rfl⟩
            · exact .invalid
            · exact .lexeme isText (.number isNumber)
        · by_cases quote : first = 0x22
          · subst quote
            have enough : t.length < reader.json_pos.length := by
              rw [here]
              simp only [cons_append, length_cons, length_append]
              omega
            obtain ⟨⟨token, next⟩, isRead, insideNext, keeps, same, isOf⟩ :=
              stringCharacters_text plain inside (n := [0x22]) here isSuffix _ enough
            refine ⟨token, next, ?_, insideNext, keeps, same.trans here, ?_⟩
            · rw [JSONReader.tokenAt, if_neg some_, isLiteral, isOne]
              rw [if_neg digit, if_pos rfl, JSONReader.parseStringToken, ← isRead, here]
              rfl
            · rcases isOf with rfl | ⟨w, decoded, behind, rfl, isString, rfl⟩
              · exact .invalid
              · exact .lexeme (w := 0x22 :: (w ++ [0x22])) (by simp) (.string isString)
          · refine simple kInvalidToken ?_ .invalid
            rw [JSONReader.tokenAt, if_neg some_, isLiteral, isOne]
            rw [if_neg digit, if_neg quote]

/-- A token of a text is found behind its space. -/
theorem parseToken_text (plain : 0 ∉ text) (inside : Inside text junk reader) {t : List Nat}
    (isSuffix : t <:+ text) (here : reader.json_pos = t ++ 0 :: junk) :
    ∃ s behind token next, t = s ++ behind ∧ LastSpace s ∧
      (behind ≠ [] -> Space s) ∧ reader.parseToken = some (token, next) ∧
      Inside text junk next ∧ Keeps reader next ∧
      next.json_pos = behind ++ 0 :: junk ∧ TokenOf behind junk token := by
  have plainHere : 0 ∉ t := fun mem => plain (isSuffix.subset mem)
  obtain ⟨s, behind, rfl, space, closed, stops, eats⟩ := eatWhitespaceAndComments_eq plainHere
  have isSuffixBehind : behind <:+ text := (suffix_append s _).trans isSuffix
  obtain ⟨c, q, isText, -⟩ := stops
  have isFirst : (behind ++ 0 :: junk).head? = some c := by
    rw [isText]
    rfl
  obtain ⟨token, next, isToken, insideNext, keeps, hereNext, isOf⟩ :=
    tokenAt_text plain (inside.move isSuffixBehind) isSuffixBehind rfl isFirst
  refine ⟨s, behind, token, next, rfl, space, closed, ?_, insideNext,
    ⟨keeps.depth, keeps.trailing⟩, hereNext, isOf⟩
  rw [JSONReader.parseToken, here, eats]
  simp only [bind_eq_bind, bind_some, isFirst]
  exact isToken

/-- What is behind a lexeme does not continue it. -/
def Ends (type : TokenType) (p : Pointer) : Prop :=
  ∃ c q, p = c :: q ∧ (type = .number -> NumberEnds c)

theorem tokenAt_append (lexeme : Lexeme type w) (plain : 0 ∉ w) (ends : Ends type p)
    (here : reader.json_pos = w ++ p) {c : Nat} (isFirst : w.head? = some c) :
    reader.tokenAt c = some (spanning type w p, reader) := by
  obtain ⟨first, rest, isText, starts⟩ := lexeme.head
  rw [isText] at isFirst
  obtain rfl := some.inj isFirst
  cases lexeme with
  | @literal c _ str isLiteral =>
    have same : c = first := by
      have all : ∀ entry ∈ [(0x6e, wide "null", TokenType.nullToken),
          (0x74, wide "true", .boolTrue), (0x66, wide "false", .boolFalse)],
          entry.2.1.head? = some entry.1 := by decide
      have isFirst := all _ (literal_cases isLiteral)
      rw [isText] at isFirst
      exact (some.inj isFirst).symm
    subst same
    rw [JSONReader.tokenAt, if_neg starts.some_, isLiteral, here]
    simp only [nextStringMatch_append, bind_eq_bind, bind_some, if_true]
    rfl
  | punctuation isOne =>
    obtain ⟨rfl, rfl⟩ := List.cons.inj isText
    have notLiteral : ∀ pair ∈ [(0x5b, TokenType.arrayBegin),
        (0x5d, .arrayEnd), (0x2c, .listSeparator), (0x7b, .objectBegin),
        (0x7d, .objectEnd), (0x3a, .objectPairSeparator)],
        literal pair.1 = none := by decide
    rw [JSONReader.tokenAt, if_neg starts.some_,
      notLiteral _ (punctuation_cases isOne), isOne, here]
    rfl
  | number isNumber =>
    obtain ⟨d, others, isNumberText, isDigitOrMinus⟩ := isNumber.head
    rw [isText] at isNumberText
    obtain ⟨rfl, rfl⟩ := List.cons.inj isNumberText
    obtain ⟨-, notLiteral, notOne⟩ := starts_of_digit isDigitOrMinus
    obtain ⟨c, q, rfl, numberEnds⟩ := ends
    rw [JSONReader.tokenAt, if_neg starts.some_, notLiteral, notOne]
    rw [if_pos isDigitOrMinus, here, parseNumberToken_append isNumber (numberEnds rfl)]
    rfl
  | @string w decoded isString =>
    obtain ⟨rfl, rfl⟩ := List.cons.inj isText
    rw [mem_cons, not_or, mem_append, not_or] at plain
    have isToken : reader.tokenAt 0x22 = reader.parseStringToken := rfl
    have enough : w.length < reader.json_pos.length := by
      rw [here]
      simp only [cons_append, length_cons, length_append]
      omega
    rw [isToken, JSONReader.parseStringToken]
    have reads := @stringCharacters_append w _ p reader isString plain.2.1 _ enough [0x22]
    have isStart : (⟨.string, reader.json_pos, 1⟩ : Token) =
        spanning .string [0x22] (w ++ 0x22 :: p) := by
      rw [here]
      simp [spanning]
    rw [isStart, reads]
    rfl

/-- A lexeme is the token behind the space before it. -/
theorem parseToken_append {s : List Nat} (space : Space s) (plainSpace : 0 ∉ s)
    (lexeme : Lexeme type w) (plain : 0 ∉ w) (ends : Ends type p)
    (here : reader.json_pos = s ++ (w ++ p)) :
    reader.parseToken = some (spanning type w p, { reader with json_pos := w ++ p }) := by
  obtain ⟨first, rest, isText, starts⟩ := lexeme.head
  have stops : Stops (w ++ p) := by
    rw [isText]
    exact stops_of_ne starts.white starts.slash
  have isFirst : (w ++ p).head? = some first := by
    rw [isText]
    rfl
  rw [JSONReader.parseToken, here, eatWhitespaceAndComments_append space plainSpace stops]
  simp only [bind_eq_bind, bind_some, isFirst]
  have isHead : w.head? = some first := by
    rw [isText]
    rfl
  exact @tokenAt_append w p { reader with json_pos := w ++ p } _ lexeme plain ends rfl first isHead

/-- Behind the last space of a text is its end. -/
theorem parseToken_last {s : List Nat} (space : LastSpace s) (plain : 0 ∉ s)
    (here : reader.json_pos = s ++ 0 :: junk) :
    reader.parseToken = some (⟨.endOfInput, [], 0⟩, { reader with json_pos := 0 :: junk }) := by
  rw [JSONReader.parseToken, here, eatWhitespaceAndComments_last space plain]
  rfl

end

/-!
## What the language has is read

The text of a value is read as the value, whatever is behind it that does not
continue it.
-/

section

open Base

variable {w s : List Nat} {p : Pointer} {reader : JSONReader}

/-- What is behind a value does not continue it. -/
def Follows (p : Pointer) : Prop := ∃ c q, p = c :: q ∧ NumberEnds c

theorem Follows.ends (follows : Follows p) (type : TokenType) : Ends type p := by
  obtain ⟨c, q, isText, ends⟩ := follows
  exact ⟨c, q, isText, fun _ => ends⟩

theorem follows_cons (ends : NumberEnds c) : Follows (c :: p) := ⟨c, p, rfl, ends⟩

theorem numberEnds_white (isWhite : isWhitespace c = true) : NumberEnds c := by
  simp only [isWhitespace, Bool.or_eq_true, beq_iff_eq] at isWhite
  rcases isWhite with ((rfl | rfl) | rfl) | rfl
  · exact ⟨rfl, by decide, by decide⟩
  · exact ⟨rfl, by decide, by decide⟩
  · exact ⟨rfl, by decide, by decide⟩
  · exact ⟨rfl, by decide, by decide⟩

theorem Space.follows (space : Space s) (follows : Follows p) : Follows (s ++ p) := by
  cases space with
  | nil => exact follows
  | white isWhite => exact follows_cons (numberEnds_white isWhite)
  | line => exact follows_cons ⟨rfl, by decide, by decide⟩
  | block => exact follows_cons ⟨rfl, by decide, by decide⟩

theorem advance_append (here : reader.json_pos = w ++ p) :
    reader.advance w.length = { reader with json_pos := p } := by
  rw [JSONReader.advance, here, drop_left]

/-- A text starts with a lexeme that closes nothing. -/
def FirstLexeme (w : List Nat) : Prop :=
  ∃ type l rest, w = l ++ rest ∧ Lexeme type l ∧ type ≠ .arrayEnd ∧
    type ≠ .objectEnd ∧ (type = .number -> rest = [])

/-- The first lexeme of a text is the token behind the space before it. -/
theorem FirstLexeme.parseToken (first : FirstLexeme w) (plain : 0 ∉ w) (space : Space s)
    (plainSpace : 0 ∉ s) (follows : Follows p)
    (here : reader.json_pos = s ++ (w ++ p)) :
    ∃ token, reader.parseToken = some (token, { reader with json_pos := w ++ p }) ∧
      token.type ≠ .arrayEnd ∧ token.type ≠ .objectEnd := by
  obtain ⟨type, l, rest, rfl, lexeme, notArray, notObject, isNumber⟩ := first
  rw [mem_append, not_or] at plain
  have ends : Ends type (rest ++ p) := by
    obtain ⟨c, q, isText, numberEnds⟩ := follows
    rcases isRest : rest with _ | ⟨d, others⟩
    · exact ⟨c, q, isText, fun _ => numberEnds⟩
    · refine ⟨d, others ++ p, rfl, fun is_ => ?_⟩
      rw [isNumber is_] at isRest
      cases isRest
  rw [append_assoc] at here
  refine ⟨spanning type l (rest ++ p), ?_, notArray, notObject⟩
  rw [parseToken_append space plainSpace lexeme plain.1 ends here, append_assoc]

/-- An item is read from its text, in front of which is space. -/
structure ItemReads (item : Token -> JSONReader -> Option (Option α × JSONReader))
    (close : TokenType) (depth : Nat) (trailing : Bool)
    (itemText : List Nat -> α -> Prop) : Prop where
  reads : ∀ {w a s p} {reader : JSONReader}, itemText w a -> 0 ∉ w -> Space s ->
    0 ∉ s -> Follows p -> reader.json_pos = s ++ (w ++ p) ->
    reader.stack_depth = depth -> reader.allow_trailing_comma = trailing ->
    ∃ token, reader.parseToken = some (token, { reader with json_pos := w ++ p }) ∧
      token.type ≠ close ∧
      item token { reader with json_pos := w ++ p } = some (some a, { reader with json_pos := p })

section Items

variable {α : Type}

/-- The loop ends at the token that closes it. -/
theorem items_of_close (isClose : token.type = close) :
    JSONReader.items item close (fuel + 1) token reader = some (some ([], token), reader) := by
  rw [JSONReader.items, if_pos isClose]

/-- Items are read up to the character that closes them. -/
theorem items_append (itemReads : ItemReads item close depth trailing itemText)
    (isClose : punctuation c = some close) (ne : close ≠ .listSeparator)
    (ends : NumberEnds c) (some_ : p ≠ [])
    (separated : Separated trailing itemText w as) (plain : 0 ∉ w)
    (here : reader.json_pos = w ++ c :: p)
    (atDepth : reader.stack_depth = depth)
    (allowed : reader.allow_trailing_comma = trailing) :
    ∃ token q, reader.parseToken = some (token, { reader with json_pos := q }) ∧
      q.length <= reader.json_pos.length ∧ token.type ≠ close ∧
      ∀ fuel, q.length <= fuel ->
        JSONReader.items item close fuel token { reader with json_pos := q } =
          some (some (as, spanning close [c] p), { reader with json_pos := c :: p }) := by
  have closeLexeme : Lexeme close [c] := .punctuation isClose
  have closes : Follows (c :: p) := follows_cons ends
  have several : 0 < p.length := length_pos_iff.mpr some_
  have plainClose : 0 ∉ [c] := by
    obtain ⟨first, rest, isText, starts⟩ := closeLexeme.head
    obtain ⟨rfl, -⟩ := List.cons.inj isText
    exact fun mem => starts.some_ (mem_singleton.mp mem).symm
  have comma : Lexeme .listSeparator [0x2c] := .punctuation rfl
  have plainComma : (0 : Nat) ∉ [0x2c] := by decide
  have closeEnds : Ends close p := by
    cases p with
    | nil => exact absurd rfl some_
    | cons d q =>
      refine ⟨d, q, rfl, fun isNumber => ?_⟩
      have cases_ := punctuation_cases isClose
      rw [isNumber] at cases_
      simp at cases_
  induction separated generalizing reader with
  | @last s w a s' before isItem after =>
    simp only [mem_append, not_or] at plain
    obtain ⟨token, isToken, notClose, isRead⟩ := itemReads.reads isItem
      plain.2.1 before plain.1 (after.follows closes)
      (by rw [here]; simp only [append_assoc]) atDepth allowed
    have behind := @parseToken_append [c] p
      { reader with json_pos := s' ++ c :: p } close s' after plain.2.2
      closeLexeme plainClose closeEnds rfl
    refine ⟨token, _, isToken, ?_, notClose, fun fuel enough => ?_⟩
    · rw [here]
      simp only [length_append]
      omega
    · match fuel with
      | 0 =>
        simp only [length_append, length_cons] at enough
        omega
      | 1 =>
        simp only [length_append, length_cons] at enough
        omega
      | fuel + 2 =>
        rw [JSONReader.items, if_neg notClose, isRead]
        simp only [bind_eq_bind, bind_some, behind]
        rw [type_spanning, if_neg ne, if_neg (not_not.mpr rfl), items_of_close type_spanning]
        rfl
  | @trailing s w a s' s'' isAllowed before isItem after behind =>
    simp only [mem_append, mem_cons, not_or] at plain
    obtain ⟨token, isToken, notClose, isRead⟩ := itemReads.reads isItem plain.2.1 before plain.1
      (after.follows (p := 0x2c :: (s'' ++ c :: p)) (follows_cons ⟨rfl, by decide, by decide⟩))
      (by rw [here]; simp only [append_assoc, cons_append]) atDepth
      allowed
    have isComma := @parseToken_append [0x2c] (s'' ++ c :: p)
      { reader with json_pos := s' ++ 0x2c :: (s'' ++ c :: p) } _ s' after
      plain.2.2.1 comma plainComma ((behind.follows closes).ends _) rfl
    have isEnd := @parseToken_append [c] p
      { reader with json_pos := s'' ++ c :: p } close s'' behind
      plain.2.2.2.2 closeLexeme plainClose closeEnds rfl
    refine ⟨token, _, isToken, ?_, notClose, fun fuel enough => ?_⟩
    · rw [here]
      simp only [length_append, length_cons]
      omega
    · cases fuel with
      | zero =>
        simp only [length_append, length_cons] at enough
        omega
      | succ fuel =>
        rw [JSONReader.items, if_neg notClose, isRead]
        simp only [bind_eq_bind, bind_some, isComma]
        have moved := @advance_append [0x2c] (s'' ++ c :: p)
          { reader with json_pos := [0x2c] ++ (s'' ++ c :: p) } rfl
        rw [type_spanning, if_pos rfl, length_spanning, moved, isEnd]
        simp only [bind_some]
        rw [type_spanning, if_pos rfl, allowed, isAllowed]
        rfl
  | @cons s w a s' w' as before isItem after rest ih =>
    simp only [mem_append, mem_cons, not_or] at plain
    obtain ⟨token, isToken, notClose, isRead⟩ := itemReads.reads isItem plain.2.1 before plain.1
      (after.follows (p := 0x2c :: (w' ++ c :: p)) (follows_cons ⟨rfl, by decide, by decide⟩))
      (by rw [here]; simp only [append_assoc, cons_append]) atDepth
      allowed
    have restEnds : Ends .listSeparator (w' ++ c :: p) := by
      rcases isText : w' ++ c :: p with _ | ⟨d, q⟩
      · simp at isText
      · exact ⟨d, q, rfl, fun isNumber => by cases isNumber⟩
    have isComma := @parseToken_append [0x2c] (w' ++ c :: p)
      { reader with json_pos := s' ++ 0x2c :: (w' ++ c :: p) } _ s' after
      plain.2.2.1 comma plainComma restEnds rfl
    obtain ⟨next, q, isNext, shorter, notEnd, reads⟩ := @ih
      { reader with json_pos := w' ++ c :: p } plain.2.2.2.2 rfl atDepth allowed
    refine ⟨token, _, isToken, ?_, notClose, fun fuel enough => ?_⟩
    · rw [here]
      simp only [length_append, length_cons]
      omega
    · cases fuel with
      | zero =>
        simp only [length_append, length_cons] at enough
        omega
      | succ fuel =>
        have enoughRest : q.length <= fuel := by
          simp only [length_append, length_cons] at enough shorter
          omega
        rw [JSONReader.items, if_neg notClose, isRead]
        simp only [bind_eq_bind, bind_some, isComma]
        have moved := @advance_append [0x2c] (w' ++ c :: p)
          { reader with json_pos := [0x2c] ++ (w' ++ c :: p) } rfl
        rw [type_spanning, if_pos rfl, length_spanning, moved, isNext]
        simp only [bind_some]
        rw [if_neg notEnd, reads fuel enoughRest]
        rfl

end Items

section Values

variable {wchar_t : WcharT} {Double : Type} {stringToDouble : Bytes -> Option Double}
  {isFinite : Double -> Bool} {trailing : Bool} {depth : Nat}
  {nested : List Nat -> Value Double -> Prop}
  {element : JSONReader -> Option (Option (Value Double) × JSONReader)}

/-- The values in a value are read from their texts. -/
structure ElementReads (element : JSONReader -> Option (Option (Value Double) × JSONReader))
    (depth : Nat) (trailing : Bool)
    (nested : List Nat -> Value Double -> Prop) : Prop where
  reads : ∀ {w v s p} {reader : JSONReader}, nested w v -> 0 ∉ w -> Space s ->
    0 ∉ s -> Follows p -> reader.json_pos = s ++ (w ++ p) ->
    reader.stack_depth = depth -> reader.allow_trailing_comma = trailing ->
    element reader = some (some v, { reader with json_pos := p })
  first : ∀ {w v}, nested w v -> FirstLexeme w

/-- The elements of an array are items. -/
theorem ElementReads.items (elementReads : ElementReads element depth trailing nested) :
    ItemReads (fun _ => element) .arrayEnd depth trailing nested := by
  constructor
  intro w a s p reader isItem plain space plainSpace follows here atDepth allowed
  obtain ⟨token, isToken, notEnd, -⟩ := (elementReads.first isItem).parseToken
    plain space plainSpace follows here
  exact ⟨token, isToken, notEnd, elementReads.reads isItem plain .nil
    not_mem_nil follows rfl atDepth allowed⟩

theorem ElementReads.pairs (elementReads : ElementReads element depth trailing nested) :
    ItemReads (JSONReader.pair wchar_t element) .objectEnd depth trailing
      (PairText wchar_t nested) := by
  constructor
  intro w a s p reader isItem plain space plainSpace follows here atDepth allowed
  obtain @⟨w, decoded, after, behind, w', v, key, afterKey, behindColon, isValue⟩ := isItem
  simp only [mem_cons, mem_append, not_or] at plain
  have first := elementReads.first isValue
  have keyLexeme : Lexeme .string (0x22 :: (w ++ [0x22])) := .string key
  have isText : 0x22 :: (w ++ 0x22 :: (after ++ 0x3a :: (behind ++ w'))) ++ p =
      0x22 :: (w ++ [0x22]) ++ (after ++ 0x3a :: (behind ++ (w' ++ p))) := by
    simp
  rw [isText] at here ⊢
  have colonEnds : Follows (0x3a :: (behind ++ (w' ++ p))) :=
    follows_cons ⟨rfl, by decide, by decide⟩
  have isKey := parseToken_append space plainSpace keyLexeme
    (by simp [plain.2.1]) ((afterKey.follows colonEnds).ends _) here
  refine ⟨_, isKey, by rw [type_spanning]; decide, ?_⟩
  have valueEnds : Ends .objectPairSeparator (behind ++ (w' ++ p)) := by
    rcases isRest : behind ++ (w' ++ p) with _ | ⟨c, q⟩
    · obtain ⟨c, q, rfl, -⟩ := follows
      simp at isRest
    · exact ⟨c, q, rfl, fun isNumber => by cases isNumber⟩
  have isColon := @parseToken_append [0x3a] (behind ++ (w' ++ p))
    { reader with json_pos := after ++ 0x3a :: (behind ++ (w' ++ p)) } _ after
    afterKey plain.2.2.2.1 (@Lexeme.punctuation 0x3a .objectPairSeparator rfl)
    (by decide) valueEnds rfl
  obtain ⟨token, isToken, -, -⟩ := @FirstLexeme.parseToken w' behind p
    { reader with json_pos := behind ++ (w' ++ p) } first
    plain.2.2.2.2.2.2 behindColon plain.2.2.2.2.2.1 follows rfl
  have isElement := @ElementReads.reads _ _ _ _ _ elementReads _ _ [] p
    { reader with json_pos := w' ++ p } isValue plain.2.2.2.2.2.2 .nil
    not_mem_nil follows rfl atDepth allowed
  have movedKey := @advance_append (0x22 :: (w ++ [0x22])) (after ++ 0x3a :: (behind ++ (w' ++ p)))
    { reader with json_pos := 0x22 :: (w ++ [0x22]) ++
      (after ++ 0x3a :: (behind ++ (w' ++ p))) } rfl
  have movedColon := @advance_append [0x3a] (behind ++ (w' ++ p))
    { reader with json_pos := [0x3a] ++ (behind ++ (w' ++ p)) } rfl
  rw [JSONReader.pair, type_spanning, if_neg (not_not.mpr rfl), decodeString_spanning key]
  simp only [bind_eq_bind, bind_some]
  rw [length_spanning, movedKey, isColon]
  simp only [bind_some]
  rw [type_spanning, if_neg (not_not.mpr rfl), length_spanning, movedColon, isToken]
  simp only [bind_some]
  rw [isElement]
  rfl

/-- The text of a value starts with a lexeme. -/
theorem ValueText.first (isValue : ValueText wchar_t stringToDouble isFinite trailing nested w v) :
    FirstLexeme w := by
  cases isValue with
  | null =>
    exact ⟨.nullToken, _, [], (append_nil _).symm,
      .literal (c := 0x6e) rfl, by decide, by decide, fun _ => rfl⟩
  | true_ =>
    exact ⟨.boolTrue, _, [], (append_nil _).symm,
      .literal (c := 0x74) rfl, by decide, by decide, fun _ => rfl⟩
  | false_ =>
    exact ⟨.boolFalse, _, [], (append_nil _).symm,
      .literal (c := 0x66) rfl, by decide, by decide, fun _ => rfl⟩
  | number isNumber =>
    exact ⟨.number, _, [], (append_nil _).symm, .number isNumber,
      by decide, by decide, fun _ => rfl⟩
  | string isString =>
    exact ⟨.string, _, [], (append_nil _).symm, .string isString,
      by decide, by decide, fun _ => rfl⟩
  | emptyArray =>
    exact ⟨.arrayBegin, [0x5b], _, rfl, .punctuation rfl, by decide, by decide,
      fun isNumber => by cases isNumber⟩
  | array =>
    exact ⟨.arrayBegin, [0x5b], _, rfl, .punctuation rfl, by decide, by decide,
      fun isNumber => by cases isNumber⟩
  | emptyObject =>
    exact ⟨.objectBegin, [0x7b], _, rfl, .punctuation rfl, by decide, by decide,
      fun isNumber => by cases isNumber⟩
  | object =>
    exact ⟨.objectBegin, [0x7b], _, rfl, .punctuation rfl, by decide, by decide,
      fun isNumber => by cases isNumber⟩

/-- Where a value ends: its last token, at which the reader is. -/
def Built (built : Option (Option (Value Double × Token) × JSONReader))
    (reader : JSONReader) (v : Value Double) (p : Pointer) :
    Prop :=
  ∃ last l, built = some (some (v, last), { reader with json_pos := l ++ p }) ∧
    last.length = l.length

theorem decodeNumber_spanning (isValue : NumberValue wchar_t stringToDouble isFinite n v) :
    decodeNumber wchar_t stringToDouble isFinite (spanning .number n p) = some v := by
  rw [decodeNumber, spanning]
  rw [take_left]
  cases isValue with
  | integer fits => rw [fits]
  | double large reads finite =>
    rw [large, reads]
    rw [filter_some, if_pos finite]
    rfl

/-- An array or an object is read up to the token that closes it. -/
theorem container_append {α : Type} {item : Token -> JSONReader -> Option (Option α × JSONReader)}
    {itemText : List Nat -> α -> Prop} {close : TokenType}
    (itemReads : ItemReads item close depth trailing itemText) {c : Nat}
    (isClose : punctuation c = some close) (ne : close ≠ .listSeparator)
    (ends : NumberEnds c) (follows : Follows p) {as : List α}
    (isItems : Separated trailing itemText w as ∨ Space w ∧ as = [])
    (plain : 0 ∉ w) (here : reader.json_pos = w ++ c :: p)
    (atDepth : reader.stack_depth = depth)
    (allowed : reader.allow_trailing_comma = trailing) :
    ∃ token next, reader.parseToken = some (token, next) ∧
      JSONReader.items item close next.json_pos.length token next =
        some (some (as, spanning close [c] p), { reader with json_pos := c :: p }) := by
  have some_ : p ≠ [] := by
    obtain ⟨d, q, rfl, -⟩ := follows
    exact cons_ne_nil _ _
  rcases isItems with separated | ⟨space, rfl⟩
  · obtain ⟨token, q, isToken, -, -, reads⟩ := items_append itemReads isClose
      ne ends some_ separated plain here atDepth allowed
    exact ⟨token, _, isToken, reads _ (Nat.le_refl _)⟩
  · have closeLexeme : Lexeme close [c] := .punctuation isClose
    have plainClose : 0 ∉ [c] := by
      obtain ⟨first, rest, isText, starts⟩ := closeLexeme.head
      obtain ⟨rfl, -⟩ := List.cons.inj isText
      exact fun mem => starts.some_ (mem_singleton.mp mem).symm
    have isToken := parseToken_append space plain closeLexeme plainClose (follows.ends close) here
    exact ⟨_, _, isToken, items_of_close type_spanning⟩

section

variable (elementReads : ElementReads element depth trailing nested)
include elementReads

/-- An array is read from its first token on. -/
theorem array_append (isItems : Separated trailing nested w vs ∨ Space w ∧ vs = [])
    (plain : 0 ∉ w) (follows : Follows p) (atDepth : reader.stack_depth = depth)
    (allowed : reader.allow_trailing_comma = trailing) :
    Built (JSONReader.node wchar_t stringToDouble isFinite element
      (spanning .arrayBegin [0x5b] (w ++ 0x5d :: p))
      { reader with json_pos := [0x5b] ++ (w ++ 0x5d :: p) }) reader (.list vs)
      p := by
  obtain ⟨token, next, isToken, isRead⟩ := @container_append w p
    { reader with json_pos := w ++ 0x5d :: p } _ _ _ _ _ .arrayEnd
    elementReads.items 0x5d rfl (by decide)
    ⟨rfl, by decide, by decide⟩ follows _ isItems plain rfl atDepth allowed
  have moved := @advance_append [0x5b] (w ++ 0x5d :: p)
    { reader with json_pos := [0x5b] ++ (w ++ 0x5d :: p) } rfl
  refine ⟨spanning .arrayEnd [0x5d] p, [0x5d], ?_, rfl⟩
  rw [JSONReader.node, type_spanning]
  rw [length_spanning, moved, isToken]
  simp only [bind_eq_bind, bind_some]
  rw [isRead]
  rfl

/-- An object is read from its first token on. -/
theorem object_append
    (isItems : Separated trailing (PairText wchar_t nested) w entries ∨ Space w ∧ entries = [])
    (plain : 0 ∉ w) (follows : Follows p) (atDepth : reader.stack_depth = depth)
    (allowed : reader.allow_trailing_comma = trailing) :
    Built (JSONReader.node wchar_t stringToDouble isFinite element
      (spanning .objectBegin [0x7b] (w ++ 0x7d :: p))
      { reader with json_pos := [0x7b] ++ (w ++ 0x7d :: p) }) reader
      (.dictionary (dictionaryOf entries)) p := by
  obtain ⟨token, next, isToken, isRead⟩ := @container_append w p
    { reader with json_pos := w ++ 0x7d :: p } _ _ _ _ _ .objectEnd
    (@ElementReads.pairs wchar_t _ _ _ _ _ elementReads) 0x7d rfl (by decide)
    ⟨rfl, by decide, by decide⟩ follows _ isItems plain rfl atDepth allowed
  have moved := @advance_append [0x7b] (w ++ 0x7d :: p)
    { reader with json_pos := [0x7b] ++ (w ++ 0x7d :: p) } rfl
  refine ⟨spanning .objectEnd [0x7d] p, [0x7d], ?_, rfl⟩
  rw [JSONReader.node, type_spanning]
  rw [length_spanning, moved, isToken]
  simp only [bind_eq_bind, bind_some]
  rw [isRead]
  rfl

/-- The switch of `BuildValue` reads a value from its first token on. -/
theorem node_append {v : Value Double}
    (isValue : ValueText wchar_t stringToDouble isFinite trailing nested w v)
    (plain : 0 ∉ w) (follows : Follows p) (space : Space s) (plainSpace : 0 ∉ s)
    (here : reader.json_pos = s ++ (w ++ p)) (atDepth : reader.stack_depth = depth)
    (allowed : reader.allow_trailing_comma = trailing) :
    ∃ token next, reader.parseToken = some (token, next) ∧
      (IsRoot v -> token.type = .objectBegin ∨ token.type = .arrayBegin) ∧
      Built (JSONReader.node wchar_t stringToDouble isFinite element token next) reader v p := by
  -- The values that are one token.
  have single : ∀ {type}, Lexeme type w -> JSONReader.node wchar_t stringToDouble isFinite element
          (spanning type w p) { reader with json_pos := w ++ p } =
        some (some (v, spanning type w p), { reader with json_pos := w ++ p }) ->
      ¬ IsRoot v ->
      ∃ token next, reader.parseToken = some (token, next) ∧
        (IsRoot v -> token.type = .objectBegin ∨ token.type = .arrayBegin) ∧
        Built (JSONReader.node wchar_t stringToDouble isFinite element token next) reader v p := by
    intro type lexeme isNode notRoot
    exact ⟨_, _, parseToken_append space plainSpace lexeme plain
      (follows.ends type) here, fun isRoot => absurd isRoot notRoot,
      spanning type w p, w, isNode, rfl⟩
  -- The values between two brackets.
  have bracketed : ∀ {first last type inside}, type = .objectBegin ∨ type = .arrayBegin ->
      Built (JSONReader.node wchar_t stringToDouble isFinite element
        (spanning type [first] (inside ++ last :: p))
        { reader with json_pos := [first] ++ (inside ++ last :: p) }) reader v
        p ->
      punctuation first = some type ->
      w = first :: (inside ++ [last]) ->
      ∃ token next, reader.parseToken = some (token, next) ∧
        (IsRoot v -> token.type = .objectBegin ∨ token.type = .arrayBegin) ∧
        Built (JSONReader.node wchar_t stringToDouble isFinite element token next) reader v p := by
    rintro first last type inside isRoot built isOpen rfl
    have isText : first :: (inside ++ [last]) ++ p = [first] ++ (inside ++ last :: p) := by simp
    rw [isText] at here
    simp only [mem_cons, mem_append, not_or] at plain
    have ends : Ends type (inside ++ last :: p) := by
      rcases isRest : inside ++ last :: p with _ | ⟨d, q⟩
      · simp at isRest
      · refine ⟨d, q, rfl, fun isNumber => ?_⟩
        rcases isRoot with rfl | rfl
        · cases isNumber
        · cases isNumber
    exact ⟨_, _, parseToken_append space plainSpace (.punctuation isOpen)
      (by simpa using plain.1) ends here, fun _ => isRoot, built⟩
  have inner : ∀ {first last inside}, 0 ∉ first :: (inside ++ [last]) -> 0 ∉ inside := by
    intro first last inside plain
    simp only [mem_cons, mem_append, not_or] at plain
    exact plain.2.1
  cases isValue with
  | null => exact single (.literal (c := 0x6e) rfl) rfl id
  | true_ => exact single (.literal (c := 0x74) rfl) rfl id
  | false_ => exact single (.literal (c := 0x66) rfl) rfl id
  | number isNumber isValue =>
    refine single (.number isNumber) ?_ ?_
    · rw [JSONReader.node, type_spanning]
      rw [decodeNumber_spanning isValue]
      rfl
    · cases isValue <;> exact id
  | string isString =>
    refine single (.string isString) ?_ id
    rw [JSONReader.node, type_spanning]
    rw [decodeString_spanning isString]
    rfl
  | @emptyArray w isSpace =>
    exact bracketed (.inr rfl) (array_append elementReads
      (.inr ⟨isSpace, rfl⟩) (inner plain) follows atDepth allowed) rfl rfl
  | @array w vs nodes =>
    exact bracketed (.inr rfl) (array_append elementReads (.inl nodes)
      (inner plain) follows atDepth allowed) rfl rfl
  | @emptyObject w isSpace =>
    exact bracketed (.inl rfl) (object_append elementReads
      (.inr ⟨isSpace, rfl⟩) (inner plain) follows atDepth allowed) rfl rfl
  | @object w entries nodes =>
    exact bracketed (.inl rfl) (object_append elementReads (.inl nodes)
      (inner plain) follows atDepth allowed) rfl rfl

end

/-- A value of no more levels than are left is read. -/
theorem buildValue_append (levels : Nat) :
    ∀ (fuel : Nat) (is_root : Bool) {w s : List Nat} {v : Value Double}
      {p : Pointer} {reader : JSONReader},
      NestedText wchar_t stringToDouble isFinite trailing levels w v -> 0 ∉ w ->
      Space s -> 0 ∉ s -> Follows p -> reader.json_pos = s ++ (w ++ p) ->
      levels <= fuel -> reader.stack_depth + levels <= kStackLimit ->
      reader.allow_trailing_comma = trailing -> (is_root = true -> IsRoot v) ->
      JSONReader.buildValue wchar_t stringToDouble isFinite fuel is_root reader =
        some (some v, { reader with json_pos := p }) := by
  induction levels with
  | zero => exact fun fuel is_root w s v p reader isValue => isValue.elim
  | succ levels ih =>
    intro fuel is_root w s v p reader isValue plain space plainSpace follows
      here enough depth allowed isRoot
    cases fuel with
    | zero => cases enough
    | succ fuel =>
      have elementReads : ElementReads
          (JSONReader.buildValue wchar_t stringToDouble isFinite fuel false)
          (reader.stack_depth + 1) trailing
          (NestedText wchar_t stringToDouble isFinite trailing levels) := by
        refine ⟨?_, ?_⟩
        · intro w v s p next isValue plain space plainSpace follows here atDepth allowed
          exact ih fuel false isValue plain space plainSpace
            follows here (Nat.le_of_succ_le_succ enough)
            (by rw [atDepth]; omega) allowed
            (fun isTrue => absurd isTrue Bool.false_ne_true)
        · intro w v isValue
          cases levels with
          | zero => exact isValue.elim
          | succ levels => exact isValue.first
      obtain ⟨token, next, isToken, isOpen, last, l, isNode, len⟩ :=
        @node_append _ _ _ { reader with
          stack_depth := reader.stack_depth + 1 } _ _ _ _ _ _ _ _
          elementReads _ isValue plain
          follows space plainSpace here rfl allowed
      have shallow : ¬ kStackLimit < reader.stack_depth + 1 := by omega
      have root : ¬ (is_root = true ∧ token.type ≠ .objectBegin ∧ token.type ≠ .arrayBegin) := by
        rintro ⟨isTrue, notObject, notArray⟩
        rcases isOpen (isRoot isTrue) with isObject | isArray
        · exact notObject isObject
        · exact notArray isArray
      rw [JSONReader.buildValue]
      rw [if_neg shallow, isToken]
      simp only [bind_eq_bind, bind_some]
      rw [if_neg root, isNode]
      simp only [bind_some]
      rw [len, advance_append rfl]
      rfl

end Values

end

end Chromium.Json
