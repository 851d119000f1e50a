import Chromium.Json.JSONWriter

/-!
# Reading JSON

`JSONReader`: a pointer into a text that ends with a null character. What is
read through a pointer is nothing if it is behind the terminator.
-/

namespace Chromium.Json

section

open Base

/-- The characters of an ASCII string. -/
def wide (str : String) : List Nat := str.toList.map Char.toNat

/-- A pointer to a character of a text: what the text has from there on, with
its terminator. -/
abbrev Pointer := List Nat

/-- `JSONReader::Token::Type`. -/
inductive TokenType where
  | objectBegin
  | objectEnd
  | arrayBegin
  | arrayEnd
  | string
  | number
  | boolTrue
  | boolFalse
  | nullToken
  | listSeparator
  | objectPairSeparator
  | endOfInput
  | invalidToken
  deriving DecidableEq

/-- `JSONReader::Token`. -/
structure Token where
  type : TokenType
  begin : Pointer
  length : Nat
  deriving DecidableEq

namespace Token

/-- `Token::NextChar`. -/
def nextChar (token : Token) : Option Nat := token.begin[token.length]?

/-- A token that is longer by some characters. -/
def advance (token : Token) (count : Nat) : Token := { token with length := token.length + count }

end Token

def kInvalidToken : Token := ⟨.invalidToken, [], 0⟩

def kStackLimit : Nat := 100

/-- A character from `0` to `9`. -/
def isDigit (c : Nat) : Bool := 0x30 <= c && c <= 0x39

/-- A hexadecimal digit. -/
def isHexDigit (c : Nat) : Bool := isDigit c || (0x61 <= c && c <= 0x66) || (0x41 <= c && c <= 0x46)

/-- `HexDigitToInt`. -/
def hexDigitToInt (c : Nat) : Nat :=
  if isDigit c then c - 0x30
  else if 0x61 <= c then c - 0x61 + 10
  else c - 0x41 + 10

/-- The loop of `ReadInt`: the number of digits. -/
def countDigits : Pointer -> Option Nat
  | [] => none
  | c :: rest => if isDigit c then (countDigits rest).map (· + 1) else some 0

/-- `ReadInt`. -/
def readInt (token : Token) (can_have_leading_zeros : Bool) : Option (Token × Bool) := do
  let first ← token.nextChar
  let len ← countDigits (token.begin.drop token.length)
  some (token.advance len, if len = 0 then false
    else if !can_have_leading_zeros ∧ 1 < len ∧ first = 0x30 then false
    else true)

/-- The loop of `ReadHexDigits`. -/
def areHexDigits : Nat -> Pointer -> Option Bool
  | 0, _ => some true
  | _ + 1, [] => none
  | digits + 1, c :: rest => if isHexDigit c then areHexDigits digits rest else some false

/-- `ReadHexDigits`, behind the last character of a token. -/
def readHexDigits (token : Token) (digits : Nat) : Option (Token × Bool) := do
  let valid ← areHexDigits digits (token.begin.drop (token.length + 1))
  some (if valid then token.advance digits else token, valid)

/-- The optional fraction of `ParseNumberToken`. -/
def readFraction (token : Token) : Option (Token × Bool) := do
  let c ← token.nextChar
  if c = 0x2e then readInt (token.advance 1) true
  else some (token, true)

/-- The optional exponent of `ParseNumberToken`. -/
def readExponent (token : Token) : Option (Token × Bool) := do
  let c ← token.nextChar
  if c = 0x65 ∨ c = 0x45 then do
    let c ← (token.advance 1).nextChar
    if c = 0x2d ∨ c = 0x2b then readInt (token.advance 2) true
    else readInt (token.advance 1) true
  else some (token, true)

/-- `ParseNumberToken`. -/
def parseNumberToken (json_pos : Pointer) : Option Token := do
  let c ← json_pos.head?
  let (token, valid) ← readInt ⟨.number, json_pos, if c = 0x2d then 1 else 0⟩ false
  if !valid then some kInvalidToken
  else do
    let (token, valid) ← readFraction token
    if !valid then some kInvalidToken
    else do
      let (token, valid) ← readExponent token
      if !valid then some kInvalidToken else some token

section Conversion

variable (wchar_t : WcharT) {Double : Type} (stringToDouble : Bytes -> Option Double)
  (isFinite : Double -> Bool)

/-- `DecodeNumber`, over `StringToDouble` and `IsFinite`. -/
def decodeNumber (token : Token) : Option (Value Double) :=
  let num_string := wideToUTF8 wchar_t (token.begin.take token.length)
  match stringToInt num_string with
  | some num_int => some (.integer num_int)
  | none => ((stringToDouble num_string).filter isFinite).map .double

/-- The character of an escape that has no digits. -/
def singleEscape (c : Nat) : Option Nat :=
  if c = 0x22 ∨ c = 0x2f ∨ c = 0x5c then some c
  else if c = 0x62 then some 0x08
  else if c = 0x66 then some 0x0c
  else if c = 0x6e then some 0x0a
  else if c = 0x72 then some 0x0d
  else if c = 0x74 then some 0x09
  else if c = 0x76 then some 0x0b
  else none

/-- The loop of `DecodeString`, over what is left of a token. -/
def decodeCharacters : Nat -> Pointer -> Nat -> Option (Option (List Nat))
  | 0, _, _ => none
  | fuel + 1, rest, left =>
    if left = 0 then some (some [])
    else do
      let c ← rest[0]?
      if c = 0x5c then do
        let c ← rest[1]?
        if c = 0x78 then do
          let first ← rest[2]?
          let second ← rest[3]?
          let decoded ← decodeCharacters fuel (rest.drop 4) (left - 4)
          some (decoded.map ((hexDigitToInt first * 16 + hexDigitToInt second) :: ·))
        else if c = 0x75 then do
          let first ← rest[2]?
          let second ← rest[3]?
          let third ← rest[4]?
          let fourth ← rest[5]?
          let decoded ← decodeCharacters fuel (rest.drop 6) (left - 6)
          some (decoded.map ((hexDigitToInt first * 4096 + hexDigitToInt second * 256 +
              hexDigitToInt third * 16 + hexDigitToInt fourth) :: ·))
        else
          match singleEscape c with
          | some c => do
              let decoded ← decodeCharacters fuel (rest.drop 2) (left - 2)
              some (decoded.map (c :: ·))
          | none => some none
      else do
        let decoded ← decodeCharacters fuel (rest.drop 1) (left - 1)
        some (decoded.map (c :: ·))

/-- `DecodeString`: the string of the value. -/
def decodeString (token : Token) : Option (Option Bytes) := do
  let decoded ← decodeCharacters token.length (token.begin.drop 1) (token.length - 2)
  some (decoded.map fun decoded_str => utf16ToUTF8 (wideToUTF16 wchar_t decoded_str))

end Conversion

/-- `JSONReader::JsonParseError`. -/
inductive JsonParseError where
  | noError
  | badRootElementType
  | invalidEscape
  | syntaxError
  | trailingComma
  | tooMuchNesting
  | unexpectedDataAfterRoot
  | unsupportedEncoding
  | unquotedDictionaryKey
  deriving DecidableEq

/-- `JSONReader`. -/
structure JSONReader where
  start_pos : Pointer
  json_pos : Pointer
  stack_depth : Nat
  allow_trailing_comma : Bool
  error_code : JsonParseError
  error_line : Nat
  error_col : Nat
  deriving DecidableEq

/-- `JSONReader::JSONReader`. -/
def JSONReader.create : JSONReader where
  start_pos := []
  json_pos := []
  stack_depth := 0
  allow_trailing_comma := false
  error_code := .noError
  error_line := 0
  error_col := 0

/-- The loop of `SetErrorCode`: the line and the column of a place, if there
is no terminator before it. -/
def errorPlace (pos error_pos : Pointer) (line_number column_number : Nat) :
    Option (Option (Nat × Nat)) :=
  if pos.length = error_pos.length then some (some (line_number, column_number))
  else
    match pos with
    | [] => none
    | c :: rest =>
      if c = 0 then some none
      else if c = 0x0a then errorPlace rest error_pos (line_number + 1) 1
      else errorPlace rest error_pos line_number (column_number + 1)

/-- The loop over a line comment, to behind the end of the line. -/
def lineComment : Pointer -> Option Pointer
  | [] => none
  | c :: rest =>
    if c = 0 then some (c :: rest)
    else if c = 0x0a ∨ c = 0x0d then some rest
    else lineComment rest

/-- The loop over a block comment, to behind its end. -/
def blockComment : Pointer -> Option Pointer
  | [] => none
  | c :: rest =>
    if c = 0 then some (c :: rest)
    else if c = 0x2a then
      match rest.head? with
      | none => none
      | some next => if next = 0x2f then some (rest.drop 1) else blockComment rest
    else blockComment rest

/-- `EatComment`: whether there is a comment, and the place behind it. -/
def eatComment (json_pos : Pointer) : Option (Bool × Pointer) := do
  let c ← json_pos[0]?
  if c ≠ 0x2f then some (false, json_pos)
  else do
    let next_char ← json_pos[1]?
    if next_char = 0x2f then (lineComment (json_pos.drop 2)).map fun behind => (true, behind)
    else if next_char = 0x2a then (blockComment (json_pos.drop 2)).map fun behind => (true, behind)
    else some (false, json_pos)

/-- A whitespace character. -/
def isWhitespace (c : Nat) : Bool := c == 0x20 || c == 0x0a || c == 0x0d || c == 0x09

/-- The loop of `EatWhitespaceAndComments`. -/
def eatSpace : Nat -> Pointer -> Option Pointer
  | 0, _ => none
  | fuel + 1, json_pos => do
      let c ← json_pos.head?
      if c = 0 then some json_pos
      else if isWhitespace c then eatSpace fuel (json_pos.drop 1)
      else if c = 0x2f then do
        let (isComment, behind) ← eatComment json_pos
        if isComment then eatSpace fuel behind else some behind
      else some json_pos

/-- `EatWhitespaceAndComments`. -/
def eatWhitespaceAndComments (json_pos : Pointer) : Option Pointer :=
  eatSpace json_pos.length json_pos

/-- `NextStringMatch`. -/
def nextStringMatch : Pointer -> List Nat -> Option Bool
  | _, [] => some true
  | [], _ :: _ => none
  | c :: rest, first :: str => if c = first then nextStringMatch rest str else some false

/-- The type of a token of one character. -/
def punctuation (c : Nat) : Option TokenType :=
  if c = 0x5b then some .arrayBegin
  else if c = 0x5d then some .arrayEnd
  else if c = 0x2c then some .listSeparator
  else if c = 0x7b then some .objectBegin
  else if c = 0x7d then some .objectEnd
  else if c = 0x3a then some .objectPairSeparator
  else none

/-- The literal that starts with a character, and the type of its token. -/
def literal (c : Nat) : Option (List Nat × TokenType) :=
  if c = 0x6e then some (wide "null", .nullToken)
  else if c = 0x74 then some (wide "true", .boolTrue)
  else if c = 0x66 then some (wide "false", .boolFalse)
  else none

/-- How many hexadecimal digits an escape has, if it is valid. -/
def escapeDigits (c : Nat) : Option Nat :=
  if c = 0x78 then some 2
  else if c = 0x75 then some 4
  else if (singleEscape c).isSome then some 0
  else none

namespace JSONReader

section

variable (reader : JSONReader)

/-- `SetErrorCode`. -/
def setErrorCode (error : JsonParseError) (error_pos : Pointer) : Option JSONReader := do
  let place ← errorPlace reader.start_pos error_pos 1 1
  match place with
  | none => some reader
  | some (line_number, column_number) =>
    some { reader with
      error_line := line_number
      error_col := column_number
      error_code := error }

/-- Advance the pointer over a token. -/
def advance (count : Nat) : JSONReader := { reader with json_pos := reader.json_pos.drop count }

/-- The loop of `ParseStringToken`. -/
def stringCharacters (reader : JSONReader) : Nat -> Token -> Option (Token × JSONReader)
  | 0, _ => none
  | fuel + 1, token => do
      let c ← token.nextChar
      if c = 0 then some (kInvalidToken, reader)
      else if c = 0x5c then do
        -- Make sure the escaped character is valid.
        let c ← (token.advance 1).nextChar
        match escapeDigits c with
        | some digits => do
            let (token, valid) ← readHexDigits (token.advance 1) digits
            if valid then reader.stringCharacters fuel (token.advance 1)
            else do
              let reader ← reader.setErrorCode .invalidEscape (reader.json_pos.drop token.length)
              some (kInvalidToken, reader)
        | none => do
            let reader ← reader.setErrorCode .invalidEscape
              (reader.json_pos.drop (token.advance 1).length)
            some (kInvalidToken, reader)
      else if c = 0x22 then some (token.advance 1, reader)
      else reader.stringCharacters fuel (token.advance 1)

/-- `ParseStringToken`. -/
def parseStringToken : Option (Token × JSONReader) :=
  reader.stringCharacters reader.json_pos.length ⟨.string, reader.json_pos, 1⟩

/-- The switch of `ParseToken`. -/
def tokenAt (c : Nat) : Option (Token × JSONReader) :=
  if c = 0 then some (⟨.endOfInput, [], 0⟩, reader)
  else
    match literal c, punctuation c with
    | some (str, type), _ => do
        let isMatch ← nextStringMatch reader.json_pos str
        some (if isMatch then ⟨type, reader.json_pos, str.length⟩ else kInvalidToken, reader)
    | none, some type => some (⟨type, reader.json_pos, 1⟩, reader)
    | none, none =>
      if isDigit c ∨ c = 0x2d then do
        let token ← parseNumberToken reader.json_pos
        some (token, reader)
      else if c = 0x22 then reader.parseStringToken
      else some (kInvalidToken, reader)

/-- `ParseToken`. -/
def parseToken : Option (Token × JSONReader) := do
  let json_pos ← eatWhitespaceAndComments reader.json_pos
  let c ← json_pos.head?
  { reader with json_pos := json_pos }.tokenAt c

end

/-- The loop over the items of an array or an object, up to the token that
closes it. -/
def items (item : Token -> JSONReader -> Option (Option α × JSONReader)) (close : TokenType) :
    Nat -> Token -> JSONReader -> Option (Option (List α × Token) × JSONReader)
  | 0, _, _ => none
  | fuel + 1, token, reader =>
    if token.type = close then some (some ([], token), reader)
    else do
      let (node, reader) ← item token reader
      match node with
      | none => some (none, reader)
      | some node => do
          -- After an item, we expect a comma or the end.
          let (token, reader) ← reader.parseToken
          if token.type = .listSeparator then do
            let (token, reader) ← (reader.advance token.length).parseToken
            if token.type = close then
              if !reader.allow_trailing_comma then do
                let reader ← reader.setErrorCode .trailingComma reader.json_pos
                some (none, reader)
              else some (some ([node], token), reader)
            else do
              let (nodes, reader) ← items item close fuel token reader
              some (nodes.map fun (nodes, token) => (node :: nodes, token), reader)
          else if token.type ≠ close then some (none, reader)
          else do
            let (nodes, reader) ← items item close fuel token reader
            some (nodes.map fun (nodes, token) => (node :: nodes, token), reader)

section Building

variable (wchar_t : WcharT) {Double : Type} (stringToDouble : Bytes -> Option Double)
  (isFinite : Double -> Bool)

section

variable (element : JSONReader -> Option (Option (Value Double) × JSONReader))

/-- The key and the value of an object. -/
def pair (token : Token) (reader : JSONReader) :
    Option (Option (Bytes × Value Double) × JSONReader) :=
  if token.type ≠ .string then do
    let reader ← reader.setErrorCode .unquotedDictionaryKey reader.json_pos
    some (none, reader)
  else do
    let dict_key ← decodeString wchar_t token
    match dict_key with
    | none => some (none, reader)
    | some dict_key => do
        let (token, reader) ← (reader.advance token.length).parseToken
        if token.type ≠ .objectPairSeparator then some (none, reader)
        else do
          let (_, reader) ← (reader.advance token.length).parseToken
          let (dict_value, reader) ← element reader
          some (dict_value.map fun dict_value => (dict_key, dict_value), reader)

/-- The switch of `BuildValue`: the node, and the last token of it. -/
def node (token : Token) (reader : JSONReader) :
    Option (Option (Value Double × Token) × JSONReader) :=
  match token.type with
  | .nullToken => some (some (.null, token), reader)
  | .boolTrue => some (some (.boolean true, token), reader)
  | .boolFalse => some (some (.boolean false, token), reader)
  | .number =>
    some ((decodeNumber wchar_t stringToDouble isFinite token).map
      fun value => (value, token), reader)
  | .string => do
      let decoded ← decodeString wchar_t token
      some (decoded.map fun value => (.string value, token), reader)
  | .arrayBegin => do
      let (token, reader) ← (reader.advance token.length).parseToken
      let (nodes, reader) ← items (fun _ => element) .arrayEnd reader.json_pos.length token reader
      some (nodes.map fun (nodes, token) => (.list nodes, token), reader)
  | .objectBegin => do
      let (token, reader) ← (reader.advance token.length).parseToken
      let (nodes, reader) ← items (pair wchar_t element) .objectEnd
        reader.json_pos.length token reader
      some (nodes.map fun (nodes, token) => (.dictionary (dictionaryOf nodes), token), reader)
  | _ => some (none, reader)

end

/-- `BuildValue`. No more than `kStackLimit` calls are nested. -/
def buildValue : Nat -> Bool -> JSONReader -> Option (Option (Value Double) × JSONReader)
  | 0, _, _ => none
  | fuel + 1, is_root, reader =>
    let reader := { reader with stack_depth := reader.stack_depth + 1 }
    if kStackLimit < reader.stack_depth then do
      let reader ← reader.setErrorCode .tooMuchNesting reader.json_pos
      some (none, reader)
    else do
      let (token, reader) ← reader.parseToken
      -- The root token must be an array or an object.
      if is_root ∧ token.type ≠ .objectBegin ∧ token.type ≠ .arrayBegin then do
        let reader ← reader.setErrorCode .badRootElementType reader.json_pos
        some (none, reader)
      else do
        let (built, reader) ← node wchar_t stringToDouble isFinite
          (buildValue fuel false) token reader
        match built with
        | none => some (none, reader)
        | some (value, token) =>
          some (some value, { reader.advance token.length with
            stack_depth := reader.stack_depth - 1 })

/-- `JsonToValue`. -/
def jsonToValue (reader : JSONReader) (json : Bytes) (check_root allow_trailing_comma : Bool) :
    Option (Option (Value Double) × JSONReader) :=
  -- The input must be in UTF-8.
  if !isStringUTF8 (json.takeWhile (· != 0)) then
    some (none, { reader with error_code := .unsupportedEncoding })
  else do
    let json_wide := utf8ToWide wchar_t json
    let start_pos := (if json_wide.head? = some 0xfeff then json_wide.tail else json_wide) ++ [0]
    let (root, reader) ← buildValue wchar_t stringToDouble isFinite (kStackLimit + 1) check_root
      { reader with
        start_pos := start_pos
        json_pos := start_pos
        allow_trailing_comma := allow_trailing_comma
        stack_depth := 0
        error_code := .noError }
    let (accepted, reader) ← match root with
      | none => some (false, reader)
      | some _ => do
          let (token, reader) ← reader.parseToken
          if token.type = .endOfInput then some (true, reader)
          else do
            let reader ← reader.setErrorCode .unexpectedDataAfterRoot reader.json_pos
            some (false, reader)
    if accepted then some (root, reader)
    else if reader.error_code = .noError then do
      -- Default to calling errors "syntax errors".
      let reader ← reader.setErrorCode .syntaxError reader.json_pos
      some (none, reader)
    else some (none, reader)

/-- `Read`, and `ReadAndReturnError` without the error. -/
def read (json : Bytes) (allow_trailing_comma : Bool) : Option (Option (Value Double)) := do
  let (root, _) ← jsonToValue wchar_t stringToDouble isFinite create json true allow_trailing_comma
  some root

end Building

end JSONReader

end

/-!
## The language of JSON

Which texts stand for which values. Beyond RFC 4627 there are comments
between tokens, the escapes `\x` and `\v`, control characters in strings, and
trailing commas where they are allowed.
-/

section

open Base

/-- No line ends in a text. -/
def NoNewline (content : List Nat) : Prop := ∀ c ∈ content, c ≠ 0x0a ∧ c ≠ 0x0d

/-- No block comment ends in a text. -/
def NoCommentEnd (content : List Nat) : Prop := ¬ [0x2a, 0x2f] <:+: content

/-- Whitespace and comments. -/
inductive Space : List Nat -> Prop where
  | nil : Space []
  | white (isWhite : isWhitespace c = true) (rest : Space behind) : Space (c :: behind)
  | line (inside : NoNewline content) (ends : c = 0x0a ∨ c = 0x0d) (rest : Space behind) :
      Space (0x2f :: 0x2f :: (content ++ c :: behind))
  | block (inside : NoCommentEnd content) (rest : Space behind) :
      Space (0x2f :: 0x2a :: (content ++ 0x2a :: 0x2f :: behind))

/-- A comment without an end. -/
inductive OpenComment : List Nat -> Prop where
  | line (inside : NoNewline content) : OpenComment (0x2f :: 0x2f :: content)
  | block (inside : NoCommentEnd content) : OpenComment (0x2f :: 0x2a :: content)

/-- The space at the end of a text: its last comment need not end. -/
inductive LastSpace : List Nat -> Prop where
  | closed (space : Space w) : LastSpace w
  | open_ (space : Space w) (comment : OpenComment content) : LastSpace (w ++ content)

/-- Digits, at least one. -/
structure Digits (digits : List Nat) : Prop where
  some_ : digits ≠ []
  digit : ∀ c ∈ digits, isDigit c = true

/-- The integer part of a number. -/
structure IntegerPart (digits : List Nat) : Prop extends Digits digits where
  leading : 1 < digits.length -> digits.head? ≠ some 0x30

inductive FractionPart : List Nat -> Prop where
  | nil : FractionPart []
  | fraction (digits : Digits part) : FractionPart (0x2e :: part)

/-- The sign of an exponent. -/
inductive ExponentSign : List Nat -> Prop where
  | nil : ExponentSign []
  | minus : ExponentSign [0x2d]
  | plus : ExponentSign [0x2b]

inductive ExponentPart : List Nat -> Prop where
  | nil : ExponentPart []
  | exponent (letter : e = 0x65 ∨ e = 0x45) (isSign : ExponentSign sign) (digits : Digits part) :
      ExponentPart (e :: (sign ++ part))

/-- A number is a sign, an integer part, a fraction and an exponent. -/
structure NumberText (number : List Nat) : Prop where
  parts : ∃ sign integer fraction exponent, number = sign ++ (integer ++ (fraction ++ exponent)) ∧
      (sign = [] ∨ sign = [0x2d]) ∧ IntegerPart integer ∧
      FractionPart fraction ∧ ExponentPart exponent

/-- What is between the quotation marks of a string, and its characters. -/
inductive StringText : List Nat -> List Nat -> Prop where
  | nil : StringText [] []
  | plain (notQuote : c ≠ 0x22) (notEscape : c ≠ 0x5c) (rest : StringText w decoded) :
      StringText (c :: w) (c :: decoded)
  | single (escape : singleEscape c = some d) (rest : StringText w decoded) :
      StringText (0x5c :: c :: w) (d :: decoded)
  | hex (first : isHexDigit a = true) (second : isHexDigit b = true) (rest : StringText w decoded) :
      StringText (0x5c :: 0x78 :: a :: b :: w) ((hexDigitToInt a * 16 + hexDigitToInt b) :: decoded)
  | unicode (first : isHexDigit a = true) (second : isHexDigit b = true)
      (third : isHexDigit c = true)
      (fourth : isHexDigit d = true)
      (rest : StringText w decoded) :
      StringText (0x5c :: 0x75 :: a :: b :: c :: d :: w)
        ((hexDigitToInt a * 4096 + hexDigitToInt b * 256 +
          hexDigitToInt c * 16 + hexDigitToInt d) :: decoded)

/-- One or more items with a separator between them, and one behind the last
where that is allowed. -/
inductive Separated (trailing : Bool) (item : List Nat → α → Prop) : List Nat → List α → Prop where
  | last (before : Space s) (isItem : item w a) (after : Space s') :
      Separated trailing item (s ++ (w ++ s')) [a]
  | trailing (allowed : trailing = true) (before : Space s) (isItem : item w a) (after : Space s')
      (behind : Space s'') :
      Separated trailing item (s ++ (w ++ (s' ++ 0x2c :: s''))) [a]
  | cons (before : Space s) (isItem : item w a) (after : Space s')
      (rest : Separated trailing item w' as) :
      Separated trailing item (s ++ (w ++ (s' ++ 0x2c :: w'))) (a :: as)

section Values

variable (wchar_t : WcharT) {Double : Type} (stringToDouble : Bytes -> Option Double)
  (isFinite : Double -> Bool) (trailing : Bool)

/-- The string that the characters of a wide string stand for. -/
def stringOf (decoded : List Nat) : Bytes := utf16ToUTF8 (wideToUTF16 wchar_t decoded)

/-- The value of a number: an `int` if it fits, or else a finite `double`. -/
inductive NumberValue (number : List Nat) : Value Double -> Prop where
  | integer (fits : stringToInt (wideToUTF8 wchar_t number) = some i) :
      NumberValue number (.integer i)
  | double (large : stringToInt (wideToUTF8 wchar_t number) = none)
      (reads : stringToDouble (wideToUTF8 wchar_t number) = some d)
      (finite : isFinite d = true) :
      NumberValue number (.double d)

/-- A key, a colon and a value. -/
inductive PairText (nested : List Nat -> Value Double -> Prop) :
    List Nat -> Bytes × Value Double -> Prop where
  | pair (key : StringText w decoded) (after : Space s) (behind : Space s')
      (isValue : nested w' v) :
      PairText nested (0x22 :: (w ++ 0x22 :: (s ++ 0x3a :: (s' ++ w'))))
        (stringOf wchar_t decoded, v)

/-- The text of a value, over the texts of the values in it. -/
inductive ValueText (nested : List Nat → Value Double → Prop) : List Nat → Value Double → Prop where
  | null : ValueText nested (wide "null") .null
  | true_ : ValueText nested (wide "true") (.boolean true)
  | false_ : ValueText nested (wide "false") (.boolean false)
  | number (isNumber : NumberText n) (isValue : NumberValue wchar_t stringToDouble isFinite n v) :
      ValueText nested n v
  | string (isString : StringText w decoded) :
      ValueText nested (0x22 :: (w ++ [0x22])) (.string (stringOf wchar_t decoded))
  | emptyArray (space : Space s) : ValueText nested (0x5b :: (s ++ [0x5d])) (.list [])
  | array (nodes : Separated trailing nested w vs) :
      ValueText nested (0x5b :: (w ++ [0x5d])) (.list vs)
  | emptyObject (space : Space s) : ValueText nested (0x7b :: (s ++ [0x7d])) (.dictionary [])
  | object (nodes : Separated trailing (PairText wchar_t nested) w entries) :
      ValueText nested (0x7b :: (w ++ [0x7d])) (.dictionary (dictionaryOf entries))

/-- The text of a value of no more levels than given. A value that is not in
another is one level. -/
def NestedText : Nat -> List Nat -> Value Double -> Prop
  | 0 => fun _ _ => False
  | depth + 1 => ValueText wchar_t stringToDouble isFinite trailing (NestedText depth)

/-- A value is an array or an object. -/
def IsRoot : Value Double -> Prop
  | .list _ => True
  | .dictionary _ => True
  | _ => False

/-- A text of one array or object. -/
def RootText (text : List Nat) (value : Value Double) : Prop :=
  ∃ s w s', text = s ++ (w ++ s') ∧ Space s ∧
    NestedText wchar_t stringToDouble isFinite trailing kStackLimit w value ∧
    IsRoot value ∧ LastSpace s'

end Values

end

end Chromium.Json
