import Chromium.Json.Completeness

/-!
# What is read is in the language

Whatever the text is, the reader stays in it, and the value that it reads is
that of the text it has read.
-/

namespace Chromium.Json

open List Option

section

open Base

variable {text junk t : List Nat} {reader next : JSONReader}

/-- What is read is an item behind space, or there is an error in the text. -/
def Reads (text junk : List Nat) (reader : JSONReader) (t : List Nat)
    (itemText : List Nat -> α -> Prop) (outcome : Option α × JSONReader) :
    Prop :=
  Inside text junk outcome.2 ∧ ∀ a, outcome.1 = some a ->
    Keeps reader outcome.2 ∧ ∃ s w behind, t = s ++ (w ++ behind) ∧ Space s ∧
      w ≠ [] ∧ itemText w a ∧ outcome.2.json_pos = behind ++ 0 :: junk

theorem reads_none {itemText : List Nat -> α -> Prop} (inside : Inside text junk next) :
    Reads text junk reader t itemText (none, next) :=
  ⟨inside, fun a isSome => by cases isSome⟩

/-- A token of punctuation is its character. -/
theorem TokenOf.punctuation {token : Token} {c : Nat} (isOf : TokenOf t junk token)
    (isOne : punctuation c = some token.type) :
    ∃ behind, t = c :: behind ∧ token.length = 1 := by
  have one := punctuation_cases isOne
  cases isOf with
  | invalid => simp [kInvalidToken] at one
  | endOfInput => simp at one
  | @lexeme w behind type isText isLexeme =>
    cases isLexeme with
    | literal isLiteral =>
      have other := literal_cases isLiteral
      simp only [mem_cons, Prod.mk.injEq, not_mem_nil, or_false] at one other
      rcases other with ⟨-, -, rfl⟩ | ⟨-, -, rfl⟩ | ⟨-, -, rfl⟩
      · simp at one
      · simp at one
      · simp at one
    | @punctuation d _ isOther =>
      have unique : ∀ first ∈ [(0x5b, TokenType.arrayBegin),
          (0x5d, .arrayEnd), (0x2c, .listSeparator), (0x7b, .objectBegin),
          (0x7d, .objectEnd), (0x3a, .objectPairSeparator)],
          ∀ second ∈ [(0x5b, TokenType.arrayBegin), (0x5d, .arrayEnd),
            (0x2c, .listSeparator), (0x7b, .objectBegin),
            (0x7d, .objectEnd), (0x3a, .objectPairSeparator)],
          first.2 = second.2 -> first.1 = second.1 := by decide
      have same := unique _ one _ (punctuation_cases isOther) rfl
      dsimp only at same
      subst same
      exact ⟨behind, isText, rfl⟩
    | number => simp at one
    | string => simp at one

theorem TokenOf.string {token : Token} (isOf : TokenOf t junk token)
    (isString : token.type = .string) :
    ∃ w decoded behind, t = 0x22 :: (w ++ [0x22]) ++ behind ∧ StringText w decoded ∧
      token = spanning .string (0x22 :: (w ++ [0x22])) (behind ++ 0 :: junk) := by
  cases isOf with
  | invalid => cases isString
  | endOfInput => cases isString
  | @lexeme w behind type isText isLexeme =>
    subst isString
    cases isLexeme with
    | literal isLiteral =>
      have other := literal_cases isLiteral
      simp at other
    | punctuation isOther =>
      have other := punctuation_cases isOther
      simp at other
    | string isString => exact ⟨_, _, behind, isText, isString, rfl⟩

/-- The place behind a token is in the text. -/
theorem advance_text (inside : Inside text junk reader)
    (here : reader.json_pos = w ++ behind ++ 0 :: junk)
    (isSuffix : w ++ behind <:+ text) {n : Nat} (len : n = w.length) :
    Inside text junk (reader.advance n) ∧ Keeps reader (reader.advance n) ∧
      (reader.advance n).json_pos = behind ++ 0 :: junk ∧ behind <:+ text := by
  have isBehind : behind <:+ text := (suffix_append w _).trans isSuffix
  rw [append_assoc] at here
  rw [len, advance_append here]
  exact ⟨inside.move isBehind, ⟨rfl, rfl⟩, rfl, isBehind⟩

section Items

variable {α : Type} {item : Token -> JSONReader -> Option (Option α × JSONReader)}
  {close : TokenType} {depth : Nat} {trailing : Bool}
  {itemText : List Nat -> α -> Prop}

/-- What is read as an item, from its first token on, is one. -/
def ItemSound (text junk : List Nat)
    (item : Token -> JSONReader -> Option (Option α × JSONReader)) (depth : Nat) (trailing : Bool)
    (itemText : List Nat -> α -> Prop) :
    Prop :=
  ∀ {t token} {reader : JSONReader}, Inside text junk reader -> t <:+ text ->
    reader.json_pos = t ++ 0 :: junk -> TokenOf t junk token ->
    reader.stack_depth = depth -> reader.allow_trailing_comma = trailing ->
    ∃ outcome, item token reader = some outcome ∧ Reads text junk reader t itemText outcome

/-- What the loop over the items reads, from its first token on. -/
def ItemsRead (text junk : List Nat) (reader : JSONReader) (t : List Nat) (token : Token)
    (close : TokenType) (trailing : Bool) (itemText : List Nat -> α -> Prop)
    (outcome : Option (List α × Token) × JSONReader) :
    Prop :=
  Inside text junk outcome.2 ∧ ∀ as last, outcome.1 = some (as, last) ->
    Keeps reader outcome.2 ∧ ∃ w behind, t = w ++ behind ∧
      outcome.2.json_pos = behind ++ 0 :: junk ∧ TokenOf behind junk last ∧
      last.type = close ∧ (token.type = close -> w = [] ∧ as = []) ∧
      (token.type ≠ close -> Separated trailing itemText w as)

theorem Separated.space (space : Space s) (separated : Separated trailing itemText w as) :
    Separated trailing itemText (s ++ w) as := by
  cases separated with
  | last before isItem after =>
    rw [← append_assoc]
    exact .last (space.append before) isItem after
  | trailing allowed before isItem after behind =>
    rw [← append_assoc]
    exact .trailing allowed (space.append before) isItem after behind
  | cons before isItem after rest =>
    rw [← append_assoc]
    exact .cons (space.append before) isItem after rest

/-- The loop reads items, up to the token that closes it. -/
theorem items_text (plain : 0 ∉ text) (isClose : punctuation c = some close)
    (itemSound : ItemSound text junk item depth trailing itemText) (fuel : Nat) :
    ∀ {t : List Nat} {token : Token} {reader : JSONReader},
      t.length < fuel -> Inside text junk reader -> t <:+ text ->
      reader.json_pos = t ++ 0 :: junk -> TokenOf t junk token ->
      reader.stack_depth = depth -> reader.allow_trailing_comma = trailing ->
      ∃ outcome, JSONReader.items item close fuel token reader = some outcome ∧
        ItemsRead text junk reader t token close trailing itemText outcome := by
  induction fuel with
  | zero => exact fun enough => absurd enough (Nat.not_lt_zero _)
  | succ fuel ih =>
    intro t token reader enough inside isSuffix here isOf atDepth allowed
    by_cases ends : token.type = close
    · refine ⟨_, items_of_close ends, inside, ?_⟩
      intro as last isSome
      obtain ⟨rfl, rfl⟩ := Prod.mk.inj (some.inj isSome)
      exact ⟨Keeps.refl _, [], t, rfl, here, isOf, ends, fun _ => ⟨rfl, rfl⟩,
        fun ne => absurd ends ne⟩
    obtain ⟨⟨result, afterItem⟩, isRead, insideItem, readsItem⟩ :=
      itemSound inside isSuffix here isOf atDepth allowed
    cases result with
    | none =>
      refine ⟨(none, afterItem), ?_, insideItem, fun as last isSome => by cases isSome⟩
      rw [JSONReader.items, if_neg ends, isRead]
      rfl
    | some node =>
      obtain ⟨keepsItem, s, w, behind, rfl, before, some_, isItem, hereItem⟩ := readsItem node rfl
      have isSuffixItem : behind <:+ text :=
        ((suffix_append w _).trans (suffix_append s _)).trans isSuffix
      have shorter : behind.length < fuel := by
        have := length_pos_iff.mpr some_
        simp only [length_append] at enough
        omega
      obtain ⟨s', rest, comma, afterToken, rfl, -, closed, isComma, insideToken,
        keepsToken, hereToken, commaOf⟩ :=
        parseToken_text plain insideItem isSuffixItem hereItem
      have isSuffixToken : rest <:+ text := (suffix_append s' _).trans isSuffixItem
      have keeps := keepsItem.trans keepsToken
      by_cases isSeparator : comma.type = .listSeparator
      · obtain ⟨afterComma, rfl, len⟩ :=
          commaOf.punctuation (c := 0x2c) (by rw [isSeparator]; rfl)
        have after := closed (cons_ne_nil _ _)
        obtain ⟨insideComma, keepsComma, hereComma, isSuffixComma⟩ :=
          advance_text (w := [0x2c]) insideToken hereToken isSuffixToken len
        obtain ⟨s'', rest, nextToken, afterNext, rfl, -, closedNext, isNext,
          insideNext, keepsNext, hereNext, nextOf⟩ :=
          parseToken_text plain insideComma isSuffixComma hereComma
        have isSuffixNext : rest <:+ text := (suffix_append s'' _).trans isSuffixComma
        have keepsAll := (keeps.trans keepsComma).trans keepsNext
        by_cases isEnd : nextToken.type = close
        · obtain ⟨last, rfl, -⟩ := nextOf.punctuation (c := c) (by rw [isEnd]; exact isClose)
          have behindComma := closedNext (cons_ne_nil _ _)
          by_cases isAllowed : afterNext.allow_trailing_comma = true
          · refine ⟨(some ([node], nextToken), afterNext), ?_, insideNext, ?_⟩
            · rw [JSONReader.items, if_neg ends, isRead]
              simp only [bind_eq_bind, bind_some, isComma]
              rw [if_pos isSeparator, isNext]
              simp only [bind_some]
              rw [if_pos isEnd, isAllowed]
              rfl
            · intro as final isSome
              obtain ⟨rfl, rfl⟩ := Prod.mk.inj (some.inj isSome)
              refine ⟨keepsAll, s ++ (w ++ (s' ++ 0x2c :: s'')), c :: last, ?_,
                hereNext, nextOf, isEnd, fun isClosed => absurd isClosed ends,
                fun _ => ?_⟩
              · simp
              · exact .trailing (allowed.symm.trans
                  (keepsAll.trailing.symm.trans isAllowed)) before isItem after
                  behindComma
          · obtain ⟨failed, isSet, insideFailed, -⟩ := setErrorCode_inside plain
              insideNext isSuffixNext .trailingComma
            refine ⟨(none, failed), ?_, insideFailed, fun as last isSome => by cases isSome⟩
            rw [JSONReader.items, if_neg ends, isRead]
            simp only [bind_eq_bind, bind_some, isComma]
            rw [if_pos isSeparator, isNext]
            simp only [bind_some]
            rw [if_pos isEnd, Bool.eq_false_iff.mpr isAllowed, hereNext, isSet]
            rfl
        · obtain ⟨⟨result, afterAll⟩, isAll, insideAll, readsAll⟩ :=
            ih (by
              simp only [length_append, length_cons] at shorter
              omega) insideNext isSuffixNext hereNext nextOf
              (keepsAll.depth.trans atDepth) (keepsAll.trailing.trans allowed)
          refine ⟨(result.map fun read => (node :: read.1, read.2), afterAll), ?_, insideAll, ?_⟩
          · rw [JSONReader.items, if_neg ends, isRead]
            simp only [bind_eq_bind, bind_some, isComma]
            rw [if_pos isSeparator, isNext]
            simp only [bind_some]
            rw [if_neg isEnd, isAll]
            rfl
          · intro as final isSome
            obtain ⟨⟨others, last⟩, rfl, isPair⟩ := map_eq_some_iff.mp isSome
            obtain ⟨rfl, rfl⟩ := Prod.mk.inj isPair
            obtain ⟨keepsLast, w', final, rfl, hereLast, lastOf, isLast, -,
              separated⟩ := readsAll others last rfl
            have some' : w' ++ final ≠ [] := by
              obtain ⟨final, rfl, -⟩ := lastOf.punctuation (c := c) (by rw [isLast]; exact isClose)
              simp
            refine ⟨keepsAll.trans keepsLast,
              s ++ (w ++ (s' ++ 0x2c :: (s'' ++ w'))), final, ?_, hereLast,
              lastOf, isLast, fun isClosed => absurd isClosed ends,
              fun _ => ?_⟩
            · simp
            · exact .cons before isItem after ((separated isEnd).space (closedNext some'))
      · by_cases isEnd : comma.type = close
        · obtain ⟨⟨result, afterAll⟩, isAll, insideAll, readsAll⟩ :=
            ih (by
              simp only [length_append] at shorter
              omega) insideToken isSuffixToken hereToken commaOf
              (keeps.depth.trans atDepth) (keeps.trailing.trans allowed)
          refine ⟨(result.map fun read => (node :: read.1, read.2), afterAll), ?_, insideAll, ?_⟩
          · rw [JSONReader.items, if_neg ends, isRead]
            simp only [bind_eq_bind, bind_some, isComma]
            rw [if_neg isSeparator, if_neg (not_not.mpr isEnd), isAll]
            rfl
          · intro as final isSome
            obtain ⟨⟨others, last⟩, rfl, isPair⟩ := map_eq_some_iff.mp isSome
            obtain ⟨rfl, rfl⟩ := Prod.mk.inj isPair
            obtain ⟨keepsLast, w', final, rfl, hereLast, lastOf, isLast, nothing,
              -⟩ := readsAll others last rfl
            obtain ⟨rfl, rfl⟩ := nothing isEnd
            have some' : [] ++ final ≠ [] := by
              obtain ⟨final, rfl, -⟩ := lastOf.punctuation (c := c) (by rw [isLast]; exact isClose)
              simp
            refine ⟨keeps.trans keepsLast, s ++ (w ++ s'), final, ?_, hereLast,
              lastOf, isLast, fun isClosed => absurd isClosed ends,
              fun _ => .last before isItem (closed some')⟩
            simp
        · refine ⟨(none, afterToken), ?_, insideToken, fun as last isSome => by cases isSome⟩
          rw [JSONReader.items, if_neg ends, isRead]
          simp only [bind_eq_bind, bind_some, isComma]
          rw [if_neg isSeparator, if_pos isEnd]

end Items

end

/-!
## The values that are read

A value that is read is that of the text it is read from, and it has no more
levels than are left.
-/

section

open Base

variable {text junk : List Nat} {wchar_t : WcharT} {Double : Type}
  {stringToDouble : Bytes -> Option Double} {isFinite : Double -> Bool}
  {trailing : Bool} {depth : Nat} {nested : List Nat -> Value Double -> Prop}
  {element : JSONReader -> Option (Option (Value Double) × JSONReader)}

/-- What is read as a value in a value is one. -/
def ElementSound (text junk : List Nat)
    (element : JSONReader -> Option (Option (Value Double) × JSONReader))
    (depth : Nat) (trailing : Bool) (nested : List Nat -> Value Double -> Prop) :
    Prop :=
  ∀ {t} {reader : JSONReader}, Inside text junk reader -> t <:+ text ->
    reader.json_pos = t ++ 0 :: junk -> reader.stack_depth = depth ->
    reader.allow_trailing_comma = trailing ->
    ∃ outcome, element reader = some outcome ∧ Reads text junk reader t nested outcome

theorem ElementSound.pairs (plain : 0 ∉ text)
    (elementSound : ElementSound text junk element depth trailing nested) :
    ItemSound text junk (JSONReader.pair wchar_t element) depth trailing
      (PairText wchar_t nested) := by
  intro t token reader inside isSuffix here isOf atDepth allowed
  by_cases isString : token.type = .string
  · obtain ⟨w, decoded, behind, rfl, key, rfl⟩ := isOf.string isString
    obtain ⟨insideKey, keepsKey, hereKey, isSuffixKey⟩ :=
      advance_text inside here isSuffix (rfl : (0x22 :: (w ++ [0x22])).length = _)
    obtain ⟨s, rest, colon, afterColon, rfl, -, closed, isColon, insideColon,
      keepsColon, hereColon, colonOf⟩ :=
      parseToken_text plain insideKey isSuffixKey hereKey
    have isSuffixColon : rest <:+ text := (suffix_append s _).trans isSuffixKey
    by_cases isSeparator : colon.type = .objectPairSeparator
    · obtain ⟨behindColon, rfl, len⟩ :=
        colonOf.punctuation (c := 0x3a) (by rw [isSeparator]; rfl)
      obtain ⟨insideValue, keepsValue, hereValue, isSuffixValue⟩ :=
        advance_text (w := [0x3a]) insideColon hereColon isSuffixColon len
      obtain ⟨s', rest, ahead, afterAhead, rfl, -, closedValue, isAhead,
        insideAhead, keepsAhead, hereAhead, -⟩ :=
        parseToken_text plain insideValue isSuffixValue hereValue
      have isSuffixAhead : rest <:+ text := (suffix_append s' _).trans isSuffixValue
      have keeps := ((keepsKey.trans keepsColon).trans keepsValue).trans keepsAhead
      obtain ⟨⟨result, last⟩, isRead, insideLast, readsValue⟩ :=
        elementSound insideAhead isSuffixAhead hereAhead
          (keeps.depth.trans atDepth) (keeps.trailing.trans allowed)
      refine ⟨(result.map fun val => (stringOf wchar_t decoded, val), last), ?_, insideLast, ?_⟩
      · rw [JSONReader.pair, if_neg (not_not.mpr type_spanning), decodeString_spanning key]
        simp only [bind_eq_bind, bind_some]
        rw [length_spanning, isColon]
        simp only [bind_some]
        rw [if_neg (not_not.mpr isSeparator), isAhead]
        simp only [bind_some]
        rw [isRead]
        rfl
      · intro a isSome
        obtain ⟨val, rfl, rfl⟩ := map_eq_some_iff.mp isSome
        obtain ⟨keepsLast, s'', w', behind, rfl, space, some_, isValue, hereLast⟩ :=
          readsValue val rfl
        have after := closed (cons_ne_nil _ _)
        have beforeValue := (closedValue (by
          intro isNil
          rw [append_eq_nil_iff, append_eq_nil_iff] at isNil
          exact some_ isNil.2.1)).append space
        refine ⟨keeps.trans keepsLast, [], _, behind, ?_, .nil,
          cons_ne_nil _ _, .pair key after beforeValue isValue, hereLast⟩
        simp
    · refine ⟨(none, afterColon), ?_, reads_none insideColon⟩
      rw [JSONReader.pair, if_neg (not_not.mpr type_spanning), decodeString_spanning key]
      simp only [bind_eq_bind, bind_some]
      rw [length_spanning, isColon]
      simp only [bind_some]
      rw [if_pos isSeparator]
  · obtain ⟨failed, isSet, insideFailed, -⟩ := setErrorCode_inside plain inside
      isSuffix .unquotedDictionaryKey
    refine ⟨(none, failed), ?_, reads_none insideFailed⟩
    rw [JSONReader.pair, if_pos isString, here, isSet]
    rfl

theorem ElementSound.items (elementSound : ElementSound text junk element depth trailing nested) :
    ItemSound text junk (fun _ => element) depth trailing nested :=
  fun inside isSuffix here _ atDepth allowed => elementSound inside isSuffix here atDepth allowed

/-- What the switch of `BuildValue` reads, from the token on. -/
def NodeRead (text junk : List Nat) (reader : JSONReader) (t : List Nat) (token : Token)
    (valueText : List Nat -> Value Double -> Prop)
    (outcome : Option (Value Double × Token) × JSONReader) :
    Prop :=
  Inside text junk outcome.2 ∧ ∀ v last, outcome.1 = some (v, last) ->
    Keeps reader outcome.2 ∧ ∃ w l behind, t = w ++ behind ∧ w ≠ [] ∧
      valueText w v ∧ l ++ behind <:+ text ∧
      outcome.2.json_pos = l ++ behind ++ 0 :: junk ∧ last.length = l.length ∧
      (token.type = .objectBegin ∨ token.type = .arrayBegin -> IsRoot v)

theorem nodeRead_none {reader next : JSONReader}
    {valueText : List Nat -> Value Double -> Prop} (inside : Inside text junk next) :
    NodeRead text junk reader t token valueText (none, next) :=
  ⟨inside, fun v last isSome => by cases isSome⟩

/-- An array or an object is read, from what is behind its first character. -/
theorem container_text {α : Type} {item : Token -> JSONReader -> Option (Option α × JSONReader)}
    {itemText : List Nat -> α -> Prop} (plain : 0 ∉ text) (isClose : punctuation c = some close)
    (itemSound : ItemSound text junk item depth trailing itemText)
    (inside : Inside text junk reader)
    (isSuffix : t <:+ text) (here : reader.json_pos = t ++ 0 :: junk)
    (atDepth : reader.stack_depth = depth) (allowed : reader.allow_trailing_comma = trailing) :
    ∃ token next outcome, reader.parseToken = some (token, next) ∧
      JSONReader.items item close next.json_pos.length token next = some outcome ∧
      Inside text junk outcome.2 ∧ ∀ as last, outcome.1 = some (as, last) ->
        Keeps reader outcome.2 ∧ ∃ w behind, t = w ++ c :: behind ∧
          outcome.2.json_pos = c :: behind ++ 0 :: junk ∧ c :: behind <:+ text ∧ last.length = 1 ∧
          (Separated trailing itemText w as ∨ Space w ∧ as = []) := by
  obtain ⟨s, rest, token, next, rfl, -, closed, isToken, insideNext, keepsNext,
    hereNext, isOf⟩ := parseToken_text plain inside isSuffix here
  have isSuffixNext : rest <:+ text := (suffix_append s _).trans isSuffix
  have enough : rest.length < next.json_pos.length := by
    rw [hereNext, length_append, length_cons]
    omega
  obtain ⟨outcome, isRead, insideLast, reads⟩ := items_text plain isClose itemSound
    _ enough insideNext isSuffixNext hereNext isOf (keepsNext.depth.trans atDepth)
    (keepsNext.trailing.trans allowed)
  refine ⟨token, next, outcome, isToken, isRead, insideLast, ?_⟩
  intro as last isSome
  obtain ⟨keepsLast, w, behind, rfl, hereLast, lastOf, isLast, nothing,
    separated⟩ := reads as last isSome
  obtain ⟨behind, rfl, len⟩ := lastOf.punctuation (c := c) (by rw [isLast]; exact isClose)
  have space := closed (by simp)
  refine ⟨keepsNext.trans keepsLast, s ++ w, behind, ?_, hereLast,
    (suffix_append w _).trans isSuffixNext, len, ?_⟩
  · simp
  · by_cases isEmpty : token.type = close
    · obtain ⟨rfl, rfl⟩ := nothing isEmpty
      rw [append_nil]
      exact .inr ⟨space, rfl⟩
    · exact .inl ((separated isEmpty).space space)

/-- The switch of `BuildValue` reads a value, or finds an error. -/
theorem node_text (plain : 0 ∉ text)
    (elementSound : ElementSound text junk element depth trailing nested)
    {t : List Nat} {token : Token} {reader : JSONReader}
    (inside : Inside text junk reader) (isSuffix : t <:+ text)
    (here : reader.json_pos = t ++ 0 :: junk) (isOf : TokenOf t junk token)
    (atDepth : reader.stack_depth = depth) (allowed : reader.allow_trailing_comma = trailing) :
    ∃ outcome, JSONReader.node wchar_t stringToDouble isFinite element token reader = some outcome ∧
      NodeRead text junk reader t token
        (ValueText wchar_t stringToDouble isFinite trailing nested) outcome := by
  -- The tokens that are a value.
  have single : ∀ {type w behind}, t = w ++ behind -> w ≠ [] ->
      ∀ v, ValueText wchar_t stringToDouble isFinite trailing nested w v ->
      type ≠ .objectBegin ∧ type ≠ .arrayBegin ->
      NodeRead text junk reader t (spanning type w (behind ++ 0 :: junk))
        (ValueText wchar_t stringToDouble isFinite trailing nested)
        (some (v, spanning type w (behind ++ 0 :: junk)), reader) := by
    rintro type w behind rfl some_ v isValue ⟨notObject, notArray⟩
    refine ⟨inside, fun v' last isSome => ?_⟩
    obtain ⟨rfl, rfl⟩ := Prod.mk.inj (some.inj isSome)
    refine ⟨Keeps.refl _, w, w, behind, rfl, some_, isValue, isSuffix, here, rfl, fun isRoot => ?_⟩
    rcases isRoot with isObject | isArray
    · exact absurd isObject notObject
    · exact absurd isArray notArray
  cases isOf with
  | invalid => exact ⟨_, rfl, nodeRead_none inside⟩
  | endOfInput => exact ⟨_, rfl, nodeRead_none inside⟩
  | @lexeme w behind type isText isLexeme =>
    have some_ : w ≠ [] := by
      obtain ⟨c, rest, rfl, -⟩ := isLexeme.head
      exact cons_ne_nil _ _
    cases isLexeme with
    | literal isLiteral =>
      have other := literal_cases isLiteral
      simp only [mem_cons, Prod.mk.injEq, not_mem_nil, or_false] at other
      rcases other with ⟨-, rfl, rfl⟩ | ⟨-, rfl, rfl⟩ | ⟨-, rfl, rfl⟩
      · exact ⟨_, rfl, single isText some_ _ .null ⟨by decide, by decide⟩⟩
      · exact ⟨_, rfl, single isText some_ _ .true_ ⟨by decide, by decide⟩⟩
      · exact ⟨_, rfl, single isText some_ _ .false_ ⟨by decide, by decide⟩⟩
    | number isNumber =>
      cases isDecoded : decodeNumber wchar_t stringToDouble isFinite
          (spanning .number w (behind ++ 0 :: junk)) with
      | none =>
        refine ⟨(none, reader), ?_, nodeRead_none inside⟩
        rw [JSONReader.node, type_spanning]
        rw [isDecoded]
        rfl
      | some v =>
        refine ⟨_, ?_, single isText some_ v (.number isNumber ?_) ⟨by decide, by decide⟩⟩
        · rw [JSONReader.node, type_spanning]
          rw [isDecoded]
          rfl
        · rw [decodeNumber, spanning] at isDecoded
          rw [take_left] at isDecoded
          cases fits : stringToInt (wideToUTF8 wchar_t w) with
          | some i =>
            rw [fits] at isDecoded
            obtain rfl := some.inj isDecoded
            exact .integer fits
          | none =>
            rw [fits] at isDecoded
            obtain ⟨d, isFiltered, rfl⟩ := map_eq_some_iff.mp isDecoded
            obtain ⟨reads, finite⟩ := filter_eq_some_iff.mp isFiltered
            exact .double fits reads finite
    | @string w decoded isString =>
      refine ⟨_, ?_, single isText some_ (.string (stringOf wchar_t decoded))
        (.string isString) ⟨by decide, by decide⟩⟩
      rw [JSONReader.node, type_spanning]
      rw [decodeString_spanning isString]
      rfl
    | @punctuation c _ isOne =>
      subst isText
      obtain ⟨insideBehind, keepsBehind, hereBehind, isSuffixBehind⟩ :=
        advance_text (w := [c]) inside here isSuffix rfl
      have one := punctuation_cases isOne
      simp only [mem_cons, Prod.mk.injEq, not_mem_nil, or_false] at one
      rcases one with ⟨rfl, rfl⟩ | ⟨rfl, rfl⟩ | ⟨rfl, rfl⟩ | ⟨rfl, rfl⟩ | ⟨rfl, rfl⟩ | ⟨rfl, rfl⟩
      · obtain ⟨token, next, ⟨result, last⟩, isToken, isRead, insideLast,
          reads⟩ := container_text plain (c := 0x5d) rfl elementSound.items
            insideBehind isSuffixBehind hereBehind
            (keepsBehind.depth.trans atDepth)
            (keepsBehind.trailing.trans allowed)
        refine ⟨(result.map fun read => (.list read.1, read.2), last), ?_, insideLast, ?_⟩
        · rw [JSONReader.node, type_spanning]
          rw [length_spanning]
          change (reader.advance 1).parseToken = _ at isToken
          rw [length_singleton, isToken]
          simp only [bind_eq_bind, bind_some]
          rw [isRead]
          rfl
        · intro v final isSome
          obtain ⟨⟨nodes, token⟩, rfl, isPair⟩ := map_eq_some_iff.mp isSome
          obtain ⟨rfl, rfl⟩ := Prod.mk.inj isPair
          obtain ⟨keeps, w, rest, rfl, hereLast, isSuffixLast, len,
            isItems⟩ := reads nodes token rfl
          refine ⟨keepsBehind.trans keeps, 0x5b :: (w ++ [0x5d]), [0x5d], rest,
            by simp, cons_ne_nil _ _, ?_, isSuffixLast, hereLast, len,
            fun _ => trivial⟩
          rcases isItems with separated | ⟨space, rfl⟩
          · exact .array separated
          · exact .emptyArray space
      · exact ⟨_, rfl, nodeRead_none inside⟩
      · exact ⟨_, rfl, nodeRead_none inside⟩
      · obtain ⟨token, next, ⟨result, last⟩, isToken, isRead, insideLast,
          reads⟩ := container_text plain (c := 0x7d) rfl
            (@ElementSound.pairs _ _ wchar_t _ _ _ _ _ plain elementSound) insideBehind
            isSuffixBehind hereBehind (keepsBehind.depth.trans atDepth)
            (keepsBehind.trailing.trans allowed)
        refine ⟨(result.map fun read =>
          (.dictionary (dictionaryOf read.1), read.2), last), ?_, insideLast, ?_⟩
        · rw [JSONReader.node, type_spanning]
          rw [length_spanning]
          change (reader.advance 1).parseToken = _ at isToken
          rw [length_singleton, isToken]
          simp only [bind_eq_bind, bind_some]
          rw [isRead]
          rfl
        · intro v final isSome
          obtain ⟨⟨nodes, token⟩, rfl, isPair⟩ := map_eq_some_iff.mp isSome
          obtain ⟨rfl, rfl⟩ := Prod.mk.inj isPair
          obtain ⟨keeps, w, rest, rfl, hereLast, isSuffixLast, len,
            isItems⟩ := reads nodes token rfl
          refine ⟨keepsBehind.trans keeps, 0x7b :: (w ++ [0x7d]), [0x7d], rest,
            by simp, cons_ne_nil _ _, ?_, isSuffixLast, hereLast, len,
            fun _ => trivial⟩
          rcases isItems with separated | ⟨space, rfl⟩
          · exact .object separated
          · exact .emptyObject space
      · exact ⟨_, rfl, nodeRead_none inside⟩
      · exact ⟨_, rfl, nodeRead_none inside⟩

/-- A value is read, of no more levels than are left, or an error is found. -/
theorem buildValue_text (plain : 0 ∉ text) (levels : Nat) :
    ∀ (is_root : Bool) {t : List Nat} {reader : JSONReader}, Inside text junk reader → t <:+ text →
      reader.json_pos = t ++ 0 :: junk -> levels + reader.stack_depth = kStackLimit ->
      reader.allow_trailing_comma = trailing ->
      ∃ outcome, JSONReader.buildValue wchar_t stringToDouble isFinite
          (levels + 1) is_root reader = some outcome ∧ Reads text junk reader t (fun w v =>
          NestedText wchar_t stringToDouble isFinite trailing levels w v ∧
            (is_root = true -> IsRoot v)) outcome := by
  induction levels with
  | zero =>
    intro is_root t reader inside isSuffix here depth allowed
    obtain ⟨failed, isSet, insideFailed, -⟩ := @setErrorCode_inside text junk
      { reader with stack_depth := reader.stack_depth + 1 } plain
      ⟨inside.start, inside.here, inside.marked⟩ _ isSuffix .tooMuchNesting
    refine ⟨(none, failed), ?_, reads_none insideFailed⟩
    rw [JSONReader.buildValue]
    dsimp only
    rw [if_pos (by omega), here]
    rw [here] at isSet
    rw [isSet]
    rfl
  | succ levels ih =>
    intro is_root t reader inside isSuffix here depth allowed
    have elementSound : ElementSound text junk
        (JSONReader.buildValue wchar_t stringToDouble isFinite (levels + 1)
          false) (reader.stack_depth + 1) trailing
        (NestedText wchar_t stringToDouble isFinite trailing levels) := by
      intro t next inside isSuffix here atDepth allowed
      obtain ⟨outcome, isRead, insideLast, reads⟩ := ih false
        inside isSuffix here (by rw [atDepth]; omega) allowed
      refine ⟨outcome, isRead, insideLast, fun v isSome => ?_⟩
      obtain ⟨keeps, s, w, behind, isText, space, some_, isValue, hereLast⟩ := reads v isSome
      exact ⟨keeps, s, w, behind, isText, space, some_, isValue.1, hereLast⟩
    have shallow : ¬ kStackLimit < reader.stack_depth + 1 := by omega
    obtain ⟨s, rest, token, next, rfl, -, closed, isToken, insideNext, keepsNext,
      hereNext, isOf⟩ := @parseToken_text text junk
        { reader with stack_depth := reader.stack_depth + 1 } plain
        ⟨inside.start, inside.here, inside.marked⟩ _ isSuffix here
    have isSuffixNext : rest <:+ text := (suffix_append s _).trans isSuffix
    rw [JSONReader.buildValue]
    rw [if_neg shallow, isToken]
    simp only [bind_eq_bind, bind_some]
    by_cases root : is_root = true ∧ token.type ≠ .objectBegin ∧ token.type ≠ .arrayBegin
    · obtain ⟨failed, isSet, insideFailed, -⟩ := setErrorCode_inside plain
        insideNext isSuffixNext .badRootElementType
      refine ⟨(none, failed), ?_, reads_none insideFailed⟩
      rw [if_pos root, hereNext, isSet]
      rfl
    · obtain ⟨⟨result, last⟩, isNode, insideLast, reads⟩ :=
        @node_text text junk wchar_t Double stringToDouble isFinite trailing
          (reader.stack_depth + 1) _ _ plain elementSound _ _ _ insideNext isSuffixNext
          hereNext isOf keepsNext.depth (keepsNext.trailing.trans allowed)
      rw [if_neg root, isNode]
      cases result with
      | none => exact ⟨(none, last), rfl, reads_none insideLast⟩
      | some built =>
        obtain ⟨v, final⟩ := built
        obtain ⟨keepsLast, w, l, behind, rfl, some_, isValue, isSuffixLast,
          hereLast, len, isRoot⟩ := reads v final rfl
        obtain ⟨insideFinal, keepsFinal, hereFinal, -⟩ :=
          advance_text insideLast hereLast isSuffixLast len
        refine ⟨_, rfl, ⟨insideFinal.start, insideFinal.here, insideFinal.marked⟩, ?_⟩
        intro v' isSome
        obtain rfl := some.inj isSome
        have keeps := (keepsNext.trans keepsLast).trans keepsFinal
        have depthFinal : last.stack_depth - 1 = reader.stack_depth := by
          rw [keepsLast.depth, keepsNext.depth, Nat.add_sub_cancel]
        refine ⟨⟨depthFinal, keeps.trailing⟩, s, w, behind, rfl,
          closed (by simp [some_]), some_, ⟨isValue, fun isTrue => ?_⟩,
          hereFinal⟩
        apply isRoot
        by_contra neither
        rw [not_or] at neither
        exact root ⟨isTrue, neither⟩

end

end Chromium.Json
