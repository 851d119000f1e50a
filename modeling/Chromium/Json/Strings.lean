import Chromium.Json.JSONReader

/-!
# Number tokens

A number token is the longest number at the front of a text.
-/

namespace Chromium.Json

open List Option

section

open Base

/-- A token of some characters, with what is behind it. -/
def spanning (type : TokenType) (w : List Nat) (p : Pointer) : Token := ⟨type, w ++ p, w.length⟩

variable {type : TokenType} {w part junk text : List Nat} {p : Pointer}

@[simp] theorem nextChar_spanning : (spanning type w p).nextChar = p.head? := by
  rw [Token.nextChar, spanning]
  rw [List.getElem?_append_right (Nat.le_refl _), Nat.sub_self, List.head?_eq_getElem?]

@[simp] theorem type_spanning : (spanning type w p).type = type := rfl

@[simp] theorem length_spanning : (spanning type w p).length = w.length := rfl

theorem advance_spanning (part : List Nat) :
    (spanning type w (part ++ p)).advance part.length = spanning type (w ++ part) p := by
  rw [Token.advance, spanning, spanning, append_assoc, length_append]

theorem advance_spanning_cons (c : Nat) :
    (spanning type w (c :: p)).advance 1 = spanning type (w ++ [c]) p :=
  advance_spanning [c]

theorem drop_spanning : (spanning type w p).begin.drop (spanning type w p).length = p := by
  rw [spanning]
  rw [drop_left]

theorem countDigits_append (digits : ∀ d ∈ part, isDigit d = true) (ends : isDigit c = false) :
    countDigits (part ++ c :: p) = some part.length := by
  induction part with
  | nil => rw [nil_append, countDigits, ends, if_neg Bool.false_ne_true]; rfl
  | cons d part ih =>
    rw [cons_append, countDigits, if_pos (digits d mem_cons_self), ih (forall_mem_cons.mp digits).2]
    rfl

/-- The digits at the front are read. They are valid if there are some, and
no zero in front that is not allowed. -/
theorem readInt_spanning (digits : ∀ d ∈ part, isDigit d = true) (ends : isDigit c = false)
    (leading : Bool) :
    ∃ ok, readInt (spanning type w (part ++ c :: p)) leading =
        some (spanning type (w ++ part) (c :: p), ok) ∧ (ok = true ↔ part ≠ [] ∧
        (leading = false -> 1 < part.length -> part.head? ≠ some 0x30)) := by
  have counts : countDigits ((spanning type w (part ++ c :: p)).begin.drop
      (spanning type w (part ++ c :: p)).length) = some part.length := by
    rw [drop_spanning]
    exact countDigits_append digits ends
  cases part with
  | nil =>
    refine ⟨false, ?_, iff_of_false Bool.false_ne_true fun both => both.1 rfl⟩
    rw [readInt, nextChar_spanning, counts]
    simp only [nil_append, List.head?_cons, bind_eq_bind,
      bind_some, length_nil, if_true, append_nil]
    rfl
  | cons first others =>
    refine ⟨!decide ((!leading) = true ∧ 1 < (first :: others).length ∧ first = 0x30), ?_, ?_⟩
    · rw [readInt, nextChar_spanning, counts]
      simp only [cons_append, List.head?_cons, bind_eq_bind, bind_some]
      rw [if_neg (show ¬ (first :: others).length = 0 from
        Nat.succ_ne_zero _), ← cons_append, advance_spanning]
      by_cases zero : (!leading) = true ∧ 1 < (first :: others).length ∧ first = 0x30
      · rw [if_pos zero, decide_eq_true zero]
        rfl
      · rw [if_neg zero, decide_eq_false zero]
        rfl
    · rw [Bool.not_eq_true', decide_eq_false_iff_not, Bool.not_eq_true', List.head?_cons]
      constructor
      · exact fun allowed => ⟨cons_ne_nil _ _, fun isStrict several zero =>
          allowed ⟨isStrict, several, some.inj zero⟩⟩
      · rintro ⟨-, strict⟩ ⟨isStrict, several, rfl⟩
        exact strict isStrict several rfl

/-- The digits at the front of a text end, at the latest with the text. -/
theorem exists_digits (text : List Nat) :
    ∃ part behind c p, text = part ++ behind ∧ (∀ d ∈ part, isDigit d = true) ∧
      behind ++ 0 :: junk = c :: p ∧ isDigit c = false := by
  induction text with
  | nil => exact ⟨[], [], 0, junk, rfl, forall_mem_nil _, rfl, rfl⟩
  | cons first text ih =>
    by_cases digit : isDigit first = true
    · obtain ⟨part, behind, c, p, rfl, digits, isBehind, ends⟩ := ih
      refine ⟨first :: part, behind, c, p, rfl, fun d mem => ?_, isBehind, ends⟩
      rcases mem_cons.mp mem with rfl | inPart
      · exact digit
      · exact digits d inPart
    · exact ⟨[], first :: text, first, text ++ 0 :: junk, rfl, forall_mem_nil _, rfl,
        Bool.eq_false_iff.mpr digit⟩

theorem readInt_text (w text junk : List Nat) (leading : Bool) :
    ∃ ok part behind, text = part ++ behind ∧
      readInt (spanning type w (text ++ 0 :: junk)) leading =
        some (spanning type (w ++ part) (behind ++ 0 :: junk), ok) ∧
      (ok = true -> Digits part ∧
        (leading = false -> 1 < part.length -> part.head? ≠ some 0x30)) := by
  obtain ⟨part, behind, c, p, rfl, digits, isBehind, ends⟩ := exists_digits text
  obtain ⟨ok, reads, isValid⟩ := @readInt_spanning type w part p c digits ends leading
  refine ⟨ok, part, behind, rfl, ?_, fun isTrue => ?_⟩
  · rw [append_assoc, isBehind]
    exact reads
  · exact ⟨⟨(isValid.mp isTrue).1, digits⟩, (isValid.mp isTrue).2⟩

/-- Digits are read if what is behind them is none. -/
theorem readInt_digits (isPart : Digits part) {leading : Bool}
    (zero : leading = false -> 1 < part.length -> part.head? ≠ some 0x30) {c : Nat}
    (ends : isDigit c = false) :
    readInt (spanning type w (part ++ c :: p)) leading =
      some (spanning type (w ++ part) (c :: p), true) := by
  obtain ⟨ok, reads, isValid⟩ := @readInt_spanning type w part p c isPart.digit ends leading
  rw [reads, isValid.mpr ⟨isPart.some_, zero⟩]

theorem readFraction_text (w text junk : List Nat) : ∃ ok part behind, text = part ++ behind ∧
      readFraction (spanning type w (text ++ 0 :: junk)) =
        some (spanning type (w ++ part) (behind ++ 0 :: junk), ok) ∧
      (ok = true -> FractionPart part) := by
  have absent : ∀ c p, text ++ 0 :: junk = c :: p -> c ≠ 0x2e ->
      ∃ ok part behind, text = part ++ behind ∧
        readFraction (spanning type w (text ++ 0 :: junk)) =
          some (spanning type (w ++ part) (behind ++ 0 :: junk), ok) ∧
        (ok = true -> FractionPart part) := by
    intro c p isText notPoint
    refine ⟨true, [], text, rfl, ?_, fun _ => .nil⟩
    rw [readFraction, nextChar_spanning, isText, append_nil]
    simp [notPoint]
  cases text with
  | nil => exact absent 0 junk rfl (by decide)
  | cons c text =>
    by_cases point : c = 0x2e
    · subst point
      obtain ⟨ok, part, behind, rfl, reads, isValid⟩ :=
        @readInt_text type (w ++ [0x2e]) text junk true
      refine ⟨ok, 0x2e :: part, behind, rfl, ?_, fun isTrue => .fraction (isValid isTrue).1⟩
      rw [readFraction, nextChar_spanning, cons_append, advance_spanning_cons]
      rw [append_assoc w] at reads
      exact reads
    · exact absent c (text ++ 0 :: junk) rfl point

/-- What is behind a number does not continue it. -/
structure NumberEnds (c : Nat) : Prop where
  digit : isDigit c = false
  point : c ≠ 0x2e
  exponent : c ≠ 0x65 ∧ c ≠ 0x45

theorem readFraction_part (isPart : FractionPart part) (digit : isDigit c = false)
    (point : c ≠ 0x2e) :
    readFraction (spanning type w (part ++ c :: p)) =
      some (spanning type (w ++ part) (c :: p), true) := by
  cases isPart with
  | nil =>
    rw [nil_append, append_nil, readFraction, nextChar_spanning]
    simp [point]
  | fraction digits =>
    rw [cons_append, readFraction, nextChar_spanning, advance_spanning_cons]
    have reads := @readInt_digits type (w ++ [0x2e]) _ p digits true
      (fun isStrict => absurd isStrict (by decide)) c digit
    rw [append_assoc w] at reads
    exact reads

theorem readExponent_sign (letter : e = 0x65 ∨ e = 0x45) (isSign : ExponentSign sign)
    (unsigned : sign = [] -> ∀ c, p.head? = some c -> c ≠ 0x2d ∧ c ≠ 0x2b) (some_ : p ≠ []) :
    readExponent (spanning type w (e :: (sign ++ p))) =
      readInt (spanning type (w ++ e :: sign) p) true := by
  have isNext : ∀ q, (spanning type w (e :: q)).nextChar = some e := by
    intro q
    rw [nextChar_spanning]
    rfl
  rw [readExponent, isNext]
  simp only [bind_eq_bind, bind_some, if_pos letter]
  cases isSign with
  | nil =>
    rcases isText : p with _ | ⟨c, q⟩
    · exact absurd isText some_
    have notSign := unsigned rfl c (by rw [isText]; rfl)
    rw [nil_append, advance_spanning_cons, nextChar_spanning]
    simp [notSign.1, notSign.2]
  | minus =>
    rw [singleton_append, advance_spanning_cons, nextChar_spanning]
    have two := @advance_spanning type w p [e, 0x2d]
    exact congrArg (readInt · true) two
  | plus =>
    rw [singleton_append, advance_spanning_cons, nextChar_spanning]
    have two := @advance_spanning type w p [e, 0x2b]
    exact congrArg (readInt · true) two

theorem readExponent_text (w text junk : List Nat) : ∃ ok part behind, text = part ++ behind ∧
      readExponent (spanning type w (text ++ 0 :: junk)) =
        some (spanning type (w ++ part) (behind ++ 0 :: junk), ok) ∧
      (ok = true -> ExponentPart part) := by
  have absent : ∀ c p, text ++ 0 :: junk = c :: p -> ¬ (c = 0x65 ∨ c = 0x45) ->
      ∃ ok part behind, text = part ++ behind ∧
        readExponent (spanning type w (text ++ 0 :: junk)) =
          some (spanning type (w ++ part) (behind ++ 0 :: junk), ok) ∧
        (ok = true -> ExponentPart part) := by
    intro c p isText notLetter
    refine ⟨true, [], text, rfl, ?_, fun _ => .nil⟩
    rw [readExponent, nextChar_spanning, isText, append_nil, List.head?_cons]
    simp only [bind_eq_bind, bind_some, if_neg notLetter]
  have present : ∀ e sign rest, text = e :: (sign ++ rest) ->
      e = 0x65 ∨ e = 0x45 -> ExponentSign sign ->
      (sign = [] -> ∀ c, (rest ++ 0 :: junk).head? = some c -> c ≠ 0x2d ∧ c ≠ 0x2b) ->
      ∃ ok part behind, text = part ++ behind ∧
        readExponent (spanning type w (text ++ 0 :: junk)) =
          some (spanning type (w ++ part) (behind ++ 0 :: junk), ok) ∧
        (ok = true -> ExponentPart part) := by
    intro e sign rest isText letter isSign unsigned
    obtain ⟨ok, part, behind, rfl, reads, isValid⟩ :=
      @readInt_text type (w ++ e :: sign) rest junk true
    refine ⟨ok, e :: (sign ++ part), behind, ?_, ?_,
      fun isTrue => .exponent letter isSign (isValid isTrue).1⟩
    · rw [isText]
      simp
    · rw [isText, cons_append, append_assoc,
        readExponent_sign letter isSign unsigned (by simp), reads,
        append_assoc w]
      rfl
  cases text with
  | nil => exact absent 0 junk rfl (by decide)
  | cons e text =>
    by_cases letter : e = 0x65 ∨ e = 0x45
    · cases text with
      | nil =>
        refine present e [] [] rfl letter .nil fun _ c isZero => ?_
        obtain rfl := some.inj isZero
        decide
      | cons c text =>
        by_cases minus : c = 0x2d
        · subst minus
          exact present e [0x2d] text rfl letter .minus fun isNil => absurd isNil (cons_ne_nil _ _)
        by_cases plus : c = 0x2b
        · subst plus
          exact present e [0x2b] text rfl letter .plus fun isNil => absurd isNil (cons_ne_nil _ _)
        · refine present e [] (c :: text) rfl letter .nil fun _ c' isNext => ?_
          obtain rfl := some.inj isNext
          exact ⟨minus, plus⟩
    · exact absent e (text ++ 0 :: junk) rfl letter

theorem readExponent_part (isPart : ExponentPart part) (ends : NumberEnds c) :
    readExponent (spanning type w (part ++ c :: p)) =
      some (spanning type (w ++ part) (c :: p), true) := by
  cases isPart with
  | nil =>
    rw [nil_append, append_nil, readExponent, nextChar_spanning, List.head?_cons]
    simp only [bind_eq_bind, bind_some, if_neg (not_or.mpr ends.exponent)]
  | @exponent e sign part letter isSign digits =>
    rcases isText : part with _ | ⟨first, others⟩
    · exact absurd isText digits.some_
    have unsigned : ∀ d, ((first :: others) ++ c :: p).head? = some d -> d ≠ 0x2d ∧ d ≠ 0x2b := by
      intro d isFirst
      obtain rfl := some.inj isFirst
      have digit := digits.digit first (by rw [isText]; exact mem_cons_self)
      constructor
      · rintro rfl
        cases digit
      · rintro rfl
        cases digit
    rw [cons_append, append_assoc, readExponent_sign letter isSign
      (fun _ => unsigned) (by simp), ← isText, readInt_digits digits
      (fun isStrict => absurd isStrict (by decide)) ends.digit,
      append_assoc w]
    rfl

/-- The sign of a number is a part of its token. -/
theorem parseNumberToken_sign (isSign : sign = [] ∨ sign = [0x2d])
    (unsigned : sign = [] -> p.head? ≠ some 0x2d)
    (some_ : p ≠ []) :
    parseNumberToken (sign ++ p) = (readInt (spanning .number sign p) false).bind fun integer =>
        if !integer.2 then some kInvalidToken
        else
          (readFraction integer.1).bind fun fraction =>
            if !fraction.2 then some kInvalidToken
            else
              (readExponent fraction.1).bind fun exponent =>
                if !exponent.2 then some kInvalidToken
                else some exponent.1 := by
  rcases isSign with rfl | rfl
  · cases p with
    | nil => exact absurd rfl some_
    | cons c p =>
      have notMinus : c ≠ 0x2d := by
        rintro rfl
        exact unsigned rfl rfl
      rw [parseNumberToken, nil_append, List.head?_cons]
      simp only [bind_eq_bind, bind_some, if_neg notMinus]
      rfl
  · rfl

theorem parseNumberToken_text (junk : List Nat) :
    ∃ token, parseNumberToken (text ++ 0 :: junk) = some token ∧
      (token = kInvalidToken ∨ ∃ n behind, text = n ++ behind ∧ NumberText n ∧
        token = spanning .number n (behind ++ 0 :: junk)) := by
  obtain ⟨sign, rest, isText, isSign, unsigned⟩ : ∃ sign rest,
      text = sign ++ rest ∧ (sign = [] ∨ sign = [0x2d]) ∧
        (sign = [] -> (rest ++ 0 :: junk).head? ≠ some 0x2d) := by
    cases text with
    | nil => exact ⟨[], [], rfl, .inl rfl, fun _ isMinus => by cases isMinus⟩
    | cons c text =>
      by_cases minus : c = 0x2d
      · subst minus
        exact ⟨[0x2d], text, rfl, .inr rfl, fun isNil => absurd isNil (cons_ne_nil _ _)⟩
      · exact ⟨[], c :: text, rfl, .inl rfl, fun _ isMinus => minus (some.inj isMinus)⟩
  obtain ⟨ok, integer, afterInteger, rfl, reads, isInteger⟩ :=
    @readInt_text .number sign rest junk false
  rw [isText, append_assoc, parseNumberToken_sign isSign unsigned (by simp), reads, bind_some]
  cases ok with
  | false => exact ⟨_, rfl, .inl rfl⟩
  | true =>
    obtain ⟨ok, fraction, afterFraction, rfl, reads, isFraction⟩ :=
      @readFraction_text .number (sign ++ integer) afterInteger junk
    rw [reads]
    simp only [Bool.not_true, Bool.false_eq_true, if_false, bind_some]
    cases ok with
    | false => exact ⟨_, rfl, .inl rfl⟩
    | true =>
      obtain ⟨ok, exponent, behind, rfl, reads, isExponent⟩ :=
        @readExponent_text .number (sign ++ integer ++ fraction) afterFraction junk
      rw [reads]
      cases ok with
      | false => exact ⟨_, rfl, .inl rfl⟩
      | true =>
        refine ⟨_, rfl, .inr ⟨sign ++ integer ++ fraction ++ exponent,
          behind, ?_, ⟨sign, integer, fraction, exponent, ?_, isSign,
          ⟨(isInteger rfl).1, (isInteger rfl).2 rfl⟩, isFraction rfl,
          isExponent rfl⟩, rfl⟩⟩
        · simp
        · simp

theorem Digits.head_ne_minus (digits : Digits part) : (part ++ p).head? ≠ some 0x2d := by
  rcases isText : part with _ | ⟨first, others⟩
  · exact absurd isText digits.some_
  intro isMinus
  obtain rfl := some.inj isMinus
  have digit := digits.digit 0x2d (by rw [isText]; exact mem_cons_self)
  cases digit

/-- What follows the integer part is not a digit. -/
theorem exists_notDigit (isFraction : FractionPart fraction) (isExponent : ExponentPart exponent)
    (ends : NumberEnds c) :
    ∃ d q, fraction ++ (exponent ++ c :: p) = d :: q ∧ isDigit d = false := by
  cases isFraction with
  | fraction digits => exact ⟨_, _, rfl, rfl⟩
  | nil =>
    cases isExponent with
    | nil => exact ⟨c, p, rfl, ends.digit⟩
    | exponent letter isSign digits =>
      refine ⟨_, _, rfl, ?_⟩
      rcases letter with rfl | rfl
      · rfl
      · rfl

/-- What follows the fraction is neither a digit nor a point. -/
theorem exists_notFraction (isExponent : ExponentPart exponent) (ends : NumberEnds c) :
    ∃ d q, exponent ++ c :: p = d :: q ∧ isDigit d = false ∧ d ≠ 0x2e := by
  cases isExponent with
  | nil => exact ⟨c, p, rfl, ends.digit, ends.point⟩
  | exponent letter isSign digits =>
    refine ⟨_, _, rfl, ?_⟩
    rcases letter with rfl | rfl
    · exact ⟨rfl, by decide⟩
    · exact ⟨rfl, by decide⟩

/-- A number is a token if what is behind it does not continue it. -/
theorem parseNumberToken_append (isNumber : NumberText number) (ends : NumberEnds c) :
    parseNumberToken (number ++ c :: p) = some (spanning .number number (c :: p)) := by
  obtain ⟨sign, integer, fraction, exponent, rfl, isSign, isInteger, isFraction,
    isExponent⟩ := isNumber.parts
  obtain ⟨d, q, isRest, notDigit⟩ := exists_notDigit (p := p) isFraction isExponent ends
  obtain ⟨d', q', isRest', notDigit', notPoint⟩ := exists_notFraction (p := p) isExponent ends
  have unsigned : sign = [] -> (integer ++ d :: q).head? ≠ some 0x2d :=
    fun _ => isInteger.toDigits.head_ne_minus
  simp only [append_assoc]
  rw [isRest, parseNumberToken_sign isSign unsigned (by simp),
    readInt_digits isInteger.toDigits (fun _ => isInteger.leading) notDigit,
    ← isRest]
  simp only [bind_some, Bool.not_true, Bool.false_eq_true, if_false]
  rw [isRest', readFraction_part isFraction notDigit' notPoint, ← isRest']
  simp only [bind_some, Bool.not_true, Bool.false_eq_true, if_false]
  rw [readExponent_part isExponent ends]
  simp

end

/-!
## Places in a text

An error is at a place of the text that is read, which ends at its first null
character.
-/

section

open Base

variable {text junk front behind : List Nat} {reader : JSONReader}

/-- The line and the column of the place behind some characters. -/
def placeBehind (front : List Nat) : Nat × Nat :=
  (1 + front.count 0x0a, 1 + (front.reverse.takeWhile (· != 0x0a)).length)

/-- A line and a column are those of a place of a text, or of its end. -/
def IsPlace (text : List Nat) (line_number column_number : Nat) : Prop :=
  ∃ place ≤ text.length, placeBehind (text.take place) = (line_number, column_number)

/-- The place behind one more character. -/
def nextPlace (place : Nat × Nat) (c : Nat) : Nat × Nat :=
  if c = 0x0a then (place.1 + 1, 1) else (place.1, place.2 + 1)

theorem foldl_nextPlace (front : List Nat) : front.foldl nextPlace (1, 1) = placeBehind front := by
  induction front using reverseRecOn with
  | nil => rfl
  | append_singleton front c ih =>
    rw [foldl_append, ih, foldl_cons, foldl_nil, nextPlace, placeBehind, placeBehind, count_append,
      reverse_append, reverse_singleton, singleton_append]
    by_cases newline : c = 0x0a
    · subst newline
      rfl
    · rw [if_neg newline, count_singleton, if_neg (by simpa using newline),
        takeWhile_cons_of_pos (by simpa using newline), length_cons]
      rfl

/-- The loop over the characters before an error finds its place. -/
theorem errorPlace_append (plain : 0 ∉ front) (line_number column_number : Nat) :
    errorPlace (front ++ p) p line_number column_number =
      some (some (front.foldl nextPlace (line_number, column_number))) := by
  induction front generalizing line_number column_number with
  | nil =>
    rw [nil_append, errorPlace.eq_def, if_pos rfl]
    rfl
  | cons c front ih =>
    rw [mem_cons, not_or] at plain
    have before : ¬ (c :: (front ++ p)).length = p.length := by
      rw [length_cons, length_append]
      omega
    rw [cons_append, errorPlace.eq_def, if_neg before]
    dsimp only
    rw [if_neg (Ne.symm plain.1), foldl_cons, nextPlace]
    split_ifs
    · exact ih plain.2 _ _
    · exact ih plain.2 _ _

/-- The reader is in a text, and so is the place of its error. -/
structure Inside (text junk : List Nat) (reader : JSONReader) : Prop where
  start : reader.start_pos = text ++ 0 :: junk
  here : ∃ t, t <:+ text ∧ reader.json_pos = t ++ 0 :: junk
  marked : reader.error_code ≠ .noError -> IsPlace text reader.error_line reader.error_col

/-- What the parsing of a token keeps. -/
structure Keeps (reader next : JSONReader) : Prop where
  depth : next.stack_depth = reader.stack_depth
  trailing : next.allow_trailing_comma = reader.allow_trailing_comma

theorem Keeps.refl (reader : JSONReader) : Keeps reader reader := ⟨rfl, rfl⟩

theorem Keeps.trans {next : JSONReader}
    (first : Keeps reader next) (second : Keeps next last) : Keeps reader last :=
  ⟨second.depth.trans first.depth, second.trailing.trans first.trailing⟩

/-- An error at a place of the text is recorded with the place. -/
theorem setErrorCode_inside (plain : 0 ∉ text) (inside : Inside text junk reader) {t : List Nat}
    (isSuffix : t <:+ text) (error : JsonParseError) :
    ∃ next, reader.setErrorCode error (t ++ 0 :: junk) = some next ∧
      Inside text junk next ∧ Keeps reader next ∧
      next.json_pos = reader.json_pos ∧ next.error_code = error := by
  obtain ⟨front, isText⟩ := isSuffix
  have plainFront : 0 ∉ front := by
    rw [← isText, mem_append, not_or] at plain
    exact plain.1
  have place : errorPlace reader.start_pos (t ++ 0 :: junk) 1 1 =
      some (some (placeBehind front)) := by
    rw [inside.start, ← isText, append_assoc, errorPlace_append plainFront, foldl_nextPlace]
  rw [JSONReader.setErrorCode, place]
  refine ⟨_, rfl, ⟨inside.start, inside.here, fun _ => ?_⟩, ⟨rfl, rfl⟩, rfl, rfl⟩
  refine ⟨front.length, ?_, ?_⟩
  · rw [← isText, length_append]
    exact Nat.le_add_right _ _
  · rw [← isText, take_left]
    rfl

theorem Inside.move (inside : Inside text junk reader) (isSuffix : t <:+ text) :
    Inside text junk { reader with json_pos := t ++ 0 :: junk } :=
  ⟨inside.start, ⟨t, isSuffix, rfl⟩, inside.marked⟩

end

/-!
## String tokens

A string token is a string, and it is decoded to the characters of the string.
-/

section

open Base

variable {text junk w decoded digits : List Nat} {p : Pointer} {reader : JSONReader}

theorem areHexDigits_append (hex : ∀ c ∈ digits, isHexDigit c = true) :
    areHexDigits digits.length (digits ++ p) = some true := by
  induction digits with
  | nil => rfl
  | cons c digits ih =>
    rw [length_cons, cons_append, areHexDigits, if_pos (hex c mem_cons_self)]
    exact ih (forall_mem_cons.mp hex).2

theorem areHexDigits_text (n : Nat) (t junk : List Nat) :
    ∃ ok, areHexDigits n (t ++ 0 :: junk) = some ok ∧
      (ok = true -> ∃ digits behind, t = digits ++ behind ∧
        digits.length = n ∧ ∀ c ∈ digits, isHexDigit c = true) := by
  induction n generalizing t with
  | zero => exact ⟨true, rfl, fun _ => ⟨[], t, rfl, rfl, forall_mem_nil _⟩⟩
  | succ n ih =>
    cases t with
    | nil => exact ⟨false, rfl, fun isTrue => absurd isTrue Bool.false_ne_true⟩
    | cons c t =>
      by_cases hex : isHexDigit c = true
      · obtain ⟨ok, reads, isValid⟩ := ih t
        refine ⟨ok, ?_, fun isTrue => ?_⟩
        · rw [cons_append, areHexDigits, if_pos hex, reads]
        · obtain ⟨digits, behind, rfl, rfl, all⟩ := isValid isTrue
          refine ⟨c :: digits, behind, rfl, rfl, fun d mem => ?_⟩
          rcases mem_cons.mp mem with rfl | later
          · exact hex
          · exact all d later
      · refine ⟨false, ?_, fun isTrue => absurd isTrue Bool.false_ne_true⟩
        rw [cons_append, areHexDigits, if_neg hex]

/-- An escape with its digits is a character. -/
theorem StringText.escape (isEscape : escapeDigits c = some digits.length)
    (hex : ∀ d ∈ digits, isHexDigit d = true) (rest : StringText w decoded) :
    ∃ decoded, StringText (0x5c :: c :: (digits ++ w)) decoded := by
  rw [escapeDigits] at isEscape
  split_ifs at isEscape with isHex isUnicode isSingle
  · subst isHex
    match digits with
    | [a, b] => exact ⟨_, .hex (hex a (by simp)) (hex b (by simp)) rest⟩
  · subst isUnicode
    match digits with
    | [a, b, c, d] =>
      exact ⟨_, .unicode (hex a (by simp)) (hex b (by simp)) (hex c (by simp))
        (hex d (by simp)) rest⟩
  · obtain ⟨d, escape⟩ := isSome_iff_exists.mp isSingle
    match digits with
    | [] => exact ⟨_, .single escape rest⟩

/-- An escape is read with its digits. -/
theorem stringCharacters_escape (isEscape : escapeDigits c = some digits.length)
    (hex : ∀ d ∈ digits, isHexDigit d = true) (fuel : Nat) (n : List Nat) :
    reader.stringCharacters (fuel + 1) (spanning .string n (0x5c :: c :: (digits ++ p))) =
      reader.stringCharacters fuel (spanning .string (n ++ 0x5c :: c :: digits) p) := by
  have reads : readHexDigits (spanning .string (n ++ [0x5c]) (c :: (digits ++ p))) digits.length =
        some ((spanning .string (n ++ [0x5c]) (c :: (digits ++ p))).advance
          digits.length, true) := by
    have drops : (spanning .string (n ++ [0x5c]) (c :: (digits ++ p))).begin.drop
        ((spanning .string (n ++ [0x5c]) (c :: (digits ++ p))).length + 1) = digits ++ p := by
      rw [← drop_drop, drop_spanning]
      rfl
    rw [readHexDigits, drops, areHexDigits_append hex]
    rfl
  have advances : ((spanning .string (n ++ [0x5c])
      (c :: (digits ++ p))).advance digits.length).advance 1 =
        spanning .string (n ++ 0x5c :: c :: digits) p := by
    simp [spanning, Token.advance]
    omega
  rw [JSONReader.stringCharacters, nextChar_spanning, advance_spanning_cons, nextChar_spanning]
  simp only [List.head?_cons, bind_eq_bind, bind_some, if_true,
    show ¬ (0x5c : Nat) = 0 by decide, if_false, isEscape, reads, advances]

theorem stringCharacters_plain (some_ : c ≠ 0) (notQuote : c ≠ 0x22) (notEscape : c ≠ 0x5c)
    (fuel : Nat) (n : List Nat) :
    reader.stringCharacters (fuel + 1) (spanning .string n (c :: p)) =
      reader.stringCharacters fuel (spanning .string (n ++ [c]) p) := by
  rw [JSONReader.stringCharacters, nextChar_spanning, advance_spanning_cons]
  simp only [List.head?_cons, bind_eq_bind, bind_some,
    if_neg some_, if_neg notEscape, if_neg notQuote]

theorem stringCharacters_quote :
    reader.stringCharacters (fuel + 1) (spanning .string n (0x22 :: p)) =
      some (spanning .string (n ++ [0x22]) p, reader) := by
  rw [JSONReader.stringCharacters, nextChar_spanning, advance_spanning_cons]
  rfl

theorem escapeDigits_of_singleEscape (escape : singleEscape c = some d) :
    escapeDigits c = some 0 := by
  have notHex : c ≠ 0x78 := by
    rintro rfl
    cases escape
  have notUnicode : c ≠ 0x75 := by
    rintro rfl
    cases escape
  rw [escapeDigits, if_neg notHex, if_neg notUnicode, escape]
  rfl

/-- A string is read up to its quotation mark. -/
theorem stringCharacters_append (isString : StringText w decoded) (plain : 0 ∉ w) (fuel : Nat)
    (enough : w.length < fuel) (n : List Nat) :
    reader.stringCharacters fuel (spanning .string n (w ++ 0x22 :: p)) =
      some (spanning .string (n ++ (w ++ [0x22])) p, reader) := by
  induction isString generalizing fuel n with
  | nil =>
    cases fuel with
    | zero => cases enough
    | succ fuel => exact stringCharacters_quote
  | @plain c w decoded notQuote notEscape _ ih =>
    rw [mem_cons, not_or] at plain
    cases fuel with
    | zero => cases enough
    | succ fuel =>
      rw [cons_append, stringCharacters_plain (Ne.symm plain.1) notQuote
        notEscape, ih plain.2 fuel (Nat.lt_of_succ_lt_succ enough), append_assoc]
      rfl
  | @single c d w decoded escape _ ih =>
    simp only [mem_cons, not_or] at plain
    simp only [length_cons] at enough
    cases fuel with
    | zero => cases enough
    | succ fuel =>
      have reads := @stringCharacters_escape [] (w ++ 0x22 :: p) reader c
        (escapeDigits_of_singleEscape escape)
        (forall_mem_nil _) fuel n
      rw [nil_append] at reads
      rw [cons_append, cons_append, reads, ih plain.2.2 fuel (by omega), append_assoc]
      rfl
  | @hex a b w decoded first second _ ih =>
    simp only [mem_cons, not_or] at plain
    simp only [length_cons] at enough
    cases fuel with
    | zero => cases enough
    | succ fuel =>
      have reads := @stringCharacters_escape [a, b] (w ++ 0x22 :: p) reader
        0x78 rfl (by simp [first, second]) fuel n
      simp only [cons_append, nil_append] at reads ⊢
      rw [reads, ih plain.2.2.2.2 fuel (by omega), append_assoc]
      rfl
  | @unicode a b c d w decoded first second third fourth _ ih =>
    simp only [mem_cons, not_or] at plain
    simp only [length_cons] at enough
    cases fuel with
    | zero => cases enough
    | succ fuel =>
      have reads := @stringCharacters_escape [a, b, c, d] (w ++ 0x22 :: p)
        reader 0x75 rfl (by simp [first, second, third, fourth]) fuel n
      simp only [cons_append, nil_append] at reads ⊢
      rw [reads, ih plain.2.2.2.2.2.2 fuel (by omega), append_assoc]
      rfl

/-- What is read of a string token: a string, or nothing that is valid and
perhaps an error in the text. -/
def StringRead (text junk : List Nat) (reader : JSONReader) (n t : List Nat)
    (read : Token × JSONReader) : Prop :=
  Inside text junk read.2 ∧ Keeps reader read.2 ∧ read.2.json_pos = reader.json_pos ∧
    (read.1 = kInvalidToken ∨ ∃ w decoded behind, t = w ++ 0x22 :: behind ∧ StringText w decoded ∧
        read.1 = spanning .string (n ++ (w ++ [0x22])) (behind ++ 0 :: junk))

/-- An escape that is not valid is an error in the text. -/
theorem stringRead_error (plain : 0 ∉ text) (inside : Inside text junk reader)
    (here : reader.json_pos = n ++ (0x5c :: (t ++ 0 :: junk)))
    (isSuffix : n ++ 0x5c :: t <:+ text) :
    ∃ next, reader.setErrorCode .invalidEscape (reader.json_pos.drop (n.length + 1)) = some next ∧
      StringRead text junk reader n (0x5c :: t) (kInvalidToken, next) := by
  have drops : reader.json_pos.drop (n.length + 1) = t ++ 0 :: junk := by
    rw [here, ← drop_drop, drop_left]
    rfl
  have within : t <:+ text := ((suffix_cons _ _).trans (suffix_append n _)).trans isSuffix
  obtain ⟨next, isSet, insideNext, keeps, same, -⟩ :=
    setErrorCode_inside plain inside within .invalidEscape
  rw [drops]
  exact ⟨next, isSet, insideNext, keeps, same, .inl rfl⟩

/-- The loop over a string reads a string, or finds an error in it. -/
theorem stringCharacters_text (plain : 0 ∉ text) (inside : Inside text junk reader)
    (here : reader.json_pos = n ++ (t ++ 0 :: junk)) (isSuffix : n ++ t <:+ text) (fuel : Nat)
    (enough : t.length < fuel) :
    ∃ read, reader.stringCharacters fuel (spanning .string n (t ++ 0 :: junk)) =
        some read ∧ StringRead text junk reader n t read := by
  induction fuel generalizing n t with
  | zero => cases enough
  | succ fuel ih =>
    have plainBoth : 0 ∉ t := fun mem => plain (isSuffix.subset (mem_append_right _ mem))
    cases t with
    | nil =>
      refine ⟨(kInvalidToken, reader), ?_, inside, Keeps.refl _, rfl, .inl rfl⟩
      rw [JSONReader.stringCharacters, nextChar_spanning]
      rfl
    | cons c t =>
      rw [mem_cons, not_or] at plainBoth
      by_cases quote : c = 0x22
      · subst quote
        exact ⟨_, stringCharacters_quote, inside, Keeps.refl _, rfl,
          .inr ⟨[], [], t, rfl, .nil, rfl⟩⟩
      by_cases escape : c = 0x5c
      · subst escape
        have invalid := stringRead_error plain inside here isSuffix
        -- The error is at the character behind the backslash.
        have fails : ∀ e q, t ++ 0 :: junk = e :: q -> escapeDigits e = none ->
            reader.stringCharacters (fuel + 1) (spanning .string n (0x5c :: (t ++ 0 :: junk))) =
              (reader.setErrorCode .invalidEscape
                (reader.json_pos.drop (n.length + 1))).bind fun next =>
                  some (kInvalidToken, next) := by
          intro e q isText isNone
          rw [isText, JSONReader.stringCharacters, nextChar_spanning,
            advance_spanning_cons, nextChar_spanning]
          simp only [List.head?_cons, bind_eq_bind, bind_some,
            if_true, show ¬ (0x5c : Nat) = 0 by decide, if_false, isNone,
            spanning, length_append, length_singleton]
        obtain ⟨next, isSet, isRead⟩ := invalid
        cases t with
        | nil =>
          refine ⟨(kInvalidToken, next), ?_, isRead⟩
          rw [cons_append, fails 0 junk rfl rfl, isSet]
          rfl
        | cons e t =>
          cases isEscape : escapeDigits e with
          | none =>
            refine ⟨(kInvalidToken, next), ?_, isRead⟩
            rw [cons_append, fails e (t ++ 0 :: junk) rfl isEscape, isSet]
            rfl
          | some count =>
            obtain ⟨ok, reads, isValid⟩ := areHexDigits_text count t junk
            cases ok with
            | false =>
              refine ⟨(kInvalidToken, next), ?_, isRead⟩
              have drops : (spanning .string (n ++ [0x5c]) (e :: (t ++ 0 :: junk))).begin.drop
                  ((spanning .string (n ++ [0x5c])
                    (e :: (t ++ 0 :: junk))).length + 1) =
                    t ++ 0 :: junk := by
                rw [← drop_drop, drop_spanning]
                rfl
              rw [cons_append, cons_append, JSONReader.stringCharacters, nextChar_spanning,
                advance_spanning_cons, nextChar_spanning]
              simp only [List.head?_cons, bind_eq_bind, bind_some, if_true,
                show ¬ (0x5c : Nat) = 0 by decide, if_false, isEscape,
                readHexDigits, drops, reads, Bool.false_eq_true]
              simp only [spanning, length_append, length_singleton]
              rw [isSet]
              rfl
            | true =>
              obtain ⟨digits, behind, rfl, rfl, hex⟩ := isValid rfl
              have isText : n ++ 0x5c :: e :: (digits ++ behind) =
                  n ++ 0x5c :: e :: digits ++ behind := by
                simp
              rw [isText] at isSuffix
              obtain ⟨read, isRead, insideRead, keeps, same, isToken⟩ :=
                ih (by rw [here]; simp) isSuffix (by
                    simp only [length_cons, length_append] at enough
                    omega)
              refine ⟨read, ?_, insideRead, keeps, same, ?_⟩
              · rw [← isRead, ← stringCharacters_escape isEscape hex]
                simp
              · rcases isToken with invalid | ⟨w, decoded, after, rfl, isString, isToken⟩
                · exact .inl invalid
                · obtain ⟨all, isAll⟩ := isString.escape isEscape hex
                  refine .inr ⟨_, all, after, ?_, isAll, ?_⟩
                  · simp
                  · rw [isToken]
                    simp
      · have next := @stringCharacters_plain (t ++ 0 :: junk) reader c
          (Ne.symm plainBoth.1) quote escape fuel n
        have isText : n ++ c :: t = n ++ [c] ++ t := by simp
        rw [isText] at isSuffix
        obtain ⟨read, isRead, insideRead, keeps, same, isToken⟩ :=
          ih (by rw [here]; simp) isSuffix (Nat.lt_of_succ_lt_succ enough)
        refine ⟨read, next.trans isRead, insideRead, keeps, same, ?_⟩
        rcases isToken with invalid | ⟨w, decoded, after, rfl, isString, isToken⟩
        · exact .inl invalid
        · refine .inr ⟨c :: w, c :: decoded, after, rfl, .plain quote escape isString, ?_⟩
          rw [isToken, append_assoc]
          rfl

end

end Chromium.Json
