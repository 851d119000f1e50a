import Chromium.Base.StringUtil

/-!
# The language of a pattern

What a string that is matched by a pattern is obtained from.
-/

namespace Chromium.Base

open List Option

/-- The UTF-8 of a string. -/
def utf8 (str : List Nat) : Bytes := str.flatMap writeUTF8

/-- `IsWildcard`, of a code point. -/
def isWild (c : Nat) : Bool := c == 0x2a || c == 0x3f

/-- The string is obtained from the pattern when each `*` is replaced by any
string, each `?` by at most one character and each escaped character by itself.
A backslash at the end escapes nothing: it is kept, or nothing is obtained. -/
def Obtained (kept : Bool) : List Nat -> List Nat -> Prop
  | [], eval => eval = []
  | 0x5c :: c :: pattern, eval => ∃ rest, eval = c :: rest ∧ Obtained kept pattern rest
  | c :: pattern, eval =>
    if c = 0x2a then ∃ rest, rest <:+ eval ∧ Obtained kept pattern rest
    else if c = 0x3f then
      ∃ rest, rest <:+ eval ∧ eval.length <= rest.length + 1 ∧ Obtained kept pattern rest
    else ∃ rest, eval = c :: rest ∧ (c = 0x5c -> kept = true) ∧ Obtained kept pattern rest

/-- The number of wildcards that are not escaped. -/
def wildcards : List Nat -> Nat
  | [] => 0
  | 0x5c :: _ :: pattern => wildcards pattern
  | c :: pattern => (isWild c).toNat + wildcards pattern

/-- The code points are those of UTF-8. -/
abbrev Valid (str : List Nat) : Prop := ∀ c ∈ str, isValidCodepoint c = true

variable {c : Nat} {pattern eval : List Nat}

/-- The character that a pattern starts with, and the pattern behind it. -/
def literal : List Nat -> Option (Nat × List Nat)
  | 0x5c :: c :: pattern => some (c, pattern)
  | c :: pattern => if c = 0x5c then none else some (c, pattern)
  | [] => none

theorem literal_of_ne (unescaped : c ≠ 0x5c) : literal (c :: pattern) = some (c, pattern) := by
  rw [literal, if_neg unescaped]
  rintro next rest rfl
  exact absurd rfl unescaped

theorem obtained_literal (plain : isWild c = false) : Obtained false (c :: pattern) eval ↔
    ∃ code rest eval', literal (c :: pattern) = some (code, rest) ∧ eval = code :: eval' ∧
      Obtained false rest eval' := by
  by_cases escape : c = 0x5c
  · subst escape
    cases pattern <;> simp [Obtained, literal]
  · rw [isWild, Bool.or_eq_false_iff, beq_eq_false_iff_ne, beq_eq_false_iff_ne] at plain
    rw [Obtained, if_neg plain.1, if_neg plain.2, literal_of_ne escape]
    · simp [escape]
    · rintro next rest rfl
      exact absurd rfl escape

theorem wildcards_of_ne (unescaped : c ≠ 0x5c) :
    wildcards (c :: pattern) = (isWild c).toNat + wildcards pattern := by
  rw [wildcards]
  rintro next rest rfl
  exact absurd rfl unescaped

theorem literal_rest (plain : isWild c = false)
    (hit : literal (c :: pattern) = some (code, rest)) :
    rest <:+ pattern ∧ wildcards rest = wildcards (c :: pattern) := by
  by_cases escape : c = 0x5c
  · subst escape
    cases pattern with
    | nil => cases hit
    | cons next pattern =>
      cases hit
      exact ⟨suffix_cons _ _, rfl⟩
  · cases (literal_of_ne escape).symm.trans hit
    rw [wildcards_of_ne escape, plain]
    exact ⟨suffix_rfl, (Nat.zero_add _).symm⟩

theorem obtained_wild (wild : isWild c = true) : Obtained false (c :: pattern) eval ↔
    ∃ rest, rest <:+ eval ∧ (c = 0x3f -> eval.length <= rest.length + 1) ∧
      Obtained false pattern rest := by
  rw [isWild, Bool.or_eq_true, beq_iff_eq, beq_iff_eq] at wild
  rcases wild with rfl | rfl <;> simp [Obtained]

theorem obtained_empty : Obtained false pattern [] ↔ pattern.dropWhile isWild = [] := by
  induction pattern with
  | nil => exact iff_of_true rfl rfl
  | cons c pattern ih =>
    cases wild : isWild c with
    | true =>
      rw [dropWhile_cons_of_pos wild, ← ih, obtained_wild wild]
      simp
    | false =>
      rw [dropWhile_cons_of_neg (by rw [wild]; decide)]
      rw [obtained_literal wild]
      simp

/-- Wildcards behind a `*` do not change what is matched. -/
theorem obtained_dropWhile :
    (∃ rest, rest <:+ eval ∧ Obtained false (pattern.dropWhile isWild) rest) ↔
      ∃ rest, rest <:+ eval ∧ Obtained false pattern rest := by
  induction pattern with
  | nil => rfl
  | cons c pattern ih =>
    cases wild : isWild c with
    | false => rw [dropWhile_cons_of_neg (by rw [wild]; decide)]
    | true =>
      rw [dropWhile_cons_of_pos wild, ih]
      constructor
      · rintro ⟨rest, suffix, obtained⟩
        exact ⟨rest, suffix,
          (obtained_wild wild).mpr ⟨rest, suffix_rfl, fun _ => Nat.le_succ _, obtained⟩⟩
      · rintro ⟨rest, suffix, obtained⟩
        obtain ⟨rest', suffix', -, obtained⟩ := (obtained_wild wild).mp obtained
        exact ⟨rest', suffix'.trans suffix, obtained⟩

theorem wildcards_dropWhile : wildcards (pattern.dropWhile isWild) <= wildcards pattern := by
  induction pattern with
  | nil => exact Nat.le_refl _
  | cons c pattern ih =>
    cases wild : isWild c with
    | false => rw [dropWhile_cons_of_neg (by rw [wild]; decide)]
    | true =>
      rw [dropWhile_cons_of_pos wild, wildcards_of_ne (by rintro rfl; cases wild)]
      exact Nat.le_trans ih (Nat.le_add_left _ _)

theorem utf8_cons (c : Nat) (str : List Nat) : utf8 (c :: str) = writeUTF8 c ++ utf8 str := rfl

theorem utf8_eq_nil : utf8 str = [] ↔ str = [] := by
  cases str <;> simp [utf8, writeUTF8_ne_nil]

/-- A code point is one byte, or a byte that is no ASCII character and trail
bytes. -/
theorem writeUTF8_bytes (ok : isValidCodepoint c = true) :
    ∃ first trails, writeUTF8 c = first :: trails ∧ (∀ trail ∈ trails, isTrail trail = true) ∧
      (first.toNat = c ∨ 0x80 <= first.toNat ∧ 0x80 <= c) := by
  rw [isValidCodepoint_iff] at ok
  have trail (n : Nat) : isTrail (.ofNat (n % 64 + 0x80)) = true :=
    isTrail_ofNat (Nat.mod_lt _ (by decide))
  rw [writeUTF8]
  split_ifs with one two three
  · exact ⟨_, _, rfl, forall_mem_nil _, .inl (toNat_ofNat (by omega))⟩
  · refine ⟨_, _, rfl, ?_, .inr ⟨by rw [toNat_ofNat] <;> omega, by omega⟩⟩
    simp only [mem_cons, not_mem_nil, or_false, forall_eq, trail]
  · refine ⟨_, _, rfl, ?_, .inr ⟨by rw [toNat_ofNat] <;> omega, by omega⟩⟩
    simp only [mem_cons, not_mem_nil, or_false, forall_eq_or_imp, forall_eq, trail, and_self]
  · refine ⟨_, _, rfl, ?_, .inr ⟨by rw [toNat_ofNat] <;> omega, by omega⟩⟩
    simp only [mem_cons, not_mem_nil, or_false, forall_eq_or_imp, forall_eq, trail, and_self]

/-- The first byte of a string is an ASCII character that its first code point
is. -/
theorem utf8_head (ok : isValidCodepoint c = true) (str : List Nat) :
    ∃ first bytes, utf8 (c :: str) = first :: bytes ∧ isWildcard first = isWild c ∧
      ∀ ascii : UInt8, ascii < 0x80 -> (first = ascii ↔ c = ascii.toNat) := by
  obtain ⟨first, trails, isCode, -, val⟩ := writeUTF8_bytes ok
  have same (ascii : UInt8) (small : ascii < 0x80) : first = ascii ↔ c = ascii.toNat := by
    have small : ascii.toNat < 0x80 := small
    rw [← UInt8.toNat_inj]
    omega
  refine ⟨first, trails ++ utf8 str, by rw [utf8_cons, isCode, cons_append], ?_, same⟩
  rw [isWildcard, isWild, Bool.eq_iff_iff]
  simp [same]

/-- `EatWildcard`, of a pattern that is UTF-8. -/
theorem eatWildcard_utf8 (ok : Valid pattern) :
    eatWildcard (utf8 pattern) = utf8 (pattern.dropWhile isWild) := by
  induction pattern with
  | nil => rfl
  | cons c pattern ih =>
    obtain ⟨validFirst, ok⟩ := forall_mem_cons.mp ok
    cases wild : isWild c with
    | true =>
      rw [dropWhile_cons_of_pos wild, ← ih ok]
      rw [isWild, Bool.or_eq_true, beq_iff_eq, beq_iff_eq] at wild
      rcases wild with rfl | rfl <;> rfl
    | false =>
      obtain ⟨head, bytes, isCode, isHead, -⟩ := utf8_head validFirst pattern
      rw [dropWhile_cons_of_neg (by rw [wild]; decide), eatWildcard, isCode,
        dropWhile_cons_of_neg (by rw [isHead, wild]; decide)]

/-- `EatSameChars`, of a pattern that is UTF-8. -/
theorem eatSameChars_utf8 (ok : isValidCodepoint c = true)
    (enough : (utf8 (c :: pattern)).length <= fuel) :
    ∃ fewer, (utf8 pattern).length <= fewer ∧ ∀ escape first string,
      eatSameChars fuel escape (utf8 (c :: pattern)) (first :: string) =
        if escape.isNone ∧ isWild c then (utf8 (c :: pattern), first :: string)
        else if escape.isNone ∧ c = 0x5c then
          eatSameChars fewer (some (utf8 (c :: pattern))) (utf8 pattern) (first :: string)
        else if (nextCharUTF8 (first :: string)).1 = some c then
          eatSameChars fewer none (utf8 pattern) (nextCharUTF8 (first :: string)).2
        else (escape.getD (utf8 (c :: pattern)), first :: string) := by
  have pos := length_pos_of_ne_nil (@writeUTF8_ne_nil c)
  rw [utf8_cons, length_append] at enough
  obtain ⟨fewer, rfl⟩ : ∃ fewer, fuel = fewer + 1 := Nat.exists_eq_add_of_le' (by omega)
  refine ⟨fewer, by omega, fun escape first string => ?_⟩
  have next := nextCharUTF8_writeUTF8 ok (utf8 pattern)
  obtain ⟨head, bytes, isCode, wild, same⟩ := utf8_head ok pattern
  have escapes : head = 0x5c ↔ c = 0x5c := same 0x5c (by decide)
  rw [← utf8_cons, isCode] at next
  rw [isCode, eatSameChars_cons, wild, next]
  simp only [escapes, isSome_some, and_true, eq_comm]
  split_ifs with _ literal
  · rfl
  · rw [literal.2] at isCode
    cases isCode
    rfl
  · rfl
  · rfl

/-- `EatSameChars` eats the character that a pattern starts with, or it stops
in front of it. -/
theorem eatSameChars_literal (plain : isWild c = false) (ok : Valid (c :: pattern))
    (enough : (utf8 (c :: pattern)).length <= fuel) (first : UInt8) (string : Bytes) :
    (literal (c :: pattern) = none ->
      eatSameChars fuel none (utf8 (c :: pattern)) (first :: string) = ([], first :: string)) ∧
    ∀ code rest, literal (c :: pattern) = some (code, rest) → ∃ fewer, (utf8 rest).length ≤ fewer ∧
      eatSameChars fuel none (utf8 (c :: pattern)) (first :: string) =
        if (nextCharUTF8 (first :: string)).1 = some code then
          eatSameChars fewer none (utf8 rest) (nextCharUTF8 (first :: string)).2
        else (utf8 (c :: pattern), first :: string) := by
  obtain ⟨validFirst, ok⟩ := forall_mem_cons.mp ok
  obtain ⟨fewer, enough, eats⟩ := eatSameChars_utf8 validFirst enough
  rw [eats, if_neg (by simp [plain])]
  by_cases escape : c = 0x5c
  · rw [if_pos ⟨rfl, escape⟩, escape]
    cases pattern with
    | nil => exact ⟨fun _ => (by cases fewer <;> rfl), fun code rest hit => (by cases hit)⟩
    | cons next pattern =>
      obtain ⟨fewest, enough, eats⟩ := eatSameChars_utf8 (ok next mem_cons_self) enough
      rw [eats, if_neg (by simp), if_neg (by simp)]
      refine ⟨fun none_ => (by cases none_), fun code rest hit => ?_⟩
      cases hit
      exact ⟨fewest, enough, rfl⟩
  · rw [if_neg (by simp [escape]), literal_of_ne escape]
    refine ⟨fun none_ => (by cases none_), fun code rest hit => ?_⟩
    cases hit
    exact ⟨fewer, enough, rfl⟩

theorem nextCharUTF8_of_isTrail (trail : isTrail first = true) :
    (nextCharUTF8 (first :: string)).1 = none := by
  rw [isTrail, Bool.and_eq_true, decide_eq_true_iff, decide_eq_true_iff] at trail
  have noLead : ¬ isLead first = true := by
    rw [isLead, Bool.and_eq_true, decide_eq_true_iff]
    exact fun lead => UInt8.not_le.mpr trail.2 lead.1
  rw [nextCharUTF8, if_neg (UInt8.not_lt.mpr trail.1), if_neg noLead]

/-- `MatchPatternT` does not match what is left of a string with a character
that the pattern does not start with. -/
theorem matchPatternT_plain (ok : Valid rest) (plain : ∀ c ∈ rest.head?, isWild c = false)
    (stops : eatSameChars pattern'.length none pattern' string = (utf8 rest, first :: bytes)) :
    matchPatternT depth string pattern' = false := by
  cases depth with
  | zero => rfl
  | succ depth =>
    rw [matchPatternT, stops]
    cases rest with
    | nil => rfl
    | cons c rest =>
      obtain ⟨head, bytes, isCode, isHead, -⟩ := utf8_head (ok c mem_cons_self) rest
      rw [plain c rfl, isWildcard, Bool.or_eq_false_iff, beq_eq_false_iff_ne,
        beq_eq_false_iff_ne] at isHead
      rw [isCode]
      dsimp only
      rw [if_neg isHead.2, if_neg isHead.1]

/-- A byte that is no code point does not match what starts with no wildcard. -/
theorem matchPatternT_of_isTrail (trail : isTrail first = true) (ok : Valid pattern)
    (plain : ∀ c ∈ pattern.head?, isWild c = false) :
    matchPatternT depth (first :: string) (utf8 pattern) = false := by
  cases pattern with
  | nil => exact matchPatternT_plain ok plain rfl
  | cons c pattern =>
    obtain ⟨stops, eats⟩ := eatSameChars_literal (plain c rfl) ok (Nat.le_refl _) first string
    cases found : literal (c :: pattern) with
    | none =>
      exact matchPatternT_plain (forall_mem_nil _) (fun c none_ => by cases none_) (stops found)
    | some start =>
      obtain ⟨fewer, -, eats⟩ := eats start.1 start.2 found
      rw [nextCharUTF8_of_isTrail trail, if_neg (fun same => by cases same)] at eats
      exact matchPatternT_plain ok plain eats

/-- What `EatSameChars` leaves of a pattern and of a string: they match as
before, and a character that the pattern starts with is not that of the string. -/
structure Leaves (pattern eval rest str : List Nat) : Prop where
  inPattern : rest <:+ pattern
  inEval : str <:+ eval
  few : wildcards rest <= wildcards pattern
  same : Obtained false pattern eval ↔ Obtained false rest str
  differs : (∀ c ∈ rest.head?, isWild c = false) -> str ≠ [] -> ¬ Obtained false rest str

theorem eatSameChars_spec (validPattern : Valid pattern) (ok : Valid eval)
    (enough : (utf8 pattern).length <= fuel) :
    ∃ rest str, eatSameChars fuel none (utf8 pattern) (utf8 eval) = (utf8 rest, utf8 str) ∧
      Leaves pattern eval rest str := by
  induction length : pattern.length using Nat.strong_induction_on
    generalizing pattern eval fuel with
  | h count ih =>
    have stay (differs : (∀ c ∈ pattern.head?, isWild c = false) -> eval ≠ [] ->
        ¬ Obtained false pattern eval) : Leaves pattern eval pattern eval :=
      ⟨suffix_rfl, suffix_rfl, Nat.le_refl _, Iff.rfl, differs⟩
    cases pattern with
    | nil => exact ⟨[], eval, by cases fuel <;> rfl, stay fun _ ne => ne⟩
    | cons c pattern =>
      obtain ⟨validFirst, -⟩ := forall_mem_cons.mp validPattern
      obtain ⟨_, -, eats⟩ := eatSameChars_utf8 validFirst enough
      cases eval with
      | nil =>
        obtain ⟨head, bytes, isCode, -⟩ := utf8_head validFirst pattern
        refine ⟨_, [], ?_, stay fun _ ne => absurd rfl ne⟩
        rw [isCode]
        cases fuel <;> rfl
      | cons d eval =>
        obtain ⟨validChar, validEval⟩ := forall_mem_cons.mp ok
        have next := nextCharUTF8_writeUTF8 validChar (utf8 eval)
        obtain ⟨first, string, isString, -⟩ := utf8_head validChar eval
        rw [← utf8_cons, isString] at next
        cases plain : isWild c with
        | true =>
          refine ⟨_, d :: eval, ?_, stay fun plain' => absurd (plain' c rfl) (by simp [plain])⟩
          rw [isString, eats, if_pos ⟨rfl, plain⟩]
        | false =>
          obtain ⟨stops, goes⟩ := eatSameChars_literal plain validPattern enough first string
          rw [← isString] at stops goes
          have isObtained := @obtained_literal c pattern (d :: eval) plain
          cases hit : literal (c :: pattern) with
          | none =>
            rw [hit] at isObtained
            exact ⟨[], d :: eval, stops hit, nil_suffix, suffix_rfl, Nat.zero_le _,
              by simp [isObtained, Obtained], fun _ ne => ne⟩
          | some start =>
            obtain ⟨code, rest⟩ := start
            obtain ⟨inPattern, isCount⟩ := literal_rest plain hit
            obtain ⟨fewer, enough, goes⟩ := goes code rest hit
            rw [hit] at isObtained
            rw [isString, next, ← isString] at goes
            split_ifs at goes with same
            · cases same
              obtain ⟨rest', str, isSame, leaves⟩ :=
                ih rest.length (by subst length; exact Nat.lt_succ_of_le inPattern.length_le)
                  (fun c mem => validPattern c (mem_cons_of_mem _ (inPattern.subset mem)))
                  validEval enough rfl
              exact ⟨rest', str, goes.trans isSame,
                leaves.inPattern.trans (inPattern.trans (suffix_cons _ _)),
                leaves.inEval.trans (suffix_cons _ _), isCount ▸ leaves.few,
                by simp [isObtained, leaves.same], leaves.differs⟩
            · refine ⟨_, d :: eval, goes, stay fun _ _ => ?_⟩
              intro obtained
              obtain ⟨_, _, _, isStart, isEval, -⟩ := isObtained.mp obtained
              cases isStart
              cases isEval
              exact same rfl

/-- A property that no string has from a trail byte on is that of a string from
one of its bytes on exactly if it is from a character on. -/
theorem anySuffix_utf8 (no : ∀ first string, isTrail first = true -> P (first :: string) = false)
    (ok : Valid eval) : anySuffix P (utf8 eval) = true ↔
      ∃ rest, rest <:+ eval ∧ rest ≠ [] ∧ P (utf8 rest) = true := by
  induction eval with
  | nil => simp [utf8, anySuffix]
  | cons c eval ih =>
    obtain ⟨validFirst, ok⟩ := forall_mem_cons.mp ok
    obtain ⟨first, trails, isCode, areTrails, -⟩ := writeUTF8_bytes validFirst
    have skips : anySuffix P (trails ++ utf8 eval) = anySuffix P (utf8 eval) := by
      clear isCode
      induction trails with
      | nil => rfl
      | cons trail trails skips =>
        obtain ⟨isTrail, areTrails⟩ := forall_mem_cons.mp areTrails
        rw [cons_append, anySuffix, no _ _ isTrail, skips areTrails]
        rfl
    have isUtf8 : utf8 (c :: eval) = first :: (trails ++ utf8 eval) := by
      rw [utf8_cons, isCode, cons_append]
    rw [isUtf8, anySuffix, skips, Bool.or_eq_true, ih ok, ← isUtf8]
    simp [suffix_cons_iff, or_and_right, exists_or]

/-- The loop over a string finds what is matched behind a `*`. -/
theorem anySuffix_iff (ok : Valid eval) (validPattern : Valid pattern)
    (plain : ∀ c ∈ pattern.head?, isWild c = false) (ih : ∀ eval, Valid eval ->
      (matchPatternT depth (utf8 eval) (utf8 pattern) = true ↔ Obtained false pattern eval)) :
    (anySuffix (fun eval => matchPatternT depth eval (utf8 pattern)) (utf8 eval) ||
        (utf8 pattern).isEmpty) = true ↔ ∃ rest, rest <:+ eval ∧ Obtained false pattern rest := by
  rw [Bool.or_eq_true, anySuffix_utf8 (fun _ _ trail => matchPatternT_of_isTrail trail validPattern
    plain) ok, List.isEmpty_iff, utf8_eq_nil]
  have ih {rest : List Nat} (suffix : rest <:+ eval) :=
    ih rest fun c mem => ok c (suffix.subset mem)
  constructor
  · rintro (⟨rest, suffix, -, matched⟩ | rfl)
    · exact ⟨rest, suffix, (ih suffix).mp matched⟩
    · exact ⟨[], nil_suffix, rfl⟩
  · rintro ⟨rest, suffix, obtained⟩
    cases rest with
    | cons c rest => exact .inl ⟨_, suffix, cons_ne_nil _ _, (ih suffix).mpr obtained⟩
    | nil =>
      refine .inr ?_
      cases pattern with
      | nil => rfl
      | cons c pattern => simp [obtained_literal (plain c rfl)] at obtained

theorem matchPatternT_iff (validPattern : Valid pattern) (ok : Valid eval)
    (few : wildcards pattern < depth) :
    matchPatternT depth (utf8 eval) (utf8 pattern) = true ↔ Obtained false pattern eval := by
  induction depth generalizing pattern eval with
  | zero => exact absurd few (Nat.not_lt_zero _)
  | succ depth ih =>
    obtain ⟨rest, str, isSame, leaves⟩ := eatSameChars_spec validPattern ok (Nat.le_refl _)
    have validRest : Valid rest := fun c mem => validPattern c (leaves.inPattern.subset mem)
    have validStr : Valid str := fun c mem => ok c (leaves.inEval.subset mem)
    rw [leaves.same]
    cases str with
    | nil =>
      rw [matchPatternT, isSame, obtained_empty, ← utf8_eq_nil, ← eatWildcard_utf8 validRest,
        ← List.isEmpty_iff]
      rfl
    | cons d str =>
      obtain ⟨first, string, isString, -⟩ := utf8_head (validStr d mem_cons_self) str
      by_cases plain : ∀ c ∈ rest.head?, isWild c = false
      · rw [isString] at isSame
        rw [matchPatternT_plain validRest plain isSame]
        exact iff_of_false Bool.false_ne_true (leaves.differs plain (cons_ne_nil _ _))
      · cases rest with
        | nil => exact absurd (fun c mem => by cases mem) plain
        | cons c rest =>
          have wild : isWild c = true := by simpa using plain
          have fewer := leaves.few
          rw [wildcards_of_ne (by rintro rfl; cases wild), wild, Bool.toNat_true] at fewer
          have validBehind : Valid rest := (forall_mem_cons.mp validRest).2
          rw [matchPatternT, isSame, obtained_wild wild, isString]
          rw [isWild, Bool.or_eq_true, beq_iff_eq, beq_iff_eq] at wild
          rcases wild with rfl | rfl
          · have isCode : utf8 (0x2a :: rest) = 0x2a :: utf8 rest := rfl
            rw [isCode]
            dsimp only
            have fewest := @wildcards_dropWhile rest
            have validEnd : Valid (rest.dropWhile isWild) :=
              fun c mem => validBehind c ((dropWhile_suffix _).subset mem)
            rw [if_neg (by decide), if_pos rfl, ← isString, eatWildcard_utf8 validBehind,
              anySuffix_iff validStr validEnd _ fun eval ok => ih validEnd ok (by omega)]
            · simp [obtained_dropWhile]
            · intro c mem
              have := head?_dropWhile_not isWild rest
              rwa [mem] at this
          · have isCode : utf8 (0x3f :: rest) = 0x3f :: utf8 rest := rfl
            have next := nextCharUTF8_writeUTF8 (validStr d mem_cons_self) (utf8 str)
            rw [← utf8_cons, isString] at next
            rw [isCode]
            dsimp only
            rw [if_pos rfl, next, ← isString, Bool.or_eq_true, ih validBehind validStr (by omega),
              ih validBehind (forall_mem_cons.mp validStr).2 (by omega)]
            constructor
            · rintro (same | tail)
              · exact ⟨_, suffix_rfl, fun _ => Nat.le_succ _, same⟩
              · exact ⟨_, suffix_cons _ _, fun _ => Nat.le_refl _, tail⟩
            · rintro ⟨rest', suffix, short, obtained⟩
              rcases suffix_cons_iff.mp suffix with rfl | suffix
              · exact .inl obtained
              · rw [← suffix.eq_of_length_le (Nat.le_of_succ_le_succ (short rfl))]
                exact .inr obtained

/-- `MatchPattern` matches what is obtained from the pattern, if no backslash
is left at its end. -/
theorem matchPattern_iff (validPattern : Valid pattern) (valid : Valid eval)
    (few : wildcards pattern <= 16) :
    matchPattern (utf8 eval) (utf8 pattern) = true ↔ Obtained false pattern eval :=
  matchPatternT_iff validPattern valid (Nat.lt_succ_of_le few)

/-- The pattern `a?*`, and a string that it matches. -/
theorem matchPattern_iff_wild :
    matchPattern (utf8 [0x61, 0xe9, 0x62]) (utf8 [0x61, 0x3f, 0x2a]) = true ↔
      Obtained false [0x61, 0x3f, 0x2a] [0x61, 0xe9, 0x62] :=
  matchPattern_iff (by decide) (by decide) (by decide)

/-- A backslash does not match a pattern that is a backslash. -/
theorem not_matchPattern_kept : ¬ ∀ {pattern eval : List Nat}, Valid pattern -> Valid eval ->
    wildcards pattern <= 16 ->
      (matchPattern (utf8 eval) (utf8 pattern) = true ↔ Obtained true pattern eval) := by
  intro matched
  have same := @matched [0x5c] [0x5c] (by decide) (by decide) (by decide)
  have kept : Obtained true [0x5c] [0x5c] := ⟨[], rfl, fun _ => rfl, rfl⟩
  exact absurd (same.mpr kept) (by decide)

end Chromium.Base
