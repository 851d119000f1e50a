import Chromium.Base.UtfStringConversions
import Chromium.Library.Components

/-!
# String utilities

Splitting, joining and replacing in strings, and the matching of a string with
a pattern.
-/

namespace Chromium.Base

open List Option

/-- A character of `kWhitespaceASCII`. -/
def isWhitespaceASCII (c : UInt8) : Bool := (0x09 <= c && c <= 0x0d) || c == 0x20

/-- `SplitString`, which trims with `TrimWhitespaceASCII`. -/
def splitString (str : Bytes) (c : UInt8) : List Bytes :=
  Library.components isWhitespaceASCII c str

/-- `JoinString`. -/
def joinString (parts : List Bytes) (sep : UInt8) : Bytes := [sep].intercalate parts

/-- `ReplaceSubstringsAfterOffset`, from the start, of one character. -/
def replaceSubstrings (str : Bytes) (find_this : UInt8) (replace_with : Bytes) :
    Bytes :=
  str.flatMap fun c => if c = find_this then replace_with else [c]

/-- The place of the first occurrence of a string. -/
def find (needle : Bytes) : Bytes -> Option Nat
  | [] => if needle = [] then some 0 else none
  | c :: str =>
    if needle.isPrefixOf (c :: str) then some 0
    else (find needle str).map (· + 1)

/-- A string is found behind what does not have its first character. -/
theorem find_append {tail front : Bytes} (absent : first ∉ front) :
    find (first :: tail) (front ++ (first :: tail ++ back)) = some front.length := by
  induction front with
  | nil =>
    have starts : (first :: tail).isPrefixOf (first :: (tail ++ back)) = true :=
      isPrefixOf_iff_prefix.mpr ⟨back, rfl⟩
    rw [nil_append, cons_append, find, if_pos starts]
    rfl
  | cons c front ih =>
    rw [mem_cons, not_or] at absent
    have starts : ¬ (first :: tail).isPrefixOf
        (c :: (front ++ (first :: tail ++ back))) = true := by
      rw [isPrefixOf_cons_cons, Bool.and_eq_true, beq_iff_eq]
      exact fun same => absent.1 same.1
    rw [cons_append, find, if_neg starts, ih absent.2]
    rfl

theorem eq_of_find (hit : find needle str = some place) :
    str = str.take place ++ (needle ++ str.drop (place + needle.length)) := by
  induction str generalizing place with
  | nil =>
    rw [find] at hit
    split_ifs at hit with empty
    rw [empty, take_nil, drop_nil]
    rfl
  | cons c str ih =>
    rw [find] at hit
    split_ifs at hit with starts
    · obtain rfl := some.inj hit
      obtain ⟨back, isBack⟩ := isPrefixOf_iff_prefix.mp starts
      rw [← isBack, take_zero, Nat.zero_add, drop_left, nil_append]
    · obtain ⟨before, isBefore, rfl⟩ := map_eq_some_iff.mp hit
      have rest := ih isBefore
      rw [Nat.add_right_comm, take_succ_cons, drop_succ_cons, cons_append, ← rest]

/-- A character is not in front of where it is found. -/
theorem not_mem_take_of_find (hit : find [c] str = some place) : c ∉ str.take place := by
  induction str generalizing place with
  | nil =>
    rw [take_nil]
    exact not_mem_nil
  | cons first str ih =>
    rw [find] at hit
    split_ifs at hit with starts
    · obtain rfl := some.inj hit
      exact not_mem_nil
    · obtain ⟨before, isBefore, rfl⟩ := map_eq_some_iff.mp hit
      rw [take_succ_cons, mem_cons, not_or]
      refine ⟨?_, ih isBefore⟩
      rintro rfl
      apply starts
      rw [isPrefixOf_cons_cons, beq_self_eq_true, isPrefixOf_nil_left]
      rfl

/-- `IsWildcard`. -/
def isWildcard (character : UInt8) : Bool := character == 0x2a || character == 0x3f

/-- `EatSameChars`. An escape is the pattern from a backslash on. Each step
is over a byte of the pattern, so as many as it has are enough. -/
def eatSameChars : Nat -> Option Bytes -> Bytes -> Bytes -> Bytes × Bytes
  | 0, _, pattern, string => (pattern, string)
  | _ + 1, _, [], string => ([], string)
  | _ + 1, _, pattern, [] => (pattern, [])
  | fuel + 1, escape, c :: pattern, string =>
    if escape.isNone ∧ isWildcard c then (c :: pattern, string)
    else if escape.isNone ∧ c = 0x5c then eatSameChars fuel (some (c :: pattern)) pattern string
    else
      let pattern_next := nextCharUTF8 (c :: pattern)
      let string_next := nextCharUTF8 string
      if pattern_next.1 = string_next.1 ∧ pattern_next.1.isSome then
        eatSameChars fuel none pattern_next.2 string_next.2
      else (escape.getD (c :: pattern), string)

/-- `EatWildcard`. -/
def eatWildcard (pattern : Bytes) : Bytes := pattern.dropWhile isWildcard

/-- A string from one of its characters on has a property. -/
def anySuffix (P : Bytes -> Bool) : Bytes -> Bool
  | [] => false
  | c :: eval => P (c :: eval) || anySuffix P eval

/-- `MatchPatternT`, for the number of nested calls that are allowed. -/
def matchPatternT : Nat -> Bytes -> Bytes -> Bool
  | 0, _, _ => false
  | depth + 1, eval, pattern =>
    let same := eatSameChars pattern.length none pattern eval
    match same.2, same.1 with
    | [], pattern => (eatWildcard pattern).isEmpty
    | _ :: _, [] => false
    | c :: eval, wildcard :: next_pattern =>
      if wildcard = 0x3f then
        matchPatternT depth (c :: eval) next_pattern ||
          matchPatternT depth (nextCharUTF8 (c :: eval)).2 next_pattern
      else if wildcard = 0x2a then
        anySuffix (fun eval => matchPatternT depth eval (eatWildcard next_pattern))
          (c :: eval) || (eatWildcard next_pattern).isEmpty
      else false

/-- `MatchPattern`. `kMaxDepth` is 16. -/
def matchPattern (eval pattern : Bytes) : Bool := matchPatternT 17 eval pattern

theorem eatSameChars_cons : eatSameChars (fuel + 1) escape (c :: pattern) (first :: string) =
      if escape.isNone ∧ isWildcard c then (c :: pattern, first :: string)
      else if escape.isNone ∧ c = 0x5c then
        eatSameChars fuel (some (c :: pattern)) pattern (first :: string)
      else if (nextCharUTF8 (c :: pattern)).1 = (nextCharUTF8 (first :: string)).1 ∧
          (nextCharUTF8 (c :: pattern)).1.isSome then
        eatSameChars fuel none (nextCharUTF8 (c :: pattern)).2 (nextCharUTF8 (first :: string)).2
      else (escape.getD (c :: pattern), first :: string) := by
  rw [eatSameChars]
  exact fun empty => cons_ne_nil _ _ empty

/-- A pattern of a character and a `*` is matched by what starts with the
character. -/
theorem matchPattern_star (single : c < 0x80) (plain : isWildcard c = false) (unescaped : c ≠ 0x5c)
    (eval : Bytes) :
    matchPattern eval [c, 0x2a] = (eval.head? == some c) := by
  have notWild : ¬ ((none : Option Bytes).isNone ∧ isWildcard c = true) := by
    rw [plain]
    exact fun both => Bool.false_ne_true both.2
  have notEscape : ¬ ((none : Option Bytes).isNone ∧ c = 0x5c) :=
    fun both => unescaped both.2
  cases eval with
  | nil =>
    rw [matchPattern, matchPatternT]
    dsimp only [length_cons, length_nil, eatSameChars]
    rw [eatWildcard, dropWhile_cons_of_neg (by rw [plain]; decide)]
    rfl
  | cons first eval =>
    rw [matchPattern, matchPatternT, length_cons, eatSameChars_cons,
      if_neg notWild, if_neg notEscape, nextCharUTF8_of_lt single]
    by_cases same : first = c
    · subst same
      rw [nextCharUTF8_of_lt single, if_pos ⟨rfl, rfl⟩]
      cases eval with
      | nil => simp [eatSameChars, eatWildcard, isWildcard]
      | cons second eval => simp [eatSameChars, eatWildcard, isWildcard]
    · have ne : some c.toNat ≠ (nextCharUTF8 (first :: eval)).1 := by
        intro isNext
        by_cases isSingle : first < 0x80
        · rw [nextCharUTF8_of_lt isSingle, some_inj] at isNext
          exact same (UInt8.toNat_inj.mp isNext).symm
        · have := le_of_nextCharUTF8 isSingle isNext.symm
          exact absurd single (Nat.not_lt.mpr this)
      rw [if_neg fun both => ne both.1]
      rw [isWildcard, Bool.or_eq_false_iff, beq_eq_false_iff_ne, beq_eq_false_iff_ne] at plain
      simp [plain.1, plain.2, same]

end Chromium.Base
