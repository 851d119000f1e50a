import Mathlib.Data.List.Basic

/-!
# Patterns with wildcards

A pattern is a list of characters and of wildcards for one character or for any
number of them. Characters match if a folding makes them equal. A search for
a fragment behind a wildcard may always take the leftmost occurrence if another
wildcard of that kind follows.
-/

namespace Chromium.Library

open List Option

namespace Glob

/-- A token of a pattern. -/
inductive Token (α : Type)
  | char (unit : α)
  | any
  | star
deriving DecidableEq

variable {α β : Type}

/-- A whole text matches a pattern. -/
def Matches (fold : α -> β) : List (Token α) -> List α -> Prop
  | [], text => text = []
  | .char unit :: pattern, text =>
    ∃ first rest, text = first :: rest ∧ fold first = fold unit ∧ Matches fold pattern rest
  | .any :: pattern, text => ∃ first rest, text = first :: rest ∧ Matches fold pattern rest
  | .star :: pattern, text => ∃ front back, text = front ++ back ∧ Matches fold pattern back

/-- A fragment is at the front of a text. -/
def Occurs (fold : α -> β) (fragment text : List α) : Prop :=
  (text.take fragment.length).map fold = fragment.map fold

instance [DecidableEq β] (fold : α -> β) (fragment text : List α) :
    Decidable (Occurs fold fragment text) :=
  inferInstanceAs (Decidable (_ = _))

/-- The number of characters that a pattern needs. -/
def leastLength : List (Token α) -> Nat
  | [] => 0
  | .char _ :: pattern => leastLength pattern + 1
  | .any :: pattern => leastLength pattern + 1
  | .star :: pattern => leastLength pattern

variable {fold : α -> β} {fragment text front back : List α} {pattern : List (Token α)}

theorem Occurs.length_le (occurs : Occurs fold fragment text) : fragment.length <= text.length := by
  have same := congrArg length occurs
  rw [length_map, length_map, length_take] at same
  omega

theorem occurs_cons : Occurs fold (unit :: fragment) (first :: text) ↔
      fold first = fold unit ∧ Occurs fold fragment text := by
  rw [Occurs, length_cons, take_succ_cons, map_cons, map_cons, cons_eq_cons]
  rfl

theorem occurs_self : Occurs fold fragment (fragment ++ text) := by
  rw [Occurs, take_left]

theorem matches_chars : Matches fold (fragment.map .char ++ pattern) text ↔
      Occurs fold fragment text ∧ Matches fold pattern (text.drop fragment.length) := by
  induction fragment generalizing text with
  | nil => simp [Occurs]
  | cons unit fragment ih =>
    constructor
    · rintro ⟨first, rest, rfl, same, isMatch⟩
      obtain ⟨occurs, isRest⟩ := ih.mp isMatch
      exact ⟨occurs_cons.mpr ⟨same, occurs⟩, isRest⟩
    · rintro ⟨occurs, isMatch⟩
      cases text with
      | nil =>
        have room := occurs.length_le
        cases room
      | cons first rest =>
        obtain ⟨same, occursRest⟩ := occurs_cons.mp occurs
        exact ⟨first, rest, rfl, same, ih.mpr ⟨occursRest, isMatch⟩⟩

theorem matches_anys {n : Nat} : Matches fold (List.replicate n .any ++ pattern) text ↔
      n <= text.length ∧ Matches fold pattern (text.drop n) := by
  induction n generalizing text with
  | zero => simp
  | succ n ih =>
    constructor
    · rintro ⟨first, rest, rfl, isMatch⟩
      obtain ⟨room, isRest⟩ := ih.mp isMatch
      exact ⟨Nat.succ_le_succ room, isRest⟩
    · rintro ⟨room, isMatch⟩
      cases text with
      | nil => cases room
      | cons first rest => exact ⟨first, rest, rfl, ih.mpr ⟨Nat.le_of_succ_le_succ room, isMatch⟩⟩

theorem matches_star : Matches fold (.star :: pattern) text ↔
      ∃ skipped, Matches fold pattern (text.drop skipped) := by
  constructor
  · rintro ⟨front, back, rfl, isMatch⟩
    exact ⟨front.length, by rwa [drop_left]⟩
  · rintro ⟨skipped, isMatch⟩
    exact ⟨text.take skipped, text.drop skipped, (take_append_drop _ _).symm, isMatch⟩

/-- More characters in front of a wildcard make no difference. -/
theorem Matches.star_of_drop (isMatch : Matches fold (.star :: pattern) (text.drop skipped)) :
    Matches fold (.star :: pattern) text := by
  obtain ⟨further, isRest⟩ := matches_star.mp isMatch
  rw [drop_drop] at isRest
  exact matches_star.mpr ⟨_, isRest⟩

/-- The leftmost occurrence of a fragment between two wildcards is enough. -/
theorem matches_star_chars_star (occurs : Occurs fold fragment (text.drop skipped))
    (leftmost : ∀ earlier < skipped, ¬ Occurs fold fragment (text.drop earlier)) :
    Matches fold (.star :: (fragment.map .char ++ .star :: pattern)) text ↔
      Matches fold (.star :: pattern) (text.drop (skipped + fragment.length)) := by
  rw [matches_star]
  constructor
  · rintro ⟨other, isMatch⟩
    obtain ⟨isOther, isRest⟩ := matches_chars.mp isMatch
    rw [drop_drop] at isRest
    have behind : skipped <= other := by
      by_contra before
      exact leftmost other (by omega) isOther
    refine @Matches.star_of_drop _ _ _ _ _ (other - skipped) ?_
    rw [drop_drop]
    rwa [show skipped + fragment.length + (other - skipped) = other + fragment.length by omega]
  · intro isMatch
    refine ⟨skipped, matches_chars.mpr ⟨occurs, ?_⟩⟩
    rwa [drop_drop]

theorem not_matches_star_chars (never : ∀ skipped, ¬ Occurs fold fragment (text.drop skipped)) :
    ¬ Matches fold (.star :: (fragment.map .char ++ pattern)) text := by
  intro isMatch
  obtain ⟨skipped, isRest⟩ := matches_star.mp isMatch
  exact never skipped (matches_chars.mp isRest).1

/-- A fragment behind the last wildcard is at the end of the text. -/
theorem matches_star_suffix : Matches fold (.star :: fragment.map .char) text ↔
      fragment.length <= text.length ∧
        Occurs fold fragment (text.drop (text.length - fragment.length)) := by
  rw [matches_star]
  have isEnd : ∀ skipped, Matches fold (fragment.map .char) (text.drop skipped) ↔
      Occurs fold fragment (text.drop skipped) ∧ (text.drop skipped).length <= fragment.length := by
    intro skipped
    have atEnd : Matches fold (fragment.map .char ++ []) (text.drop skipped) ↔ _ := matches_chars
    rw [append_nil] at atEnd
    rw [atEnd, Matches, drop_eq_nil_iff]
  constructor
  · rintro ⟨skipped, isMatch⟩
    obtain ⟨occurs, short⟩ := (isEnd skipped).mp isMatch
    have long := occurs.length_le
    rw [length_drop] at short long
    refine ⟨by omega, ?_⟩
    by_cases within : skipped <= text.length
    · rwa [show text.length - fragment.length = skipped by omega]
    · rw [drop_eq_nil_of_le (by omega)] at occurs ⊢
      exact occurs
  · rintro ⟨room, occurs⟩
    refine ⟨_, (isEnd _).mpr ⟨occurs, ?_⟩⟩
    rw [length_drop]
    omega

theorem matches_stars : Matches fold [.star] text := ⟨text, [], (append_nil _).symm, rfl⟩

theorem leastLength_chars :
    leastLength (fragment.map .char ++ pattern) = fragment.length + leastLength pattern := by
  induction fragment with
  | nil => simp
  | cons unit fragment ih =>
    rw [map_cons, cons_append, leastLength, ih, length_cons]
    omega

theorem leastLength_anys (n : Nat) :
    leastLength (List.replicate n .any ++ pattern) = n + leastLength pattern := by
  induction n with
  | zero => simp
  | succ n ih =>
    rw [replicate_succ, cons_append, leastLength, ih]
    omega

/-- A text that matches is long enough. -/
theorem Matches.leastLength_le (isMatch : Matches fold pattern text) :
    leastLength pattern <= text.length := by
  induction pattern generalizing text with
  | nil => exact Nat.zero_le _
  | cons token pattern ih =>
    cases token with
    | char unit =>
      obtain ⟨first, rest, rfl, -, isRest⟩ := isMatch
      exact Nat.succ_le_succ (ih isRest)
    | any =>
      obtain ⟨first, rest, rfl, isRest⟩ := isMatch
      exact Nat.succ_le_succ (ih isRest)
    | star =>
      obtain ⟨front, back, rfl, isRest⟩ := isMatch
      have room := ih isRest
      rw [length_append]
      exact Nat.le_add_left_of_le room

/-- A text that matches ends with the last character of the pattern. -/
theorem Matches.last_char (isMatch : Matches fold (pattern ++ [.char unit]) text) :
    ∃ front last, text = front ++ [last] ∧ fold last = fold unit := by
  induction pattern generalizing text with
  | nil =>
    obtain ⟨first, rest, rfl, same, rfl⟩ := isMatch
    exact ⟨[], first, rfl, same⟩
  | cons token pattern ih =>
    cases token with
    | char other =>
      obtain ⟨first, rest, rfl, -, isRest⟩ := isMatch
      obtain ⟨front, last, rfl, same⟩ := ih isRest
      exact ⟨first :: front, last, rfl, same⟩
    | any =>
      obtain ⟨first, rest, rfl, isRest⟩ := isMatch
      obtain ⟨front, last, rfl, same⟩ := ih isRest
      exact ⟨first :: front, last, rfl, same⟩
    | star =>
      obtain ⟨before, back, rfl, isRest⟩ := isMatch
      obtain ⟨front, last, rfl, same⟩ := ih isRest
      exact ⟨before ++ front, last, (append_assoc _ _ _).symm, same⟩

/-- What is in front of a fragment. -/
inductive Gap
  | skip (count : Nat)
  | star
deriving DecidableEq

/-- A fragment without wildcards, behind those in front of it. -/
structure Segment (α : Type) where
  gap : Gap
  fragment : List α
deriving DecidableEq

def Gap.tokens : Gap -> List (Token α)
  | .skip count => List.replicate count .any
  | .star => [.star]

def Segment.tokens (seg : Segment α) : List (Token α) :=
  seg.gap.tokens ++ seg.fragment.map .char

/-- A short text that matches a segment. -/
def Segment.sample (filler : α) (seg : Segment α) : List α :=
  (match seg.gap with
    | .skip count => List.replicate count filler
    | .star => []) ++ seg.fragment

/-- A short text that matches some segments matches them in front of a pattern. -/
theorem matches_samples {segs : List (Segment α)} (isMatch : Matches fold pattern text) :
    Matches fold (segs.flatMap Segment.tokens ++ pattern)
      (segs.flatMap (Segment.sample filler) ++ text) := by
  induction segs with
  | nil => exact isMatch
  | cons seg segs ih =>
    have behindGap : Matches fold (seg.fragment.map .char ++
        (segs.flatMap Segment.tokens ++ pattern))
          (seg.fragment ++ (segs.flatMap (Segment.sample filler) ++ text)) := by
      refine matches_chars.mpr ⟨occurs_self, ?_⟩
      rwa [drop_left]
    rw [flatMap_cons, flatMap_cons, Segment.tokens, Segment.sample]
    simp only [append_assoc]
    cases seg.gap with
    | skip count =>
      refine matches_anys.mpr ⟨?_, ?_⟩
      · rw [length_append, length_replicate]
        exact Nat.le_add_right _ _
      · dsimp only
        rw [drop_left' (length_replicate)]
        exact behindGap
    | star => exact ⟨[], _, rfl, behindGap⟩

/-- A sample is as long as what matches has to be. -/
theorem length_samples (filler : α) (segs : List (Segment α)) :
    (segs.flatMap (Segment.sample filler)).length =
      leastLength (segs.flatMap Segment.tokens) := by
  induction segs with
  | nil => rfl
  | cons seg segs ih =>
    rw [flatMap_cons, flatMap_cons, length_append, ih, Segment.tokens, Segment.sample]
    simp only [append_assoc, length_append]
    cases seg.gap with
    | skip count =>
      rw [Gap.tokens, leastLength_anys, leastLength_chars]
      simp only [length_replicate]
      omega
    | star =>
      rw [Gap.tokens, singleton_append, leastLength, leastLength_chars]
      simp

end Glob

/-!
## Searching for the fragments of a pattern

The fragments of a pattern are searched one behind the other, without going
back. That decides a match if no wildcard for one character is behind one for
any number of them.
-/

namespace Glob

/-- Where a fragment is looked for. -/
inductive Anchor
  | at_ (skipped : Nat)
  | exact_
  | forward
  | toEnd
deriving DecidableEq

variable {α β : Type} [DecidableEq β]

/-- The number of characters up to the end of a fragment that is found. -/
def consumed (fold : α -> β) (anchor : Anchor) (fragment text : List α) : Option Nat :=
  match anchor with
  | .at_ skipped =>
    if Occurs fold fragment (text.drop skipped) then some (skipped + fragment.length)
    else none
  | .exact_ =>
    if text.length = fragment.length ∧ Occurs fold fragment text then some fragment.length
    else none
  | .forward =>
    ((List.range text.length).find? fun skipped =>
      Occurs fold fragment (text.drop skipped)).map (· + fragment.length)
  | .toEnd =>
    if fragment.length <= text.length ∧
        Occurs fold fragment (text.drop (text.length - fragment.length)) then
      some text.length
    else none

/-- All fragments are found, one behind the other. -/
def accepts (fold : α -> β) : List (Anchor × List α) -> List α -> Prop
  | [], _ => True
  | test :: tests, text =>
    ∃ count, consumed fold test.1 test.2 text = some count ∧ accepts fold tests (text.drop count)

variable {fold : α -> β}

theorem consumed_at {skipped n : Nat} :
    consumed fold (.at_ skipped) fragment text = some n ↔
      Occurs fold fragment (text.drop skipped) ∧ skipped + fragment.length = n := by
  simp [consumed, ite_none_right_eq_some]

theorem consumed_exact {n : Nat} : consumed fold .exact_ fragment text = some n ↔
      (text.length = fragment.length ∧ Occurs fold fragment text) ∧ fragment.length = n := by
  simp [consumed, ite_none_right_eq_some]

theorem consumed_toEnd {n : Nat} :
    consumed fold .toEnd fragment text = some n ↔ (fragment.length <= text.length ∧
        Occurs fold fragment (text.drop (text.length - fragment.length))) ∧
        text.length = n := by
  simp [consumed, ite_none_right_eq_some]

theorem consumed_forward {n : Nat} : consumed fold .forward fragment text = some n ↔
      ∃ skipped < text.length, Occurs fold fragment (text.drop skipped) ∧
        (∀ earlier < skipped, ¬ Occurs fold fragment (text.drop earlier)) ∧
          skipped + fragment.length = n := by
  simp only [consumed, map_eq_some_iff, List.find?_range_eq_some,
    decide_eq_true_eq, mem_range, Bool.not_eq_true', decide_eq_false_iff_not]
  constructor
  · rintro ⟨skipped, ⟨occurs, inside, leftmost⟩, same⟩
    exact ⟨skipped, inside, occurs, leftmost, same⟩
  · rintro ⟨skipped, inside, occurs, leftmost, same⟩
    exact ⟨skipped, ⟨occurs, inside, leftmost⟩, same⟩

theorem consumed_forward_eq_none (ne : fragment ≠ [])
    (isNone : consumed fold .forward fragment text = none) (skipped : Nat) :
    ¬ Occurs fold fragment (text.drop skipped) := by
  intro occurs
  have room := occurs.length_le
  have := length_pos_of_ne_nil ne
  rw [length_drop] at room
  simp only [consumed, map_eq_none_iff, List.find?_eq_none, mem_range, decide_eq_true_eq] at isNone
  exact isNone skipped (by omega) occurs

/-- A fragment behind some characters. -/
theorem accepts_at_cons (ne : fragment ≠ [])
    (isRest : ∀ rest, accepts fold tests rest ↔ Matches fold pattern rest) (text : List α) :
    accepts fold ((.at_ skipped, fragment) :: tests) text ↔
      Matches fold (List.replicate skipped .any ++ (fragment.map .char ++ pattern)) text := by
  rw [matches_anys, matches_chars, accepts, drop_drop]
  constructor
  · rintro ⟨n, hit, ok⟩
    obtain ⟨occurs, rfl⟩ := consumed_at.mp hit
    have room : fragment.length <= (text.drop skipped).length := occurs.length_le
    have := length_pos_of_ne_nil ne
    rw [length_drop] at room
    exact ⟨by omega, occurs, (isRest _).mp ok⟩
  · rintro ⟨-, occurs, isMatch⟩
    exact ⟨_, consumed_at.mpr ⟨occurs, rfl⟩, (isRest _).mpr isMatch⟩

theorem accepts_forward_cons (ne : fragment ≠ [])
    (isRest : ∀ rest, accepts fold tests rest ↔ Matches fold (.star :: pattern) rest) :
    accepts fold ((.forward, fragment) :: tests) text ↔
      Matches fold (.star :: (fragment.map .char ++ .star :: pattern)) text := by
  rw [accepts]
  cases found : consumed fold .forward fragment text with
  | none =>
    have never := @not_matches_star_chars _ _ _ _ _ (.star :: pattern)
      (consumed_forward_eq_none ne found)
    constructor
    · rintro ⟨n, isSome, -⟩
      cases isSome
    · intro isMatch
      exact absurd isMatch never
  | some n =>
    obtain ⟨skipped, -, occurs, leftmost, rfl⟩ := consumed_forward.mp found
    rw [matches_star_chars_star occurs leftmost, ← isRest]
    constructor
    · rintro ⟨other, same, ok⟩
      rw [← some.inj same] at ok
      exact ok
    · intro ok
      exact ⟨_, rfl, ok⟩

theorem accepts_toEnd (text : List α) : accepts fold [(.toEnd, fragment)] text ↔
      Matches fold (.star :: fragment.map .char) text := by
  rw [matches_star_suffix, accepts]
  constructor
  · rintro ⟨n, hit, -⟩
    exact (consumed_toEnd.mp hit).1
  · intro isEnd
    exact ⟨_, consumed_toEnd.mpr ⟨isEnd, rfl⟩, trivial⟩

theorem accepts_exact : accepts fold [(.exact_, fragment)] text ↔
      Matches fold (fragment.map .char) text := by
  have isMatch : Matches fold (fragment.map .char ++ []) text ↔ _ := matches_chars
  rw [append_nil] at isMatch
  rw [isMatch, accepts, Matches, drop_eq_nil_iff]
  constructor
  · rintro ⟨n, hit, -⟩
    obtain ⟨⟨length, occurs⟩, -⟩ := consumed_exact.mp hit
    exact ⟨occurs, Nat.le_of_eq length⟩
  · rintro ⟨occurs, short⟩
    exact ⟨_, consumed_exact.mpr ⟨⟨Nat.le_antisymm short occurs.length_le, occurs⟩, rfl⟩, trivial⟩

/-- Where the fragment behind some wildcards is looked for. -/
def Gap.anchor : Gap -> Anchor
  | .skip count => .at_ count
  | .star => .forward

/-- A segment of a sample is found at once. -/
theorem consumed_sample {seg : Segment α} (ne : seg.fragment ≠ []) :
    consumed fold seg.gap.anchor seg.fragment (seg.sample filler ++ text) =
      some (seg.sample filler).length := by
  obtain ⟨gap, fragment⟩ := seg
  rw [Segment.sample]
  cases gap with
  | skip count =>
    dsimp only [Gap.anchor]
    rw [consumed_at, append_assoc, drop_left' length_replicate]
    exact ⟨occurs_self, by simp⟩
  | star =>
    dsimp only [Gap.anchor]
    rw [consumed_forward]
    refine ⟨0, ?_, occurs_self, fun _ earlier => absurd earlier (Nat.not_lt_zero _), by simp⟩
    have long : 0 < fragment.length := length_pos_of_ne_nil ne
    rw [nil_append, length_append]
    omega

end Glob

end Chromium.Library
