import Chromium.Sandbox.PolicyLowLevel

/-!
# Segments of a pattern

The fragments of a pattern that is accepted are compiled one by one, each with
the wildcards in front of it.
-/

namespace Chromium.Sandbox

open List Option

section

open Library Library.Glob

/-- The tokens of a pattern; a slash in front of a question mark escapes it. -/
def patternTokens : WString -> List (Token WChar)
  | [] => []
  | current_char :: string =>
    if current_char = asteriskChar then .star :: patternTokens string
    else if current_char = questionChar then .any :: patternTokens string
    else
      match string with
      | next_char :: rest =>
        if current_char = slashChar ∧ next_char = questionChar then
          .char next_char :: patternTokens rest
        else .char current_char :: patternTokens (next_char :: rest)
      | [] => [.char current_char]

/-- One more skipped character. -/
def skipMore : Gap -> Gap
  | .skip count => .skip (count + 1)
  | .star => .skip 1

/-- The segments of a pattern, of which the first has begun. -/
def splitSegments (gap : Gap) (fragment : WString) : List (Token WChar) -> List (Segment WChar)
  | [] => [⟨gap, fragment⟩]
  | .char unit :: tokens => splitSegments gap (fragment ++ [unit]) tokens
  | .any :: tokens =>
    if fragment = [] then splitSegments (skipMore gap) [] tokens
    else ⟨gap, fragment⟩ :: splitSegments (.skip 1) [] tokens
  | .star :: tokens =>
    if fragment = [] then splitSegments .star [] tokens
    else ⟨gap, fragment⟩ :: splitSegments .star [] tokens

/-- The segments of a pattern. -/
def patternSegments (string : WString) : List (Segment WChar) :=
  splitSegments (.skip 0) [] (patternTokens string)

/-- Where the opcode of a segment looks for the fragment. The position of the end
is also that of a number of skipped characters. -/
def segmentAnchor (last : Bool) : Gap -> Anchor
  | .star => if last then .toEnd else .forward
  | .skip count =>
    if (count : Int) = kSeekToEnd then .toEnd
    else if last = true ∧ count = 0 then .exact_
    else .at_ count

def segmentOpcode (rule_type : RuleType) (param : Nat) (ci : Bool) (last : Bool)
    (segment : Segment WChar) :
    PolicyOpcode where
  opcode := .wStringMatch segment.fragment (anchorStart (segmentAnchor last segment.gap))
    (anchorOptions ci (segmentAnchor last segment.gap))
  parameter_ := some param
  options_ := PolicyRule.stringOptions rule_type last

/-- The options of the last of some opcodes are set. -/
def setLastOptions (options : PolOptions) (opcodes : List PolicyOpcode) : List PolicyOpcode :=
  match opcodes.getLast? with
  | none => opcodes
  | some op => opcodes.dropLast ++ [{ op with options_ := options }]

/-- The opcodes of segments, behind others. -/
def compileSegments (rule_type : RuleType) (param : Nat) (ci : Bool) :
    List PolicyOpcode -> List (Segment WChar) -> List PolicyOpcode
  | opcodes, [] => opcodes
  | opcodes, [last] =>
    if last.fragment = [] then setLastOptions (PolicyRule.stringOptions rule_type true) opcodes
    else opcodes ++ [segmentOpcode rule_type param ci true last]
  | opcodes, segment :: next :: segs =>
    compileSegments rule_type param ci
      (opcodes ++ [segmentOpcode rule_type param ci false segment])
      (next :: segs)

/-- Only the last of some segments may be without a fragment. -/
def Proper : List (Segment WChar) -> Prop
  | [] => False
  | [_] => True
  | segment :: next :: segs => segment.fragment ≠ [] ∧ Proper (next :: segs)

def stateOf : Gap -> PendingState
  | .star => .asterisk
  | .skip 0 => .none_
  | .skip (_ + 1) => .qmark

def skipOf : Gap -> Int
  | .star => 0
  | .skip count => count

def lastOf (gap : Gap) (fragment : WString) : LastChar :=
  if fragment = [] then
    match gap with
    | .star => .asterisk
    | .skip 0 => .none_
    | .skip (_ + 1) => .questionM
  else .alpha

variable {rule_type : RuleType} {param : Nat} {ci : Bool}
  {rule made : PolicyRule} {gap : Gap} {fragment : WString}

theorem splitSegments_ne_nil {tokens : List (Token WChar)}
    : splitSegments gap fragment tokens ≠ [] := by
  induction tokens generalizing gap fragment with
  | nil => exact cons_ne_nil _ _
  | cons token tokens ih =>
    cases token with
    | char unit => exact ih
    | any =>
      rw [splitSegments]
      split
      · exact ih
      · exact cons_ne_nil _ _
    | star =>
      rw [splitSegments]
      split
      · exact ih
      · exact cons_ne_nil _ _

theorem compileSegments_cons (segment : Segment WChar) (more : segs ≠ []) :
    compileSegments rule_type param ci opcodes (segment :: segs) =
      compileSegments rule_type param ci
        (opcodes ++ [segmentOpcode rule_type param ci false segment])
        segs := by
  cases segs with
  | nil => exact absurd rfl more
  | cons next segs => rfl

theorem proper_cons {segment : Segment WChar} (more : segs ≠ []) :
    Proper (segment :: segs) ↔ segment.fragment ≠ [] ∧ Proper segs := by
  cases segs with
  | nil => exact absurd rfl more
  | cons next segs => rfl

/-- A rule is as it was but for its opcodes and its memory. -/
structure SameRule (rule made : PolicyRule) : Prop where
  action : made.action_ = rule.action_
  isDone : made.done_ = rule.done_

theorem makeBase_eq_some (isMade : rule.makeBase opcode options selected_param = some made) :
    made.opcodes = rule.opcodes ++ [⟨opcode, selected_param, options⟩] ∧ SameRule rule made := by
  rw [PolicyRule.makeBase] at isMade
  split at isMade
  · cases isMade
  · cases isMade
    exact ⟨rfl, rfl, rfl⟩

theorem makeOpWStringMatch_eq_some
    (isMade : rule.makeOpWStringMatch param fragment start_position match_opts
      options = some made) :
    made.opcodes = rule.opcodes ++
        [⟨.wStringMatch fragment start_position match_opts, some param, options⟩] ∧
      SameRule rule made := by
  rw [PolicyRule.makeOpWStringMatch] at isMade
  split at isMade
  · cases isMade
  · obtain ⟨base, isBase, isRest⟩ := bind_eq_some_iff.mp isMade
    dsimp only at isRest
    split at isRest
    · cases isRest
    · cases isRest
      obtain ⟨isOpcodes, same⟩ := makeBase_eq_some isBase
      exact ⟨isOpcodes, same.action, same.isDone⟩

theorem setLastOptions_eq (rule : PolicyRule) :
    (rule.setLastOptions options).opcodes = setLastOptions options rule.opcodes ∧
      SameRule rule (rule.setLastOptions options) := by
  rw [PolicyRule.setLastOptions, setLastOptions]
  cases rule.opcodes.getLast? with
  | none => exact ⟨rfl, rfl, rfl⟩
  | some op => exact ⟨rfl, rfl, rfl⟩

/-- A fragment makes the opcode of its segment. -/
theorem genStringOpcode_eq_some (ne : fragment ≠ [])
    (isMade : rule.genStringOpcode rule_type ⟨ci, false⟩ param
      (stateOf gap) last_call (skipOf gap) fragment = some (made, skip_count, left)) :
    made.opcodes = rule.opcodes ++ [segmentOpcode rule_type param ci
        last_call ⟨gap, fragment⟩] ∧ SameRule rule made ∧ skip_count = 0 ∧ left = [] := by
  have isCons : fragment.isEmpty = false := isEmpty_eq_false_iff.mpr ne
  rw [PolicyRule.genStringOpcode.eq_def] at isMade
  rw [isCons, if_neg Bool.false_ne_true] at isMade
  cases gap with
  | star =>
    obtain ⟨next, isNext, same⟩ := bind_eq_some_iff.mp isMade
    cases same
    obtain ⟨isOpcodes, sameRule⟩ := makeOpWStringMatch_eq_some isNext
    refine ⟨isOpcodes.trans ?_, sameRule, rfl, rfl⟩
    cases last_call with
    | true => rfl
    | false => rfl
  | skip n =>
    cases n with
    | zero =>
      obtain ⟨next, isNext, same⟩ := bind_eq_some_iff.mp isMade
      cases same
      obtain ⟨isOpcodes, sameRule⟩ := makeOpWStringMatch_eq_some isNext
      refine ⟨isOpcodes.trans ?_, sameRule, rfl, rfl⟩
      cases last_call with
      | true => rfl
      | false => rfl
    | succ n =>
      obtain ⟨next, isNext, same⟩ := bind_eq_some_iff.mp isMade
      cases same
      obtain ⟨isOpcodes, sameRule⟩ := makeOpWStringMatch_eq_some isNext
      refine ⟨isOpcodes.trans ?_, sameRule, rfl, rfl⟩
      rw [segmentOpcode, segmentAnchor]
      have isSkip : skipOf (.skip (n + 1)) = ((n + 1 : Nat) : Int) := rfl
      by_cases collides : ((n + 1 : Nat) : Int) = kSeekToEnd
      · rw [if_pos collides, isSkip, collides]
        rfl
      · rw [if_neg collides, if_neg (by simp), isSkip]
        rfl

/-- What the loop makes of the rest of a pattern. -/
structure Compiles (rule_type : RuleType) (param : Nat) (ci : Bool)
    (gap : Gap) (fragment : WString) (tokens : List (Token WChar))
    (rule made : PolicyRule) :
    Prop where
  opcodes : made.opcodes = compileSegments rule_type param ci
    rule.opcodes (splitSegments gap fragment tokens)
  same : SameRule rule made
  proper : Proper (splitSegments gap fragment tokens)
  tokens : (splitSegments gap fragment tokens).flatMap Segment.tokens =
    gap.tokens ++ (fragment.map .char ++ tokens)

theorem lastOf_append : lastOf gap (fragment ++ [unit]) = .alpha := by
  rw [lastOf.eq_def, if_neg (by simp)]

variable {tokens : List (Token WChar)}

theorem Compiles.segment {next : PolicyRule} (ne : fragment ≠ [])
    (isSplit : splitSegments gap fragment (wild :: tokens) =
      ⟨gap, fragment⟩ :: splitSegments gapNext [] tokens) (isGap : gapNext.tokens = [wild])
    (isMade : next.opcodes = rule.opcodes ++
      [segmentOpcode rule_type param ci false ⟨gap, fragment⟩])
    (same : SameRule rule next)
    (compiles : Compiles rule_type param ci gapNext [] tokens next made) :
    Compiles rule_type param ci gap fragment (wild :: tokens) rule made where
  opcodes := by
    rw [isSplit, compileSegments_cons _ splitSegments_ne_nil, compiles.opcodes, isMade]
  same := ⟨compiles.same.action.trans same.action, compiles.same.isDone.trans same.isDone⟩
  proper := by
    rw [isSplit, proper_cons splitSegments_ne_nil]
    exact ⟨ne, compiles.proper⟩
  tokens := by
    rw [isSplit, flatMap_cons, compiles.tokens, isGap, Segment.tokens]
    simp

/-- Wildcards in front of a fragment are taken together. -/
theorem Compiles.merge
    (isSplit : splitSegments gap [] (wild :: tokens) = splitSegments gapNext [] tokens)
    (isGap : gapNext.tokens = gap.tokens ++ [wild])
    (compiles : Compiles rule_type param ci gapNext [] tokens rule made) :
    Compiles rule_type param ci gap [] (wild :: tokens) rule made where
  opcodes := by rw [isSplit, compiles.opcodes]
  same := compiles.same
  proper := by
    rw [isSplit]
    exact compiles.proper
  tokens := by
    rw [isSplit, compiles.tokens, isGap]
    simp

theorem Compiles.char (compiles : Compiles rule_type param ci gap (fragment ++ [unit])
      tokens rule made) :
    Compiles rule_type param ci gap fragment (.char unit :: tokens) rule made where
  opcodes := compiles.opcodes
  same := compiles.same
  proper := compiles.proper
  tokens := by
    rw [splitSegments, compiles.tokens]
    simp

theorem addStringLoop_nil
    (isMade : PolicyRule.addStringLoop rule_type param ⟨ci, false⟩
      [] rule (lastOf gap fragment) (stateOf gap) (skipOf gap) fragment = some made) :
    Compiles rule_type param ci gap fragment [] rule made := by
  obtain ⟨⟨next, skip_count, left⟩, isNext, same⟩ := bind_eq_some_iff.mp isMade
  cases same
  have isTokens : (splitSegments gap fragment []).flatMap Segment.tokens =
      gap.tokens ++ (fragment.map .char ++ []) := by
    simp [splitSegments, Segment.tokens]
  by_cases isEmpty : fragment = []
  · subst isEmpty
    cases isNext
    obtain ⟨isOpcodes, sameRule⟩ := setLastOptions_eq rule
    exact ⟨isOpcodes, sameRule, trivial, isTokens⟩
  · obtain ⟨isOpcodes, sameRule, -, -⟩ := genStringOpcode_eq_some isEmpty isNext
    refine ⟨isOpcodes.trans ?_, sameRule, trivial, isTokens⟩
    rw [splitSegments, compileSegments, if_neg isEmpty]

/-- The loop compiles the segments of a pattern that it accepts. -/
theorem addStringLoop_compiles
    (isMade : PolicyRule.addStringLoop rule_type param ⟨ci, false⟩
      string rule (lastOf gap fragment) (stateOf gap) (skipOf gap) fragment = some made) :
    Compiles rule_type param ci gap fragment (patternTokens string) rule made := by
  induction string using patternTokens.induct generalizing rule gap fragment with
  | case1 => exact addStringLoop_nil isMade
  | case2 string ih =>
    rw [PolicyRule.addStringLoop.eq_def] at isMade
    dsimp only at isMade
    rw [if_pos rfl] at isMade
    rw [patternTokens.eq_def]
    dsimp only
    split at isMade
    · cases isMade
    rename_i notWild
    obtain ⟨⟨next, skip_count, left⟩, isNext, isRest⟩ := bind_eq_some_iff.mp isMade
    by_cases isEmpty : fragment = []
    · subst isEmpty
      cases isNext
      cases gap with
      | star => exact absurd rfl notWild
      | skip n =>
        cases n with
        | succ n => exact absurd rfl notWild
        | zero =>
          have compiles : Compiles rule_type param ci .star []
              (patternTokens string) _ made := ih isRest
          exact compiles.merge rfl rfl
    · obtain ⟨isOpcodes, sameRule, rfl, rfl⟩ := genStringOpcode_eq_some isEmpty isNext
      have compiles : Compiles rule_type param ci .star []
          (patternTokens string) _ made := ih isRest
      apply compiles.segment isEmpty _ rfl isOpcodes sameRule
      rw [splitSegments, if_neg isEmpty]
  | case3 string notAsterisk ih =>
    rw [PolicyRule.addStringLoop.eq_def] at isMade
    dsimp only at isMade
    rw [if_neg notAsterisk, if_pos rfl] at isMade
    rw [patternTokens.eq_def]
    dsimp only
    split at isMade
    · cases isMade
    rename_i notBehind
    obtain ⟨⟨next, skip_count, left⟩, isNext, isRest⟩ := bind_eq_some_iff.mp isMade
    by_cases isEmpty : fragment = []
    · subst isEmpty
      cases isNext
      cases gap with
      | star => exact absurd rfl notBehind
      | skip n =>
        have compiles : Compiles rule_type param ci
            (.skip (n + 1)) [] (patternTokens string) _ made :=
          ih isRest
        apply compiles.merge rfl
        rw [Gap.tokens, Gap.tokens, replicate_succ']
    · obtain ⟨isOpcodes, sameRule, rfl, rfl⟩ := genStringOpcode_eq_some isEmpty isNext
      have compiles : Compiles rule_type param ci (.skip 1) []
          (patternTokens string) _ made := ih isRest
      apply compiles.segment isEmpty _ rfl isOpcodes sameRule
      rw [splitSegments, if_neg isEmpty]
  | case4 current_char notAsterisk notQuestion next_char rest isEscape ih =>
      rw [PolicyRule.addStringLoop.eq_def] at isMade
      dsimp only at isMade
      rw [if_neg notAsterisk, if_neg notQuestion, if_pos isEscape] at isMade
      rw [patternTokens.eq_def]
      dsimp only
      rw [if_neg notAsterisk, if_neg notQuestion, if_pos isEscape]
      rw [← lastOf_append] at isMade
      exact (ih isMade).char
  | case5 current_char notAsterisk notQuestion next_char rest notEscape ih =>
      rw [PolicyRule.addStringLoop.eq_def] at isMade
      dsimp only at isMade
      rw [if_neg notAsterisk, if_neg notQuestion, if_neg notEscape] at isMade
      rw [patternTokens.eq_def]
      dsimp only
      rw [if_neg notAsterisk, if_neg notQuestion, if_neg notEscape]
      rw [← lastOf_append] at isMade
      exact (ih isMade).char
  | case6 current_char notAsterisk notQuestion =>
    rw [PolicyRule.addStringLoop.eq_def] at isMade
    dsimp only at isMade
    rw [if_neg notAsterisk, if_neg notQuestion] at isMade
    rw [patternTokens.eq_def]
    dsimp only
    rw [if_neg notAsterisk, if_neg notQuestion]
    exact (addStringLoop_nil isMade).char

/-- A pattern that is accepted is compiled by its segments. -/
theorem addStringMatch_compiles (ok : rule.addStringMatch rule_type param string
      ⟨ci, false⟩ = some made) :
    Compiles rule_type param ci (.skip 0) [] (patternTokens string) rule made := by
  rw [PolicyRule.addStringMatch] at ok
  split at ok
  · cases ok
  · exact addStringLoop_compiles ok

end

/-!
## What a pattern matches

The tests of a pattern decide its language if no question mark is behind an
asterisk, and an asterisk is behind the last question mark.
-/

section

open Library Library.Glob

/-- The tests of the opcodes of segments. -/
def patternTests : List (Segment WChar) -> List (Anchor × WString)
  | [] => []
  | [last] =>
    if last.fragment = [] then []
    else [(segmentAnchor true last.gap, last.fragment)]
  | segment :: next :: segs =>
    (segmentAnchor false segment.gap, segment.fragment) :: patternTests (next :: segs)

/-- A number of skipped characters is not taken for the position of the end. -/
def Gap.Plain (gap : Gap) : Prop := ∀ count, gap = .skip count -> (count : Int) ≠ kSeekToEnd

/-- A pattern is read as it is meant: it is without wildcards and not empty, or no
question mark is behind an asterisk, but an asterisk is behind all others. -/
def Faithful (segs : List (Segment WChar)) : Prop :=
  (∃ fragment, fragment ≠ [] ∧ segs = [⟨.skip 0, fragment⟩]) ∨
    ∃ skips stars, segs = skips ++ stars ∧ stars ≠ [] ∧
      (∀ segment ∈ skips, segment.gap ≠ .star ∧ Gap.Plain segment.gap) ∧
      ∀ segment ∈ stars, segment.gap = .star

variable {fold : WChar -> WChar}

theorem patternTests_cons {segment : Segment WChar} (more : segs ≠ []) :
    patternTests (segment :: segs) =
      (segmentAnchor false segment.gap, segment.fragment) :: patternTests segs := by
  cases segs with
  | nil => exact absurd rfl more
  | cons next segs => rfl

variable {front : List (Segment WChar)}

theorem patternTests_append (more : segs ≠ []) : patternTests (front ++ segs) =
      front.map (fun segment => (segmentAnchor false segment.gap, segment.fragment)) ++
        patternTests segs := by
  induction front with
  | nil => rfl
  | cons segment front ih =>
    rw [cons_append, patternTests_cons (by simp [more]), ih]
    rfl

theorem segmentAnchor_of_plain (plain : Gap.Plain gap) : segmentAnchor false gap = gap.anchor := by
  cases gap with
  | star => rfl
  | skip count => simp [segmentAnchor, Gap.anchor, plain count rfl]

theorem accepts_stars (proper : Proper segs) (stars : ∀ segment ∈ segs, segment.gap = .star)
    (text : WString) :
    accepts fold (patternTests segs) text ↔
      Matches fold (segs.flatMap Segment.tokens) text := by
  induction segs generalizing text with
  | nil => exact proper.elim
  | cons segment segs ih =>
    have isStar := stars segment mem_cons_self
    cases segs with
    | nil =>
      rw [flatMap_singleton, Segment.tokens, isStar, Gap.tokens, patternTests]
      by_cases isEmpty : segment.fragment = []
      · rw [if_pos isEmpty, isEmpty]
        exact iff_of_true trivial matches_stars
      · rw [if_neg isEmpty, isStar]
        exact accepts_toEnd text
    | cons next segs =>
      have isNext := stars next (mem_cons_of_mem _ mem_cons_self)
      rw [patternTests, isStar, flatMap_cons, Segment.tokens, isStar, Gap.tokens]
      have isRest := fun rest => ih proper.2 ((forall_mem_cons.mp stars).2) rest
      rw [flatMap_cons, Segment.tokens, isNext, Gap.tokens] at isRest ⊢
      exact accepts_forward_cons proper.1 isRest

theorem accepts_skips (more : stars ≠ []) (ne : ∀ segment ∈ skips, segment.fragment ≠ [])
    (isSkip : ∀ segment ∈ skips, segment.gap ≠ .star ∧ Gap.Plain segment.gap)
    (isRest : ∀ rest, accepts fold (patternTests stars) rest ↔
      Matches fold (stars.flatMap Segment.tokens) rest) (text : WString) :
    accepts fold (patternTests (skips ++ stars)) text ↔
      Matches fold ((skips ++ stars).flatMap Segment.tokens) text := by
  induction skips generalizing text with
  | nil => exact isRest text
  | cons segment skips ih =>
    obtain ⟨notStar, plain⟩ := isSkip segment mem_cons_self
    rw [cons_append, patternTests_cons (by simp [more]),
      segmentAnchor_of_plain plain, flatMap_cons, Segment.tokens]
    cases isGap : segment.gap with
    | star => exact absurd isGap notStar
    | skip count =>
      rw [Gap.tokens, append_assoc]
      exact accepts_at_cons (ne segment mem_cons_self) (ih ((forall_mem_cons.mp ne).2)
          (forall_mem_cons.mp isSkip).2) text

theorem proper_append (more : segs ≠ []) : Proper (front ++ segs) ↔
      (∀ segment ∈ front, segment.fragment ≠ []) ∧ Proper segs := by
  induction front with
  | nil => simp
  | cons segment front ih =>
    rw [cons_append, proper_cons (by simp [more]), ih, forall_mem_cons, and_assoc]

/-- The tests of such a pattern decide its language. -/
theorem accepts_of_faithful (proper : Proper segs) (faithful : Faithful segs) :
    accepts fold (patternTests segs) text ↔
      Matches fold (segs.flatMap Segment.tokens) text := by
  rcases faithful with ⟨fragment, ne, rfl⟩ | ⟨skips, stars, rfl, more, isSkip, isStar⟩
  · rw [patternTests, if_neg ne, flatMap_singleton]
    exact accepts_exact
  · obtain ⟨ne, properStars⟩ := (proper_append more).mp proper
    exact accepts_skips more ne isSkip (accepts_stars properStars isStar) text

/-- What is asked of a text that the system passes. -/
def IsWString (text : WString) : Prop := 0 ∉ text

instance (text : WString) : Decidable (IsWString text) := inferInstanceAs (Decidable (0 ∉ text))

/-- The segments in front of others accept their sample. -/
theorem accepts_samples (ne : ∀ segment ∈ front, segment.fragment ≠ [])
    (plain : ∀ segment ∈ front, Gap.Plain segment.gap) :
    accepts fold (front.map (fun segment => (segmentAnchor false segment.gap, segment.fragment)) ++
          tests) (front.flatMap (Segment.sample filler) ++ text) ↔ accepts fold tests text := by
  induction front with
  | nil => rfl
  | cons segment front ih =>
    rw [map_cons, cons_append, accepts, flatMap_cons, append_assoc,
      segmentAnchor_of_plain (plain segment mem_cons_self),
      consumed_sample (ne segment mem_cons_self), ← ih ((forall_mem_cons.mp ne).2)
        (forall_mem_cons.mp plain).2]
    constructor
    · rintro ⟨n, same, ok⟩
      rw [← some.inj same, drop_left] at ok
      exact ok
    · intro ok
      exact ⟨_, rfl, by rwa [drop_left]⟩

end

end Chromium.Sandbox
