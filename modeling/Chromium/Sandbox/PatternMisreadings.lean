import Chromium.Sandbox.PatternLanguage

/-!
# Patterns that are misread

The characters that question marks stand for are not counted at the end of a
pattern, and a fragment behind a question mark is looked for at one place only.
-/

namespace Chromium.Sandbox

open List Option
open Library Library.Glob

/-- The tests of segments and their language differ on a text. -/
def Misread (fold : WChar -> WChar) (segs : List (Segment WChar)) : Prop :=
  ∃ subject, subject ≠ [] ∧ IsWString subject ∧ ¬ (accepts fold (patternTests segs) subject ↔
      Matches fold (segs.flatMap Segment.tokens) subject)

/-- The segments of a pattern that is accepted. -/
structure Wellformed (segs : List (Segment WChar)) : Prop where
  proper : Proper segs
  wild : ∀ seg ∈ segs.tail, seg.gap ≠ .skip 0
  strings : ∀ seg ∈ segs, IsWString seg.fragment

variable {fold : WChar -> WChar} {front back segs : List (Segment WChar)}
  {last seg : Segment WChar} {filler : WChar}

theorem isWString_append : IsWString (text ++ other) ↔ IsWString text ∧ IsWString other := by
  rw [IsWString, mem_append, not_or]
  rfl

theorem isWString_replicate {n : Nat} (ok : filler ≠ 0) :
    IsWString (List.replicate n filler) := by
  intro mem
  exact ok (eq_of_mem_replicate mem).symm

theorem isWString_sample (ok : filler ≠ 0) (isString : IsWString seg.fragment) :
    IsWString (seg.sample filler) := by
  rw [Segment.sample, isWString_append]
  refine ⟨?_, isString⟩
  cases seg.gap with
  | skip count => exact isWString_replicate ok
  | star => exact not_mem_nil

theorem isWString_samples (ok : filler ≠ 0)
    (strings : ∀ seg ∈ segs, IsWString seg.fragment) :
    IsWString (segs.flatMap (Segment.sample filler)) := by
  induction segs with
  | nil => exact not_mem_nil
  | cons seg segs ih =>
    rw [flatMap_cons, isWString_append]
    exact ⟨isWString_sample ok (strings seg mem_cons_self), ih (forall_mem_cons.mp strings).2⟩

theorem sample_ne_nil (ne : seg.fragment ≠ []) : seg.sample filler ≠ [] := by
  exact append_ne_nil_of_right_ne_nil _ ne

theorem samples_ne_nil (mem : seg ∈ segs) (ne : seg.fragment ≠ []) :
    segs.flatMap (Segment.sample filler) ≠ [] := by
  intro isNil
  exact sample_ne_nil ne (flatMap_eq_nil_iff.mp isNil seg mem)

theorem matches_sample (segs : List (Segment WChar)) :
    Matches fold (segs.flatMap Segment.tokens) (segs.flatMap (Segment.sample filler)) := by
  have isMatch : Matches fold (segs.flatMap Segment.tokens ++ [])
      (segs.flatMap (Segment.sample filler) ++ []) :=
    matches_samples rfl
  simpa using isMatch

/-- A text that is shorter than the sample does not match. -/
theorem not_matches_of_short {text : WString}
    (short : text.length < (segs.flatMap (Segment.sample filler)).length) :
    ¬ Matches fold (segs.flatMap Segment.tokens) text := by
  intro isMatch
  have long := isMatch.leastLength_le
  rw [← length_samples filler] at long
  omega

theorem patternTests_ne_nil (ne : ∃ seg ∈ segs, seg.fragment ≠ []) :
    patternTests segs ≠ [] := by
  obtain ⟨seg, mem, notEmpty⟩ := ne
  cases segs with
  | nil => cases mem
  | cons first segs =>
    cases segs with
    | nil =>
      obtain rfl := mem_singleton.mp mem
      rw [patternTests, if_neg notEmpty]
      exact cons_ne_nil _ _
    | cons next segs => exact cons_ne_nil _ _

theorem patternTests_eq_nil (proper : Proper segs)
    (empty : ∀ seg ∈ segs, seg.fragment = []) :
    patternTests segs = [] := by
  cases segs with
  | nil => rfl
  | cons first segs =>
    cases segs with
    | nil => rw [patternTests, if_pos (empty first mem_cons_self)]
    | cons next segs => exact absurd (empty first mem_cons_self) proper.1

theorem fragment_ne_nil_of_mem (proper : Proper segs) :
    ∀ test ∈ patternTests segs, test.2 ≠ [] := by
  induction segs with
  | nil => exact proper.elim
  | cons seg segs ih =>
    cases segs with
    | nil =>
      rw [patternTests]
      split
      · intro test mem
        cases mem
      · rename_i nonempty
        intro test mem
        rw [mem_singleton.mp mem]
        exact nonempty
    | cons next segs =>
      intro test mem
      rcases mem_cons.mp mem with rfl | later
      · exact proper.1
      · exact ih proper.2 test later

/-- Nothing is found behind the end of a text. -/
theorem consumed_nil (ne : fragment ≠ []) : consumed fold anchor fragment [] = none := by
  have long := length_pos_of_ne_nil ne
  have never : ∀ skipped, ¬ Occurs fold fragment (([] : WString).drop skipped) := by
    intro skipped occurs
    have room := occurs.length_le
    rw [drop_nil, length_nil] at room
    omega
  cases anchor with
  | at_ skipped => exact if_neg (never skipped)
  | exact_ => exact if_neg fun hit => never 0 hit.2
  | forward => rfl
  | toEnd => exact if_neg fun hit => never _ hit.2

/-- A number of skipped characters that is taken for the position of the end. -/
theorem misread_of_not_plain (valid : filler ≠ 0) (proper : Proper (front ++ seg :: back))
    (strings : ∀ other ∈ front ++ seg :: back, IsWString other.fragment)
    (plain : ∀ other ∈ front, Gap.Plain other.gap) (notPlain : ¬ Gap.Plain seg.gap)
    (ne : seg.fragment ≠ []) :
    Misread fold (front ++ seg :: back) := by
  obtain ⟨isFront, properBack⟩ := (proper_append (cons_ne_nil _ _)).mp proper
  obtain ⟨n, isGap, isEnd⟩ : ∃ n : Nat, seg.gap = .skip n ∧
      (n : Int) = kSeekToEnd := by
    simpa [Gap.Plain] using notPlain
  have isAnchor : ∀ last, segmentAnchor last seg.gap = .toEnd := by
    intro last
    rw [isGap, segmentAnchor, if_pos isEnd]
  have isSegment := strings seg (mem_append_right _ mem_cons_self)
  have frontStrings := fun other mem => strings other (mem_append_left (seg :: back) mem)
  have isTests : ∃ rest, patternTests (seg :: back) =
      (.toEnd, seg.fragment) :: rest ∧ ((∃ other ∈ back, other.fragment ≠ []) ->
        rest ≠ [] ∧ ∀ test ∈ rest, test.2 ≠ []) ∧
      ((∀ other ∈ back, other.fragment = []) -> rest = []) := by
    cases back with
    | nil =>
      rw [patternTests, if_neg ne, isAnchor]
      refine ⟨[], rfl, ?_, fun _ => rfl⟩
      rintro ⟨other, mem, -⟩
      cases mem
    | cons next back =>
      rw [patternTests, isAnchor]
      exact ⟨_, rfl, fun notEmpty => ⟨patternTests_ne_nil notEmpty,
        fragment_ne_nil_of_mem properBack.2⟩, patternTests_eq_nil properBack.2⟩
  obtain ⟨rest, isRest, more, fewer⟩ := isTests
  by_cases further : ∃ other ∈ back, other.fragment ≠ []
  · -- Nothing is left for the fragments behind.
    obtain ⟨isCons, notEmpty⟩ := more further
    refine ⟨_, samples_ne_nil (mem_append_right _ mem_cons_self) ne,
      isWString_samples valid strings, fun agrees => ?_⟩
    have ok := agrees.mpr (matches_sample _)
    rw [patternTests_append (cons_ne_nil _ _), isRest, flatMap_append,
      accepts_samples isFront plain] at ok
    obtain ⟨hit, isFound, isAccepted⟩ := ok
    rw [(consumed_toEnd.mp isFound).2.symm, drop_length] at isAccepted
    cases rest with
    | nil => exact isCons rfl
    | cons test rest =>
      obtain ⟨other, isOther, -⟩ := isAccepted
      rw [consumed_nil (notEmpty test mem_cons_self)] at isOther
      cases isOther
  · -- The fragment is found at the end, behind fewer characters.
    have isNil := fewer fun other mem => by
      by_contra notEmpty
      exact further ⟨other, mem, notEmpty⟩
    refine ⟨front.flatMap (Segment.sample filler) ++ seg.fragment,
      append_ne_nil_of_right_ne_nil _ ne,
      isWString_append.mpr ⟨isWString_samples valid frontStrings, isSegment⟩,
      fun agrees => ?_⟩
    have isAccepted : accepts fold (patternTests (front ++ seg :: back))
        (front.flatMap (Segment.sample filler) ++ seg.fragment) := by
      rw [patternTests_append (cons_ne_nil _ _), isRest,
        accepts_samples isFront plain, isNil, accepts]
      refine ⟨_, consumed_toEnd.mpr ⟨⟨Nat.le_refl _, ?_⟩, rfl⟩, trivial⟩
      rw [Nat.sub_self, drop_zero, Occurs, take_length]
    refine @not_matches_of_short fold _ filler _ ?_ (agrees.mp isAccepted)
    have isSample : (seg.sample filler).length = n + seg.fragment.length := by
      simp [Segment.sample, isGap]
    have pos : 0 < n := by
      by_contra isZero
      obtain rfl : n = 0 := by omega
      cases isEnd
    rw [flatMap_append, flatMap_cons, length_append, length_append, length_append, isSample]
    omega

theorem wild_last (wellformed : Wellformed (front ++ [last])) (more : front ≠ []) :
    last.gap ≠ .skip 0 := by
  apply wellformed.wild
  rw [tail_append_of_ne_nil more]
  exact mem_append_right _ mem_cons_self

/-- The characters that question marks at the end stand for need not be there. -/
theorem misread_of_skip_nil (valid : filler ≠ 0) (wellformed : Wellformed (front ++ [last]))
    (plain : ∀ other ∈ front, Gap.Plain other.gap) {n : Nat} (isGap : last.gap = .skip n)
    (isEmpty : last.fragment = []) :
    Misread fold (front ++ [last]) := by
  obtain ⟨isFront, -⟩ := (proper_append (cons_ne_nil _ _)).mp wellformed.proper
  have isTests : ∀ text : WString, accepts fold (patternTests (front ++ [last]))
      (front.flatMap (Segment.sample filler) ++ text) := by
    intro text
    rw [patternTests_append (cons_ne_nil _ _), patternTests, if_pos isEmpty,
      accepts_samples isFront plain]
    trivial
  have isSample : last.sample filler = replicate n filler := by
    simp [Segment.sample, isGap, isEmpty]
  by_cases more : front = []
  · subst more
    refine ⟨replicate (n + 1) filler, by simp [replicate_succ],
      isWString_replicate valid, fun agrees => ?_⟩
    have isMatch := agrees.mp (isTests _)
    rw [nil_append, flatMap_singleton, Segment.tokens, isGap, isEmpty,
      Gap.tokens, map_nil, matches_anys] at isMatch
    have isRest := congrArg length isMatch.2
    simp at isRest
  · obtain ⟨first, mem⟩ := exists_mem_of_ne_nil front more
    refine ⟨front.flatMap (Segment.sample filler), samples_ne_nil mem
      (isFront first mem), isWString_samples valid fun other isOther =>
        wellformed.strings other (mem_append_left _ isOther), fun agrees => ?_⟩
    have ok := isTests []
    rw [append_nil] at ok
    refine @not_matches_of_short fold _ filler _ ?_ (agrees.mp ok)
    have pos : 0 < n := by
      by_contra isZero
      obtain rfl : n = 0 := by omega
      exact wild_last wellformed more isGap
    rw [flatMap_append, flatMap_singleton, length_append, isSample, length_replicate]
    omega

/-- A fragment behind question marks need not be at the end. -/
theorem misread_of_skip (distinguishes : ∀ unit, ∃ other, other ≠ 0 ∧ fold other ≠ fold unit)
    (ok : filler ≠ 0) (wellformed : Wellformed (front ++ [last]))
    (plain : ∀ other ∈ front ++ [last], Gap.Plain other.gap) {n : Nat}
    (isGap : last.gap = .skip n) (pos : n ≠ 0) (ne : last.fragment ≠ []) :
    Misread fold (front ++ [last]) := by
  obtain ⟨isFront, -⟩ := (proper_append (cons_ne_nil _ _)).mp wellformed.proper
  have isLast : last ∈ front ++ [last] := mem_append_right _ mem_cons_self
  obtain ⟨other, validOther, differs⟩ := distinguishes (last.fragment.getLast ne)
  refine ⟨(front ++ [last]).flatMap (Segment.sample filler) ++ [other], by simp,
    isWString_append.mpr ⟨isWString_samples ok wellformed.strings, ?_⟩,
    fun agrees => ?_⟩
  · intro mem
    exact validOther (mem_singleton.mp mem).symm
  have isTests : patternTests (front ++ [last]) = (front ++ [last]).map
      (fun seg => (segmentAnchor false seg.gap, seg.fragment)) ++ [] := by
    have notEnd := plain last isLast n isGap
    rw [patternTests_append (cons_ne_nil _ _), patternTests, if_neg ne, isGap,
      append_nil, map_append, map_singleton, isGap]
    simp [segmentAnchor, pos, notEnd]
  have isNonempty : ∀ seg ∈ front ++ [last], seg.fragment ≠ [] := by
    intro seg mem
    rcases mem_append.mp mem with inFront | isEnd
    · exact isFront seg inFront
    · rw [mem_singleton.mp isEnd]
      exact ne
  rw [isTests, accepts_samples isNonempty plain] at agrees
  have isMatch := agrees.mp trivial
  have isEnd : (front ++ [last]).flatMap Segment.tokens =
      (front.flatMap Segment.tokens ++ (last.gap.tokens ++
        last.fragment.dropLast.map .char)) ++ [.char (last.fragment.getLast ne)] := by
    conv_lhs => rw [flatMap_append, flatMap_singleton, Segment.tokens,
      ← dropLast_append_getLast ne]
    simp
  rw [isEnd] at isMatch
  obtain ⟨before, unit, isText, same⟩ := isMatch.last_char
  obtain ⟨-, isUnit⟩ := append_inj' isText rfl
  cases isUnit
  exact differs same

/-- A fragment behind an asterisk is not looked for again if what is behind the
question marks does not follow it. -/
theorem misread_of_star_skip (distinguishes : ∀ unit, ∃ other, other ≠ 0 ∧ fold other ≠ fold unit)
    (valid : filler ≠ 0)
    (wellformed : Wellformed (front ++ first :: second :: back)) (more : back ≠ [])
    (plain : ∀ other ∈ front ++ [first, second], Gap.Plain other.gap)
    (isStar : first.gap = .star) {n : Nat} (isSkip : second.gap = .skip n) :
    Misread fold (front ++ first :: second :: back) := by
  obtain ⟨isFront, properRest⟩ := (proper_append (cons_ne_nil _ _)).mp wellformed.proper
  have notEmpty := properRest.1
  have notEmptySecond := ((proper_cons more).mp properRest.2).1
  have strings := wellformed.strings
  obtain ⟨unit, fragment, isCons⟩ := exists_cons_of_ne_nil notEmptySecond
  obtain ⟨other, validOther, ne⟩ := distinguishes unit
  let between := replicate (n + (fragment.length + 1)) other
  refine ⟨front.flatMap (Segment.sample filler) ++ (first.fragment ++ (between ++
    (first :: second :: back).flatMap (Segment.sample filler))), ?_, ?_, fun agrees => ?_⟩
  · refine append_ne_nil_of_right_ne_nil _ (append_ne_nil_of_left_ne_nil ?_ _)
    exact notEmpty
  · simp only [isWString_append]
    refine ⟨isWString_samples valid fun seg mem =>
        strings seg (mem_append_left _ mem),
      strings first (mem_append_right _ mem_cons_self),
      isWString_replicate validOther, isWString_samples valid fun seg mem =>
        strings seg (mem_append_right _ mem)⟩
  have isMatch : Matches fold ((front ++ first :: second :: back).flatMap Segment.tokens)
      (front.flatMap (Segment.sample filler) ++ (first.fragment ++ (between ++
        (first :: second :: back).flatMap (Segment.sample filler)))) := by
    rw [flatMap_append]
    apply matches_samples
    have isSample : Matches fold ((first :: second :: back).flatMap Segment.tokens)
        ((first :: second :: back).flatMap (Segment.sample filler)) :=
      matches_sample _
    rw [flatMap_cons, Segment.tokens, isStar, Gap.tokens] at isSample ⊢
    obtain ⟨before, rest, isText, isRest⟩ := isSample
    refine ⟨first.fragment ++ between ++ before, rest, ?_, isRest⟩
    simp [isText]
  have ok := agrees.mpr isMatch
  rw [patternTests_append (cons_ne_nil _ _), accepts_samples isFront
    fun seg mem => plain seg (mem_append_left _ mem),
    patternTests, isStar, patternTests_cons more, isSkip] at ok
  have notEnd := plain second (by simp) n isSkip
  obtain ⟨reached, isReached, skipped, isSkipped, -⟩ := ok
  have isFirst : reached = first.fragment.length := by
    have hit : consumed fold first.gap.anchor first.fragment (first.sample filler ++
        (between ++ (first :: second :: back).flatMap (Segment.sample filler))) =
          some (first.sample filler).length :=
      consumed_sample notEmpty
    rw [Segment.sample, isStar] at hit
    exact some.inj (isReached.symm.trans hit)
  rw [isFirst, drop_left] at isSkipped
  simp only [segmentAnchor, notEnd, if_false, Bool.false_eq_true, false_and] at isSkipped
  have occurs := (consumed_at.mp isSkipped).1
  have room : n <= between.length := by
    rw [show between.length = n + (fragment.length + 1) from length_replicate]
    omega
  rw [isCons, drop_append_of_le_length room, drop_replicate,
    show n + (fragment.length + 1) - n = fragment.length + 1 by omega,
    replicate_succ, cons_append, occurs_cons] at occurs
  exact ne occurs.1

/-- Where a list goes over from what does not have a property to what has it. -/
theorem exists_change {inv : Segment WChar -> Prop} {segs : List (Segment WChar)}
    (isFirst : ∀ seg ∈ segs.head?, inv seg)
    (isOther : ∃ seg ∈ segs, ¬ inv seg) :
    ∃ front first second back, segs = front ++ first :: second :: back ∧
      inv first ∧ ¬ inv second := by
  induction segs with
  | nil =>
    obtain ⟨seg, mem, -⟩ := isOther
    cases mem
  | cons first segs ih =>
    have holdsFirst := isFirst first rfl
    obtain ⟨seg, mem, ne⟩ := isOther
    cases segs with
    | nil =>
      rw [mem_singleton.mp mem] at ne
      exact absurd holdsFirst ne
    | cons second back =>
      by_cases holdsSecond : inv second
      · rcases mem_cons.mp mem with rfl | later
        · exact absurd holdsFirst ne
        · obtain ⟨front, one, other, rest, isList, hit⟩ := ih
            (by simpa using holdsSecond) ⟨seg, later, ne⟩
          exact ⟨first :: front, one, other, rest, by rw [isList]; rfl, hit⟩
      · exact ⟨[], first, second, back, rfl, holdsFirst, holdsSecond⟩

theorem exists_first {inv : Segment WChar -> Prop} {segs : List (Segment WChar)}
    (isOther : ∃ seg ∈ segs, ¬ inv seg) :
    ∃ front first back, segs = front ++ first :: back ∧
      (∀ seg ∈ front, inv seg) ∧ ¬ inv first := by
  induction segs with
  | nil =>
    obtain ⟨seg, mem, -⟩ := isOther
    cases mem
  | cons first segs ih =>
    by_cases holdsFirst : inv first
    · obtain ⟨seg, mem, ne⟩ := isOther
      rcases mem_cons.mp mem with rfl | later
      · exact absurd holdsFirst ne
      · obtain ⟨front, other, back, rfl, before, hit⟩ := ih ⟨seg, later, ne⟩
        exact ⟨first :: front, other, back, rfl, forall_mem_cons.mpr ⟨holdsFirst, before⟩, hit⟩
    · exact ⟨[], first, segs, rfl, forall_mem_nil _, holdsFirst⟩

/-- Each pattern that is not read as it is meant is misread. -/
theorem misread_of_not_faithful
    (distinguishes : ∀ unit, ∃ other, other ≠ 0 ∧ fold other ≠ fold unit)
    (wellformed : Wellformed segs) (unfaithful : ¬ Faithful segs) :
    Misread fold segs := by
  obtain ⟨filler, ok, -⟩ := distinguishes 0
  by_cases collides : ∃ seg ∈ segs, ¬ (seg.fragment ≠ [] -> Gap.Plain seg.gap)
  · obtain ⟨front, seg, back, rfl, before, notPlain⟩ := exists_first collides
    obtain ⟨ne, isEnd⟩ := Classical.not_imp.mp notPlain
    have isFront := ((proper_append (cons_ne_nil _ _)).mp wellformed.proper).1
    exact misread_of_not_plain ok wellformed.proper wellformed.strings
      (fun other mem => before other mem (isFront other mem)) isEnd ne
  · have plain : ∀ seg ∈ segs, seg.fragment ≠ [] -> Gap.Plain seg.gap := by
      intro seg mem ne
      by_contra notPlain
      exact collides ⟨seg, mem, fun isPlain => notPlain (isPlain ne)⟩
    rcases eq_nil_or_concat' segs with rfl | ⟨front, last, rfl⟩
    · exact wellformed.proper.elim
    have isFront := ((proper_append (cons_ne_nil _ _)).mp wellformed.proper).1
    have plainFront : ∀ other ∈ front, Gap.Plain other.gap := fun other mem =>
      plain other (mem_append_left _ mem) (isFront other mem)
    have isLast : last ∈ front ++ [last] := mem_append_right _ mem_cons_self
    cases isGap : last.gap with
    | skip count =>
      by_cases isEmpty : last.fragment = []
      · exact misread_of_skip_nil ok wellformed plainFront isGap isEmpty
      · refine misread_of_skip distinguishes ok wellformed ?_ isGap ?_ isEmpty
        · intro other mem
          rcases mem_append.mp mem with inFront | atEnd
          · exact plainFront other inFront
          · rw [mem_singleton.mp atEnd]
            exact plain last isLast isEmpty
        · rintro rfl
          have alone : front = [] := by
            by_contra more
            exact wild_last wellformed more isGap
          obtain ⟨gap, fragment⟩ := last
          cases isGap
          rw [alone] at unfaithful
          exact unfaithful (.inl ⟨fragment, isEmpty, rfl⟩)
    | star =>
      -- The first asterisk is in front of a question mark.
      obtain ⟨skips, star, stars, isList, isSkip, isStar⟩ := @exists_first
        (fun seg => seg.gap ≠ .star) (front ++ [last])
        ⟨last, isLast, not_not_intro isGap⟩
      have isNext : ∃ seg ∈ star :: stars, seg.gap ≠ .star := by
        by_contra allStars
        refine unfaithful (.inr ⟨skips, star :: stars, isList, cons_ne_nil _ _, ?_,
          fun seg mem => ?_⟩)
        · intro seg mem
          refine ⟨isSkip seg mem, plain seg ?_ ?_⟩
          · rw [isList]
            exact mem_append_left _ mem
          · have proper := wellformed.proper
            rw [isList] at proper
            exact ((proper_append (cons_ne_nil _ _)).mp proper).1 seg mem
        · by_contra differs
          exact allStars ⟨seg, mem, differs⟩
      obtain ⟨between, first, second, back, isRest, isFirst, isSecond⟩ :=
        @exists_change (fun seg => seg.gap = .star) (star :: stars) (by simpa using isStar) isNext
      rw [isRest, ← append_assoc] at isList
      have atEnd := congrArg getLast? isList
      have more : back ≠ [] := by
        rintro rfl
        simp only [getLast?_append, getLast?_cons_cons,
          getLast?_singleton, some_or, some.injEq] at atEnd
        rw [← atEnd] at isSecond
        exact isSecond isGap
      cases isCount : second.gap with
      | star => exact absurd isCount isSecond
      | skip count =>
        rw [isList] at wellformed plain ⊢
        have proper := wellformed.proper
        obtain ⟨before, properRest⟩ := (proper_append (cons_ne_nil _ _)).mp proper
        refine misread_of_star_skip distinguishes ok wellformed more ?_ isFirst isCount
        intro other mem
        rcases mem_append.mp mem with inFront | atChange
        · exact plain other (mem_append_left _ inFront) (before other inFront)
        · rcases mem_cons.mp atChange with rfl | isOther
          · exact plain other (by simp) properRest.1
          · rw [mem_singleton.mp isOther]
            exact plain second (by simp) ((proper_cons more).mp properRest.2).1

end Chromium.Sandbox
