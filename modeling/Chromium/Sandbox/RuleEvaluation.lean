import Chromium.Sandbox.PatternLanguage

/-!
# Evaluating rules

The opcodes of a rule are evaluated in groups, one for each of its conditions
that has opcodes. A group passes to the next, rejects the rule, or accepts it
at once.
-/

namespace Chromium.Sandbox

open List Option

section

open Library Library.Glob

/-- The opcode of a string test. -/
def testOpcode (rule_type : RuleType) (param : Nat) (ci : Bool) (last : Bool)
    (test : Anchor × WString) :
    PolicyOpcode where
  opcode := .wStringMatch test.2 (anchorStart test.1) (anchorOptions ci test.1)
  parameter_ := some param
  options_ := PolicyRule.stringOptions rule_type last

def actionOpcode (action : PolicyAction) : PolicyOpcode where
  opcode := .action action.val
  parameter_ := none
  options_ := kPolNone

/-- The opcodes of a condition. The type of the last may be another than that of
the ones in front of it. -/
inductive Group
  | string (inner final_ : RuleType) (param : Nat) (ci : Bool)
      (front : List (Anchor × WString)) (last : Anchor × WString)
  | number (opcode : Opcode) (param : Nat) (options : PolOptions)

def Group.opcodes : Group -> List PolicyOpcode
  | .string inner final_ param ci front last =>
    front.map (testOpcode inner param ci false) ++
      [testOpcode final_ param ci true last]
  | .number opcode param options => [⟨opcode, some param, options⟩]

/-- What a group decides. -/
inductive Verdict
  | next
  | reject
  | accept
deriving DecidableEq

/-- What is left of a text behind the fragments of some tests. -/
def reach (fold : WChar -> WChar) : List (Anchor × WString) -> WString -> Option WString
  | [], text => some text
  | test :: tests, text =>
    match consumed fold test.1 test.2 text with
    | none => none
    | some count => reach fold tests (text.drop count)

/-- Whether a comparison comes out as its type of rule asks for. -/
def RuleType.agrees : RuleType -> Bool -> Bool
  | .if_, holds => holds
  | .ifNot, holds => !holds

def verdictOf (rule_type : RuleType) (holds : Bool) : Verdict :=
  if rule_type.agrees holds then .next else .reject

section Verdicts

variable (upcase : WChar -> WChar) (params : List ParameterSet)

def stringVerdict (inner final_ : RuleType) (ci : Bool)
    (front : List (Anchor × WString)) (last : Anchor × WString) (subject : WString) :
    Verdict :=
  match reach (foldOf upcase ci) front subject with
  | none => if inner = .ifNot then .accept else .reject
  | some rest =>
    verdictOf final_ (consumed (foldOf upcase ci) last.1 last.2 rest).isSome

/-- Whether a comparison of a number holds. -/
def numberHolds (opcode : Opcode) (param : ParameterSet) : Bool :=
  match opcode with
  | .numberMatch match_ => opcodeEvalNumberMatch match_ param = .evalTrue
  | .ulongAndMatch number => opcodeEvalUlongAndMatch number param = .evalTrue
  | _ => false

def Group.verdict (group : Group) : Verdict :=
  match group with
  | .string inner final_ param ci front last =>
    match params[param]? with
    | some (.wchar subject) => stringVerdict upcase inner final_ ci front last subject
    | _ => .reject
  | .number opcode param options =>
    match params[param]? with
    | some param =>
      verdictOf (if options.negateEval then .ifNot else .if_) (numberHolds opcode param)
    | none => .reject

/-- A rule is accepted if a group accepts it or all groups pass. -/
def accepted : List Group -> Bool
  | [] => true
  | group :: groups =>
    match group.verdict upcase params with
    | .next => accepted groups
    | .reject => false
    | .accept => true

/-- A comparison of a number does not keep a context. -/
def NumberOpcode (opcode : Opcode) (param : ParameterSet) : Prop :=
  (∃ match_ value, opcode = .numberMatch match_ ∧ (param = .ulong value ∨ param = .voidPtr value)) ∨
  ∃ number value, opcode = .ulongAndMatch number ∧ param = .ulong value

/-- The parameters that a group reads have the right types. -/
def Group.Typed (group : Group) : Prop :=
  match group with
  | .string _ _ param _ front last =>
    (∃ subject, params[param]? = some (.wchar subject)) ∧ ∀ test ∈ front ++ [last], test.2 ≠ [] ∧
        ∀ skipped, test.1 = .at_ skipped -> (skipped : Int) ≠ kSeekToEnd
  | .number opcode param options =>
    options.useOREval = false ∧ ∃ value, params[param]? = some value ∧ NumberOpcode opcode value

end Verdicts

variable {upcase : WChar -> WChar} {params : List ParameterSet} {options : UInt32}
  {opcodes : List PolicyOpcode}
  {context after : MatchContext}

theorem evaluateLoop_true (isTrue : opcode.evaluate upcase params context = (.evalTrue, after)) :
    evaluateLoop upcase options params (opcode :: opcodes) context evaluation false =
      evaluateLoop upcase options params opcodes after true (kPolUseOREval = after.options) := by
  rw [evaluateLoop.eq_def]
  simp [isTrue]

theorem evaluateLoop_false (isFalse : opcode.evaluate upcase params context = (.evalFalse, after)) :
    evaluateLoop upcase options params (opcode :: opcodes) context evaluation false =
      evaluateLoop upcase options params opcodes after false (kPolUseOREval ≠ after.options) := by
  rw [evaluateLoop.eq_def]
  simp [isFalse]

theorem evaluateLoop_action :
    evaluateLoop upcase options params (actionOpcode action :: opcodes) context
      evaluation false = (.policyMatch, action.val) := by
  obtain ⟨result, isAction⟩ := action
  cases result <;> first | rfl | cases isAction

theorem evaluateLoop_skipped (isSkipped : skipOpcode opcode context = (true, after, skip_group)) :
    evaluateLoop upcase options params (opcode :: opcodes) context evaluation true =
      evaluateLoop upcase options params opcodes after evaluation skip_group := by
  rw [evaluateLoop.eq_def]
  simp [isSkipped]

theorem evaluateLoop_not_skipped (notSkipped : skipOpcode opcode context = (false, after, false)) :
    evaluateLoop upcase options params (opcode :: opcodes) context evaluation true =
      evaluateLoop upcase options params (opcode :: opcodes) after evaluation false := by
  rw [evaluateLoop.eq_def, evaluateLoop.eq_def _ _ _ (opcode :: opcodes) after]
  simp [notSkipped, Bool.false_eq_true]

/-- Skipping ends at the action, which is taken if alternatives were skipped. -/
theorem evaluateLoop_skip (noAction : ∀ opcode ∈ more, opcode.isAction = false) :
    evaluateLoop upcase options params (more ++ actionOpcode action :: opcodes)
        context evaluation true =
      if kPolUseOREval = context.options then (.policyMatch, action.val)
      else evaluateLoop upcase options params opcodes .clear evaluation false := by
  induction more with
  | nil =>
    rw [nil_append]
    by_cases alternatives : kPolUseOREval = context.options
    · have notSkipped : skipOpcode (actionOpcode action) context = (false, .clear, false) := by
        simp [skipOpcode, actionOpcode, PolicyOpcode.isAction, alternatives]
      rw [if_pos alternatives, evaluateLoop_not_skipped notSkipped]
      exact evaluateLoop_action
    · rw [if_neg alternatives]
      apply evaluateLoop_skipped
      simp [skipOpcode, actionOpcode, PolicyOpcode.isAction, alternatives]
  | cons opcode more ih =>
    have isSkipped : skipOpcode opcode context = (true, context, true) := by
      simp [skipOpcode, noAction opcode mem_cons_self]
    rw [cons_append, evaluateLoop_skipped isSkipped]
    exact ih (forall_mem_cons.mp noAction).2

/-- The context behind a string opcode. -/
def contextAfter (rule_type : RuleType) (last : Bool) (context : MatchContext) : MatchContext :=
  if last then .clear
  else
    match rule_type with
    | .ifNot => { context with options := kPolUseOREval }
    | .if_ => context

/-- The result of a string opcode. -/
def resultOf (rule_type : RuleType) (found : Bool) : EvalResult :=
  if rule_type.agrees found then .evalTrue else .evalFalse

theorem evaluate_testOpcode {rule_type : RuleType} {param : Nat} {ci last : Bool}
    {test : Anchor × WString} {subject : WString}
    (typed : params[param]? = some (.wchar subject))
    (ne : test.2 ≠ [])
    (proper : ∀ skipped, test.1 = .at_ skipped -> (skipped : Int) ≠ kSeekToEnd)
    (context : MatchContext) :
    (testOpcode rule_type param ci last test).evaluate upcase params context =
      match consumed (foldOf upcase ci) test.1 test.2
          (subject.drop context.position) with
      | some count => (resultOf rule_type true, contextAfter rule_type last
          { context with position := context.position + count })
      | none => (resultOf rule_type false, contextAfter rule_type last context) := by
  have isEval := @opcodeEvalWStringMatch_eq upcase ci test.2 test.1 proper
    ne subject context
  rw [PolicyOpcode.evaluate]
  simp only [testOpcode, typed, PolicyOpcode.evaluateHelper, isEval]
  cases consumed (foldOf upcase ci) test.1 test.2 (subject.drop context.position) with
  | none => cases rule_type <;> cases last <;> rfl
  | some count => cases rule_type <;> cases last <;> rfl

theorem evaluate_number (typed : params[param]? = some value) (isNumber : NumberOpcode code value)
    (noAlternatives : opcodeOptions.useOREval = false) :
    (⟨code, some param, opcodeOptions⟩ : PolicyOpcode).evaluate upcase params context =
      (resultOf (if opcodeOptions.negateEval then .ifNot else .if_) (numberHolds code value),
        if opcodeOptions.clearContext then .clear else context) := by
  obtain ⟨negate, clear, alternatives⟩ := opcodeOptions
  obtain rfl : alternatives = false := noAlternatives
  have isHelped : (⟨code, some param, ⟨negate, clear, false⟩⟩ :
      PolicyOpcode).evaluateHelper upcase value context =
        (if numberHolds code value then .evalTrue else .evalFalse, context) := by
    rcases isNumber with ⟨match_, number, rfl, rfl | rfl⟩ | ⟨number, other, rfl, rfl⟩
    · simp [PolicyOpcode.evaluateHelper, numberHolds, opcodeEvalNumberMatch]
    · simp [PolicyOpcode.evaluateHelper, numberHolds, opcodeEvalNumberMatch]
    · simp [PolicyOpcode.evaluateHelper, numberHolds, opcodeEvalUlongAndMatch]
  rw [PolicyOpcode.evaluate]
  simp only [typed, isHelped]
  cases numberHolds code value <;> cases negate <;> rfl

theorem Group.notAction {group : Group} (typed : group.Typed params) :
    ∀ opcode ∈ group.opcodes, opcode.isAction = false := by
  intro opcode mem
  cases group with
  | string inner final_ param ci front last =>
    rcases mem_append.mp mem with inFront | isLast
    · obtain ⟨test, -, rfl⟩ := List.mem_map.mp inFront
      rfl
    · rw [mem_singleton.mp isLast]
      rfl
  | number code param options =>
    rw [mem_singleton.mp mem]
    obtain ⟨-, val, -, ⟨match_, number, rfl, -⟩ | ⟨number, other, rfl, -⟩⟩ := typed
    · rfl
    · rfl

/-- What follows a group that decided. -/
def follow (upcase : WChar -> WChar) (options : UInt32) (params : List ParameterSet)
    (action : PolicyAction) (more rest : List PolicyOpcode) :
    Verdict -> PolicyResult × EvalResult
  | .next =>
    evaluateLoop upcase options params (more ++ actionOpcode action :: rest) .clear true false
  | .reject => evaluateLoop upcase options params rest .clear false false
  | .accept => (.policyMatch, action.val)

/-- The last opcode of a group decides whether it passes. -/
theorem evaluateLoop_last (noAction : ∀ opcode ∈ more, opcode.isAction = false)
    (isLast : opcode.evaluate upcase params context = (resultOf rule_type hit, .clear)) :
    evaluateLoop upcase options params
        (opcode :: (more ++ actionOpcode action :: rest)) context evaluation false =
      follow upcase options params action more rest (verdictOf rule_type hit) := by
  by_cases holds : rule_type.agrees hit = true
  · rw [resultOf, if_pos holds] at isLast
    rw [evaluateLoop_true isLast, verdictOf, if_pos holds]
    rfl
  · rw [resultOf, if_neg holds] at isLast
    rw [evaluateLoop_false isLast, verdictOf, if_neg holds]
    exact evaluateLoop_skip noAction

/-- A string group is evaluated test by test. -/
theorem evaluateLoop_string {inner final_ : RuleType} {last : Anchor × WString}
    (typed : params[param]? = some (.wchar subject))
    (tests : ∀ test ∈ front ++ [last], test.2 ≠ [] ∧
      ∀ skipped, test.1 = .at_ skipped -> (skipped : Int) ≠ kSeekToEnd)
    (noAction : ∀ opcode ∈ more, opcode.isAction = false)
    (isContext : context.options = kPolNone ∨ context.options = kPolUseOREval ∧ inner = .ifNot) :
    evaluateLoop upcase options params
        ((Group.string inner final_ param ci front last).opcodes ++
          (more ++ actionOpcode action :: rest)) context evaluation false =
      follow upcase options params action more rest
        (stringVerdict upcase inner final_ ci front last
          (subject.drop context.position)) := by
  induction front generalizing context evaluation with
  | nil =>
    obtain ⟨ne, proper⟩ := tests last mem_cons_self
    have isLast := @evaluate_testOpcode upcase params final_ param
      ci true last subject typed ne proper context
    rw [stringVerdict, reach]
    apply evaluateLoop_last noAction
    rw [isLast]
    cases consumed (foldOf upcase ci) last.1 last.2
        (subject.drop context.position) with
    | none => rfl
    | some n => rfl
  | cons test front ih =>
    obtain ⟨ne, proper⟩ := tests test mem_cons_self
    have isTest := @evaluate_testOpcode upcase params inner param
      ci false test subject typed ne proper context
    have noActions : ∀ opcode ∈ front.map (testOpcode inner param ci
        false) ++ testOpcode final_ param ci true last :: more,
        opcode.isAction = false := by
      intro opcode mem
      rcases mem_append.mp mem with inFront | isLater
      · obtain ⟨other, -, rfl⟩ := List.mem_map.mp inFront
        rfl
      · rcases mem_cons.mp isLater with rfl | inMore
        · rfl
        · exact noAction opcode inMore
    -- What is left to test behind the position that was reached.
    have isRest : ∀ (later : MatchContext) (n : Nat) (soFar : Bool),
        later.position = context.position + n ->
        (later.options = kPolNone ∨ later.options = kPolUseOREval ∧ inner = .ifNot) ->
        evaluateLoop upcase options params
            ((front.map (testOpcode inner param ci false) ++
              testOpcode final_ param ci true last :: more) ++
                actionOpcode action :: rest) later soFar false =
          follow upcase options params action more rest
            (stringVerdict upcase inner final_ ci front last
              ((subject.drop context.position).drop n)) := by
      intro later n soFar isPosition isLater
      have isFollow := @ih later soFar ((forall_mem_cons.mp tests).2) isLater
      rw [isPosition, ← drop_drop] at isFollow
      rw [← isFollow, Group.opcodes]
      simp
    have isShape : (Group.string inner final_ param ci (test :: front)
        last).opcodes ++ (more ++ actionOpcode action :: rest) =
      testOpcode inner param ci false test ::
        ((front.map (testOpcode inner param ci false) ++
          testOpcode final_ param ci true last :: more) ++
            actionOpcode action :: rest) := by
      simp [Group.opcodes]
    rw [isShape, stringVerdict, reach]
    cases found : consumed (foldOf upcase ci) test.1 test.2
        (subject.drop context.position) with
    | none =>
      rw [found] at isTest
      cases inner with
      | if_ =>
        have isNone : context.options = kPolNone :=
          isContext.resolve_right fun both => RuleType.noConfusion both.2
        rw [evaluateLoop_false isTest, contextAfter, if_neg Bool.false_ne_true]
        rw [isNone, decide_eq_true (show kPolUseOREval ≠ kPolNone by decide),
          evaluateLoop_skip noActions, isNone]
        rfl
      | ifNot =>
        rw [evaluateLoop_true isTest, contextAfter, if_neg Bool.false_ne_true]
        rw [decide_eq_true rfl, evaluateLoop_skip noActions, if_pos rfl]
        rfl
    | some n =>
      rw [found] at isTest
      cases inner with
      | if_ =>
        have isNone : context.options = kPolNone :=
          isContext.resolve_right fun both => RuleType.noConfusion both.2
        rw [evaluateLoop_true isTest, contextAfter, if_neg Bool.false_ne_true]
        rw [isNone, decide_eq_false (show kPolUseOREval ≠ kPolNone by decide)]
        exact isRest _ n true rfl (.inl rfl)
      | ifNot =>
        rw [evaluateLoop_false isTest, contextAfter, if_neg Bool.false_ne_true]
        exact isRest _ n false rfl (.inr ⟨rfl, rfl⟩)

theorem evaluateLoop_group {group : Group} (typed : group.Typed params)
    (noAction : ∀ opcode ∈ more, opcode.isAction = false) (evaluation : Bool) :
    evaluateLoop upcase options params
        (group.opcodes ++ (more ++ actionOpcode action :: rest)) .clear evaluation false =
      follow upcase options params action more rest (group.verdict upcase params) := by
  cases group with
  | string inner final_ param ci front last =>
    obtain ⟨⟨subject, isSubject⟩, tests⟩ := typed
    rw [Group.verdict]
    simp only [isSubject]
    exact evaluateLoop_string isSubject tests noAction (.inl rfl)
  | number code param codeOptions =>
    obtain ⟨noAlternatives, val, isValue, isNumber⟩ := typed
    rw [Group.verdict]
    simp only [isValue]
    apply evaluateLoop_last noAction
    rw [evaluate_number isValue isNumber noAlternatives, ite_self]

/-- A rule is taken if it is accepted. -/
theorem evaluateLoop_rule (typed : ∀ group ∈ groups, group.Typed params) (rest : List PolicyOpcode)
    (evaluation : Bool) :
    evaluateLoop upcase options params
        (groups.flatMap Group.opcodes ++ actionOpcode action :: rest) .clear evaluation false =
      if accepted upcase params groups then (.policyMatch, action.val)
      else evaluateLoop upcase options params rest .clear false false := by
  induction groups generalizing evaluation with
  | nil => exact evaluateLoop_action
  | cons group groups ih =>
    have noAction : ∀ opcode ∈ groups.flatMap Group.opcodes, opcode.isAction = false := by
      intro opcode mem
      obtain ⟨other, isOther, inOther⟩ := mem_flatMap.mp mem
      exact Group.notAction (typed other (mem_cons_of_mem _ isOther)) opcode inOther
    rw [flatMap_cons, append_assoc,
      evaluateLoop_group (typed group mem_cons_self) noAction, accepted]
    cases group.verdict upcase params with
    | next => exact ih ((forall_mem_cons.mp typed).2) true
    | reject => rfl
    | accept => rfl

/-- A rule of groups with its action. -/
abbrev CompiledRule := List Group × PolicyAction

def ruleOpcodes (rule : CompiledRule) : List PolicyOpcode :=
  rule.1.flatMap Group.opcodes ++ [actionOpcode rule.2]

/-- The first rule that is accepted is taken. -/
theorem evaluate_rules (isShort : kShortEval &&& options ≠ 0) {rules : List CompiledRule}
    (typed : ∀ rule ∈ rules, ∀ group ∈ rule.1, group.Typed params) :
    evaluate upcase (rules.flatMap ruleOpcodes) options params =
      match rules.find? fun rule => accepted upcase params rule.1 with
      | some rule => (.policyMatch, rule.2.val)
      | none => (.noPolicyMatch, .evalFalse) := by
  have isLoop : evaluateLoop upcase options params (rules.flatMap ruleOpcodes) .clear false false =
        match rules.find? fun rule => accepted upcase params rule.1 with
        | some rule => (.policyMatch, rule.2.val)
        | none => (.noPolicyMatch, .evalFalse) := by
    induction rules with
    | nil => rfl
    | cons rule rules ih =>
      rw [flatMap_cons, ruleOpcodes, append_assoc,
        singleton_append, evaluateLoop_rule (typed rule mem_cons_self),
        ih (forall_mem_cons.mp typed).2, List.find?_cons]
      cases accepted upcase params rule.1 with
      | true => rfl
      | false => rfl
  rw [evaluate, if_neg isShort]
  by_cases isEmpty : (rules.flatMap ruleOpcodes).isEmpty
  · rw [if_pos isEmpty, ← isLoop, List.isEmpty_iff.mp isEmpty]
    rfl
  · rw [if_neg isEmpty, isLoop]

end

/-!
## Groups of a rule

The conditions that are added to a rule become its groups. A pattern without a
fragment makes no group, and changes the last opcode that was made before it.
-/

section

open Library Library.Glob

/-- The last opcode of a group gets another type. -/
def Group.retype (rule_type : RuleType) : Group -> Group
  | .string inner _ param ci front last =>
    .string inner rule_type param ci front last
  | .number opcode param _ => .number opcode param (PolicyRule.stringOptions rule_type true)

/-- The last opcode that was made gets another type. -/
def retypeLast (rule_type : RuleType) (groups : List Group) : List Group :=
  match groups.getLast? with
  | none => []
  | some group => groups.dropLast ++ [group.retype rule_type]

/-- The groups behind a pattern with some tests. -/
def addTests (rule_type : RuleType) (param : Nat) (ci : Bool) (groups : List Group)
    (tests : List (Anchor × WString)) :
    List Group :=
  match tests.getLast? with
  | none => retypeLast rule_type groups
  | some last =>
    groups ++ [.string rule_type rule_type param ci tests.dropLast last]

variable {rule_type : RuleType} {param : Nat} {ci : Bool}
  {rule made : PolicyRule} {groups : List Group}

theorem setLastOptions_concat : setLastOptions options (opcodes ++ [opcode]) =
      opcodes ++ [{ opcode with options_ := options }] := by
  rw [setLastOptions, getLast?_concat, dropLast_concat]

theorem Group.setLastOptions_opcodes (group : Group) (opcodes : List PolicyOpcode) :
    setLastOptions (PolicyRule.stringOptions rule_type true) (opcodes ++ group.opcodes) =
      opcodes ++ (group.retype rule_type).opcodes := by
  cases group with
  | string inner final_ param ci front last =>
    rw [Group.opcodes, ← append_assoc, setLastOptions_concat, append_assoc]
    rfl
  | number code param options =>
    rw [Group.opcodes, setLastOptions_concat]
    rfl

theorem setLastOptions_groups :
    setLastOptions (PolicyRule.stringOptions rule_type true) (groups.flatMap Group.opcodes) =
      (retypeLast rule_type groups).flatMap Group.opcodes := by
  rcases eq_nil_or_concat' groups with rfl | ⟨front, last, rfl⟩
  · rfl
  · rw [retypeLast, getLast?_concat, dropLast_concat]
    rw [flatMap_append, flatMap_singleton, flatMap_append,
      flatMap_singleton, Group.setLastOptions_opcodes]

/-- The opcodes of segments are those of their tests. -/
theorem compileSegments_eq (proper : Proper segs) :
    compileSegments rule_type param ci opcodes segs =
      match (patternTests segs).getLast? with
      | none => setLastOptions (PolicyRule.stringOptions rule_type true) opcodes
      | some last => opcodes ++ (Group.string rule_type rule_type param
          ci (patternTests segs).dropLast last).opcodes := by
  induction segs generalizing opcodes with
  | nil => exact proper.elim
  | cons seg segs ih =>
    cases segs with
    | nil =>
      rw [compileSegments, patternTests]
      by_cases isEmpty : seg.fragment = []
      · rw [if_pos isEmpty, if_pos isEmpty]
        rfl
      · rw [if_neg isEmpty, if_neg isEmpty]
        rfl
    | cons next segs =>
      rw [compileSegments, ih proper.2, patternTests]
      cases isLast : (patternTests (next :: segs)).getLast? with
      | none =>
        rw [getLast?_eq_none_iff.mp isLast, setLastOptions_concat]
        rfl
      | some last =>
        have more : patternTests (next :: segs) ≠ [] := by
          intro isNil
          rw [isNil] at isLast
          cases isLast
        rw [getLast?_cons_of_ne_nil more, isLast, dropLast_cons_of_ne_nil more]
        dsimp only
        rw [append_assoc, Group.opcodes, Group.opcodes, map_cons]
        rfl

/-- A pattern that is accepted adds the group of its tests. -/
theorem addStringMatch_groups (isGroups : rule.opcodes = groups.flatMap Group.opcodes)
    (accepted : rule.addStringMatch rule_type param string ⟨ci, false⟩ = some made) :
    made.opcodes = (addTests rule_type param ci groups
      (patternTests (patternSegments string))).flatMap Group.opcodes := by
  have compiles := addStringMatch_compiles accepted
  rw [compiles.opcodes, compileSegments_eq compiles.proper, isGroups, addTests, patternSegments]
  cases (patternTests (splitSegments (.skip 0) [] (patternTokens string))).getLast? with
  | none => exact setLastOptions_groups
  | some last => rw [flatMap_append, flatMap_singleton]

theorem done_eq_some (notDone : rule.done_ = false) (finished : rule.done = some made) :
    made.opcodes = rule.opcodes ++ [actionOpcode rule.action_] := by
  rw [PolicyRule.done, notDone, if_neg Bool.false_ne_true] at finished
  obtain ⟨next, isNext, same⟩ := bind_eq_some_iff.mp finished
  cases same
  exact (makeBase_eq_some isNext).1

theorem segmentAnchor_proper :
    ∀ skipped, segmentAnchor last gap = .at_ skipped -> (skipped : Int) ≠ kSeekToEnd := by
  intro skipped isAnchor
  cases gap with
  | star => cases last <;> cases isAnchor
  | skip n =>
    rw [segmentAnchor] at isAnchor
    by_cases isEnd : (n : Int) = kSeekToEnd
    · rw [if_pos isEnd] at isAnchor
      cases isAnchor
    · rw [if_neg isEnd] at isAnchor
      split at isAnchor
      · cases isAnchor
      · cases isAnchor
        exact isEnd

/-- The tests of a pattern can be evaluated. -/
theorem patternTests_valid (proper : Proper segs) :
    ∀ test ∈ patternTests segs, test.2 ≠ [] ∧
      ∀ skipped, test.1 = .at_ skipped -> (skipped : Int) ≠ kSeekToEnd := by
  induction segs with
  | nil => exact proper.elim
  | cons seg segs ih =>
    cases segs with
    | nil =>
      rw [patternTests]
      intro test mem
      split at mem
      · cases mem
      · rename_i ne
        rw [mem_singleton.mp mem]
        exact ⟨ne, segmentAnchor_proper⟩
    | cons next segs =>
      intro test mem
      rcases mem_cons.mp mem with rfl | later
      · exact ⟨proper.1, segmentAnchor_proper⟩
      · exact ih proper.2 test later

theorem accepts_concat :
    accepts fold (front ++ [last]) text ↔ ∃ rest, reach fold front text = some rest ∧
        (consumed fold last.1 last.2 rest).isSome = true := by
  induction front generalizing text with
  | nil =>
    simp [accepts, reach, exists_eq_left', isSome_iff_exists]
  | cons test front ih =>
    rw [cons_append, accepts, reach]
    cases consumed fold test.1 test.2 text with
    | none => simp
    | some count => simp [ih]

end

end Chromium.Sandbox
