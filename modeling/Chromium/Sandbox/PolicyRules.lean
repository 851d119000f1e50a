import Chromium.Sandbox.PatternMisreadings
import Chromium.Sandbox.RuleEvaluation

/-!
# Meaning of a pattern

A rule with one pattern matches the language of the pattern for each subject if
and only if the pattern is one that is read as it is meant.
-/

namespace Chromium.Sandbox

open List Option

section

open Library Library.Glob

/-- A subject is in the language of a pattern. -/
def InLanguage (upcase : WChar -> WChar) (ci : Bool) (string subject : WString) :
    Prop :=
  Matches (foldOf upcase ci) (patternTokens string) subject

/-- No character is equal to all others when the case is ignored. -/
def Distinguishes (upcase : WChar -> WChar) : Prop :=
  ∀ unit, ∃ other, other ≠ 0 ∧ upcase other ≠ upcase unit

variable {upcase : WChar -> WChar} {ci : Bool} {param : Nat} {string : WString}

theorem distinguishes_foldOf (distinguishes : Distinguishes upcase) (unit : WChar) :
    ∃ other, other ≠ 0 ∧
      foldOf upcase ci other ≠ foldOf upcase ci unit := by
  cases ci with
  | true => exact distinguishes unit
  | false =>
    by_cases isOne : unit = 1
    · refine ⟨2, by decide, ?_⟩
      rw [isOne]
      exact (show (2 : WChar) ≠ 1 by decide)
    · exact ⟨1, by decide, fun same => isOne same.symm⟩

theorem mem_of_char (mem : .char unit ∈ patternTokens string) : unit ∈ string := by
  induction string using patternTokens.induct with
  | case1 => cases mem
  | case2 string ih =>
    rw [patternTokens.eq_def] at mem
    simp only [if_true, mem_cons, reduceCtorEq, false_or] at mem
    exact mem_cons_of_mem _ (ih mem)
  | case3 string notAsterisk ih =>
    rw [patternTokens.eq_def] at mem
    simp only [notAsterisk, if_false, if_true, mem_cons, reduceCtorEq, false_or] at mem
    exact mem_cons_of_mem _ (ih mem)
  | case4 current_char notAsterisk notQuestion next_char rest isEscape ih =>
      rw [patternTokens.eq_def] at mem
      dsimp only at mem
      rw [if_neg notAsterisk, if_neg notQuestion, if_pos isEscape] at mem
      rcases mem_cons.mp mem with same | later
      · cases same
        exact mem_cons_of_mem _ mem_cons_self
      · exact mem_cons_of_mem _ (mem_cons_of_mem _ (ih later))
  | case5 current_char notAsterisk notQuestion next_char rest notEscape ih =>
      rw [patternTokens.eq_def] at mem
      dsimp only at mem
      rw [if_neg notAsterisk, if_neg notQuestion, if_neg notEscape] at mem
      rcases mem_cons.mp mem with same | later
      · cases same
        exact mem_cons_self
      · exact mem_cons_of_mem _ (ih later)
  | case6 current_char notAsterisk notQuestion =>
    rw [patternTokens.eq_def] at mem
    dsimp only at mem
    rw [if_neg notAsterisk, if_neg notQuestion] at mem
    cases mem_singleton.mp mem
    exact mem_cons_self

/-- A segment behind the first is behind a wildcard. -/
theorem splitSegments_wild {tokens : List (Token WChar)} :
    (∀ seg ∈ (splitSegments gap frag tokens).tail, seg.gap ≠ .skip 0) ∧ (gap ≠ .skip 0 →
        ∀ seg ∈ splitSegments gap frag tokens, seg.gap ≠ .skip 0) := by
  induction tokens generalizing gap frag with
  | nil =>
    refine ⟨forall_mem_nil _, ?_⟩
    intro wild seg mem
    rw [mem_singleton.mp mem]
    exact wild
  | cons token tokens ih =>
    have isCons : ∀ {next : Gap}, next ≠ .skip 0 ->
        (∀ seg ∈ (Segment.mk gap frag :: splitSegments next [] tokens).tail, seg.gap ≠ .skip 0) ∧
        (gap ≠ .skip 0 -> ∀ seg ∈ Segment.mk gap frag :: splitSegments next [] tokens,
            seg.gap ≠ .skip 0) := by
      intro next wild
      have later : ∀ seg ∈ splitSegments next [] tokens, seg.gap ≠ .skip 0 := ih.2 wild
      exact ⟨later, fun isWild => forall_mem_cons.mpr ⟨isWild, later⟩⟩
    have isMerged : ∀ {next : Gap}, next ≠ .skip 0 ->
        (∀ seg ∈ (splitSegments next [] tokens).tail, seg.gap ≠ .skip 0) ∧
        (gap ≠ .skip 0 -> ∀ seg ∈ splitSegments next [] tokens, seg.gap ≠ .skip 0) := by
      intro next wild
      exact ⟨ih.1, fun _ => ih.2 wild⟩
    cases token with
    | char unit => exact ih
    | any =>
      rw [splitSegments]
      split
      · apply isMerged
        cases gap <;> simp [skipMore]
      · exact isCons (by simp)
    | star =>
      rw [splitSegments]
      split
      · exact isMerged (by simp)
      · exact isCons (by simp)

theorem wellformed_patternSegments
    (isString : IsWString string) (proper : Proper (patternSegments string))
    (isTokens : (patternSegments string).flatMap Segment.tokens = patternTokens string) :
    Wellformed (patternSegments string) where
  proper := proper
  wild := splitSegments_wild.1
  strings := by
    intro seg mem isNull
    apply isString
    apply mem_of_char
    rw [← isTokens, mem_flatMap]
    refine ⟨seg, mem, mem_append_right _ ?_⟩
    exact List.mem_map.mpr ⟨0, isNull, rfl⟩

/-- The group of one pattern accepts what its tests accept. -/
theorem accepted_addTests (typed : params[param]? = some (.wchar subject)) :
    accepted upcase params (addTests .if_ param ci [] tests) = true ↔
      accepts (foldOf upcase ci) tests subject := by
  rcases eq_nil_or_concat' tests with rfl | ⟨front, last, rfl⟩
  · exact iff_of_true rfl trivial
  · rw [addTests, getLast?_concat, dropLast_concat, accepts_concat]
    dsimp only
    rw [nil_append, accepted, Group.verdict]
    simp only [typed, stringVerdict]
    cases reach (foldOf upcase ci) front subject with
    | none => simp
    | some rest =>
      cases isFound : (consumed (foldOf upcase ci) last.1 last.2 rest).isSome
      · simp [verdictOf, RuleType.agrees, isFound]
      · simp [verdictOf, RuleType.agrees, isFound, accepted]

theorem typed_addTests (typed : params[param]? = some (.wchar subject)) (proper : Proper segs) :
    ∀ group ∈ addTests .if_ param ci [] (patternTests segs),
      group.Typed params := by
  have ok := patternTests_valid proper
  rcases eq_nil_or_concat' (patternTests segs) with isNil | ⟨front, last, isTests⟩
  · rw [isNil]
    intro group mem
    cases mem
  · rw [isTests] at ok ⊢
    rw [addTests, getLast?_concat, dropLast_concat]
    intro group mem
    rw [mem_singleton.mp mem]
    exact ⟨⟨subject, typed⟩, ok⟩

section OnePattern

variable {rule finished : PolicyRule}
  (accepted : (PolicyRule.create action).addStringMatch .if_ param string
    ⟨ci, false⟩ = some rule)
  (isFinished : rule.done = some finished)

include accepted isFinished

/-- The rule matches the subjects that the tests of its pattern accept. -/
theorem evaluate_onePattern (typed : params[param]? = some (.wchar subject)) :
    (evaluate upcase finished.opcodes kShortEval params).1 = .policyMatch ↔
      accepts (foldOf upcase ci) (patternTests (patternSegments string)) subject := by
  have compiles := addStringMatch_compiles accepted
  have isGroups := @addStringMatch_groups _ _ _ _ _ [] _ rfl accepted
  have isOpcodes := done_eq_some compiles.same.isDone isFinished
  rw [isGroups, compiles.same.action] at isOpcodes
  have isEvaluated := @evaluate_rules upcase params kShortEval (by decide)
    [(addTests .if_ param ci []
      (patternTests (patternSegments string)), action)] (by
        intro rule mem group isGroup
        rw [mem_singleton.mp mem] at isGroup
        exact typed_addTests typed compiles.proper group isGroup)
  rw [flatMap_singleton, ruleOpcodes] at isEvaluated
  rw [isOpcodes, show (PolicyRule.create action).action_ = action from rfl, isEvaluated,
    ← accepted_addTests typed, List.find?_singleton]
  split
  · rename_i found
    split at found
    · rename_i isAccepted
      exact iff_of_true rfl isAccepted
    · cases found
  · rename_i isNone
    split at isNone
    · cases isNone
    · rename_i notAccepted
      exact iff_of_false (by simp) notAccepted

/-- A rule with one pattern matches the language of the pattern for all subjects
exactly if the pattern is read as it is meant. -/
theorem evaluate_onePattern_iff (distinguishes : Distinguishes upcase)
    (isString : IsWString string) :
    (∀ subject params, subject ≠ [] -> IsWString subject ->
      params[param]? = some (.wchar subject) ->
      ((evaluate upcase finished.opcodes kShortEval params).1 = .policyMatch ↔
        InLanguage upcase ci string subject)) ↔ Faithful (patternSegments string) := by
  have compiles := addStringMatch_compiles accepted
  have proper : Proper (patternSegments string) := compiles.proper
  have isTokens : (patternSegments string).flatMap Segment.tokens =
      patternTokens string := compiles.tokens
  constructor
  · intro agrees
    by_contra unfaithful
    obtain ⟨subject, nonempty, isSubject, differs⟩ := misread_of_not_faithful
      (distinguishes_foldOf distinguishes)
      (wellformed_patternSegments isString proper isTokens) unfaithful
    apply differs
    have typed : (replicate (param + 1) (ParameterSet.wchar subject))[param]? =
        some (.wchar subject) := by
      simp
    rw [← evaluate_onePattern accepted isFinished typed,
      agrees subject _ nonempty isSubject typed, InLanguage, isTokens]
  · intro faithful subject params nonempty isSubject typed
    rw [evaluate_onePattern accepted isFinished typed,
      accepts_of_faithful proper faithful, InLanguage, isTokens]

end OnePattern

def asciiUpcase (unit : WChar) : WChar := if 97 <= unit ∧ unit <= 122 then unit - 32 else unit

theorem distinguishes_asciiUpcase : Distinguishes asciiUpcase := by
  intro unit
  by_cases isOne : asciiUpcase unit = 49
  · refine ⟨50, by decide, ?_⟩
    rw [isOne]
    decide
  · exact ⟨49, by decide, fun same => isOne same.symm⟩

/-- The rule of one pattern that asks the broker. -/
def onePatternRule (string : WString) : Option PolicyRule := do
  let rule ← (PolicyRule.create ⟨.askBroker, rfl⟩).addStringMatch .if_ 0 string ⟨true, false⟩
  rule.done

/-- The pattern `a?b*`. -/
theorem evaluate_prefixPattern_iff : (∀ subject params, subject ≠ [] -> IsWString subject ->
      params[0]? = some (.wchar subject) ->
      ((evaluate asciiUpcase ((onePatternRule [97, 63, 98, 42]).get (by decide)).opcodes
          kShortEval params).1 = .policyMatch ↔
        InLanguage asciiUpcase true [97, 63, 98, 42] subject)) ↔
    Faithful (patternSegments [97, 63, 98, 42]) :=
  evaluate_onePattern_iff rfl rfl distinguishes_asciiUpcase (by decide)

/-- The pattern `a?b` matches a subject with more characters. -/
theorem not_all_patterns_read :
    ¬ ∀ (string subject : WString) (rule finished : PolicyRule), IsWString string ->
      (PolicyRule.create ⟨.askBroker, rfl⟩).addStringMatch .if_ 0 string ⟨true, false⟩ = some rule →
      rule.done = some finished -> subject ≠ [] -> IsWString subject ->
      ((evaluate asciiUpcase finished.opcodes kShortEval [.wchar subject]).1 = .policyMatch ↔
        InLanguage asciiUpcase true string subject) := by
  intro claimed
  have agrees := claimed [97, 63, 98] [97, 120, 98, 99] _ _ (by decide) rfl rfl (by decide)
    (by decide)
  have isMatch := agrees.mp (by decide)
  simp [InLanguage, patternTokens, asteriskChar, questionChar, slashChar, Matches] at isMatch

end

/-!
## Policies of rules

A policy says for each rule which conditions its parameters have to meet. The
first rule all of whose conditions hold gives the action.
-/

section

open Library Library.Glob

/-- A condition of a rule, as it is added. -/
inductive Condition
  | string (rule_type : RuleType) (param : Nat) (pattern : WString) (ci : Bool)
  | number (rule_type : RuleType) (param : Nat) (number : UInt32) (comparison_op : RuleOp)
deriving DecidableEq

def PolicyRule.addCondition (rule : PolicyRule) : Condition -> Option PolicyRule
  | .string rule_type param pattern ci =>
    rule.addStringMatch rule_type param pattern ⟨ci, false⟩
  | .number rule_type param number comparison_op =>
    rule.addNumberMatch rule_type param number comparison_op

/-- The rule with some conditions. -/
def ruleOf (conditions : List Condition) (action : PolicyAction) : Option PolicyRule := do
  let rule ← conditions.foldlM PolicyRule.addCondition (PolicyRule.create action)
  rule.done

/-- The opcodes of the rules of a service. -/
def policyOf : List (List Condition × PolicyAction) -> Option (List PolicyOpcode)
  | [] => some []
  | rule :: rules => do
      let made ← ruleOf rule.1 rule.2
      let opcodes ← policyOf rules
      some (made.opcodes ++ opcodes)

section Meaning

variable (upcase : WChar -> WChar) (params : List ParameterSet)

/-- A number meets a comparison. -/
def NumberMeets (comparison_op : RuleOp) (number : UInt32) (param : ParameterSet) : Prop :=
  match comparison_op with
  | .equal => param = .ulong number ∨ param = .voidPtr number
  | .and => ∃ value, param = .ulong value ∧ number &&& value ≠ 0
  | .range => False

/-- What is compared meets a condition, whatever the type of the rule. -/
def Condition.Meets : Condition -> Prop
  | .string _ param pattern ci =>
    ∃ subject, params[param]? = some (.wchar subject) ∧
      InLanguage upcase ci pattern subject
  | .number _ param expected comparison_op =>
    ∃ value, params[param]? = some value ∧ NumberMeets comparison_op expected value

def Condition.ruleType : Condition -> RuleType
  | .string rule_type _ _ _ => rule_type
  | .number rule_type _ _ _ => rule_type

/-- A condition holds; one of the type `IF_NOT` exactly if it is not met. -/
def Condition.Holds (condition : Condition) : Prop :=
  match condition.ruleType with
  | .if_ => condition.Meets upcase params
  | .ifNot => ¬ condition.Meets upcase params

/-- All conditions of a rule hold. -/
def Qualifies (conditions : List Condition) : Prop :=
  ∀ condition ∈ conditions, condition.Holds upcase params

/-- The parameters have the types that a condition reads. -/
def Condition.Typed : Condition -> Prop
  | .string _ param _ _ => ∃ subject, params[param]? = some (.wchar subject)
  | .number _ param _ comparison_op =>
    match comparison_op with
    | .and => ∃ value, params[param]? = some (.ulong value)
    | _ => ∃ value, params[param]? = some (.ulong value) ∨
        params[param]? = some (.voidPtr value)

end Meaning

/-- A result is that of the first of some rules. -/
def IsFirst (takes : List Condition -> Prop) (rules : List (List Condition × PolicyAction))
    (result : PolicyResult × EvalResult) :
    Prop :=
  (∃ front rule back, rules = front ++ rule :: back ∧
    (∀ other ∈ front, ¬ takes other.1) ∧ takes rule.1 ∧ result = (.policyMatch, rule.2.val)) ∨
  (∀ rule ∈ rules, ¬ takes rule.1) ∧ result.1 = .noPolicyMatch

def numberOptions (rule_type : RuleType) : PolOptions :=
  if rule_type = .ifNot then kPolNegateEval else kPolNone

def numberOpcode (number : UInt32) : RuleOp -> Opcode
  | .and => .ulongAndMatch number
  | _ => .numberMatch number

/-- The groups behind one more condition. -/
def addGroups (groups : List Group) : Condition -> List Group
  | .string rule_type param pattern ci =>
    addTests rule_type param ci groups (patternTests (patternSegments pattern))
  | .number rule_type param number comparison_op =>
    groups ++ [.number (numberOpcode number comparison_op) param (numberOptions rule_type)]

/-- The groups of some conditions. -/
def groupsOf (conditions : List Condition) : List Group := conditions.foldl addGroups []

variable {upcase : WChar -> WChar} {rule made : PolicyRule}

theorem addCondition_groups (isGroups : rule.opcodes = groups.flatMap Group.opcodes)
    (isMade : rule.addCondition condition = some made) :
    made.opcodes = (addGroups groups condition).flatMap Group.opcodes ∧ SameRule rule made := by
  cases condition with
  | string rule_type param pattern ci =>
    exact ⟨addStringMatch_groups isGroups isMade, (addStringMatch_compiles isMade).same⟩
  | number rule_type param number comparison_op =>
    rw [PolicyRule.addCondition, PolicyRule.addNumberMatch] at isMade
    split at isMade
    · cases isMade
    · cases comparison_op with
      | equal =>
        obtain ⟨isOpcodes, same⟩ := makeBase_eq_some isMade
        rw [isOpcodes, isGroups, addGroups, flatMap_append, flatMap_singleton]
        exact ⟨rfl, same⟩
      | and =>
        obtain ⟨isOpcodes, same⟩ := makeBase_eq_some isMade
        rw [isOpcodes, isGroups, addGroups, flatMap_append, flatMap_singleton]
        exact ⟨rfl, same⟩
      | range => cases isMade

/-- The opcodes of a rule are those of its groups, and its action. -/
theorem ruleOf_eq_some (isMade : ruleOf conditions action = some made) :
    made.opcodes = ruleOpcodes (groupsOf conditions, action) := by
  obtain ⟨rule, isRule, isFinished⟩ := bind_eq_some_iff.mp isMade
  have isFolded : ∀ (conditions : List Condition) (start : PolicyRule)
      (groups : List Group), start.opcodes = groups.flatMap Group.opcodes ->
      conditions.foldlM PolicyRule.addCondition start = some rule ->
      rule.opcodes = (conditions.foldl addGroups groups).flatMap Group.opcodes ∧
        SameRule start rule := by
    intro conditions
    induction conditions with
    | nil =>
      intro start groups isGroups isRule
      cases isRule
      exact ⟨isGroups, rfl, rfl⟩
    | cons condition conditions ih =>
      intro start groups isGroups isRule
      obtain ⟨next, isNext, isRest⟩ := bind_eq_some_iff.mp isRule
      obtain ⟨isOpcodes, same⟩ := addCondition_groups isGroups isNext
      obtain ⟨isAll, sameRest⟩ := ih next _ isOpcodes isRest
      exact ⟨isAll, sameRest.action.trans same.action, sameRest.isDone.trans same.isDone⟩
  obtain ⟨isOpcodes, same⟩ := isFolded conditions (PolicyRule.create action) [] rfl isRule
  rw [done_eq_some same.isDone isFinished, isOpcodes, same.action]
  rfl

/-- The opcodes of a policy are those of the groups of its rules. -/
theorem policyOf_eq_some (isPolicy : policyOf rules = some policy) :
    policy = (rules.map fun rule => (groupsOf rule.1, rule.2)).flatMap ruleOpcodes := by
  induction rules generalizing policy with
  | nil =>
    cases isPolicy
    rfl
  | cons rule rules ih =>
    obtain ⟨made, isMade, isRest⟩ := bind_eq_some_iff.mp isPolicy
    obtain ⟨opcodes, isOpcodes, same⟩ := bind_eq_some_iff.mp isRest
    cases same
    rw [map_cons, flatMap_cons, ← ruleOf_eq_some isMade, ← ih isOpcodes]

theorem Group.typed_retype {group : Group} (typed : group.Typed params) :
    (group.retype rule_type).Typed params := by
  cases group with
  | string inner final_ param ci front last => exact typed
  | number code param options =>
    refine ⟨?_, typed.2⟩
    cases rule_type <;> rfl

theorem typed_addGroups (accepted : rule.addCondition condition = some made)
    (typed : ∀ group ∈ groups, group.Typed params)
    (typedCondition : condition.Typed params) :
    ∀ group ∈ addGroups groups condition, group.Typed params := by
  intro group mem
  cases condition with
  | string rule_type param pattern ci =>
    have ok := patternTests_valid (addStringMatch_compiles accepted).proper
    rcases eq_nil_or_concat' (patternTests (patternSegments pattern)) with
      isNil | ⟨front, last, isTests⟩
    · rw [addGroups, isNil, addTests, getLast?_nil] at mem
      dsimp only [retypeLast] at mem
      rcases eq_nil_or_concat' groups with rfl | ⟨others, other, rfl⟩
      · cases mem
      · rw [getLast?_concat, dropLast_concat] at mem
        rcases mem_append.mp mem with isOther | isLast
        · exact typed group (mem_append_left _ isOther)
        · rw [mem_singleton.mp isLast]
          exact Group.typed_retype (typed other (mem_append_right _ mem_cons_self))
    · rw [addGroups, isTests, addTests, getLast?_concat, dropLast_concat] at mem
      rcases mem_append.mp mem with before | isNew
      · exact typed group before
      · rw [mem_singleton.mp isNew]
        exact ⟨typedCondition, isTests ▸ ok⟩
  | number rule_type param number comparison_op =>
    rcases mem_append.mp mem with before | isNew
    · exact typed group before
    · rw [mem_singleton.mp isNew]
      refine ⟨?_, ?_⟩
      · cases rule_type <;> rfl
      · cases comparison_op with
        | equal =>
          obtain ⟨val, isValue | isValue⟩ := typedCondition
          · exact ⟨_, isValue, .inl ⟨number, val, rfl, .inl rfl⟩⟩
          · exact ⟨_, isValue, .inl ⟨number, val, rfl, .inr rfl⟩⟩
        | and =>
          obtain ⟨val, isValue⟩ := typedCondition
          exact ⟨_, isValue, .inr ⟨number, val, rfl, rfl⟩⟩
        | range =>
          obtain ⟨val, isValue | isValue⟩ := typedCondition
          · exact ⟨_, isValue, .inl ⟨number, val, rfl, .inl rfl⟩⟩
          · exact ⟨_, isValue, .inl ⟨number, val, rfl, .inr rfl⟩⟩

end

/-!
## Actions of rules

Whether a rule can be made does not depend on its action.
-/

section

/-- A rule with another action. -/
def PolicyRule.withAction (action : PolicyAction) (rule : PolicyRule) : PolicyRule :=
  { rule with action_ := action }

variable {rule : PolicyRule} (action : PolicyAction)

open PolicyRule

@[simp]
theorem memory_size_withAction : (rule.withAction action).memory_size = rule.memory_size := rfl

@[simp]
theorem done_withAction : (rule.withAction action).done_ = rule.done_ := rfl

theorem makeBase_withAction : (rule.withAction action).makeBase opcode options selected_param =
      (rule.makeBase opcode options selected_param).map (withAction action) := by
  rw [makeBase, makeBase, memory_size_withAction]
  by_cases full : rule.memory_size < sizeofPolicyOpcode
  · rw [if_pos full, if_pos full]
    rfl
  · rw [if_neg full, if_neg full]
    rfl

theorem makeOpWStringMatch_withAction :
    (rule.withAction action).makeOpWStringMatch selected_param match_str start_position
        match_opts options =
      (rule.makeOpWStringMatch selected_param match_str start_position match_opts
        options).map (withAction action) := by
  rw [makeOpWStringMatch, makeOpWStringMatch, makeBase_withAction]
  split
  · rfl
  · cases rule.makeBase (.wStringMatch match_str start_position match_opts) options
        (some selected_param) with
    | none => rfl
    | some made =>
      simp only [map_some, bind_eq_bind, bind_some]
      by_cases full : made.memory_size < (match_str.length + 1) * sizeofWChar
      · have fullToo : (made.withAction action).memory_size <
            (match_str.length + 1) * sizeofWChar := full
        rw [if_pos full, if_pos fullToo]
        rfl
      · have roomToo : ¬ (made.withAction action).memory_size <
            (match_str.length + 1) * sizeofWChar := full
        rw [if_neg full, if_neg roomToo]
        rfl

theorem setLastOptions_withAction : (rule.withAction action).setLastOptions options =
      (rule.setLastOptions options).withAction action := by
  rw [PolicyRule.setLastOptions, PolicyRule.setLastOptions]
  dsimp only [withAction]
  cases rule.opcodes.getLast? <;> rfl

theorem genStringOpcode_withAction (match_opts : StringMatchOptions) (param : Nat)
    (s : PendingState) (last_call : Bool) (skip_count : Int) (frag : WString) :
    (rule.withAction action).genStringOpcode rule_type match_opts param s
        last_call skip_count frag =
      (rule.genStringOpcode rule_type match_opts param s last_call skip_count
        frag).map fun made => (made.1.withAction action, made.2) := by
  rw [genStringOpcode.eq_def, genStringOpcode.eq_def]
  by_cases isEmpty : frag.isEmpty = true
  · rw [if_pos isEmpty, if_pos isEmpty, setLastOptions_withAction]
    cases last_call <;> rfl
  · rw [if_neg isEmpty, if_neg isEmpty]
    have isMade : ∀ (start_position : Int) (made_opts : StringMatchOptions) (left : Int),
        (((rule.withAction action).makeOpWStringMatch param frag start_position
          made_opts (stringOptions rule_type last_call)).bind fun made =>
            some (made, left, ([] : WString))) =
        ((rule.makeOpWStringMatch param frag start_position made_opts
          (stringOptions rule_type last_call)).bind fun made =>
            some (made, left, ([] : WString))).map fun made =>
              (made.1.withAction action, made.2) := by
      intro start_position made_opts left
      rw [makeOpWStringMatch_withAction]
      cases rule.makeOpWStringMatch param frag start_position made_opts
        (stringOptions rule_type last_call) <;> rfl
    cases s with
    | asterisk => exact isMade _ _ _
    | qmark => exact isMade _ _ _
    | none_ => exact isMade _ _ _

theorem addStringLoop_withAction (param : Nat) (match_opts : StringMatchOptions)
    (string : WString) (last_char : LastChar) (s : PendingState) (skip_count : Int)
    (frag : WString) :
    addStringLoop rule_type param match_opts string (rule.withAction action) last_char
        s skip_count frag =
      (addStringLoop rule_type param match_opts string rule last_char s skip_count
        frag).map (withAction action) := by
  induction string using patternTokens.induct generalizing rule last_char s skip_count frag with
  | case1 =>
    rw [addStringLoop, addStringLoop, genStringOpcode_withAction]
    cases rule.genStringOpcode rule_type match_opts param s true skip_count frag <;> rfl
  | case2 string ih =>
    rw [addStringLoop.eq_def, addStringLoop.eq_def _ _ _ (asteriskChar :: string)]
    dsimp only
    rw [if_pos rfl, if_pos rfl, genStringOpcode_withAction]
    split
    · rfl
    · cases rule.genStringOpcode rule_type match_opts param s false skip_count frag with
      | none => rfl
      | some made => exact ih _ _ _ _
  | case3 string notAsterisk ih =>
    rw [addStringLoop.eq_def, addStringLoop.eq_def _ _ _ (questionChar :: string)]
    dsimp only
    rw [if_neg notAsterisk, if_pos rfl, if_neg notAsterisk, if_pos rfl, genStringOpcode_withAction]
    split
    · rfl
    · cases rule.genStringOpcode rule_type match_opts param s false skip_count frag with
      | none => rfl
      | some made => exact ih _ _ _ _
  | case4 current_char notAsterisk notQuestion next_char rest isEscape ih =>
      rw [addStringLoop.eq_def, addStringLoop.eq_def _ _ _ (current_char :: next_char :: rest)]
      dsimp only
      rw [if_neg notAsterisk, if_neg notQuestion, if_pos isEscape, if_neg notAsterisk,
        if_neg notQuestion, if_pos isEscape]
      exact ih _ _ _ _
  | case5 current_char notAsterisk notQuestion next_char rest notEscape ih =>
      rw [addStringLoop.eq_def, addStringLoop.eq_def _ _ _ (current_char :: next_char :: rest)]
      dsimp only
      rw [if_neg notAsterisk, if_neg notQuestion, if_neg notEscape, if_neg notAsterisk,
        if_neg notQuestion, if_neg notEscape]
      exact ih _ _ _ _
  | case6 current_char notAsterisk notQuestion =>
    rw [addStringLoop.eq_def, addStringLoop.eq_def _ _ _ [current_char]]
    dsimp only
    rw [if_neg notAsterisk, if_neg notQuestion, if_neg notAsterisk, if_neg notQuestion,
      addStringLoop, addStringLoop, genStringOpcode_withAction]
    cases rule.genStringOpcode rule_type match_opts param s true skip_count
      (frag ++ [current_char]) <;> rfl

theorem addCondition_withAction : (rule.withAction action).addCondition condition =
      (rule.addCondition condition).map (withAction action) := by
  cases condition with
  | string rule_type param pattern ci =>
    rw [addCondition, addCondition, addStringMatch, addStringMatch,
      addStringLoop_withAction, done_withAction]
    by_cases isDone : rule.done_ = true
    · rw [if_pos isDone, if_pos isDone]
      rfl
    · rw [if_neg isDone, if_neg isDone]
  | number rule_type param number comparison_op =>
    rw [addCondition, addCondition, addNumberMatch.eq_def, addNumberMatch.eq_def]
    simp only [makeBase_withAction, done_withAction]
    by_cases isDone : rule.done_ = true
    · rw [if_pos isDone, if_pos isDone]
      rfl
    · rw [if_neg isDone, if_neg isDone]
      cases comparison_op <;> rfl

/-- A rule that can be made can be made with each action. -/
theorem ruleOf_withAction (isMade : ruleOf conditions other = some made) :
    ∃ again, ruleOf conditions action = some again := by
  obtain ⟨rule, isRule, isFinished⟩ := bind_eq_some_iff.mp isMade
  have isFolded : ∀ (conditions : List Condition) (start : PolicyRule),
      conditions.foldlM addCondition (start.withAction action) =
        (conditions.foldlM addCondition start).map (withAction action) := by
    intro conditions
    induction conditions with
    | nil => exact fun start => rfl
    | cons condition conditions ih =>
      intro start
      rw [foldlM_cons, foldlM_cons, addCondition_withAction]
      cases start.addCondition condition with
      | none => rfl
      | some next => exact ih next
  have isAgain := isFolded conditions (PolicyRule.create other)
  rw [isRule, map_some] at isAgain
  have isDone : ∃ again, (rule.withAction action).done = some again := by
    rw [done, done_withAction]
    rw [done] at isFinished
    by_cases isDone : rule.done_ = true
    · exact ⟨_, if_pos isDone⟩
    · rw [if_neg isDone] at isFinished ⊢
      obtain ⟨next, isNext, -⟩ := bind_eq_some_iff.mp isFinished
      rw [makeBase] at isNext ⊢
      by_cases full : rule.memory_size < sizeofPolicyOpcode
      · rw [if_pos full] at isNext
        cases isNext
      · rw [memory_size_withAction, if_neg full]
        exact ⟨_, rfl⟩
  obtain ⟨again, isDone⟩ := isDone
  refine ⟨again, ?_⟩
  exact bind_eq_some_iff.mpr ⟨_, isAgain, isDone⟩

end

end Chromium.Sandbox
