import Chromium.Sandbox.PolicyRules

/-!
# First match

The evaluation of a policy takes the first rule that is accepted as it was
compiled. That is the first rule that qualifies if the rules up to it are
judged as they are meant.
-/

namespace Chromium.Sandbox

open List Option Function Prod
open Library Library.Glob

/-- A rule is accepted, as it was compiled, exactly if all its conditions hold. -/
def JudgedRight (upcase : WChar -> WChar) (params : List ParameterSet)
    (conditions : List Condition) :
    Prop :=
  accepted upcase params (groupsOf conditions) = true ↔ Qualifies upcase params conditions

variable {upcase : WChar -> WChar} {params : List ParameterSet}
  {conditions : List Condition} {rules : List (List Condition × PolicyAction)}
  {policy : List PolicyOpcode} {takes : List Condition -> Prop}

theorem IsFirst.eq_of_split (isFirst : IsFirst takes (front ++ rule :: back) result)
    (before : ∀ other ∈ front, ¬ takes other.1) (isTaken : takes rule.1) :
    result = (.policyMatch, rule.2.val) := by
  rcases isFirst with ⟨start, other, rest, isSplit, earlier, isOther, isResult⟩ | ⟨none_, -⟩
  · rcases append_eq_append_iff.mp isSplit with
      ⟨between, rfl, isRest⟩ | ⟨between, rfl, isRest⟩
    · rcases cons_eq_append_iff.mp isRest with ⟨rfl, same⟩ | ⟨others, rfl, -⟩
      · cases same
        exact isResult
      · exact absurd isTaken (earlier rule (mem_append_right _ mem_cons_self))
    · rcases cons_eq_append_iff.mp isRest with ⟨rfl, same⟩ | ⟨others, rfl, -⟩
      · cases same
        exact isResult
      · exact absurd isOther (before other (mem_append_right _ mem_cons_self))
  · exact absurd isTaken (none_ rule (mem_append_right _ mem_cons_self))

theorem exists_firstRule (isTaken : ∃ rule ∈ rules, takes rule.1) :
    ∃ front rule back, rules = front ++ rule :: back ∧
      (∀ other ∈ front, ¬ takes other.1) ∧ takes rule.1 := by
  induction rules with
  | nil =>
    obtain ⟨rule, mem, -⟩ := isTaken
    cases mem
  | cons first rules ih =>
    by_cases takesFirst : takes first.1
    · exact ⟨[], first, rules, rfl, forall_mem_nil _, takesFirst⟩
    · obtain ⟨rule, mem, takesRule⟩ := isTaken
      rcases mem_cons.mp mem with rfl | later
      · exact absurd takesRule takesFirst
      · obtain ⟨front, other, back, rfl, before, takesOther⟩ := ih ⟨rule, later, takesRule⟩
        exact ⟨first :: front, other, back, rfl,
          forall_mem_cons.mpr ⟨takesFirst, before⟩, takesOther⟩

theorem typed_groupsOf (isMade : ruleOf conditions action = some made)
    (typed : ∀ condition ∈ conditions, condition.Typed params) :
    ∀ group ∈ groupsOf conditions, group.Typed params := by
  obtain ⟨rule, isRule, -⟩ := bind_eq_some_iff.mp isMade
  have isFolded : ∀ (conditions : List Condition) (start : PolicyRule)
      (groups : List Group), conditions.foldlM PolicyRule.addCondition start = some rule ->
      (∀ condition ∈ conditions, condition.Typed params) ->
      (∀ group ∈ groups, group.Typed params) ->
      ∀ group ∈ conditions.foldl addGroups groups, group.Typed params := by
    intro conditions
    induction conditions with
    | nil => exact fun start groups _ _ typedGroups => typedGroups
    | cons condition conditions ih =>
      intro start groups isRule typedAll typedGroups
      obtain ⟨next, isNext, isRest⟩ := bind_eq_some_iff.mp isRule
      obtain ⟨typedFirst, typedRest⟩ := forall_mem_cons.mp typedAll
      exact ih next _ isRest typedRest (typed_addGroups isNext typedGroups typedFirst)
  exact isFolded conditions _ [] isRule typed fun _ mem => absurd mem not_mem_nil

theorem exists_ruleOf_of_policy (isPolicy : policyOf rules = some policy) :
    ∀ rule ∈ rules, ∃ made, ruleOf rule.1 rule.2 = some made := by
  induction rules generalizing policy with
  | nil => exact forall_mem_nil _
  | cons rule rules ih =>
    obtain ⟨made, isMade, isRest⟩ := bind_eq_some_iff.mp isPolicy
    obtain ⟨opcodes, isOpcodes, -⟩ := bind_eq_some_iff.mp isRest
    exact forall_mem_cons.mpr ⟨⟨made, isMade⟩, ih isOpcodes⟩

theorem exists_policy (isMade : ∀ rule ∈ rules, ∃ made, ruleOf rule.1 rule.2 = some made) :
    ∃ policy, policyOf rules = some policy := by
  induction rules with
  | nil => exact ⟨[], rfl⟩
  | cons rule rules ih =>
    obtain ⟨⟨made, isFirst⟩, isRest⟩ := forall_mem_cons.mp isMade
    obtain ⟨policy, isPolicy⟩ := ih isRest
    refine ⟨made.opcodes ++ policy, ?_⟩
    simp only [policyOf, isFirst, isPolicy, bind_eq_bind, bind_some]

/-- The first rule that is accepted as it was compiled is taken. -/
theorem evaluate_isFirst (isPolicy : policyOf rules = some policy)
    (typed : ∀ rule ∈ rules, ∀ condition ∈ rule.1, condition.Typed params) :
    IsFirst (fun conditions => accepted upcase params (groupsOf conditions) = true)
      rules (evaluate upcase policy kShortEval params) := by
  have isMade := exists_ruleOf_of_policy isPolicy
  have isEvaluated := @evaluate_rules upcase params kShortEval (by decide)
    (rules.map fun rule => (groupsOf rule.1, rule.2)) (by
      intro compiled mem
      obtain ⟨rule, isRule, rfl⟩ := List.mem_map.mp mem
      obtain ⟨made, isRuleOf⟩ := isMade rule isRule
      exact typed_groupsOf isRuleOf (typed rule isRule))
  rw [policyOf_eq_some isPolicy, isEvaluated, find?_map]
  cases hit : rules.find? ((fun rule => accepted upcase params rule.1) ∘
      fun rule => (groupsOf rule.1, rule.2)) with
  | none =>
    rw [find?_eq_none] at hit
    exact .inr ⟨hit, rfl⟩
  | some rule =>
    obtain ⟨isAccepted, front, back, isSplit, before⟩ := List.find?_eq_some_iff_append.mp hit
    refine .inl ⟨front, rule, back, isSplit, ?_, isAccepted, rfl⟩
    intro other mem isOther
    have notAccepted := before other mem
    rw [comp_apply, isOther] at notAccepted
    cases notAccepted

/-- The subject does not match `a*b`, but the number is another. -/
def misjudgedConditions : List Condition :=
  [.string .ifNot 0 [97, 42, 98] false, .number .if_ 1 24 .equal]

end Chromium.Sandbox
