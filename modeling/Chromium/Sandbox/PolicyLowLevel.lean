import Chromium.Library.Glob

/-!
# Policy opcodes

A policy is a sequence of opcodes, each of which compares one parameter of a
call or says what to do. The parameters and the opcodes are those of a 32-bit
process, where the length of a string fits in an `int`.
-/

namespace Chromium.Sandbox

open List Option

/-- A `wchar_t`. -/
abbrev WChar := UInt16

abbrev WString := List WChar

inductive EvalResult
  | evalTrue
  | evalFalse
  | evalError
  | askBroker
  | denyAccess
  | giveReadonly
  | giveAllaccess
  | giveCached
  | giveFirst
  | signalAlarm
  | fakeSuccess
  | fakeAccessDenied
  | terminateProcess
deriving DecidableEq

/-- The values of an action opcode. -/
def EvalResult.isAction : EvalResult -> Bool
  | .evalTrue => false
  | .evalFalse => false
  | .evalError => false
  | _ => true

/-- The options of an opcode, `kPolNegateEval`, `kPolClearContext` and
`kPolUseOREval`. -/
structure PolOptions where
  negateEval : Bool
  clearContext : Bool
  useOREval : Bool
deriving DecidableEq

def kPolNone : PolOptions := ⟨false, false, false⟩

def kPolNegateEval : PolOptions := ⟨true, false, false⟩

def kPolClearContext : PolOptions := ⟨false, true, false⟩

def kPolUseOREval : PolOptions := ⟨false, false, true⟩

structure MatchContext where
  position : Nat
  options : PolOptions
deriving DecidableEq

def MatchContext.clear : MatchContext := ⟨0, kPolNone⟩

structure StringMatchOptions where
  caseInsensitive : Bool
  exactLenght : Bool
deriving DecidableEq

def kSeekForward : Int := -1

def kSeekToEnd : Int := 0xfffff

/-- An opcode with its arguments. -/
inductive Opcode
  | alwaysFalse
  | alwaysTrue
  | numberMatch (match_ : UInt32)
  | ulongMatchRange (lower_bound upper_bound : UInt32)
  | ulongAndMatch (number : UInt32)
  | wStringMatch (match_str : WString) (start_position : Int) (match_opts : StringMatchOptions)
  | action (action : EvalResult)
deriving DecidableEq

/-- A `PolicyOpcode`; one that needs no parameter selects none. -/
structure PolicyOpcode where
  opcode : Opcode
  parameter_ : Option Nat
  options_ : PolOptions
deriving DecidableEq

def PolicyOpcode.isAction (opcode : PolicyOpcode) : Bool :=
  match opcode.opcode with
  | .action _ => true
  | _ => false

/-- A `ParameterSet`, by the type of what it holds. -/
inductive ParameterSet
  | invalid
  | ulong (value : UInt32)
  | voidPtr (value : UInt32)
  | wchar (value : WString)
  | unistr
deriving DecidableEq

section Evaluation

-- `RtlUpcaseUnicodeChar`, by which the system compares without case.
variable (upcase : WChar -> WChar)

/-- `RtlCompareUnicodeString` finds no difference between two strings. -/
def compareUnicodeString (ci : Bool) (string other : WString) : Bool :=
  if ci then string.map upcase = other.map upcase else string = other

/-- Compare forward until a match is found: the distance that was skipped. -/
def seekForward (ci : Bool) (match_str : WString) : WString -> Option Nat
  | [] => none
  | unit :: source =>
    if compareUnicodeString upcase ci match_str
        ((unit :: source).take match_str.length) then some 0
    else if match_str.length <= source.length then
      (seekForward ci match_str source).map (· + 1)
    else none

/-- `OpcodeEval<OP_WSTRING_MATCH>`. -/
def opcodeEvalWStringMatch (match_str : WString) (start_position : Int)
    (match_opts : StringMatchOptions) (param : ParameterSet) (context : MatchContext) :
    EvalResult × MatchContext :=
  match param with
  | .wchar string =>
    let source_str := string.drop context.position
    let source_len : Int := source_str.length
    let match_len : Int := match_str.length
    if source_len = 0 then (.evalFalse, context)
    else if match_len > source_len then (.evalFalse, context)
    else if start_position ≥ 0 then
      if start_position ≠ kSeekToEnd ∧ match_opts.exactLenght = true ∧
          match_len + start_position ≠ source_len then
        (.evalFalse, context)
      else
        let start_position :=
          if start_position = kSeekToEnd then source_len - match_len
          else start_position
        if match_len + start_position > source_len then (.evalFalse, context)
        else if compareUnicodeString upcase match_opts.caseInsensitive match_str
            ((source_str.drop start_position.toNat).take match_str.length) then
          (.evalTrue, { context with
            position := context.position + (start_position.toNat + match_str.length) })
        else (.evalFalse, context)
    else
      match seekForward upcase match_opts.caseInsensitive match_str source_str with
      | some skipped =>
        (.evalTrue, { context with
          position := context.position + (skipped + match_str.length) })
      | none => (.evalFalse, context)
  | _ => (.evalError, context)

/-- `OpcodeEval<OP_NUMBER_MATCH>`. -/
def opcodeEvalNumberMatch (match_ : UInt32) : ParameterSet -> EvalResult
  | .ulong value => if match_ ≠ value then .evalFalse else .evalTrue
  | .voidPtr value => if match_ ≠ value then .evalFalse else .evalTrue
  | _ => .evalError

/-- `OpcodeEval<OP_ULONG_MATCH_RANGE>`. -/
def opcodeEvalUlongMatchRange (lower_bound upper_bound : UInt32) : ParameterSet -> EvalResult
  | .ulong value => if lower_bound <= value ∧ upper_bound ≥ value then .evalTrue else .evalFalse
  | _ => .evalError

/-- `OpcodeEval<OP_ULONG_AND_MATCH>`. -/
def opcodeEvalUlongAndMatch (number : UInt32) : ParameterSet -> EvalResult
  | .ulong value => if number &&& value ≠ 0 then .evalTrue else .evalFalse
  | _ => .evalError

namespace PolicyOpcode

/-- The dispatch on the kind of the opcode. -/
def evaluateHelper (opcode : PolicyOpcode) (selected_param : ParameterSet)
    (context : MatchContext) :
    EvalResult × MatchContext :=
  match opcode.opcode with
  | .alwaysFalse => (.evalFalse, context)
  | .alwaysTrue => (.evalTrue, context)
  | .numberMatch match_ => (opcodeEvalNumberMatch match_ selected_param, context)
  | .ulongMatchRange lower_bound upper_bound =>
    (opcodeEvalUlongMatchRange lower_bound upper_bound selected_param, context)
  | .ulongAndMatch number => (opcodeEvalUlongAndMatch number selected_param, context)
  | .wStringMatch match_str start_position match_opts =>
    opcodeEvalWStringMatch upcase match_str start_position match_opts selected_param context
  | .action action => (action, context)

/-- What `kPolNegateEval` makes of a result. -/
def negated : EvalResult -> EvalResult
  | .evalTrue => .evalFalse
  | .evalFalse => .evalTrue
  | _ => .evalError

def evaluate (opcode : PolicyOpcode) (call_params : List ParameterSet) (context : MatchContext) :
    EvalResult × MatchContext :=
  -- Only the opcodes that read no parameter select none.
  let selected_param : Option ParameterSet := match opcode.parameter_ with
    | none => some .invalid
    | some parameter => call_params[parameter]?
  match selected_param with
  | none => (.evalError, context)
  | some selected_param =>
    let (result, context) := opcode.evaluateHelper upcase selected_param context
    let result := if opcode.options_.negateEval then negated result else result
    let context := if opcode.options_.clearContext then MatchContext.clear else context
    let context := if opcode.options_.useOREval then { context with options := kPolUseOREval }
      else context
    (result, context)

end PolicyOpcode

inductive PolicyResult
  | noPolicyMatch
  | policyMatch
  | policyError
deriving DecidableEq

def kStopOnErrors : UInt32 := 0

def kShortEval : UInt32 := 2

/-- `SkipOpcode`: whether the opcode is skipped, the context, and whether to keep
skipping. -/
def skipOpcode (opcode : PolicyOpcode) (context : MatchContext) : Bool × MatchContext × Bool :=
  if opcode.isAction then (if kPolUseOREval = context.options then false else true, .clear, false)
  else (true, context, true)

/-- The loop of `PolicyProcessor::Evaluate`, with the result and the action. -/
def evaluateLoop (options : UInt32) (params : List ParameterSet) :
    List PolicyOpcode -> MatchContext -> Bool -> Bool -> PolicyResult × EvalResult
  | [], _, evaluation, _ => (if evaluation then .policyError else .noPolicyMatch, .evalFalse)
  | opcode :: opcodes, context, evaluation, skip_group =>
    let (skips, context, skip_group) :=
      if skip_group then skipOpcode opcode context else (false, context, skip_group)
    if skips then evaluateLoop options params opcodes context evaluation skip_group
    else
      let (result, context) := opcode.evaluate upcase params context
      match result with
      | .evalFalse =>
        evaluateLoop options params opcodes context false
          (if kPolUseOREval ≠ context.options then true else skip_group)
      | .evalError =>
        if kStopOnErrors &&& options ≠ 0 then (.policyError, .evalFalse)
        else evaluateLoop options params opcodes context evaluation skip_group
      | .evalTrue =>
        evaluateLoop options params opcodes context true
          (if kPolUseOREval = context.options then true else skip_group)
      | action => (.policyMatch, action)

/-- `PolicyProcessor::Evaluate`, with what `GetAction` returns after it. -/
def evaluate (policy : List PolicyOpcode) (options : UInt32) (params : List ParameterSet) :
    PolicyResult × EvalResult :=
  if policy.isEmpty then (.noPolicyMatch, .evalFalse)
  else if kShortEval &&& options = 0 then (.policyError, .evalFalse)
  else evaluateLoop upcase options params policy .clear false false

end Evaluation

/-!
## Policy rules

A rule collects comparisons, which are compiled to opcodes as they are added,
and ends with an action. A string pattern is compiled to one opcode for each
fragment between its wildcards.
-/

def kRuleBufferSize : Nat := 1024 * 4

/-- `sizeof(PolicyOpcode)`. -/
def sizeofPolicyOpcode : Nat := 24

/-- `sizeof(wchar_t)`. -/
def sizeofWChar : Nat := 2

inductive RuleType
  | if_
  | ifNot
deriving DecidableEq

inductive RuleOp
  | equal
  | and
  | range
deriving DecidableEq

/-- An outcome of a policy. -/
abbrev PolicyAction := { result : EvalResult // result.isAction = true }

/-- A `PolicyRule`, with the memory that its opcode factory has left. -/
structure PolicyRule where
  opcodes : List PolicyOpcode
  memory_size : Nat
  action_ : PolicyAction
  done_ : Bool
deriving DecidableEq

/-- The states of the generator of string opcodes. -/
inductive PendingState
  | none_
  | asterisk
  | qmark
deriving DecidableEq

/-- The kinds of the last character, `kLastCharIs…`. -/
inductive LastChar
  | none_
  | alpha
  | asterisk
  | questionM
deriving DecidableEq

/-- The character has the bit `kLastCharIsWild`. -/
def LastChar.isWild : LastChar -> Bool
  | .asterisk => true
  | .questionM => true
  | _ => false

def asteriskChar : WChar := 42

def slashChar : WChar := 47

def questionChar : WChar := 63

namespace PolicyRule

def create (action : PolicyAction) : PolicyRule where
  opcodes := []
  memory_size := kRuleBufferSize + sizeofPolicyOpcode
  action_ := action
  done_ := false

section

variable (rule : PolicyRule)

/-- `MakeBase`: create an opcode if there is memory for it. -/
def makeBase (opcode : Opcode) (options : PolOptions) (selected_param : Option Nat) :
    Option PolicyRule :=
  if rule.memory_size < sizeofPolicyOpcode then none
  else some { rule with
    opcodes := rule.opcodes ++ [⟨opcode, selected_param, options⟩]
    memory_size := rule.memory_size - sizeofPolicyOpcode }

def makeOpWStringMatch (selected_param : Nat) (match_str : WString)
    (start_position : Int) (match_opts : StringMatchOptions) (options : PolOptions) :
    Option PolicyRule :=
  if match_str.isEmpty then none
  else do
    let rule ← rule.makeBase (.wStringMatch match_str start_position match_opts)
      options (some selected_param)
    -- The string and its end are put at the bottom of the memory.
    let bytes := (match_str.length + 1) * sizeofWChar
    if rule.memory_size < bytes then none
    else some { rule with memory_size := rule.memory_size - bytes }

/-- `SetOptions`, of the opcode that was made last. -/
def setLastOptions (options : PolOptions) : PolicyRule :=
  match rule.opcodes.getLast? with
  | none => rule
  | some op => { rule with opcodes := rule.opcodes.dropLast ++ [{ op with options_ := options }] }

/-- The options of a string opcode. -/
def stringOptions (rule_type : RuleType) (last_call : Bool) : PolOptions :=
  if last_call then
    match rule_type with
    | .ifNot => { kPolClearContext with negateEval := true }
    | .if_ => kPolClearContext
  else
    match rule_type with
    | .ifNot => { kPolUseOREval with negateEval := true }
    | .if_ => kPolNone

/-- `GenStringOpcode`, with the count of skipped characters and the fragment that
it leaves. -/
def genStringOpcode (rule_type : RuleType) (match_opts : StringMatchOptions)
    (parameter : Nat) (state : PendingState) (last_call : Bool) (skip_count : Int)
    (frag : WString) :
    Option (PolicyRule × Int × WString) :=
  let options := stringOptions rule_type last_call
  if frag.isEmpty then
    -- The opcode that was made before was the last one.
    some (if last_call then rule.setLastOptions options else rule, skip_count, frag)
  else
    match state with
    | .asterisk => do
        let rule ← rule.makeOpWStringMatch parameter frag
          (if last_call then kSeekToEnd else kSeekForward) match_opts options
        some (rule, skip_count, [])
    | .qmark => do
        let rule ← rule.makeOpWStringMatch parameter frag skip_count match_opts options
        some (rule, 0, [])
    | .none_ => do
        let match_opts := if last_call then { match_opts with exactLenght := true } else match_opts
        let rule ← rule.makeOpWStringMatch parameter frag 0 match_opts options
        some (rule, skip_count, [])

end

/-- The loop of `AddStringMatch`. -/
def addStringLoop (rule_type : RuleType) (parameter : Nat) (match_opts : StringMatchOptions) :
    WString -> PolicyRule -> LastChar -> PendingState -> Int -> WString -> Option PolicyRule
  | [], rule, _, state, skip_count, frag => do
      let (rule, _, _) ← rule.genStringOpcode rule_type match_opts parameter state true
        skip_count frag
      some rule
  | current_char :: string, rule, last_char, state, skip_count, frag =>
    if current_char = asteriskChar then
      if last_char.isWild then none
      else do
        let (rule, skip_count, frag) ← rule.genStringOpcode rule_type match_opts
          parameter state false skip_count frag
        addStringLoop rule_type parameter match_opts string rule .asterisk .asterisk skip_count frag
    else if current_char = questionChar then
      if last_char = .asterisk then none
      else do
        let (rule, skip_count, frag) ← rule.genStringOpcode rule_type match_opts
          parameter state false skip_count frag
        addStringLoop rule_type parameter match_opts string rule .questionM .qmark
          (skip_count + 1) frag
    else
      match string with
      | next_char :: rest =>
        -- An escaped question mark loses its slash.
        if current_char = slashChar ∧ next_char = questionChar then
          addStringLoop rule_type parameter match_opts rest rule .alpha state
            skip_count (frag ++ [next_char])
        else
          addStringLoop rule_type parameter match_opts (next_char :: rest) rule
            .alpha state skip_count (frag ++ [current_char])
      | [] =>
        addStringLoop rule_type parameter match_opts [] rule .alpha state skip_count
          (frag ++ [current_char])

variable (rule : PolicyRule)

/-- `AddStringMatch`. -/
def addStringMatch (rule_type : RuleType) (parameter : Nat) (string : WString)
    (match_opts : StringMatchOptions) :
    Option PolicyRule :=
  if rule.done_ then none
  else addStringLoop rule_type parameter match_opts string rule .none_ .none_ 0 []

/-- `AddNumberMatch`. -/
def addNumberMatch (rule_type : RuleType) (parameter : Nat) (number : UInt32)
    (comparison_op : RuleOp) :
    Option PolicyRule :=
  if rule.done_ then none
  else
    let opts := if rule_type = .ifNot then kPolNegateEval else kPolNone
    match comparison_op with
    | .equal => rule.makeBase (.numberMatch number) opts (some parameter)
    | .and => rule.makeBase (.ulongAndMatch number) opts (some parameter)
    -- Not implemented: an opcode that was not made would be counted.
    | .range => none

/-- `Done`: end the rule with its action. -/
def done : Option PolicyRule :=
  if rule.done_ then some rule
  else do
    let rule ← rule.makeBase (.action rule.action_.val) kPolNone none
    some { rule with done_ := true }

end PolicyRule

/-!
## String opcodes

A string opcode looks for its fragment behind the last position that was
matched.
-/

section

open Library Library.Glob

/-- What makes two characters equal in a comparison. -/
def foldOf (upcase : WChar -> WChar) (ci : Bool) (unit : WChar) : WChar :=
  if ci then upcase unit else unit

/-- The start position of an opcode. -/
def anchorStart : Anchor -> Int
  | .at_ skipped => skipped
  | .exact_ => 0
  | .forward => kSeekForward
  | .toEnd => kSeekToEnd

def anchorOptions (ci : Bool) (anchor : Anchor) : StringMatchOptions where
  caseInsensitive := ci
  exactLenght := anchor = .exact_

variable {upcase : WChar -> WChar} {ci : Bool} {match_str source : WString}

theorem compareUnicodeString_iff : compareUnicodeString upcase ci string other = true ↔
      other.map (foldOf upcase ci) = string.map (foldOf upcase ci) := by
  rw [compareUnicodeString]
  cases ci with
  | true =>
    rw [if_pos rfl, decide_eq_true_eq, eq_comm]
    rfl
  | false =>
    have same : foldOf upcase false = id := rfl
    rw [if_neg Bool.false_ne_true, decide_eq_true_eq, same, List.map_id, List.map_id, eq_comm]

theorem compareUnicodeString_take : compareUnicodeString upcase ci match_str
        ((source.drop skipped).take match_str.length) = true ↔
      Occurs (foldOf upcase ci) match_str (source.drop skipped) := by
  rw [compareUnicodeString_iff]
  rfl

/-- The first match is the leftmost occurrence. -/
theorem seekForward_eq (ne : match_str ≠ []) (room : match_str.length <= source.length) :
    (seekForward upcase ci match_str source).map (· + match_str.length) =
      consumed (foldOf upcase ci) .forward match_str source := by
  apply congrArg (Option.map (· + match_str.length))
  induction source with
  | nil => exact absurd (length_eq_zero_iff.mp (Nat.le_zero.mp room)) ne
  | cons unit source ih =>
    rw [seekForward, length_cons, range_succ_eq_map, find?_cons]
    have isHere : compareUnicodeString upcase ci match_str
        ((unit :: source).take match_str.length) =
          decide (Occurs (foldOf upcase ci) match_str ((unit :: source).drop 0)) := by
      rw [Bool.eq_iff_iff, decide_eq_true_eq, ← compareUnicodeString_take]
      rfl
    rw [isHere]
    by_cases here : Occurs (foldOf upcase ci) match_str ((unit :: source).drop 0)
    · rw [decide_eq_true here]
      rfl
    · rw [decide_eq_false here, if_neg Bool.false_ne_true, find?_map]
      by_cases further : match_str.length <= source.length
      · rw [if_pos further, ih further]
        rfl
      · rw [if_neg further, eq_comm]
        rw [map_eq_none_iff, find?_eq_none]
        intro skipped inside occurs
        rw [Function.comp_apply, decide_eq_true_eq] at occurs
        have long := occurs.length_le
        rw [length_drop, length_cons] at long
        omega

/-- A string opcode advances behind its fragment. -/
theorem opcodeEvalWStringMatch_eq {anchor : Anchor}
    (proper : ∀ skipped, anchor = .at_ skipped -> (skipped : Int) ≠ kSeekToEnd)
    (ne : match_str ≠ []) (string : WString)
    (context : MatchContext) :
    opcodeEvalWStringMatch upcase match_str (anchorStart anchor)
        (anchorOptions ci anchor) (.wchar string) context =
      match consumed (foldOf upcase ci) anchor match_str
          (string.drop context.position) with
      | some count => (.evalTrue, { context with position := context.position + count })
      | none => (.evalFalse, context) := by
  have long := length_pos_of_ne_nil ne
  rw [opcodeEvalWStringMatch]
  generalize string.drop context.position = source
  by_cases room : match_str.length <= source.length
  swap
  · -- There is no room for the fragment.
    have isNone : consumed (foldOf upcase ci) anchor match_str source = none := by
      cases anchor with
      | at_ skipped =>
        apply if_neg
        intro occurs
        have := occurs.length_le
        rw [length_drop] at this
        omega
      | exact_ => exact if_neg fun hit => room (Nat.le_of_eq hit.1.symm)
      | forward =>
        rw [consumed, map_eq_none_iff, find?_eq_none]
        intro skipped inside occurs
        have := (of_decide_eq_true occurs).length_le
        rw [length_drop] at this
        omega
      | toEnd => exact if_neg fun hit => room hit.1
    rw [isNone]
    split
    · rfl
    · rw [if_pos (by omega)]
  rw [if_neg (by omega), if_neg (by omega)]
  cases anchor with
  | at_ skipped =>
    have differs := proper skipped rfl
    rw [anchorStart, if_pos (by omega), if_neg (by simp [anchorOptions]), if_neg differs]
    simp only [Int.toNat_natCast, anchorOptions, compareUnicodeString_take, consumed]
    by_cases occurs : Occurs (foldOf upcase ci) match_str (source.drop skipped)
    · have within := occurs.length_le
      rw [length_drop] at within
      rw [if_neg (by omega), if_pos occurs, if_pos occurs]
    · rw [if_neg occurs, if_neg occurs, ite_self]
  | exact_ =>
    rw [anchorStart, if_pos (by omega)]
    simp only [anchorOptions, consumed]
    by_cases same : source.length = match_str.length
    · have differs : (0 : Int) ≠ kSeekToEnd := by decide
      have isHere := @compareUnicodeString_take upcase ci match_str source 0
      rw [drop_zero] at isHere
      rw [if_neg (by simp [same]), if_neg differs, if_neg (by omega)]
      simp only [Int.toNat_zero, drop_zero, isHere, same, true_and]
      by_cases occurs : Occurs (foldOf upcase ci) match_str source
      · rw [if_pos occurs, if_pos occurs, Nat.zero_add]
      · rw [if_neg occurs, if_neg occurs]
    · rw [if_pos ⟨by decide, by simp, by omega⟩, if_neg fun hit => same hit.1]
  | forward =>
    rw [← seekForward_eq ne room]
    dsimp only [anchorOptions]
    cases seekForward upcase ci match_str source with
    | none => rfl
    | some skipped => rfl
  | toEnd =>
    rw [anchorStart, if_pos (by decide), if_neg fun hit => hit.1 rfl, if_pos rfl,
      if_neg (by omega)]
    have isStart : ((source.length : Int) - match_str.length).toNat =
        source.length - match_str.length := by
      omega
    simp only [isStart, anchorOptions, compareUnicodeString_take, consumed, room,
      true_and, Nat.sub_add_cancel room]
    split <;> rfl

end

end Chromium.Sandbox
