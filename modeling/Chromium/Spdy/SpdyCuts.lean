import Chromium.Spdy.SpdyProgress
import Chromium.Spdy.SpdySynchronization

/-!
# Cut streams

However a stream without compressed data is cut into pieces, the visitor is told
the same. Only the data of a frame comes in more calls.
-/

namespace Chromium.Spdy

open List
open SpdyFramer (processInput)

variable {σ : Type}

namespace SpdyFramer

/-- `ProcessInput` for the pieces of a stream, up to one that is not consumed.
Each call is made as far as it ends in a number of rounds. -/
def processStream (p : Platform σ) (rounds : Nat) :
    SpdyFramer σ -> List Bytes -> Option (SpdyFramer σ)
  | framer, [] => some framer
  | framer, piece :: pieces =>
    match processInput p rounds framer piece with
    | none => none
    | some (framer, []) => processStream p rounds framer pieces
    | some (framer, _ :: _) => some framer

/-- The data that is forwarded is not compressed. -/
def Plain (framer : SpdyFramer σ) : Prop := framer.state_ = .SPDY_FORWARD_STREAM_FRAME ->
    framer.current_frame_buffer_.flags &&& DATA_FLAG_COMPRESSED = 0

instance (framer : SpdyFramer σ) : Decidable framer.Plain := inferInstanceAs (Decidable (_ -> _))

/-- No data that is read of the input, in a number of rounds, is compressed. -/
def uncompressed (p : Platform σ) : Nat -> SpdyFramer σ -> Bytes -> Bool
  | rounds + 1, framer, byte :: data =>
    decide framer.Plain && match framer.turn p (byte :: data) with
      | none => true
      | some (next, rest) => uncompressed p rounds next rest
  | _, _, _ => true

/-- Other calls come before those of a framer. -/
def behind (before : List VisitorCall) (framer : SpdyFramer σ) : SpdyFramer σ :=
  { framer with calls := before ++ framer.calls }

end SpdyFramer

/-- The calls for a stream, and those for its pieces: of the latter, several may
stand for one with some data. -/
inductive CutCalls : List VisitorCall -> List VisitorCall -> Prop
  | nil : CutCalls [] []
  | call (call : VisitorCall) (others : CutCalls whole cut) : CutCalls (call :: whole) (call :: cut)
  | data (stream_id : Nat) (pieces : List Bytes) (some_ : pieces ≠ [])
      (nonempty : [] ∉ pieces) (others : CutCalls whole cut) :
      CutCalls (.OnStreamFrameData stream_id pieces.flatten :: whole)
        (pieces.map (.OnStreamFrameData stream_id) ++ cut)

namespace CutCalls

theorem append_left (before : List VisitorCall) (cuts : CutCalls whole cut) :
    CutCalls (before ++ whole) (before ++ cut) := by
  induction before with
  | nil => exact cuts
  | cons first before ih => exact .call first ih

/-- More data comes before that of the first call. -/
theorem join (isFirst : first ≠ []) (isSecond : second ≠ [])
    (cuts : CutCalls (.OnStreamFrameData stream_id second :: whole) cut) :
    CutCalls (.OnStreamFrameData stream_id (first ++ second) :: whole)
      (.OnStreamFrameData stream_id first :: cut) := by
  cases cuts with
  | call _ others =>
    have cuts := CutCalls.data stream_id [first, second] (cons_ne_nil _ _)
      (by simp [isFirst.symm, isSecond.symm]) others
    simpa using cuts
  | data _ pieces some_ nonempty others =>
    exact .data stream_id (first :: pieces) (cons_ne_nil _ _)
      (not_mem_cons_of_ne_of_not_mem isFirst.symm nonempty) others

end CutCalls

namespace SpdyFramer

variable {p : Platform σ} {framer next : SpdyFramer σ} {data more rest : Bytes}
  {before : List VisitorCall}

theorem silent_behind :
    ({ framer with calls := [] } : SpdyFramer σ).behind framer.calls = framer := by
  simp [behind]

theorem reset_behind : (framer.behind before).reset = framer.reset.behind before := by
  by_cases kept : framer.current_frame_capacity_ = kControlFrameBufferInitialSize <;>
    simp [reset, behind, expandControlFrameBuffer_eq, kept]

theorem visit_behind (call : VisitorCall) :
    (framer.behind before).visit call = (framer.visit call).behind before := by
  simp [visit, behind]

theorem processCommonHeader_behind : (framer.behind before).processCommonHeader data =
      (framer.processCommonHeader data).map (behind before) id := by
  by_cases isPart : framer.current_frame_buffer_.length < SpdyFrame.size
  · simp only [processCommonHeader, behind, copyToFrame, changeState, current_frame_len_, isPart,
      if_true]
    grind [Prod.map, behind, visit]
  · grind [processCommonHeader, behind, changeState, current_frame_len_, Prod.map]

theorem processControlFrameHeader_behind : (framer.behind before).processControlFrameHeader p =
      (framer.processControlFrameHeader p).behind before := by
  by_cases supported : framer.current_frame_buffer_.version = p.spdy_version_
  · cases isType : framer.current_frame_buffer_.type? with
    | none =>
      simp [processControlFrameHeader, behind, set_error, changeState, visit, supported, isType]
    | some type =>
      by_cases size : sizeAccepted type framer.current_frame_buffer_.length_ <;>
      by_cases large : kControlFrameBufferMaxSize < framer.current_frame_buffer_.length_ <;>
      cases type <;> simp [processControlFrameHeader, behind, set_error, changeState, visit,
          expandControlFrameBuffer_eq, supported, isType, size, large]
  · simp [processControlFrameHeader, behind, set_error, changeState, visit, supported]

theorem finishDataFramePayload_behind (amount : Nat) :
    ((framer.behind before).finishDataFramePayload amount).1 =
      (framer.finishDataFramePayload amount).1.behind before := by
  by_cases ended : framer.remaining_payload_ - amount = 0 ∧
      framer.current_frame_buffer_.flags &&& DATA_FLAG_FIN ≠ 0
  · rw [finishDataFramePayload, finishDataFramePayload, if_pos ended]
    refine (congrArg Prod.fst (if_pos ended)).trans ?_
    simp [behind, visit, setStreamDecompressor]
  · rw [finishDataFramePayload, finishDataFramePayload, if_neg ended]
    exact congrArg Prod.fst (if_neg ended)

theorem finishDataFramePayload_of_lt (isMore : amount < framer.remaining_payload_) :
    (framer.finishDataFramePayload amount).1 =
      { framer with remaining_payload_ := framer.remaining_payload_ - amount } := by
  rw [finishDataFramePayload, if_neg fun ended => by omega]

theorem finishDataFramePayload_silent (amount : Nat) : (framer.finishDataFramePayload amount).1 =
      ({ framer with calls := [] }.finishDataFramePayload amount).1.behind framer.calls := by
  rw [← finishDataFramePayload_behind, silent_behind]

theorem turn_header (reading : framer.state_ = .SPDY_READING_COMMON_HEADER)
    (isPart : framer.current_frame_buffer_.length < SpdyFrame.size)
    (room : SpdyFrame.size <= framer.current_frame_capacity_)
    (isAmount : min (SpdyFrame.size - framer.current_frame_buffer_.length) data.length = amount) :
    framer.turn p data = some (if EmptyData (framer.current_frame_buffer_ ++ data.take amount) then
        { framer with
          state_ := .SPDY_AUTO_RESET
          current_frame_buffer_ := framer.current_frame_buffer_ ++ data.take amount
          calls := framer.calls ++ finCalls (framer.current_frame_buffer_ ++ data.take amount) }
      else
        { framer with current_frame_buffer_ := framer.current_frame_buffer_ ++ data.take amount },
      data.drop amount) := by
  rw [turn, reading]
  dsimp only
  rw [processCommonHeader_of_lt isPart room isAmount, reading]

theorem turn_forward (forwards : framer.state_ = .SPDY_FORWARD_STREAM_FRAME)
    (plain : framer.current_frame_buffer_.flags &&& DATA_FLAG_COMPRESSED = 0)
    (remaining : framer.remaining_payload_ ≠ 0) (ne : data ≠ [])
    (isAmount : min framer.remaining_payload_ data.length = amount) :
    framer.turn p data =
      some (((framer.visit (.OnStreamFrameData framer.current_frame_buffer_.data_stream_id
        (data.take amount))).finishDataFramePayload amount).1, data.drop amount) := by
  obtain ⟨_, finished⟩ := finishDataFramePayload_eq (framer.visit (.OnStreamFrameData
    framer.current_frame_buffer_.data_stream_id (data.take amount))) amount
  rw [turn, forwards]
  dsimp only
  rw [processDataFramePayload_forward forwards plain remaining ne isAmount, finished]

/-- What is left of some payload is forwarded as if it were all. -/
theorem finishDataFramePayload_add (first second : Nat) :
    (framer.finishDataFramePayload (first + second)).1 =
      ({ framer with
        remaining_payload_ := framer.remaining_payload_ - first }.finishDataFramePayload
          second).1 := by
  rw [finishDataFramePayload, finishDataFramePayload]
  dsimp only
  rw [← Nat.sub_sub]
  split_ifs <;> rfl

/-- A round does not depend on the calls so far. -/
theorem turn_behind (plain : framer.Plain) (inv : framer.Consistent) (ne : data ≠ []) :
    (framer.behind before).turn p data =
      (framer.turn p data).map fun (next, rest) => (next.behind before, rest) := by
  have sameState : (framer.behind before).state_ = framer.state_ := rfl
  have sameConsistent : (framer.behind before).Consistent := inv
  cases isState : framer.state_ with
  | SPDY_ERROR | SPDY_DONE =>
    rw [turn, turn, sameState, isState]
    rfl
  | SPDY_RESET | SPDY_AUTO_RESET =>
    rw [turn, turn, sameState, isState, reset_behind]
    rfl
  | SPDY_READING_COMMON_HEADER =>
    rw [turn, turn, sameState, isState, processCommonHeader_behind]
    rfl
  | SPDY_INTERPRET_CONTROL_FRAME_COMMON_HEADER =>
    rw [turn, turn, sameState, isState, processControlFrameHeader_behind]
    rfl
  | SPDY_CONTROL_FRAME_PAYLOAD =>
    rcases Nat.lt_or_ge data.length framer.remaining_payload_ with part | all
    · rw [turn_of_lt inv isState part]
      exact turn_of_lt sameConsistent (sameState.trans isState) part
    · rw [turn_of_le inv isState all]
      refine (turn_of_le sameConsistent (sameState.trans isState) all).trans ?_
      simp [behind]
  | SPDY_IGNORE_REMAINING_PAYLOAD =>
    rw [Consistent, isState] at inv
    exact inv.elim
  | SPDY_FORWARD_STREAM_FRAME =>
    by_cases complete : framer.remaining_payload_ = 0
    · rw [turn, turn, sameState, isState]
      dsimp only
      rw [processDataFramePayload_of_complete complete, processDataFramePayload_of_complete
        (by exact complete : (framer.behind before).remaining_payload_ = 0)]
      rfl
    · rw [turn_forward isState (plain isState) complete ne rfl]
      refine (turn_forward (sameState.trans isState) (plain isState) complete ne rfl).trans ?_
      rw [visit_behind, finishDataFramePayload_behind]
      rfl

/-- A whole round, and the one behind a cut within it: the latter has called the
visitor as the former, but for the data before the cut. -/
def Joined (start : List VisitorCall) (between whole cut : SpdyFramer σ) : Prop :=
  whole = cut ∨ ∃ (before : List VisitorCall) (stream_id : Nat) (first second : Bytes)
      (last : SpdyFramer σ), first ≠ [] ∧ second ≠ [] ∧
    between.calls = start ++ before ++ [.OnStreamFrameData stream_id first] ∧
    whole = last.behind (start ++ before ++ [.OnStreamFrameData stream_id (first ++ second)]) ∧
    cut = last.behind (between.calls ++ [.OnStreamFrameData stream_id second])

/-- A round with more input is the same round, or it is cut in two. -/
def Splits (p : Platform σ) (framer : SpdyFramer σ) (data more : Bytes) : Prop :=
  framer.turn p (data ++ more) =
      (framer.turn p data).map (fun (next, rest) => (next, rest ++ more)) ∨
    ∃ between whole cut rest, more ≠ [] ∧ framer.turn p data = some (between, []) ∧
      framer.turn p (data ++ more) = some (whole, rest) ∧
      between.turn p more = some (cut, rest) ∧ between.Plain ∧
      Joined framer.calls between whole cut

section

variable (isMore : more ≠ []) (consistent : framer.Consistent)
include isMore consistent

theorem splits_header (isState : framer.state_ = .SPDY_READING_COMMON_HEADER) :
    Splits p framer data more := by
  rw [Consistent, isState] at consistent
  obtain ⟨fits, room, -⟩ := consistent
  by_cases isPart : framer.current_frame_buffer_.length < SpdyFrame.size
  · rcases Nat.lt_or_ge data.length (SpdyFrame.size - framer.current_frame_buffer_.length)
      with cut | uncut
    · have isShort : (framer.current_frame_buffer_ ++ data).length < SpdyFrame.size := by
        rw [length_append]
        omega
      have notWhole : ¬ EmptyData (framer.current_frame_buffer_ ++ data) :=
        fun empty => isShort.ne empty.1
      generalize isAmount : min (SpdyFrame.size - (framer.current_frame_buffer_ ++ data).length)
        more.length = amount
      have isWhole : min (SpdyFrame.size - framer.current_frame_buffer_.length)
          (data ++ more).length = data.length + amount := by
        rw [length_append] at isAmount ⊢
        omega
      have isBetween : framer.turn p data = some ({ framer with
          current_frame_buffer_ := framer.current_frame_buffer_ ++ data }, []) := by
        rw [turn_header isState isPart room (Nat.min_eq_right cut.le), take_length,
          if_neg notWhole, drop_length]
      have isWhole := @turn_header σ p framer (data ++ more) _ isState isPart room isWhole
      rw [take_length_add_append, drop_length_add_append, ← append_assoc] at isWhole
      exact .inr ⟨_, _, _, _, isMore, isBetween, isWhole,
        turn_header isState isShort room isAmount, by simp [Plain, isState], .inl rfl⟩
    · have amount (other : Bytes) : min (SpdyFrame.size - framer.current_frame_buffer_.length)
          (data ++ other).length = SpdyFrame.size - framer.current_frame_buffer_.length := by
        rw [length_append]
        omega
      have alone := amount []
      rw [append_nil] at alone
      rw [Splits, turn_header isState isPart room (amount more),
        turn_header isState isPart room alone,
        take_append_of_le_length uncut, drop_append_of_le_length uncut]
      exact .inl rfl
  · have notLess : ¬ framer.current_frame_len_ < SpdyFrame.size := isPart
    rw [Splits, turn, turn, isState]
    dsimp only
    rw [processCommonHeader, processCommonHeader, if_neg notLess]
    dsimp only
    split <;> exact .inl rfl

theorem splits_payload (ne : data ≠ [])
    (isState : framer.state_ = .SPDY_CONTROL_FRAME_PAYLOAD) :
    Splits p framer data more := by
  rcases Nat.lt_or_ge data.length framer.remaining_payload_ with cut | uncut
  · have isBetween := @turn_of_lt σ p framer data consistent isState cut
    have betweenConsistent := (turn_cases consistent ne isBetween).consistent consistent
    rcases Nat.lt_or_ge (data ++ more).length framer.remaining_payload_ with part | all
    · refine .inr ⟨_, _, _, _, isMore, isBetween, turn_of_lt consistent isState part, ?_,
        by simp [Plain, isState], .inl rfl⟩
      rw [length_append] at part
      rw [turn_of_lt betweenConsistent isState (by dsimp only; omega), append_assoc,
        length_append, Nat.sub_sub]
    · refine .inr ⟨_, _, _, _, isMore, isBetween, turn_of_le consistent isState all, ?_,
        by simp [Plain, isState], .inl rfl⟩
      rw [length_append] at all
      rw [turn_of_le betweenConsistent isState (by dsimp only; omega), take_append, drop_append,
        take_of_length_le cut.le, drop_of_length_le cut.le]
      simp
  · have isLonger : framer.remaining_payload_ <= (data ++ more).length := by
      rw [length_append]
      omega
    rw [Splits, turn_of_le consistent isState uncut, turn_of_le consistent isState isLonger,
      take_append_of_le_length uncut, drop_append_of_le_length uncut]
    exact .inl rfl

end

theorem splits_forward (isMore : more ≠ []) (ne : data ≠ []) (plain : framer.Plain)
    (isState : framer.state_ = .SPDY_FORWARD_STREAM_FRAME) :
    Splits p framer data more := by
  have isNonempty : data ++ more ≠ [] := append_ne_nil_of_left_ne_nil ne _
  by_cases complete : framer.remaining_payload_ = 0
  · rw [Splits, turn, turn, isState]
    dsimp only
    rw [processDataFramePayload_of_complete complete, processDataFramePayload_of_complete complete]
    exact .inl rfl
  rcases Nat.lt_or_ge data.length framer.remaining_payload_ with cut | uncut
  · generalize isAmount : min (framer.remaining_payload_ - data.length) more.length = amount
    have isSome := length_pos_iff.mpr isMore
    have isSecond : more.take amount ≠ [] := by
      rw [← length_pos_iff, length_take]
      omega
    have isLonger : min framer.remaining_payload_ (data ++ more).length = data.length + amount := by
      rw [length_append]
      omega
    have isBetween := @turn_forward σ p framer data _ isState (plain isState) complete
      ne (Nat.min_eq_right cut.le)
    have isWhole := @turn_forward σ p framer (data ++ more) _ isState (plain isState)
      complete isNonempty isLonger
    rw [take_length, drop_length, finishDataFramePayload_of_lt (by exact cut)] at isBetween
    rw [take_length_add_append, drop_length_add_append, finishDataFramePayload_add] at isWhole
    refine .inr ⟨_, _, _, _, isMore, isBetween, isWhole, turn_forward isState (plain isState)
      (by dsimp only [visit]; omega) isMore isAmount, plain, .inr ⟨[],
      framer.current_frame_buffer_.data_stream_id, data, more.take amount,
      ({ framer with
        remaining_payload_ := framer.remaining_payload_ - data.length
        calls := [] }.finishDataFramePayload amount).1,
      ne, isSecond, ?_, ?_, ?_⟩⟩
    · rw [append_nil]
      rfl
    · rw [append_nil]
      exact finishDataFramePayload_silent amount
    · exact finishDataFramePayload_silent amount
  · have isLonger : framer.remaining_payload_ <= (data ++ more).length := by
      rw [length_append]
      omega
    rw [Splits, turn_forward isState (plain isState) complete ne (Nat.min_eq_left uncut),
      turn_forward isState (plain isState) complete isNonempty (Nat.min_eq_left isLonger),
      take_append_of_le_length uncut, drop_append_of_le_length uncut]
    exact .inl rfl

theorem splits (inv : framer.Consistent) (ne : data ≠ [])
    (plain : framer.Plain) : Splits p framer data more := by
  by_cases isMore : more = []
  · rw [isMore, Splits, append_nil]
    exact .inl (by simp)
  cases isState : framer.state_ with
  | SPDY_ERROR | SPDY_DONE | SPDY_RESET | SPDY_AUTO_RESET
  | SPDY_INTERPRET_CONTROL_FRAME_COMMON_HEADER =>
    rw [Splits, turn, turn, isState]
    exact .inl rfl
  | SPDY_READING_COMMON_HEADER => exact splits_header isMore inv isState
  | SPDY_CONTROL_FRAME_PAYLOAD => exact splits_payload isMore inv ne isState
  | SPDY_IGNORE_REMAINING_PAYLOAD =>
    rw [Consistent, isState] at inv
    exact inv.elim
  | SPDY_FORWARD_STREAM_FRAME => exact splits_forward isMore ne plain isState

theorem Joined.weaken
    (joined : Joined (start ++ later) between whole cut) : Joined start between whole cut := by
  rcases joined with same | ⟨before, joined⟩
  · exact .inl same
  · rw [append_assoc start] at joined
    exact .inr ⟨later ++ before, joined⟩

theorem turn_next (inv : framer.Consistent) (ne : data ≠ [])
    (turns : framer.turn p data = some (next, rest)) :
    next.Consistent ∧ ∃ calls, next.calls = framer.calls ++ calls := by
  have turned := turn_cases inv ne turns
  exact ⟨turned.consistent inv, Feed.turned_calls turned⟩

theorem uncompressed_cons (plain : uncompressed p (rounds + 1) framer data = true)
    (ne : data ≠ []) :
    framer.Plain ∧ ∀ next rest, framer.turn p data = some (next, rest) ->
        uncompressed p rounds next rest = true := by
  cases data with
  | nil => exact (ne rfl).elim
  | cons byte data =>
    rw [uncompressed, Bool.and_eq_true, decide_eq_true_eq] at plain
    refine ⟨plain.1, fun next rest turns => ?_⟩
    have later := plain.2
    rw [turns] at later
    exact later

theorem processInput_cons (ne : data ≠ []) : processInput p (rounds + 1) framer data =
      match framer.turn p data with
      | none => some (framer, data)
      | some (next, rest) => processInput p rounds next rest := by
  cases data with
  | nil => exact (ne rfl).elim
  | cons byte data =>
    cases turns : framer.turn p (byte :: data) <;> simp [processInput, turns]

theorem processInput_nil : processInput p rounds framer [] = some (framer, []) := by
  rw [processInput]

theorem processInput_succ (ends : processInput p rounds framer data = some result) :
    processInput p (rounds + 1) framer data = some result := by
  induction rounds generalizing framer data with
  | zero =>
    cases data with
    | nil => exact ends
    | cons byte data => cases ends
  | succ rounds ih =>
    cases data with
    | nil => exact ends
    | cons byte data =>
      rw [processInput] at ends ⊢
      split at ends
      · exact ends
      · exact ih ends

theorem uncompressed_behind (rounds : Nat) (inv : framer.Consistent) :
    uncompressed p rounds (framer.behind before) data = uncompressed p rounds framer data := by
  induction rounds generalizing framer data with
  | zero => rfl
  | succ rounds ih =>
    cases data with
    | nil => rfl
    | cons byte data =>
      rw [uncompressed, uncompressed]
      by_cases plain : framer.Plain
      · rw [turn_behind plain inv (cons_ne_nil byte data)]
        cases turns : framer.turn p (byte :: data) with
        | none => rfl
        | some result =>
          have isNext := turn_next inv (cons_ne_nil byte data) turns
          exact congrArg (_ && ·) (ih isNext.1)
      · rw [decide_eq_false plain]
        exact congrArg (· && _) (decide_eq_false plain)

theorem processInput_behind (inv : framer.Consistent)
    (plain : ∀ rounds, uncompressed p rounds framer data) :
    processInput p rounds (framer.behind before) data = (processInput p rounds framer data).map
        fun (next, rest) => (next.behind before, rest) := by
  induction rounds generalizing framer data with
  | zero => cases data <;> rfl
  | succ rounds ih =>
    by_cases ne : data = []
    · subst ne
      rfl
    · have now := (uncompressed_cons (plain 1) ne).1
      rw [processInput_cons ne, processInput_cons ne,
        turn_behind now inv ne]
      cases turns : framer.turn p data with
      | none => rfl
      | some result =>
        exact ih (turn_next inv ne turns).1
          fun rounds => (uncompressed_cons (plain (rounds + 1)) ne).2 _ _ turns

/-- Rounds that are joined stay so to the end of the input. -/
theorem Joined.processInput
    (joined : Joined start between whole cut) (inv : whole.Consistent)
    (plain : ∀ rounds, uncompressed p rounds whole data)
    (ends : processInput p rounds whole data = some (last, rest)) :
    (∀ rounds, uncompressed p rounds cut data) ∧
      ∃ end_, SpdyFramer.processInput p rounds cut data = some (end_, rest) ∧
        Joined start between last end_ := by
  rcases joined with rfl | ⟨before, stream_id, first, second, base, isFirst, isSecond, isBetween,
    rfl, rfl⟩
  · exact ⟨plain, last, ends, .inl rfl⟩
  · have isConsistent : base.Consistent := inv
    simp only [uncompressed_behind _ isConsistent] at plain ⊢
    rw [processInput_behind isConsistent plain] at ends ⊢
    obtain ⟨⟨next, left⟩, isNext, same⟩ := Option.map_eq_some_iff.mp ends
    cases same
    rw [isNext]
    exact ⟨plain, _, rfl, .inr ⟨before, stream_id, first, second, next, isFirst, isSecond,
      isBetween, rfl, rfl⟩⟩

/-- What is called for some input, and for its first part and the rest. -/
theorem processInput_append (inv : framer.Consistent)
    (plain : ∀ rounds, uncompressed p rounds framer (data ++ more))
    (ends : processInput p rounds framer (data ++ more) = some (whole, left)) :
    ∃ between rest, processInput p rounds framer data = some (between, rest) ∧
      between.Consistent ∧ (∃ calls, between.calls = framer.calls ++ calls) ∧
      (rest ≠ [] ∧ whole = between ∨ rest = [] ∧ (∀ rounds, uncompressed p rounds between more) ∧
          ∃ cut, processInput p rounds between more = some (cut, left) ∧
            Joined framer.calls between whole cut) := by
  induction rounds generalizing framer data with
  | zero =>
    cases data with
    | nil =>
      exact ⟨framer, [], processInput_nil, inv, ⟨[], (append_nil _).symm⟩,
        .inr ⟨rfl, plain, whole, ends, .inl rfl⟩⟩
    | cons byte data => cases ends
  | succ rounds ih =>
    by_cases ne : data = []
    · subst ne
      exact ⟨framer, [], processInput_nil, inv, ⟨[], (append_nil _).symm⟩,
        .inr ⟨rfl, plain, whole, ends, .inl rfl⟩⟩
    · have isNonempty : data ++ more ≠ [] := append_ne_nil_of_left_ne_nil ne _
      have now := (uncompressed_cons (plain 1) isNonempty).1
      have next := fun rounds => (uncompressed_cons (plain (rounds + 1)) isNonempty).2
      rw [processInput_cons isNonempty] at ends
      rw [processInput_cons ne]
      rcases @splits σ p framer data more inv ne now
        with same | ⟨between, turned, cut, rest, isMore, isBetween, isTurned, isCut, stays, joined⟩
      · rw [same] at ends next
        cases turns : framer.turn p data with
        | none =>
          rw [turns] at ends
          cases ends
          exact ⟨_, data, rfl, inv, ⟨[], (append_nil _).symm⟩, .inl ⟨ne, rfl⟩⟩
        | some result =>
          obtain ⟨after, rest⟩ := result
          rw [turns] at ends next
          obtain ⟨isConsistent, calls, isCalls⟩ := turn_next inv ne turns
          obtain ⟨between, left, isBetween, betweenConsistent, ⟨later, isLater⟩, outcome⟩ :=
            ih isConsistent (fun rounds => next rounds _ _ rfl) ends
          rw [isCalls] at isLater outcome
          refine ⟨between, left, isBetween, betweenConsistent, ⟨calls ++ later, ?_⟩, ?_⟩
          · rw [isLater, append_assoc]
          · rcases outcome with stopped | ⟨isNil, isPlain, cut, isCut, joined⟩
            · exact .inl stopped
            · exact .inr ⟨isNil, isPlain, cut, processInput_succ isCut, joined.weaken⟩
      · rw [isTurned] at ends
        obtain ⟨isConsistent, isCalls⟩ := turn_next inv ne isBetween
        have turnedConsistent := (turn_next inv isNonempty isTurned).1
        obtain ⟨isPlain, last, isLast, isJoined⟩ :=
          joined.processInput turnedConsistent (fun rounds => next rounds _ _ isTurned) ends
        rw [isBetween]
        refine ⟨between, [], processInput_nil, isConsistent, isCalls, .inr ⟨rfl, ?_, last, ?_,
          isJoined⟩⟩
        · rintro (_ | rounds)
          · rfl
          · obtain ⟨byte, more, rfl⟩ := exists_cons_of_ne_nil isMore
            rw [uncompressed, decide_eq_true stays, Bool.true_and, isCut]
            exact isPlain rounds
        · rw [processInput_cons isMore, isCut]
          exact isLast

theorem processInput_ends (inv : framer.Consistent)
    (plain : ∀ rounds, uncompressed p rounds framer data)
    (enough : framer.work data <= rounds) :
    ∃ result, processInput p rounds framer data = some result := by
  induction rounds generalizing framer data with
  | zero =>
    rw [work] at enough
    rw [length_eq_zero_iff.mp (by omega : data.length = 0)]
    exact ⟨_, processInput_nil⟩
  | succ rounds ih =>
    by_cases nonempty : data = []
    · rw [nonempty]
      exact ⟨_, processInput_nil⟩
    · have now := uncompressed_cons (plain 1) nonempty
      rw [processInput_cons nonempty]
      cases turns : framer.turn p data with
      | none => exact ⟨_, rfl⟩
      | some result =>
        have turned := turn_cases inv nonempty turns
        exact ih (turned.consistent inv)
          (fun rounds => (uncompressed_cons (plain (rounds + 1)) nonempty).2 _ _ turns)
          (Nat.le_of_lt_succ (Nat.lt_of_lt_of_le (work_lt nonempty now.1 turned) enough))

/-- The calls for a stream are those for its pieces, but for data that is cut. -/
theorem processStream_cuts (pieces : List Bytes) (inv : framer.Consistent)
    (plain : ∀ rounds, uncompressed p rounds framer pieces.flatten)
    (ends : processInput p rounds framer pieces.flatten = some (whole, left)) :
    ∃ next, processStream p rounds framer pieces = some next ∧
      ∃ calls cut, whole.calls = framer.calls ++ calls ∧ next.calls = framer.calls ++ cut ∧
        CutCalls calls cut := by
  induction pieces generalizing framer whole with
  | nil =>
    rw [flatten_nil, processInput] at ends
    cases ends
    exact ⟨_, rfl, [], [], (append_nil _).symm, (append_nil _).symm, .nil⟩
  | cons piece pieces ih =>
    rw [flatten_cons] at plain ends
    obtain ⟨between, rest, isBetween, isConsistent, ⟨calls, isCalls⟩, outcome⟩ :=
      processInput_append inv plain ends
    rw [processStream, isBetween]
    rcases outcome with ⟨stopped, rfl⟩ | ⟨rfl, isPlain, cut, isCut, joined⟩
    · obtain ⟨byte, rest, rfl⟩ := exists_cons_of_ne_nil stopped
      refine ⟨whole, rfl, calls, calls, isCalls, isCalls, ?_⟩
      simpa using CutCalls.nil.append_left calls
    · obtain ⟨next, isNext, later, laterCut, isLater, isLaterCut, cuts⟩ :=
        ih isConsistent isPlain isCut
      refine ⟨next, isNext, ?_⟩
      rcases joined with rfl | ⟨before, stream_id, first, second, last, isFirst, isSecond, same,
        rfl, rfl⟩
      · refine ⟨calls ++ later, calls ++ laterCut, ?_, ?_, cuts.append_left calls⟩
        · rw [isLater, isCalls, append_assoc]
        · rw [isLaterCut, isCalls, append_assoc]
      · have isLast : later = .OnStreamFrameData stream_id second :: last.calls := by
          have calls := isLater
          rw [behind, append_assoc] at calls
          exact (append_cancel_left calls).symm
        subst isLast
        refine ⟨before ++ .OnStreamFrameData stream_id (first ++ second) :: last.calls,
          before ++ .OnStreamFrameData stream_id first :: laterCut, ?_, ?_,
          (cuts.join isFirst isSecond).append_left before⟩
        · simp [behind]
        · simp [isLaterCut, same]

/-- However a stream is cut, the calls for its pieces are those for the stream
itself, of which each data frame gets one with data. -/
theorem processStream_pieces (p : Platform σ) (one other : List Bytes)
    (same : one.flatten = other.flatten)
    (plain : ∀ rounds, uncompressed p rounds {} one.flatten) :
    ∃ whole rest first second,
      processInput p (6 * one.flatten.length + 5) {} one.flatten = some (whole, rest) ∧
        processStream p (6 * one.flatten.length + 5) {} one = some first ∧
        processStream p (6 * one.flatten.length + 5) {} other = some second ∧
        CutCalls whole.calls first.calls ∧ CutCalls whole.calls second.calls := by
  have consistent : ({} : SpdyFramer σ).Consistent := trivial
  have enough : ({} : SpdyFramer σ).work one.flatten <= 6 * one.flatten.length + 5 :=
    Nat.add_le_add_left (rank_le _) _
  obtain ⟨⟨whole, rest⟩, ends⟩ := processInput_ends consistent plain enough
  obtain ⟨first, isFirst, _, _, isCalls, isCut, cuts⟩ :=
    processStream_cuts one consistent plain ends
  have endsOther := ends
  rw [same] at plain endsOther
  obtain ⟨second, isSecond, _, _, isSame, isOther, others⟩ :=
    processStream_cuts other consistent plain endsOther
  rw [← same] at isSecond
  refine ⟨whole, rest, first, second, ends, isFirst, isSecond, ?_, ?_⟩
  · rw [isCalls, isCut]
    exact cuts
  · rw [isSame, isOther]
    exact others

/-- A data frame of two bytes, at once and cut within its header and its data. -/
theorem processStream_pieces_data : ∃ whole rest first second,
    processInput plainPlatform 65 {} [0, 0, 0, 1, 0, 0, 0, 2, 7, 8] = some (whole, rest) ∧
      processStream plainPlatform 65 {} [[0, 0, 0, 1, 0, 0, 0, 2, 7, 8]] = some first ∧
      processStream plainPlatform 65 {} [[0, 0, 0], [1, 0, 0, 0, 2, 7], [8]] = some second ∧
      CutCalls whole.calls first.calls ∧ CutCalls whole.calls second.calls := by
  refine processStream_pieces plainPlatform [[0, 0, 0, 1, 0, 0, 0, 2, 7, 8]]
    [[0, 0, 0], [1, 0, 0, 0, 2, 7], [8]] rfl ?_
  rintro (_ | _ | _ | _ | _ | rounds) <;> rfl

end SpdyFramer
end Chromium.Spdy
