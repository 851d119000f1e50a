import Chromium.Library.Framing
import Chromium.Spdy.SpdyFramer

/-!
# Feeding a framer

A byte stream is fed to a framer in pieces. The rounds of each call are steps
of their own, so that what holds between them can be told.
-/

namespace Chromium.Spdy

open List

section

variable {σ : Type}

/-- A framer with what was fed to it since it was made or reset. -/
structure Feed (σ : Type) where
  framer : SpdyFramer σ := {}
  /-- The bytes of the last call of `ProcessInput` that are not consumed. -/
  data : Bytes := []
  consumed : Bytes := []
  /-- Where the framer has begun to read a header. -/
  headers : List Nat := []

inductive Action where
  | input (data : Bytes)
  | turn
  | reset
deriving DecidableEq

/-- Version 2, without any decompressor. -/
def plainPlatform : Platform Unit where
  spdy_version_ := kSpdyProtocolVersion
  inflateInit := none
  inflate decompressor _ _ := (decompressor, none)

namespace Feed

variable (p : Platform σ)

/-- The loop of the last call has ended. -/
def returned (feed : Feed σ) : Bool :=
  feed.data.isEmpty || (feed.framer.turn p feed.data).isNone

/-- The next framer reads on from the bytes that are left. -/
def advance (feed : Feed σ) (framer : SpdyFramer σ) (rest : Bytes) : Feed σ where
  framer := framer
  data := rest
  consumed := feed.consumed ++ feed.data.take (feed.data.length - rest.length)
  headers :=
    if feed.framer.state_ = .SPDY_RESET ∨ feed.framer.state_ = .SPDY_AUTO_RESET then
      feed.headers ++ [feed.consumed.length]
    else feed.headers

def perform (feed : Feed σ) : Action -> Option (Feed σ)
  | .input data => if feed.returned p then some { feed with data } else none
  | .turn =>
    if feed.data.isEmpty then none
    else (feed.framer.turn p feed.data).map fun (framer, rest) => feed.advance framer rest
  | .reset =>
    if feed.returned p then some { framer := { feed.framer.reset with calls := [] } }
    else none

variable {p : Platform σ} {feed next : Feed σ}

theorem perform_input {data : Bytes} (runs : feed.perform p (.input data) = some next) :
    feed.returned p ∧ next = { feed with data } := by
  rw [perform] at runs
  split at runs
  · cases runs
    exact ⟨‹_›, rfl⟩
  · cases runs

theorem perform_turn (runs : feed.perform p .turn = some next) :
    feed.data ≠ [] ∧ ∃ framer rest, feed.framer.turn p feed.data = some (framer, rest) ∧
        next = feed.advance framer rest := by
  by_cases isEmpty : feed.data.isEmpty
  · rw [perform, if_pos isEmpty] at runs
    cases runs
  · rw [perform, if_neg isEmpty] at runs
    obtain ⟨⟨framer, rest⟩, turns, isNext⟩ := Option.map_eq_some_iff.mp runs
    exact ⟨by simpa using isEmpty, framer, rest, turns, isNext.symm⟩

theorem perform_reset (runs : feed.perform p .reset = some next) :
    feed.returned p ∧ next = { framer := { feed.framer.reset with calls := [] } } := by
  rw [perform] at runs
  split at runs
  · cases runs
    exact ⟨‹_›, rfl⟩
  · cases runs

/-- A round reads from the front of the bytes that are left. -/
theorem turned_split {data rest : Bytes} {before framer : SpdyFramer σ}
    (turned : SpdyFramer.Turned p before data framer rest) :
    ∃ piece, data = piece ++ rest := by
  cases turned with
  | header | emptyData | control | forward => exact ⟨_, rfl⟩
  | payload => exact ⟨data, (append_nil _).symm⟩
  | inflated read => exact ⟨data.take read, (take_append_drop _ _).symm⟩
  | _ => exact ⟨[], rfl⟩

end Feed

end

/-!
## Whole frames

As long as the headers that it interprets are fine, the bytes that a framer has
consumed are whole frames, for which it has called the visitor, and the part of
the next frame that its state tells.
-/

section

open Library (Whole frameStarts beginnings)
open SpdyFramer (Turned sizeAccepted)

variable {σ : Type} (p : Platform σ)

/-- A frame is as long as its header tells. -/
abbrev WholeFrame (frame : SpdyFrame) : Prop := Whole SpdyFrame.size SpdyFrame.length_ frame

/-- The header of a control frame that is neither an error nor loses its
payload. -/
structure FineControl (frame : SpdyFrame) : Prop where
  version : frame.version = p.spdy_version_
  small : frame.length_ <= kControlFrameBufferMaxSize
  type : ∃ type, frame.type? = some type ∧ sizeAccepted type frame.length_
  noop : frame.type? = some .NOOP -> frame.length_ = 0

/-- Calls with the data of a frame, in pieces. -/
def pieceCalls (frame : SpdyFrame) (pieces : List Bytes) : List VisitorCall :=
  pieces.map (.OnStreamFrameData frame.data_stream_id)

/-- The calls for a whole frame. -/
def Delivers (frame : SpdyFrame) (calls : List VisitorCall) : Prop :=
  if frame.is_control_frame then calls = if frame.type? = some .NOOP then [] else controlCalls frame
  else
    ∃ pieces, [] ∉ pieces ∧ pieces.flatten = frame.drop SpdyFrame.size ∧
      calls = pieceCalls frame pieces ++ finCalls frame

/-- The calls for whole frames. -/
inductive DeliversAll : List SpdyFrame -> List VisitorCall -> Prop
  | nil : DeliversAll [] []
  | concat {frames : List SpdyFrame} {frame : SpdyFrame} {calls last : List VisitorCall} :
      DeliversAll frames calls ->
      Delivers frame last ->
      DeliversAll (frames ++ [frame]) (calls ++ last)

/-- The state of the framer tells the part of a frame that it has read, with the
calls for it. -/
def Reads (framer : SpdyFramer σ) (part : SpdyFrame) (calls : List VisitorCall) : Prop :=
  match framer.state_ with
  | .SPDY_RESET | .SPDY_AUTO_RESET => part = [] ∧ calls = []
  | .SPDY_READING_COMMON_HEADER
  | .SPDY_INTERPRET_CONTROL_FRAME_COMMON_HEADER => part = framer.current_frame_buffer_ ∧ calls = []
  | .SPDY_CONTROL_FRAME_PAYLOAD =>
    part = framer.current_frame_buffer_ ∧ calls = [] ∧
      FineControl p part ∧ part.type? ≠ some .NOOP ∧
      framer.remaining_payload_ ≠ 0
  | .SPDY_FORWARD_STREAM_FRAME =>
    ∃ pieces, part = framer.current_frame_buffer_ ++ pieces.flatten ∧ [] ∉ pieces ∧
      pieces.flatten.length + framer.remaining_payload_ = framer.current_frame_buffer_.length_ ∧
      calls = pieceCalls framer.current_frame_buffer_ pieces ++
        if framer.remaining_payload_ = 0 then finCalls framer.current_frame_buffer_
        else []
  | _ => False

/-- The framer is between two frames. -/
def Ready (framer : SpdyFramer σ) : Prop :=
  framer.state_ = .SPDY_RESET ∨ framer.state_ = .SPDY_AUTO_RESET

instance (framer : SpdyFramer σ) : Decidable (Ready framer) := inferInstanceAs (Decidable (_ ∨ _))

/-- No payload of a NOOP frame was lost. -/
def EmptyNoop (frame : SpdyFrame) : Prop :=
  frame.is_control_frame -> frame.type? = some .NOOP -> frame.length_ = 0

/-- The framer has read whole frames and a part of the next one. -/
structure InSync (feed : Feed σ) (frames : List SpdyFrame) (part : Bytes)
    (calls now : List VisitorCall) : Prop where
  consistent : feed.framer.Consistent
  whole : ∀ frame ∈ frames, WholeFrame frame
  noops : ∀ frame ∈ frames, EmptyNoop frame
  split : feed.consumed = frames.flatten ++ part
  reads : Reads p feed.framer part now
  isCalls : feed.framer.calls = calls ++ now
  delivers : DeliversAll frames calls
  headers : feed.headers = beginnings 0 frames ++
    if Ready feed.framer then [] else [frames.flatten.length]
  begun : ¬ Ready feed.framer -> part = [] -> feed.data ≠ []

variable {p : Platform σ}

theorem not_ready (s : SpdyState) (isState : framer.state_ = s)
    (other : s ≠ .SPDY_RESET ∧ s ≠ .SPDY_AUTO_RESET) :
    ¬ Ready framer := by
  rw [Ready, isState]
  rintro (isReset | isAutoReset)
  · exact other.1 isReset
  · exact other.2 isAutoReset

/-- Only NOOP frames may be without a payload. -/
theorem pos_of_sizeAccepted {len : Nat} (payload : type ≠ .NOOP)
    (size : sizeAccepted type len) :
    0 < len := by
  rcases Nat.eq_zero_or_pos len with rfl | positive
  · cases type with
    | NOOP => exact (payload rfl).elim
    | _ => exact absurd size (by decide)
  · exact positive

variable {header rest frame : SpdyFrame}

theorem fineControl_append (whole : SpdyFrame.size <= header.length) (fine : FineControl p header) :
    FineControl p (header ++ rest) where
  version := by
    rw [SpdyFrame.version_append_right whole]
    exact fine.version
  small := by
    rw [SpdyFrame.length_append_right whole]
    exact fine.small
  type := by
    rw [SpdyFrame.type_append_right whole, SpdyFrame.length_append_right whole]
    exact fine.type
  noop := by
    rw [SpdyFrame.type_append_right whole, SpdyFrame.length_append_right whole]
    exact fine.noop

/-- What a data frame delivers is told by its header and its data. -/
theorem delivers_data {pieces : List Bytes} (whole : header.length = SpdyFrame.size)
    (isData : header.is_control_frame = false) (ne : [] ∉ pieces) :
    Delivers (header ++ pieces.flatten) (pieceCalls header pieces ++ finCalls header) := by
  have sameData : (header ++ pieces.flatten).is_control_frame = false := by
    rw [SpdyFrame.is_control_frame_append_right whole.ge, isData]
  have sameId : (header ++ pieces.flatten).data_stream_id = header.data_stream_id :=
    SpdyFrame.data_stream_id_append_right whole.ge
  have sameFlags : (header ++ pieces.flatten).flags = header.flags :=
    SpdyFrame.flags_append_right whole.ge
  rw [Delivers, if_neg (by rw [sameData]; decide)]
  refine ⟨pieces, ne, ?_, ?_⟩
  · rw [← whole, drop_left]
  · rw [pieceCalls, pieceCalls, finCalls, finCalls, sameId, sameFlags]

namespace InSync

variable {feed : Feed σ} {next : SpdyFramer σ} {frames : List SpdyFrame}
  {part piece more : Bytes} {calls now added : List VisitorCall}

theorem consumed_advance (split : feed.data = piece ++ more) :
    (feed.advance next more).consumed = feed.consumed ++ piece := by
  have read : (piece ++ more).length - more.length = piece.length := by
    rw [length_append, Nat.add_sub_cancel]
  rw [Feed.advance, split, read, take_left]

theorem headers_advance (reading : ¬ Ready feed.framer) :
    (feed.advance next more).headers = feed.headers :=
  if_neg reading

section

variable (inSync : InSync p feed frames part calls now)
include inSync

theorem complete (reading : ¬ Ready feed.framer) (split : feed.data = piece ++ more)
    (ready : next.state_ = .SPDY_AUTO_RESET)
    (whole : WholeFrame (part ++ piece)) (noop : EmptyNoop (part ++ piece))
    (delivers : Delivers (part ++ piece) (now ++ added))
    (isCalls : next.calls = feed.framer.calls ++ added) :
    InSync p (feed.advance next more) (frames ++ [part ++ piece]) []
      (calls ++ (now ++ added)) [] where
  consistent := by
    show next.Consistent
    rw [SpdyFramer.Consistent, ready]
    exact trivial
  whole := forall_mem_append.mpr ⟨inSync.whole, forall_mem_singleton.mpr whole⟩
  noops := forall_mem_append.mpr ⟨inSync.noops, forall_mem_singleton.mpr noop⟩
  split := by
    rw [consumed_advance split, inSync.split, append_assoc]
    simp
  reads := by
    show Reads p next [] []
    rw [Reads, ready]
    exact ⟨rfl, rfl⟩
  isCalls := by
    show next.calls = _
    rw [isCalls, inSync.isCalls, append_nil, append_assoc]
  delivers := .concat inSync.delivers delivers
  headers := by
    have isReady : Ready (feed.advance next more).framer := .inr ready
    rw [headers_advance reading, inSync.headers, if_neg reading, if_pos isReady,
      Library.beginnings_concat, append_nil]
  begun := fun notReady => (notReady (.inr ready)).elim

/-- A round that goes on with a frame. -/
theorem goOn (reading : ¬ Ready feed.framer) (nextReading : ¬ Ready next)
    (split : feed.data = piece ++ more) (consistent : next.Consistent)
    (reads : Reads p next (part ++ piece) (now ++ added))
    (isCalls : next.calls = feed.framer.calls ++ added) (begun : part ++ piece ≠ []) :
    InSync p (feed.advance next more) frames (part ++ piece) calls (now ++ added) where
  consistent := consistent
  whole := inSync.whole
  noops := inSync.noops
  split := by rw [consumed_advance split, inSync.split, append_assoc]
  reads := reads
  isCalls := by
    show next.calls = _
    rw [isCalls, inSync.isCalls, append_assoc]
  delivers := inSync.delivers
  headers := by
    have stillReading : ¬ Ready (feed.advance next more).framer := nextReading
    rw [headers_advance reading, inSync.headers, if_neg reading, if_neg stillReading]
  begun := fun _ none_ => (begun none_).elim

theorem goOnSilently (reading : ¬ Ready feed.framer) (nextReading : ¬ Ready next)
    (inv : next.Consistent) (reads : Reads p next part now)
    (isCalls : next.calls = feed.framer.calls) (begun : part ≠ []) :
    InSync p (feed.advance next feed.data) frames part calls now := by
  have goes := @goOn σ p feed next frames part [] feed.data calls now []
    inSync reading nextReading rfl inv
  rw [append_nil, append_nil, append_nil] at goes
  exact goes reads isCalls begun

/-- The framer begins to read a frame. -/
theorem restart (ready : Ready feed.framer) (ne : feed.data ≠ []) : InSync p (feed.advance
        (feed.framer.reset.changeState .SPDY_READING_COMMON_HEADER) feed.data)
      frames [] calls [] := by
  have nothing : part = [] ∧ now = [] := by
    have reads := inSync.reads
    rcases ready with isState | isState <;>
    · rw [Reads, isState] at reads
      exact reads
  obtain ⟨rfl, rfl⟩ := nothing
  have inv : (feed.framer.reset.changeState .SPDY_READING_COMMON_HEADER).Consistent :=
    (@Turned.restart σ p feed.framer feed.data ready).consistent inSync.consistent
  have consumed : (feed.advance (feed.framer.reset.changeState
      .SPDY_READING_COMMON_HEADER) feed.data).consumed = frames.flatten := by
    rw [@consumed_advance σ feed _ [] feed.data rfl, inSync.split, append_nil, append_nil]
  refine ⟨inv, inSync.whole, inSync.noops, ?_, ?_, ?_, inSync.delivers,
    ?_, fun _ _ => ne⟩
  · rw [consumed, append_nil]
  · exact ⟨feed.framer.reset_buffer.symm, rfl⟩
  · exact feed.framer.reset_calls.trans inSync.isCalls
  · have atEnd : feed.consumed.length = frames.flatten.length := by
      rw [inSync.split, append_nil]
    have notReady : ¬ Ready (feed.advance (feed.framer.reset.changeState
        .SPDY_READING_COMMON_HEADER) feed.data).framer :=
      not_ready .SPDY_READING_COMMON_HEADER rfl (by decide)
    have headers := inSync.headers
    rw [if_pos ready, append_nil] at headers
    show (if Ready feed.framer then feed.headers ++ [feed.consumed.length]
      else feed.headers) = _ ++ if Ready _ then [] else _
    rw [if_pos ready, if_neg notReady, headers, atEnd]

/-- A round keeps the framer in sync if the header that it interprets is fine
and the data that it forwards is not compressed. -/
theorem turn (ne : feed.data ≠ [])
    (fine : feed.framer.state_ = .SPDY_INTERPRET_CONTROL_FRAME_COMMON_HEADER ->
      FineControl p feed.framer.current_frame_buffer_)
    (plain : feed.framer.state_ = .SPDY_FORWARD_STREAM_FRAME ->
      feed.framer.current_frame_buffer_.flags &&& DATA_FLAG_COMPRESSED = 0)
    (turned : Turned p feed.framer feed.data next more) :
    ∃ frames part calls now, InSync p (feed.advance next more) frames part calls now := by
  have nextConsistent := turned.consistent inSync.consistent
  have known := inSync.consistent
  have reads := inSync.reads
  generalize isData : feed.data = data at turned
  cases turned with
  | restart ready =>
    subst isData
    exact ⟨_, _, _, _, inSync.restart ready ne⟩
  | @header piece _ reading isPiece fits all notEmpty =>
    rw [Reads, reading] at reads
    obtain ⟨rfl, rfl⟩ := reads
    refine ⟨_, _, _, _, @goOn σ p feed _ frames _ piece more calls
      [] [] inSync (not_ready _ reading (by decide)) ?_ isData nextConsistent
      ?_ (append_nil _).symm ?_⟩
    · exact not_ready _ reading (by decide)
    · rw [Reads]
      rw [reading]
      exact ⟨rfl, rfl⟩
    · exact fun nothing => isPiece (append_eq_nil_iff.mp nothing).2
  | @emptyData piece _ reading isPiece complete =>
    rw [Reads, reading] at reads
    obtain ⟨rfl, rfl⟩ := reads
    obtain ⟨whole, isDataFrame, isEmpty⟩ := complete
    have delivers := @delivers_data _ [] whole isDataFrame not_mem_nil
    rw [flatten_nil, append_nil] at delivers
    refine ⟨_, _, _, _, inSync.complete (not_ready _ reading (by decide))
      isData rfl ?_ ?_ delivers rfl⟩
    · rw [WholeFrame, Whole, whole, isEmpty, Nat.add_zero]
    · intro isControl
      rw [isDataFrame] at isControl
      cases isControl
  | toData reading whole isDataFrame isNonempty =>
    subst isData
    rw [Reads, reading] at reads
    obtain ⟨rfl, rfl⟩ := reads
    refine ⟨_, _, _, _, inSync.goOnSilently (not_ready _ reading (by decide))
      (not_ready .SPDY_FORWARD_STREAM_FRAME rfl (by decide)) nextConsistent
      ⟨[], (append_nil _).symm, not_mem_nil, Nat.zero_add _, ?_⟩
      rfl ?_⟩
    · rw [if_neg isNonempty]
      rfl
    · rw [← length_pos_iff, whole]
      decide
  | toControl reading whole isControl =>
    subst isData
    rw [Reads, reading] at reads
    obtain ⟨rfl, rfl⟩ := reads
    refine ⟨_, _, _, _, inSync.goOnSilently (not_ready _ reading (by decide))
      (not_ready .SPDY_INTERPRET_CONTROL_FRAME_COMMON_HEADER rfl (by decide))
      nextConsistent ⟨rfl, rfl⟩ rfl ?_⟩
    rw [← length_pos_iff, whole]
    decide
  | refused error interpret unsupported =>
    have isFine := fine interpret
    rcases unsupported with unsupported | invalid
    · exact (unsupported isFine.version).elim
    · obtain ⟨type, isType, -⟩ := isFine.type
      rw [invalid] at isType
      cases isType
  | swallowed interpret supported isNoop =>
    subst isData
    rw [Reads, interpret] at reads
    obtain ⟨rfl, rfl⟩ := reads
    rw [SpdyFramer.Consistent, interpret] at known
    obtain ⟨whole, isControl, -⟩ := known
    have isEmpty := (fine interpret).noop isNoop
    have completed := @complete σ p feed
      (feed.framer.changeState .SPDY_AUTO_RESET) frames _ [] feed.data calls
      [] [] inSync (not_ready _ interpret (by decide)) rfl rfl
    rw [append_nil] at completed
    refine ⟨_, _, _, _, completed ?_ (fun _ _ => isEmpty) ?_ (append_nil _).symm⟩
    · rw [WholeFrame, Whole, whole, isEmpty, Nat.add_zero]
    · rw [Delivers, if_pos isControl, if_pos isNoop]
      rfl
  | tooLarge type interpret isType large =>
    exact (Nat.not_lt_of_le (fine interpret).small large).elim
  | accepted type interpret supported isType payload small size =>
    subst isData
    rw [Reads, interpret] at reads
    obtain ⟨rfl, rfl⟩ := reads
    rw [SpdyFramer.Consistent, interpret] at known
    refine ⟨_, _, _, _, inSync.goOnSilently (not_ready _ interpret (by decide))
      (not_ready .SPDY_CONTROL_FRAME_PAYLOAD rfl (by decide)) nextConsistent
      ⟨rfl, rfl, fine interpret, ?_, ?_⟩ rfl ?_⟩
    · rw [isType]
      exact fun isNoop => payload (Option.some.inj isNoop)
    · exact known.2.2.trans_ne (pos_of_sizeAccepted payload size).ne'
    · rw [← length_pos_iff, known.1]
      decide
  | short type interpret supported isType small size =>
    obtain ⟨other, isOther, accepted⟩ := (fine interpret).type
    rw [isType] at isOther
    cases isOther
    exact (size accepted).elim
  | payload reading short =>
    rw [Reads, reading] at reads
    obtain ⟨rfl, rfl, isFine, notNoop, -⟩ := reads
    rw [SpdyFramer.Consistent, reading] at known
    refine ⟨_, _, _, _, @goOn σ p feed _ frames _ data [] calls
      [] [] inSync (not_ready _ reading (by decide)) ?_
      (isData.trans (append_nil _).symm) nextConsistent ?_
      (append_nil _).symm ?_⟩
    · exact not_ready _ reading (by decide)
    · rw [Reads]
      rw [reading]
      refine ⟨rfl, rfl, fineControl_append known.1 isFine, ?_, ?_⟩
      · rw [SpdyFrame.type_append_right known.1]
        exact notNoop
      · exact Nat.sub_ne_zero_of_lt short
    · intro nothing
      rw [(append_eq_nil_iff.mp nothing).1] at known
      exact absurd known.1 (by decide)
  | @control piece _ reading all =>
    rw [Reads, reading] at reads
    obtain ⟨rfl, rfl, isFine, notNoop, -⟩ := reads
    rw [SpdyFramer.Consistent, reading] at known
    obtain ⟨begun, isControl, -, whole, -⟩ := known
    have sameType := @SpdyFrame.type_append_right _ piece begun
    refine ⟨_, _, _, _, @complete σ p feed _ frames _ piece more calls
      [] _ inSync (not_ready _ reading (by decide)) isData rfl ?_ ?_ ?_ rfl⟩
    · rw [WholeFrame, Whole, SpdyFrame.length_append_right begun, length_append, all]
      exact whole
    · intro _ isNoop
      rw [sameType] at isNoop
      exact (notNoop isNoop).elim
    · rw [Delivers, SpdyFrame.is_control_frame_append_right begun,
        if_pos isControl, sameType, if_neg notNoop]
      rfl
  | @forward piece _ decompressors forwards isPlain isPiece fits all =>
    rw [Reads, forwards] at reads
    obtain ⟨pieces, rfl, nonemptyPieces, whole, rfl⟩ := reads
    have pos := length_pos_iff.mpr isPiece
    have unfinished : feed.framer.remaining_payload_ ≠ 0 := by omega
    refine ⟨_, _, _, _, @goOn σ p feed _ frames _ piece more calls _ _
      inSync (not_ready _ forwards (by decide)) ?_ isData nextConsistent ?_
      (append_assoc _ _ _) ?_⟩
    · exact not_ready _ forwards (by decide)
    · rw [Reads]
      rw [forwards]
      refine ⟨pieces ++ [piece], ?_, ?_, ?_, ?_⟩
      · simp
      · simp [nonemptyPieces, isPiece.symm]
      · rw [flatten_append, length_append]
        simp only [flatten_cons, flatten_nil, append_nil]
        omega
      · rw [if_neg unfinished, pieceCalls, pieceCalls, map_append, append_nil, append_assoc]
        rfl
    · exact fun nothing => isPiece (append_eq_nil_iff.mp nothing).2
  | forwarded forwards complete =>
    subst isData
    rw [Reads, forwards] at reads
    obtain ⟨pieces, rfl, nonemptyPieces, whole, rfl⟩ := reads
    rw [SpdyFramer.Consistent, forwards] at known
    obtain ⟨isHeader, isDataFrame⟩ := known
    have completed := @InSync.complete σ p feed
      (feed.framer.changeState .SPDY_AUTO_RESET) frames _ [] feed.data calls
      _ [] inSync (not_ready _ forwards (by decide)) rfl rfl
    rw [append_nil, append_nil, if_pos complete] at completed
    refine ⟨_, _, _, _, completed ?_ ?_ (delivers_data isHeader isDataFrame nonemptyPieces)
      (append_nil _).symm⟩
    · rw [WholeFrame, Whole, SpdyFrame.length_append_right isHeader.ge, length_append, isHeader]
      omega
    · intro isControl
      rw [SpdyFrame.is_control_frame_append_right isHeader.ge, isDataFrame] at isControl
      cases isControl
  | inflated read forwards compressed sameBuffer sameOverrun outcome =>
    exact (compressed (plain forwards)).elim

end

end InSync

/-- A framer that has read nothing is in sync. -/
theorem start_inSync (isReset : framer.state_ = .SPDY_RESET) (silent : framer.calls = []) :
    InSync p { framer } [] [] [] [] where
  consistent := by
    rw [SpdyFramer.Consistent, isReset]
    exact trivial
  whole _ member := absurd member not_mem_nil
  noops _ member := absurd member not_mem_nil
  split := rfl
  reads := by
    rw [Reads, isReset]
    exact ⟨rfl, rfl⟩
  isCalls := silent
  delivers := .nil
  headers := (if_pos (.inl isReset)).symm
  begun notReady := (notReady (.inl isReset)).elim

/-- The part of a frame that was read is not more than the frame, and no NOOP
frame if it is more than a header. -/
theorem part_of_inSync {part : SpdyFrame} (inSync : InSync p feed frames part calls now) :
    part.length <= SpdyFrame.size + part.length_ ∧
      (SpdyFrame.size < part.length -> EmptyNoop part) := by
  have known := inSync.consistent
  have reads := inSync.reads
  cases isState : feed.framer.state_ with
  | SPDY_ERROR | SPDY_DONE | SPDY_IGNORE_REMAINING_PAYLOAD =>
    rw [Reads, isState] at reads
    exact reads.elim
  | SPDY_RESET | SPDY_AUTO_RESET =>
    rw [Reads, isState] at reads
    obtain ⟨rfl, -⟩ := reads
    exact ⟨Nat.zero_le _, fun more => absurd more (by decide)⟩
  | SPDY_READING_COMMON_HEADER =>
    rw [Reads, isState] at reads
    rw [SpdyFramer.Consistent, isState] at known
    rw [reads.1]
    exact ⟨Nat.le_add_right_of_le known.1, fun more => absurd more (Nat.not_lt_of_le known.1)⟩
  | SPDY_INTERPRET_CONTROL_FRAME_COMMON_HEADER =>
    rw [Reads, isState] at reads
    rw [SpdyFramer.Consistent, isState] at known
    rw [reads.1]
    exact ⟨Nat.le_add_right_of_le known.1.le, fun more => absurd more (Nat.not_lt_of_le known.1.le)⟩
  | SPDY_CONTROL_FRAME_PAYLOAD =>
    rw [Reads, isState] at reads
    rw [SpdyFramer.Consistent, isState] at known
    obtain ⟨rfl, -, -, notNoop, -⟩ := reads
    exact ⟨by omega, fun _ _ isNoop => (notNoop isNoop).elim⟩
  | SPDY_FORWARD_STREAM_FRAME =>
    rw [Reads, isState] at reads
    rw [SpdyFramer.Consistent, isState] at known
    obtain ⟨pieces, rfl, -, fits, -⟩ := reads
    obtain ⟨whole, isData⟩ := known
    rw [SpdyFrame.length_append_right whole.ge, length_append, whole]
    refine ⟨by omega, fun _ isControl => ?_⟩
    rw [SpdyFrame.is_control_frame_append_right whole.ge, isData] at isControl
    cases isControl

end

end Chromium.Spdy
