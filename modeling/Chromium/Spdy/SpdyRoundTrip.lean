import Chromium.Spdy.SpdyCreatedFrames
import Chromium.Spdy.SpdyProgress

/-!
# Frames survive the wire

Created frames, one behind the other and cut into any pieces, give a framer of
the same version exactly the calls for them.
-/

namespace Chromium.Spdy

open List Option
open Library (Whole)
open SpdyFramer (Turned sizeAccepted processInput)

/-- A call of one of the `Create` functions. -/
inductive Creation where
  | synStream (stream_id associated_stream_id : UInt32) (priority : Int)
      (flags : UInt8) (compressed : Bool) (headers : SpdyHeaderBlock)
  | synReply (stream_id : UInt32) (flags : UInt8) (compressed : Bool) (headers : SpdyHeaderBlock)
  | headers (stream_id : UInt32) (flags : UInt8) (compressed : Bool) (headers : SpdyHeaderBlock)
  | rstStream (stream_id status : UInt32)
  | settings (values : List (UInt32 × UInt32))
  | goAway (last_accepted_stream_id : UInt32)
  | windowUpdate (stream_id delta_window_size : UInt32)
  | data (stream_id : UInt32) (data : Bytes) (flags : UInt8)

/-- A stream id that may be given to a frame. -/
def StreamId (stream_id : UInt32) : Prop := 0 < stream_id.toNat ∧ stream_id.toNat <= kStreamIdMask

namespace Creation

/-- The frame, if there is one. -/
def create (spdy_version_ : Nat) (initialized : Bool) : Creation -> Option SpdyFrame
  | synStream stream_id associated_stream_id priority flags compressed block =>
    createSynStream spdy_version_ initialized stream_id associated_stream_id
      priority flags compressed block
  | synReply stream_id flags compressed block =>
    createSynReply spdy_version_ initialized stream_id flags compressed block
  | headers stream_id flags compressed block =>
    createHeaders initialized stream_id flags compressed block
  | rstStream stream_id status => some (createRstStream spdy_version_ stream_id status)
  | settings values => some (createSettings spdy_version_ values)
  | goAway last_accepted_stream_id => some (createGoAway spdy_version_ last_accepted_stream_id)
  | windowUpdate stream_id delta_window_size =>
    some (createWindowUpdate spdy_version_ stream_id delta_window_size)
  | data stream_id bytes flags => createDataFrame initialized stream_id bytes flags

/-- The checks of the function hold, and the payload of a control frame is not
larger than a receiver takes. -/
def Checked : Creation -> Prop
  | synStream stream_id associated_stream_id priority flags _ block =>
    StreamId stream_id ∧ associated_stream_id.toNat <= kStreamIdMask ∧
      flags &&& ~~~kControlFlagsMask = 0 ∧ ShortHeaders block ∧
      (synStreamPayload stream_id associated_stream_id priority
        block).length <= kControlFrameBufferMaxSize
  | synReply stream_id flags _ block | headers stream_id flags _ block =>
    StreamId stream_id ∧ flags &&& ~~~kControlFlagsMask = 0 ∧ ShortHeaders block ∧
      (replyPayload stream_id block).length <= kControlFrameBufferMaxSize
  | rstStream stream_id status => StreamId stream_id ∧ 0 < status.toNat ∧ status.toNat < 9
  | settings values => (settingsPayload values).length <= kControlFrameBufferMaxSize
  | goAway last_accepted_stream_id => last_accepted_stream_id.toNat <= kStreamIdMask
  | windowUpdate stream_id delta_window_size =>
    StreamId stream_id ∧ 0 < delta_window_size.toNat ∧
      delta_window_size.toNat <= kSpdyStreamMaximumWindowSize
  | data stream_id bytes flags =>
    StreamId stream_id ∧ bytes.length <= kLengthMask ∧ flags &&& ~~~kDataFlagsMask = 0

/-- A HEADERS frame has the version of the framer, and a data frame is not
compressed and has data whose length is a number of 16 bits. -/
def Carried (spdy_version_ : Nat) : Creation -> Prop
  | headers .. => spdy_version_ = kSpdyProtocolVersion
  | data _ bytes flags => bytes.length < 2 ^ 16 ∧ flags &&& DATA_FLAG_COMPRESSED = 0
  | _ => True

/-- What a visitor is to receive for a frame: a control frame itself, with the
end of the stream behind the last reply, and the data of a data frame, in
pieces, with the end of the stream behind the last of them. -/
def Received (frame : SpdyFrame) (calls : List VisitorCall) : Creation -> Prop
  | synReply stream_id flags _ _ =>
    calls = .OnControl frame :: if flags &&& CONTROL_FLAG_FIN ≠ 0 then
        [.OnStreamFrameData stream_id.toNat []]
      else []
  | data stream_id bytes flags =>
    ∃ pieces : List Bytes, [] ∉ pieces ∧ pieces.flatten = bytes ∧
      calls = pieces.map (.OnStreamFrameData stream_id.toNat) ++ if flags &&& DATA_FLAG_FIN ≠ 0 then
          [.OnStreamFrameData stream_id.toNat []]
        else []
  | _ => calls = [.OnControl frame]

end Creation

/-- What a visitor is to receive for frames. -/
inductive ReceivedAll : List Creation -> List SpdyFrame -> List VisitorCall -> Prop
  | nil : ReceivedAll [] [] []
  | cons {creation : Creation} {frame : SpdyFrame}
      {creations : List Creation} {frames : List SpdyFrame}
      {first calls : List VisitorCall} :
      creation.Received frame first ->
      ReceivedAll creations frames calls ->
      ReceivedAll (creation :: creations) (frame :: frames) (first ++ calls)

section Created

variable {σ : Type}

variable {stream_id : UInt32}

theorem fine_controlFrame (fits : version < 2 ^ 15) (supported : version = p.spdy_version_)
    (small : payload.length <= kControlFrameBufferMaxSize) (size : sizeAccepted type payload.length)
    (notNoop : type ≠ .NOOP) :
    FineFrame p (controlFrame version type flags payload) := by
  have short : payload.length < 2 ^ 24 := by
    rw [kControlFrameBufferMaxSize] at small
    omega
  have isType : (controlFrame version type flags payload).type? ≠ some .NOOP := by
    rw [type_controlFrame]
    exact fun isNoop => notNoop (some.inj isNoop)
  refine ⟨whole_controlFrame short, fun _ => ⟨⟨?_, ?_, ?_, ?_⟩, isType⟩, ?_⟩
  · rw [version_controlFrame fits, supported]
  · rw [payload_controlFrame short]
    exact small
  · rw [payload_controlFrame short]
    exact ⟨type, type_controlFrame, size⟩
  · exact fun isNoop => (isType isNoop).elim
  · intro isData
    rw [is_control_frame_controlFrame fits] at isData
    cases isData

/-- The calls for a control frame that is no reply. -/
theorem delivers_controlFrame (fits : version < 2 ^ 15) (notNoop : type ≠ .NOOP)
    (delivers : Delivers (controlFrame version type flags payload) calls) :
    calls = .OnControl (controlFrame version type flags payload) ::
      if type = .SYN_REPLY ∧ flags &&& CONTROL_FLAG_FIN ≠ 0 then
        [.OnStreamFrameData (controlFrame version type flags payload).synReply_stream_id []]
      else [] := by
  rw [Delivers, if_pos (is_control_frame_controlFrame fits), controlCalls,
    type_controlFrame, flags_controlFrame] at delivers
  rw [if_neg (fun isNoop => notNoop (some.inj isNoop))] at delivers
  rw [delivers]
  simp

section

variable (masked : stream_id.toNat <= kStreamIdMask)
include masked

theorem synReply_stream_id_eq : (controlFrame version .SYN_REPLY flags
      (replyPayload stream_id block)).synReply_stream_id = stream_id.toNat := by
  have isMask : kStreamIdMask = 2 ^ 31 - 1 := rfl
  have moved : ntohl (controlFrame version .SYN_REPLY flags
      (replyPayload stream_id block)) 8 = stream_id.toNat := by
    have right := @ntohl_append_right (htons (kControlFlagMask ||| version) ++
        (htons SpdyControlType.SYN_REPLY.toNat ++
          flagsAndLength flags (replyPayload stream_id block).length))
      (replyPayload stream_id block) 0
    have inPayload : ntohl (replyPayload stream_id block) 0 = stream_id.toNat := by
      rw [replyPayload, ntohl_append_left (Nat.le_refl 4), ntohl_htonl,
        Nat.mod_eq_of_lt stream_id.toNat_lt]
    exact right.trans inPayload
  rw [SpdyFrame.synReply_stream_id, moved, isMask, Nat.and_two_pow_sub_one_eq_mod, Nat.mod_eq_of_lt]
  omega

theorem fine_dataFrame (fits : bytes.length < 2 ^ 16) (plain : flags &&& DATA_FLAG_COMPRESSED = 0) :
    FineFrame p (dataFrame stream_id flags bytes) := by
  have isData := @is_control_frame_dataFrame _ flags bytes masked
  refine ⟨whole_dataFrame (by omega), fun isControl => ?_, fun _ => ?_⟩
  · rw [isData] at isControl
    cases isControl
  · rw [flags_dataFrame]
    exact plain

theorem delivers_dataFrame {calls : List VisitorCall}
    (delivers : Delivers (dataFrame stream_id flags bytes) calls) :
    ∃ pieces : List Bytes, [] ∉ pieces ∧ pieces.flatten = bytes ∧
      calls = pieces.map (.OnStreamFrameData stream_id.toNat) ++ if flags &&& DATA_FLAG_FIN ≠ 0 then
          [.OnStreamFrameData stream_id.toNat []]
        else [] := by
  rw [Delivers, is_control_frame_dataFrame masked] at delivers
  obtain ⟨pieces, ne, isData, isCalls⟩ := delivers
  rw [pieceCalls, finCalls, data_stream_id_dataFrame masked, flags_dataFrame] at isCalls
  exact ⟨pieces, ne, isData, isCalls⟩

end

/-- A created frame is fine, and its calls are those that are to be received. -/
theorem fine_of_created {creation : Creation}
    (fits : p.spdy_version_ < 2 ^ 15) (checked : creation.Checked)
    (carried : creation.Carried p.spdy_version_)
    (created : creation.create p.spdy_version_ initialized = some frame) :
    FineFrame p frame ∧ ∀ calls, Delivers frame calls -> creation.Received frame calls := by
  have short : ∀ {len : Nat}, len <= kControlFrameBufferMaxSize -> len < 2 ^ 24 := by
    intro len small
    rw [kControlFrameBufferMaxSize] at small
    omega
  have eight : ∀ first second : Nat,
      (htonl first ++ htonl second).length <= kControlFrameBufferMaxSize := by
    intro first second
    rw [length_append, length_htonl, length_htonl]
    decide
  cases creation with
  | synStream stream_id associated_stream_id priority flags compressed block =>
    obtain ⟨-, -, -, shortBlock, small⟩ := checked
    obtain rfl := createSynStream_eq shortBlock (short small) created
    refine ⟨fine_controlFrame fits rfl small ?_ (by decide),
      fun calls delivers => delivers_controlFrame fits (by decide) delivers⟩
    simp only [sizeAccepted, blockSize, SpdyFrame.size, synStreamPayload,
      priorityBytes, headerBytes, length_append, length_htonl,
      length_htons, decide_eq_true_eq]
    omega
  | synReply stream_id flags compressed block =>
    obtain ⟨isId, -, shortBlock, small⟩ := checked
    obtain rfl := createReply_eq shortBlock (short small) created
    refine ⟨fine_controlFrame fits rfl small ?_ (by decide), ?_⟩
    · simp only [sizeAccepted, blockSize, SpdyFrame.size, replyPayload,
        headerBytes, length_append, length_htonl, length_htons,
        decide_eq_true_eq]
      omega
    · intro calls delivers
      have isCalls := delivers_controlFrame fits (by decide) delivers
      rw [synReply_stream_id_eq isId.2] at isCalls
      simp only [true_and] at isCalls
      exact isCalls
  | headers stream_id flags compressed block =>
    obtain ⟨-, -, shortBlock, small⟩ := checked
    obtain rfl := createReply_eq shortBlock (short small) created
    refine ⟨fine_controlFrame (by decide) carried.symm small ?_ (by decide), fun calls delivers =>
        delivers_controlFrame (by decide) (by decide) delivers⟩
    simp only [sizeAccepted, blockSize, SpdyFrame.size, replyPayload,
      headerBytes, length_append, length_htonl, length_htons,
      decide_eq_true_eq]
    omega
  | rstStream stream_id status =>
    cases created
    rw [createRstStream_eq]
    exact ⟨fine_controlFrame fits rfl (eight _ _) rfl (by decide),
      fun calls delivers => delivers_controlFrame fits (by decide) delivers⟩
  | settings values =>
    cases created
    rw [createSettings_eq (short checked)]
    refine ⟨fine_controlFrame fits rfl checked ?_ (by decide),
      fun calls delivers => delivers_controlFrame fits (by decide) delivers⟩
    rw [length_settingsPayload]
    exact decide_eq_true (Nat.le_add_right 4 _)
  | goAway last_accepted_stream_id =>
    cases created
    rw [createGoAway_eq]
    have four : (htonl last_accepted_stream_id.toNat).length <= kControlFrameBufferMaxSize := by
      rw [length_htonl]
      decide
    exact ⟨fine_controlFrame fits rfl four rfl (by decide),
      fun calls delivers => delivers_controlFrame fits (by decide) delivers⟩
  | windowUpdate stream_id delta_window_size =>
    cases created
    rw [createWindowUpdate_eq]
    exact ⟨fine_controlFrame fits rfl (eight _ _) rfl (by decide),
      fun calls delivers => delivers_controlFrame fits (by decide) delivers⟩
  | data stream_id bytes flags =>
    obtain ⟨isId, -, -⟩ := checked
    obtain ⟨shortData, plain⟩ := carried
    obtain rfl := createDataFrame_eq plain shortData created
    exact ⟨fine_dataFrame isId.2 shortData plain,
      fun calls delivers => delivers_dataFrame isId.2 delivers⟩

end Created

section Wire

variable {σ : Type} {p : Platform σ} {initialized : Bool} {creations : List Creation}
  {frames : List SpdyFrame} {calls : List VisitorCall}

theorem calls_of_deliversAll_nil (delivers : DeliversAll [] calls) : calls = [] := by
  generalize isNil : ([] : List SpdyFrame) = all at delivers
  cases delivers with
  | nil => rfl
  | concat before last => simp at isNil

/-- The calls for whole frames, from the front. -/
theorem deliversAll_cons (delivers : DeliversAll (frame :: frames) calls) :
    ∃ first rest, Delivers frame first ∧ DeliversAll frames rest ∧ calls = first ++ rest := by
  generalize isAll : frame :: frames = all at delivers
  induction delivers generalizing frames with
  | nil => cases isAll
  | @concat before last beforeCalls lastCalls deliversBefore deliversLast ih =>
      cases before with
      | nil =>
        obtain ⟨rfl, rfl⟩ := List.cons.inj isAll
        obtain rfl := calls_of_deliversAll_nil deliversBefore
        exact ⟨lastCalls, [], deliversLast, .nil, by simp⟩
      | cons other before =>
        obtain ⟨rfl, rfl⟩ := List.cons.inj isAll
        obtain ⟨first, rest, deliversFirst, deliversRest, rfl⟩ := ih rfl
        exact ⟨first, rest ++ lastCalls, deliversFirst,
          .concat deliversRest deliversLast, append_assoc _ _ _⟩

/-- The frames that are created. -/
abbrev CreatedAll (spdy_version_ : Nat) (initialized : Bool) (creations : List Creation)
    (frames : List SpdyFrame) : Prop :=
  List.Forall₂ (fun creation frame =>
    creation.create spdy_version_ initialized = some frame) creations frames

theorem receivedAll_of_deliversAll (fits : p.spdy_version_ < 2 ^ 15)
    (checked : ∀ creation ∈ creations, creation.Checked)
    (carried : ∀ creation ∈ creations, creation.Carried p.spdy_version_)
    (created : CreatedAll p.spdy_version_ initialized creations frames)
    (delivers : DeliversAll frames calls) :
    ReceivedAll creations frames calls := by
  induction created generalizing calls with
  | nil =>
    obtain rfl := calls_of_deliversAll_nil delivers
    exact .nil
  | @cons creation frame creations frames isCreated created ih =>
      obtain ⟨first, rest, deliversFirst, deliversRest, rfl⟩ := deliversAll_cons delivers
      rw [forall_mem_cons] at checked carried
      have received := (fine_of_created fits checked.1 carried.1 isCreated).2 first deliversFirst
      exact .cons received (ih checked.2 carried.2 deliversRest)

theorem fine_of_createdAll (fits : p.spdy_version_ < 2 ^ 15)
    (checked : ∀ creation ∈ creations, creation.Checked)
    (carried : ∀ creation ∈ creations, creation.Carried p.spdy_version_)
    (created : CreatedAll p.spdy_version_ initialized creations frames) :
    ∀ frame ∈ frames, FineFrame p frame := by
  induction created with
  | nil => exact forall_mem_nil _
  | cons isCreated created ih =>
    rw [forall_mem_cons] at checked carried ⊢
    exact ⟨(fine_of_created fits checked.1 carried.1 isCreated).1, ih checked.2 carried.2⟩

theorem wire_of_fine (fine : ∀ frame ∈ frames, FineFrame p frame) :
    frames.mapM wire = some frames := by
  induction frames with
  | nil => rfl
  | cons frame frames ih =>
    rw [forall_mem_cons] at fine
    rw [mapM_cons, wire_of_whole fine.1.whole, ih fine.2]
    rfl

theorem no_error_of_receivedAll (received : ReceivedAll creations frames calls)
    (error : SpdyError) :
    .OnError error ∉ calls := by
  induction received with
  | nil => exact not_mem_nil
  | @cons creation frame creations frames first calls isReceived _ ih =>
      rw [mem_append, not_or]
      refine ⟨?_, ih⟩
      cases creation with
      | data stream_id bytes flags =>
        obtain ⟨pieces, -, -, rfl⟩ := isReceived
        split <;> simp
      | synReply stream_id flags compressed block =>
        rw [isReceived]
        split <;> simp
      | _ =>
        rw [isReceived]
        simp

/-- Created frames are sent as they are, and received in the pieces that the
bytes come in, without an error. -/
theorem received_of_created (fits : p.spdy_version_ < 2 ^ 15)
    (checked : ∀ creation ∈ creations, creation.Checked)
    (carried : ∀ creation ∈ creations, creation.Carried p.spdy_version_)
    (created : CreatedAll p.spdy_version_ initialized creations frames) :
    frames.mapM wire = some frames ∧
      ∀ pieces : List Bytes, pieces.flatten = frames.flatten -> ∃ rounds last,
          SpdyFramer.processPieces p rounds {} pieces = some last ∧
            ReceivedAll creations frames last.calls ∧ ∀ error, .OnError error ∉ last.calls := by
  have fine := fine_of_createdAll fits checked carried created
  refine ⟨wire_of_fine fine, fun pieces same => ?_⟩
  have start : InSync p ({} : Feed σ) [] [] [] [] := start_inSync rfl rfl
  obtain ⟨last, ends, isReturned, consumed, done, part, calls, now, inSync⟩ :=
    processPieces_of_inSync fine pieces {} ⟨[], [], [], [], start⟩ rfl same
  have received := receivedAll_of_deliversAll fits checked carried created
    (deliversAll_of_inSync fine inSync isReturned consumed)
  exact ⟨_, last.framer, ends, received, no_error_of_receivedAll received⟩

end Wire

theorem received_of_created_rstStream_data : ∃ rounds last,
      SpdyFramer.processPieces plainPlatform rounds {}
        [[128, 2, 0, 3, 0, 0, 0, 8, 0, 0], [0, 1, 0, 0, 0, 5, 0, 0],
          [0, 3, 1, 0, 0, 2, 7], [8]] = some last ∧
        ReceivedAll [.rstStream 1 5, .data 3 [7, 8] DATA_FLAG_FIN]
          [createRstStream 2 1 5, [0, 0, 0, 3, 1, 0, 0, 2, 7, 8]] last.calls ∧
        ∀ error, .OnError error ∉ last.calls := by
  refine (@received_of_created _ plainPlatform true _ _ (by decide) ?_ ?_ ?_).2 _ (by decide)
  · refine forall_mem_cons.mpr ⟨?_, forall_mem_singleton.mpr ?_⟩ <;>
    · rw [Creation.Checked, StreamId]
      decide
  · refine forall_mem_cons.mpr ⟨trivial, forall_mem_singleton.mpr ?_⟩
    rw [Creation.Carried]
    decide
  · exact .cons rfl (.cons rfl .nil)

/-- A reply that ends its stream gives more than the control frame. -/
theorem fin_after_synReply : ∃ frame : SpdyFrame,
      frame = [128, 2, 0, 2, 1, 0, 0, 8, 0, 0, 0, 1, 0, 0, 0, 0] ∧
        (Creation.synReply 1 CONTROL_FLAG_FIN false []).create
          plainPlatform.spdy_version_ true = some frame ∧
        (SpdyFramer.processPieces plainPlatform 20 {} [frame]).map SpdyFramer.calls =
            some [.OnControl frame, .OnStreamFrameData 1 []] :=
  ⟨_, rfl, rfl, by decide⟩

end Chromium.Spdy
