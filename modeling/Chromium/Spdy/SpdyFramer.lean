import Chromium.Spdy.SpdyProtocol

/-!
# The framer

`SpdyFramer::ProcessInput` is a loop around a state machine. The version that
is supported and the decompressors of streams are parameters.
-/

namespace Chromium.Spdy

open List

inductive SpdyState where
  | SPDY_ERROR
  | SPDY_DONE
  | SPDY_RESET
  | SPDY_AUTO_RESET
  | SPDY_READING_COMMON_HEADER
  | SPDY_INTERPRET_CONTROL_FRAME_COMMON_HEADER
  | SPDY_CONTROL_FRAME_PAYLOAD
  | SPDY_IGNORE_REMAINING_PAYLOAD
  | SPDY_FORWARD_STREAM_FRAME
deriving DecidableEq

inductive SpdyError where
  | SPDY_NO_ERROR
  | SPDY_INVALID_CONTROL_FRAME
  | SPDY_CONTROL_PAYLOAD_TOO_LARGE
  | SPDY_UNSUPPORTED_VERSION
  | SPDY_DECOMPRESS_FAILURE
deriving DecidableEq

def kControlFrameBufferInitialSize : Nat := 8 * 1024
def kControlFrameBufferMaxSize : Nat := 16 * 1024

/-- A call of the visitor. -/
inductive VisitorCall where
  | OnError (error : SpdyError)
  | OnControl (frame : SpdyFrame)
  | OnStreamFrameData (stream_id : Nat) (data : Bytes)
deriving DecidableEq

/-- The static version of the framer, and what it uses of zlib: how a
decompressor starts, and how one inflates bytes into a buffer of a size. The
latter fails, or gives the bytes written and the number of those not read. -/
structure Platform (σ : Type) where
  spdy_version_ : Nat
  inflateInit : Option σ
  inflate : σ -> Bytes -> Nat -> σ × Option (Bytes × Nat)

structure SpdyFramer (σ : Type) where
  state_ : SpdyState := .SPDY_RESET
  error_code_ : SpdyError := .SPDY_NO_ERROR
  remaining_payload_ : Nat := 0
  remaining_control_payload_ : Nat := 0
  /-- The bytes read of the current frame. There are `current_frame_len_` of
  them. -/
  current_frame_buffer_ : SpdyFrame := []
  current_frame_capacity_ : Nat := 0
  /-- A byte was copied behind the end of the buffer. -/
  overrun : Bool := false
  stream_decompressors_ : Nat -> Option σ := fun _ => none
  /-- The calls of the visitor so far. -/
  calls : List VisitorCall := []

namespace SpdyFramer

variable {σ : Type}

section

variable (framer : SpdyFramer σ)

def current_frame_len_ : Nat := framer.current_frame_buffer_.length

/-- `CHANGE_STATE`. -/
def changeState (newstate : SpdyState) : SpdyFramer σ := { framer with state_ := newstate }

/-- Call the visitor. -/
def visit (call : VisitorCall) : SpdyFramer σ := { framer with calls := framer.calls ++ [call] }

def set_error (error : SpdyError) : SpdyFramer σ :=
  ({ framer with error_code_ := error }.changeState .SPDY_ERROR).visit (.OnError error)

/-- `memcpy` behind the bytes of the current frame. -/
def copyToFrame (data : Bytes) : SpdyFramer σ :=
  { framer with
    current_frame_buffer_ := framer.current_frame_buffer_ ++ data
    overrun := framer.overrun ||
      framer.current_frame_capacity_ < framer.current_frame_len_ + data.length }

def expandControlFrameBuffer (size : Nat) : SpdyFramer σ :=
  let alloc_size := size + SpdyFrame.size
  if alloc_size <= framer.current_frame_capacity_ then framer
  else { framer with current_frame_capacity_ := alloc_size }

def reset : SpdyFramer σ :=
  let framer :=
    { framer with
      state_ := .SPDY_RESET
      error_code_ := .SPDY_NO_ERROR
      remaining_payload_ := 0
      remaining_control_payload_ := 0
      current_frame_buffer_ := [] }
  if framer.current_frame_capacity_ ≠ kControlFrameBufferInitialSize then
    { framer with current_frame_capacity_ := 0 }.expandControlFrameBuffer
      kControlFrameBufferInitialSize
  else framer

/-- `ProcessCommonHeader`: the framer with the number of bytes read. -/
def processCommonHeader (data : Bytes) : SpdyFramer σ × Nat :=
  if framer.current_frame_len_ < SpdyFrame.size then
    let bytes_desired := SpdyFrame.size - framer.current_frame_len_
    let bytes_to_append := min bytes_desired data.length
    let framer := framer.copyToFrame (data.take bytes_to_append)
    let current_frame := framer.current_frame_buffer_
    -- Check for an empty data frame.
    if framer.current_frame_len_ = SpdyFrame.size ∧
        ¬ current_frame.is_control_frame ∧ current_frame.length_ = 0 then
      let framer :=
        if current_frame.flags &&& CONTROL_FLAG_FIN ≠ 0 then
          framer.visit (.OnStreamFrameData current_frame.data_stream_id [])
        else framer
      (framer.changeState .SPDY_AUTO_RESET, bytes_to_append)
    else (framer, bytes_to_append)
  else
    let current_frame := framer.current_frame_buffer_
    let framer := { framer with remaining_payload_ := current_frame.length_ }
    if ¬ current_frame.is_control_frame then (framer.changeState .SPDY_FORWARD_STREAM_FRAME, 0)
    else (framer.changeState .SPDY_INTERPRET_CONTROL_FRAME_COMMON_HEADER, 0)

/-- The check of the length of a control frame by its type. -/
def sizeAccepted (type : SpdyControlType) (length : Nat) : Bool :=
  match type with
  | .SYN_STREAM => blockSize .SYN_STREAM - SpdyFrame.size <= length
  | .SYN_REPLY => blockSize .SYN_REPLY - SpdyFrame.size <= length
  | .RST_STREAM => length = blockSize .RST_STREAM - SpdyFrame.size
  | .SETTINGS => blockSize .SETTINGS - SpdyFrame.size <= length
  | .NOOP => true
  | .GOAWAY => length = blockSize .GOAWAY - SpdyFrame.size
  | .HEADERS => blockSize .HEADERS - SpdyFrame.size <= length
  | .WINDOW_UPDATE => length = blockSize .WINDOW_UPDATE - SpdyFrame.size
  -- There is no case for it.
  | .PING => false

def processControlFrameHeader (p : Platform σ) (framer : SpdyFramer σ) : SpdyFramer σ :=
  let current_control_frame := framer.current_frame_buffer_
  if current_control_frame.version ≠ p.spdy_version_ then
    framer.set_error .SPDY_UNSUPPORTED_VERSION
  else
    match current_control_frame.type? with
    | none => framer.set_error .SPDY_INVALID_CONTROL_FRAME
    -- Swallow it.
    | some .NOOP => framer.changeState .SPDY_AUTO_RESET
    | some type =>
      let length := current_control_frame.length_
      let framer :=
        if sizeAccepted type length then framer
        else framer.set_error .SPDY_INVALID_CONTROL_FRAME
      let framer := { framer with remaining_control_payload_ := length }
      if kControlFrameBufferMaxSize < length then framer.set_error .SPDY_CONTROL_PAYLOAD_TOO_LARGE
      else (framer.expandControlFrameBuffer length).changeState .SPDY_CONTROL_FRAME_PAYLOAD

/-- The calls for a complete control frame. -/
def visitControl : SpdyFramer σ :=
  let control_frame := framer.current_frame_buffer_
  let framer := framer.visit (.OnControl control_frame)
  -- If this is a FIN, tell the caller.
  if control_frame.type? = some .SYN_REPLY ∧ control_frame.flags &&& CONTROL_FLAG_FIN ≠ 0 then
    framer.visit (.OnStreamFrameData control_frame.synReply_stream_id [])
  else framer

/-- `ProcessControlFramePayload`: the framer with the number of bytes read. -/
def processControlFramePayload (data : Bytes) : SpdyFramer σ × Nat :=
  let amount_to_consume := min framer.remaining_control_payload_ data.length
  let framer :=
    if framer.remaining_control_payload_ ≠ 0 then
      { framer.copyToFrame (data.take amount_to_consume) with
        remaining_control_payload_ := framer.remaining_control_payload_ - amount_to_consume
        remaining_payload_ := framer.remaining_payload_ - amount_to_consume }
    else framer
  if framer.remaining_control_payload_ ≠ 0 then (framer, amount_to_consume)
  else (framer.visitControl.changeState .SPDY_IGNORE_REMAINING_PAYLOAD, amount_to_consume)

/-- `GetStreamDecompressor`. -/
def getStreamDecompressor (p : Platform σ) (framer : SpdyFramer σ) (stream_id : Nat) : Option σ :=
  (framer.stream_decompressors_ stream_id).or p.inflateInit

def setStreamDecompressor (stream_id : Nat) (decompressor : Option σ) : SpdyFramer σ :=
  { framer with
    stream_decompressors_ := fun other =>
      if other = stream_id then decompressor
      else framer.stream_decompressors_ other }

/-- The end of `ProcessDataFramePayload`, behind some payload. -/
def finishDataFramePayload (amount : Nat) : SpdyFramer σ × Nat :=
  let current_data_frame := framer.current_frame_buffer_
  let remaining_payload_ := framer.remaining_payload_ - amount
  let framer := { framer with remaining_payload_ }
  -- Inform the visitor of EOF via a 0-length data frame.
  if remaining_payload_ = 0 ∧ current_data_frame.flags &&& DATA_FLAG_FIN ≠ 0 then
    ((framer.visit (.OnStreamFrameData current_data_frame.data_stream_id
      [])).setStreamDecompressor current_data_frame.data_stream_id none,
      amount)
  else (framer, amount)

end

/-- Compressed bytes in `ProcessDataFramePayload`. -/
def inflateDataFramePayload (p : Platform σ) (framer : SpdyFramer σ)
    (data : Bytes) : SpdyFramer σ × Nat :=
  let stream_id := framer.current_frame_buffer_.data_stream_id
  match framer.getStreamDecompressor p stream_id with
  | none => (framer, 0)
  | some decompressor =>
    let (decompressor, inflated) := p.inflate decompressor data (data.length * 100)
    let framer := framer.setStreamDecompressor stream_id (some decompressor)
    match inflated with
    | none => (framer.set_error .SPDY_DECOMPRESS_FAILURE, 0)
    | some (decompressed, avail_in) =>
      -- Only inform the visitor if there is data.
      let framer :=
        if decompressed ≠ [] then framer.visit (.OnStreamFrameData stream_id decompressed)
        else framer
      framer.finishDataFramePayload (data.length - avail_in)

/-- `ProcessDataFramePayload`: the framer with the number of bytes read. -/
def processDataFramePayload (p : Platform σ) (framer : SpdyFramer σ)
    (data : Bytes) : SpdyFramer σ × Nat :=
  let current_data_frame := framer.current_frame_buffer_
  if framer.remaining_payload_ ≠ 0 then
    let amount_to_forward := min framer.remaining_payload_ data.length
    if amount_to_forward ≠ 0 ∧ framer.state_ ≠ .SPDY_IGNORE_REMAINING_PAYLOAD then
      if current_data_frame.flags &&& DATA_FLAG_COMPRESSED ≠ 0 then
        framer.inflateDataFramePayload p (data.take amount_to_forward)
      else
        (framer.visit (.OnStreamFrameData current_data_frame.data_stream_id
          (data.take amount_to_forward))).finishDataFramePayload amount_to_forward
    else framer.finishDataFramePayload amount_to_forward
  else (framer.changeState .SPDY_AUTO_RESET, 0)

/-- A round of the loop of `ProcessInput`: the framer with the bytes that are
left. There is none if the loop ends. -/
def turn (p : Platform σ) (framer : SpdyFramer σ) (data : Bytes) : Option (SpdyFramer σ × Bytes) :=
  match framer.state_ with
  | .SPDY_ERROR => none
  | .SPDY_DONE => none
  | .SPDY_AUTO_RESET | .SPDY_RESET =>
    some (framer.reset.changeState .SPDY_READING_COMMON_HEADER, data)
  | .SPDY_READING_COMMON_HEADER =>
    let (framer, bytes_read) := framer.processCommonHeader data
    some (framer, data.drop bytes_read)
  | .SPDY_INTERPRET_CONTROL_FRAME_COMMON_HEADER =>
    some (framer.processControlFrameHeader p, data)
  | .SPDY_CONTROL_FRAME_PAYLOAD =>
    let (framer, bytes_read) := framer.processControlFramePayload data
    let data := data.drop bytes_read
    -- The cases fall through.
    let (framer, bytes_read) := framer.processDataFramePayload p data
    some (framer, data.drop bytes_read)
  | .SPDY_IGNORE_REMAINING_PAYLOAD | .SPDY_FORWARD_STREAM_FRAME =>
    let (framer, bytes_read) := framer.processDataFramePayload p data
    some (framer, data.drop bytes_read)

/-- `ProcessInput`, as far as it ends in a number of rounds: the framer with the
bytes that are not consumed. -/
def processInput (p : Platform σ) : Nat -> SpdyFramer σ -> Bytes -> Option (SpdyFramer σ × Bytes)
  | _, framer, [] => some (framer, [])
  | 0, _, _ :: _ => none
  | rounds + 1, framer, byte :: data =>
    match framer.turn p (byte :: data) with
    | none => some (framer, byte :: data)
    | some (framer, data) => processInput p rounds framer data

end SpdyFramer

/-!
## Rounds of the framer

What is known of a framer in each of its states, and what one round of the loop
of `ProcessInput` can do. A round copies nothing behind the end of the buffer.
-/

/-- A complete header of a data frame without data. -/
def EmptyData (frame : SpdyFrame) : Prop :=
  frame.length = SpdyFrame.size ∧ frame.is_control_frame = false ∧ frame.length_ = 0

instance (frame : SpdyFrame) : Decidable (EmptyData frame) :=
  inferInstanceAs (Decidable (_ ∧ _ ∧ _))

/-- The notification that a data frame is the last one. -/
def finCalls (frame : SpdyFrame) : List VisitorCall :=
  if frame.flags &&& DATA_FLAG_FIN ≠ 0 then [.OnStreamFrameData frame.data_stream_id []]
  else []

/-- The calls for a complete control frame. -/
def controlCalls (frame : SpdyFrame) : List VisitorCall :=
  .OnControl frame :: if frame.type? = some .SYN_REPLY ∧ frame.flags &&& CONTROL_FLAG_FIN ≠ 0 then
      [.OnStreamFrameData frame.synReply_stream_id []]
    else []

namespace SpdyFramer

variable {σ : Type}

/-- What is known between rounds. -/
def Consistent (framer : SpdyFramer σ) : Prop :=
  match framer.state_ with
  | .SPDY_ERROR | .SPDY_RESET | .SPDY_AUTO_RESET => True
  | .SPDY_DONE | .SPDY_IGNORE_REMAINING_PAYLOAD => False
  | .SPDY_READING_COMMON_HEADER =>
    framer.current_frame_buffer_.length <= SpdyFrame.size ∧
      SpdyFrame.size <= framer.current_frame_capacity_ ∧
      ¬ EmptyData framer.current_frame_buffer_
  | .SPDY_INTERPRET_CONTROL_FRAME_COMMON_HEADER =>
    framer.current_frame_buffer_.length = SpdyFrame.size ∧
      framer.current_frame_buffer_.is_control_frame ∧
      framer.remaining_payload_ = framer.current_frame_buffer_.length_
  | .SPDY_CONTROL_FRAME_PAYLOAD =>
    SpdyFrame.size <= framer.current_frame_buffer_.length ∧
      framer.current_frame_buffer_.is_control_frame ∧
      framer.remaining_control_payload_ = framer.remaining_payload_ ∧
      framer.current_frame_buffer_.length + framer.remaining_payload_ =
        SpdyFrame.size + framer.current_frame_buffer_.length_ ∧
      SpdyFrame.size + framer.current_frame_buffer_.length_ <= framer.current_frame_capacity_
  | .SPDY_FORWARD_STREAM_FRAME =>
    framer.current_frame_buffer_.length = SpdyFrame.size ∧
      framer.current_frame_buffer_.is_control_frame = false

/-- What a round can do: with the bytes left for it, the framer behind it and
the bytes left then. -/
inductive Turned (p : Platform σ) (framer : SpdyFramer σ) : Bytes -> SpdyFramer σ -> Bytes -> Prop
  | restart {data : Bytes}
      (ready : framer.state_ = .SPDY_RESET ∨ framer.state_ = .SPDY_AUTO_RESET) :
      Turned p framer data (framer.reset.changeState .SPDY_READING_COMMON_HEADER) data
  | header {piece rest : Bytes} (reading : framer.state_ = .SPDY_READING_COMMON_HEADER)
      (nonempty : piece ≠ [])
      (fits : framer.current_frame_buffer_.length + piece.length <= SpdyFrame.size)
      (all : rest ≠ [] -> framer.current_frame_buffer_.length + piece.length = SpdyFrame.size)
      (more : ¬ EmptyData (framer.current_frame_buffer_ ++ piece)) :
      Turned p framer (piece ++ rest)
        { framer with
          current_frame_buffer_ := framer.current_frame_buffer_ ++ piece }
        rest
  | emptyData {piece rest : Bytes} (reading : framer.state_ = .SPDY_READING_COMMON_HEADER)
      (nonempty : piece ≠ [])
      (complete : EmptyData (framer.current_frame_buffer_ ++ piece)) :
      Turned p framer (piece ++ rest)
        { framer with
          state_ := .SPDY_AUTO_RESET
          current_frame_buffer_ := framer.current_frame_buffer_ ++ piece
          calls := framer.calls ++ finCalls (framer.current_frame_buffer_ ++ piece) }
        rest
  | toData {data : Bytes} (reading : framer.state_ = .SPDY_READING_COMMON_HEADER)
      (whole : framer.current_frame_buffer_.length = SpdyFrame.size)
      (isData : framer.current_frame_buffer_.is_control_frame = false)
      (nonempty : framer.current_frame_buffer_.length_ ≠ 0) :
      Turned p framer data
        { framer with
          state_ := .SPDY_FORWARD_STREAM_FRAME
          remaining_payload_ := framer.current_frame_buffer_.length_ }
        data
  | toControl {data : Bytes} (reading : framer.state_ = .SPDY_READING_COMMON_HEADER)
      (whole : framer.current_frame_buffer_.length = SpdyFrame.size)
      (isControl : framer.current_frame_buffer_.is_control_frame) :
      Turned p framer data
        { framer with
          state_ := .SPDY_INTERPRET_CONTROL_FRAME_COMMON_HEADER
          remaining_payload_ := framer.current_frame_buffer_.length_ }
        data
  | refused {data : Bytes} (error : SpdyError) (interpret :
        framer.state_ = .SPDY_INTERPRET_CONTROL_FRAME_COMMON_HEADER)
      (unsupported : framer.current_frame_buffer_.version ≠ p.spdy_version_ ∨
          framer.current_frame_buffer_.type? = none) :
      Turned p framer data (framer.set_error error) data
  | swallowed {data : Bytes} (interpret :
        framer.state_ = .SPDY_INTERPRET_CONTROL_FRAME_COMMON_HEADER)
      (supported : framer.current_frame_buffer_.version = p.spdy_version_)
      (isNoop : framer.current_frame_buffer_.type? = some .NOOP) :
      Turned p framer data (framer.changeState .SPDY_AUTO_RESET) data
  | tooLarge {data : Bytes} (type : SpdyControlType) (interpret :
        framer.state_ = .SPDY_INTERPRET_CONTROL_FRAME_COMMON_HEADER)
      (isType : framer.current_frame_buffer_.type? = some type)
      (large : kControlFrameBufferMaxSize < framer.current_frame_buffer_.length_) :
      Turned p framer data
        { framer with
          state_ := .SPDY_ERROR
          error_code_ := .SPDY_CONTROL_PAYLOAD_TOO_LARGE
          remaining_control_payload_ := framer.current_frame_buffer_.length_
          calls := framer.calls ++
            (if sizeAccepted type framer.current_frame_buffer_.length_ then []
            else [.OnError .SPDY_INVALID_CONTROL_FRAME]) ++
            [.OnError .SPDY_CONTROL_PAYLOAD_TOO_LARGE] }
        data
  | accepted {data : Bytes} (type : SpdyControlType) (interpret :
        framer.state_ = .SPDY_INTERPRET_CONTROL_FRAME_COMMON_HEADER)
      (supported : framer.current_frame_buffer_.version = p.spdy_version_)
      (isType : framer.current_frame_buffer_.type? = some type)
      (payload : type ≠ .NOOP)
      (small : framer.current_frame_buffer_.length_ <= kControlFrameBufferMaxSize)
      (size : sizeAccepted type framer.current_frame_buffer_.length_) :
      Turned p framer data
        { framer with
          state_ := .SPDY_CONTROL_FRAME_PAYLOAD
          remaining_control_payload_ := framer.current_frame_buffer_.length_
          current_frame_capacity_ := max framer.current_frame_capacity_
            (framer.current_frame_buffer_.length_ + SpdyFrame.size) }
        data
  | short {data : Bytes} (type : SpdyControlType) (interpret :
        framer.state_ = .SPDY_INTERPRET_CONTROL_FRAME_COMMON_HEADER)
      (supported : framer.current_frame_buffer_.version = p.spdy_version_)
      (isType : framer.current_frame_buffer_.type? = some type)
      (small : framer.current_frame_buffer_.length_ <= kControlFrameBufferMaxSize)
      (size : ¬ sizeAccepted type framer.current_frame_buffer_.length_) :
      Turned p framer data
        { framer with
          state_ := .SPDY_CONTROL_FRAME_PAYLOAD
          error_code_ := .SPDY_INVALID_CONTROL_FRAME
          remaining_control_payload_ := framer.current_frame_buffer_.length_
          current_frame_capacity_ := max framer.current_frame_capacity_
            (framer.current_frame_buffer_.length_ + SpdyFrame.size)
          calls := framer.calls ++ [.OnError .SPDY_INVALID_CONTROL_FRAME] }
        data
  | payload {data : Bytes} (reading : framer.state_ = .SPDY_CONTROL_FRAME_PAYLOAD)
      (part : data.length < framer.remaining_payload_) :
      Turned p framer data
        { framer with
          current_frame_buffer_ := framer.current_frame_buffer_ ++ data
          remaining_control_payload_ := framer.remaining_payload_ - data.length
          remaining_payload_ := framer.remaining_payload_ - data.length }
        []
  | control {piece rest : Bytes} (reading : framer.state_ = .SPDY_CONTROL_FRAME_PAYLOAD)
      (all : piece.length = framer.remaining_payload_) :
      Turned p framer (piece ++ rest)
        { framer with
          state_ := .SPDY_AUTO_RESET
          current_frame_buffer_ := framer.current_frame_buffer_ ++ piece
          remaining_control_payload_ := 0
          remaining_payload_ := 0
          calls := framer.calls ++ controlCalls (framer.current_frame_buffer_ ++ piece) }
        rest
  | forward {piece rest : Bytes} (decompressors : Nat -> Option σ)
      (forwards : framer.state_ = .SPDY_FORWARD_STREAM_FRAME)
      (plain : framer.current_frame_buffer_.flags &&& DATA_FLAG_COMPRESSED = 0)
      (nonempty : piece ≠ [])
      (fits : piece.length <= framer.remaining_payload_)
      (all : rest ≠ [] -> piece.length = framer.remaining_payload_) :
      Turned p framer (piece ++ rest)
        { framer with
          remaining_payload_ := framer.remaining_payload_ - piece.length
          stream_decompressors_ := decompressors
          calls := framer.calls ++
            [.OnStreamFrameData framer.current_frame_buffer_.data_stream_id piece] ++
            if framer.remaining_payload_ - piece.length = 0 then
              finCalls framer.current_frame_buffer_
            else [] }
        rest
  | forwarded {data : Bytes} (forwards : framer.state_ = .SPDY_FORWARD_STREAM_FRAME)
      (complete : framer.remaining_payload_ = 0) :
      Turned p framer data (framer.changeState .SPDY_AUTO_RESET) data
  | inflated {data : Bytes} {next : SpdyFramer σ} (read : Nat)
      (forwards : framer.state_ = .SPDY_FORWARD_STREAM_FRAME)
      (compressed : framer.current_frame_buffer_.flags &&& DATA_FLAG_COMPRESSED ≠ 0)
      (sameBuffer : next.current_frame_buffer_ = framer.current_frame_buffer_)
      (sameOverrun : next.overrun = framer.overrun)
      (outcome : (next.state_ = .SPDY_ERROR ∧
          next.calls = framer.calls ++ [.OnError .SPDY_DECOMPRESS_FAILURE]) ∨
        (next.state_ = .SPDY_FORWARD_STREAM_FRAME ∧ ∃ pieces : List Bytes,
            next.calls = framer.calls ++ pieces.map (.OnStreamFrameData
                framer.current_frame_buffer_.data_stream_id))) :
      Turned p framer data next (data.drop read)

variable {p : Platform σ} {framer next : SpdyFramer σ} {data rest : Bytes}

/-- Bytes that fit are copied into the buffer. -/
theorem copyToFrame_of_le (fits : framer.current_frame_buffer_.length + data.length <=
      framer.current_frame_capacity_) :
    framer.copyToFrame data =
      { framer with
        current_frame_buffer_ := framer.current_frame_buffer_ ++ data } := by
  have lt : ¬ framer.current_frame_capacity_ < framer.current_frame_len_ + data.length :=
    Nat.not_lt_of_le fits
  rw [copyToFrame, decide_eq_false lt, Bool.or_false]

theorem expandControlFrameBuffer_eq (size : Nat) : framer.expandControlFrameBuffer size =
      { framer with
        current_frame_capacity_ :=
          max framer.current_frame_capacity_ (size + SpdyFrame.size) } := by
  rw [expandControlFrameBuffer]
  split
  · rw [Nat.max_eq_left ‹_›]
  · rw [Nat.max_eq_right (Nat.le_of_not_le ‹_›)]

theorem processCommonHeader_of_lt (isPart : framer.current_frame_buffer_.length < SpdyFrame.size)
    (room : SpdyFrame.size <= framer.current_frame_capacity_)
    (isAmount : min (SpdyFrame.size - framer.current_frame_buffer_.length) data.length = amount) :
    framer.processCommonHeader data =
      (if EmptyData (framer.current_frame_buffer_ ++ data.take amount) then
        { framer with
          state_ := .SPDY_AUTO_RESET
          current_frame_buffer_ := framer.current_frame_buffer_ ++ data.take amount
          calls := framer.calls ++ finCalls (framer.current_frame_buffer_ ++ data.take amount) }
      else
        { framer with
          current_frame_buffer_ := framer.current_frame_buffer_ ++ data.take amount },
      amount) := by
  have taken : (data.take amount).length = amount := by
    rw [length_take]
    omega
  have copied : framer.copyToFrame (data.take amount) = _ := copyToFrame_of_le (by omega)
  have lessThanSize : framer.current_frame_len_ < SpdyFrame.size := isPart
  rw [processCommonHeader, if_pos lessThanSize]
  simp only [current_frame_len_, isAmount, copied]
  by_cases complete : EmptyData (framer.current_frame_buffer_ ++ data.take amount)
  · obtain ⟨whole, isData, isEmpty⟩ := complete
    have inv : EmptyData (framer.current_frame_buffer_ ++ data.take amount) :=
      ⟨whole, isData, isEmpty⟩
    rw [if_pos inv, if_pos ⟨whole, by rw [isData]; decide, isEmpty⟩, finCalls]
    -- The flag of control frames is that of data frames.
    have sameFlag : CONTROL_FLAG_FIN = DATA_FLAG_FIN := rfl
    rw [sameFlag]
    split
    · rfl
    · rw [append_nil]
      rfl
  · have fails : ¬ ((framer.current_frame_buffer_ ++ data.take amount).length = SpdyFrame.size ∧
        ¬ (framer.current_frame_buffer_ ++ data.take amount).is_control_frame = true ∧
        (framer.current_frame_buffer_ ++ data.take amount).length_ = 0) := by
      rintro ⟨whole, isData, isEmpty⟩
      exact complete ⟨whole, Bool.eq_false_of_not_eq_true isData, isEmpty⟩
    rw [if_neg complete, if_neg fails]

theorem turned_commonHeader (reading : framer.state_ = .SPDY_READING_COMMON_HEADER)
    (inv : framer.Consistent) (ne : data ≠ []) :
    Turned p framer data (framer.processCommonHeader data).1
      (data.drop (framer.processCommonHeader data).2) := by
  rw [Consistent, reading] at inv
  obtain ⟨fits, room, notEmpty⟩ := inv
  have some_ := length_pos_iff.mpr ne
  by_cases isPart : framer.current_frame_buffer_.length < SpdyFrame.size
  · generalize isAmount : min (SpdyFrame.size - framer.current_frame_buffer_.length)
        data.length = amount
    have taken : (data.take amount).length = amount := by
      rw [length_take]
      omega
    have isPiece : data.take amount ≠ [] := by
      rw [← length_pos_iff, taken]
      omega
    have split := take_append_drop amount data
    rw [processCommonHeader_of_lt isPart room isAmount]
    by_cases complete : EmptyData (framer.current_frame_buffer_ ++ data.take amount)
    · have turned : Turned p framer (data.take amount ++ data.drop amount) _ _ :=
        .emptyData reading isPiece complete
      rw [split] at turned
      rw [if_pos complete]
      exact turned
    · have all : data.drop amount ≠ [] ->
          framer.current_frame_buffer_.length + (data.take amount).length = SpdyFrame.size := by
        intro more
        have left := length_pos_iff.mpr more
        rw [length_drop] at left
        omega
      have turned : Turned p framer (data.take amount ++ data.drop amount) _ _ :=
        .header reading isPiece (by omega) all complete
      rw [split] at turned
      rw [if_neg complete]
      exact turned
  · have whole : framer.current_frame_buffer_.length = SpdyFrame.size :=
      Nat.le_antisymm fits (Nat.le_of_not_lt isPart)
    have notLess : ¬ framer.current_frame_len_ < SpdyFrame.size := isPart
    rw [processCommonHeader, if_neg notLess]
    dsimp only
    cases isControl : framer.current_frame_buffer_.is_control_frame with
    | true => exact .toControl reading whole isControl
    | false =>
      exact .toData reading whole isControl (fun isEmpty => notEmpty ⟨whole, isControl, isEmpty⟩)

theorem turned_controlFrameHeader
    (interpret : framer.state_ = .SPDY_INTERPRET_CONTROL_FRAME_COMMON_HEADER) :
    Turned p framer data (framer.processControlFrameHeader p) data := by
  rw [processControlFrameHeader]
  by_cases supported : framer.current_frame_buffer_.version = p.spdy_version_
  · rw [if_neg (by simp [supported])]
    cases isType : framer.current_frame_buffer_.type? with
    | none => exact .refused _ interpret (.inr isType)
    | some type =>
      by_cases isNoop : type = .NOOP
      · subst isNoop
        exact .swallowed interpret supported isType
      · by_cases large : kControlFrameBufferMaxSize < framer.current_frame_buffer_.length_
        · have turned : Turned p framer data _ data := .tooLarge type interpret isType large
          convert turned using 1
          cases type <;> simp_all [set_error, changeState, visit] <;> split <;> simp_all
        · have small := Nat.le_of_not_lt large
          by_cases size : sizeAccepted type framer.current_frame_buffer_.length_
          · have turned : Turned p framer data _ data :=
              .accepted type interpret supported isType isNoop small size
            convert turned using 1
            cases type <;> simp_all [changeState, expandControlFrameBuffer_eq]
          · have turned : Turned p framer data _ data :=
              .short type interpret supported isType small size
            convert turned using 1
            cases type <;> simp_all [set_error, changeState, visit, expandControlFrameBuffer_eq]
  · rw [if_pos supported]
    exact .refused _ interpret (.inl supported)

/-- The notification is at most one call with data, and that of no bytes. -/
theorem endCalls_eq_map : ∃ pieces : List Bytes, (if remaining = 0 then finCalls frame else []) =
        pieces.map (.OnStreamFrameData frame.data_stream_id) := by
  rw [finCalls]
  split
  · split
    · exact ⟨[[]], rfl⟩
    · exact ⟨[], rfl⟩
  · exact ⟨[], rfl⟩

/-- The notification at the end of some payload. -/
theorem finishDataFramePayload_eq (framer : SpdyFramer σ) (amount : Nat) :
    ∃ decompressors, framer.finishDataFramePayload amount =
      ({ framer with
        remaining_payload_ := framer.remaining_payload_ - amount
        stream_decompressors_ := decompressors
        calls := framer.calls ++
          if framer.remaining_payload_ - amount = 0 then finCalls framer.current_frame_buffer_
          else [] }, amount) := by
  rw [finishDataFramePayload, finCalls]
  by_cases complete : framer.remaining_payload_ - amount = 0
  · by_cases fin : framer.current_frame_buffer_.flags &&& DATA_FLAG_FIN ≠ 0
    · rw [if_pos ⟨complete, fin⟩, if_pos complete, if_pos fin]
      exact ⟨_, rfl⟩
    · rw [if_neg (fun both => fin both.2), if_pos complete, if_neg fin, append_nil]
      exact ⟨_, rfl⟩
  · rw [if_neg (fun both => complete both.1), if_neg complete, append_nil]
    exact ⟨_, rfl⟩

/-- Uncompressed bytes are forwarded. -/
theorem processDataFramePayload_forward (forwards : framer.state_ = .SPDY_FORWARD_STREAM_FRAME)
    (plain : framer.current_frame_buffer_.flags &&& DATA_FLAG_COMPRESSED = 0)
    (remaining : framer.remaining_payload_ ≠ 0) (ne : data ≠ [])
    (isAmount : min framer.remaining_payload_ data.length = amount) :
    framer.processDataFramePayload p data =
      (framer.visit (.OnStreamFrameData framer.current_frame_buffer_.data_stream_id
        (data.take amount))).finishDataFramePayload amount := by
  have some_ := length_pos_iff.mpr ne
  have notIgnored : framer.state_ ≠ .SPDY_IGNORE_REMAINING_PAYLOAD := by
    rw [forwards]
    decide
  rw [processDataFramePayload, if_pos remaining, isAmount, if_pos ⟨by omega, notIgnored⟩,
    if_neg (fun compressed => compressed plain)]

theorem turned_forward (forwards : framer.state_ = .SPDY_FORWARD_STREAM_FRAME)
    (plain : framer.current_frame_buffer_.flags &&& DATA_FLAG_COMPRESSED = 0)
    (remaining : framer.remaining_payload_ ≠ 0) (ne : data ≠ []) :
    Turned p framer data (framer.processDataFramePayload p data).1
      (data.drop (framer.processDataFramePayload p data).2) := by
  have some_ := length_pos_iff.mpr ne
  generalize isAmount : min framer.remaining_payload_ data.length = amount
  have taken : (data.take amount).length = amount := by
    rw [length_take]
    omega
  have isPiece : data.take amount ≠ [] := by
    rw [← length_pos_iff, taken]
    omega
  have all : data.drop amount ≠ [] -> (data.take amount).length = framer.remaining_payload_ := by
    intro more
    have left := length_pos_iff.mpr more
    rw [length_drop] at left
    omega
  obtain ⟨decompressors, finished⟩ :=
    (framer.visit (.OnStreamFrameData framer.current_frame_buffer_.data_stream_id
      (data.take amount))).finishDataFramePayload_eq amount
  have turned : Turned p framer (data.take amount ++ data.drop amount)
      _ _ := .forward decompressors forwards plain isPiece (by omega) all
  rw [take_append_drop, taken] at turned
  rw [processDataFramePayload_forward forwards plain remaining ne isAmount, finished]
  exact turned

theorem turned_inflate (forwards : framer.state_ = .SPDY_FORWARD_STREAM_FRAME)
    (compressed : framer.current_frame_buffer_.flags &&& DATA_FLAG_COMPRESSED ≠ 0)
    (remaining : framer.remaining_payload_ ≠ 0) (ne : data ≠ []) :
    Turned p framer data (framer.processDataFramePayload p data).1
      (data.drop (framer.processDataFramePayload p data).2) := by
  have some_ := length_pos_iff.mpr ne
  have notIgnored : framer.state_ ≠ .SPDY_IGNORE_REMAINING_PAYLOAD := by
    rw [forwards]
    decide
  rw [processDataFramePayload, if_pos remaining]
  generalize isAmount : min framer.remaining_payload_ data.length = amount
  rw [if_pos ⟨by omega, notIgnored⟩, if_pos compressed, inflateDataFramePayload]
  cases framer.getStreamDecompressor p framer.current_frame_buffer_.data_stream_id with
  | none => exact .inflated 0 forwards compressed rfl rfl (.inr ⟨forwards, [], (append_nil _).symm⟩)
  | some decompressor =>
    dsimp only
    cases (p.inflate decompressor (data.take amount) ((data.take amount).length * 100)).2 with
    | none => exact .inflated 0 forwards compressed rfl rfl (.inl ⟨rfl, rfl⟩)
    | some inflated =>
      dsimp only
      split
      · obtain ⟨decompressors, finished⟩ :=
          ((framer.setStreamDecompressor _ _).visit _).finishDataFramePayload_eq _
        obtain ⟨pieces, isPieces⟩ := endCalls_eq_map
        rw [finished]
        refine .inflated _ forwards compressed rfl rfl (.inr ⟨forwards, inflated.1 :: pieces, ?_⟩)
        rw [map_cons, ← isPieces, append_cons]
        rfl
      · obtain ⟨decompressors, finished⟩ :=
          (framer.setStreamDecompressor _ _).finishDataFramePayload_eq _
        obtain ⟨pieces, isPieces⟩ := endCalls_eq_map
        rw [finished]
        refine .inflated _ forwards compressed rfl rfl (.inr ⟨forwards, pieces, ?_⟩)
        rw [← isPieces]
        rfl

theorem processDataFramePayload_of_complete (complete : framer.remaining_payload_ = 0) :
    framer.processDataFramePayload p data = (framer.changeState .SPDY_AUTO_RESET, 0) := by
  rw [processDataFramePayload, if_neg (not_not_intro complete)]

theorem processDataFramePayload_nil (more : framer.remaining_payload_ ≠ 0) :
    framer.processDataFramePayload p [] = (framer, 0) := by
  rw [processDataFramePayload, if_pos more]
  dsimp only [length_nil]
  rw [Nat.min_zero, if_neg (fun both => both.1 rfl), finishDataFramePayload,
    if_neg (fun both => more both.1)]
  rfl

theorem visitControl_eq : framer.visitControl =
      { framer with
        calls := framer.calls ++ controlCalls framer.current_frame_buffer_ } := by
  rw [visitControl, controlCalls]
  split
  · simp only [visit, append_assoc, singleton_append]
  · rfl

section

variable (consistent : framer.Consistent)
include consistent

section

variable (reading : framer.state_ = .SPDY_CONTROL_FRAME_PAYLOAD)
include reading

theorem processControlFramePayload_of_le (all : framer.remaining_payload_ <= data.length) :
    framer.processControlFramePayload data =
      ({ framer with
        state_ := .SPDY_IGNORE_REMAINING_PAYLOAD
        current_frame_buffer_ := framer.current_frame_buffer_ ++ data.take framer.remaining_payload_
        remaining_control_payload_ := 0
        remaining_payload_ := 0
        calls := framer.calls ++
          controlCalls (framer.current_frame_buffer_ ++ data.take framer.remaining_payload_) },
        framer.remaining_payload_) := by
  rw [Consistent, reading] at consistent
  obtain ⟨-, -, sameRemaining, whole, room⟩ := consistent
  have copied : framer.copyToFrame (data.take framer.remaining_payload_) = _ :=
    copyToFrame_of_le (by rw [length_take_of_le all]; omega)
  rw [processControlFramePayload, sameRemaining, Nat.min_eq_left all]
  by_cases more : framer.remaining_payload_ ≠ 0
  · rw [if_pos more, copied, Nat.sub_self, if_neg (not_not_intro rfl), visitControl_eq]
    rfl
  · rw [if_neg more, if_neg (by rw [sameRemaining]; exact more), visitControl_eq]
    have complete : framer.remaining_payload_ = 0 := not_not.mp more
    have controlComplete : framer.remaining_control_payload_ = 0 := sameRemaining.trans complete
    rw [complete, controlComplete, take_zero, append_nil]
    rfl

theorem processControlFramePayload_of_lt (part : data.length < framer.remaining_payload_) :
    framer.processControlFramePayload data =
      ({ framer with
        current_frame_buffer_ := framer.current_frame_buffer_ ++ data
        remaining_control_payload_ := framer.remaining_payload_ - data.length
        remaining_payload_ := framer.remaining_payload_ - data.length },
        data.length) := by
  rw [Consistent, reading] at consistent
  obtain ⟨-, -, sameRemaining, whole, room⟩ := consistent
  have copied : framer.copyToFrame data = _ := copyToFrame_of_le (by omega)
  have more : framer.remaining_payload_ ≠ 0 := by omega
  have left : framer.remaining_payload_ - data.length ≠ 0 := by omega
  rw [processControlFramePayload, sameRemaining, Nat.min_eq_right part.le]
  rw [if_pos more, take_length, copied, if_pos left]

/-- The cases of control and data payload fall through. -/
theorem turn_of_lt (part : data.length < framer.remaining_payload_) :
    framer.turn p data = some ({ framer with
      current_frame_buffer_ := framer.current_frame_buffer_ ++ data
      remaining_control_payload_ := framer.remaining_payload_ - data.length
      remaining_payload_ := framer.remaining_payload_ - data.length }, []) := by
  have left : framer.remaining_payload_ - data.length ≠ 0 := by omega
  rw [turn, reading]
  dsimp only
  rw [processControlFramePayload_of_lt consistent reading part, drop_length,
    processDataFramePayload_nil left, reading]
  rfl

theorem turn_of_le (all : framer.remaining_payload_ <= data.length) :
    framer.turn p data = some ({ framer with
      state_ := .SPDY_AUTO_RESET
      current_frame_buffer_ := framer.current_frame_buffer_ ++ data.take framer.remaining_payload_
      remaining_control_payload_ := 0
      remaining_payload_ := 0
      calls := framer.calls ++
        controlCalls (framer.current_frame_buffer_ ++ data.take framer.remaining_payload_) },
      data.drop framer.remaining_payload_) := by
  rw [turn, reading]
  dsimp only
  rw [processControlFramePayload_of_le consistent reading all,
    processDataFramePayload_of_complete rfl]
  rfl

theorem turned_controlPayload (runs : framer.turn p data = some (next, rest)) :
    Turned p framer data next rest := by
  rcases Nat.lt_or_ge data.length framer.remaining_payload_ with part | all
  · rw [turn_of_lt consistent reading part] at runs
    cases runs
    exact .payload reading part
  · rw [turn_of_le consistent reading all] at runs
    cases runs
    have turned : Turned p framer (data.take framer.remaining_payload_ ++
          data.drop framer.remaining_payload_) _ _ :=
      .control reading (length_take_of_le all)
    rw [take_append_drop] at turned
    exact turned

end

theorem turn_cases (ne : data ≠ []) (runs : framer.turn p data = some (next, rest)) :
    Turned p framer data next rest := by
  cases isState : framer.state_ with
  | SPDY_ERROR =>
    rw [turn, isState] at runs
    cases runs
  | SPDY_DONE =>
    rw [turn, isState] at runs
    cases runs
  | SPDY_RESET =>
    rw [turn, isState] at runs
    cases runs
    exact .restart (.inl isState)
  | SPDY_AUTO_RESET =>
    rw [turn, isState] at runs
    cases runs
    exact .restart (.inr isState)
  | SPDY_READING_COMMON_HEADER =>
    rw [turn, isState] at runs
    cases runs
    exact turned_commonHeader isState consistent ne
  | SPDY_INTERPRET_CONTROL_FRAME_COMMON_HEADER =>
    rw [turn, isState] at runs
    cases runs
    exact turned_controlFrameHeader isState
  | SPDY_CONTROL_FRAME_PAYLOAD => exact turned_controlPayload consistent isState runs
  | SPDY_IGNORE_REMAINING_PAYLOAD =>
    rw [Consistent, isState] at consistent
    exact consistent.elim
  | SPDY_FORWARD_STREAM_FRAME =>
    rw [turn, isState] at runs
    simp only [Option.some.injEq, Prod.mk.injEq] at runs
    obtain ⟨rfl, rfl⟩ := runs
    by_cases remaining : framer.remaining_payload_ = 0
    · rw [processDataFramePayload_of_complete remaining]
      exact .forwarded isState remaining
    · by_cases plain : framer.current_frame_buffer_.flags &&& DATA_FLAG_COMPRESSED = 0
      · exact turned_forward isState plain remaining ne
      · exact turned_inflate isState plain remaining ne

end

theorem reset_capacity (framer : SpdyFramer σ) :
    SpdyFrame.size <= framer.reset.current_frame_capacity_ := by
  rw [reset]
  split
  · rw [expandControlFrameBuffer_eq]
    exact Nat.le_trans (Nat.le_add_left _ kControlFrameBufferInitialSize) (Nat.le_max_right 0 _)
  · have initial : framer.current_frame_capacity_ = kControlFrameBufferInitialSize := not_not.mp ‹_›
    rw [initial]
    decide

theorem reset_state (framer : SpdyFramer σ) : framer.reset.state_ = .SPDY_RESET := by
  rw [reset]
  split
  · rw [expandControlFrameBuffer_eq]
  · rfl

theorem reset_buffer (framer : SpdyFramer σ) : framer.reset.current_frame_buffer_ = [] := by
  rw [reset]
  split
  · rw [expandControlFrameBuffer_eq]
  · rfl

theorem reset_calls (framer : SpdyFramer σ) : framer.reset.calls = framer.calls := by
  rw [reset]
  split
  · rw [expandControlFrameBuffer_eq]
  · rfl

theorem reset_overrun (framer : SpdyFramer σ) : framer.reset.overrun = framer.overrun := by
  rw [reset]
  split
  · rw [expandControlFrameBuffer_eq]
  · rfl

theorem Turned.consistent (inv : framer.Consistent)
    (turned : Turned p framer data next rest) :
    next.Consistent := by
  cases turned with
  | restart ready =>
    refine ⟨?_, framer.reset_capacity, ?_⟩
    · show framer.reset.current_frame_buffer_.length <= SpdyFrame.size
      rw [reset_buffer]
      decide
    · show ¬ EmptyData framer.reset.current_frame_buffer_
      rw [reset_buffer]
      decide
  | header reading nonempty fits all more =>
    rw [Consistent, reading] at inv
    rw [Consistent, reading]
    exact ⟨by rw [length_append]; exact fits, inv.2.1, more⟩
  | emptyData reading nonempty complete => exact trivial
  | toData reading whole isData nonempty => exact ⟨whole, isData⟩
  | toControl reading whole isControl => exact ⟨whole, isControl, rfl⟩
  | refused error interpret unsupported => exact trivial
  | swallowed interpret supported isNoop => exact trivial
  | tooLarge type interpret isType large => exact trivial
  | accepted type interpret supported isType payload small size =>
    rw [Consistent, interpret] at inv
    obtain ⟨whole, isControl, remaining⟩ := inv
    refine ⟨whole.ge, isControl, remaining.symm, ?_, ?_⟩
    · rw [whole, remaining]
    · rw [Nat.add_comm]
      exact Nat.le_max_right _ _
  | short type interpret supported isType small size =>
    rw [Consistent, interpret] at inv
    obtain ⟨whole, isControl, remaining⟩ := inv
    refine ⟨whole.ge, isControl, remaining.symm, ?_, ?_⟩
    · rw [whole, remaining]
    · rw [Nat.add_comm]
      exact Nat.le_max_right _ _
  | payload reading part =>
    rw [Consistent, reading] at inv
    rw [Consistent, reading]
    obtain ⟨begun, isControl, -, whole, room⟩ := inv
    dsimp only
    rw [SpdyFrame.is_control_frame_append_right begun,
      SpdyFrame.length_append_right begun, length_append]
    exact ⟨by omega, isControl, rfl, by omega, room⟩
  | control reading all => exact trivial
  | forward decompressors forwards plain nonempty fits all =>
    rw [Consistent, forwards] at inv ⊢
    exact inv
  | forwarded forwards complete => exact trivial
  | inflated read forwards compressed sameBuffer sameOverrun outcome =>
    rw [Consistent, forwards] at inv
    rcases outcome with ⟨failed, -⟩ | ⟨goesOn, -⟩
    · rw [Consistent, failed]
      exact trivial
    · rw [Consistent, goesOn]
      rw [sameBuffer]
      exact inv

/-- Nothing is copied behind the end of the buffer. -/
theorem Turned.overrun (turned : Turned p framer data next rest) :
    next.overrun = framer.overrun := by
  cases turned with
  | restart ready => exact framer.reset_overrun
  | inflated read forwards compressed sameBuffer sameOverrun outcome => exact sameOverrun
  | _ => rfl

end SpdyFramer

end Chromium.Spdy
