import Chromium.Library.Bytes
import Mathlib.Data.List.TakeWhile
import Mathlib.Data.UInt

/-!
# The frame handler of web sockets

`WebSocketFrameHandler` queues buffers of raw data and takes either the first
of them, or the complete frames at its front, as the current buffer.
-/

namespace Chromium.Net

open List

/-- The type byte of a frame that has its length in front of its message. -/
def hasLength (frame_byte : UInt8) : Bool := frame_byte &&& 0x80 == 0x80

/-- The digit of a length in a byte. -/
def lengthDigit (c : UInt8) : Nat := (c &&& 0x7f).toNat

/-- The places of a frame and of its message, as offsets into a buffer. -/
structure FrameInfo where
  frame_start : Nat
  frame_length : Nat
  message_start : Nat
  message_length : Nat
deriving DecidableEq

def FrameInfo.shift (offset : Nat) (frame : FrameInfo) : FrameInfo :=
  { frame with
    frame_start := offset + frame.frame_start
    message_start := offset + frame.message_start }

/-- The error code of a frame length that is not representable. -/
def ERR_INSUFFICIENT_RESOURCES : Int := -12

structure WebSocketFrameHandler where
  current_buffer : Option Bytes := none
  current_buffer_size : Nat := 0
  original_current_buffer_size : Nat := 0
  /-- Buffers in pending. -/
  pending_buffers : List Bytes := []
deriving DecidableEq

namespace WebSocketFrameHandler

/-- The loop that reads the length of a frame, with the bytes behind it. It
also ends when there are no more bytes. -/
def readLength : Nat -> Bytes -> Option (Nat × Bytes)
  | length, [] => some (length, [])
  | length, c :: p =>
    if length > (2 ^ 31 - 1) / 128 then none
    else if hasLength c then readLength (length * 128 + lengthDigit c) p
    else some (length * 128 + lengthDigit c, p)

/-- The frame that starts with a type byte, if it is complete. -/
def parseFrame (frame_byte : UInt8) (p : Bytes) : Except Int (Option FrameInfo) :=
  if hasLength frame_byte then
    match readLength 0 p with
    | none => .error ERR_INSUFFICIENT_RESOURCES
    | some (length, rest) =>
      if rest.length ≥ length then
        let message_start := 1 + (p.length - rest.length)
        .ok (some ⟨0, message_start + length, message_start, length⟩)
      else .ok none
  else
    let message_length := (p.takeWhile (· != 0xff)).length
    if message_length < p.length then .ok (some ⟨0, 1 + message_length + 1, 1, message_length⟩)
    else .ok none

/-- The loop of `ParseWebSocketFrame`. -/
def parseLoop : Nat -> Bytes -> Except Int (List FrameInfo)
  | 0, _ => .ok []
  | _ + 1, [] => .ok []
  | rounds + 1, frame_byte :: p =>
    match parseFrame frame_byte p with
    | .error error => .error error
    | .ok none => .ok []
    | .ok (some frame) => do
        let frames ← parseLoop rounds ((frame_byte :: p).drop frame.frame_length)
        return frame :: frames.map (FrameInfo.shift frame.frame_length)

/-- `WebSocketFrameHandler::ParseWebSocketFrame`: the number of bytes for
complete frames, or an error, and the frames. -/
def parseWebSocketFrame (buffer : Bytes) : Int × List FrameInfo :=
  match parseLoop buffer.length buffer with
  | .error error => (error, [])
  | .ok frames => ((frames.map FrameInfo.frame_length).sum, frames)

variable (handler : WebSocketFrameHandler)

/-- `WebSocketFrameHandler::AppendData`. -/
def appendData (data : Bytes) : WebSocketFrameHandler :=
  { handler with pending_buffers := handler.pending_buffers ++ [data] }

/-- `WebSocketFrameHandler::UpdateCurrentBuffer`. -/
def updateCurrentBuffer (buffered : Bool) : Int × WebSocketFrameHandler :=
  match handler.current_buffer, handler.pending_buffers with
  | some _, _ => (0, handler)
  | none, [] => (0, handler)
  | none, buffer :: _ =>
    let buffer_size : Int := if buffered then (parseWebSocketFrame buffer).1 else buffer.length
    if buffered && decide (buffer_size <= 0) then (buffer_size, handler)
    else
      (buffer_size, { handler with
        current_buffer := some buffer
        current_buffer_size := buffer_size.toNat
        original_current_buffer_size := buffer_size.toNat })

/-- The contents of the current buffer. -/
def currentData : Bytes :=
  match handler.current_buffer with
  | none => []
  | some buffer => buffer.take handler.current_buffer_size

/-- `WebSocketFrameHandler::ReleaseCurrentBuffer`. It fails if there is no
pending buffer or if two buffers have too many bytes for one. -/
def releaseCurrentBuffer : Option WebSocketFrameHandler :=
  match handler.pending_buffers with
  | [] => none
  | front_buffer :: pending_buffers =>
    match front_buffer.drop handler.original_current_buffer_size, pending_buffers with
    | [], _ => some { pending_buffers }
    | remaining, [] => some { pending_buffers := [remaining] }
    | remaining, next_buffer :: pending_buffers =>
      if remaining.length + next_buffer.length < 2 ^ 31 then
        some { pending_buffers := (remaining ++ next_buffer) :: pending_buffers }
      else none

end WebSocketFrameHandler

/-!
## Frames of web sockets

The parser finds the complete frames at the front of a buffer. What follows
them is not taken for a frame unless it ends inside a length before the first
digit that is not zero.
-/

/-- The value of digits in base 128 behind a value. -/
def digitsValue (length : Nat) (digits : Bytes) : Nat :=
  digits.foldl (fun length c => length * 128 + lengthDigit c) length

/-- A frame on the wire. -/
inductive Frame where
  | text (frame_byte : UInt8) (message : Bytes) (plain : hasLength frame_byte = false)
      (terminated : (0xff : UInt8) ∉ message)
  | binary (frame_byte : UInt8) (high : Bytes) (low : UInt8) (message : Bytes)
      (prefixed : hasLength frame_byte = true)
      (continued : ∀ c ∈ high, hasLength c = true)
      (last : hasLength low = false)
      (size : digitsValue 0 (high ++ [low]) = message.length)
      (small : message.length < 2 ^ 24)

namespace Frame

def frameByte : Frame -> UInt8
  | text frame_byte .. => frame_byte
  | binary frame_byte .. => frame_byte

/-- The bytes behind the type byte. -/
def body : Frame -> Bytes
  | text _ message .. => message ++ [0xff]
  | binary _ high low message .. => high ++ low :: message

def bytes (frame : Frame) : Bytes := frame.frameByte :: frame.body

end Frame

/-- The bytes of frames. -/
def frameBytes (frames : List Frame) : Bytes := frames.flatMap Frame.bytes

theorem frameBytes_cons : frameBytes (frame :: frames) = frame.bytes ++ frameBytes frames :=
  flatMap_cons

theorem frameBytes_append (front back : List Frame) :
    frameBytes (front ++ back) = frameBytes front ++ frameBytes back :=
  flatMap_append

/-- Bytes that are cut off inside a length, before its first digit that is not
zero. -/
def BareLength (bytes : Bytes) : Prop :=
  ∃ frame_byte zeros, hasLength frame_byte = true ∧ bytes = frame_byte :: List.replicate zeros 0x80

theorem digitsValue_append (length : Nat) (front back : Bytes) :
    digitsValue length (front ++ back) = digitsValue (digitsValue length front) back :=
  foldl_append

theorem digitsValue_cons (length : Nat) (digits : Bytes) :
    digitsValue length (c :: digits) = digitsValue (length * 128 + lengthDigit c) digits :=
  rfl

/-- More digits do not make a length shorter. -/
theorem le_digitsValue (digits : Bytes) : ∀ length, length <= digitsValue length digits := by
  induction digits with
  | nil => exact fun length => le_rfl
  | cons c digits ih =>
    intro length
    rw [digitsValue_cons]
    have grows := ih (length * 128 + lengthDigit c)
    omega

namespace WebSocketFrameHandler

/-- Digits that are followed by others are all read. -/
theorem readLength_high (high : Bytes) :
    ∀ (length : Nat) (p : Bytes), (∀ c ∈ high, hasLength c = true) ->
      digitsValue length high < 2 ^ 24 ->
      readLength length (high ++ p) = readLength (digitsValue length high) p := by
  induction high with
  | nil =>
    intro length p _ _
    rfl
  | cons c high ih =>
    intro length p continued small
    rw [forall_mem_cons] at continued
    rw [digitsValue_cons] at small ⊢
    have grows := le_digitsValue high (length * 128 + lengthDigit c)
    rw [cons_append, readLength, if_neg (by omega), if_pos continued.1]
    exact ih _ p continued.2 small

/-- A length that is not cut off is read. -/
theorem readLength_digits (continued : ∀ c ∈ high, hasLength c = true)
    (last : hasLength low = false) (small : digitsValue 0 (high ++ [low]) < 2 ^ 24)
    (p : Bytes) :
    readLength 0 (high ++ low :: p) = some (digitsValue 0 (high ++ [low]), p) := by
  rw [digitsValue_append, digitsValue_cons] at small ⊢
  have grows := le_digitsValue [] (digitsValue 0 high * 128 + lengthDigit low)
  rw [readLength_high high 0 _ continued (by omega), readLength,
    if_neg (by omega), if_neg (by rw [last]; exact Bool.false_ne_true)]
  rfl

/-- A length that is cut off is read as far as it is there. -/
theorem readLength_cut (continued : ∀ c ∈ high, hasLength c = true)
    (small : digitsValue 0 high < 2 ^ 24) :
    readLength 0 high = some (digitsValue 0 high, []) := by
  have reads := readLength_high high 0 [] continued small
  rw [append_nil] at reads
  rw [reads, readLength]

theorem parseFrame_frame {frame : Frame} :
    ∃ info, parseFrame frame.frameByte (frame.body ++ rest) = .ok (some info) ∧
      info.frame_length = frame.bytes.length := by
  cases frame with
  | text frame_byte message plain terminated =>
    have message_length : ((message ++ [0xff] ++ rest).takeWhile (· != 0xff)).length =
          message.length := by
      rw [append_assoc, takeWhile_append_of_pos, singleton_append,
        takeWhile_cons_of_neg (by decide), append_nil]
      intro c mem
      rw [bne_iff_ne]
      exact fun same => terminated (same ▸ mem)
    rw [Frame.frameByte, Frame.body, parseFrame,
      if_neg (by rw [plain]; exact Bool.false_ne_true), message_length, if_pos]
    · refine ⟨_, rfl, ?_⟩
      simp [Frame.bytes, Frame.body]
      omega
    · simp
  | binary frame_byte high low message prefixed continued last size small =>
    have reads := readLength_digits continued last (size ▸ small) (message ++ rest)
    rw [size] at reads
    rw [Frame.frameByte, Frame.body, parseFrame, if_pos prefixed, append_assoc, cons_append, reads]
    dsimp only
    rw [if_pos]
    · refine ⟨_, rfl, ?_⟩
      simp [Frame.bytes, Frame.body]
      omega
    · simp

/-- Only 0x80 is a digit of zero with a digit behind it. -/
theorem eq_of_lengthDigit_eq_zero :
    ∀ c : UInt8, hasLength c = true -> lengthDigit c = 0 -> c = 0x80 := by
  rintro ⟨⟨c⟩⟩
  revert c
  decide +kernel

theorem digitsValue_zeros : digitsValue 0 (List.replicate zeros 0x80) = 0 := by
  induction zeros with
  | zero => rfl
  | succ zeros ih => exact ih

theorem eq_zeros_of_digitsValue (continued : ∀ c ∈ digits, hasLength c = true)
    (val : digitsValue 0 digits = 0) :
    digits = List.replicate digits.length 0x80 := by
  induction digits with
  | nil => rfl
  | cons c digits ih =>
    rw [forall_mem_cons] at continued
    rw [digitsValue_cons] at val
    have grows := le_digitsValue digits (0 * 128 + lengthDigit c)
    have zero : lengthDigit c = 0 := by omega
    rw [zero] at val
    rw [length_cons, replicate_succ, ← ih continued.2 val,
      eq_of_lengthDigit_eq_zero c continued.1 zero]

/-- A list that ends before the items behind another has no other items, or
has all of those. -/
theorem prefix_append_cons_cases (cut : p <+: high ++ low :: message)
    (short : p.length < (high ++ low :: message).length) :
    p <+: high ∨ ∃ part, p = high ++ low :: part ∧ part.length < message.length := by
  rcases prefix_or_prefix_of_prefix cut (prefix_append high _) with
    inside | ⟨behind, rfl⟩
  · exact .inl inside
  · rw [prefix_append_right_inj] at cut
    cases behind with
    | nil => exact .inl (by rw [append_nil])
    | cons c part =>
      rw [cons_prefix_cons] at cut
      obtain ⟨rfl, _⟩ := cut
      refine .inr ⟨part, rfl, ?_⟩
      simpa using short

/-- A frame that is cut off is not complete, unless its length is bare. -/
theorem parseFrame_cut {frame : Frame} (cut : p <+: frame.body)
    (short : p.length < frame.body.length) (notBare : ¬ BareLength (frame.frameByte :: p)) :
    parseFrame frame.frameByte p = .ok none := by
  cases frame with
  | text frame_byte message plain terminated =>
    have inside : p <+: message := by
      rcases prefix_append_cons_cases cut short with inside | ⟨part, _, tooShort⟩
      · exact inside
      · exact absurd tooShort (Nat.not_lt_zero _)
    have everything : p.takeWhile (· != 0xff) = p := by
      rw [takeWhile_eq_self_iff]
      intro c mem
      rw [bne_iff_ne]
      exact fun same => terminated (same ▸ inside.subset mem)
    rw [Frame.frameByte, parseFrame, if_neg (by rw [plain]; exact Bool.false_ne_true), everything]
    exact if_neg (Nat.lt_irrefl _)
  | binary frame_byte high low message prefixed continued last size small =>
    rw [Frame.frameByte] at notBare ⊢
    rw [← size] at small
    rw [parseFrame, if_pos prefixed]
    rcases prefix_append_cons_cases cut short with inside | ⟨part, rfl, fewer⟩
    · obtain ⟨behind, rfl⟩ := inside
      have digits : ∀ c ∈ p, hasLength c = true := fun c mem =>
        continued c (mem_append_left _ mem)
      have grows := le_digitsValue (behind ++ [low]) (digitsValue 0 p)
      rw [append_assoc, digitsValue_append] at small
      rw [readLength_cut digits (by omega)]
      refine if_neg ?_
      intro enough
      refine notBare ⟨frame_byte, p.length, prefixed, ?_⟩
      rw [← eq_zeros_of_digitsValue digits (by simpa using enough)]
    · rw [readLength_digits continued last small]
      refine if_neg ?_
      rw [size]
      exact Nat.not_le.mpr fewer

/-- A frame with a bare length is taken for a frame without a message. -/
theorem parseFrame_bare (bare : BareLength (frame_byte :: p)) :
    parseFrame frame_byte p = .ok (some ⟨0, 1 + p.length, 1 + p.length, 0⟩) := by
  obtain ⟨_, zeros, prefixed, same⟩ := bare
  obtain ⟨rfl, rfl⟩ := same
  have digits : ∀ c ∈ replicate zeros (0x80 : UInt8), hasLength c = true := by
    intro c mem
    rw [eq_of_mem_replicate mem]
    rfl
  rw [parseFrame, if_pos prefixed, readLength_cut digits
    (by rw [digitsValue_zeros]; decide), digitsValue_zeros]
  rfl

theorem parseLoop_frame {frame : Frame} :
    ∃ info : FrameInfo, info.frame_length = frame.bytes.length ∧
      parseLoop (rounds + 1) (frame.bytes ++ rest) = (do
        let frames ← parseLoop rounds rest
        return info :: frames.map (FrameInfo.shift info.frame_length)) := by
  obtain ⟨info, parses, length⟩ := parseFrame_frame
  refine ⟨info, length, ?_⟩
  have behind : (frame.frameByte :: (frame.body ++ rest)).drop info.frame_length = rest := by
    rw [length, Frame.bytes, ← cons_append, drop_left]
  rw [Frame.bytes, cons_append, parseLoop, parses]
  dsimp only
  rw [behind]

/-- The total length of frames. -/
def totalLength (frames : List FrameInfo) : Nat := (frames.map FrameInfo.frame_length).sum

theorem totalLength_cons_shift (frames : List FrameInfo) :
    totalLength (frame :: frames.map (FrameInfo.shift offset)) =
      frame.frame_length + totalLength frames := by
  rw [totalLength, map_cons, sum_cons, List.map_map]
  rfl

/-- The frames at the front of a buffer are found, and those behind them. -/
theorem parseLoop_frames (frames : List Frame) {part : Bytes}
    (behind : ∀ rounds, part.length <= rounds -> parseLoop rounds part = .ok hit) :
    ∀ rounds, (frameBytes frames ++ part).length <= rounds ->
      ∃ infos, parseLoop rounds (frameBytes frames ++ part) = .ok infos ∧
        totalLength infos = (frameBytes frames).length + totalLength hit := by
  induction frames with
  | nil =>
    intro rounds enough
    refine ⟨hit, behind rounds enough, ?_⟩
    exact (Nat.zero_add _).symm
  | cons frame frames ih =>
    intro rounds enough
    rw [frameBytes_cons, append_assoc] at enough ⊢
    have ne : 0 < frame.bytes.length := Nat.succ_pos _
    rw [length_append] at enough
    obtain ⟨rounds, rfl⟩ : ∃ less, rounds = less + 1 := ⟨rounds - 1, by omega⟩
    obtain ⟨info, length, parses⟩ := parseLoop_frame
    obtain ⟨infos, rest, total⟩ := ih rounds (by omega)
    refine ⟨info :: infos.map (FrameInfo.shift info.frame_length), ?_, ?_⟩
    · rw [parses, rest]
      rfl
    · rw [totalLength_cons_shift, total, length, length_append]
      omega

end WebSocketFrameHandler

/-- Bytes at the front of a frame, but not all of them. -/
def CutOff (part : Bytes) : Prop :=
  ∃ frame : Frame, part <+: frame.bytes ∧ part.length < frame.bytes.length

namespace WebSocketFrameHandler

/-- `ParseWebSocketFrame` finds the complete frames of a buffer. -/
theorem parseWebSocketFrame_of_not_bareLength (frames : List Frame) (cut : CutOff part)
    (notBare : ¬ BareLength part) :
    (parseWebSocketFrame (frameBytes frames ++ part)).1 = (frameBytes frames).length := by
  have behind : ∀ rounds, part.length <= rounds -> parseLoop rounds part = .ok [] := by
    intro rounds enough
    cases part with
    | nil => cases rounds <;> rfl
    | cons frame_byte p =>
      obtain ⟨rounds, rfl⟩ : ∃ less, rounds = less + 1 := ⟨rounds - 1, by simp at enough; omega⟩
      obtain ⟨frame, front, short⟩ := cut
      rw [Frame.bytes, cons_prefix_cons] at front
      obtain ⟨rfl, front⟩ := front
      rw [parseLoop, parseFrame_cut front (by simpa [Frame.bytes] using short) notBare]
  obtain ⟨infos, parses, total⟩ := parseLoop_frames frames behind _ le_rfl
  rw [parseWebSocketFrame, parses]
  exact congrArg Nat.cast total

/-- `ParseWebSocketFrame` takes a bare length for a frame. -/
theorem parseWebSocketFrame_of_bareLength (frames : List Frame) (bare : BareLength part) :
    (parseWebSocketFrame (frameBytes frames ++ part)).1 = (frameBytes frames ++ part).length := by
  obtain ⟨frame_byte, p, isPart⟩ : ∃ frame_byte p, part = frame_byte :: p := by
    obtain ⟨frame_byte, zeros, _, same⟩ := bare
    exact ⟨frame_byte, _, same⟩
  have parsed : parseFrame frame_byte p = .ok (some ⟨0, 1 + p.length, 1 + p.length, 0⟩) :=
    parseFrame_bare (isPart ▸ bare)
  have behind : ∀ rounds, part.length <= rounds -> parseLoop rounds part =
        .ok [⟨0, 1 + p.length, 1 + p.length, 0⟩] := by
    intro rounds enough
    rw [isPart] at enough ⊢
    obtain ⟨rounds, rfl⟩ : ∃ less, rounds = less + 1 := ⟨rounds - 1, by simp at enough; omega⟩
    have nothing : (frame_byte :: p).drop (1 + p.length) = [] := by
      rw [drop_eq_nil_iff, length_cons]
      omega
    rw [parseLoop, parsed]
    dsimp only
    rw [nothing]
    cases rounds <;> rfl
  obtain ⟨infos, parses, total⟩ := parseLoop_frames frames behind _ le_rfl
  have whole : totalLength infos = (frameBytes frames ++ part).length := by
    rw [total, isPart, length_append, length_cons, totalLength]
    simp
    omega
  rw [parseWebSocketFrame, parses]
  exact congrArg Nat.cast whole

/-- A frame ends where it ends, whatever follows it. -/
theorem length_bytes_eq {frame other : Frame} (same : frame.bytes ++ rest = other.bytes ++ more) :
    frame.bytes.length = other.bytes.length := by
  obtain ⟨info, parses, length⟩ := parseFrame_frame
  obtain ⟨info', parses', length'⟩ := parseFrame_frame
  rw [Frame.bytes, Frame.bytes, cons_append, cons_append, List.cons.injEq] at same
  rw [same.1, same.2, parses'] at parses
  cases parses
  rw [← length, ← length']

/-- What is cut off a frame has no complete frame, unless its length is bare. -/
theorem bytes_append_ne_of_cutOff (cut : CutOff part) (notBare : ¬ BareLength part)
    {frame : Frame} :
    frame.bytes ++ rest ≠ part := by
  rintro rfl
  obtain ⟨other, front, short⟩ := cut
  obtain ⟨info, parses, _⟩ := parseFrame_frame
  rw [Frame.bytes, cons_append] at front short notBare
  rw [Frame.bytes, cons_prefix_cons] at front
  rw [front.1] at notBare parses
  rw [parseFrame_cut front.2 (Nat.lt_of_succ_lt_succ short) notBare] at parses
  cases parses

theorem not_bareLength_bytes {frame : Frame} : ¬ BareLength frame.bytes := by
  rintro ⟨frame_byte, zeros, prefixed, same⟩
  rw [Frame.bytes, List.cons.injEq] at same
  cases frame with
  | text _ message plain _ =>
    rw [Frame.frameByte] at same
    rw [same.1, prefixed] at plain
    cases plain
  | binary _ high low message _ _ last _ _ =>
    have mem : low ∈ replicate zeros (0x80 : UInt8) := by
      rw [← same.2]
      exact mem_append_right _ mem_cons_self
    rw [eq_of_mem_replicate mem] at last
    cases last

theorem bytes_append_ne_of_bareLength (bare : BareLength part) {frame : Frame} :
    frame.bytes ++ rest ≠ part := by
  rintro rfl
  obtain ⟨info, parses, length⟩ := parseFrame_frame
  have bare' := bare
  rw [Frame.bytes, cons_append] at bare'
  rw [parseFrame_bare bare'] at parses
  cases parses
  have nothing : rest = [] := by
    rw [← length_eq_zero_iff]
    simp [Frame.bytes] at length
    omega
  rw [nothing, append_nil] at bare
  exact not_bareLength_bytes bare

/-- Whether bytes end in a bare length does not depend on how they are read. -/
theorem bareLength_of_append_eq (cut : CutOff part) (isBare : BareLength bare)
    (frames : List Frame) :
    ∀ others, frameBytes frames ++ part = frameBytes others ++ bare -> BareLength part := by
  induction frames with
  | nil =>
    intro others same
    cases others with
    | nil => exact (show part = bare from same) ▸ isBare
    | cons other others =>
      by_contra notBare
      rw [frameBytes_cons, append_assoc] at same
      exact bytes_append_ne_of_cutOff cut notBare same.symm
  | cons frame frames ih =>
    intro others same
    rw [frameBytes_cons, append_assoc] at same
    cases others with
    | nil => exact absurd same (bytes_append_ne_of_bareLength isBare)
    | cons other others =>
      rw [frameBytes_cons, append_assoc] at same
      have behind := append_inj_right same (length_bytes_eq same)
      exact ih others behind

end WebSocketFrameHandler

/-- What is cut off behind a number of frames. -/
structure CutAt (later : List Frame) (part : Bytes) : Prop where
  inside : part = [] ∨ ∃ frame rest, later = frame :: rest ∧
    part <+: frame.bytes ∧ part.length < frame.bytes.length

theorem CutAt.cutOff (cut : CutAt later part) : CutOff part := by
  rcases cut.inside with rfl | ⟨frame, _, _, front, short⟩
  · exact ⟨.text 0 [] rfl not_mem_nil, nil_prefix, Nat.succ_pos _⟩
  · exact ⟨frame, front, short⟩

/-- A part of a frame does not end where a frame does. -/
theorem CutAt.frameBytes_append_ne
    (cut : CutAt later part) (ne : part ≠ []) (inside : done <+: complete ++ later) :
    frameBytes complete ++ part ≠ frameBytes done := by
  intro same
  obtain ⟨frame, rest, rfl, front, short⟩ := cut.inside.resolve_left ne
  rcases prefix_or_prefix_of_prefix inside (prefix_append complete _)
    with ⟨others, rfl⟩ | ⟨others, rfl⟩
  · have length := congrArg length same
    rw [frameBytes_append, length_append, length_append] at length
    have pos := length_pos_iff.mpr ne
    omega
  · rw [prefix_append_right_inj] at inside
    rw [frameBytes_append] at same
    have isPart := append_cancel_left same
    cases others with
    | nil => exact ne isPart
    | cons other others =>
      rw [cons_prefix_cons] at inside
      rw [isPart, frameBytes_cons, length_append, inside.1] at short
      omega

/-- The front of a stream of frames has complete frames and a part of one. -/
theorem exists_cutAt :
    ∀ front, front <+: frameBytes frames -> ∃ complete later part, frames = complete ++ later ∧
        front = frameBytes complete ++ part ∧ CutAt later part := by
  induction frames with
  | nil =>
    intro front cut
    rw [prefix_nil.mp cut]
    exact ⟨[], [], [], rfl, rfl, ⟨.inl rfl⟩⟩
  | cons frame frames ih =>
    intro front cut
    rw [frameBytes_cons] at cut
    rcases Nat.lt_or_ge front.length frame.bytes.length with short | long
    · refine ⟨[], frame :: frames, front, rfl, rfl, ⟨.inr ?_⟩⟩
      exact ⟨frame, frames, rfl, prefix_of_prefix_length_le cut (prefix_append _ _) short.le, short⟩
    · obtain ⟨behind, rfl⟩ := prefix_of_prefix_length_le (prefix_append frame.bytes _) cut long
      rw [prefix_append_right_inj] at cut
      obtain ⟨complete, later, part, rfl, rfl, cutAt⟩ := ih behind cut
      refine ⟨frame :: complete, later, part, rfl, ?_, cutAt⟩
      rw [frameBytes_cons, append_assoc]

end Chromium.Net
