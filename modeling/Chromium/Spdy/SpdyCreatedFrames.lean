import Chromium.Spdy.SpdyDeliveries

/-!
# What created frames are

Each `Create` function of control frames gives the common header, with the
length of the payload, and the payload. A data frame is its header and its data
if these are fewer than 64 KB.
-/

namespace Chromium.Spdy

open List Option Nat
open Library (Whole)
open SpdyFrameBuilder (empty)

/-- A control frame with a payload. -/
def controlFrame (version : Nat) (type : SpdyControlType) (flags : UInt8)
    (payload : Bytes) : SpdyFrame :=
  htons (kControlFlagMask ||| version) ++
    (htons type.toNat ++ (flagsAndLength flags payload.length ++ payload))

/-- A data frame. -/
def dataFrame (stream_id : UInt32) (flags : UInt8) (data : Bytes) : SpdyFrame :=
  htonl stream_id.toNat ++ (flagsAndLength flags data.length ++ data)

@[simp] theorem length_flagsAndLength (len : Nat) : (flagsAndLength flags len).length = 4 :=
  rfl

theorem is_control_frame_eq (frame : SpdyFrame) :
    frame.is_control_frame = (ntohs frame 0).testBit 15 := by
  have isMask : kControlFlagMask = 2 ^ 15 := rfl
  rw [SpdyFrame.is_control_frame, isMask, and_two_pow]
  cases (ntohs frame 0).testBit 15 <;> rfl

/-- The length in a header of which the first byte is that of the flags. -/
theorem length_of_flagsAndLength {len : Nat}
    (isFront : front.length = 4) (fits : len < 2 ^ 24) :
    SpdyFrame.length_ (front ++ (flagsAndLength flags len ++ back)) = len := by
  have isMask : kLengthMask = 2 ^ 24 - 1 := rfl
  have told : ntohl (flagsAndLength flags len) 0 % 2 ^ 24 = len := by
    have high : byteAt (flagsAndLength flags len) 1 = len / 65536 % 256 := by
      simp [byteAt, flagsAndLength, htonl, htons]
    have middle : byteAt (flagsAndLength flags len) 2 = len / 256 % 256 := by
      simp [byteAt, flagsAndLength, htonl, htons]
    have low : byteAt (flagsAndLength flags len) 3 = len % 256 := by
      simp [byteAt, flagsAndLength, htonl, htons]
    rw [ntohl, ntohs, ntohs]
    norm_num only
    omega
  have moved : ntohl (front ++ (flagsAndLength flags len ++ back)) 4 =
      ntohl (flagsAndLength flags len) 0 := by
    have right := @ntohl_append_right front (flagsAndLength flags len ++ back) 0
    have inHeader : ntohl (flagsAndLength flags len ++ back) 0 =
        ntohl (flagsAndLength flags len) 0 :=
      ntohl_append_left (Nat.le_refl 4)
    rw [isFront] at right
    exact right.trans inHeader
  rw [SpdyFrame.length_, isMask, and_two_pow_sub_one_eq_mod, moved, told]

theorem flags_of_flagsAndLength {len : Nat} (isFront : front.length = 4) :
    SpdyFrame.flags (front ++ (flagsAndLength flags len ++ back)) = flags := by
  rw [SpdyFrame.flags, getD_append_right _ _ _ _ isFront.le, isFront]
  rfl

section ControlFrames

theorem length_controlFrame :
    (controlFrame version type flags payload).length = SpdyFrame.size + payload.length := by
  simp only [controlFrame, length_append, length_htons, length_flagsAndLength, SpdyFrame.size]
  omega

/-- The first two bytes of a control frame. -/
theorem ntohs_controlFrame (fits : version < 2 ^ 15) :
    ntohs (controlFrame version type flags payload) 0 = 2 ^ 15 + version := by
  have isOr : kControlFlagMask ||| version = 2 ^ 15 + version :=
    (two_pow_add_eq_or_of_lt fits 1).symm
  rw [controlFrame, ntohs_append_left (by simp), ntohs_htons, isOr]
  omega

theorem is_control_frame_controlFrame (fits : version < 2 ^ 15) :
    (controlFrame version type flags payload).is_control_frame := by
  rw [is_control_frame_eq, ntohs_controlFrame fits, testBit_two_pow_add_eq, testBit_lt_two_pow fits]
  rfl

theorem version_controlFrame (fits : version < 2 ^ 15) :
    (controlFrame version type flags payload).version = version := by
  have isMask : kVersionMask = 2 ^ 15 - 1 := rfl
  rw [SpdyFrame.version, ntohs_controlFrame fits, isMask,
    and_two_pow_sub_one_eq_mod, add_mod_left, Nat.mod_eq_of_lt fits]

theorem type_controlFrame : (controlFrame version type flags payload).type? = some type := by
  have moved : ntohs (controlFrame version type flags payload) 2 = type.toNat := by
    have right := @ntohs_append_right (htons (kControlFlagMask ||| version))
      (htons type.toNat ++ (flagsAndLength flags payload.length ++ payload)) 0
    have inType : ntohs (htons type.toNat ++
        (flagsAndLength flags payload.length ++ payload)) 0 = type.toNat := by
      rw [ntohs_append_left (Nat.le_refl 2), ntohs_htons, Nat.mod_eq_of_lt type.toNat_lt]
    exact right.trans inType
  rw [SpdyFrame.type?, moved, SpdyControlType.ofNat?_toNat]

theorem controlFrame_split : controlFrame version type flags payload =
      (htons (kControlFlagMask ||| version) ++ htons type.toNat) ++
        (flagsAndLength flags payload.length ++ payload) :=
  (append_assoc _ _ _).symm

theorem flags_controlFrame : (controlFrame version type flags payload).flags = flags := by
  rw [controlFrame_split]
  exact flags_of_flagsAndLength rfl

theorem payload_controlFrame (fits : payload.length < 2 ^ 24) :
    (controlFrame version type flags payload).length_ = payload.length := by
  rw [controlFrame_split]
  exact length_of_flagsAndLength rfl fits

theorem whole_controlFrame (fits : payload.length < 2 ^ 24) :
    WholeFrame (controlFrame version type flags payload) := by
  rw [WholeFrame, Whole, payload_controlFrame fits, length_controlFrame]

end ControlFrames

section DataFrames

variable {stream_id : UInt32} {flags : UInt8} {data : Bytes}

theorem length_dataFrame :
    (dataFrame stream_id flags data).length = SpdyFrame.size + data.length := by
  simp only [dataFrame, length_append, length_htonl, length_flagsAndLength, SpdyFrame.size]
  omega

theorem ntohl_dataFrame : ntohl (dataFrame stream_id flags data) 0 = stream_id.toNat := by
  rw [dataFrame, ntohl_append_left (by simp), ntohl_htonl, Nat.mod_eq_of_lt stream_id.toNat_lt]

theorem is_control_frame_dataFrame (masked : stream_id.toNat <= kStreamIdMask) :
    (dataFrame stream_id flags data).is_control_frame = false := by
  have isId : ntohs (dataFrame stream_id flags data) 0 * 65536 +
      ntohs (dataFrame stream_id flags data) 2 = stream_id.toNat :=
    ntohl_dataFrame
  have small : ntohs (dataFrame stream_id flags data) 0 < 2 ^ 15 := by
    rw [kStreamIdMask] at masked
    omega
  rw [is_control_frame_eq, testBit_lt_two_pow small]

theorem data_stream_id_dataFrame (masked : stream_id.toNat <= kStreamIdMask) :
    (dataFrame stream_id flags data).data_stream_id = stream_id.toNat := by
  have isMask : kStreamIdMask = 2 ^ 31 - 1 := rfl
  rw [SpdyFrame.data_stream_id, ntohl_dataFrame, isMask,
    and_two_pow_sub_one_eq_mod, Nat.mod_eq_of_lt]
  omega

theorem flags_dataFrame : (dataFrame stream_id flags data).flags = flags :=
  flags_of_flagsAndLength rfl

theorem payload_dataFrame (fits : data.length < 2 ^ 24) :
    (dataFrame stream_id flags data).length_ = data.length :=
  length_of_flagsAndLength rfl fits

theorem whole_dataFrame (fits : data.length < 2 ^ 24) :
    WholeFrame (dataFrame stream_id flags data) := by
  rw [WholeFrame, Whole, payload_dataFrame fits, length_dataFrame]

end DataFrames

/-- A name or value with its length. -/
def stringBytes (value : Bytes) : Bytes := htons value.length ++ value

/-- The bytes of a header block. -/
def headerBytes (headers : SpdyHeaderBlock) : Bytes :=
  htons headers.length ++ headers.flatMap fun header => stringBytes header.1 ++ stringBytes header.2

/-- All names and values can be written. -/
def ShortHeaders (headers : SpdyHeaderBlock) : Prop :=
  ∀ header ∈ headers, header.1.length <= 0xffff ∧ header.2.length <= 0xffff

theorem written_writeHeaders (short : ShortHeaders headers) :
    (writeHeaders builder headers).written = builder.written ++ headerBytes headers := by
  have each : ∀ (later : SpdyHeaderBlock) (builder : SpdyFrameBuilder), ShortHeaders later ->
      (later.foldl writeHeader builder).written = builder.written ++ later.flatMap fun header =>
          stringBytes header.1 ++ stringBytes header.2 := by
    intro later
    induction later with
    | nil => intro builder _; simp
    | cons header later ih =>
      intro builder short
      obtain ⟨⟨shortName, shortValue⟩, shortLater⟩ := forall_mem_cons.mp short
      rw [foldl_cons, ih _ shortLater, writeHeader,
        SpdyFrameBuilder.written_writeString _ shortValue,
        SpdyFrameBuilder.written_writeString _ shortName,
        flatMap_cons, stringBytes, stringBytes]
      simp
  rw [writeHeaders, each _ _ short, SpdyFrameBuilder.written_writeUInt16, headerBytes, append_assoc]

theorem writeLength_eq {front payload : Bytes} (isFront : front.length = 4)
    (split : builder.written = front ++ (htonl 0 ++ payload)) (flags : UInt8) :
    writeLength builder flags = front ++ (flagsAndLength flags payload.length ++ payload) := by
  have len : builder.written.length - SpdyFrame.size = payload.length := by
    rw [split, length_append, length_append, isFront, length_htonl, SpdyFrame.size]
    omega
  rw [writeLength, len, ← isFront]
  exact builder.written_writeBytesToOffset split rfl

/-- A length of 24 bits is written with empty flags. -/
theorem htonl_eq {len : Nat} (fits : len < 2 ^ 24) :
    htonl len = flagsAndLength 0 len := by
  have high : len / 65536 / 256 = 0 := by omega
  rw [flagsAndLength, htonl, htons, high]
  rfl

theorem duplicateFrame_of_whole (whole : WholeFrame frame) : duplicateFrame frame = frame := by
  rw [duplicateFrame, ← whole, take_length]

theorem wire_of_whole (whole : WholeFrame frame) : wire frame = some frame := by
  rw [wire, if_pos whole.ge, ← whole, take_length]

/-- Without compression, a created frame is the one written. -/
theorem eq_of_compressed {compressed initialized : Bool} (whole : WholeFrame written)
    (created : (if compressed then compressFrame initialized written
      else some written) = some frame) :
    frame = written := by
  rw [compressFrame, duplicateFrame_of_whole whole] at created
  split at created
  · split at created
    · exact (some.inj created).symm
    · cases created
  · exact (some.inj created).symm

section Functions

variable {stream_id associated_stream_id : UInt32} {flags : UInt8}
  {headers : SpdyHeaderBlock} {frame : SpdyFrame}

/-- The priority as it is written. -/
def priorityBytes (priority : Int) : Bytes :=
  htons (ntohs (htons (priority % 2 ^ 16).toNat).reverse 0 <<< 6)

def synStreamPayload (stream_id associated_stream_id : UInt32) (priority : Int)
    (headers : SpdyHeaderBlock) : Bytes :=
  htonl stream_id.toNat ++ (htonl associated_stream_id.toNat ++
    (priorityBytes priority ++ headerBytes headers))

def replyPayload (stream_id : UInt32) (headers : SpdyHeaderBlock) : Bytes :=
  htonl stream_id.toNat ++ (htons 0 ++ headerBytes headers)

theorem createSynStream_eq (short : ShortHeaders headers)
    (fits : (synStreamPayload stream_id associated_stream_id priority headers).length < 2 ^ 24)
    (created : createSynStream version initialized stream_id
      associated_stream_id priority flags compressed headers = some frame) :
    frame = controlFrame version .SYN_STREAM flags
      (synStreamPayload stream_id associated_stream_id priority headers) := by
  rw [createSynStream] at created
  rw [@writeLength_eq _ (htons (kControlFlagMask ||| version) ++
      htons SpdyControlType.SYN_STREAM.toNat)
    (synStreamPayload stream_id associated_stream_id priority headers) rfl
    (by
      rw [written_writeHeaders short, synStreamPayload, priorityBytes]
      simp only [SpdyFrameBuilder.written_writeUInt32,
        SpdyFrameBuilder.written_writeUInt16, SpdyFrameBuilder.written_empty,
        nil_append, append_assoc])] at created
  rw [controlFrame_split]
  refine eq_of_compressed ?_ created
  exact whole_controlFrame fits

theorem createReply_eq {type : SpdyControlType} (short : ShortHeaders headers)
    (fits : (replyPayload stream_id headers).length < 2 ^ 24)
    (created : createReply initialized version type stream_id flags compressed
      headers = some frame) :
    frame = controlFrame version type flags (replyPayload stream_id headers) := by
  rw [createReply] at created
  rw [@writeLength_eq _ (htons (kControlFlagMask ||| version) ++ htons type.toNat)
    (replyPayload stream_id headers) rfl
    (by
      rw [written_writeHeaders short, replyPayload]
      simp only [SpdyFrameBuilder.written_writeUInt32,
        SpdyFrameBuilder.written_writeUInt16, SpdyFrameBuilder.written_empty,
        nil_append, append_assoc])] at created
  rw [controlFrame_split]
  refine eq_of_compressed ?_ created
  exact whole_controlFrame fits

theorem createRstStream_eq :
    createRstStream version stream_id status = controlFrame version .RST_STREAM 0
        (htonl stream_id.toNat ++ htonl status.toNat) := by
  rw [createRstStream, controlFrame]
  rfl

theorem createGoAway_eq : createGoAway version stream_id =
      controlFrame version .GOAWAY 0 (htonl stream_id.toNat) := by
  rw [createGoAway, controlFrame]
  rfl

theorem createWindowUpdate_eq :
    createWindowUpdate version stream_id delta_window_size = controlFrame version .WINDOW_UPDATE 0
        (htonl stream_id.toNat ++ htonl delta_window_size.toNat) := by
  rw [createWindowUpdate, controlFrame]
  rfl

def settingBytes (setting : UInt32 × UInt32) : Bytes :=
  htonl setting.1.toNat ++ htonl setting.2.toNat

def settingsPayload (values : List (UInt32 × UInt32)) : Bytes :=
  htonl values.length ++ values.flatMap settingBytes

theorem length_settingsPayload : (settingsPayload values).length = 4 + 8 * values.length := by
  have fixed : ∀ setting, (settingBytes setting).length = 8 := fun _ => rfl
  have each : (values.flatMap settingBytes).length = values.length * 8 :=
    Library.length_records fixed values
  rw [settingsPayload, length_append, each, length_htonl, Nat.mul_comm]

theorem createSettings_eq (fits : (settingsPayload values).length < 2 ^ 24) :
    createSettings version values = controlFrame version .SETTINGS 0 (settingsPayload values) := by
  have each : ∀ (later : List (UInt32 × UInt32)) (builder : SpdyFrameBuilder),
      (later.foldl writeSetting builder).written =
        builder.written ++ later.flatMap settingBytes := by
    intro later
    induction later with
    | nil => intro builder; simp
    | cons setting later ih =>
      intro builder
      rw [foldl_cons, ih, writeSetting, flatMap_cons, settingBytes]
      simp
  have size : blockSize .SETTINGS - SpdyFrame.size + 8 * values.length =
      (settingsPayload values).length :=
    length_settingsPayload.symm
  rw [createSettings, controlFrame]
  rw [SpdyFrameBuilder.take, each, size]
  simp only [SpdyFrameBuilder.written_writeUInt32,
    SpdyFrameBuilder.written_writeUInt16, SpdyFrameBuilder.written_empty,
    nil_append, append_assoc]
  rw [htonl_eq fits, settingsPayload]

/-- A data frame of fewer than 64 KB is its header and data. -/
theorem createDataFrame_eq (plain : flags &&& DATA_FLAG_COMPRESSED = 0)
    (fits : data.length < 2 ^ 16)
    (created : createDataFrame initialized stream_id data flags = some frame) :
    frame = dataFrame stream_id flags data := by
  have all : data.length <= (UInt16.ofNat data.length).toNat := by
    rw [UInt16.toNat_ofNat']
    omega
  have four : (flagsAndLength flags data.length).length <= (4 : UInt16).toNat := Nat.le_refl 4
  rw [createDataFrame] at created
  rw [if_neg (not_not_intro plain), SpdyFrameBuilder.take,
    SpdyFrameBuilder.written_writeBytes _ all,
    SpdyFrameBuilder.written_writeBytes _ four,
    SpdyFrameBuilder.written_writeUInt32, SpdyFrameBuilder.written_empty,
    nil_append, append_assoc] at created
  exact (some.inj created).symm

end Functions

/-!
## Header blocks

`ParseHeaderBlock` reads back the headers of created frames.
-/

/-- `ReadUInt16`, with what is behind the number. -/
def readUInt16 (rest : Bytes) : Option (Nat × Bytes) :=
  if 2 <= rest.length then some (ntohs rest 0, rest.drop 2) else none

def readString (rest : Bytes) : Option (Bytes × Bytes) := do
  let (len, rest) <- readUInt16 rest
  if len <= rest.length then some (rest.take len, rest.drop len) else none

/-- The loop of `ParseHeaderBlock`, which puts the entries into a map. -/
def readHeaders : Nat -> Bytes -> (Bytes -> Option Bytes) -> Option (Bytes -> Option Bytes)
  | 0, rest, block => if rest = [] then some block else none
  | more + 1, rest, block => do
    let (name, rest) <- readString rest
    let (value, rest) <- readString rest
    if name = [] ∨ value = [] ∨ block name ≠ none then none
    else readHeaders more rest (Function.update block name (some value))

/-- `ParseHeaderBlock` into an empty map, with compression disabled. It needs a decompressor
still. -/
def parseHeaderBlock (initialized : Bool) (frame : SpdyFrame) : Option (Bytes -> Option Bytes) := do
  let type <- frame.type?
  if type ∉ [.SYN_STREAM, .SYN_REPLY, .HEADERS] ∨ !initialized then none
  else
    let header_length := frame.length_ - (blockSize type - SpdyFrame.size)
    let header_data := ((duplicateFrame frame).drop (blockSize type)).take header_length
    let (num_headers, rest) <- readUInt16 header_data
    readHeaders num_headers rest fun _ => none

theorem readUInt16_append (small : n < 2 ^ 16) : readUInt16 (htons n ++ rest) = some (n, rest) := by
  rw [readUInt16, if_pos (by simp), ntohs_append_left (by simp), ntohs_htons,
    Nat.mod_eq_of_lt small]
  rfl

theorem readString_append (short : value.length <= 0xffff) :
    readString (stringBytes value ++ rest) = some (value, rest) := by
  rw [readString, stringBytes, append_assoc, readUInt16_append (by omega)]
  simp

/-- What is read of a header block, if no name is there twice. -/
def readBack (headers : SpdyHeaderBlock) : Option (Bytes -> Option Bytes) :=
  if ∀ header ∈ headers, header.1 ≠ [] ∧ header.2 ≠ [] then
    some fun name => headers.lookup name
  else none

/-- Entries whose names are not in the map are put into it. -/
theorem readHeaders_entries {headers : SpdyHeaderBlock} {block : Bytes -> Option Bytes}
    (short : ShortHeaders headers) (nodup : (headers.map Prod.fst).Nodup)
    (new : ∀ header ∈ headers, block header.1 = none) :
    readHeaders headers.length
        (headers.flatMap fun header => stringBytes header.1 ++ stringBytes header.2) block =
      (readBack headers).map fun read name => (read name).or (block name) := by
  induction headers generalizing block with
  | nil => simp [readHeaders, readBack]
  | cons header later ih =>
    obtain ⟨name, val⟩ := header
    obtain ⟨⟨shortName, shortVal⟩, shortLater⟩ := forall_mem_cons.mp short
    obtain ⟨isNew, newLater⟩ := forall_mem_cons.mp new
    obtain ⟨once, nodup⟩ := nodup_cons.mp nodup
    dsimp only at *
    have other : ∀ header ∈ later, header.1 ≠ name := fun header mem same =>
      once (same ▸ List.mem_map_of_mem mem)
    rw [length_cons, flatMap_cons, append_assoc, readHeaders]
    simp only [readString_append shortName, readString_append shortVal, bind_eq_bind, bind_some]
    by_cases isEmpty : name = [] ∨ val = []
    · rw [if_pos (by tauto), readBack, if_neg (by simp; tauto)]
      rfl
    · rw [if_neg (by tauto), ih shortLater nodup fun header mem => by
        rw [Function.update_of_ne (other header mem), newLater header mem], readBack, readBack]
      simp only [forall_mem_cons, not_or.mp isEmpty, ne_eq, not_false_eq_true, true_and]
      split_ifs
      · simp only [Option.map_some, some.injEq]
        funext asked
        by_cases same : asked = name
        · subst same
          have absent : later.lookup asked = none := lookup_eq_none_iff.mpr fun header mem =>
            bne_iff_ne.mpr (other header mem).symm
          simp [absent]
        · rw [Function.update_of_ne same, lookup_cons, beq_false_of_ne same]
      · rfl

theorem parseHeaderBlock_controlFrame {front : Bytes}
    (isType : type ∈ [.SYN_STREAM, .SYN_REPLY, .HEADERS])
    (size : SpdyFrame.size + front.length = blockSize type)
    (fits : (front ++ headerBytes headers).length < 2 ^ 24) (short : ShortHeaders headers)
    (few : headers.length < 2 ^ 16) (nodup : (headers.map Prod.fst).Nodup) :
    parseHeaderBlock true (controlFrame version type flags (front ++ headerBytes headers)) =
      readBack headers := by
  have isBlock := @readHeaders_entries _ (fun _ => none) short nodup fun _ _ => rfl
  have isData : (controlFrame version type flags (front ++ headerBytes headers)).drop
      (blockSize type) = headerBytes headers := by
    rw [← size, controlFrame, ← append_assoc, ← append_assoc, ← append_assoc]
    exact drop_left' (by simp [SpdyFrame.size]; omega)
  have len : (front ++ headerBytes headers).length - (blockSize type - SpdyFrame.size) =
      (headerBytes headers).length := by
    rw [← size, Nat.add_sub_cancel_left, length_append, Nat.add_sub_cancel_left]
  rw [parseHeaderBlock, type_controlFrame, bind_eq_bind, bind_some, if_neg (by simp [isType])]
  dsimp only
  rw [duplicateFrame_of_whole (whole_controlFrame fits), isData, payload_controlFrame fits, len,
    take_length, headerBytes, readUInt16_append few, bind_eq_bind, bind_some, isBlock]
  simp

end Chromium.Spdy
