import Chromium.Library.Bytes
import Mathlib.Data.Nat.Bitwise

/-!
# Frames of SPDY

The accessors of `SpdyFrame` and its subclasses, on the memory of a frame.
Numbers are in network order.
-/

namespace Chromium.Spdy

open List

/-- The memory of a frame, its first byte first. -/
abbrev SpdyFrame := Bytes

def kSpdyProtocolVersion : Nat := 2

def kStreamIdMask : Nat := 0x7fffffff
def kControlFlagMask : Nat := 0x8000
def kVersionMask : Nat := 0x7fff
def kLengthMask : Nat := 0xffffff

def CONTROL_FLAG_FIN : UInt8 := 1
def DATA_FLAG_FIN : UInt8 := 1
def DATA_FLAG_COMPRESSED : UInt8 := 2

/-- The legal flags on data packets. -/
def kDataFlagsMask : UInt8 := 0x03
/-- The legal flags on control packets. -/
def kControlFlagsMask : UInt8 := 0x03

def kSpdyStreamMaximumWindowSize : Nat := 0x7fffffff

inductive SpdyControlType where
  | SYN_STREAM
  | SYN_REPLY
  | RST_STREAM
  | SETTINGS
  | NOOP
  | PING
  | GOAWAY
  | HEADERS
  | WINDOW_UPDATE
deriving DecidableEq

namespace SpdyControlType

def toNat : SpdyControlType -> Nat
  | SYN_STREAM => 1
  | SYN_REPLY => 2
  | RST_STREAM => 3
  | SETTINGS => 4
  | NOOP => 5
  | PING => 6
  | GOAWAY => 7
  | HEADERS => 8
  | WINDOW_UPDATE => 9

/-- The type of a number, where it is not out of bounds. -/
def ofNat? : Nat -> Option SpdyControlType
  | 1 => some SYN_STREAM
  | 2 => some SYN_REPLY
  | 3 => some RST_STREAM
  | 4 => some SETTINGS
  | 5 => some NOOP
  | 6 => some PING
  | 7 => some GOAWAY
  | 8 => some HEADERS
  | 9 => some WINDOW_UPDATE
  | _ => none

@[simp] theorem ofNat?_toNat (type : SpdyControlType) : ofNat? type.toNat = some type := by
  cases type <;> rfl

theorem toNat_lt (type : SpdyControlType) : type.toNat < 2 ^ 16 := by
  cases type <;> decide

end SpdyControlType

/-- A byte of memory. One behind the end is indeterminate and reads as zero
here. -/
def byteAt (memory : Bytes) (offset : Nat) : Nat := (memory.getD offset 0).toNat

/-- `ntohs` of the bytes at an offset. -/
def ntohs (memory : Bytes) (offset : Nat) : Nat :=
  byteAt memory offset * 256 + byteAt memory (offset + 1)

/-- `ntohl` of the bytes at an offset. -/
def ntohl (memory : Bytes) (offset : Nat) : Nat :=
  ntohs memory offset * 65536 + ntohs memory (offset + 2)

/-- The bytes of `htons`. -/
def htons (value : Nat) : Bytes := [UInt8.ofNat (value / 256), UInt8.ofNat value]

/-- The bytes of `htonl`. -/
def htonl (value : Nat) : Bytes := htons (value / 65536) ++ htons value

@[simp] theorem length_htons : (htons value).length = 2 := rfl

@[simp] theorem length_htonl : (htonl value).length = 4 := rfl

section Reads

variable {front back : Bytes}

theorem byteAt_append_left (lt : offset < front.length) :
    byteAt (front ++ back) offset = byteAt front offset := by
  rw [byteAt, byteAt, getD_append _ _ _ _ lt]

theorem byteAt_append_right :
    byteAt (front ++ back) (front.length + offset) = byteAt back offset := by
  rw [byteAt, byteAt, getD_append_right _ _ _ _ (Nat.le_add_right _ _), Nat.add_sub_cancel_left]

theorem ntohs_append_left (inside : offset + 2 <= front.length) :
    ntohs (front ++ back) offset = ntohs front offset := by
  rw [ntohs, ntohs, byteAt_append_left (by omega), byteAt_append_left (by omega)]

theorem ntohs_append_right (off : Nat) :
    ntohs (front ++ back) (front.length + off) = ntohs back off := by
  rw [ntohs, ntohs, Nat.add_assoc, byteAt_append_right, byteAt_append_right]

theorem ntohl_append_left (inside : offset + 4 <= front.length) :
    ntohl (front ++ back) offset = ntohl front offset := by
  rw [ntohl, ntohl, ntohs_append_left (by omega), ntohs_append_left (by omega)]

theorem ntohl_append_right (off : Nat) :
    ntohl (front ++ back) (front.length + off) = ntohl back off := by
  rw [ntohl, ntohl, Nat.add_assoc, ntohs_append_right, ntohs_append_right]

theorem ntohs_htons : ntohs (htons value) 0 = value % 2 ^ 16 := by
  have high : byteAt (htons value) 0 = value / 256 % 256 := by simp [byteAt, htons]
  have low : byteAt (htons value) (0 + 1) = value % 256 := by simp [byteAt, htons]
  rw [ntohs, high, low]
  omega

theorem ntohl_htonl : ntohl (htonl value) 0 = value % 2 ^ 32 := by
  have high : ntohs (htonl value) 0 = value / 65536 % 2 ^ 16 := by
    rw [htonl, ntohs_append_left (by simp), ntohs_htons]
  have low : ntohs (htonl value) (0 + 2) = value % 2 ^ 16 := by
    rw [← ntohs_htons, htonl]
    exact ntohs_append_right 0
  rw [ntohl, high, low]
  omega

end Reads

namespace SpdyFrame

/-- The size of `SpdyFrameBlock`, the common header. -/
def size : Nat := 8

variable (frame : SpdyFrame)

def flags : UInt8 := frame.getD 4 0

def length_ : Nat := ntohl frame 4 &&& kLengthMask

def is_control_frame : Bool := ntohs frame 0 &&& kControlFlagMask == kControlFlagMask

/-- `SpdyDataFrame::stream_id`. -/
def data_stream_id : Nat := ntohl frame 0 &&& kStreamIdMask

def version : Nat := ntohs frame 0 &&& kVersionMask

/-- `SpdyControlFrame::type`, where `AppearsToBeAValidControlFrame` holds. -/
def type? : Option SpdyControlType := SpdyControlType.ofNat? (ntohs frame 2)

/-- `SpdySynReplyControlFrame::stream_id`. -/
def synReply_stream_id : Nat := ntohl frame 8 &&& kStreamIdMask

end SpdyFrame

/-- The size of the block of a type of control frames, with the common
header. -/
def blockSize : SpdyControlType -> Nat
  | .SYN_STREAM => 18
  | .SYN_REPLY => 14
  | .RST_STREAM => 16
  | .SETTINGS => 12
  | .NOOP => 8
  | .PING => 8
  | .GOAWAY => 12
  | .HEADERS => 14
  | .WINDOW_UPDATE => 16

namespace SpdyFrame

variable {header rest : Bytes}

section

variable (whole : size <= header.length)
include whole

theorem length_append_right : length_ (header ++ rest) = length_ header := by
  rw [length_, length_, ntohl_append_left whole]

theorem flags_append_right : flags (header ++ rest) = flags header :=
  getD_append _ _ _ _ (Nat.lt_of_lt_of_le (by decide) whole)

theorem is_control_frame_append_right :
    is_control_frame (header ++ rest) = is_control_frame header := by
  rw [is_control_frame, is_control_frame, ntohs_append_left (Nat.le_trans (by decide) whole)]

theorem data_stream_id_append_right : data_stream_id (header ++ rest) = data_stream_id header := by
  rw [data_stream_id, data_stream_id, ntohl_append_left (Nat.le_trans (by decide) whole)]

theorem version_append_right : version (header ++ rest) = version header := by
  rw [version, version, ntohs_append_left (Nat.le_trans (by decide) whole)]

theorem type_append_right : type? (header ++ rest) = type? header := by
  rw [type?, type?, ntohs_append_left (Nat.le_trans (by decide) whole)]

end

end SpdyFrame

/-!
## The frame builder

`SpdyFrameBuilder` writes numbers and bytes one behind the other into a buffer
that it enlarges.
-/

/-- The bytes written, and the size of the allocation at whose front they
are. -/
structure SpdyFrameBuilder where
  written : Bytes
  capacity_ : Nat
  fits : written.length <= capacity_

namespace SpdyFrameBuilder

def kInitialPayload : Nat := 1024

/-- A builder without anything written. -/
def empty : SpdyFrameBuilder where
  written := []
  capacity_ := kInitialPayload
  fits := Nat.zero_le _

section

variable (builder : SpdyFrameBuilder)

/-- The capacity after `BeginWrite`. -/
def beginWrite (length : Nat) : Nat :=
  let needed_size := builder.written.length + length
  if builder.capacity_ < needed_size then max (builder.capacity_ * 2) needed_size
  else builder.capacity_

theorem le_beginWrite (len : Nat) :
    builder.written.length + len <= builder.beginWrite len := by
  rw [beginWrite]
  split
  · exact Nat.le_max_right _ _
  · exact Nat.le_of_not_lt ‹_›

/-- `WriteBytes`. The length is a number of 16 bits. -/
def writeBytes (data : Bytes) (data_len : UInt16) : SpdyFrameBuilder where
  written := builder.written ++ data.take data_len.toNat
  capacity_ := builder.beginWrite data_len.toNat
  fits := by
    have room := builder.le_beginWrite data_len.toNat
    have taken := List.length_take_le data_len.toNat data
    rw [List.length_append]
    omega

def writeUInt16 (value : Nat) : SpdyFrameBuilder := builder.writeBytes (htons value) 2

def writeUInt32 (value : Nat) : SpdyFrameBuilder := builder.writeBytes (htonl value) 4

/-- `WriteString`, which refuses a string that is too long. -/
def writeString (value : Bytes) : Bool × SpdyFrameBuilder :=
  if 0xffff < value.length then (false, builder)
  else (true, (builder.writeUInt16 value.length).writeBytes value (UInt16.ofNat value.length))

/-- `WriteBytesToOffset`, which refuses to write behind what was written. -/
def writeBytesToOffset (offset : Nat) (data : Bytes) : Bool × SpdyFrameBuilder :=
  if inside : builder.written.length < offset + data.length then (false, builder)
  else
    (true, {
      written := builder.written.take offset ++ data ++ builder.written.drop (offset + data.length)
      capacity_ := builder.capacity_
      fits := by
        have fits := builder.fits
        simp only [List.length_append, List.length_take, List.length_drop]
        omega })

/-- `take`: the memory of the frame, as far as it was written. -/
def take : SpdyFrame := builder.written

end

variable (builder : SpdyFrameBuilder)

@[simp] theorem written_empty : empty.written = [] := rfl

theorem written_writeBytes (all : data.length <= data_len.toNat) :
    (builder.writeBytes data data_len).written = builder.written ++ data := by
  show builder.written ++ data.take data_len.toNat = builder.written ++ data
  rw [take_of_length_le all]

@[simp] theorem written_writeUInt16 :
    (builder.writeUInt16 value).written = builder.written ++ htons value :=
  builder.written_writeBytes (Nat.le_refl 2)

@[simp] theorem written_writeUInt32 :
    (builder.writeUInt32 value).written = builder.written ++ htonl value :=
  builder.written_writeBytes (Nat.le_refl 4)

theorem written_writeString (short : value.length <= 0xffff) :
    (builder.writeString value).2.written = builder.written ++ (htons value.length ++ value) := by
  have same : (UInt16.ofNat value.length).toNat = value.length := by
    rw [UInt16.toNat_ofNat']
    omega
  rw [writeString, if_neg (by omega), written_writeBytes _ (by omega),
    written_writeUInt16, append_assoc]

/-- Overwriting a part of what was written. -/
theorem written_writeBytesToOffset
    (split : builder.written = front ++ (middle ++ back)) (len : data.length = middle.length) :
    (builder.writeBytesToOffset front.length data).2.written = front ++ (data ++ back) := by
  have lt : ¬ builder.written.length < front.length + data.length := by
    rw [split, len, length_append, length_append]
    omega
  rw [writeBytesToOffset, dif_neg lt]
  dsimp only
  rw [split, take_left, append_assoc, len,
    ← append_assoc front middle, ← length_append, drop_left]

end SpdyFrameBuilder

/-!
## Frames that the framer creates

The `Create` functions of `SpdyFramer`, with compression disabled, and the bytes
of a frame that are sent.
-/

section

open SpdyFrameBuilder (empty)

/-- The entries of a header block, in the order of the map. -/
abbrev SpdyHeaderBlock := List (Bytes × Bytes)

/-- `FlagsAndLength`: the first byte of the length is that of the flags. -/
def flagsAndLength (flags : UInt8) (length : Nat) : Bytes := flags :: (htonl length).drop 1

section

variable (frame : SpdyFrameBuilder)

def writeHeader (header : Bytes × Bytes) : SpdyFrameBuilder :=
  ((frame.writeString header.1).2.writeString header.2).2

/-- The number of headers with their names and values. -/
def writeHeaders (headers : SpdyHeaderBlock) : SpdyFrameBuilder :=
  headers.foldl writeHeader (frame.writeUInt16 headers.length)

/-- Write the length and flags over their placeholder. -/
def writeLength (flags : UInt8) : SpdyFrame :=
  (frame.writeBytesToOffset 4 (flagsAndLength flags (frame.written.length - SpdyFrame.size))).2.take

end

/-- `DuplicateFrame`. -/
def duplicateFrame (frame : SpdyFrame) : SpdyFrame := frame.take (SpdyFrame.size + frame.length_)

/-- `CompressFrame` with compression disabled. It needs a compressor still, and
has none if zlib fails to initialize it. -/
def compressFrame (initialized : Bool) (frame : SpdyFrame) : Option SpdyFrame :=
  if initialized then some (duplicateFrame frame) else none

section Create

variable (spdy_version_ : Nat) (initialized : Bool)

def createSynStream (stream_id associated_stream_id : UInt32) (priority : Int) (flags : UInt8)
    (compressed : Bool) (headers : SpdyHeaderBlock) : Option SpdyFrame :=
  let swapped := ntohs (htons (priority % 2 ^ 16).toNat).reverse 0
  let frame := empty.writeUInt16 (kControlFlagMask ||| spdy_version_)
  let frame := frame.writeUInt16 SpdyControlType.SYN_STREAM.toNat
  let frame := frame.writeUInt32 0
  let frame := frame.writeUInt32 stream_id.toNat
  let frame := frame.writeUInt32 associated_stream_id.toNat
  let frame := frame.writeUInt16 (swapped <<< 6)
  let frame := writeLength (writeHeaders frame headers) flags
  if compressed then compressFrame initialized frame else some frame

/-- What `CreateSynReply` and `CreateHeaders` have in common. -/
def createReply (version : Nat) (type : SpdyControlType) (stream_id : UInt32)
    (flags : UInt8) (compressed : Bool) (headers : SpdyHeaderBlock) : Option SpdyFrame :=
  let frame := empty.writeUInt16 (kControlFlagMask ||| version)
  let frame := frame.writeUInt16 type.toNat
  let frame := frame.writeUInt32 0
  let frame := frame.writeUInt32 stream_id.toNat
  let frame := frame.writeUInt16 0
  let frame := writeLength (writeHeaders frame headers) flags
  if compressed then compressFrame initialized frame else some frame

def createSynReply := createReply initialized spdy_version_ .SYN_REPLY

/-- It writes the version of the protocol, not that of the framer. -/
def createHeaders := createReply initialized kSpdyProtocolVersion .HEADERS

def createRstStream (stream_id : UInt32) (status : UInt32) : SpdyFrame :=
  let frame := empty.writeUInt16 (kControlFlagMask ||| spdy_version_)
  let frame := frame.writeUInt16 SpdyControlType.RST_STREAM.toNat
  let frame := frame.writeUInt32 8
  let frame := frame.writeUInt32 stream_id.toNat
  (frame.writeUInt32 status.toNat).take

def writeSetting (frame : SpdyFrameBuilder) (setting : UInt32 × UInt32) : SpdyFrameBuilder :=
  (frame.writeUInt32 setting.1.toNat).writeUInt32 setting.2.toNat

def createSettings (values : List (UInt32 × UInt32)) : SpdyFrame :=
  let frame := empty.writeUInt16 (kControlFlagMask ||| spdy_version_)
  let frame := frame.writeUInt16 SpdyControlType.SETTINGS.toNat
  let settings_size := blockSize .SETTINGS - SpdyFrame.size + 8 * values.length
  let frame := frame.writeUInt32 settings_size
  let frame := frame.writeUInt32 values.length
  (values.foldl writeSetting frame).take

def createGoAway (last_accepted_stream_id : UInt32) : SpdyFrame :=
  let frame := empty.writeUInt16 (kControlFlagMask ||| spdy_version_)
  let frame := frame.writeUInt16 SpdyControlType.GOAWAY.toNat
  let go_away_size := blockSize .GOAWAY - SpdyFrame.size
  let frame := frame.writeUInt32 go_away_size
  (frame.writeUInt32 last_accepted_stream_id.toNat).take

def createWindowUpdate (stream_id delta_window_size : UInt32) : SpdyFrame :=
  let frame := empty.writeUInt16 (kControlFlagMask ||| spdy_version_)
  let frame := frame.writeUInt16 SpdyControlType.WINDOW_UPDATE.toNat
  let window_update_size := blockSize .WINDOW_UPDATE - SpdyFrame.size
  let frame := frame.writeUInt32 window_update_size
  let frame := frame.writeUInt32 stream_id.toNat
  (frame.writeUInt32 delta_window_size.toNat).take

/-- `CreateDataFrame`. The builder takes a length of 16 bits. -/
def createDataFrame (stream_id : UInt32) (data : Bytes) (flags : UInt8) : Option SpdyFrame :=
  let frame := empty.writeUInt32 stream_id.toNat
  let frame := frame.writeBytes (flagsAndLength flags data.length) 4
  let frame := (frame.writeBytes data (UInt16.ofNat data.length)).take
  if flags &&& DATA_FLAG_COMPRESSED ≠ 0 then compressFrame initialized frame
  else some frame

end Create

/-- The bytes of a frame that are sent: as many as its header tells. What was
not written has no meaning. -/
def wire (frame : SpdyFrame) : Option Bytes :=
  if SpdyFrame.size + frame.length_ <= frame.length then
    some (frame.take (SpdyFrame.size + frame.length_))
  else none

end

end Chromium.Spdy
