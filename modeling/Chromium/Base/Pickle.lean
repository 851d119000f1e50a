import Chromium.Base.StringNumberConversions
import Chromium.Library.Chunks

/-!
# Pickles

The payload of a `Pickle`, to which values are written at offsets that are
multiples of four.
-/

namespace Chromium.Base

open List

namespace Pickle

/-- `Pickle::AlignInt`. -/
def alignInt (i alignment : Nat) : Nat := i + (alignment - i % alignment) % alignment

/-- `Pickle::WriteBytes`. -/
def writeBytes (payload data : Bytes) : Bytes :=
  payload ++ List.replicate (alignInt payload.length 4 - payload.length) 0 ++ data

section

variable (payload : Bytes)

/-- `Pickle::WriteInt`, of a number that is not negative. -/
def writeInt (value : Nat) : Bytes :=
  writeBytes payload ((List.range 4).map fun index => UInt8.ofNat (value / 2 ^ (8 * index)))

/-- `Pickle::WriteString`. No more than `2 ^ 31 - 1` bytes can be written. -/
def writeString (payload value : Bytes) : Option Bytes :=
  if value.length < 2 ^ 31 then some (writeBytes (writeInt payload value.length) value)
  else none

/-- `Pickle::IteratorHasRoomFor`. -/
def iteratorHasRoomFor (iter : Nat) (len : Int) : Bool := 0 <= len && iter + len <= payload.length

/-- `Pickle::ReadInt`. -/
def readInt (iter : Nat) : Option (Int × Nat) :=
  if iteratorHasRoomFor payload iter 4 then
    some (toInt32 (Library.littleEndian ((payload.drop iter).take 4)), iter + 4)
  else none

/-- `Pickle::ReadString`. -/
def readString (iter : Nat) : Option (Bytes × Nat) := do
  let (len, iter) ← readInt payload iter
  if len < 0 then none
  else if iteratorHasRoomFor payload iter len then
    some ((payload.drop iter).take len.toNat, iter + alignInt len.toNat 4)
  else none

end

theorem writeBytes_aligned (aligned : payload.length % 4 = 0) (data : Bytes) :
    writeBytes payload data = payload ++ data := by
  rw [writeBytes, alignInt, aligned, Nat.sub_zero, Nat.mod_self, Nat.add_zero,
    Nat.sub_self, replicate_zero, append_nil]

/-- A string that was written is read. -/
theorem readString_writeString (fits : val.length < 2 ^ 31) :
    ∃ payload iter, writeString [] val = some payload ∧
      readString payload 0 = some (val, iter) := by
  have written : writeString [] val = some ((List.range 4).map
        (fun i => UInt8.ofNat (val.length / 2 ^ (8 * i))) ++ val) := by
    rw [writeString, if_pos fits, writeInt, @writeBytes_aligned [] rfl,
      nil_append, writeBytes_aligned (by rw [length_map, length_range])]
  generalize lengthIs : (List.range 4).map
    (fun i => UInt8.ofNat (val.length / 2 ^ (8 * i))) = len at written
  have four : len.length = 4 := by rw [← lengthIs, length_map, length_range]
  have n : Library.littleEndian len = val.length := by
    rw [← lengthIs, Library.littleEndian_bytes, Nat.mod_eq_of_lt (by omega)]
  have readLength : readInt (len ++ val) 0 = some ((val.length : Int), 4) := by
    rw [readInt, if_pos (by
      simp only [iteratorHasRoomFor, length_append, Bool.and_eq_true, decide_eq_true_eq]
      omega), drop_zero, take_left' four, n,
      toInt32_of_lt fits]
  have room : iteratorHasRoomFor (len ++ val) 4 val.length = true := by
    simp only [iteratorHasRoomFor, length_append, Bool.and_eq_true, decide_eq_true_eq]
    omega
  refine ⟨_, 4 + alignInt val.length 4, written, ?_⟩
  rw [readString, readLength]
  simp only [Option.bind_eq_bind, Option.bind_some]
  rw [if_neg (by omega), if_pos room, drop_left' four, Int.toNat_natCast, take_length]

end Pickle

/-!
## Writing a pickle

A pickle that owns its memory: the header, whose first four bytes are the size
of the payload, and the payload behind it. A write that would go outside the
allocated memory, or read more bytes than it is given, has no outcome.
-/

section

open Library

/-- The sizes of the types whose size the platform chooses. -/
structure Platform where
  long_size : Nat
  size_t_size : Nat
  wchar_t_size : Nat
  long_size_eq : long_size = 4 ∨ long_size = 8
  size_t_size_eq : size_t_size = 4 ∨ size_t_size = 8
  wchar_t_size_eq : wchar_t_size = 2 ∨ wchar_t_size = 4

namespace Platform

/-- The conversion of a number to `size_t`. -/
def toSize (p : Platform) (number : Int) : Nat :=
  (number % 2 ^ (8 * p.size_t_size)).toNat

end Platform

/-- The conversion of a `size_t` to `int`. -/
def toInt (number : Nat) : BitVec 32 := BitVec.ofNat 32 number

/-- `realloc`. The bytes behind the old ones are unspecified. -/
structure Allocator where
  realloc : Bytes -> Nat -> Option Bytes
  length_realloc : ∀ {memory size grown}, realloc memory size = some grown -> grown.length = size
  keeps : ∀ {memory size grown start count}, realloc memory size = some grown ->
      start + count <= memory.length -> start + count <= size ->
        slice grown start count = slice memory start count

/-- A `Pickle` that owns its memory, of which `capacity_` is the length. -/
structure PickleBuffer where
  memory : Bytes
  header_size : Nat
  variable_buffer_offset : Nat
  deriving DecidableEq

namespace PickleBuffer

/-- `kPayloadUnit`. -/
def kPayloadUnit : Nat := 64

section Memory

variable (pickle : PickleBuffer)

def capacity : Nat := pickle.memory.length

/-- `header_->payload_size`. -/
def payload_size : Nat := (ofBytes 4 (slice pickle.memory 0 4)).toNat

def setPayloadSize (payload_size : BitVec 32) : PickleBuffer :=
  { pickle with memory := store pickle.memory 0 (bytesOf 4 payload_size) }

/-- `Pickle::size`. -/
def size : Nat := pickle.header_size + pickle.payload_size

/-- The bytes of `Pickle::data`. -/
def data : Bytes := pickle.memory.take pickle.size

/-- Write bytes to the allocated memory. -/
def put (start : Int) (data : Bytes) : Option PickleBuffer :=
  if 0 <= start ∧ start + data.length <= pickle.memory.length then
    some { pickle with memory := store pickle.memory start.toNat data }
  else none

end Memory

section Writing

variable (p : Platform) (alloc : Allocator) (pickle : PickleBuffer)

/-- `Pickle::Resize`. -/
def resize (new_capacity : Nat) : PickleBuffer × Bool :=
  match alloc.realloc pickle.memory (p.toSize (Pickle.alignInt new_capacity kPayloadUnit)) with
  | some memory => ({ pickle with memory := memory }, true)
  | none => (pickle, false)

/-- Enlarge the memory if it is too small. -/
def reserve (needed_size : Nat) : PickleBuffer × Bool :=
  if needed_size > pickle.capacity then
    pickle.resize p alloc (max (p.toSize (pickle.capacity * 2)) needed_size)
  else (pickle, true)

/-- `Pickle::BeginWrite`. -/
def beginWrite (length : Nat) : PickleBuffer × Option Nat :=
  let offset := p.toSize (Pickle.alignInt pickle.payload_size 4)
  let new_size := p.toSize (offset + length)
  let needed_size := p.toSize (pickle.header_size + new_size)
  match pickle.reserve p alloc needed_size with
  | (pickle, true) => (pickle.setPayloadSize (toInt new_size), some (pickle.header_size + offset))
  | (pickle, false) => (pickle, none)

/-- `Pickle::EndWrite`. -/
def endWrite (dest : Nat) (length : Int) : Option PickleBuffer :=
  if p.toSize length % 4 ≠ 0 then
    pickle.put (dest + length) (List.replicate (4 - p.toSize length % 4) 0)
  else some pickle

/-- `memcpy`. -/
def memcpy (dest : Nat) (data : Bytes) (count : Nat) : Option PickleBuffer :=
  if count <= data.length then pickle.put dest (data.take count) else none

/-- `Pickle::WriteBytes`. -/
def writeBytes (data : Bytes) (data_len : BitVec 32) : Option (PickleBuffer × Bool) :=
  match pickle.beginWrite p alloc (p.toSize data_len.toInt) with
  | (pickle, none) => some (pickle, false)
  | (pickle, some dest) => do
      let pickle ← pickle.memcpy dest data (p.toSize data_len.toInt)
      let pickle ← pickle.endWrite p dest data_len.toInt
      some (pickle, true)

/-- A write of a value of a fixed width. -/
def writeFixed (width : Nat) (value : BitVec (8 * width)) : Option (PickleBuffer × Bool) :=
  pickle.writeBytes p alloc (bytesOf width value) (toInt width)

/-- `Pickle::WriteInt`. -/
def writeInt (value : BitVec 32) : Option (PickleBuffer × Bool) :=
  pickle.writeFixed p alloc 4 value

/-- `Pickle::WriteBool`. -/
def writeBool (value : Bool) : Option (PickleBuffer × Bool) :=
  pickle.writeInt p alloc (if value then 1 else 0)

/-- `Pickle::WriteLong`. -/
def writeLong (value : BitVec (8 * p.long_size)) : Option (PickleBuffer × Bool) :=
  pickle.writeFixed p alloc p.long_size value

/-- `Pickle::WriteSize`. -/
def writeSize (value : BitVec (8 * p.size_t_size)) : Option (PickleBuffer × Bool) :=
  pickle.writeFixed p alloc p.size_t_size value

/-- `Pickle::WriteUInt16`. -/
def writeUInt16 (value : BitVec 16) : Option (PickleBuffer × Bool) :=
  pickle.writeFixed p alloc 2 value

/-- `Pickle::WriteUInt32`. -/
def writeUInt32 (value : BitVec 32) : Option (PickleBuffer × Bool) :=
  pickle.writeFixed p alloc 4 value

/-- `Pickle::WriteInt64`. -/
def writeInt64 (value : BitVec 64) : Option (PickleBuffer × Bool) :=
  pickle.writeFixed p alloc 8 value

/-- `Pickle::WriteUInt64`. -/
def writeUInt64 (value : BitVec 64) : Option (PickleBuffer × Bool) :=
  pickle.writeFixed p alloc 8 value

/-- Write a length and then that many bytes or units. -/
def writeLengthAndBytes (length : BitVec 32) (data : Bytes) (data_len : BitVec 32) :
    Option (PickleBuffer × Bool) := do
  let (pickle, written) ← pickle.writeInt p alloc length
  if written then pickle.writeBytes p alloc data data_len
  else some (pickle, false)

/-- `Pickle::WriteString`. -/
def writeString (value : Bytes) : Option (PickleBuffer × Bool) :=
  pickle.writeLengthAndBytes p alloc (toInt value.length) value (toInt value.length)

/-- `Pickle::WriteWString`. -/
def writeWString (value : List (BitVec (8 * p.wchar_t_size))) : Option (PickleBuffer × Bool) :=
  pickle.writeLengthAndBytes p alloc (toInt value.length) (unitBytes p.wchar_t_size value)
    (toInt (p.toSize (value.length * p.wchar_t_size)))

/-- `Pickle::WriteString16`. -/
def writeString16 (value : List (BitVec 16)) : Option (PickleBuffer × Bool) :=
  pickle.writeLengthAndBytes p alloc (toInt value.length) (unitBytes 2 value)
    (toInt (p.toSize ((toInt value.length).toInt * 2)))

/-- `Pickle::WriteData`. -/
def writeData (data : Bytes) (length : BitVec 32) : Option (PickleBuffer × Bool) :=
  if length.toInt ≥ 0 then pickle.writeLengthAndBytes p alloc length data length
  else some (pickle, false)

/-- The part of `Pickle::BeginWriteData` behind `WriteInt`. -/
def beginVariableBuffer (length : BitVec 32) : Option (PickleBuffer × Option Nat) :=
  match pickle.beginWrite p alloc (p.toSize length.toInt) with
  | (pickle, none) => some (pickle, none)
  | (pickle, some data_ptr) => do
      let pickle := { pickle with variable_buffer_offset := data_ptr - 4 }
      let pickle ← pickle.endWrite p data_ptr length.toInt
      some (pickle, some data_ptr)

/-- `Pickle::BeginWriteData`. -/
def beginWriteData (length : BitVec 32) : Option (PickleBuffer × Option Nat) :=
  if length.toInt < 0 then some (pickle, none)
  else do
    let (pickle, written) ← pickle.writeInt p alloc length
    if written then pickle.beginVariableBuffer p alloc length
    else some (pickle, none)

/-- `Pickle::TrimWriteData`. -/
def trimWriteData (new_length : BitVec 32) : Option PickleBuffer :=
  let cur_length := ofBytes 4 (slice pickle.memory pickle.variable_buffer_offset 4)
  if pickle.variable_buffer_offset + 4 <= pickle.memory.length then
    if new_length.toInt < 0 ∨ new_length.toInt > cur_length.toInt then some pickle
    else
      (pickle.setPayloadSize (BitVec.ofInt 32
        (pickle.payload_size - (cur_length.toInt - new_length.toInt)))).put
          pickle.variable_buffer_offset (bytesOf 4 new_length)
  else none

end Writing

/-- `Pickle::Pickle(int)`. There is no pickle if its memory cannot be
allocated. -/
def create (p : Platform) (alloc : Allocator) (header_size : Nat) : Option PickleBuffer :=
  let pickle : PickleBuffer :=
    { memory := []
      header_size := Pickle.alignInt header_size 4
      variable_buffer_offset := 0 }
  match pickle.resize p alloc kPayloadUnit with
  | (pickle, true) => some (pickle.setPayloadSize 0)
  | (_, false) => none

end PickleBuffer

/-- A call that writes. The caller fills the region of a `BeginWriteData`
call from its start on, and may trim it. -/
inductive WriteCall (p : Platform) where
  | bool (value : Bool)
  | int (value : BitVec 32)
  | long (value : BitVec (8 * p.long_size))
  | size (value : BitVec (8 * p.size_t_size))
  | uint16 (value : BitVec 16)
  | uint32 (value : BitVec 32)
  | int64 (value : BitVec 64)
  | uint64 (value : BitVec 64)
  | string (value : Bytes)
  | wstring (value : List (BitVec (8 * p.wchar_t_size)))
  | string16 (value : List (BitVec 16))
  | data (data : Bytes) (length : BitVec 32)
  | bytes (data : Bytes) (data_len : BitVec 32)
  | region (length : BitVec 32) (filled : Bytes) (new_length : Option (BitVec 32))

namespace PickleBuffer

variable (p : Platform) (alloc : Allocator) (pickle : PickleBuffer)

/-- The region of `BeginWriteData` is filled and trimmed. -/
def fillRegion (data_ptr : Nat) (filled : Bytes) (new_length : Option (BitVec 32)) :
    Option PickleBuffer := do
  let pickle ← pickle.put data_ptr filled
  match new_length with
  | some new_length => pickle.trimWriteData new_length
  | none => some pickle

/-- A `BeginWriteData` call, and what the caller does with its region. -/
def writeRegion (length : BitVec 32) (filled : Bytes) (new_length : Option (BitVec 32)) :
    Option (PickleBuffer × Bool) := do
  match ← pickle.beginWriteData p alloc length with
  | (pickle, none) => some (pickle, false)
  | (pickle, some data_ptr) => do
      let pickle ← pickle.fillRegion data_ptr filled new_length
      some (pickle, true)

def write : WriteCall p -> Option (PickleBuffer × Bool)
  | .bool value => pickle.writeBool p alloc value
  | .int value => pickle.writeInt p alloc value
  | .long value => pickle.writeLong p alloc value
  | .size value => pickle.writeSize p alloc value
  | .uint16 value => pickle.writeUInt16 p alloc value
  | .uint32 value => pickle.writeUInt32 p alloc value
  | .int64 value => pickle.writeInt64 p alloc value
  | .uint64 value => pickle.writeUInt64 p alloc value
  | .string value => pickle.writeString p alloc value
  | .wstring value => pickle.writeWString p alloc value
  | .string16 value => pickle.writeString16 p alloc value
  | .data data length => pickle.writeData p alloc data length
  | .bytes data data_len => pickle.writeBytes p alloc data data_len
  | .region length filled new_length =>
    pickle.writeRegion p alloc length filled new_length

/-- Make calls one behind the other. -/
def writeAll : PickleBuffer -> List (WriteCall p) -> Option (PickleBuffer × List Bool)
  | pickle, [] => some (pickle, [])
  | pickle, call :: rest => do
      let (pickle, written) ← pickle.write p alloc call
      let (pickle, others) ← writeAll pickle rest
      some (pickle, written :: others)

end PickleBuffer

end

/-!
## Reading a pickle

A pickle that refers to a buffer somewhere in memory. Pointers are addresses,
of which zero is null; a load outside the buffer has no outcome.
-/

section

open Library

/-- A buffer in memory. Its end is not within the last word of the address
space. -/
structure Buffer (p : Platform) where
  address : Nat
  bytes : Bytes
  not_null : bytes ≠ [] -> 0 < address
  in_memory : address + bytes.length + 3 < 2 ^ (8 * p.size_t_size)

/-- `Pickle::Pickle(const char*, int)`: the fields of a pickle that refers to a
buffer. -/
structure PickleView where
  header : Nat
  header_size : Nat
  deriving DecidableEq

/-- A call that reads. -/
inductive ReadCall where
  | bool
  | int
  | long
  | size
  | uint16
  | uint32
  | int64
  | uint64
  | string
  | wstring
  | string16
  | data
  | bytes (length : BitVec 32)
  | length
  deriving DecidableEq

/-- A value that is read. -/
inductive Value (p : Platform) where
  | bool (value : Bool)
  | int (value : BitVec 32)
  | long (value : BitVec (8 * p.long_size))
  | size (value : BitVec (8 * p.size_t_size))
  | uint16 (value : BitVec 16)
  | uint32 (value : BitVec 32)
  | int64 (value : BitVec 64)
  | uint64 (value : BitVec 64)
  | string (value : Bytes)
  | wstring (value : List (BitVec (8 * p.wchar_t_size)))
  | string16 (value : List (BitVec 16))
  | data (value : Bytes)

namespace PickleView

/-- What a read gives: the value, if it returns true, and the iterator. -/
abbrev Read (α : Type) : Type := Option α × Nat

section Reading

variable {p : Platform} (buffer : Buffer p)

/-- The bytes at an address. -/
def load (address count : Nat) : Option Bytes :=
  if count = 0 then some []
  else if buffer.address <= address ∧ address + count <= buffer.address + buffer.bytes.length then
    some (slice buffer.bytes (address - buffer.address) count)
  else none

/-- `Pickle::Pickle(const char*, int)`. -/
def create (data_len : BitVec 32) : Option PickleView := do
  let header_size ← (if data_len.toInt ≥ 4 then do
      let payload_size ← load buffer buffer.address 4
      some (data_len - ofBytes 4 payload_size).toNat
    else some 0)
  let header_size := if header_size > data_len.toNat then 0 else header_size
  let header_size := if header_size ≠ Pickle.alignInt header_size 4 then 0 else header_size
  if header_size = 0 then some { header := 0, header_size := 0 }
  else some { header := buffer.address, header_size := header_size }

variable (view : PickleView)

/-- A pointer that is moved; the calculation wraps. -/
def advance (p : Platform) (ptr bytes : Nat) : Nat := p.toSize (ptr + bytes)

/-- `Pickle::payload`. -/
def payload (p : Platform) (view : PickleView) : Nat :=
  advance p view.header view.header_size

/-- `Pickle::end_of_payload`. -/
def endOfPayload : Option Nat :=
  if view.header = 0 then some 0
  else do
    let payload_size ← load buffer view.header 4
    some (advance p (view.payload p) (ofBytes 4 payload_size).toNat)

section

variable (iter : Nat)

/-- `Pickle::IteratorHasRoomFor`. -/
def iteratorHasRoomFor (len : Int) : Option Bool :=
  if len < 0 ∨ iter < view.header then some false
  else do
    let end_of_payload ← endOfPayload buffer view
    if iter > end_of_payload then some false
    else
      let end_of_region := advance p iter len.toNat
      some (iter <= end_of_region ∧ end_of_region <= end_of_payload)

/-- `Pickle::UpdateIter`. -/
def updateIter (p : Platform) (iter : Nat) (bytes : Int) : Nat :=
  advance p iter (p.toSize (Pickle.alignInt (p.toSize bytes) 4))

/-- Read bytes behind the iterator, if there is room for a length. -/
def take (len : Int) (count : Nat) : Option (Read Bytes) := do
  if ← iteratorHasRoomFor buffer view iter len then
    let bytes ← load buffer iter count
    some (some bytes, updateIter p iter len)
  else some (none, iter)

/-- The iterator of a read; it starts at the payload if it is null. -/
def start (p : Platform) (view : PickleView) (iter : Nat) : Nat :=
  if iter = 0 then view.payload p else iter

/-- A read of a value of a fixed width. -/
def readFixed (width iter : Nat) : Option (Read (BitVec (8 * width))) := do
  let (bytes, iter) ← take buffer view (start p view iter) width width
  some (bytes.map (ofBytes width), iter)

/-- `Pickle::ReadInt`. -/
def readInt : Option (Read (BitVec 32)) := readFixed buffer view 4 iter

/-- `Pickle::ReadBool`. -/
def readBool : Option (Read Bool) := do
  let (tmp, iter) ← readInt buffer view iter
  some (tmp.map (· ≠ 0), iter)

/-- `Pickle::ReadLong`. -/
def readLong : Option (Read (BitVec (8 * p.long_size))) :=
  readFixed buffer view p.long_size iter

/-- `Pickle::ReadSize`. -/
def readSize : Option (Read (BitVec (8 * p.size_t_size))) :=
  readFixed buffer view p.size_t_size iter

/-- `Pickle::ReadUInt16`. -/
def readUInt16 : Option (Read (BitVec 16)) := readFixed buffer view 2 iter

/-- `Pickle::ReadUInt32`. -/
def readUInt32 : Option (Read (BitVec 32)) := readFixed buffer view 4 iter

/-- `Pickle::ReadInt64`. -/
def readInt64 : Option (Read (BitVec 64)) := readFixed buffer view 8 iter

/-- `Pickle::ReadUInt64`. -/
def readUInt64 : Option (Read (BitVec 64)) := readFixed buffer view 8 iter

/-- `Pickle::ReadLength`. -/
def readLength : Option (Read (BitVec 32)) := do
  let (result, iter) ← readInt buffer view iter
  some (result.filter (·.toInt ≥ 0), iter)

/-- Read a length and what is behind it. -/
def afterLength (iter : Nat) (next : BitVec 32 -> Nat -> Option (Read α)) : Option (Read α) := do
  match ← readLength buffer view iter with
  | (none, iter) => some (none, iter)
  | (some len, iter) => next len iter

/-- `Pickle::ReadString`. -/
def readString : Option (Read Bytes) :=
  afterLength buffer view iter fun len iter => take buffer view iter len.toInt len.toNat

/-- Read units whose number is known. -/
def takeUnits (width : Nat) (len : BitVec 32) (iter : Nat) :
    Option (Read (List (BitVec (8 * width)))) := do
  let (bytes, iter) ← take buffer view iter
    (toInt (p.toSize (len.toInt * width))).toInt (len.toNat * width)
  some (bytes.map (unitsOf width len.toNat), iter)

/-- `Pickle::ReadWString`. -/
def readWString : Option (Read (List (BitVec (8 * p.wchar_t_size)))) :=
  afterLength buffer view iter fun len iter =>
    if len.toInt > (2 ^ 31 - 1) / p.wchar_t_size then some (none, iter)
    else takeUnits buffer view p.wchar_t_size len iter

/-- `Pickle::ReadString16`. -/
def readString16 : Option (Read (List (BitVec 16))) :=
  afterLength buffer view iter fun len iter => takeUnits buffer view 2 len iter

/-- `Pickle::ReadBytes`. -/
def readBytes (length : BitVec 32) (iter : Nat) : Option (Read Bytes) :=
  take buffer view (start p view iter) length.toInt length.toNat

/-- `Pickle::ReadData`. -/
def readData : Option (Read Bytes) :=
  afterLength buffer view iter fun length iter => readBytes buffer view length iter

end

/-- The value of a read under its type. -/
def typed (tag : α -> Value p) (read : Option (Read α)) : Option (Read (Value p)) :=
  read.map fun (value, iter) => (value.map tag, iter)

def read (iter : Nat) : ReadCall -> Option (Read (Value p))
  | .bool => typed .bool (readBool buffer view iter)
  | .int => typed .int (readInt buffer view iter)
  | .long => typed .long (readLong buffer view iter)
  | .size => typed .size (readSize buffer view iter)
  | .uint16 => typed .uint16 (readUInt16 buffer view iter)
  | .uint32 => typed .uint32 (readUInt32 buffer view iter)
  | .int64 => typed .int64 (readInt64 buffer view iter)
  | .uint64 => typed .uint64 (readUInt64 buffer view iter)
  | .string => typed .string (readString buffer view iter)
  | .wstring => typed .wstring (readWString buffer view iter)
  | .string16 => typed .string16 (readString16 buffer view iter)
  | .data => typed .data (readData buffer view iter)
  | .bytes length => typed .data (readBytes buffer view length iter)
  | .length => typed .int (readLength buffer view iter)

/-- What calls give one behind the other. -/
def readAll : Nat -> List ReadCall -> Option (List (Read (Value p)))
  | _, [] => some []
  | iter, call :: rest => do
      let result ← read buffer view iter call
      let results ← readAll result.2 rest
      some (result :: results)

end Reading
end PickleView

end

end Chromium.Base
