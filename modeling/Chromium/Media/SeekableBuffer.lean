import Chromium.Library.Bytes
import Mathlib.Data.UInt

/-!
# Seekable buffers

`SeekableBuffer` is a queue of buffers with a read position, which can be moved
forward and backward as long as the bytes are kept.
-/

namespace Chromium.Media

/-- A `Buffer`: its timestamp and its duration in microseconds, and its data. -/
structure Buffer where
  timestamp : Int
  duration : Int
  data : Bytes
deriving DecidableEq

namespace Buffer

def getDataSize (buffer : Buffer) : Nat := buffer.data.length

end Buffer

def kNoTimestamp : Int := -2 ^ 63

/-- The queue, split at its current buffer, which is not there at the end of the
queue. -/
structure SeekableBuffer where
  /-- The buffers in front of the current one. -/
  behind : List Buffer := []
  /-- The current buffer and those that follow it. -/
  ahead : List Buffer := []
  current_buffer_offset : Nat := 0
  backward_capacity : Nat
  backward_bytes : Nat := 0
  forward_capacity : Nat
  forward_bytes : Nat := 0
  current_time : Int := kNoTimestamp
deriving DecidableEq

namespace SeekableBuffer

variable (self : SeekableBuffer)

/-- `SeekableBuffer::Clear`. -/
def clear : SeekableBuffer where
  backward_capacity := self.backward_capacity
  forward_capacity := self.forward_capacity

/-- `UpdateCurrentTime` at an offset into the current buffer. It fails if it
divides by zero. -/
def updateCurrentTime (current_time : Int) (current : List Buffer) (offset : Nat) : Option Int :=
  match current with
  | [] => some current_time
  | buffer :: _ =>
    if buffer.timestamp > 0 then
      if buffer.getDataSize = 0 then none
      else
        -- A product of a signed and an unsigned number is unsigned.
        let time_offset := (buffer.duration * offset) % 2 ^ 64 / buffer.getDataSize
        some (buffer.timestamp + time_offset.bmod (2 ^ 64))
    else some current_time

/-- `EvictBackwardBuffers`, for the buffers in front of the current one. -/
def evictBackwardBuffers (backward_capacity : Nat) : Nat -> List Buffer -> Nat × List Buffer
  | backward_bytes, [] => (backward_bytes, [])
  | backward_bytes, buffer :: behind =>
    if backward_bytes > backward_capacity then
      evictBackwardBuffers backward_capacity (backward_bytes - buffer.getDataSize) behind
    else (backward_bytes, buffer :: behind)

/-- The locals of `InternalRead`. -/
structure Reading where
  data : Bytes
  behind : List Buffer
  ahead : List Buffer
  offset : Nat
  current_time : Int
deriving DecidableEq

/-- The loop of `InternalRead`, with the number of bytes that remain to be
read. -/
def readLoop (advance_position : Bool) :
    Nat -> Nat -> Int -> List Buffer -> List Buffer -> Option Reading
  | _, offset, current_time, behind, [] => some ⟨[], behind, [], offset, current_time⟩
  | 0, offset, current_time, behind, buffer :: rest =>
    some ⟨[], behind, buffer :: rest, offset, current_time⟩
  | size + 1, offset, current_time, behind, buffer :: rest => do
      let copied := min (size + 1) (buffer.getDataSize - offset)
      let data := (buffer.data.drop offset).take copied
      let offset := offset + copied
      if offset = buffer.getDataSize then
        -- Next buffer may not have timestamp.
        let current_time ← (if advance_position then
            updateCurrentTime current_time (buffer :: rest) offset
          else some current_time)
        -- If we are at the last buffer, don't advance.
        if rest.isEmpty then some ⟨data, behind, [buffer], offset, current_time⟩
        else do
          let reading ← readLoop advance_position (size + 1 - copied) 0
            current_time (behind ++ [buffer]) rest
          return { reading with data := data ++ reading.data }
      -- All of the size is read.
      else some ⟨data, behind, buffer :: rest, offset, current_time⟩

/-- `InternalRead`: the bytes that are read. -/
def internalRead (size : Nat) (advance_position : Bool) : Option (Bytes × SeekableBuffer) := do
  let reading ← readLoop advance_position size self.current_buffer_offset
    self.current_time self.behind self.ahead
  if advance_position then
    let taken := reading.data.length
    let current_time ← updateCurrentTime reading.current_time reading.ahead reading.offset
    let (backward_bytes, behind) := evictBackwardBuffers self.backward_capacity
      (self.backward_bytes + taken) reading.behind
    return (reading.data, { self with
      behind
      ahead := reading.ahead
      current_buffer_offset := reading.offset
      backward_bytes
      forward_bytes := self.forward_bytes - taken
      current_time })
  else return (reading.data, self)

def read (size : Nat) : Option (Bytes × SeekableBuffer) := self.internalRead size true

def peek (size : Nat) : Option (Bytes × SeekableBuffer) := self.internalRead size false

/-- The loop of `GetCurrentChunk`. -/
def chunkLoop : Nat -> List Buffer -> Option Bytes
  | _, [] => none
  | offset, buffer :: rest =>
    if offset ≥ buffer.getDataSize then chunkLoop 0 rest
    else some (buffer.data.drop offset)

def getCurrentChunk : Option Bytes := chunkLoop self.current_buffer_offset self.ahead

/-- `Append`, for a buffer. -/
def append (buffer_in : Buffer) : Bool × SeekableBuffer :=
  let current_time :=
    if self.behind = [] ∧ self.ahead = [] ∧ buffer_in.timestamp > 0 then buffer_in.timestamp
    else self.current_time
  let (behind, ahead) :=
    match self.ahead with
    | [] => ([], self.behind ++ [buffer_in])
    | _ :: _ => (self.behind, self.ahead ++ [buffer_in])
  let forward_bytes := self.forward_bytes + buffer_in.getDataSize
  (decide (forward_bytes < self.forward_capacity),
    { self with behind, ahead, forward_bytes, current_time })

/-- `Append`, for data. -/
def appendData (data : Bytes) : Bool × SeekableBuffer :=
  if data.length > 0 then self.append ⟨0, 0, data⟩
  else (decide (self.forward_bytes < self.forward_capacity), self)

/-- `SeekForward`. -/
def seekForward (size : Nat) : Option (Bool × SeekableBuffer) := do
  if size > self.forward_bytes then return (false, self)
  else
    let (_, next) ← self.internalRead size true
    return (true, next)

/-- The loop of `SeekBackward`, which visits the buffers in front of the current
one from the nearest on. -/
def rewindLoop : Nat -> Nat -> List Buffer -> List Buffer -> Nat × Nat × List Buffer × List Buffer
  | 0, offset, nearest, ahead => (0, offset, nearest, ahead)
  | size + 1, offset, [], ahead =>
    (size + 1 - min (size + 1) offset, offset - min (size + 1) offset, [], ahead)
  | size + 1, offset, previous :: nearest, ahead =>
    let consumed := min (size + 1) offset
    if offset - consumed = 0 then
      rewindLoop (size + 1 - consumed) previous.getDataSize nearest (previous :: ahead)
    else (size + 1 - consumed, offset - consumed, previous :: nearest, ahead)

/-- `SeekBackward`. -/
def seekBackward (size : Nat) : Option (Bool × SeekableBuffer) := do
  if size > self.backward_bytes then return (false, self)
  else
    let (remaining, offset, nearest, ahead) := rewindLoop size
      self.current_buffer_offset self.behind.reverse self.ahead
    let taken := size - remaining
    let current_time ← updateCurrentTime self.current_time ahead offset
    return (true, { self with
      behind := nearest.reverse
      ahead
      current_buffer_offset := offset
      backward_bytes := self.backward_bytes - taken
      forward_bytes := self.forward_bytes + taken
      current_time })

/-- `Seek`, for an `int32`, which is converted to a size. -/
def seek (offset : BitVec 32) : Option (Bool × SeekableBuffer) :=
  if offset.toInt > 0 then self.seekForward (offset.signExtend 64).toNat
  else if offset.toInt < 0 then self.seekBackward ((-offset).signExtend 64).toNat
  else some (true, self)

end SeekableBuffer
end Chromium.Media
