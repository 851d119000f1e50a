import Chromium.Library.Tape
import Chromium.Media.SeekableBuffer

/-!
# Runs of seekable buffers

A seekable buffer is a tape of bytes, unless the cursor comes to a buffer that
has a timestamp and no data, or is to be moved back by 2^31 bytes.
-/

namespace Chromium.Media.SeekableBuffer

open List Option
open Library (Tape)

inductive Call
  | append (buffer : Buffer)
  | appendData (data : Bytes)
  | read (size : Nat)
  | peek (size : Nat)
  | getCurrentChunk
  | seek (offset : BitVec 32)
  | clear
deriving DecidableEq

inductive Output
  | flag (result : Bool)
  | bytes (data : Bytes)
  | chunk (data : Option Bytes)
  | none
deriving DecidableEq

def perform (seekable : SeekableBuffer) : Call -> Option (Output × SeekableBuffer)
  | .append buffer =>
    let (result, next) := seekable.append buffer
    some (.flag result, next)
  | .appendData data =>
    let (result, next) := seekable.appendData data
    some (.flag result, next)
  | .read size => do
      let (data, next) ← seekable.read size
      return (.bytes data, next)
  | .peek size => do
      let (data, next) ← seekable.peek size
      return (.bytes data, next)
  | .getCurrentChunk => some (.chunk seekable.getCurrentChunk, seekable)
  | .seek offset => do
      let (result, next) ← seekable.seek offset
      return (.flag result, next)
  | .clear => some (.none, seekable.clear)

/-- The bytes of a tape that is sought through. -/
inductive Sought (tape : Tape UInt8) (offset : Int) : Bool -> Tape UInt8 -> Prop
  | forward {next : Tape UInt8} (count : Nat) (isOffset : offset = count)
      (enough : count <= tape.ahead.length) (moved : tape.Forward next count) :
      Sought tape offset true next
  | back {next : Tape UInt8} (count : Nat) (isOffset : offset = -count)
      (enough : count <= tape.retained) (moved : tape.Back next count) :
      Sought tape offset true next
  | outside (tooFar : tape.ahead.length < offset ∨ offset < -tape.retained) :
      Sought tape offset false tape

/-- What a call gives and how it changes the tape. -/
inductive Answers (forward_capacity : Nat) (tape : Tape UInt8) : Call → Output → Tape UInt8 → Prop
  | append (buffer : Buffer) : Answers forward_capacity tape (.append buffer)
        (.flag (decide ((tape.append buffer.data).ahead.length < forward_capacity)))
        (tape.append buffer.data)
  | appendData (data : Bytes) : Answers forward_capacity tape (.appendData data)
        (.flag (decide ((tape.append data).ahead.length < forward_capacity)))
        (tape.append data)
  | read {next : Tape UInt8} (size : Nat) (moved : tape.Forward next (min size tape.ahead.length)) :
      Answers forward_capacity tape (.read size) (.bytes (tape.ahead.take size)) next
  | peek (size : Nat) : Answers forward_capacity tape (.peek size)
        (.bytes (tape.ahead.take size)) tape
  | chunk (data : Bytes) (nonempty : data ≠ []) (isFront : data <+: tape.ahead) :
      Answers forward_capacity tape .getCurrentChunk (.chunk (some data)) tape
  | noChunk (nothing : tape.ahead = []) :
      Answers forward_capacity tape .getCurrentChunk (.chunk none) tape
  | seek {next : Tape UInt8} (offset : BitVec 32) (result : Bool)
      (sought : Sought tape offset.toInt result next) :
      Answers forward_capacity tape (.seek offset) (.flag result) next
  | clear : Answers forward_capacity tape .clear .none .empty

/-- The bytes of buffers. -/
def bytesOf (buffers : List Buffer) : Bytes := buffers.flatMap Buffer.data

/-- The counters of a buffer are those of a tape, and its bytes are those
retained and those behind the cursor. -/
structure Represents (seekable : SeekableBuffer) (tape : Tape UInt8) : Prop where
  forward_bytes : seekable.forward_bytes = tape.ahead.length
  backward_bytes : seekable.backward_bytes = tape.retained
  window : bytesOf seekable.behind ++ bytesOf seekable.ahead = tape.window
  position : (bytesOf seekable.behind).length + seekable.current_buffer_offset = tape.retained
  current : match seekable.ahead with
    | [] => seekable.behind = [] ∧ seekable.current_buffer_offset = 0
    | buffer :: _ => seekable.current_buffer_offset <= buffer.getDataSize

/-- The calls do what they do to a tape. A refused seek changes nothing. -/
def Refines : SeekableBuffer -> Tape UInt8 -> List Call -> Prop
  | seekable, tape, [] => seekable.Represents tape
  | seekable, tape, call :: calls =>
    seekable.Represents tape ∧ ∃ output next nextTape, seekable.perform call = some (output, next) ∧
        Answers seekable.forward_capacity tape call output nextTape ∧
        (∀ offset, call = .seek offset -> output = .flag false -> next = seekable) ∧
        Refines next nextTape calls

/-- A buffer with a timestamp has data. -/
def Timed (buffer : Buffer) : Prop := buffer.timestamp > 0 -> buffer.data ≠ []

/-- The buffers between an offset into the first of them and a number of bytes
behind it. -/
def touched : Nat -> Nat -> List Buffer -> List Buffer
  | _, _, [] => []
  | size, offset, buffer :: rest =>
    buffer :: if 0 < size ∧ buffer.getDataSize - offset <= size then
        touched (size - (buffer.getDataSize - offset)) 0 rest
      else []

/-- The buffer that is a number of bytes in front of an offset into another. -/
def stop : Nat -> Nat -> Buffer -> List Buffer -> Buffer
  | _, _, current, [] => current
  | size, offset, current, previous :: nearest =>
    if 0 < size ∧ offset <= size then stop (size - offset) previous.getDataSize previous nearest
    else current

/-- The cursor does not come to a buffer that has a timestamp and no data, and
is not to be moved back by 2^31 bytes that are there. -/
def Passes (seekable : SeekableBuffer) : Call -> Prop
  | .read size =>
    ∀ buffer ∈ touched size seekable.current_buffer_offset seekable.ahead, Timed buffer
  | .seek offset =>
    (0 < offset.toInt -> offset.toInt <= seekable.forward_bytes ->
      ∀ buffer ∈ touched offset.toInt.toNat seekable.current_buffer_offset
        seekable.ahead, Timed buffer) ∧
    (offset.toInt < 0 -> -offset.toInt <= seekable.backward_bytes ->
      offset.toInt ≠ -2 ^ 31 ∧ ∀ current ∈ seekable.ahead.head?,
        Timed (stop (-offset.toInt).toNat seekable.current_buffer_offset current
          seekable.behind.reverse))
  | _ => True

/-- All calls of a run pass. -/
def AllPass : SeekableBuffer -> List Call -> Prop
  | _, [] => True
  | seekable, call :: calls =>
    seekable.Passes call ∧
      ∀ output next, seekable.perform call = some (output, next) -> AllPass next calls

theorem updateCurrentTime_of_timed (timed : ∀ buf ∈ current.head?, Timed buf)
    {current_time : Int} :
    ∃ time, updateCurrentTime current_time current offset = some time := by
  cases current with
  | nil => exact ⟨_, rfl⟩
  | cons buf rest =>
    rw [updateCurrentTime]
    split_ifs with stamped empty
    · exact absurd (length_eq_zero_iff.mp empty) (timed buf rfl stamped)
    · exact ⟨_, rfl⟩
    · exact ⟨_, rfl⟩

theorem updateCurrentTime_of_not_timed (notTimed : ¬ Timed buf) (current_time : Int) :
    updateCurrentTime current_time (buf :: rest) offset = none := by
  rw [Timed, Classical.not_imp, not_not] at notTimed
  have empty : buf.getDataSize = 0 := by
    rw [Buffer.getDataSize, notTimed.2]
    rfl
  rw [updateCurrentTime, if_pos notTimed.1, if_pos empty]

theorem bytesOf_cons : bytesOf (buf :: rest) = buf.data ++ bytesOf rest :=
  flatMap_cons

theorem bytesOf_append : bytesOf (front ++ back) = bytesOf front ++ bytesOf back :=
  flatMap_append

theorem bytesOf_singleton : bytesOf [buffer] = buffer.data := by
  rw [bytesOf_cons, bytesOf, flatMap_nil, append_nil]

/-- What is read, and where reading ends. -/
structure Reads (size offset : Nat) (behind ahead : List Buffer) (reading : Reading) : Prop where
  data : reading.data = ((bytesOf ahead).drop offset).take size
  bytes : bytesOf reading.behind ++ bytesOf reading.ahead = bytesOf behind ++ bytesOf ahead
  position : (bytesOf reading.behind).length + reading.offset =
    (bytesOf behind).length + offset + reading.data.length
  current : match reading.ahead with
    | [] => ahead = [] ∧ reading.behind = behind ∧ reading.offset = offset
    | buffer :: _ => reading.offset <= buffer.getDataSize
  touches : ∀ buffer ∈ reading.ahead.head?, buffer ∈ touched size offset ahead

theorem Reads.stay (inside : off ≤ buf.getDataSize) {behind : List Buffer} :
    Reads 0 off behind (buf :: rest) ⟨[], behind, buf :: rest, off, time⟩ where
  data := List.take_zero.symm
  bytes := rfl
  position := rfl
  current := inside
  touches := by
    intro other isHead
    cases isHead
    exact mem_cons_self

/-- Reading ends in front of the end of a buffer. -/
theorem Reads.part
    (fewer : off + size < buf.getDataSize) (behind rest : List Buffer) (time : Int) :
    Reads size off behind (buf :: rest)
      ⟨(buf.data.drop off).take size, behind, buf :: rest, off + size, time⟩ := by
  rw [Buffer.getDataSize] at fewer
  have enough : size <= (buf.data.drop off).length := by
    rw [length_drop]
    omega
  refine ⟨?_, rfl, ?_, ?_, ?_⟩
  · rw [bytesOf_cons, drop_append_of_le_length (by omega), take_append_of_le_length enough]
  · dsimp only
    rw [length_take_of_le enough, Nat.add_assoc]
  · dsimp only
    rw [Buffer.getDataSize]
    omega
  · intro other isHead
    cases isHead
    exact mem_cons_self

/-- Reading ends at the end of the last buffer. -/
theorem Reads.last {size off : Nat} {buf : Buffer} (inside : off <= buf.getDataSize)
    (enough : buf.getDataSize <= off + size) (behind : List Buffer) (time : Int) :
    Reads size off behind [buf]
      ⟨buf.data.drop off, behind, [buf], buf.getDataSize, time⟩ := by
  rw [Buffer.getDataSize] at inside enough
  refine ⟨?_, rfl, ?_, le_rfl, ?_⟩
  · rw [bytesOf_singleton, take_of_length_le]
    rw [length_drop]
    omega
  · dsimp only
    rw [length_drop, Buffer.getDataSize]
    omega
  · intro other isHead
    cases isHead
    exact mem_cons_self

/-- Reading goes on in the next buffer. -/
theorem Reads.next {size off : Nat} {buf : Buffer} {behind rest : List Buffer}
    {reading : Reading} (pos : 0 < size)
    (inside : off <= buf.getDataSize)
    (enough : buf.getDataSize <= off + size) (ne : rest ≠ [])
    (reads : Reads (size - (buf.getDataSize - off)) 0 (behind ++ [buf]) rest reading) :
    Reads size off behind (buf :: rest)
      { reading with data := buf.data.drop off ++ reading.data } := by
  have length : (buf.data.drop off).length = buf.getDataSize - off := length_drop
  refine ⟨?_, ?_, ?_, ?_, ?_⟩
  · have data := reads.data
    rw [drop_zero] at data
    rw [bytesOf_cons, drop_append_of_le_length inside, take_append,
      take_of_length_le (by omega), data, length]
  · have bytes := reads.bytes
    rw [bytesOf_append, bytesOf_singleton, append_assoc] at bytes
    exact bytes
  · have position := reads.position
    rw [bytesOf_append, bytesOf_singleton, length_append] at position
    rw [Buffer.getDataSize] at length inside
    dsimp only
    rw [length_append]
    omega
  · have cur := reads.current
    split
    next isEnd =>
      rw [isEnd] at cur
      exact absurd cur.1 ne
    next other later isAhead =>
      rw [isAhead] at cur
      exact cur
  · intro other isHead
    rw [touched, if_pos ⟨pos, by omega⟩]
    exact mem_cons_of_mem _ (reads.touches other isHead)

theorem readLoop_reads (advance_position : Bool) (ahead : List Buffer) :
    ∀ {size off current_time behind}, (∀ buf ∈ ahead.head?, off <= buf.getDataSize) ->
      (advance_position = true -> ∀ buf ∈ touched size off ahead, Timed buf) ->
      ∃ reading, readLoop advance_position size off current_time behind ahead = some reading ∧
        Reads size off behind ahead reading := by
  induction ahead with
  | nil =>
    intro size off current_time behind _ _
    refine ⟨⟨[], behind, [], off, current_time⟩, ?_, ?_, rfl, rfl,
      ⟨rfl, rfl, rfl⟩, fun buf isHead => by cases isHead⟩
    · cases size <;> rfl
    · rw [bytesOf, flatMap_nil, drop_nil, take_nil]
  | cons buf rest ih =>
    intro size off current_time behind inside timed
    have within := inside buf rfl
    cases size with
    | zero => exact ⟨_, rfl, .stay within⟩
    | succ size =>
      rw [readLoop]
      rcases Nat.lt_or_ge (off + (size + 1)) buf.getDataSize with
        fewer | enough
      · have copied : min (size + 1) (buf.getDataSize - off) = size + 1 := by omega
        rw [copied, if_neg (by omega)]
        exact ⟨_, rfl, .part fewer behind rest current_time⟩
      · have copied : min (size + 1) (buf.getDataSize - off) =
            buf.getDataSize - off := by omega
        have all : (buf.data.drop off).take
            (buf.getDataSize - off) = buf.data.drop off := by
          rw [take_of_length_le]
          rw [length_drop]
          exact le_rfl
        have isEnd : off + (buf.getDataSize - off) = buf.getDataSize := by omega
        rw [touched, if_pos ⟨Nat.succ_pos _, by omega⟩] at timed
        obtain ⟨time, updates⟩ : ∃ time, (if advance_position then
              updateCurrentTime current_time (buf :: rest) buf.getDataSize
            else some current_time) = some time := by
          split_ifs with advances
          · refine updateCurrentTime_of_timed ?_
            intro other isHead
            cases isHead
            exact timed advances buf mem_cons_self
          · exact ⟨_, rfl⟩
        rw [copied, isEnd, if_pos rfl, all, updates, bind_eq_bind, bind_some]
        cases rest with
        | nil => exact ⟨_, rfl, .last within enough behind time⟩
        | cons next later =>
          obtain ⟨reading, reads, isReading⟩ := @ih
            (size + 1 - (buf.getDataSize - off)) 0 time
            (behind ++ [buf]) (fun _ _ => Nat.zero_le _)
            (fun advances other mem => timed advances other (mem_cons_of_mem _ mem))
          rw [reads]
          exact ⟨_, rfl, .next (Nat.succ_pos _) within enough (cons_ne_nil _ _) isReading⟩

/-- Reading fails at a buffer that has a timestamp and no data, or ends
there. -/
theorem readLoop_of_not_timed (ahead : List Buffer) : ∀ {size off current_time behind buf},
      (∀ cur ∈ ahead.head?, off ≤ cur.getDataSize) → buf ∈ touched size off ahead →
      ¬ Timed buf ->
      readLoop true size off current_time behind ahead = none ∨ ∃ reading cur rest,
          readLoop true size off current_time behind ahead = some reading ∧
            reading.ahead = cur :: rest ∧ ¬ Timed cur := by
  induction ahead with
  | nil =>
    intro size off current_time behind buf _ mem _
    cases mem
  | cons first rest ih =>
    intro size off current_time behind buf inside mem notTimed
    have within := inside first rfl
    rw [touched] at mem
    cases size with
    | zero =>
      rw [if_neg (fun both => Nat.lt_irrefl _ both.1), mem_singleton] at mem
      exact .inr ⟨_, first, rest, rfl, rfl, mem ▸ notTimed⟩
    | succ size =>
      rw [readLoop]
      rcases Nat.lt_or_ge (off + (size + 1)) first.getDataSize with
        fewer | enough
      · rw [if_neg (fun both => by omega), mem_singleton] at mem
        have copied : min (size + 1) (first.getDataSize - off) = size + 1 := by omega
        rw [copied, if_neg (by omega)]
        exact .inr ⟨_, first, rest, rfl, rfl, mem ▸ notTimed⟩
      · rw [if_pos ⟨Nat.succ_pos _, by omega⟩] at mem
        have copied : min (size + 1) (first.getDataSize - off) =
            first.getDataSize - off := by omega
        have isEnd : off + (first.getDataSize - off) = first.getDataSize := by omega
        rw [copied, isEnd, if_pos rfl, if_pos rfl]
        by_cases timed : Timed first
        · have later : buf ∈ touched (size + 1 - (first.getDataSize - off)) 0 rest := by
            rcases mem_cons.mp mem with rfl | later
            · exact absurd timed notTimed
            · exact later
          obtain ⟨time, updates⟩ := updateCurrentTime_of_timed
            (show ∀ other ∈ (first :: rest).head?, Timed other by
              intro other isHead
              cases isHead
              exact timed)
          rw [updates, bind_eq_bind, bind_some]
          cases rest with
          | nil => cases later
          | cons next more =>
            rcases @ih _ 0 time (behind ++ [first]) buf
              (fun _ _ => Nat.zero_le _) later notTimed with
              fails | ⟨reading, cur, behindIt, reads, isAhead, bad⟩
            · rw [fails]
              exact .inl rfl
            · rw [reads]
              exact .inr ⟨_, cur, behindIt, rfl, isAhead, bad⟩
        · rw [updateCurrentTime_of_not_timed timed]
          exact .inl rfl

/-- Where rewinding ends. -/
structure Rewinds (size offset : Nat) (nearest ahead : List Buffer)
    (result : Nat × Nat × List Buffer × List Buffer) : Prop where
  done : result.1 = 0
  buffers : result.2.2.1.reverse ++ result.2.2.2 = nearest.reverse ++ ahead
  position : (bytesOf result.2.2.1.reverse).length + result.2.1 + size =
    (bytesOf nearest.reverse).length + offset
  stops : ∀ current ∈ ahead.head?, result.2.2.2.head? = some (stop size offset current nearest) ∧
      (offset ≤ current.getDataSize → result.2.1 ≤ (stop size offset current nearest).getDataSize)

theorem rewindLoop_rewinds (nearest : List Buffer) :
    ∀ {size off ahead}, size <= (bytesOf nearest.reverse).length + off ->
      Rewinds size off nearest ahead (rewindLoop size off nearest ahead) := by
  induction nearest with
  | nil =>
    intro size off ahead enough
    have within : size <= off := by
      rw [reverse_nil, bytesOf, flatMap_nil, length_nil] at enough
      omega
    cases size with
    | zero => exact ⟨rfl, rfl, rfl, fun cur isHead => ⟨isHead, id⟩⟩
    | succ size =>
      rw [rewindLoop, Nat.min_eq_left within]
      refine ⟨Nat.sub_self _, rfl, ?_, fun cur isHead => ⟨isHead, ?_⟩⟩
      · dsimp only
        omega
      · rw [stop]
        dsimp only
        omega
  | cons prev nearest ih =>
    intro size off ahead enough
    have length : (bytesOf (prev :: nearest).reverse).length =
        (bytesOf nearest.reverse).length + prev.getDataSize := by
      rw [reverse_cons, bytesOf_append, bytesOf_singleton, length_append]
      rfl
    cases size with
    | zero =>
      refine ⟨rfl, rfl, rfl, fun cur isHead => ?_⟩
      exact ⟨isHead, id⟩
    | succ size =>
      rw [rewindLoop]
      rcases Nat.lt_or_ge (size + 1) off with fewer | through
      · rw [Nat.min_eq_left fewer.le, if_neg (by omega), Nat.sub_self]
        refine ⟨rfl, rfl, ?_, fun cur isHead => ?_⟩
        · dsimp only
          omega
        · rw [stop, if_neg (fun both => by omega)]
          refine ⟨isHead, ?_⟩
          dsimp only
          omega
      · rw [Nat.min_eq_right through, if_pos (Nat.sub_self _)]
        have rewinds := @ih (size + 1 - off) prev.getDataSize (prev :: ahead) (by omega)
        refine ⟨rewinds.done, ?_, ?_, fun cur isHead => ?_⟩
        · rw [rewinds.buffers, reverse_cons, append_assoc]
          rfl
        · have pos := rewinds.position
          omega
        · have stops := rewinds.stops prev rfl
          rw [stop, if_pos ⟨Nat.succ_pos _, through⟩]
          exact ⟨stops.1, fun _ => stops.2 le_rfl⟩

/-- The buffers that are evicted, and what is left. -/
theorem evictBackwardBuffers_eq {backward_capacity : Nat} {behind : List Buffer} :
    ∀ {backward_bytes}, (bytesOf behind).length <= backward_bytes -> ∃ evicted,
        evicted ++ (evictBackwardBuffers backward_capacity backward_bytes behind).2 = behind ∧
        (evictBackwardBuffers backward_capacity backward_bytes behind).1 +
          (bytesOf evicted).length = backward_bytes := by
  induction behind with
  | nil => exact fun _ => ⟨[], rfl, rfl⟩
  | cons buf behind ih =>
    intro backward_bytes enough
    rw [bytesOf_cons, length_append] at enough
    rw [evictBackwardBuffers]
    split_ifs with tooMany
    · obtain ⟨evicted, buffers, counts⟩ :=
        @ih (backward_bytes - buf.getDataSize) (by
          rw [Buffer.getDataSize]
          omega)
      refine ⟨buf :: evicted, ?_, ?_⟩
      · rw [cons_append, buffers]
      · rw [bytesOf_cons, length_append, ← Nat.add_assoc,
          Nat.add_right_comm, counts, Buffer.getDataSize]
        omega
    · exact ⟨[], rfl, rfl⟩

theorem start_represents {backward_capacity forward_capacity : Nat} :
    Represents { backward_capacity, forward_capacity } .empty where
  forward_bytes := rfl
  backward_bytes := rfl
  window := rfl
  position := rfl
  current := ⟨rfl, rfl⟩

variable {seekable : SeekableBuffer} {tape : Tape UInt8}

section

variable (represents : seekable.Represents tape)
include represents

theorem Represents.inside :
    ∀ buf ∈ seekable.ahead.head?, seekable.current_buffer_offset <= buf.getDataSize := by
  intro buf isHead
  obtain ⟨rest, isAhead⟩ := List.head?_eq_some_iff.mp isHead
  have cur := represents.current
  rw [isAhead] at cur
  exact cur

theorem Represents.ahead :
    (bytesOf seekable.ahead).drop seekable.current_buffer_offset = tape.ahead := by
  have pos := represents.position
  have front : (bytesOf seekable.behind).drop tape.retained = [] := drop_eq_nil_of_le (by omega)
  have off : tape.retained - (bytesOf seekable.behind).length =
      seekable.current_buffer_offset := by omega
  rw [← Tape.drop_window, ← represents.window, drop_append, front, off, nil_append]

theorem Represents.append (buf : Buffer) :
    (seekable.append buf).1 = decide ((tape.append buf.data).ahead.length <
          seekable.forward_capacity) ∧
      (seekable.append buf).2.Represents (tape.append buf.data) ∧
      (seekable.append buf).2.forward_capacity = seekable.forward_capacity := by
  have forward : seekable.forward_bytes + buf.getDataSize =
      (tape.append buf.data).ahead.length := by
    rw [Tape.append_ahead, length_append, represents.forward_bytes]
    rfl
  obtain ⟨behind, ahead, off, _, _, _, _, _⟩ := seekable
  have window := represents.window
  have pos := represents.position
  have cur := represents.current
  cases ahead with
  | nil =>
    obtain ⟨rfl, rfl⟩ := cur
    refine ⟨congrArg (fun bytes => decide (bytes < _)) forward,
      ⟨forward, represents.backward_bytes, ?_, pos, Nat.zero_le _⟩, rfl⟩
    rw [Tape.append_window, ← window]
    dsimp only [append]
    rw [nil_append, bytesOf_singleton]
    rfl
  | cons first rest =>
    refine ⟨congrArg (fun bytes => decide (bytes < _)) forward,
      ⟨forward, represents.backward_bytes, ?_, pos, cur⟩, rfl⟩
    rw [Tape.append_window, ← window]
    dsimp only [append]
    rw [bytesOf_append, bytesOf_singleton, append_assoc]

theorem Represents.peek (size : Nat) :
    seekable.peek size = some (tape.ahead.take size, seekable) := by
  obtain ⟨reading, reads, isReading⟩ := readLoop_reads false seekable.ahead
    represents.inside (fun advances => absurd advances Bool.false_ne_true)
  rw [SeekableBuffer.peek, internalRead, reads, bind_eq_bind, bind_some,
    if_neg Bool.false_ne_true, isReading.data, represents.ahead]
  rfl

theorem Represents.read {size : Nat}
    (timed : ∀ buf ∈ touched size seekable.current_buffer_offset seekable.ahead, Timed buf) :
    ∃ next nextTape, seekable.internalRead size true = some (tape.ahead.take size, next) ∧
      tape.Forward nextTape (min size tape.ahead.length) ∧ next.Represents nextTape ∧
      next.forward_capacity = seekable.forward_capacity := by
  obtain ⟨reading, reads, isReading⟩ := @readLoop_reads true seekable.ahead
    size _ seekable.current_time seekable.behind represents.inside (fun _ => timed)
  have data := isReading.data
  rw [represents.ahead] at data
  have taken : reading.data.length = min size tape.ahead.length := by rw [data, length_take]
  have before := represents.position
  have pos := isReading.position
  obtain ⟨time, updates⟩ := updateCurrentTime_of_timed
    (fun buf isHead => timed buf (isReading.touches buf isHead))
  obtain ⟨evicted, buffers, counts⟩ := evictBackwardBuffers_eq
      (show (bytesOf reading.behind).length ≤ seekable.backward_bytes + reading.data.length by
        rw [represents.backward_bytes]
        omega)
  generalize evicts : evictBackwardBuffers seekable.backward_capacity
    (seekable.backward_bytes + reading.data.length) reading.behind = kept at *
  obtain ⟨backward_bytes, behind⟩ := kept
  dsimp only at buffers counts
  rw [represents.backward_bytes] at counts
  obtain ⟨nextTape, moved, retained, window, ahead⟩ :=
    @Tape.exists_forward _ tape reading.data.length backward_bytes (by omega) (by omega)
  refine ⟨{ seekable with
      behind
      ahead := reading.ahead
      current_buffer_offset := reading.offset
      backward_bytes
      forward_bytes := seekable.forward_bytes - reading.data.length
      current_time := time },
    nextTape, ?_, taken ▸ moved, ⟨?_, retained.symm, ?_, ?_, ?_⟩, rfl⟩
  rotate_left
  · dsimp only
    rw [ahead, length_drop, represents.forward_bytes]
  · have whole := isReading.bytes
    rw [represents.window, ← buffers, bytesOf_append, append_assoc] at whole
    have dropped : tape.retained + reading.data.length - backward_bytes =
        (bytesOf evicted).length := by omega
    rw [window, ← whole, dropped, drop_left]
  · have length := congrArg (length ∘ bytesOf) buffers
    rw [Function.comp_apply, Function.comp_apply, bytesOf_append, length_append] at length
    dsimp only
    omega
  · have cur := isReading.current
    dsimp only
    split
    next isEnd =>
      rw [isEnd] at cur
      have nothing := represents.current
      rw [cur.1] at nothing
      have none_ : reading.behind = [] := cur.2.1.trans nothing.1
      rw [none_, append_eq_nil_iff] at buffers
      exact ⟨buffers.2, cur.2.2.trans nothing.2⟩
    next buf rest isAhead =>
      rw [isAhead] at cur
      exact cur
  · rw [internalRead, reads, bind_eq_bind, bind_some, if_pos rfl]
    rw [updates, bind_eq_bind, bind_some, evicts, data]
    rfl

/-- Reading fails at a buffer that has a timestamp and no data. -/
theorem Represents.internalRead_eq_none
    (mem : buffer ∈ touched size seekable.current_buffer_offset seekable.ahead)
    (notTimed : ¬ Timed buffer) :
    seekable.internalRead size true = none := by
  rcases @readLoop_of_not_timed _ size _ seekable.current_time seekable.behind _
    represents.inside mem notTimed with
    fails | ⟨reading, cur, rest, reads, isAhead, bad⟩
  · rw [internalRead, fails]
    rfl
  · rw [internalRead, reads, bind_eq_bind, bind_some, if_pos rfl]
    rw [isAhead, updateCurrentTime_of_not_timed bad]
    rfl

end

/-- The next chunk is the rest of the first buffer with bytes. -/
theorem chunkLoop_eq {ahead : List Buffer} :
    ∀ {off}, (∀ buf ∈ ahead.head?, off <= buf.getDataSize) ->
      match chunkLoop off ahead with
      | none => (bytesOf ahead).drop off = []
      | some data => data ≠ [] ∧ data <+: (bytesOf ahead).drop off := by
  induction ahead with
  | nil => exact fun _ => drop_nil
  | cons buf rest ih =>
    intro off inside
    have within := inside buf rfl
    rw [chunkLoop, bytesOf_cons, drop_append_of_le_length within]
    split_ifs with isEnd
    · rw [Buffer.getDataSize] at isEnd
      rw [drop_eq_nil_of_le isEnd, nil_append]
      exact @ih 0 (fun _ _ => Nat.zero_le _)
    · refine ⟨?_, prefix_append _ _⟩
      rw [ne_eq, drop_eq_nil_iff]
      exact isEnd

theorem Represents.back (represents : seekable.Represents tape) {size : Nat}
    (enough : size <= tape.retained) (timed : ∀ cur ∈ seekable.ahead.head?,
      Timed (stop size seekable.current_buffer_offset cur seekable.behind.reverse)) :
    ∃ next nextTape, seekable.seekBackward size = some (true, next) ∧ tape.Back nextTape size ∧
      next.Represents nextTape ∧ next.forward_capacity = seekable.forward_capacity := by
  have before := represents.position
  have rewinds := @rewindLoop_rewinds seekable.behind.reverse size
    seekable.current_buffer_offset seekable.ahead (by
      rw [reverse_reverse]
      omega)
  have taken : ¬ size > seekable.backward_bytes := by
    rw [represents.backward_bytes]
    omega
  generalize isResult : rewindLoop size seekable.current_buffer_offset
    seekable.behind.reverse seekable.ahead = result at *
  obtain ⟨remaining, off, nearest, ahead⟩ := result
  have done : remaining = 0 := rewinds.done
  have pos := rewinds.position
  have buffers := rewinds.buffers
  have stops := rewinds.stops
  subst done
  rw [reverse_reverse] at pos buffers
  dsimp only at pos buffers stops
  -- The buffer that rewinding ends in is the one that is looked at.
  have ends : (ahead = [] -> nearest.reverse = [] ∧ off = 0) ∧
      ∀ buf ∈ ahead.head?, off <= buf.getDataSize ∧ Timed buf := by
    cases isAhead : seekable.ahead with
    | nil =>
      have nothing := represents.current
      rw [isAhead] at nothing buffers
      rw [nothing.1, append_nil, append_eq_nil_iff] at buffers
      rw [nothing.1, nothing.2] at pos
      rw [buffers.2]
      refine ⟨fun _ => ⟨buffers.1, ?_⟩, fun buf isHead => by cases isHead⟩
      have none_ : (bytesOf []).length = 0 := rfl
      omega
    | cons cur rest =>
      have isHead : cur ∈ seekable.ahead.head? := by
        rw [isAhead]
        rfl
      obtain ⟨isStop, within⟩ := stops cur isHead
      obtain ⟨later, rfl⟩ := List.head?_eq_some_iff.mp isStop
      refine ⟨fun empty => (by cases empty), fun buf isBuffer => ?_⟩
      cases isBuffer
      exact ⟨within (represents.inside cur isHead), timed cur isHead⟩
  obtain ⟨time, updates⟩ := updateCurrentTime_of_timed
    (fun buf isHead => (ends.2 buf isHead).2)
  obtain ⟨nextTape, moved, window, length⟩ := Tape.exists_back enough
  have retained := moved.retained
  refine ⟨{ seekable with
      behind := nearest.reverse
      ahead
      current_buffer_offset := off
      backward_bytes := seekable.backward_bytes - size
      forward_bytes := seekable.forward_bytes + size
      current_time := time },
    nextTape, ?_, moved, ⟨?_, ?_, ?_, ?_, ?_⟩, rfl⟩
  · rw [seekBackward, if_neg taken, isResult]
    dsimp only
    rw [updates]
    rfl
  · dsimp only
    rw [represents.forward_bytes, length]
  · dsimp only
    rw [represents.backward_bytes]
    omega
  · dsimp only
    rw [window, ← represents.window, ← bytesOf_append, buffers, bytesOf_append]
  · dsimp only
    omega
  · dsimp only
    split
    · exact ends.1 rfl
    · exact (ends.2 _ rfl).1

/-- Moving back fails at a buffer that has a timestamp and no data. -/
theorem Represents.seekBackward_eq_none (represents : seekable.Represents tape) {cur : Buffer}
    (enough : size <= tape.retained) (isHead : cur ∈ seekable.ahead.head?)
    (notTimed : ¬ Timed (stop size seekable.current_buffer_offset cur
      seekable.behind.reverse)) :
    seekable.seekBackward size = none := by
  have before := represents.position
  have rewinds := @rewindLoop_rewinds seekable.behind.reverse size
    seekable.current_buffer_offset seekable.ahead (by
      rw [reverse_reverse]
      omega)
  have taken : ¬ size > seekable.backward_bytes := by
    rw [represents.backward_bytes]
    omega
  obtain ⟨isStop, _⟩ := rewinds.stops cur isHead
  obtain ⟨later, isAhead⟩ := List.head?_eq_some_iff.mp isStop
  rw [seekBackward, if_neg taken]
  dsimp only
  rw [isAhead, updateCurrentTime_of_not_timed notTimed]
  rfl

theorem signExtend_toNat {off : BitVec 32} (pos : 0 <= off.toInt) :
    (off.signExtend 64).toNat = off.toInt.toNat := by
  have extended : (off.signExtend 64).toInt = off.toInt :=
    BitVec.toInt_signExtend_of_le (by decide)
  rw [BitVec.toInt_eq_toNat_cond] at extended
  split at extended
  · omega
  · have small := (off.signExtend 64).isLt
    omega

theorem negated_toNat {off : BitVec 32} (negative : off.toInt < 0)
    (notLeast : off.toInt ≠ -2 ^ 31) :
    ((-off).signExtend 64).toNat = (-off.toInt).toNat := by
  have negated : (-off).toInt = -off.toInt := by
    have least := BitVec.le_toInt off
    rw [BitVec.toInt_neg, Int.bmod_def]
    omega
  rw [signExtend_toNat (by omega), negated]

theorem negated_least {off : BitVec 32} (least : off.toInt = -2 ^ 31) :
    ((-off).signExtend 64).toNat = 2 ^ 64 - 2 ^ 31 := by
  have same : off = BitVec.ofInt 32 (-2 ^ 31) := by rw [← least, BitVec.ofInt_toInt]
  rw [same]
  decide

section

variable (represents : seekable.Represents tape)
include represents

/-- A seek moves the cursor inside the tape or changes nothing. -/
theorem Represents.seek (passes : seekable.Passes (.seek offset)) :
    ∃ result next nextTape, seekable.seek offset = some (result, next) ∧
      Sought tape offset.toInt result nextTape ∧ (result = false -> next = seekable) ∧
      next.Represents nextTape ∧ next.forward_capacity = seekable.forward_capacity := by
  obtain ⟨forward, back⟩ := passes
  have within := represents.forward_bytes
  have kept := represents.backward_bytes
  rw [SeekableBuffer.seek]
  split_ifs with pos negative
  · rw [signExtend_toNat pos.le, seekForward]
    split_ifs with tooFar
    · refine ⟨false, seekable, tape, rfl, .outside (.inl ?_), fun _ => rfl, represents, rfl⟩
      omega
    · obtain ⟨next, nextTape, reads, moved, onward, capacity⟩ :=
        represents.read (forward pos (by omega))
      rw [Nat.min_eq_left (by omega)] at moved
      refine ⟨true, next, nextTape, ?_, .forward _ ?_ ?_ moved,
        fun isFalse => (by cases isFalse), onward, capacity⟩
      · rw [reads]
        rfl
      · omega
      · omega
  · rcases lt_or_ge (seekable.backward_bytes : Int) (-offset.toInt) with
      tooFar | enough
    · refine ⟨false, seekable, tape, ?_, .outside (.inr ?_), fun _ => rfl, represents, rfl⟩
      · rw [seekBackward]
        refine if_pos ?_
        by_cases least : offset.toInt = -2 ^ 31
        · rw [negated_least least]
          omega
        · rw [negated_toNat negative least]
          omega
      · omega
    · obtain ⟨notLeast, timed⟩ := back negative enough
      obtain ⟨next, nextTape, seeks, moved, onward, capacity⟩ :=
        @Represents.back _ _ represents (-offset.toInt).toNat (by omega) timed
      rw [negated_toNat negative notLeast]
      refine ⟨true, next, nextTape, seeks, .back _ ?_ ?_ moved,
        fun isFalse => (by cases isFalse), onward, capacity⟩
      · omega
      · omega
  · have zero : offset.toInt = 0 := by omega
    refine ⟨true, seekable, tape, rfl, ?_, fun _ => rfl, represents, rfl⟩
    rw [zero]
    exact .forward 0 rfl (Nat.zero_le _) ⟨rfl, rfl, Nat.le_add_right _ _⟩

theorem Represents.perform (passes : seekable.Passes call) :
    ∃ output next nextTape, seekable.perform call = some (output, next) ∧
      Answers seekable.forward_capacity tape call output nextTape ∧
      (∀ off, call = .seek off -> output = .flag false -> next = seekable) ∧
      next.Represents nextTape := by
  cases call with
  | append buf =>
    obtain ⟨result, onward, _⟩ := represents.append buf
    refine ⟨_, _, _, ?_, .append buf, (fun _ isSeek => by cases isSeek), onward⟩
    rw [SeekableBuffer.perform, ← result]
  | appendData data =>
    rcases eq_nil_or_concat' data with rfl | ⟨front, last, isData⟩
    · refine ⟨_, seekable, tape, rfl, ?_, (fun _ isSeek => by cases isSeek), represents⟩
      have same : tape.append [] = tape := by
        rw [Tape.append]
        simp
      have answers : Answers seekable.forward_capacity tape (.appendData []) _ _ := .appendData []
      rw [same, ← represents.forward_bytes] at answers
      exact answers
    · have pos : data.length > 0 := by
        rw [isData, length_append]
        exact Nat.succ_pos _
      obtain ⟨result, onward, _⟩ := represents.append ⟨0, 0, data⟩
      refine ⟨_, _, _, ?_, .appendData data, (fun _ isSeek => by cases isSeek), onward⟩
      rw [SeekableBuffer.perform, SeekableBuffer.appendData, if_pos pos, ← result]
  | read size =>
    obtain ⟨next, nextTape, reads, moved, onward, _⟩ := represents.read passes
    refine ⟨_, next, nextTape, ?_, .read size moved, (fun _ isSeek => by cases isSeek), onward⟩
    rw [SeekableBuffer.perform, SeekableBuffer.read, reads]
    rfl
  | peek size =>
    refine ⟨_, seekable, tape, ?_, .peek size, (fun _ isSeek => by cases isSeek), represents⟩
    rw [SeekableBuffer.perform, represents.peek]
    rfl
  | getCurrentChunk =>
    have chunk := chunkLoop_eq represents.inside
    rw [represents.ahead] at chunk
    refine ⟨_, seekable, tape, rfl, ?_, (fun _ isSeek => by cases isSeek), represents⟩
    rw [SeekableBuffer.getCurrentChunk]
    split at chunk
    next isNone =>
      rw [isNone]
      exact .noChunk chunk
    next data isSome =>
      rw [isSome]
      exact .chunk data chunk.1 chunk.2
  | seek off =>
    obtain ⟨result, next, nextTape, seeks, sought, same, onward, _⟩ := represents.seek passes
    refine ⟨.flag result, next, nextTape, ?_, .seek off result sought, ?_, onward⟩
    · rw [SeekableBuffer.perform, seeks]
      rfl
    · intro _ _ isFalse
      cases isFalse
      exact same rfl
  | clear => exact ⟨_, _, _, rfl, .clear, (fun _ isSeek => by cases isSeek), start_represents⟩

theorem Represents.passes_of_seek {next : SeekableBuffer}
    (seeks : seekable.seek offset = some (result, next))
    (sought : Sought tape offset.toInt result nextTape) (onward : next.Represents nextTape) :
    seekable.Passes (.seek offset) := by
  have kept := represents.backward_bytes
  rw [SeekableBuffer.seek] at seeks
  constructor
  · intro pos enough buf mem
    by_contra notTimed
    rw [if_pos pos, signExtend_toNat pos.le, seekForward,
      if_neg (by omega), represents.internalRead_eq_none mem notTimed] at seeks
    cases seeks
  · intro negative enough
    rw [if_neg (by omega), if_pos negative] at seeks
    have notLeast : offset.toInt ≠ -2 ^ 31 := by
      intro least
      rw [negated_least least, seekBackward] at seeks
      split_ifs at seeks with tooFar
      · cases seeks
        cases sought with
        | outside outside => omega
      · -- The cursor has moved by more than the offset.
        obtain ⟨time, updates, isNext⟩ := bind_eq_some_iff.mp seeks
        have before := represents.position
        have rewinds := @rewindLoop_rewinds seekable.behind.reverse
          (2 ^ 64 - 2 ^ 31) seekable.current_buffer_offset seekable.ahead (by
            rw [reverse_reverse]
            omega)
        have done := rewinds.done
        cases isNext
        have counts := onward.backward_bytes
        dsimp only at counts
        cases sought with
        | forward count isOffset _ _ => omega
        | back count isOffset _ moved =>
          have retained := moved.retained
          omega
    refine ⟨notLeast, fun cur isHead => ?_⟩
    by_contra notTimed
    rw [negated_toNat negative notLeast,
      represents.seekBackward_eq_none (by omega) isHead notTimed] at seeks
    cases seeks

theorem Represents.passes {next : SeekableBuffer}
    (runs : seekable.perform call = some (output, next))
    (answers : Answers seekable.forward_capacity tape call output nextTape)
    (onward : next.Represents nextTape) :
    seekable.Passes call := by
  cases call with
  | read size =>
    intro buf mem
    by_contra notTimed
    rw [SeekableBuffer.perform, SeekableBuffer.read,
      represents.internalRead_eq_none mem notTimed] at runs
    cases runs
  | seek offset =>
    obtain ⟨⟨result, _⟩, seeks, isOutput⟩ := bind_eq_some_iff.mp runs
    cases isOutput
    cases answers with
    | seek _ _ sought => exact represents.passes_of_seek seeks sought onward
  | _ => trivial

end

theorem Refines.represents (refines : seekable.Refines tape calls) : seekable.Represents tape := by
  cases calls with
  | nil => exact refines
  | cons call calls => exact refines.1

theorem Represents.refines_iff :
    ∀ {seekable : SeekableBuffer} {tape : Tape UInt8}, seekable.Represents tape ->
      (seekable.Refines tape calls ↔ seekable.AllPass calls) := by
  induction calls with
  | nil =>
    intro seekable tape represents
    exact ⟨fun _ => trivial, fun _ => represents⟩
  | cons call calls ih =>
    intro seekable tape represents
    constructor
    · rintro ⟨_, output, next, nextTape, runs, answers, _, rest⟩
      refine ⟨represents.passes runs answers rest.represents, ?_⟩
      intro other later performs'
      rw [runs] at performs'
      cases performs'
      exact (ih rest.represents).mp rest
    · rintro ⟨passes, later⟩
      obtain ⟨output, next, nextTape, runs, answers, same, onward⟩ := represents.perform passes
      exact ⟨represents, output, next, nextTape, runs, answers, same,
        (ih onward).mpr (later output next runs)⟩

/-- A seekable buffer is a tape of bytes if and only if all calls pass. -/
theorem refines_iff_allPass (backward_capacity forward_capacity : Nat) (calls : List Call) :
    Refines { backward_capacity, forward_capacity } .empty calls ↔
      AllPass { backward_capacity, forward_capacity } calls :=
  start_represents.refines_iff

/-- Reading divides by the size of a buffer with a timestamp and no data. -/
theorem not_refines : ¬ ∀ (backward_capacity forward_capacity : Nat) (calls : List Call),
      Refines { backward_capacity, forward_capacity } .empty calls := by
  intro claim
  obtain ⟨_, _, next, _, runs, _, _, _, _, _, _, fails, _⟩ :=
    claim 10 10 [.append ⟨1, 1, []⟩, .read 1]
  cases runs
  cases fails

end Chromium.Media.SeekableBuffer
