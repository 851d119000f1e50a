import Chromium.Base.StringNumberConversions
import Chromium.Library.LastWrite
import Chromium.Library.Run
import Mathlib.Data.List.DropRight

/-!
# The chunked decoder

`HttpChunkedDecoder` filters the chunk markers out of buffers, in place. It
keeps what it has read of a line that has not ended.
-/

namespace Chromium.Net

open List hiding count

section

open Base (toInt32)

def cr : UInt8 := 0x0d
def lf : UInt8 := 0x0a

/-- How a call to `FilterBuf` fails. A `StringPiece` of a negative length has
no meaning. -/
inductive DecodeFault where
  | ERR_INVALID_CHUNKED_ENCODING
  | undefined
deriving DecidableEq

structure HttpChunkedDecoder where
  /-- The number of bytes remaining for the current chunk. -/
  chunk_remaining : Nat := 0
  /-- A partial chunk marker. -/
  line_buf : Bytes := []
  /-- Waiting for the terminal CRLF of a chunk's data. -/
  chunk_terminator_remaining : Bool := false
  reached_last_chunk : Bool := false
  reached_eof : Bool := false
  bytes_after_eof : Int := 0
deriving DecidableEq

/-- A line without one CR at its end. -/
def stripCr (line : Bytes) : Bytes :=
  if line.getLast? = some cr then line.dropLast else line

namespace HttpChunkedDecoder

/-- `HttpChunkedDecoder::ParseChunkSize`. -/
def parseChunkSize (start : Bytes) : Option Nat :=
  let start := start.rdropWhile (· == 0x20)
  -- Be more restrictive than `HexStringToInt`.
  if start.all fun c => (Base.charToDigit c).isSome then
    match Base.hexStringToInt start with
    | some parsed_number => if 0 <= parsed_number then some parsed_number.toNat else none
    | none => none
  else none

/-- The end of a line in `ScanForChunkRemaining`. -/
def endLine (decoder : HttpChunkedDecoder) (buf : Bytes)
    (buf_len : Int) : Except DecodeFault HttpChunkedDecoder :=
  if decoder.reached_last_chunk then
    if buf_len ≠ 0 then .ok { decoder with line_buf := [] }
    else .ok { decoder with reached_eof := true, line_buf := [] }
  else if decoder.chunk_terminator_remaining then
    if buf_len ≠ 0 then .error .ERR_INVALID_CHUNKED_ENCODING
    else .ok { decoder with chunk_terminator_remaining := false, line_buf := [] }
  else if buf_len ≠ 0 then
    if buf_len < 0 then .error .undefined
    else
      -- Ignore any chunk-extensions.
      match parseChunkSize ((buf.take buf_len.toNat).takeWhile (· ≠ 0x3b)) with
      | none => .error .ERR_INVALID_CHUNKED_ENCODING
      | some chunk_remaining =>
        .ok { decoder with
          chunk_remaining
          reached_last_chunk := chunk_remaining == 0
          line_buf := [] }
  else .error .ERR_INVALID_CHUNKED_ENCODING

/-- `HttpChunkedDecoder::ScanForChunkRemaining`: the decoder with the number of
bytes consumed. -/
def scanForChunkRemaining (decoder : HttpChunkedDecoder)
    (buf : Bytes) : Except DecodeFault (HttpChunkedDecoder × Nat) :=
  match buf.findIdx? (· == lf) with
  | some index_of_lf =>
    let bytes_consumed := index_of_lf + 1
    let buf := stripCr (buf.take index_of_lf)
    if decoder.line_buf = [] then (decoder.endLine buf buf.length).map (·, bytes_consumed)
    else
      let line_buf := decoder.line_buf ++ buf
      (decoder.endLine line_buf (toInt32 line_buf.length)).map (·, bytes_consumed)
  | none =>
    -- Save the partial line, without a trailing CR.
    .ok ({ decoder with line_buf := decoder.line_buf ++ stripCr buf }, buf.length)

/-- `memmove` of `count` bytes. -/
def memmove (memory : Bytes) (target source count : Nat) : Bytes :=
  Library.overwrite memory target ((memory.drop source).take count)

/-- The loop of `FilterBuf`: the decoder, the memory of the buffer and the
number of bytes at its front that are data, behind which the unread ones are.
A round consumes at least one of them. -/
def filterBufLoop : Nat -> HttpChunkedDecoder -> Bytes -> Nat -> Nat ->
      Except DecodeFault (HttpChunkedDecoder × Bytes × Nat)
  | 0, decoder, memory, result, _ => .ok (decoder, memory, result)
  | rounds + 1, decoder, memory, result, buf_len =>
    if buf_len = 0 then .ok (decoder, memory, result)
    else if decoder.chunk_remaining ≠ 0 then
      let num := min decoder.chunk_remaining buf_len
      let chunk_remaining := decoder.chunk_remaining - num
      let decoder :=
        { decoder with
          chunk_remaining
          -- After each chunk's data there should be a CRLF.
          chunk_terminator_remaining := chunk_remaining == 0 || decoder.chunk_terminator_remaining }
      filterBufLoop rounds decoder memory (result + num) (buf_len - num)
    else if decoder.reached_eof then
      .ok ({ decoder with
        bytes_after_eof := toInt32 (decoder.bytes_after_eof + buf_len) },
        memory, result)
    else
      match scanForChunkRemaining decoder ((memory.drop result).take buf_len) with
      | .error fault => .error fault
      | .ok (decoder, bytes_consumed) =>
        let buf_len := buf_len - bytes_consumed
        let memory :=
          if buf_len ≠ 0 then memmove memory result (result + bytes_consumed) buf_len
          else memory
        filterBufLoop rounds decoder memory result buf_len

/-- `HttpChunkedDecoder::FilterBuf`: the decoder with the bytes that the call
leaves at the front of its buffer. -/
def filterBuf (decoder : HttpChunkedDecoder) (buf : Bytes) :
    Except DecodeFault (HttpChunkedDecoder × Bytes) :=
  (filterBufLoop buf.length decoder buf 0 buf.length).map
    fun (decoder, memory, result) => (decoder, memory.take result)

/-- Successive calls, with all the bytes that they leave. -/
def filterBufs : HttpChunkedDecoder -> List Bytes -> Except DecodeFault (HttpChunkedDecoder × Bytes)
  | decoder, [] => .ok (decoder, [])
  | decoder, buf :: later =>
    match decoder.filterBuf buf with
    | .error fault => .error fault
    | .ok (decoder, data) =>
      (decoder.filterBufs later).map fun (decoder, more) => (decoder, data ++ more)

end HttpChunkedDecoder

end

/-!
## The chunked decoder byte by byte

The decoder reads bytes that are marked where a buffer ends. Reading them one
by one gives what the calls to `FilterBuf` give, so that the rest of the proofs
need not know how the bytes are cut into buffers.
-/

section

open Base (toInt32)

/-- A byte, with whether it is the last one of its buffer. -/
abbrev Mark := UInt8 × Bool

/-- The marked bytes of a buffer. -/
def mark : Bytes -> List Mark
  | [] => []
  | byte :: rest => (byte, rest.isEmpty) :: mark rest

section

variable (buffers : List Bytes)

/-- The marked bytes of successive buffers. -/
def marks : List Mark := buffers.flatMap mark

@[simp]
theorem map_fst_mark : (mark buffer).map Prod.fst = buffer := by
  induction buffer with
  | nil => rfl
  | cons byte rest ih => rw [mark, map_cons, ih]

@[simp]
theorem length_mark : (mark buffer).length = buffer.length := by
  rw [← length_map Prod.fst, map_fst_mark]

@[simp]
theorem map_fst_marks : (marks buffers).map Prod.fst = buffers.flatten := by
  induction buffers with
  | nil => rfl
  | cons buffer later ih =>
    rw [marks, flatMap_cons, map_append, map_fst_mark]
    exact congrArg (buffer ++ ·) ih

theorem marks_append : marks (earlier ++ later) = marks earlier ++ marks later :=
  flatMap_append

theorem length_marks : (marks buffers).length = buffers.flatten.length := by
  rw [← length_map Prod.fst, map_fst_marks]

end

theorem drop_mark (n : Nat) (buf : Bytes) :
    (mark buf).drop n = mark (buf.drop n) := by
  induction n generalizing buf with
  | zero => rfl
  | succ n ih =>
    cases buf with
    | nil => rfl
    | cons byte rest => exact ih rest

/-- In front of other bytes of its buffer no byte is the last one. -/
theorem mark_append (front : Bytes) (ne : back ≠ []) :
    mark (front ++ back) = front.map (·, false) ++ mark back := by
  induction front with
  | nil => rfl
  | cons byte rest ih =>
    have more : (rest ++ back).isEmpty = false := by
      rw [isEmpty_eq_false_iff]
      exact append_ne_nil_of_right_ne_nil rest ne
    rw [cons_append, mark, ih, more, map_cons, cons_append]

namespace HttpChunkedDecoder

/-- A decoder in the middle of a buffer, with what it has read there of the
line that has not ended. -/
structure Reading where
  decoder : HttpChunkedDecoder
  line : Bytes := []

/-- At the end of a buffer the partial line is saved. -/
def Reading.save (reading : Reading) : Reading :=
  ⟨{ reading.decoder with
      line_buf := reading.decoder.line_buf ++ stripCr reading.line }, []⟩

/-- Read a byte: how the decoder goes on, with the byte if it is data. -/
def Reading.byte (reading : Reading) (byte : UInt8) : Except DecodeFault (Reading × Bytes) :=
  let decoder := reading.decoder
  if decoder.chunk_remaining ≠ 0 then
    .ok ({ reading with
      decoder := { decoder with
        chunk_remaining := decoder.chunk_remaining - 1
        chunk_terminator_remaining :=
          decoder.chunk_remaining - 1 == 0 || decoder.chunk_terminator_remaining } }, [byte])
  else if decoder.reached_eof then
    .ok ({ reading with
      decoder := { decoder with
        bytes_after_eof := toInt32 (decoder.bytes_after_eof + 1) } }, [])
  else if byte = lf then
    let line := decoder.line_buf ++ stripCr reading.line
    (decoder.endLine line (toInt32 line.length)).map fun decoder => (⟨decoder, []⟩, [])
  else .ok ({ reading with line := reading.line ++ [byte] }, [])

/-- Read a marked byte. -/
def Reading.step (reading : Reading) (next : Mark) : Except DecodeFault (Reading × Bytes) :=
  (reading.byte next.1).map fun (reading, data) => (if next.2 then reading.save else reading, data)

/-- Read marked bytes. -/
def Reading.run : Reading -> List Mark -> Except DecodeFault (Reading × Bytes)
  | reading, [] => .ok (reading, [])
  | reading, next :: rest =>
    match reading.step next with
    | .error fault => .error fault
    | .ok (reading, data) => (reading.run rest).map fun (reading, more) => (reading, data ++ more)

theorem Reading.run_append (reading : Reading) (front back : List Mark) :
    reading.run (front ++ back) = match reading.run front with
      | .error fault => .error fault
      | .ok (middle, data) => (middle.run back).map fun (last, more) => (last, data ++ more) := by
  induction front generalizing reading with
  | nil =>
    rw [nil_append, Reading.run]
    dsimp only
    cases reading.run back with
    | error fault => rfl
    | ok result => rfl
  | cons next rest ih =>
    rw [cons_append, Reading.run, Reading.run]
    cases reading.step next with
    | error fault => rfl
    | ok result =>
      dsimp only
      rw [ih]
      cases result.1.run rest with
      | error fault => rfl
      | ok middle =>
        dsimp only [Except.map]
        cases middle.1.run back with
        | error fault => rfl
        | ok last => simp

/-- Reading part of the bytes, and then the others. -/
theorem Reading.run_append_of {reading middle last : Reading}
    (front : reading.run first = .ok (middle, data)) (back : middle.run second = .ok (last, more)) :
    reading.run (first ++ second) = .ok (last, data ++ more) := by
  rw [Reading.run_append, front]
  dsimp only
  rw [back]
  rfl

/-- What reading all of the bytes begins with. -/
theorem Reading.run_append_ok {reading last : Reading}
    (ran : reading.run (first ++ second) = .ok (last, data)) :
    ∃ middle front back, reading.run first = .ok (middle, front) ∧
      middle.run second = .ok (last, back) ∧ data = front ++ back := by
  rw [Reading.run_append] at ran
  cases front : reading.run first with
  | error fault =>
    rw [front] at ran
    cases ran
  | ok result =>
    rw [front] at ran
    dsimp only at ran
    cases back : result.1.run second with
    | error fault =>
      rw [back] at ran
      cases ran
    | ok final =>
      rw [back] at ran
      cases ran
      exact ⟨result.1, result.2, final.2, rfl, back, rfl⟩

@[simp]
theorem Reading.save_nil (decoder : HttpChunkedDecoder) :
    (Reading.mk decoder []).save = ⟨decoder, []⟩ := by
  simp [Reading.save, stripCr]

variable {decoder : HttpChunkedDecoder}

/-- The data of a chunk is left as it is. -/
theorem Reading.run_data {next : List Mark} (remaining : 0 < decoder.chunk_remaining)
    (inside : next.length <= decoder.chunk_remaining) :
    (Reading.mk decoder []).run next = .ok (⟨{ decoder with
        chunk_remaining := decoder.chunk_remaining - next.length
        chunk_terminator_remaining :=
          decoder.chunk_remaining - next.length == 0 || decoder.chunk_terminator_remaining }, []⟩,
        next.map Prod.fst) := by
  induction next generalizing decoder with
  | nil =>
    have more : (decoder.chunk_remaining == 0) = false := beq_eq_false_iff_ne.mpr (by omega)
    simp [Reading.run, more]
  | cons first rest ih =>
    rw [length_cons] at inside
    have read : (Reading.mk decoder []).step first = .ok (⟨{ decoder with
          chunk_remaining := decoder.chunk_remaining - 1
          chunk_terminator_remaining :=
            decoder.chunk_remaining - 1 == 0 ||
              decoder.chunk_terminator_remaining }, []⟩, [first.1]) := by
      rw [Reading.step, Reading.byte]
      dsimp only
      rw [if_pos (by omega)]
      cases first.2 with
      | false => rfl
      | true => simp [Except.map]
    rw [Reading.run, read]
    dsimp only
    cases rest with
    | nil => rfl
    | cons second others =>
      rw [length_cons] at inside
      rw [ih (by dsimp only; omega) (by rw [length_cons]; dsimp only; omega)]
      have more : (decoder.chunk_remaining - 1 == 0) = false := beq_eq_false_iff_ne.mpr (by omega)
      have left : decoder.chunk_remaining - 1 - (others.length + 1) =
          decoder.chunk_remaining - (others.length + 1 + 1) := by
        omega
      simp [Except.map, more, left]

section

variable (unread : decoder.chunk_remaining = 0)
include unread

/-- Bytes behind the end are counted. -/
theorem Reading.run_after_eof {next : List Mark} (ended : decoder.reached_eof = true)
    (ne : next ≠ []) :
    (Reading.mk decoder []).run next = .ok (⟨{ decoder with
        bytes_after_eof := toInt32 (decoder.bytes_after_eof + next.length) }, []⟩, []) := by
  induction next generalizing decoder with
  | nil => exact absurd rfl ne
  | cons first rest ih =>
    have read : (Reading.mk decoder []).step first = .ok (⟨{ decoder with
          bytes_after_eof := toInt32 (decoder.bytes_after_eof + 1) }, []⟩,
          []) := by
      rw [Reading.step, Reading.byte]
      dsimp only
      rw [if_neg (by omega), if_pos ended]
      cases first.2 with
      | false => rfl
      | true => simp [Except.map]
    rw [Reading.run, read]
    dsimp only
    cases rest with
    | nil => rfl
    | cons second others =>
      rw [@ih { decoder with
        bytes_after_eof := toInt32 (decoder.bytes_after_eof + 1) }
        unread ended (cons_ne_nil _ _)]
      have sum : toInt32 (toInt32 (decoder.bytes_after_eof + 1) +
            ((second :: others).length : Int)) =
          toInt32 (decoder.bytes_after_eof + ((first :: second :: others).length : Int)) := by
        rw [toInt32, toInt32, Int.bmod_add_bmod]
        congr 1
        rw [length_cons (a := first)]
        omega
      simp only [Except.map, sum, append_nil]

section

variable (open_ : decoder.reached_eof = false)
include open_

/-- Bytes of a line, in the middle of a buffer. -/
theorem Reading.run_line (unended : lf ∉ bytes) (line : Bytes) :
    (Reading.mk decoder line).run (bytes.map (·, false)) = .ok (⟨decoder, line ++ bytes⟩, []) := by
  induction bytes generalizing line with
  | nil => rw [map_nil, Reading.run, append_nil]
  | cons byte rest ih =>
    rw [mem_cons, not_or] at unended
    have read : (Reading.mk decoder line).step (byte, false) =
        .ok (⟨decoder, line ++ [byte]⟩, []) := by
      rw [Reading.step, Reading.byte]
      dsimp only
      rw [if_neg (by omega), if_neg (by rw [open_]; exact Bool.false_ne_true),
        if_neg (Ne.symm unended.1)]
      rfl
    rw [map_cons, Reading.run, read]
    dsimp only
    rw [ih unended.2]
    simp [Except.map]

/-- A buffer in which a line does not end. -/
theorem Reading.run_unended (unended : lf ∉ buffer) (ne : buffer ≠ []) :
    (Reading.mk decoder []).run (mark buffer) = .ok (⟨{ decoder with
        line_buf := decoder.line_buf ++ stripCr buffer }, []⟩, []) := by
  obtain ⟨front, last, rfl⟩ := (eq_nil_or_concat buffer).resolve_left ne
  rw [concat_eq_append] at unended ⊢
  rw [mem_append, mem_singleton, not_or] at unended
  rw [mark_append front (cons_ne_nil last [])]
  have begun := Reading.run_line unread open_ unended.1 []
  have saved : (Reading.mk decoder front).step (last, true) = .ok (⟨{ decoder with
        line_buf := decoder.line_buf ++ stripCr (front ++ [last]) }, []⟩,
        []) := by
    rw [Reading.step, Reading.byte]
    dsimp only
    rw [if_neg (by omega), if_neg (by rw [open_]; exact Bool.false_ne_true),
      if_neg (Ne.symm unended.2)]
    rfl
  apply Reading.run_append_of begun
  rw [nil_append, mark, Reading.run, isEmpty_nil, saved]
  rfl

theorem Reading.step_lf (line : Bytes) (last : Bool) :
    (Reading.mk decoder line).step (lf, last) = (decoder.endLine (decoder.line_buf ++ stripCr line)
        (toInt32 (decoder.line_buf ++ stripCr line).length)).map
          fun decoder => (⟨decoder, []⟩, []) := by
  rw [Reading.step, Reading.byte]
  dsimp only
  rw [if_neg (by omega), if_neg (by rw [open_]; exact Bool.false_ne_true), if_pos rfl]
  cases decoder.endLine (decoder.line_buf ++ stripCr line)
      (toInt32 (decoder.line_buf ++ stripCr line).length) with
  | error fault => rfl
  | ok decoder =>
    cases last with
    | false => rfl
    | true => simp [Except.map]

end

end

/-- A loop of `FilterBuf` that does what reading byte by byte does, behind the
bytes that have been kept. -/
def Agrees (kept : Bytes) : Except DecodeFault (HttpChunkedDecoder × Bytes × Nat) ->
      Except DecodeFault (Reading × Bytes) -> Prop
  | .ok (decoder, memory, result), .ok (reading, data) =>
    reading = ⟨decoder, []⟩ ∧ memory.take result = kept ++ data
  | .error fault, .error other => fault = other
  | _, _ => False

theorem Agrees.map (agrees : Agrees (kept ++ data) filtered ran) :
    Agrees kept filtered (ran.map fun (reading, more) => (reading, data ++ more)) := by
  cases filtered with
  | error fault =>
    cases ran with
    | error other => exact agrees
    | ok result => exact agrees
  | ok result =>
    cases ran with
    | error other => exact agrees
    | ok other => exact ⟨agrees.1, agrees.2.trans (append_assoc _ _ _)⟩

theorem filterBufLoop_zero :
    filterBufLoop rounds decoder memory result 0 = .ok (decoder, memory, result) := by
  cases rounds with
  | zero => rfl
  | succ rounds => rw [filterBufLoop, if_pos rfl]

theorem memmove_spec (inside : result + consumed + count <= memory.length) :
    (memmove memory result (result + consumed) count).length = memory.length ∧
      (memmove memory result (result + consumed) count).take result = memory.take result ∧
      ((memmove memory result (result + consumed) count).drop result).take
          count = (memory.drop (result + consumed)).take count := by
  have front : (memory.take result).length = result := length_take_of_le (by omega)
  have moved : ((memory.drop (result + consumed)).take count).length = count := by
    rw [length_take, length_drop]
    omega
  refine ⟨Library.length_overwrite (by omega), ?_, ?_⟩
  · rw [memmove, Library.overwrite, append_assoc, take_left' front]
  · rw [memmove, Library.overwrite, append_assoc, drop_left' front, take_left' moved]

/-- Where a line has ended, its length is that of an `int` in either case. -/
theorem scanForChunkRemaining_ended (hit : buf.findIdx? (· == lf) = some i)
    (fits : buf.length < 2 ^ 31) :
    decoder.scanForChunkRemaining buf =
      (decoder.endLine (decoder.line_buf ++ stripCr (buf.take i))
        (toInt32 (decoder.line_buf ++ stripCr (buf.take i)).length)).map (·, i + 1) := by
  have short : (stripCr (buf.take i)).length < 2 ^ 31 := by
    have part : (buf.take i).length <= buf.length := length_take_le' _ _
    unfold stripCr
    split
    · rw [length_dropLast]
      omega
    · omega
  rw [scanForChunkRemaining, hit]
  dsimp only
  by_cases fresh : decoder.line_buf = []
  · rw [if_pos fresh, fresh, nil_append, Base.toInt32_of_lt short]
  · rw [if_neg fresh]

theorem filterBufLoop_agrees (rounds : Nat) (decoder : HttpChunkedDecoder) {memory : Bytes}
    (inside : result + buf_len <= memory.length) (enough : buf_len <= rounds)
    (fits : buf_len < 2 ^ 31) :
    Agrees (memory.take result) (filterBufLoop rounds decoder memory result buf_len)
      ((Reading.mk decoder []).run (mark ((memory.drop result).take buf_len))) := by
  induction rounds generalizing decoder memory result buf_len with
  | zero =>
    obtain rfl : buf_len = 0 := by omega
    exact ⟨rfl, (append_nil _).symm⟩
  | succ rounds ih =>
    by_cases empty : buf_len = 0
    · subst empty
      exact ⟨rfl, (append_nil _).symm⟩
    rw [filterBufLoop, if_neg empty]
    generalize windowIs : (memory.drop result).take buf_len = window
    have len : window.length = buf_len := by
      rw [← windowIs, length_take, length_drop]
      omega
    have ne : window ≠ [] := by
      intro none_
      rw [none_] at len
      exact empty len.symm
    have behind : ∀ n, window.drop n =
          (memory.drop (result + n)).take (buf_len - n) := by
      intro n
      rw [← windowIs, drop_take, drop_drop]
    by_cases data : decoder.chunk_remaining ≠ 0
    · rw [if_pos data]
      generalize numIs : min decoder.chunk_remaining buf_len = num
      have split : mark window = (mark window).take num ++ mark (window.drop num) := by
        rw [← drop_mark, take_append_drop]
      have taken : ((mark window).take num).length = num := by
        rw [length_take, length_mark]
        omega
      have ran := @Reading.run_data decoder ((mark window).take num)
        (Nat.pos_of_ne_zero data) (by omega)
      rw [taken, map_take, map_fst_mark] at ran
      have kept : memory.take (result + num) = memory.take result ++ window.take num := by
        rw [take_add, ← windowIs, take_take, Nat.min_eq_left (by omega)]
      rw [split, Reading.run_append, ran]
      apply Agrees.map
      rw [← kept, behind]
      exact ih _ (by omega) (by omega) (by omega)
    rw [if_neg data]
    rw [not_not] at data
    by_cases ended : decoder.reached_eof = true
    · rw [if_pos ended, Reading.run_after_eof data ended, length_mark, len]
      · exact ⟨rfl, (append_nil _).symm⟩
      · intro none_
        exact empty (by rw [← len, ← length_mark, none_, length_nil])
    rw [if_neg ended]
    rw [Bool.not_eq_true] at ended
    cases hit : window.findIdx? (· == lf) with
    | none =>
      have unended : lf ∉ window := by
        intro mem
        have no := findIdx?_eq_none_iff.mp hit lf mem
        simp at no
      have scanned : decoder.scanForChunkRemaining window = .ok ({ decoder with
            line_buf := decoder.line_buf ++ stripCr window }, buf_len) := by
        rw [scanForChunkRemaining, hit, len]
      have ran : (Reading.mk decoder []).run (mark window) = .ok (⟨{ decoder with
            line_buf := decoder.line_buf ++ stripCr window }, []⟩, []) :=
        Reading.run_unended data ended unended ne
      rw [scanned, ran]
      dsimp only
      rw [Nat.sub_self, filterBufLoop_zero]
      exact ⟨rfl, (append_nil _).symm⟩
    | some index =>
      obtain ⟨indexInside, isLf, before⟩ := findIdx?_eq_some_iff_getElem.mp hit
      have unended : lf ∉ window.take index := by
        intro mem
        obtain ⟨pos, positionInside, isAt⟩ := getElem_of_mem mem
        rw [length_take] at positionInside
        rw [getElem_take] at isAt
        exact before pos (by omega) (beq_iff_eq.mpr isAt)
      have split : window = window.take index ++ lf :: window.drop (index + 1) := by
        rw [← beq_iff_eq.mp isLf, cons_getElem_drop_succ, take_append_drop]
      have markIs : mark window = (window.take index).map (·, false) ++
            mark (lf :: window.drop (index + 1)) := by
        rw [← mark_append _ (cons_ne_nil _ _), ← split]
      rw [scanForChunkRemaining_ended hit (by omega), markIs,
        Reading.run_append, Reading.run_line data ended unended []]
      dsimp only
      rw [mark, Reading.run, Reading.step_lf data ended, nil_append]
      cases decoder.endLine (decoder.line_buf ++ stripCr (window.take index)) (toInt32
            (decoder.line_buf ++ stripCr (window.take index)).length) with
      | error fault => rfl
      | ok decoder =>
        have rest := behind (index + 1)
        rw [Library.map_ok, Library.map_ok]
        dsimp only
        apply Agrees.map
        apply Agrees.map
        rw [append_nil, append_nil]
        by_cases more : buf_len - (index + 1) ≠ 0
        · obtain ⟨length', kept, moved⟩ :=
            @memmove_spec result (index + 1) (buf_len - (index + 1)) memory (by omega)
          rw [if_pos more, rest, ← kept, ← moved]
          exact ih decoder (by omega) (by omega) (by omega)
        · rw [if_neg more, rest, not_not.mp more, filterBufLoop_zero, take_zero]
          exact ⟨rfl, (append_nil _).symm⟩

/-- Reading a buffer byte by byte is a call to `FilterBuf`. -/
theorem run_mark (decoder : HttpChunkedDecoder) (fits : buffer.length < 2 ^ 31) :
    (Reading.mk decoder []).run (mark buffer) =
      (decoder.filterBuf buffer).map fun (decoder, data) => (⟨decoder, []⟩, data) := by
  have agrees := @filterBufLoop_agrees 0 buffer.length buffer.length decoder
    buffer (by omega) (Nat.le_refl _) fits
  rw [drop_zero, take_length, take_zero] at agrees
  rw [filterBuf]
  cases filtered : filterBufLoop buffer.length decoder buffer 0 buffer.length with
  | error fault =>
    rw [filtered] at agrees
    cases ran : (Reading.mk decoder []).run (mark buffer) with
    | error other =>
      rw [ran] at agrees
      exact congrArg Except.error agrees.symm
    | ok other =>
      rw [ran] at agrees
      exact agrees.elim
  | ok result =>
    rw [filtered] at agrees
    cases ran : (Reading.mk decoder []).run (mark buffer) with
    | error other =>
      rw [ran] at agrees
      exact agrees.elim
    | ok other =>
      rw [ran] at agrees
      obtain ⟨same, data⟩ := agrees
      rw [nil_append] at data
      rw [Library.map_ok, Library.map_ok]
      dsimp only
      rw [← same, data]

/-- Reading buffers byte by byte is calling `FilterBuf` on each of them. -/
theorem run_marks (decoder : HttpChunkedDecoder)
    (fit : ∀ buf ∈ buffers, buf.length < 2 ^ 31) :
    (Reading.mk decoder []).run (marks buffers) =
      (decoder.filterBufs buffers).map fun (decoder, data) => (⟨decoder, []⟩, data) := by
  induction buffers generalizing decoder with
  | nil => rfl
  | cons buf later ih =>
    rw [marks, flatMap_cons, Reading.run_append,
      run_mark decoder (fit buf mem_cons_self), filterBufs]
    cases decoder.filterBuf buf with
    | error fault => rfl
    | ok result =>
      rw [Library.map_ok]
      dsimp only
      rw [show later.flatMap mark = marks later from rfl, ih result.1 (forall_mem_cons.mp fit).2]
      cases result.1.filterBufs later with
      | error fault => rfl
      | ok last => rfl

end HttpChunkedDecoder

end

/-!
## Lines of a chunked encoding

The decoder drops a CR in front of the LF of a line, and one at the end of each
buffer that ends in the middle of the line.
-/

section

open Base (toInt32)

/-- The CR in front of the LF of a line, if it is there. -/
def carriage (crlf : Bool) : Bytes := if crlf then [cr] else []

/-- The end of a line. -/
def lineEnd (crlf : Bool) : Bytes := carriage crlf ++ [lf]

/-- A byte that is not a CR at the end of a buffer. -/
def remains (next : Mark) : Bool := !(next.1 == cr && next.2)

/-- The bytes of a line that the decoder keeps, in front of the LF. -/
def keptOf (line : List Mark) : Bytes :=
  ((if line.getLast?.map Prod.fst = some cr then line.dropLast
    else line).filter remains).map Prod.fst

theorem keptOf_append (ne : back ≠ []) :
    keptOf (front ++ back) = (front.filter remains).map Prod.fst ++ keptOf back := by
  unfold keptOf
  rw [getLast?_append_of_ne_nil front ne, dropLast_append_of_ne_nil ne]
  split
  · rw [filter_append, map_append]
  · rw [filter_append, map_append]

theorem length_keptOf_le (line : List Mark) : (keptOf line).length <= line.length := by
  unfold keptOf
  rw [length_map]
  split
  · have shorter := length_filter_le remains line.dropLast
    rw [length_dropLast] at shorter
    omega
  · exact length_filter_le _ _

section

variable (line : Bytes)

theorem filter_remains_unmarked :
    (line.map ((·, false) : UInt8 -> Mark)).filter remains = line.map (·, false) := by
  rw [filter_eq_self]
  intro next mem
  obtain ⟨byte, -, rfl⟩ := List.mem_map.mp mem
  simp [remains]

theorem map_fst_unmarked : (line.map ((·, false) : UInt8 -> Mark)).map Prod.fst = line := by
  rw [List.map_map]
  exact List.map_id line

theorem keptOf_unmarked : keptOf (line.map (·, false)) = stripCr line := by
  have last : (line.map ((·, false) : UInt8 -> Mark)).getLast?.map Prod.fst = line.getLast? := by
    rw [← getLast?_map, map_fst_unmarked]
  unfold keptOf stripCr
  rw [last]
  split
  · rw [← map_dropLast, filter_remains_unmarked, map_fst_unmarked]
  · rw [filter_remains_unmarked, map_fst_unmarked]

theorem keptOf_singleton : keptOf [(byte, last)] = if byte = cr then [] else [byte] := by
  by_cases isCr : byte = cr
  · simp [keptOf, isCr]
  · simp [keptOf, remains, isCr]

/-- A buffer that ends in the middle of a line. -/
theorem keptOf_cut (byte : UInt8) (rest : List Mark) :
    keptOf (line.map (·, false) ++ (byte, true) :: rest) =
      stripCr (line ++ [byte]) ++ keptOf rest := by
  have stripped : stripCr (line ++ [byte]) = line ++ if byte = cr then [] else [byte] := by
    unfold stripCr
    rw [getLast?_append_of_ne_nil line (cons_ne_nil _ _), dropLast_concat]
    by_cases isCr : byte = cr
    · rw [if_pos (by simp [isCr]), if_pos isCr, append_nil]
    · rw [if_neg (by simp [isCr]), if_neg isCr]
  rw [keptOf_append (cons_ne_nil _ _), filter_remains_unmarked,
    map_fst_unmarked, stripped, append_assoc]
  congr 1
  cases rest with
  | nil => rw [keptOf_singleton, show keptOf [] = [] from rfl, append_nil]
  | cons next later =>
    rw [show (byte, true) :: next :: later = [(byte, true)] ++ (next :: later) from rfl,
      keptOf_append (cons_ne_nil _ _)]
    congr 1
    by_cases isCr : byte = cr
    · simp [remains, isCr]
    · simp [remains, isCr]

end

theorem keptOf_plain (plain : cr ∉ line.map Prod.fst) :
    keptOf (line ++ rest) = line.map Prod.fst ++ keptOf rest := by
  have all : line.filter remains = line := by
    rw [filter_eq_self]
    intro next mem
    have other : next.1 ≠ cr := fun isCr => plain (isCr ▸ List.mem_map_of_mem mem)
    simp [remains, other]
  cases rest with
  | nil =>
    have notLast : line.getLast?.map Prod.fst ≠ some cr := by
      intro last
      rw [← getLast?_map] at last
      exact plain (List.mem_of_getLast? last)
    rw [append_nil, show keptOf [] = [] from rfl, append_nil, keptOf, if_neg notLast, all]
  | cons next later => rw [keptOf_append (cons_ne_nil _ _), all]

theorem keptOf_carriage (ending : line.map Prod.fst = carriage crlf) : keptOf line = [] := by
  cases crlf with
  | false =>
    rw [map_eq_nil_iff.mp ending]
    rfl
  | true =>
    obtain ⟨next, rfl, isCr⟩ := map_eq_singleton_iff.mp ending
    rw [show next = (next.1, next.2) from rfl, keptOf_singleton, if_pos isCr]

namespace HttpChunkedDecoder

theorem endLine_line_buf (decoder : HttpChunkedDecoder) (line_buf : Bytes) (len : Int) :
    ({ decoder with line_buf } : HttpChunkedDecoder).endLine line len =
      decoder.endLine line len :=
  rfl

/-- The unended line after some of its bytes. -/
theorem Reading.run_unended_line {decoder : HttpChunkedDecoder} {line : List Mark}
    (unread : decoder.chunk_remaining = 0) (open_ : decoder.reached_eof = false)
    (unended : lf ∉ line.map Prod.fst)
    (line_buf begun : Bytes) :
    ∃ line_buf' begun', (Reading.mk { decoder with line_buf } begun).run line =
          .ok (⟨{ decoder with line_buf := line_buf' }, begun'⟩, []) ∧
        line_buf' ++ stripCr begun' = line_buf ++ keptOf (begun.map (·, false) ++ line) := by
  induction line generalizing line_buf begun with
  | nil => exact ⟨line_buf, begun, rfl, by rw [append_nil, keptOf_unmarked]⟩
  | cons next rest ih =>
    obtain ⟨byte, last⟩ := next
    rw [map_cons, mem_cons, not_or] at unended
    have read : ∀ last, (Reading.mk { decoder with line_buf } begun).step (byte, last) =
          .ok (if last then
            ⟨{ decoder with
              line_buf := line_buf ++ stripCr (begun ++ [byte]) }, []⟩
          else ⟨{ decoder with line_buf }, begun ++ [byte]⟩, []) := by
      intro last
      rw [Reading.step, Reading.byte]
      dsimp only
      rw [if_neg (by omega), if_neg (by rw [open_]; exact Bool.false_ne_true),
        if_neg (Ne.symm unended.1)]
      cases last with
      | false => rfl
      | true => rfl
    rw [Reading.run, read]
    cases last with
    | false =>
      obtain ⟨line_buf', begun', ran, kept⟩ := ih unended.2 line_buf (begun ++ [byte])
      refine ⟨line_buf', begun', ?_, ?_⟩
      · dsimp only
        rw [if_neg Bool.false_ne_true, ran]
        rfl
      · rw [kept, map_append, append_assoc]
        rfl
    | true =>
      obtain ⟨line_buf', begun', ran, kept⟩ :=
        ih unended.2 (line_buf ++ stripCr (begun ++ [byte])) []
      refine ⟨line_buf', begun', ?_, ?_⟩
      · dsimp only
        rw [if_pos rfl, ran]
        rfl
      · rw [kept, keptOf_cut, append_assoc]
        rfl

theorem Reading.run_whole_line {decoder : HttpChunkedDecoder} {line : List Mark}
    (unread : decoder.chunk_remaining = 0) (open_ : decoder.reached_eof = false)
    (fresh : decoder.line_buf = []) (unended : lf ∉ line.map Prod.fst) (last : Bool) :
    (Reading.mk decoder []).run (line ++ [(lf, last)]) =
      (decoder.endLine (keptOf line) (toInt32 (keptOf line).length)).map
        fun decoder => (⟨decoder, []⟩, []) := by
  obtain ⟨line_buf, begun, ran, kept⟩ := Reading.run_unended_line unread open_ unended [] []
  have same : ({ decoder with line_buf := [] } : HttpChunkedDecoder) = decoder := by
    rw [← fresh]
  rw [same] at ran
  rw [map_nil, nil_append, nil_append] at kept
  rw [Reading.run_append, ran]
  dsimp only
  have ended := @Reading.step_lf { decoder with line_buf } unread open_ begun last
  rw [kept, endLine_line_buf] at ended
  rw [Reading.run, ended]
  cases decoder.endLine (keptOf line) (toInt32 (keptOf line).length) with
  | error fault => rfl
  | ok decoder => rfl

end HttpChunkedDecoder

end

end Chromium.Net
