import Chromium.Net.HttpChunkedDecoder

/-!
# Chunked encodings

A chunked encoding is a sequence of chunks, a last chunk of size zero, trailer
lines and a blank line. Decoding it gives the data of its chunks, however the
bytes are cut into buffers, unless a cut follows each of the bytes of a trailer
line that has no byte but CRs.
-/

namespace Chromium.Net

open List hiding count length
open Base (toInt32)

/-- The line in front of a chunk of a given size. -/
structure SizeLine (size : Nat) where
  digits : Bytes
  nonempty : digits ≠ []
  hex : Base.HexDigits digits
  value : Base.hexValue digits = size
  /-- The number of trailing spaces. -/
  spaces : Nat
  /-- What follows a semicolon. -/
  extension : Option Bytes
  extension_lf : ∀ text ∈ extension, lf ∉ text
  crlf : Bool

/-- The part of the line that is written for the size. -/
def SizeLine.number (line : SizeLine size) : Bytes :=
  line.digits ++ List.replicate line.spaces 0x20

def SizeLine.content (line : SizeLine size) : Bytes :=
  line.number ++ match line.extension with
    | none => []
    | some text => 0x3b :: text

def SizeLine.bytes (line : SizeLine size) : Bytes := line.content ++ lineEnd line.crlf

structure Chunk where
  data : Bytes
  nonempty : data ≠ []
  fits : data.length < 2 ^ 31
  line : SizeLine data.length
  /-- Whether the data is ended by CRLF. -/
  crlf : Bool

def Chunk.bytes (chunk : Chunk) : Bytes := chunk.line.bytes ++ chunk.data ++ lineEnd chunk.crlf

/-- A line that is not blank. The CR of a line end is no part of the
content. -/
structure Trailer where
  content : Bytes
  nonempty : content ≠ []
  content_lf : lf ∉ content
  crlf : Bool
  ended : crlf = false -> content.getLast? ≠ some cr

def Trailer.bytes (trailer : Trailer) : Bytes := trailer.content ++ lineEnd trailer.crlf

structure ChunkedEncoding where
  chunks : List Chunk
  last : SizeLine 0
  trailers : List Trailer
  /-- Whether the blank line is ended by CRLF. -/
  crlf : Bool
  /-- The bytes behind the encoding. -/
  extra : Bytes

namespace ChunkedEncoding

def data (encoding : ChunkedEncoding) : Bytes := encoding.chunks.flatMap Chunk.data

section

variable (encoding : ChunkedEncoding)

/-- The bytes in front of the trailer lines. -/
def head : Bytes := encoding.chunks.flatMap Chunk.bytes ++ encoding.last.bytes

/-- The bytes up to the end of the blank line. -/
def body : Bytes :=
  encoding.head ++ encoding.trailers.flatMap Trailer.bytes ++ lineEnd encoding.crlf

/-- Each size line is that of a chunk or of the last one. -/
def ShortLines : Prop :=
  (∀ chunk ∈ encoding.chunks, chunk.line.bytes.length < 2 ^ 31) ∧
    encoding.last.bytes.length < 2 ^ 31

end

/-- Decoding the buffers undoes the encoding: no call fails, the calls leave
the data, the end is reached with the last byte of the blank line, and the
bytes behind it are counted. -/
structure Undone (encoding : ChunkedEncoding) (buffers : List Bytes) : Prop where
  decoded : ∃ decoder : HttpChunkedDecoder,
    HttpChunkedDecoder.filterBufs {} buffers = .ok (decoder, encoding.data) ∧
      decoder.bytes_after_eof = encoding.extra.length
  reached_eof : ∀ earlier later, buffers = earlier ++ later -> ∃ decoder data,
      HttpChunkedDecoder.filterBufs {} earlier = .ok (decoder, data) ∧
        (decoder.reached_eof = true ↔ encoding.body.length <= earlier.flatten.length)

/-- The trailer lines that begin with the given marked bytes are seen: the
number of bytes that remain of each is not a multiple of `2 ^ 32`, and in
particular not zero. -/
def SeenTrailers : List Trailer -> List Mark -> Prop
  | [], _ => True
  | trailer :: later, marks =>
    (marks.take trailer.content.length).countP remains % 2 ^ 32 ≠ 0 ∧
      SeenTrailers later (marks.drop trailer.bytes.length)

end ChunkedEncoding

/-- The marked bytes of a line are those in front of its LF, and the LF. -/
theorem line_split (isLine : line.map Prod.fst = content ++ lineEnd crlf) :
    ∃ front last, line = front ++ [(lf, last)] ∧ front.map Prod.fst = content ++ carriage crlf := by
  rw [lineEnd, ← append_assoc] at isLine
  obtain ⟨front, back, rfl, isFront, isBack⟩ := map_eq_append_iff.mp isLine
  obtain ⟨next, rfl, isLf⟩ := map_eq_singleton_iff.mp isBack
  exact ⟨front, next.2, by rw [← isLf], isFront⟩

theorem lf_carriage (crlf : Bool) : lf ∉ carriage crlf := by
  cases crlf with
  | false => exact not_mem_nil
  | true => decide

theorem digit_ne (hex : Base.HexDigits digits)
    (other : c ∈ [(0x20 : UInt8), 0x2d, 0x2b, 0x78, 0x58, 0x3b, 0x0d, 0x0a]) :
    c ∉ digits := by
  intro mem
  exact Base.charToDigit_isSome_ne (hex c mem) other rfl

/-- Trailing spaces are stripped from digits. -/
theorem rdropWhile_spaces (hex : Base.HexDigits digits) (spaces : Nat) :
    (digits ++ replicate spaces 0x20).rdropWhile (· == 0x20) = digits := by
  induction spaces with
  | zero =>
    rw [replicate_zero, append_nil, rdropWhile_eq_self_iff]
    intro ne isSpace
    have mem := getLast_mem ne
    rw [beq_iff_eq.mp isSpace] at mem
    exact digit_ne hex (by decide) mem
  | succ spaces ih =>
    rw [replicate_succ', ← append_assoc, rdropWhile_concat_pos _ _ _ (by decide), ih]

namespace SizeLine

variable (line : SizeLine size)

theorem number_other (other : c ∈ [(0x3b : UInt8), 0x0d, 0x0a]) : c ∉ line.number := by
  rw [number, mem_append, mem_replicate, not_or]
  have notSpace : c ≠ 0x20 := by
    rintro rfl
    exact absurd other (by decide)
  have special : c ∈ [(0x20 : UInt8), 0x2d, 0x2b, 0x78, 0x58, 0x3b, 0x0d, 0x0a] := by
    simp only [mem_cons, not_mem_nil, or_false] at other ⊢
    obtain rfl | rfl | rfl := other
    · decide
    · decide
    · decide
  exact ⟨digit_ne line.hex special, fun space => notSpace space.2⟩

theorem content_lf : lf ∉ line.content := by
  rw [content, mem_append, not_or]
  refine ⟨line.number_other (by decide), ?_⟩
  cases extension : line.extension with
  | none => exact not_mem_nil
  | some text =>
    rw [mem_cons, not_or]
    exact ⟨by decide, line.extension_lf text extension⟩

/-- The trailing spaces are stripped and the digits are read. -/
theorem parseChunkSize_number (fits : size < 2 ^ 31) :
    HttpChunkedDecoder.parseChunkSize line.number = some size := by
  have stripped : line.number.rdropWhile (· == 0x20) = line.digits :=
    rdropWhile_spaces line.hex line.spaces
  have all : (line.digits.all fun c => (Base.charToDigit c).isSome) = true :=
    List.all_eq_true.mpr line.hex
  have read := Base.hexStringToInt_eq line.hex line.nonempty (by rw [line.value]; exact fits)
  rw [line.value] at read
  unfold HttpChunkedDecoder.parseChunkSize
  rw [stripped, if_pos all, read]
  dsimp only
  rw [if_pos (Int.natCast_nonneg size), Int.toNat_natCast]

/-- What is kept of the line is its number, up to a semicolon. -/
theorem takeWhile_keptOf (isFront : front.map Prod.fst = line.content ++ carriage line.crlf) :
    (keptOf front).takeWhile (· ≠ 0x3b) = line.number := by
  have plain : cr ∉ line.number := line.number_other (by decide)
  have whole : line.number.takeWhile (· ≠ 0x3b) = line.number := by
    rw [takeWhile_eq_self_iff]
    intro c mem
    rw [decide_eq_true_iff]
    rintro rfl
    exact line.number_other (by decide) mem
  rw [content] at isFront
  cases extension : line.extension with
  | none =>
    rw [extension] at isFront
    rw [append_nil] at isFront
    obtain ⟨n, ending, rfl, isNumber, isEnding⟩ := map_eq_append_iff.mp isFront
    rw [← isNumber] at plain whole ⊢
    rw [keptOf_plain plain, keptOf_carriage isEnding, append_nil]
    exact whole
  | some text =>
    rw [extension] at isFront
    rw [append_cons, append_assoc] at isFront
    obtain ⟨n, rest, rfl, isNumber, -⟩ := map_eq_append_iff.mp isFront
    have plain' : cr ∉ n.map Prod.fst := by
      rw [isNumber, mem_append, not_or]
      exact ⟨plain, by decide⟩
    rw [keptOf_plain plain', isNumber, append_assoc, takeWhile_append_of_pos
        (fun c mem => takeWhile_eq_self_iff.mp whole c mem)]
    rw [cons_append, nil_append, takeWhile_cons_of_neg (by simp), append_nil]

end SizeLine

namespace HttpChunkedDecoder

/-- A decoder that has read the last chunk. -/
abbrev atTrailers : HttpChunkedDecoder := { reached_last_chunk := true }

/-- A decoder that has read the blank line. -/
abbrev atEnd (count : Int) : HttpChunkedDecoder :=
  { reached_last_chunk := true, reached_eof := true, bytes_after_eof := count }

theorem Reading.run_sizeLine {line : SizeLine size} (isLine : marked.map Prod.fst = line.bytes)
    (short : line.bytes.length < 2 ^ 31)
    (fits : size < 2 ^ 31) :
    (Reading.mk {} []).run marked =
      .ok (⟨{ chunk_remaining := size, reached_last_chunk := size == 0 }, []⟩, []) := by
  obtain ⟨front, last, rfl, isFront⟩ := line_split isLine
  have unended : lf ∉ front.map Prod.fst := by
    rw [isFront, mem_append, not_or]
    exact ⟨line.content_lf, lf_carriage line.crlf⟩
  have n := line.takeWhile_keptOf isFront
  have size_ := line.parseChunkSize_number fits
  have ne : keptOf front ≠ [] := by
    intro none_
    rw [none_, takeWhile_nil, SizeLine.number] at n
    exact line.nonempty (append_eq_nil_iff.mp n.symm).1
  have bound : (keptOf front).length < 2 ^ 31 := by
    have shorter := length_keptOf_le front
    rw [← isLine, length_map, length_append] at short
    omega
  have pos := length_pos_iff.mpr ne
  rw [Reading.run_whole_line rfl rfl rfl unended, Base.toInt32_of_lt bound, endLine]
  rw [if_neg Bool.false_ne_true, if_neg Bool.false_ne_true,
    if_pos (by omega), if_neg (by omega), Int.toNat_natCast, take_length,
    n, size_]
  rfl

/-- A line that has no content, with or without a CR. -/
theorem Reading.run_blank {decoder : HttpChunkedDecoder} {marked : List Mark}
    (unread : decoder.chunk_remaining = 0) (open_ : decoder.reached_eof = false)
    (fresh : decoder.line_buf = []) (isLine : marked.map Prod.fst = lineEnd crlf) :
    (Reading.mk decoder []).run marked =
      (decoder.endLine [] 0).map fun decoder => (⟨decoder, []⟩, []) := by
  rw [← nil_append (lineEnd crlf)] at isLine
  obtain ⟨front, last, rfl, isFront⟩ := line_split isLine
  have unended : lf ∉ front.map Prod.fst := by
    rw [isFront]
    exact lf_carriage crlf
  rw [Reading.run_whole_line unread open_ fresh unended, keptOf_carriage isFront]
  rfl

/-- In front of its LF a blank line is not ended. -/
theorem Reading.run_blank_open {decoder : HttpChunkedDecoder} {marked : List Mark}
    (unread : decoder.chunk_remaining = 0) (open_ : decoder.reached_eof = false)
    (isLine : marked.map Prod.fst = lineEnd crlf) :
    ∃ front last reading, marked = front ++ [(lf, last)] ∧
      (Reading.mk decoder []).run front = .ok (reading, []) ∧
      reading.decoder.reached_eof = false := by
  rw [← nil_append (lineEnd crlf)] at isLine
  obtain ⟨front, last, rfl, isFront⟩ := line_split isLine
  have unended : lf ∉ front.map Prod.fst := by
    rw [isFront]
    exact lf_carriage crlf
  obtain ⟨line_buf, begun, ran, -⟩ :=
    Reading.run_unended_line unread open_ unended decoder.line_buf []
  exact ⟨front, last, _, rfl, ran, open_⟩

theorem Reading.run_chunk {chunk : Chunk}
    (isChunk : marked.map Prod.fst = chunk.bytes) (short : chunk.line.bytes.length < 2 ^ 31) :
    (Reading.mk {} []).run marked = .ok (⟨{}, []⟩, chunk.data) := by
  obtain ⟨lineAndData, ending, rfl, isFront, isEnding⟩ := map_eq_append_iff.mp isChunk
  obtain ⟨line, data, rfl, isLine, isData⟩ := map_eq_append_iff.mp isFront
  have pos : 0 < chunk.data.length := length_pos_iff.mpr chunk.nonempty
  have len : data.length = chunk.data.length := by rw [← isData, length_map]
  have lineRan := Reading.run_sizeLine isLine short chunk.fits
  rw [beq_eq_false_iff_ne.mpr (Nat.pos_iff_ne_zero.mp pos)] at lineRan
  have dataRan := @Reading.run_data
    { chunk_remaining := chunk.data.length } data pos (by dsimp only; omega)
  rw [len, Nat.sub_self, isData] at dataRan
  have endRan := @Reading.run_blank chunk.crlf
    { chunk_terminator_remaining := true } ending rfl rfl rfl isEnding
  have ran := Reading.run_append_of (Reading.run_append_of lineRan dataRan) endRan
  rw [nil_append, append_nil] at ran
  exact ran

theorem Reading.run_chunks {chunks : List Chunk}
    (areChunks : marked.map Prod.fst = chunks.flatMap Chunk.bytes)
    (short : ∀ chunk ∈ chunks, chunk.line.bytes.length < 2 ^ 31) :
    (Reading.mk {} []).run marked = .ok (⟨{}, []⟩, chunks.flatMap Chunk.data) := by
  induction chunks generalizing marked with
  | nil =>
    rw [map_eq_nil_iff.mp areChunks]
    rfl
  | cons chunk later ih =>
    obtain ⟨front, back, rfl, isFront, isBack⟩ := map_eq_append_iff.mp areChunks
    exact Reading.run_append_of (Reading.run_chunk isFront (short chunk mem_cons_self))
      (ih isBack (forall_mem_cons.mp short).2)

theorem Reading.run_head {encoding : ChunkedEncoding}
    (isHead : marked.map Prod.fst = encoding.head) (short : encoding.ShortLines) :
    (Reading.mk {} []).run marked = .ok (⟨atTrailers, []⟩, encoding.data) := by
  obtain ⟨chunks, last, rfl, areChunks, isLast⟩ := map_eq_append_iff.mp isHead
  have ran := Reading.run_append_of (Reading.run_chunks areChunks short.1)
    (Reading.run_sizeLine isLast short.2 (by decide))
  rw [append_nil] at ran
  exact ran

theorem toInt32_eq_zero_iff (val : Nat) : toInt32 val = 0 ↔ val % 2 ^ 32 = 0 := by
  rw [toInt32, Int.bmod_def]
  split
  · omega
  · omega

/-- The CR of the line end is not kept. -/
theorem length_keptOf_trailer (trailer : Trailer)
    (isFront : front.map Prod.fst = trailer.content ++ carriage trailer.crlf) :
    (keptOf front).length = (front.take trailer.content.length).countP remains := by
  obtain ⟨content, ending, rfl, isContent, isEnding⟩ := map_eq_append_iff.mp isFront
  have len : content.length = trailer.content.length := by rw [← isContent, length_map]
  rw [take_left' len, countP_eq_length_filter]
  cases ended : trailer.crlf with
  | false =>
    rw [ended] at isEnding
    rw [map_eq_nil_iff.mp isEnding, append_nil, keptOf, if_neg, length_map]
    rw [← getLast?_map, isContent]
    exact trailer.ended ended
  | true =>
    have some_ : ending ≠ [] := by
      rintro rfl
      rw [ended] at isEnding
      exact cons_ne_nil _ _ isEnding.symm
    rw [keptOf_append some_, keptOf_carriage isEnding, append_nil, length_map]

theorem endLine_atTrailers (line : Bytes) (len : Int) :
    atTrailers.endLine line len = .ok (if len ≠ 0 then atTrailers else atEnd 0) := by
  rw [endLine]
  rw [if_pos rfl]
  by_cases seen : len ≠ 0
  · rw [if_pos seen, if_pos seen]
  · rw [if_neg seen, if_neg seen]

/-- A trailer line is read as what it is, or as the blank line. -/
theorem Reading.run_trailer {trailer : Trailer} (isTrailer : marked.map Prod.fst = trailer.bytes) :
    (Reading.mk atTrailers []).run marked =
      .ok (⟨if (marked.take trailer.content.length).countP remains % 2 ^ 32 ≠ 0
        then atTrailers else atEnd 0, []⟩, []) := by
  obtain ⟨front, last, rfl, isFront⟩ := line_split isTrailer
  have unended : lf ∉ front.map Prod.fst := by
    rw [isFront, mem_append, not_or]
    exact ⟨trailer.content_lf, lf_carriage trailer.crlf⟩
  have inside : trailer.content.length <= front.length := by
    rw [← length_map Prod.fst, isFront, length_append]
    omega
  rw [Reading.run_whole_line rfl rfl rfl unended, take_append_of_le_length inside,
    ← length_keptOf_trailer trailer isFront, endLine_atTrailers,
    Library.map_ok]
  have same := not_congr (toInt32_eq_zero_iff (keptOf front).length)
  by_cases seen : (keptOf front).length % 2 ^ 32 ≠ 0
  · rw [if_pos seen, if_pos (same.mpr seen)]
  · rw [if_neg seen, if_neg (fun long => seen (same.mp long))]

/-- The marks of a trailer line in front of others. -/
theorem trailer_split {trailer : Trailer} {marked : List Mark}
    (isMarked : marked.map Prod.fst = trailer.bytes ++ rest) :
    ∃ front back, marked = front ++ back ∧
      front.map Prod.fst = trailer.bytes ∧ back.map Prod.fst = rest ∧
      marked.take trailer.content.length = front.take trailer.content.length ∧
      marked.drop trailer.bytes.length = back := by
  obtain ⟨front, back, rfl, isFront, isBack⟩ := map_eq_append_iff.mp isMarked
  have len : front.length = trailer.bytes.length := by rw [← isFront, length_map]
  refine ⟨front, back, rfl, isFront, isBack, ?_, drop_left' len⟩
  apply take_append_of_le_length
  rw [len, Trailer.bytes, length_append]
  omega

theorem Reading.run_trailers {trailers : List Trailer}
    (areTrailers : marked.map Prod.fst = trailers.flatMap Trailer.bytes ++ rest)
    (seen : ChunkedEncoding.SeenTrailers trailers marked) :
    ∃ front back, marked = front ++ back ∧ front.map Prod.fst = trailers.flatMap Trailer.bytes ∧
      back.map Prod.fst = rest ∧
      (Reading.mk atTrailers []).run front = .ok (⟨atTrailers, []⟩, []) := by
  induction trailers generalizing marked with
  | nil => exact ⟨[], marked, rfl, rfl, areTrailers, rfl⟩
  | cons trailer later ih =>
    rw [flatMap_cons, append_assoc] at areTrailers
    obtain ⟨front, back, rfl, isFront, isBack, taken, dropped⟩ := trailer_split areTrailers
    obtain ⟨seenHere, seenLater⟩ := seen
    rw [dropped] at seenLater
    rw [taken] at seenHere
    obtain ⟨middle, last, rfl, isMiddle, isLast, ran⟩ := ih isBack seenLater
    have here := Reading.run_trailer isFront
    rw [if_pos seenHere] at here
    refine ⟨front ++ middle, last, (append_assoc _ _ _).symm, ?_,
      isLast, Reading.run_append_of here ran⟩
    rw [map_append, isFront, isMiddle, flatMap_cons]

/-- A trailer line that is not seen is taken for the blank line. -/
theorem Reading.run_unseen {trailers : List Trailer}
    (areTrailers : marked.map Prod.fst = trailers.flatMap Trailer.bytes ++ rest)
    (unseen : ¬ ChunkedEncoding.SeenTrailers trailers marked) :
    ∃ front back, marked = front ++ back ∧ front ≠ [] ∧
      front.length <= (trailers.flatMap Trailer.bytes).length ∧
      (Reading.mk atTrailers []).run front = .ok (⟨atEnd 0, []⟩, []) := by
  induction trailers generalizing marked with
  | nil => exact absurd trivial unseen
  | cons trailer later ih =>
    rw [flatMap_cons, append_assoc] at areTrailers
    obtain ⟨front, back, rfl, isFront, isBack, taken, dropped⟩ := trailer_split areTrailers
    have len : front.length = trailer.bytes.length := by rw [← isFront, length_map]
    have ne : front ≠ [] := by
      intro none_
      have pos := length_pos_iff.mpr trailer.nonempty
      rw [none_, length_nil, Trailer.bytes, length_append] at len
      omega
    have here := Reading.run_trailer isFront
    rw [ChunkedEncoding.SeenTrailers, dropped, taken] at unseen
    by_cases seenHere : (front.take trailer.content.length).countP remains % 2 ^ 32 ≠ 0
    · rw [if_pos seenHere] at here
      obtain ⟨middle, last, rfl, -, inside, ran⟩ :=
        ih isBack fun seenLater => unseen ⟨seenHere, seenLater⟩
      refine ⟨front ++ middle, last, (append_assoc _ _ _).symm,
        append_ne_nil_of_left_ne_nil ne _, ?_,
        Reading.run_append_of here ran⟩
      rw [length_append, flatMap_cons, length_append]
      omega
    · rw [if_neg seenHere] at here
      refine ⟨front, back, rfl, ne, ?_, here⟩
      rw [flatMap_cons, length_append]
      omega

/-- The end stays reached, and the count is that of an `int`. -/
structure Onward (first last : HttpChunkedDecoder) : Prop where
  ended : first.reached_eof = true -> last.reached_eof = true
  counted : first.bytes_after_eof < 2 ^ 31 -> last.bytes_after_eof < 2 ^ 31

theorem endLine_onward (ended : decoder.endLine line length = .ok last) : Onward decoder last := by
  unfold endLine at ended
  split at ended
  · split at ended
    · cases ended
      exact ⟨id, id⟩
    · cases ended
      exact ⟨fun _ => rfl, id⟩
  · split at ended
    · split at ended
      · cases ended
      · cases ended
        exact ⟨id, id⟩
    · split at ended
      · split at ended
        · cases ended
        · split at ended
          · cases ended
          · cases ended
            exact ⟨id, id⟩
      · cases ended

theorem Reading.byte_onward {next : UInt8}
    {reading last : Reading} (read : reading.byte next = .ok (last, data)) :
    Onward reading.decoder last.decoder := by
  unfold Reading.byte at read
  dsimp only at read
  split at read
  · cases read
    exact ⟨id, id⟩
  · split at read
    · cases read
      refine ⟨id, fun _ => ?_⟩
      have bound := @Int.bmod_lt (reading.decoder.bytes_after_eof + 1) (2 ^ 32) (by norm_num)
      exact lt_of_lt_of_le bound (by norm_num)
    · split at read
      · obtain ⟨decoder, ended, same⟩ := Library.map_eq_ok_iff.mp read
        cases same
        exact endLine_onward ended
      · cases read
        exact ⟨id, id⟩

theorem Reading.run_onward {reading last : Reading} (ran : reading.run marked = .ok (last, data)) :
    Onward reading.decoder last.decoder := by
  induction marked generalizing reading data with
  | nil =>
    cases ran
    exact ⟨id, id⟩
  | cons next rest ih =>
    rw [Reading.run] at ran
    cases stepped : reading.step next with
    | error fault =>
      rw [stepped] at ran
      cases ran
    | ok result =>
      rw [stepped] at ran
      obtain ⟨other, ranRest, same⟩ := Library.map_eq_ok_iff.mp ran
      cases same
      obtain ⟨read, byteRead, saved⟩ := Library.map_eq_ok_iff.mp stepped
      have first := Reading.byte_onward byteRead
      have second := ih ranRest
      rw [← saved] at second
      dsimp only at second
      split at second
      · exact ⟨second.ended ∘ first.ended, second.counted ∘ first.counted⟩
      · exact ⟨second.ended ∘ first.ended, second.counted ∘ first.counted⟩

theorem filterBufs_of_run (fit : ∀ buf ∈ buffers, buf.length < 2 ^ 31)
    (ran : (Reading.mk {} []).run (marks buffers) = .ok (last, data)) :
    filterBufs {} buffers = .ok (last.decoder, data) := by
  rw [run_marks {} fit] at ran
  obtain ⟨result, filtered, same⟩ := Library.map_eq_ok_iff.mp ran
  cases same
  exact filtered

theorem run_of_filterBufs (fit : ∀ buf ∈ buffers, buf.length < 2 ^ 31)
    (filtered : filterBufs {} buffers = .ok (last, data)) :
    (Reading.mk {} []).run (marks buffers) = .ok (⟨last, []⟩, data) := by
  rw [run_marks {} fit, filtered]
  rfl

theorem buffer_of_position {buffers : List Bytes} (positive : 0 < pos)
    (inside : pos <= buffers.flatten.length) :
    ∃ earlier buf later, buffers = earlier ++ buf :: later ∧
      earlier.flatten.length < pos ∧ pos <= earlier.flatten.length + buf.length := by
  induction buffers generalizing pos with
  | nil => exact absurd inside (Nat.not_le_of_lt positive)
  | cons buf later ih =>
    by_cases here : pos <= buf.length
    · exact ⟨[], buf, later, rfl, positive, by simpa using here⟩
    · rw [flatten_cons, length_append] at inside
      obtain ⟨earlier, other, rest, rfl, before, upTo⟩ :=
        @ih (pos - buf.length) (by omega) (by omega)
      refine ⟨buf :: earlier, other, rest, rfl, ?_, ?_⟩
      · rw [flatten_cons, length_append]
        omega
      · rw [flatten_cons, length_append]
        omega

/-- Of two ways to begin a list the longer one begins with the other. -/
theorem append_of_length_le
    {first second front back : List α} (same : first ++ second = front ++ back)
    (shorter : first.length <= front.length) :
    ∃ middle, front = first ++ middle := by
  obtain ⟨middle, isFront⟩ := prefix_of_prefix_length_le
    (prefix_append first second) (same ▸ prefix_append front back)
    shorter
  exact ⟨middle, isFront.symm⟩

/-- The end has been reached where it was reached before. -/
theorem ended_behind {first second front back : List Mark}
    (same : first ++ second = front ++ back) (shorter : first.length <= front.length)
    (reachedRan : (Reading.mk {} []).run first = .ok (reached, data))
    (ended : reached.decoder.reached_eof = true)
    (lastRan : (Reading.mk {} []).run front = .ok (last, more)) :
    last.decoder.reached_eof = true := by
  obtain ⟨middle, rfl⟩ := append_of_length_le same shorter
  obtain ⟨other, _, _, otherRan, restRan, -⟩ := Reading.run_append_ok lastRan
  rw [reachedRan] at otherRan
  cases otherRan
  exact (Reading.run_onward restRan).ended ended

theorem Reading.run_extra {extra : List Mark} (counted : extra.length < 2 ^ 31) :
    (Reading.mk (atEnd 0) []).run extra = .ok (⟨atEnd extra.length, []⟩, []) := by
  by_cases nonempty : extra = []
  · subst nonempty
    rfl
  · rw [Reading.run_after_eof rfl rfl nonempty]
    rw [Int.zero_add, Base.toInt32_of_lt counted]

end HttpChunkedDecoder

namespace ChunkedEncoding

open HttpChunkedDecoder

/-- A count that is the number of bytes behind the end, after wrapping, although
it began too early. -/
theorem wrapped_of_early (early : toInt32 ((between + n : Nat) : Int) = (n : Int))
    (pos : 0 < between) :
    2 ^ 32 <= between := by
  rw [toInt32, Int.bmod_def] at early
  split at early
  · omega
  · omega

theorem counted_of_undone {encoding : ChunkedEncoding}
    (fit : ∀ buf ∈ buffers, buf.length < 2 ^ 31) (undone : encoding.Undone buffers) :
    encoding.extra.length < 2 ^ 31 := by
  obtain ⟨decoder, filtered, counted⟩ := undone.decoded
  have bound := (Reading.run_onward (run_of_filterBufs fit filtered)).counted (by decide)
  rw [counted] at bound
  omega

section Decoding

variable {encoding : ChunkedEncoding} {buffers : List Bytes}
  (cut : buffers.flatten = encoding.body ++ encoding.extra)
  (fit : ∀ buffer ∈ buffers, buffer.length < 2 ^ 31)
  (short : encoding.ShortLines)

/-- The marked bytes of an encoding up to its trailer lines. -/
theorem marks_split (cut : buffers.flatten = encoding.body ++ encoding.extra) :
    ∃ head rest, marks buffers = head ++ rest ∧ head.map Prod.fst = encoding.head ∧
      head.length = encoding.head.length ∧
      rest.map Prod.fst = encoding.trailers.flatMap Trailer.bytes ++
        (lineEnd encoding.crlf ++ encoding.extra) ∧
      (marks buffers).drop encoding.head.length = rest := by
  have isAll := map_fst_marks buffers
  rw [cut, body, append_assoc, append_assoc] at isAll
  obtain ⟨head, rest, isMarks, isHead, isRest⟩ := map_eq_append_iff.mp isAll
  have len : head.length = encoding.head.length := by rw [← isHead, length_map]
  exact ⟨head, rest, isMarks, isHead, len, isRest, by rw [isMarks, drop_left' len]⟩

include cut fit short

/-- Where all trailer lines are seen, decoding undoes the encoding. -/
theorem undone_of_seen (counted : encoding.extra.length < 2 ^ 31)
    (seen : SeenTrailers encoding.trailers ((marks buffers).drop encoding.head.length)) :
    encoding.Undone buffers := by
  obtain ⟨head, rest, isMarks, isHead, headLength, isRest, dropped⟩ := marks_split cut
  rw [dropped] at seen
  obtain ⟨trailers, back, rfl, areTrailers, isBack, trailersRan⟩ := Reading.run_trailers isRest seen
  obtain ⟨blank, extra, rfl, isBlank, isExtra⟩ := map_eq_append_iff.mp isBack
  have extraLength : extra.length = encoding.extra.length := by rw [← isExtra, length_map]
  have trailersRead := Reading.run_append_of (Reading.run_head isHead short) trailersRan
  rw [append_nil] at trailersRead
  have blankRan := @Reading.run_blank encoding.crlf atTrailers blank rfl rfl rfl isBlank
  have bodyRead := Reading.run_append_of trailersRead blankRan
  rw [append_nil] at bodyRead
  have extraRan := @Reading.run_extra extra (by omega)
  have allRead := Reading.run_append_of bodyRead extraRan
  rw [append_nil, extraLength] at allRead
  have bodyLength : (head ++ trailers ++ blank).length = encoding.body.length := by
    rw [← length_map Prod.fst, map_append, map_append, isHead, areTrailers, isBlank, body]
  have split : marks buffers = head ++ trailers ++ blank ++ extra := by
    rw [isMarks]
    simp
  rw [← split] at allRead
  constructor
  · exact ⟨_, filterBufs_of_run fit allRead, rfl⟩
  · rintro earlier later rfl
    rw [marks_append] at allRead split
    obtain ⟨middle, front, _, middleRan, -, -⟩ := Reading.run_append_ok allRead
    have fitEarlier : ∀ buf ∈ earlier, buf.length < 2 ^ 31 :=
      fun buf mem => fit buf (mem_append_left _ mem)
    refine ⟨_, _, filterBufs_of_run fitEarlier middleRan, ?_, ?_⟩
    · intro ended
      by_contra before
      obtain ⟨blankFront, last, reading, rfl, blankFrontRan, open_⟩ :=
        @Reading.run_blank_open encoding.crlf atTrailers blank rfl rfl isBlank
      have read := Reading.run_append_of trailersRead blankFrontRan
      have same : marks earlier ++ marks later =
          head ++ trailers ++ blankFront ++ ((lf, last) :: extra) := by
        rw [split]
        simp
      rw [← append_assoc, length_append, length_singleton] at bodyLength
      have reached := ended_behind same (by rw [length_marks]; omega) middleRan ended read
      rw [open_] at reached
      cases reached
    · intro behind
      apply ended_behind split.symm ?_ bodyRead rfl middleRan
      rw [bodyLength, length_marks]
      exact behind

/-- Where a trailer line is not seen, the end is noticed too early, or the bytes
behind it are counted too early. -/
theorem seen_of_undone (undone : encoding.Undone buffers) :
    SeenTrailers encoding.trailers ((marks buffers).drop encoding.head.length) := by
  by_contra unseen
  obtain ⟨head, rest, isMarks, isHead, headLength, isRest, dropped⟩ := marks_split cut
  rw [dropped] at unseen
  obtain ⟨front, back, rfl, ne, inside, frontRan⟩ := Reading.run_unseen isRest unseen
  have early := Reading.run_append_of (Reading.run_head isHead short) frontRan
  rw [← append_assoc] at isMarks
  have allLength := length_marks buffers
  rw [cut, isMarks, length_append, length_append] at allLength
  have bodyLength : encoding.body.length = encoding.head.length +
      (encoding.trailers.flatMap Trailer.bytes).length + (lineEnd encoding.crlf).length := by
    rw [body, length_append, length_append]
  have blankLength : 0 < (lineEnd encoding.crlf).length := by
    rw [lineEnd, length_append]
    exact Nat.lt_add_left _ Nat.one_pos
  have frontLength := length_pos_iff.mpr ne
  -- All bytes behind the line are counted.
  obtain ⟨decoder, filtered, counted⟩ := undone.decoded
  have allRan := run_of_filterBufs fit filtered
  have behind : back ≠ [] := by
    rintro rfl
    rw [length_append, length_nil] at allLength
    omega
  have backRan := @Reading.run_after_eof (atEnd 0) rfl back rfl behind
  rw [isMarks, Reading.run_append_of early backRan] at allRan
  have same := congrArg Reading.decoder (Prod.mk.inj (Except.ok.inj allRan)).1
  dsimp only at same
  rw [← same] at counted
  dsimp only at counted
  obtain ⟨between, betweenIs⟩ : ∃ between, back.length = between + encoding.extra.length ∧
        head.length + front.length + between = encoding.body.length :=
    ⟨back.length - encoding.extra.length, by
      rw [length_append] at allLength
      omega⟩
  rw [Int.zero_add, betweenIs.1] at counted
  have far := wrapped_of_early counted (by omega)
  -- The buffer in which the line ends is not that long.
  obtain ⟨earlier, buf, later, rfl, before, upTo⟩ :=
    @buffer_of_position (head.length + front.length) buffers (by omega) (by
      rw [cut, length_append]
      omega)
  have bufferFits := fit buf (mem_append_right _ mem_cons_self)
  obtain ⟨noticing, data, filteredPart, reached⟩ :=
    undone.reached_eof (earlier ++ [buf]) later (by simp)
  have partLength : (earlier ++ [buf]).flatten.length =
      earlier.flatten.length + buf.length := by
    simp
  have noticed : noticing.reached_eof = true := by
    have partRan := run_of_filterBufs (fun other mem => fit other (by
      rw [append_cons]
      exact mem_append_left _ mem)) filteredPart
    have same : head ++ front ++ back = marks (earlier ++ [buf]) ++ marks later := by
      rw [← isMarks, ← marks_append, append_assoc]
      rfl
    refine ended_behind same ?_ early rfl partRan
    rw [length_marks, partLength, length_append]
    exact upTo
  have late := reached.mp noticed
  omega

end Decoding

set_option maxRecDepth 2048 in
/-- The data "x" with a trailer line that is one CR. -/
def bareTrailer : ChunkedEncoding where
  chunks :=
    [{ data := [0x78], nonempty := by decide, fits := by decide,
       line := ⟨[0x31], by decide, by decide, rfl, 0, none, by simp, true⟩,
       crlf := true }]
  last := ⟨[0x30], by decide, by decide, rfl, 0, none, by simp, true⟩
  trailers := [⟨[cr], by decide, by decide, true, by decide⟩]
  crlf := true
  extra := []

end ChunkedEncoding
end Chromium.Net
