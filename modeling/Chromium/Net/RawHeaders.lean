import Chromium.Library.Components
import Chromium.Net.HttpUtil
import Mathlib.Data.List.Chain

/-!
# Assembly of raw headers

`AssembleRawHeaders` separates lines with null bytes and joins continuations,
and `ConvertHeadersBackToHTTPResponse` turns the lines into text again.
-/

namespace Chromium.Net.HttpUtil

open List Option

/-- One of the bytes between two lines. -/
def endsLine (c : UInt8) : Bool := c == 0x0d || c == 0x0a

/-- The tokens of a `StringTokenizer` without quotes. -/
def tokenTexts (isDelim : UInt8 -> Bool) (text : Bytes) : List Bytes :=
  (text.splitOnP isDelim).filter (· ≠ [])

/-- `HttpUtil::LocateStartOfStatusLine`. -/
def locateStartOfStatusLine (buf : Bytes) : Option Nat :=
  if 4 <= buf.length then
    (List.range (min (buf.length - 4) 4 + 1)).find? fun i =>
      lowerCaseEqualsASCII ((buf.drop i).take 4) "http"
  else none

/-- `IsLineSegmentContinuable`. -/
def isLineSegmentContinuable (seg : Bytes) : Bool :=
  let colon := seg.findIdx (· == 0x3a)
  colon != seg.length && colon != 0 && !isLWS (seg.getD 0 0)

/-- The loop of `AssembleRawHeaders`: what it appends. -/
def assembleLines : Bool -> List Bytes -> Bytes
  | _, [] => []
  | prev_line_continuable, line :: lines =>
    if prev_line_continuable && isLWS (line.getD 0 0) then
      -- Join continuation; reduce the leading LWS to a single SP.
      0x20 :: line.dropWhile isLWS ++ assembleLines prev_line_continuable lines
    else 0 :: line ++ assembleLines (isLineSegmentContinuable line) lines

section

variable (input : Bytes)

/-- The input without leading slop. -/
def skipSlop : Bytes := input.drop ((locateStartOfStatusLine input).getD 0)

/-- The status line. -/
def statusLineOf : Bytes := (skipSlop input).takeWhile fun c => !endsLine c

/-- The line segments behind the status line. -/
def segmentsOf : List Bytes :=
  tokenTexts endsLine ((skipSlop input).dropWhile fun c => !endsLine c)

/-- `HttpUtil::AssembleRawHeaders`. -/
def assembleRawHeaders : Bytes :=
  statusLineOf input ++ assembleLines false (segmentsOf input) ++ [0, 0]

end

def crlf : Bytes := [0x0d, 0x0a]

/-- `HttpUtil::ConvertHeadersBackToHTTPResponse`. -/
def convertHeadersBackToHTTPResponse (str : Bytes) : Bytes :=
  (tokenTexts (· == 0) str).flatMap (· ++ crlf) ++ crlf

/-- A line with the continuations that follow it, and the other lines. -/
def joinLines : Bytes -> List Bytes -> List Bytes
  | line, [] => [line]
  | line, seg :: segs =>
    if isLineSegmentContinuable line && isLWS (seg.getD 0 0) then
      joinLines (line ++ 0x20 :: seg.dropWhile isLWS) segs
    else line :: joinLines seg segs

/-- The header lines. -/
def headerLines : List Bytes -> List Bytes
  | [] => []
  | line :: segs => joinLines line segs

/-- A line does not continue the one in front of it. -/
def Apart (line next : Bytes) : Prop :=
  ¬(isLineSegmentContinuable line = true ∧ isLWS (next.getD 0 0) = true)

variable {line status text input : Bytes} {lines : List Bytes} {place : Nat}

theorem isLineSegmentContinuable_append (continuable : isLineSegmentContinuable line = true) :
    isLineSegmentContinuable (line ++ rest) = true := by
  unfold isLineSegmentContinuable at continuable ⊢
  grind

theorem getD_joinLines (line : Bytes) :
    ∃ rest others, joinLines line segs = (line ++ rest) :: others := by
  induction segs generalizing line with
  | nil => exact ⟨[], [], by rw [joinLines, append_nil]⟩
  | cons seg segs ih =>
    rw [joinLines]
    split
    · obtain ⟨rest, others, joined⟩ := ih (line ++ 0x20 :: seg.dropWhile isLWS)
      exact ⟨_, others, joined.trans (by rw [append_assoc])⟩
    · exact ⟨[], _, by rw [append_nil]⟩

theorem assembleLines_joinLines :
    0 :: line ++ assembleLines (isLineSegmentContinuable line) segs =
      (joinLines line segs).flatMap (0 :: ·) := by
  induction segs generalizing line with
  | nil => simp [assembleLines, joinLines]
  | cons seg segs ih =>
    rw [assembleLines, joinLines]
    split
    · rename_i continues
      rw [← ih, isLineSegmentContinuable_append (Bool.and_eq_true_iff.mp continues).1,
        (Bool.and_eq_true_iff.mp continues).1]
      simp
    · rw [ih, flatMap_cons]

theorem isChain_joinLines (line : Bytes) (some_ : ∀ seg ∈ segs, seg ≠ []) :
    (joinLines line segs).IsChain Apart := by
  induction segs generalizing line with
  | nil => exact .singleton line
  | cons seg segs ih =>
    have rest := ih (line ++ 0x20 :: seg.dropWhile isLWS) (forall_mem_cons.mp some_).2
    rw [joinLines]
    split
    · exact rest
    · rename_i apart
      have others := ih seg (forall_mem_cons.mp some_).2
      obtain ⟨back, lines, joined⟩ := getD_joinLines seg
      rw [joined] at others ⊢
      refine .cons_cons ?_ others
      obtain ⟨first, tail, rfl⟩ := exists_cons_of_ne_nil (some_ seg mem_cons_self)
      simpa [Apart] using apart

/-- What holds of a line with its continuations, if it holds of the segments. -/
theorem forall_joinLines {P : UInt8 -> Prop} (space : P 0x20)
    (all : ∀ seg ∈ line :: segs, seg ≠ [] ∧ ∀ c ∈ seg, P c) :
    ∀ joined ∈ joinLines line segs, joined ≠ [] ∧ ∀ c ∈ joined, P c := by
  induction segs generalizing line with
  | nil => exact all
  | cons seg segs ih =>
    rw [joinLines]
    split
    · refine ih (forall_mem_cons.mpr ⟨⟨by simp, fun c mem => ?_⟩,
        fun other later => all other (by simp [later])⟩)
      rcases mem_append.mp mem with inLine | inSegment
      · exact (all line mem_cons_self).2 c inLine
      · rcases mem_cons.mp inSegment with rfl | inRest
        · exact space
        · exact (all seg (by simp)).2 c ((dropWhile_suffix _).subset inRest)
    · exact forall_mem_cons.mpr ⟨all line mem_cons_self, ih (forall_mem_cons.mp all).2⟩

/-- Lines that are apart are not joined. -/
theorem assembleLines_of_isChain (apart : (line :: lines).IsChain Apart) :
    assembleLines (isLineSegmentContinuable line) lines = lines.flatMap (0 :: ·) := by
  induction lines generalizing line with
  | nil => rfl
  | cons next lines ih =>
    obtain ⟨first, rest⟩ := isChain_cons_cons.mp apart
    rw [assembleLines, if_neg (by simpa [Apart] using first), ih rest, flatMap_cons]

section

variable {isDelim : UInt8 -> Bool} {delim : UInt8}

theorem mem_tokenTexts (mem : piece ∈ tokenTexts isDelim text) :
    piece ≠ [] ∧ ∀ c ∈ piece, c ∈ text ∧ isDelim c = false := by
  obtain ⟨inSplit, some_⟩ := mem_filter.mp mem
  exact ⟨of_decide_eq_true some_, fun c => Library.mem_of_mem_splitOnP inSplit⟩

theorem tokenTexts_append_cons
    (plain : ∀ c ∈ piece, isDelim c = false) (ends : isDelim delim = true) (text : Bytes) :
    tokenTexts isDelim (piece ++ delim :: text) =
      [piece].filter (· ≠ []) ++ tokenTexts isDelim text := by
  rw [tokenTexts, splitOnP_append_cons_of_forall_mem plain _ ends,
    ← singleton_append, filter_append]
  rfl

end

theorem tokenTexts_nulls (noNull : ∀ line ∈ status :: lines, ∀ c ∈ line, c ≠ 0) :
    tokenTexts (· == 0) (status ++ lines.flatMap (0 :: ·) ++ [0, 0]) =
      (status :: lines).filter (· ≠ []) := by
  induction lines generalizing status with
  | nil =>
    rw [flatMap_nil, append_nil, tokenTexts_append_cons (by simpa using noNull) rfl]
    exact append_nil _
  | cons line lines ih =>
    rw [forall_mem_cons] at noNull
    rw [flatMap_cons, append_assoc, append_assoc, cons_append,
      tokenTexts_append_cons (by simpa using noNull.1) rfl, ← append_assoc, ih noNull.2,
      ← filter_append]
    rfl

theorem tokenTexts_crlfs (all : ∀ line ∈ lines, line ≠ [] ∧ ∀ c ∈ line, endsLine c = false) :
    tokenTexts endsLine (crlf ++ (lines.flatMap (· ++ crlf) ++ crlf)) = lines := by
  have skipped : ∀ text, tokenTexts endsLine (crlf ++ text) = tokenTexts endsLine text := by
    intro text
    have first := @tokenTexts_append_cons endsLine 0x0d [] (by simp) rfl (0x0a :: text)
    exact first.trans (@tokenTexts_append_cons endsLine 0x0a [] (by simp) rfl text)
  induction lines with
  | nil => rfl
  | cons line lines ih =>
    obtain ⟨some_, plain⟩ := all line mem_cons_self
    rw [skipped, flatMap_cons, append_assoc, append_assoc]
    have first := @tokenTexts_append_cons endsLine 0x0d line plain rfl
      (0x0a :: (lines.flatMap (· ++ crlf) ++ crlf))
    refine first.trans ?_
    have kept : [line].filter (· ≠ []) = [line] := by simpa using some_
    have rest := ih (forall_mem_cons.mp all).2
    rw [skipped] at rest
    rw [kept, singleton_append]
    exact congrArg _ ((skipped _).symm.trans ((skipped _).trans rest))

/-- "http" is at a place of a text. -/
def HttpAt (text : Bytes) (place : Nat) : Prop :=
  lowerCaseEqualsASCII ((text.drop place).take 4) "http" = true

theorem HttpAt.window (hit : HttpAt text place) : ((text.drop place).take 4).length = 4 ∧
      ∀ c ∈ (text.drop place).take 4, c ≠ 0 ∧ endsLine c = false := by
  have same := beq_iff_eq.mp hit
  have four : (ascii "http").length = 4 := by decide
  have length := (congrArg length same).trans four
  refine ⟨(length_map _).symm.trans length, fun c mem => ?_⟩
  have lower := same ▸ List.mem_map_of_mem mem
  constructor
  · rintro rfl
    exact absurd lower (by decide)
  · rw [endsLine, Bool.or_eq_false_iff, beq_eq_false_iff_ne, beq_eq_false_iff_ne]
    constructor <;> rintro rfl <;> exact absurd lower (by decide)

theorem HttpAt.inside (hit : HttpAt text place) : place + 4 <= text.length := by
  have length := hit.window.1
  rw [length_take, length_drop] at length
  omega

theorem httpAt_append (inside : place + 4 <= front.length) : HttpAt
    (front ++ back) place ↔ HttpAt front place := by
  unfold HttpAt
  rw [drop_append_of_le_length (by omega), take_append_of_le_length (by rw [length_drop]; omega)]

theorem httpAt_append_add (front back : Bytes) :
    HttpAt (front ++ back) (front.length + place) ↔ HttpAt back place := by
  unfold HttpAt
  rw [drop_length_add_append]

/-- It is not across the end of a line. -/
theorem HttpAt.apart (hit : HttpAt (front ++ c :: back) place) (ends : endsLine c = true) :
    place + 4 <= front.length ∨ front.length < place := by
  by_contra across
  have mem : c ∈ ((front ++ c :: back).drop place).take 4 := by
    refine mem_iff_getElem?.mpr ⟨front.length - place, ?_⟩
    rw [getElem?_take_of_lt (by omega), getElem?_drop,
      show place + (front.length - place) = front.length by omega]
    simp
  have plain := (hit.window.2 c mem).2
  rw [ends] at plain
  cases plain

theorem locateStartOfStatusLine_eq_some : locateStartOfStatusLine buf = some start ↔
      start <= 4 ∧ HttpAt buf start ∧ ∀ place < start, ¬HttpAt buf place := by
  unfold locateStartOfStatusLine
  split
  · rw [find?_range_eq_some, mem_range]
    constructor
    · rintro ⟨hit, near, first⟩
      exact ⟨by omega, hit, fun place before => by simpa [HttpAt] using first place before⟩
    · rintro ⟨near, hit, first⟩
      have inside := hit.inside
      exact ⟨hit, by omega, fun place before => by simpa [HttpAt] using first place before⟩
  · refine iff_of_false (by simp) fun hit => ?_
    have inside := hit.2.1.inside
    omega

theorem locateStartOfStatusLine_of_httpAt (hit : HttpAt buf place) (near : place <= 4) :
    ∃ start, locateStartOfStatusLine buf = some start := by
  classical
  have some_ : ∃ place, HttpAt buf place := ⟨place, hit⟩
  exact ⟨Nat.find some_, locateStartOfStatusLine_eq_some.mpr
    ⟨(Nat.find_min' some_ hit).trans near, Nat.find_spec some_,
      fun other before => Nat.find_min some_ before⟩⟩

theorem assembleLines_segments :
    assembleLines false segs = (headerLines segs).flatMap (0 :: ·) := by
  cases segs with
  | nil => rfl
  | cons line segs => exact assembleLines_joinLines

theorem assembleLines_lines (apart : lines.IsChain Apart) :
    assembleLines false lines = lines.flatMap (0 :: ·) := by
  cases lines with
  | nil => rfl
  | cons line lines =>
    rw [flatMap_cons, ← assembleLines_of_isChain apart]
    rfl

/-- What the bytes of an input without null bytes are assembled to. -/
structure Assembled (status : Bytes) (lines : List Bytes) : Prop where
  all : ∀ line ∈ lines, line ≠ [] ∧ ∀ c ∈ line, c ≠ 0 ∧ endsLine c = false
  apart : lines.IsChain Apart
  status : ∀ c ∈ status, c ≠ 0 ∧ endsLine c = false

theorem assembled (noNull : 0 ∉ input) :
    Assembled (statusLineOf input) (headerLines (segmentsOf input)) := by
  have fromInput : ∀ c ∈ skipSlop input, c ≠ 0 := by
    rintro c mem rfl
    exact noNull ((drop_suffix _ _).subset mem)
  have segs : ∀ seg ∈ segmentsOf input, seg ≠ [] ∧ ∀ c ∈ seg, c ≠ 0 ∧ endsLine c = false := by
    intro seg mem
    obtain ⟨some_, plain⟩ := mem_tokenTexts mem
    exact ⟨some_, fun c inSegment => ⟨fromInput c ((dropWhile_suffix _).subset
      (plain c inSegment).1), (plain c inSegment).2⟩⟩
  refine ⟨?_, ?_, fun c mem => ⟨fromInput c (( takeWhile_prefix _).subset mem), ?_⟩⟩
  · cases isSegments : segmentsOf input with
    | nil => simp [headerLines]
    | cons line rest => exact forall_joinLines ⟨by decide, by decide⟩ (isSegments ▸ segs)
  · cases isSegments : segmentsOf input with
    | nil => exact .nil
    | cons line rest =>
      rw [isSegments] at segs
      exact isChain_joinLines line fun seg later =>
        (segs seg (mem_cons_of_mem _ later)).1
  · simpa using mem_takeWhile_imp mem

/-- The text that the assembled bytes are converted to. -/
theorem convert_assembled (assembled : Assembled status lines) (some_ : status ≠ []) :
    convertHeadersBackToHTTPResponse (status ++ lines.flatMap (0 :: ·) ++ [0, 0]) =
      status ++ (crlf ++ (lines.flatMap (· ++ crlf) ++ crlf)) := by
  have noNull : ∀ line ∈ status :: lines, ∀ c ∈ line, c ≠ 0 :=
    forall_mem_cons.mpr ⟨fun c mem => (assembled.status c mem).1,
      fun line mem c inLine => ((assembled.all line mem).2 c inLine).1⟩
  have kept : (status :: lines).filter (· ≠ []) = status :: lines := by
    rw [filter_eq_self]
    exact forall_mem_cons.mpr ⟨decide_eq_true some_,
      fun line mem => decide_eq_true (assembled.all line mem).1⟩
  rw [convertHeadersBackToHTTPResponse, tokenTexts_nulls noNull, kept, flatMap_cons]
  simp

/-- The text is assembled to the same bytes if its first line stays. -/
theorem assembleRawHeaders_text (assembled : Assembled status lines)
    (stays : skipSlop (status ++ (crlf ++ (lines.flatMap (· ++ crlf) ++ crlf))) =
      status ++ (crlf ++ (lines.flatMap (· ++ crlf) ++ crlf))) :
    assembleRawHeaders (status ++ (crlf ++ (lines.flatMap (· ++ crlf) ++ crlf))) =
      status ++ lines.flatMap (0 :: ·) ++ [0, 0] := by
  have plain : ∀ c ∈ status, (!endsLine c) = true := fun c mem => by
    rw [(assembled.status c mem).2]
    rfl
  rw [assembleRawHeaders, statusLineOf, segmentsOf, stays,
    takeWhile_append_of_pos plain, dropWhile_append_of_pos plain,
    ← assembleLines_lines assembled.apart]
  have noStatus : ∀ text, (crlf ++ text).takeWhile (fun c => !endsLine c) = [] := fun text => rfl
  have all : ∀ text, (crlf ++ text).dropWhile (fun c => !endsLine c) = crlf ++ text :=
    fun text => rfl
  rw [noStatus, all, append_nil, tokenTexts_crlfs fun line mem =>
    ⟨(assembled.all line mem).1, fun c inLine => ((assembled.all line mem).2 c inLine).2⟩]

/-- A text with "http" at its front has a status line of at least these bytes. -/
theorem HttpAt.takeWhile (hit : HttpAt text 0) :
    ∃ rest, (text.takeWhile fun c => !endsLine c) = text.take 4 ++ rest := by
  have window := hit.window.2
  rw [drop_zero] at window
  refine ⟨_, (congrArg _ (take_append_drop 4 text).symm).trans
    (takeWhile_append_of_pos fun c mem => ?_)⟩
  rw [(window c mem).2]
  rfl

theorem httpAt_skipSlop
    (located : locateStartOfStatusLine input = some start) : HttpAt (skipSlop input) 0 := by
  have hit := (locateStartOfStatusLine_eq_some.mp located).2.1
  rw [skipSlop, located, getD_some]
  exact hit

theorem skipSlop_text (noNull : 0 ∉ input) (some_ : statusLineOf input ≠ [])
    (noHttp : ¬∃ place, (statusLineOf input).length + place <= 2 ∧
      HttpAt ((headerLines (segmentsOf input)).headD []) place) :
    let text := statusLineOf input ++
      (crlf ++ ((headerLines (segmentsOf input)).flatMap (· ++ crlf) ++ crlf))
    skipSlop text = text := by
  intro text
  have all := (assembled noNull).all
  have begins : skipSlop input = statusLineOf input ++
      (skipSlop input).dropWhile fun c => !endsLine c := takeWhile_append_dropWhile.symm
  have length := length_pos_iff.mpr some_
  cases located : locateStartOfStatusLine text with
  | none => rw [skipSlop, located, getD_none, drop_zero]
  | some start =>
    obtain ⟨near, hit, first⟩ := locateStartOfStatusLine_eq_some.mp located
    rcases Nat.eq_zero_or_pos start with rfl | positive
    · rw [skipSlop, located, getD_some, drop_zero]
    exfalso
    have notFound : locateStartOfStatusLine input = none := by
      by_contra isFound
      obtain ⟨place, located⟩ := ne_none_iff_exists'.mp isFound
      have atFront := httpAt_skipSlop located
      obtain ⟨rest, status⟩ := atFront.takeWhile
      have inside := atFront.inside
      have four : 0 + 4 <= ((skipSlop input).take 4).length := by
        rw [length_take]
        omega
      refine first 0 positive ?_
      rw [← take_append_drop 4 (skipSlop input), httpAt_append four] at atFront
      dsimp only [text]
      rw [statusLineOf, status, append_assoc]
      exact (httpAt_append four).mpr atFront
    have same : skipSlop input = input := by rw [skipSlop, notFound, getD_none, drop_zero]
    rcases hit.apart rfl with inStatus | behind
    · have inInput : HttpAt input start := by
        rw [← same, begins]
        exact (httpAt_append inStatus).mpr ((httpAt_append inStatus).mp hit)
      obtain ⟨place, isFound⟩ := locateStartOfStatusLine_of_httpAt inInput near
      rw [notFound] at isFound
      cases isFound
    have split : text = (statusLineOf input ++ [0x0d]) ++ 0x0a ::
        ((headerLines (segmentsOf input)).flatMap (· ++ crlf) ++ crlf) := by
      simp [text, crlf]
    have later := (split ▸ hit).apart rfl
    rw [length_append, length_singleton] at later
    obtain ⟨place, rfl⟩ : ∃ place, start = (statusLineOf input ++ crlf).length + place := by
      refine ⟨start - (statusLineOf input).length - 2, ?_⟩
      rw [length_append, show crlf.length = 2 from rfl]
      omega
    rw [length_append, show crlf.length = 2 from rfl] at near
    have inLines : HttpAt ((headerLines (segmentsOf input)).flatMap (· ++ crlf) ++ crlf) place := by
      dsimp only [text] at hit
      rw [← append_assoc, httpAt_append_add] at hit
      exact hit
    cases lines : headerLines (segmentsOf input) with
    | nil =>
      rw [lines] at inLines
      have inside := inLines.inside
      simp [crlf] at inside
    | cons line rest =>
      rw [lines] at inLines all noHttp
      rw [flatMap_cons, append_assoc, append_assoc] at inLines
      have lineSome := length_pos_iff.mpr (all line mem_cons_self).1
      rcases inLines.apart rfl with inLine | after
      · exact noHttp ⟨place, by omega, (httpAt_append inLine).mp inLines⟩
      · omega

/-- A first header that starts like a status line is taken for one. -/
theorem assembleRawHeaders_text_ne (short : status.length + place ≤ 2) (hit : HttpAt line place) :
    assembleRawHeaders (status ++ (crlf ++ ((line :: lines).flatMap (· ++ crlf) ++ crlf))) ≠
      status ++ (line :: lines).flatMap (0 :: ·) ++ [0, 0] := by
  intro same
  have inText : HttpAt (status ++ (crlf ++ ((line :: lines).flatMap (· ++ crlf) ++ crlf)))
      ((status ++ crlf).length + place) := by
    rw [← append_assoc, httpAt_append_add, flatMap_cons, append_assoc, append_assoc]
    exact (httpAt_append hit.inside).mpr hit
  obtain ⟨start, located⟩ := locateStartOfStatusLine_of_httpAt inText (by
    rw [length_append, show crlf.length = 2 from rfl]
    omega)
  have atFront := httpAt_skipSlop located
  obtain ⟨rest, isStatus⟩ := atFront.takeWhile
  obtain ⟨length, plain⟩ := atFront.window
  rw [drop_zero] at length plain
  rw [assembleRawHeaders, statusLineOf, isStatus] at same
  generalize (skipSlop _).take 4 = window at same length plain
  have inWindow := congrArg (·[status.length]?) same
  simp only [append_assoc, flatMap_cons, cons_append] at inWindow
  rw [getElem?_append_left (by omega), getElem?_append_right (le_refl _),
    Nat.sub_self, getElem?_cons_zero] at inWindow
  exact (plain 0 (mem_of_getElem? inWindow)).1 rfl

/-- The lines behind the status line are not empty, and none continues another.
Assembled once more they stay, unless the first is then found to be a status
line behind slop. -/
theorem assembleRawHeaders_spec {input : Bytes} (noNull : 0 ∉ input) :
    ∃ (status : Bytes) (lines : List Bytes),
      assembleRawHeaders input = status ++ lines.flatMap (0 :: ·) ++ [0, 0] ∧
      0 ∉ status ∧ (∀ line ∈ lines, line ≠ [] ∧ 0 ∉ line) ∧ lines.IsChain Apart ∧ (status ≠ [] ->
        (assembleRawHeaders (convertHeadersBackToHTTPResponse (assembleRawHeaders input)) =
            assembleRawHeaders input ↔ ¬∃ place, status.length + place <= 2 ∧
            lowerCaseEqualsASCII (((lines.headD []).drop place).take 4) "http" = true)) := by
  have assembled := assembled noNull
  have bytes : assembleRawHeaders input = statusLineOf input ++
      (headerLines (segmentsOf input)).flatMap (0 :: ·) ++ [0, 0] := by
    rw [assembleRawHeaders, assembleLines_segments]
  refine ⟨_, _, bytes, fun null => (assembled.status 0 null).1 rfl,
    fun line member => ⟨(assembled.all line member).1,
      fun null => ((assembled.all line member).2 0 null).1 rfl⟩, assembled.apart,
    fun some_ => ?_⟩
  rw [bytes, convert_assembled assembled some_]
  constructor
  · rintro same ⟨place, short, found⟩
    cases lines : headerLines (segmentsOf input) with
    | nil =>
      rw [lines] at found
      have inside := HttpAt.inside found
      simp at inside
    | cons line rest =>
      rw [lines] at same found
      exact assembleRawHeaders_text_ne short found same
  · exact fun noHttp => assembleRawHeaders_text assembled (skipSlop_text noNull some_ noHttp)

theorem assembleRawHeaders_slop : ∃ (status : Bytes) (lines : List Bytes),
      assembleRawHeaders (ascii " HTTP/1.0\r\nA: b\n\tc") =
        status ++ lines.flatMap (0 :: ·) ++ [0, 0] ∧ lines.IsChain Apart := by
  obtain ⟨status, lines, bytes, -, -, apart, -⟩ :=
    @assembleRawHeaders_spec (ascii " HTTP/1.0\r\nA: b\n\tc") (by decide)
  exact ⟨status, lines, bytes, apart⟩

theorem not_assembleRawHeaders_idempotent : ¬∀ input, 0 ∉ input ->
      assembleRawHeaders (convertHeadersBackToHTTPResponse (assembleRawHeaders input)) =
        assembleRawHeaders input :=
  fun idempotent => absurd (idempotent (ascii "a\n\n\n\nhttp") (by decide)) (by decide)

end Chromium.Net.HttpUtil
