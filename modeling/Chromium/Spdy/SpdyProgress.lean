import Chromium.Spdy.SpdyDeliveries

/-!
# Fine frames are read

A framer that is fed fine frames, cut into any pieces, consumes them all and has
then delivered them. A round without input leads closer to one that reads some.
-/

namespace Chromium.Spdy

open List
open Library (Whole)
open SpdyFramer (Turned processInput)

variable {σ : Type}

/-- A whole frame of which the header is fine. -/
structure FineFrame (p : Platform σ) (frame : SpdyFrame) : Prop where
  whole : WholeFrame frame
  control : frame.is_control_frame -> FineControl p frame ∧ frame.type? ≠ some .NOOP
  plain : frame.is_control_frame = false -> frame.flags &&& DATA_FLAG_COMPRESSED = 0

namespace SpdyFramer

/-- The number of rounds, at most, until bytes are read, and one more. -/
def rank (framer : SpdyFramer σ) : Nat :=
  match framer.state_ with
  | .SPDY_FORWARD_STREAM_FRAME => if framer.remaining_payload_ = 0 then 3 else 1
  | .SPDY_RESET | .SPDY_AUTO_RESET => 2
  | .SPDY_READING_COMMON_HEADER =>
    if framer.current_frame_buffer_.length = SpdyFrame.size then 5 else 1
  | .SPDY_INTERPRET_CONTROL_FRAME_COMMON_HEADER => 4
  | .SPDY_CONTROL_FRAME_PAYLOAD => if framer.remaining_payload_ = 0 then 3 else 1
  | _ => 0

/-- The number of rounds, at most, for some bytes. -/
def work (framer : SpdyFramer σ) (data : Bytes) : Nat := 6 * data.length + framer.rank

variable {p : Platform σ} {framer next : SpdyFramer σ} {data rest : Bytes}

theorem rank_le (framer : SpdyFramer σ) : framer.rank <= 5 := by
  rw [rank]
  split <;> (try split) <;> decide

theorem work_lt_of_read (isPiece : piece ≠ []) : next.work rest < framer.work (piece ++ rest) := by
  have pos := length_pos_iff.mpr isPiece
  have bound := next.rank_le
  rw [work, work, length_append]
  omega

theorem work_lt_of_rank (less : next.rank < framer.rank) : next.work data < framer.work data :=
  Nat.add_lt_add_left less _

/-- A round reads bytes, or lowers the rank. -/
theorem work_lt (ne : data ≠ []) (plain : framer.state_ = .SPDY_FORWARD_STREAM_FRAME ->
      framer.current_frame_buffer_.flags &&& DATA_FLAG_COMPRESSED = 0)
    (turned : Turned p framer data next rest) :
    next.work rest < framer.work data := by
  cases turned with
  | restart ready =>
    apply work_lt_of_rank
    have isRank : framer.rank = 2 := by
      rw [rank]
      rcases ready with isState | isState <;> rw [isState]
    have nextRank : (framer.reset.changeState .SPDY_READING_COMMON_HEADER).rank = 1 :=
      if_neg (by
        show framer.reset.current_frame_buffer_.length ≠ SpdyFrame.size
        rw [reset_buffer]
        decide)
    rw [isRank, nextRank]
    decide
  | header reading isPiece fits all more => exact work_lt_of_read isPiece
  | emptyData reading isPiece complete => exact work_lt_of_read isPiece
  | toData reading whole isData isNonempty =>
    apply work_lt_of_rank
    have isRank : framer.rank = 5 := by
      rw [rank, reading]
      exact if_pos whole
    rw [isRank, rank]
    dsimp only
    rw [if_neg isNonempty]
    decide
  | toControl reading whole isControl =>
    apply work_lt_of_rank
    have isRank : framer.rank = 5 := by
      rw [rank, reading]
      exact if_pos whole
    rw [isRank]
    exact Nat.lt_succ_self 4
  | refused error interpret unsupported =>
    apply work_lt_of_rank
    have isRank : framer.rank = 4 := by rw [rank, interpret]
    rw [isRank]
    exact Nat.succ_pos 3
  | swallowed interpret supported isNoop =>
    apply work_lt_of_rank
    have isRank : framer.rank = 4 := by rw [rank, interpret]
    rw [isRank]
    exact Nat.lt_of_sub_pos (Nat.succ_pos 1)
  | tooLarge type interpret isType large =>
    apply work_lt_of_rank
    have isRank : framer.rank = 4 := by rw [rank, interpret]
    rw [isRank]
    exact Nat.succ_pos 3
  | accepted type interpret supported isType payload small size =>
    apply work_lt_of_rank
    have isRank : framer.rank = 4 := by rw [rank, interpret]
    rw [isRank, rank]
    dsimp only
    split <;> decide
  | short type interpret supported isType small size =>
    apply work_lt_of_rank
    have isRank : framer.rank = 4 := by rw [rank, interpret]
    rw [isRank, rank]
    dsimp only
    split <;> decide
  | payload reading part =>
    rw [← append_nil data]
    exact work_lt_of_read ne
  | @control piece rest reading all =>
    by_cases isPiece : piece = []
    · subst isPiece
      apply work_lt_of_rank
      have isRank : framer.rank = 3 := by
        rw [rank, reading]
        exact if_pos all.symm
      rw [isRank]
      exact Nat.lt_succ_self 2
    · exact work_lt_of_read isPiece
  | forward decompressors forwards isPlain isPiece fits all => exact work_lt_of_read isPiece
  | forwarded forwards complete =>
    apply work_lt_of_rank
    have isRank : framer.rank = 3 := by
      rw [rank, forwards]
      exact if_pos complete
    rw [isRank]
    exact Nat.lt_succ_self 2
  | inflated read forwards compressed sameBuffer sameOverrun outcome =>
    exact (compressed (plain forwards)).elim

/-- Calls of `ProcessInput` for pieces of the input, each of them as far as it
ends in a number of rounds. -/
def processPieces (p : Platform σ) (rounds : Nat) :
    SpdyFramer σ -> List Bytes -> Option (SpdyFramer σ)
  | framer, [] => some framer
  | framer, piece :: pieces =>
    match processInput p rounds framer piece with
    | none => none
    | some (framer, _) => processPieces p rounds framer pieces

end SpdyFramer

variable {p : Platform σ} {feed : Feed σ} {frames done : List SpdyFrame}
  {part later : Bytes} {calls now : List VisitorCall}

theorem fineControl_of_append (whole : SpdyFrame.size <= header.length)
    (fine : FineControl p (header ++ back)) :
    FineControl p header where
  version := by
    rw [← SpdyFrame.version_append_right whole]
    exact fine.version
  small := by
    rw [← SpdyFrame.length_append_right whole]
    exact fine.small
  type := by
    have isFine := fine.type
    rw [SpdyFrame.type_append_right whole, SpdyFrame.length_append_right whole] at isFine
    exact isFine
  noop := by
    have isFine := fine.noop
    rw [SpdyFrame.type_append_right whole, SpdyFrame.length_append_right whole] at isFine
    exact isFine

section

variable (fine : ∀ frame ∈ frames, FineFrame p frame)
include fine

section

variable (inSync : InSync p feed done part calls now)
include inSync

section

variable (same : feed.consumed ++ (feed.data ++ later) = frames.flatten)
include same

/-- The header that was read is the front of a fine frame. -/
theorem fine_header {header : SpdyFrame} (isHeader : header.length = SpdyFrame.size)
    (isPart : ∃ read, part = header ++ read) :
    ∃ back, FineFrame p (header ++ back) := by
  obtain ⟨read, rfl⟩ := isPart
  have told : SpdyFrame.size <= (header ++ read).length := by
    rw [length_append, isHeader]
    exact Nat.le_add_right _ _
  rw [inSync.split, append_assoc] at same
  obtain ⟨next, after, isFrames, isNext⟩ :=
    Library.next_whole (by decide) SpdyFrame.length_append_right inSync.whole
      (fun frame mem => (fine frame mem).whole) told same
  have isFine : FineFrame p next := fine next (by
    rw [isFrames]
    exact mem_append_right _ mem_cons_self)
  have front : header = next.take SpdyFrame.size := by rw [← isNext, ← isHeader, take_left]
  refine ⟨next.drop SpdyFrame.size, ?_⟩
  rw [front, take_append_drop]
  exact isFine

theorem fineControl_of_inSync
    (interpret : feed.framer.state_ = .SPDY_INTERPRET_CONTROL_FRAME_COMMON_HEADER) :
    FineControl p feed.framer.current_frame_buffer_ := by
  have known := inSync.consistent
  rw [SpdyFramer.Consistent, interpret] at known
  have reads := inSync.reads
  rw [Reads, interpret] at reads
  obtain ⟨whole, isControl, -⟩ := known
  obtain ⟨back, isFine⟩ := fine_header fine inSync same whole ⟨[], by rw [reads.1, append_nil]⟩
  refine fineControl_of_append whole.ge (isFine.control ?_).1
  rw [SpdyFrame.is_control_frame_append_right whole.ge]
  exact isControl

theorem plain_of_inSync (forwards : feed.framer.state_ = .SPDY_FORWARD_STREAM_FRAME) :
    feed.framer.current_frame_buffer_.flags &&& DATA_FLAG_COMPRESSED = 0 := by
  have known := inSync.consistent
  rw [SpdyFramer.Consistent, forwards] at known
  have reads := inSync.reads
  rw [Reads, forwards] at reads
  obtain ⟨whole, isData⟩ := known
  obtain ⟨pieces, isPart, -⟩ := reads
  obtain ⟨back, isFine⟩ := fine_header fine inSync same whole ⟨_, isPart⟩
  rw [← SpdyFrame.flags_append_right whole.ge]
  apply isFine.plain
  rw [SpdyFrame.is_control_frame_append_right whole.ge]
  exact isData

end

end

end

/-- A framer in sync has another round. -/
theorem turn_isSome_of_inSync (inSync : InSync p feed done part calls now) :
    ∃ next rest, feed.framer.turn p feed.data = some (next, rest) := by
  have reads := inSync.reads
  cases isState : feed.framer.state_ with
  | SPDY_ERROR | SPDY_DONE | SPDY_IGNORE_REMAINING_PAYLOAD =>
    rw [Reads, isState] at reads
    exact reads.elim
  | _ =>
    rw [SpdyFramer.turn, isState]
    exact ⟨_, _, rfl⟩

/-- `ProcessInput` ends and consumes all of its input, in sync. -/
theorem processInput_of_inSync (fine : ∀ frame ∈ frames, FineFrame p frame) (rounds : Nat)
    (feed : Feed σ) (enough : feed.framer.work feed.data <= rounds)
    (synced : ∃ done part calls now, InSync p feed done part calls now)
    (same : feed.consumed ++ (feed.data ++ later) = frames.flatten) :
    ∃ last : Feed σ, processInput p rounds feed.framer feed.data = some (last.framer, []) ∧
      last.data = [] ∧ last.consumed = feed.consumed ++ feed.data ∧
      ∃ done part calls now, InSync p last done part calls now := by
  induction rounds generalizing feed with
  | zero =>
    have nothing : feed.data = [] := by
      rw [SpdyFramer.work] at enough
      exact length_eq_zero_iff.mp (by omega)
    refine ⟨feed, ?_, nothing, ?_, synced⟩
    · rw [nothing, processInput]
    · rw [nothing, append_nil]
  | succ rounds ih =>
    by_cases nothing : feed.data = []
    · refine ⟨feed, ?_, nothing, ?_, synced⟩
      · rw [nothing, processInput]
      · rw [nothing, append_nil]
    · obtain ⟨done, part, calls, now, inSync⟩ := synced
      obtain ⟨next, rest, turns⟩ := turn_isSome_of_inSync inSync
      have turned := SpdyFramer.turn_cases inSync.consistent nothing turns
      have plain := plain_of_inSync fine inSync same
      have less := SpdyFramer.work_lt nothing plain turned
      have nextSynced := inSync.turn nothing (fineControl_of_inSync fine inSync same) plain turned
      obtain ⟨piece, isData⟩ := Feed.turned_split turned
      have consumed := @InSync.consumed_advance σ feed next piece rest isData
      have nextSame : (feed.advance next rest).consumed ++ (rest ++ later) = frames.flatten := by
        rw [consumed, ← same, isData]
        simp only [append_assoc]
      obtain ⟨last, ends, isReturned, lastConsumed, lastSynced⟩ :=
        ih (feed.advance next rest) (Nat.le_of_lt_succ (Nat.lt_of_lt_of_le less enough)) nextSynced
          nextSame
      refine ⟨last, ?_, isReturned, ?_, lastSynced⟩
      · obtain ⟨byte, data, isCons⟩ := exists_cons_of_ne_nil nothing
        rw [isCons] at turns ⊢
        rw [processInput, turns]
        exact ends
      · rw [lastConsumed, consumed, isData]
        exact append_assoc _ _ _

/-- So do the calls for all pieces of the input. -/
theorem processPieces_of_inSync (fine : ∀ frame ∈ frames, FineFrame p frame)
    (pieces : List Bytes) (feed : Feed σ)
    (synced : ∃ done part calls now, InSync p feed done part calls now)
    (isReturned : feed.data = []) (same : feed.consumed ++ pieces.flatten = frames.flatten) :
    ∃ last : Feed σ, SpdyFramer.processPieces p (6 * frames.flatten.length + 5)
        feed.framer pieces = some last.framer ∧ last.data = [] ∧ last.consumed = frames.flatten ∧
      ∃ done part calls now, InSync p last done part calls now := by
  induction pieces generalizing feed with
  | nil =>
    refine ⟨feed, rfl, isReturned, ?_, synced⟩
    rw [← same, flatten_nil, append_nil]
  | cons piece pieces ih =>
    rw [flatten_cons] at same
    obtain ⟨done, part, calls, now, inSync⟩ := synced
    -- Nothing is left of the call before.
    have fed : ∃ done part calls now, InSync p { feed with data := piece } done part calls now := by
      refine ⟨done, part, calls, now, { inSync with begun := ?_ }⟩
      exact fun reading nothing => (inSync.begun reading nothing isReturned).elim
    have enough : feed.framer.work piece <= 6 * frames.flatten.length + 5 := by
      have bound := feed.framer.rank_le
      have fits : piece.length <= frames.flatten.length := by
        rw [← same, length_append, length_append]
        omega
      rw [SpdyFramer.work]
      omega
    obtain ⟨next, ends, nextReturned, nextConsumed, nextSynced⟩ :=
      processInput_of_inSync fine _ { feed with data := piece } enough fed same
    have nextSame : next.consumed ++ pieces.flatten = frames.flatten := by
      rw [nextConsumed, ← same, append_assoc]
    obtain ⟨last, restEnds, lastReturned, lastConsumed, lastSynced⟩ :=
      ih next nextSynced nextReturned nextSame
    refine ⟨last, ?_, lastReturned, lastConsumed, lastSynced⟩
    rw [SpdyFramer.processPieces, ends]
    exact restEnds

/-- A fine frame has more than its header if it is a control frame. -/
theorem payload_of_fine (fine : FineFrame p frame) (isControl : frame.is_control_frame) :
    0 < frame.length_ := by
  obtain ⟨isFine, notNoop⟩ := fine.control isControl
  obtain ⟨type, isType, size⟩ := isFine.type
  refine pos_of_sizeAccepted ?_ size
  rintro rfl
  exact notNoop isType

/-- A last frame that is complete has been delivered. -/
theorem delivers_last (fine : FineFrame p part)
    (inSync : InSync p feed done part calls now) (whole : WholeFrame part) :
    Delivers part now := by
  have known := inSync.consistent
  have reads := inSync.reads
  rw [WholeFrame, Whole] at whole
  cases isState : feed.framer.state_ with
  | SPDY_ERROR | SPDY_DONE | SPDY_IGNORE_REMAINING_PAYLOAD =>
    rw [Reads, isState] at reads
    exact reads.elim
  | SPDY_RESET | SPDY_AUTO_RESET =>
    rw [Reads, isState] at reads
    obtain ⟨rfl, -⟩ := reads
    rw [length_nil, SpdyFrame.size] at whole
    omega
  | SPDY_READING_COMMON_HEADER =>
    rw [Reads, isState] at reads
    rw [SpdyFramer.Consistent, isState] at known
    obtain ⟨rfl, -⟩ := reads
    obtain ⟨fits, -, notEmpty⟩ := known
    have isEmpty : feed.framer.current_frame_buffer_.length_ = 0 := by omega
    cases isControl : feed.framer.current_frame_buffer_.is_control_frame with
    | true => exact absurd isEmpty (payload_of_fine fine isControl).ne'
    | false => exact (notEmpty ⟨by omega, isControl, isEmpty⟩).elim
  | SPDY_INTERPRET_CONTROL_FRAME_COMMON_HEADER =>
    rw [Reads, isState] at reads
    rw [SpdyFramer.Consistent, isState] at known
    obtain ⟨rfl, -⟩ := reads
    have pos := payload_of_fine fine known.2.1
    omega
  | SPDY_CONTROL_FRAME_PAYLOAD =>
    rw [Reads, isState] at reads
    rw [SpdyFramer.Consistent, isState] at known
    obtain ⟨rfl, -, -, -, more⟩ := reads
    omega
  | SPDY_FORWARD_STREAM_FRAME =>
    rw [Reads, isState] at reads
    rw [SpdyFramer.Consistent, isState] at known
    obtain ⟨pieces, rfl, ne, fits, rfl⟩ := reads
    obtain ⟨isHeader, isData⟩ := known
    rw [SpdyFrame.length_append_right isHeader.ge, length_append, isHeader] at whole
    rw [if_pos (by omega)]
    exact delivers_data isHeader isData ne

/-- A framer that has consumed fine frames has delivered them. -/
theorem deliversAll_of_inSync (fine : ∀ frame ∈ frames, FineFrame p frame)
    (inSync : InSync p feed done part calls now) (isReturned : feed.data = [])
    (consumed : feed.consumed = frames.flatten) :
    DeliversAll frames feed.framer.calls := by
  have whole : ∀ frame ∈ frames, WholeFrame frame := fun frame mem => (fine frame mem).whole
  have same : done.flatten ++ part = frames.flatten := by rw [← inSync.split, consumed]
  rw [inSync.isCalls]
  rcases Nat.lt_or_ge part.length (SpdyFrame.size + SpdyFrame.length_ part)
    with incomplete | complete
  · obtain ⟨rfl, rfl⟩ := Library.whole_unique (by decide)
      SpdyFrame.length_append_right inSync.whole whole incomplete same
    have silent : now = [] := by
      have reads := inSync.reads
      by_cases ready : Ready feed.framer
      · rcases ready with isState | isState <;>
        · rw [Reads, isState] at reads
          exact reads.2
      · exact (inSync.begun ready rfl isReturned).elim
    rw [silent, append_nil]
    exact inSync.delivers
  · have isWhole : WholeFrame part := Nat.le_antisymm (part_of_inSync inSync).1 complete
    have allWhole : ∀ frame ∈ done ++ [part], WholeFrame frame :=
      forall_mem_append.mpr ⟨inSync.whole, forall_mem_singleton.mpr isWhole⟩
    have sameAll : (done ++ [part]).flatten ++ [] = frames.flatten := by
      rw [← same]
      simp
    obtain ⟨rfl, -⟩ := Library.whole_unique (by decide)
      SpdyFrame.length_append_right allWhole whole (by decide) sameAll
    have isFine : FineFrame p part := fine part (mem_append_right _ mem_cons_self)
    exact .concat inSync.delivers (delivers_last isFine inSync isWhole)

end Chromium.Spdy
