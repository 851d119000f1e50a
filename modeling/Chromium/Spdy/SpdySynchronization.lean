import Chromium.Library.Run
import Chromium.Spdy.SpdyDeliveries

/-!
# Synchronization

The headers that the framer recognizes start where the lengths of the frames
tell, unless a NOOP frame has a payload. The framer takes that for the next
frame.
-/

namespace Chromium.Spdy

open List Option
open Library (Whole frameStarts startsFrom beginnings)
open SpdyFramer (Turned sizeAccepted)

variable {σ : Type}

/-- The offsets that are got by adding the width of a header and the length
that it tells, again and again. -/
def headerStarts (bytes : Bytes) : List Nat :=
  frameStarts SpdyFrame.size SpdyFrame.length_ bytes

/-- No NOOP frame with more bytes behind its header has a payload. -/
def EmptyNoops (bytes : Bytes) : Prop :=
  ∀ start ∈ headerStarts bytes, start + SpdyFrame.size < bytes.length → EmptyNoop (bytes.drop start)

/-- No data frame is compressed. -/
def Uncompressed (bytes : Bytes) : Prop :=
  ∀ start ∈ headerStarts bytes, start + SpdyFrame.size <= bytes.length ->
    SpdyFrame.is_control_frame (bytes.drop start) = false ->
    SpdyFrame.flags (bytes.drop start) &&& DATA_FLAG_COMPRESSED = 0

/-- The header of a NOOP frame with a payload. -/
structure FullNoop (header : SpdyFrame) : Prop where
  whole : header.length = SpdyFrame.size
  isControl : header.is_control_frame
  isNoop : header.type? = some .NOOP
  nonempty : 0 < header.length_

namespace Feed

/-- A NOOP frame with a payload has just been swallowed. -/
def Swallowed (feed : Feed σ) : Prop :=
  feed.framer.state_ = .SPDY_AUTO_RESET ∧ ∃ (frames : List SpdyFrame) (header : SpdyFrame),
      (∀ frame ∈ frames, WholeFrame frame) ∧
      (∀ frame ∈ frames, EmptyNoop frame) ∧ FullNoop header ∧
      feed.consumed = frames.flatten ++ header ∧
      feed.headers = beginnings 0 frames ++ [frames.flatten.length]

/-- The framer has begun to read a header in the payload of a NOOP frame. -/
def Strayed (feed : Feed σ) : Prop :=
  ∃ (frames : List SpdyFrame) (header : SpdyFrame) (later : Bytes),
    (∀ frame ∈ frames, WholeFrame frame) ∧ FullNoop header ∧
    feed.consumed = frames.flatten ++ (header ++ later) ∧
    frames.flatten.length + SpdyFrame.size ∈ feed.headers ∧
    later ++ feed.data ≠ []

/-- An error was reported. -/
def Failed (feed : Feed σ) : Prop := ∃ error, .OnError error ∈ feed.framer.calls

/-- The header of a compressed data frame was read. -/
def ReadCompressed (feed : Feed σ) : Prop :=
  ∃ (frames : List SpdyFrame) (header : SpdyFrame) (later : Bytes),
    (∀ frame ∈ frames, WholeFrame frame) ∧
    header.length = SpdyFrame.size ∧ header.is_control_frame = false ∧
    header.flags &&& DATA_FLAG_COMPRESSED ≠ 0 ∧
    feed.consumed = frames.flatten ++ (header ++ later)

/-- What is known between the steps. -/
structure Tracked (p : Platform σ) (feed : Feed σ) : Prop where
  consistent : feed.framer.Consistent
  failed : feed.framer.state_ = .SPDY_ERROR -> feed.Failed
  safe : feed.framer.overrun = false
  position : (∃ frames part calls now, InSync p feed frames part calls now) ∨
    feed.Swallowed ∨ feed.Strayed ∨ feed.Failed ∨ feed.ReadCompressed

variable {p : Platform σ} {feed next : Feed σ} {framer : SpdyFramer σ} {rest : Bytes}

theorem turned_calls {data : Bytes} (turned : Turned p before data framer rest) :
    ∃ added, framer.calls = before.calls ++ added := by
  cases turned with
  | restart => exact ⟨[], by
      rw [append_nil]
      exact before.reset_calls⟩
  | emptyData | refused | short | control => exact ⟨_, rfl⟩
  | tooLarge | forward => exact ⟨_, append_assoc _ _ _⟩
  | inflated read forwards compressed sameBuffer sameOverrun outcome =>
    rcases outcome with ⟨-, isCalls⟩ | ⟨-, pieces, isCalls⟩
    · exact ⟨_, isCalls⟩
    · exact ⟨_, isCalls⟩
  | _ => exact ⟨[], (append_nil _).symm⟩

theorem Failed.advance (failed : feed.Failed)
    (turned : Turned p feed.framer feed.data framer rest) :
    (feed.advance framer rest).Failed := by
  obtain ⟨error, mem⟩ := failed
  obtain ⟨added, isCalls⟩ := turned_calls turned
  refine ⟨error, ?_⟩
  show _ ∈ framer.calls
  rw [isCalls]
  exact mem_append_left _ mem

theorem ReadCompressed.advance (read : feed.ReadCompressed)
    (turned : Turned p feed.framer feed.data framer rest) :
    (feed.advance framer rest).ReadCompressed := by
  obtain ⟨frames, header, later, whole, isHeader, isData, compressed, split⟩ := read
  obtain ⟨piece, isPiece⟩ := turned_split turned
  refine ⟨frames, header, later ++ piece, whole, isHeader, isData, compressed, ?_⟩
  rw [InSync.consumed_advance isPiece, split]
  simp

theorem Strayed.advance (strayed : feed.Strayed)
    (turned : Turned p feed.framer feed.data framer rest) :
    (feed.advance framer rest).Strayed := by
  obtain ⟨frames, header, later, whole, isNoop, split, mem, more⟩ := strayed
  obtain ⟨piece, isPiece⟩ := turned_split turned
  refine ⟨frames, header, later ++ piece, whole, isNoop, ?_, ?_, ?_⟩
  · rw [InSync.consumed_advance isPiece, split]
    simp
  · rw [Feed.advance]
    split
    · exact mem_append_left _ mem
    · exact mem
  · rw [append_assoc]
    show later ++ (piece ++ rest) ≠ []
    rw [← isPiece]
    exact more

/-- The next round begins to read in the payload. -/
theorem Swallowed.advance (swallowed : feed.Swallowed) (ne : feed.data ≠ [])
    (turned : Turned p feed.framer feed.data framer rest) :
    (feed.advance framer rest).Strayed := by
  obtain ⟨ready, frames, header, whole, -, isNoop, split, -⟩ := swallowed
  have unread : rest = feed.data := by
    generalize feed.data = data at turned
    cases turned <;> simp_all
  subst unread
  refine ⟨frames, header, [], whole, isNoop, ?_, ?_, ne⟩
  · rw [@InSync.consumed_advance σ feed framer [] feed.data rfl, split]
    simp
  · rw [Feed.advance]
    rw [if_pos (.inr ready), split, length_append, isNoop.whole]
    exact mem_append_right _ mem_cons_self

variable {calls now : List VisitorCall}

/-- A header that is not fine is an error, or swallowed. -/
theorem advance_of_not_fine (inSync : InSync p feed frames part calls now)
    (interpret : feed.framer.state_ = .SPDY_INTERPRET_CONTROL_FRAME_COMMON_HEADER)
    (notFine : ¬ FineControl p feed.framer.current_frame_buffer_)
    (turned : Turned p feed.framer feed.data framer rest) :
    (feed.advance framer rest).Swallowed ∨ (feed.advance framer rest).Failed := by
  have known := inSync.consistent
  rw [SpdyFramer.Consistent, interpret] at known
  obtain ⟨whole, isControl, -⟩ := known
  have reads := inSync.reads
  rw [Reads, interpret] at reads
  have reading := not_ready _ interpret (by decide)
  generalize isData : feed.data = data at turned
  cases turned with
  | refused error _ unsupported => exact .inr ⟨error, mem_append_right _ mem_cons_self⟩
  | tooLarge type _ isType large => exact .inr ⟨_, mem_append_right _ mem_cons_self⟩
  | short type _ supported isType small size => exact .inr ⟨_, mem_append_right _ mem_cons_self⟩
  | accepted type _ supported isType payload small size =>
    refine (notFine ⟨supported, small, ⟨type, isType, size⟩, ?_⟩).elim
    intro isNoop
    rw [isType] at isNoop
    exact (payload (some.inj isNoop)).elim
  | swallowed _ supported isNoop =>
    subst isData
    have ne : 0 < feed.framer.current_frame_buffer_.length_ := by
      apply Nat.pos_of_ne_zero
      intro isEmpty
      refine notFine ⟨supported, ?_, ⟨_, isNoop, rfl⟩, fun _ => isEmpty⟩
      rw [isEmpty]
      exact Nat.zero_le _
    refine .inl ⟨rfl, frames, _, inSync.whole, inSync.noops,
      ⟨whole, isControl, isNoop, ne⟩, ?_, ?_⟩
    · rw [@InSync.consumed_advance σ feed _ [] feed.data rfl, inSync.split, reads.1, append_nil]
    · rw [InSync.headers_advance reading, inSync.headers, if_neg reading]
  | _ => simp_all

/-- What a round makes of a framer in sync. -/
theorem advance_of_inSync (inSync : InSync p feed frames part calls now) (ne : feed.data ≠ [])
    (turned : Turned p feed.framer feed.data framer rest) :
    (∃ frames part calls now, InSync p (feed.advance framer rest) frames part calls now) ∨
    (feed.advance framer rest).Swallowed ∨ (feed.advance framer rest).Failed ∨
    (feed.advance framer rest).ReadCompressed := by
  by_cases fine : feed.framer.state_ = .SPDY_INTERPRET_CONTROL_FRAME_COMMON_HEADER ->
    FineControl p feed.framer.current_frame_buffer_
  · by_cases plain : feed.framer.state_ = .SPDY_FORWARD_STREAM_FRAME ->
        feed.framer.current_frame_buffer_.flags &&& DATA_FLAG_COMPRESSED = 0
    · exact .inl (inSync.turn ne fine plain turned)
    · obtain ⟨forwards, compressed⟩ := Classical.not_imp.mp plain
      have known := inSync.consistent
      rw [SpdyFramer.Consistent, forwards] at known
      have reads := inSync.reads
      rw [Reads, forwards] at reads
      obtain ⟨pieces, isPart, -⟩ := reads
      have read : feed.ReadCompressed :=
        ⟨frames, _, pieces.flatten, inSync.whole, known.1, known.2, compressed,
          by rw [inSync.split, isPart]⟩
      exact .inr (.inr (.inr (read.advance turned)))
  · obtain ⟨interpret, notFine⟩ := Classical.not_imp.mp fine
    rcases advance_of_not_fine inSync interpret notFine turned with
      swallowed | failed
    · exact .inr (.inl swallowed)
    · exact .inr (.inr (.inl failed))

theorem Tracked.advance (tracked : feed.Tracked p) (ne : feed.data ≠ [])
    (turned : Turned p feed.framer feed.data framer rest) :
    (feed.advance framer rest).Tracked p where
  consistent := turned.consistent tracked.consistent
  failed := by
    intro isError
    generalize isData : feed.data = data at turned
    cases turned with
    | refused error => exact ⟨error, mem_append_right _ mem_cons_self⟩
    | tooLarge => exact ⟨_, mem_append_right _ mem_cons_self⟩
    | inflated read forwards compressed sameBuffer sameOverrun outcome =>
      rcases outcome with ⟨-, isCalls⟩ | ⟨goesOn, -⟩
      · refine ⟨.SPDY_DECOMPRESS_FAILURE, ?_⟩
        show _ ∈ framer.calls
        rw [isCalls]
        exact mem_append_right _ mem_cons_self
      · have isForward : framer.state_ = .SPDY_ERROR := isError
        rw [goesOn] at isForward
        cases isForward
    | header reading | payload reading | forward _ reading =>
      have same : feed.framer.state_ = .SPDY_ERROR := isError
      rw [reading] at same
      cases same
    | _ => cases isError
  safe := turned.overrun.trans tracked.safe
  position := by
    rcases tracked.position with
      ⟨frames, part, calls, now, inSync⟩ | swallowed | strayed | failed | read
    · rcases advance_of_inSync inSync ne turned with
        synced | swallowed | failed | read
      · exact .inl synced
      · exact .inr (.inl swallowed)
      · exact .inr (.inr (.inr (.inl failed)))
      · exact .inr (.inr (.inr (.inr read)))
    · exact .inr (.inr (.inl (swallowed.advance ne turned)))
    · exact .inr (.inr (.inl (strayed.advance turned)))
    · exact .inr (.inr (.inr (.inl (failed.advance turned))))
    · exact .inr (.inr (.inr (.inr (read.advance turned))))

theorem start_tracked {framer : SpdyFramer σ} (isReset : framer.state_ = .SPDY_RESET)
    (silent : framer.calls = []) (safe : framer.overrun = false) :
    Tracked p { framer } := by
  have inSync := @start_inSync _ p _ isReset silent
  refine ⟨inSync.consistent, ?_, safe, .inl ⟨[], [], [], [], inSync⟩⟩
  intro isError
  exact absurd (isReset.symm.trans isError) (by decide)

/-- A call returns when its bytes are consumed or the framer is in error. -/
theorem returned_cases (inv : feed.framer.Consistent) (isReturned : feed.returned p) :
    feed.data = [] ∨ feed.framer.state_ = .SPDY_ERROR := by
  rw [returned, Bool.or_eq_true, List.isEmpty_iff] at isReturned
  rcases isReturned with isEmpty | stops
  · exact .inl isEmpty
  · refine .inr ?_
    rw [isNone_iff_eq_none, SpdyFramer.turn] at stops
    cases isState : feed.framer.state_ with
    | SPDY_ERROR => rfl
    | SPDY_DONE =>
      rw [SpdyFramer.Consistent, isState] at inv
      exact inv.elim
    | _ => simp [isState] at stops

theorem tracked_input (tracked : feed.Tracked p) (isReturned : feed.returned p) (data : Bytes) :
    Tracked p { feed with data } where
  consistent := tracked.consistent
  failed := tracked.failed
  safe := tracked.safe
  position := by
    have ended := returned_cases tracked.consistent isReturned
    rcases tracked.position with
      ⟨frames, part, calls, now, inSync⟩ | swallowed | strayed | failed | read
    · refine .inl ⟨frames, part, calls, now, { inSync with begun := ?_ }⟩
      intro reading nothing
      rcases ended with isEmpty | isError
      · exact (inSync.begun reading nothing isEmpty).elim
      · have reads := inSync.reads
        rw [Reads, isError] at reads
        exact reads.elim
    · exact .inr (.inl swallowed)
    · rcases ended with isEmpty | isError
      · obtain ⟨frames, header, later, whole, isNoop, split, mem, more⟩ := strayed
        refine .inr (.inr (.inl ⟨frames, header, later, whole, isNoop, split, mem, ?_⟩))
        rw [isEmpty, append_nil] at more
        exact fun nothing => more (append_eq_nil_iff.mp nothing).1
      · exact .inr (.inr (.inr (.inl (tracked.failed isError))))
    · exact .inr (.inr (.inr (.inl failed)))
    · exact .inr (.inr (.inr (.inr read)))

theorem perform_tracked (tracked : feed.Tracked p) (runs : feed.perform p action = some next) :
    next.Tracked p := by
  cases action with
  | input data =>
    obtain ⟨isReturned, rfl⟩ := perform_input runs
    exact tracked_input tracked isReturned data
  | turn =>
    obtain ⟨ne, framer, rest, turns, rfl⟩ := perform_turn runs
    exact tracked.advance ne (SpdyFramer.turn_cases tracked.consistent ne turns)
  | reset =>
    obtain ⟨-, rfl⟩ := perform_reset runs
    exact start_tracked feed.framer.reset_state rfl (feed.framer.reset_overrun.trans tracked.safe)

variable {frames : List SpdyFrame} {part : SpdyFrame}

section

variable (whole : ∀ frame ∈ frames, WholeFrame frame)
include whole

theorem headerStarts_flatten : headerStarts (frames.flatten ++ rest) = beginnings 0 frames ++
      startsFrom SpdyFrame.size SpdyFrame.length_ (frames.flatten ++ rest) frames.flatten.length :=
  Library.frameStarts_flatten (by decide) SpdyFrame.length_append_right whole

/-- Where whole frames and a part of the next one start. -/
theorem headerStarts_part (incomplete : part.length <= SpdyFrame.size + part.length_) :
    headerStarts (frames.flatten ++ part) = beginnings 0 frames ++
        if part = [] then [] else [frames.flatten.length] := by
  rw [headerStarts_flatten whole]
  by_cases nothing : part = []
  · rw [if_pos nothing, nothing, append_nil, Library.startsFrom_of_le _ (Nat.le_refl _)]
  · rw [if_neg nothing, Library.startsFrom_last (by decide) nothing incomplete]

/-- NOOP frames are empty if those in front are and the last frame, as far as
it was read, is not a full one with more behind its header. -/
theorem emptyNoops_part (noops : ∀ frame ∈ frames, EmptyNoop frame)
    (incomplete : part.length <= SpdyFrame.size + part.length_)
    (last : SpdyFrame.size < part.length -> EmptyNoop part) :
    EmptyNoops (frames.flatten ++ part) := by
  intro start mem more
  rw [headerStarts_part whole incomplete] at mem
  rcases mem_append.mp mem with earlier | atEnd
  · obtain ⟨before, frame, after, rfl, rfl⟩ := Library.mem_beginnings earlier
    have isWhole := whole frame (by simp)
    have isEmpty := noops frame (by simp)
    have told : SpdyFrame.size <= frame.length := by
      rw [isWhole]
      exact Nat.le_add_right _ _
    have split : (before ++ frame :: after).flatten ++ part =
        before.flatten ++ (frame ++ (after.flatten ++ part)) := by simp
    rw [split, drop_left, EmptyNoop, SpdyFrame.is_control_frame_append_right told,
      SpdyFrame.type_append_right told, SpdyFrame.length_append_right told]
    exact isEmpty
  · split at atEnd
    · cases atEnd
    · rw [mem_singleton] at atEnd
      subst atEnd
      rw [length_append] at more
      rw [drop_left]
      exact last (by omega)

end

/-- A framer in sync has recognized the headers where they start. -/
theorem headers_of_inSync (inSync : InSync p feed frames part calls now)
    (isReturned : feed.data = []) :
    feed.headers = headerStarts feed.consumed ∧ EmptyNoops feed.consumed := by
  obtain ⟨incomplete, last⟩ := part_of_inSync inSync
  rw [inSync.headers, inSync.split, headerStarts_part inSync.whole incomplete]
  refine ⟨?_, emptyNoops_part inSync.whole inSync.noops incomplete last⟩
  by_cases ready : Ready feed.framer
  · have nothing : part = [] := by
      have reads := inSync.reads
      rcases ready with isState | isState <;>
      · rw [Reads, isState] at reads
        exact reads.1
    rw [if_pos ready, if_pos nothing]
  · have some_ : part ≠ [] := fun nothing => inSync.begun ready nothing isReturned
    rw [if_neg ready, if_neg some_]

/-- So has one that has swallowed the header of the last frame. -/
theorem headers_of_swallowed (swallowed : feed.Swallowed) :
    feed.headers = headerStarts feed.consumed ∧ EmptyNoops feed.consumed := by
  obtain ⟨-, frames, header, whole, noops, isNoop, split, headers⟩ := swallowed
  have incomplete : header.length <= SpdyFrame.size + header.length_ :=
    Nat.le_add_right_of_le isNoop.whole.le
  have some_ : header ≠ [] := by
    rw [← length_pos_iff, isNoop.whole]
    decide
  rw [headers, split, headerStarts_part whole incomplete, if_neg some_]
  exact ⟨rfl, emptyNoops_part whole noops incomplete
    (fun more => absurd more (Nat.not_lt_of_le isNoop.whole.le))⟩

/-- A strayed framer has recognized one where none starts. -/
theorem headers_of_strayed (strayed : feed.Strayed) (isReturned : feed.data = []) :
    feed.headers ≠ headerStarts feed.consumed ∧ ¬ EmptyNoops feed.consumed := by
  obtain ⟨frames, header, later, whole, isNoop, split, mem, more⟩ := strayed
  rw [isReturned, append_nil] at more
  have pos := length_pos_iff.mpr more
  have told := isNoop.whole.ge
  rw [split]
  constructor
  · intro same
    rw [same] at mem
    exact Library.not_mem_frameStarts (by decide)
      SpdyFrame.length_append_right whole told isNoop.nonempty mem
  · intro empty
    have lt : frames.flatten.length < (frames.flatten ++ (header ++ later)).length := by
      simp only [length_append]
      omega
    have starts : frames.flatten.length ∈ headerStarts (frames.flatten ++ (header ++ later)) := by
      rw [headerStarts_flatten whole, Library.startsFrom_of_lt (by decide) lt]
      exact mem_append_right _ mem_cons_self
    have isEmpty := empty _ starts (by
      simp only [length_append, isNoop.whole]
      omega)
    rw [drop_left, EmptyNoop, SpdyFrame.is_control_frame_append_right told,
      SpdyFrame.type_append_right told,
      SpdyFrame.length_append_right told] at isEmpty
    exact isNoop.nonempty.ne' (isEmpty isNoop.isControl isNoop.isNoop)

theorem not_uncompressed (read : feed.ReadCompressed) : ¬ Uncompressed feed.consumed := by
  obtain ⟨frames, header, later, whole, isHeader, isData, compressed, split⟩ := read
  intro uncompressed
  rw [split] at uncompressed
  have lt : frames.flatten.length < (frames.flatten ++ (header ++ later)).length := by
    simp only [length_append, isHeader]
    exact Nat.lt_add_of_pos_right (Nat.add_pos_left (by decide) _)
  have starts : frames.flatten.length ∈ headerStarts (frames.flatten ++ (header ++ later)) := by
    rw [headerStarts_flatten whole, Library.startsFrom_of_lt (by decide) lt]
    exact mem_append_right _ mem_cons_self
  have plain := uncompressed _ starts (by
    simp only [length_append, isHeader]
    omega)
  rw [drop_left, SpdyFrame.is_control_frame_append_right isHeader.ge,
    SpdyFrame.flags_append_right isHeader.ge] at plain
  exact compressed (plain isData)

/-- On bytes without an error or compressed data, the framer recognizes the
headers where the lengths of the frames tell, and copies nothing behind the end
of its buffer, exactly if no NOOP frame has a payload. -/
theorem synchronized_iff {actions : List Action} {last : Feed σ}
    (ran : actions.foldlM (perform p) {} = some last) (isReturned : last.data = [])
    (noError : ∀ error, .OnError error ∉ last.framer.calls)
    (uncompressed : Uncompressed last.consumed) :
    (last.headers = headerStarts last.consumed ∧ last.framer.overrun = false) ↔
      EmptyNoops last.consumed := by
  have start : ({} : Feed σ).Tracked p := start_tracked rfl rfl rfl
  have kept : ∀ {feed : Feed σ} {action next}, feed.Tracked p ->
      feed.perform p action = some next -> next.Tracked p :=
    perform_tracked
  have tracked : last.Tracked p := Library.property_of_foldlM kept ran start
  rcases tracked.position with
    ⟨frames, part, calls, now, inSync⟩ | swallowed | strayed | failed | read
  · obtain ⟨headers, empty⟩ := headers_of_inSync inSync isReturned
    exact iff_of_true ⟨headers, tracked.safe⟩ empty
  · obtain ⟨headers, empty⟩ := headers_of_swallowed swallowed
    exact iff_of_true ⟨headers, tracked.safe⟩ empty
  · obtain ⟨headers, full⟩ := headers_of_strayed strayed isReturned
    exact iff_of_false (fun both => headers both.1) full
  · obtain ⟨error, member⟩ := failed
    exact (noError error member).elim
  · exact (not_uncompressed read uncompressed).elim

/-- A data frame in two pieces. -/
theorem synchronized_iff_two_pieces :
    ∃ last, [.input [0, 0, 0, 1, 0, 0], .turn, .turn, .input [0, 2, 7, 8],
        .turn, .turn, .turn].foldlM (perform plainPlatform) {} = some last ∧
      ((last.headers = headerStarts last.consumed ∧ last.framer.overrun = false) ↔
        EmptyNoops last.consumed) := by
  have ends : ([.input [0, 0, 0, 1, 0, 0], .turn, .turn, .input [0, 2, 7, 8],
        .turn, .turn, .turn].foldlM (perform plainPlatform) {}).map
        (fun feed => (feed.data, feed.framer.calls, feed.consumed)) =
      some ([], [.OnStreamFrameData 1 [7, 8]], [0, 0, 0, 1, 0, 0, 0, 2, 7, 8]) := by
    decide
  obtain ⟨last, reaches, isLast⟩ := map_eq_some_iff.mp ends
  obtain ⟨isReturned, isRest⟩ := Prod.mk.inj isLast
  obtain ⟨isCalls, isConsumed⟩ := Prod.mk.inj isRest
  refine ⟨last, reaches, synchronized_iff reaches isReturned ?_ ?_⟩
  · intro error
    rw [isCalls]
    simp
  · have starts : headerStarts last.consumed = [0] := by
      rw [isConsumed]
      exact @headerStarts_part [] _ (by simp) (by decide)
    intro start member
    rw [starts, mem_singleton] at member
    rw [member, isConsumed]
    decide

/-- The payload of a NOOP frame is taken for the next header. -/
theorem not_always_synchronized : ¬ ∀ (actions : List Action) (last : Feed Unit),
      actions.foldlM (perform plainPlatform) {} = some last -> last.data = [] ->
      (∀ error, .OnError error ∉ last.framer.calls) -> Uncompressed last.consumed ->
      last.headers = headerStarts last.consumed ∧ last.framer.overrun = false := by
  intro claim
  have ends : ([.input [0x80, 2, 0, 5, 0, 0, 0, 4, 0, 0, 0, 1], .turn, .turn,
        .turn, .turn, .turn, .turn].foldlM (perform plainPlatform) {}).map
        (fun feed => (feed.data, feed.framer.calls, feed.consumed, feed.headers)) =
      some ([], [], [0x80, 2, 0, 5, 0, 0, 0, 4, 0, 0, 0, 1], [0, 8]) := by
    decide
  obtain ⟨last, reaches, isLast⟩ := map_eq_some_iff.mp ends
  obtain ⟨isReturned, isRest⟩ := Prod.mk.inj isLast
  obtain ⟨isCalls, isRest⟩ := Prod.mk.inj isRest
  obtain ⟨isConsumed, isHeaders⟩ := Prod.mk.inj isRest
  have starts : headerStarts last.consumed = [0] := by
    rw [isConsumed]
    exact @headerStarts_part [] _ (by simp) (by decide)
  have synchronized := (claim _ last reaches isReturned (by simp [isCalls]) (by
    intro start member
    rw [starts, mem_singleton] at member
    rw [member, isConsumed]
    decide)).1
  rw [isHeaders, starts] at synchronized
  exact absurd synchronized (by decide)

end Feed
end Chromium.Spdy
