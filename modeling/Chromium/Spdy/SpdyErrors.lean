import Chromium.Library.Run
import Chromium.Spdy.SpdyDeliveries

/-!
# Errors stop the framer

After an error the framer does nothing more until it is reset, unless a control
frame has a length that its type does not allow. Then it goes on, and gives the
frame to the visitor.
-/

namespace Chromium.Spdy

open List
open Library (Throughout Always always_iff_throughout)

variable {σ : Type} (p : Platform σ)

/-- A control frame that the checks of its header let pass. -/
def Accepted (frame : SpdyFrame) : Prop :=
  frame.version = p.spdy_version_ ∧ ∃ type, frame.type? = some type ∧
      SpdyFramer.sizeAccepted type frame.length_

namespace SpdyFramer

/-- Once the visitor was told of an error, the framer is in the state of errors,
in which it consumes nothing, and has made no other call. -/
def Stopped (framer : SpdyFramer σ) : Prop :=
  ∀ before error after, framer.calls = before ++ .OnError error :: after ->
      framer.state_ = .SPDY_ERROR ∧ (∀ data, framer.turn p data = none) ∧
        ∀ call ∈ after, ∃ error, call = .OnError error

/-- Errors stop the framer, and the visitor has got accepted frames only. -/
def Sound (framer : SpdyFramer σ) : Prop :=
  framer.Stopped p ∧ ∀ frame, .OnControl frame ∈ framer.calls -> Accepted p frame

/-- A header that is interpreted, of a version and type that are supported and
not too long, has a length that its type allows. -/
def Checked (framer : SpdyFramer σ) : Prop :=
  framer.state_ = .SPDY_INTERPRET_CONTROL_FRAME_COMMON_HEADER ->
    framer.current_frame_buffer_.version = p.spdy_version_ ->
    framer.current_frame_buffer_.length_ <= kControlFrameBufferMaxSize ->
    ∀ type ∈ framer.current_frame_buffer_.type?,
      sizeAccepted type framer.current_frame_buffer_.length_

instance (framer : SpdyFramer σ) : Decidable (framer.Checked p) :=
  inferInstanceAs (Decidable (_ -> _ -> _ -> ∀ type ∈ _, _ = true))

/-- What is known between the rounds. -/
structure Kept (framer : SpdyFramer σ) : Prop where
  consistent : framer.Consistent
  sound : framer.Sound p
  payload : framer.state_ = .SPDY_CONTROL_FRAME_PAYLOAD -> Accepted p framer.current_frame_buffer_

variable {p : Platform σ} {framer next : SpdyFramer σ} {data rest : Bytes}

theorem accepted_append (whole : SpdyFrame.size <= frame.length) (accepted : Accepted p frame) :
    Accepted p (frame ++ back) := by
  rw [Accepted, SpdyFrame.version_append_right whole,
    SpdyFrame.type_append_right whole, SpdyFrame.length_append_right whole]
  exact accepted

/-- A framer that goes on has not told of an error. -/
theorem Stopped.no_error (stopped : framer.Stopped p) (goesOn : framer.state_ ≠ .SPDY_ERROR)
    (error : SpdyError) :
    .OnError error ∉ framer.calls := by
  intro mem
  obtain ⟨before, after, split⟩ := append_of_mem mem
  exact goesOn (stopped before error after split).1

/-- Calls that are not errors may be added. -/
theorem sound_of_calls (calls : List VisitorCall) (goesOn : framer.state_ ≠ .SPDY_ERROR)
    (sound : framer.Sound p) (isCalls : next.calls = framer.calls ++ calls)
    (quiet : ∀ error, .OnError error ∉ calls)
    (allAccepted : ∀ frame, .OnControl frame ∈ calls -> Accepted p frame) :
    next.Sound p := by
  constructor
  · intro before error after split
    have mem : .OnError error ∈ framer.calls ++ calls := by
      rw [← isCalls, split]
      exact mem_append_right _ mem_cons_self
    rcases mem_append.mp mem with early | late
    · exact (sound.1.no_error goesOn error early).elim
    · exact (quiet error late).elim
  · intro frame mem
    rw [isCalls] at mem
    rcases mem_append.mp mem with early | late
    · exact sound.2 frame early
    · exact allAccepted frame late

theorem sound_of_no_calls (goesOn : framer.state_ ≠ .SPDY_ERROR) (sound : framer.Sound p)
    (isCalls : next.calls = framer.calls) :
    next.Sound p :=
  sound_of_calls [] goesOn sound (by rw [isCalls, append_nil])
    (fun _ => not_mem_nil) (fun _ mem => by cases mem)

theorem turn_of_error (isError : framer.state_ = .SPDY_ERROR) : framer.turn p data = none := by
  rw [turn, isError]

/-- Errors may be added if they end in the state of errors. -/
theorem sound_of_errors (errors : List SpdyError) (goesOn : framer.state_ ≠ .SPDY_ERROR)
    (sound : framer.Sound p) (isCalls : next.calls = framer.calls ++ errors.map .OnError)
    (isError : next.state_ = .SPDY_ERROR) :
    next.Sound p := by
  constructor
  · intro before error after split
    refine ⟨isError, fun data => turn_of_error isError, ?_⟩
    intro call mem
    rw [isCalls] at split
    obtain ⟨early, isBefore, isErrors⟩ | ⟨late, isFramer, isRest⟩ := append_eq_append_iff.mp split
    · have inErrors : call ∈ errors.map .OnError := by
        rw [isErrors]
        exact mem_append_right _ (mem_cons_of_mem _ mem)
      obtain ⟨error, -, rfl⟩ := List.mem_map.mp inErrors
      exact ⟨error, rfl⟩
    · cases late with
      | nil =>
        have inErrors : call ∈ errors.map .OnError := by
          rw [← nil_append (errors.map _), ← isRest]
          exact mem_cons_of_mem _ mem
        obtain ⟨error, -, rfl⟩ := List.mem_map.mp inErrors
        exact ⟨error, rfl⟩
      | cons first late =>
        -- There was no error before.
        rw [cons_append] at isRest
        obtain ⟨rfl, -⟩ := List.cons.inj isRest
        refine (sound.1.no_error goesOn error ?_).elim
        rw [isFramer]
        exact mem_append_right _ mem_cons_self
  · intro frame mem
    rw [isCalls] at mem
    rcases mem_append.mp mem with early | late
    · exact sound.2 frame early
    · obtain ⟨error, -, isCall⟩ := List.mem_map.mp late
      cases isCall

theorem finCalls_quiet (frame : SpdyFrame) : (∀ error, .OnError error ∉ finCalls frame) ∧
      ∀ control, .OnControl control ∉ finCalls frame := by
  rw [finCalls]
  split <;> simp

theorem controlCalls_quiet : (∀ error, .OnError error ∉ controlCalls frame) ∧
      ∀ control, .OnControl control ∈ controlCalls frame -> control = frame := by
  rw [controlCalls]
  split <;> simp

/-- Only a framer that goes on has another round. -/
theorem Turned.goesOn (turned : Turned p framer data next rest) : framer.state_ ≠ .SPDY_ERROR := by
  intro isError
  cases turned <;> simp_all

/-- A checked round keeps what is known. -/
theorem Kept.turn (kept : framer.Kept p) (checked : framer.Checked p)
    (turned : Turned p framer data next rest) :
    next.Kept p := by
  have inv := turned.consistent kept.consistent
  have goesOn := turned.goesOn
  have silent : ∀ {other : SpdyFramer σ}, other.calls = framer.calls -> other.Sound p :=
    sound_of_no_calls goesOn kept.sound
  cases turned with
  | restart ready => exact ⟨inv, silent framer.reset_calls, fun reading => by cases reading⟩
  | header reading nonempty fits all more =>
    exact ⟨inv, silent rfl, fun isPayload => by simp [reading] at isPayload⟩
  | emptyData reading nonempty complete =>
    have quiet := finCalls_quiet
    exact ⟨inv, sound_of_calls _ goesOn kept.sound rfl (quiet _).1
        (fun frame mem => ((quiet _).2 frame mem).elim),
      fun isPayload => by cases isPayload⟩
  | toData reading whole isData nonempty =>
    exact ⟨inv, silent rfl, fun isPayload => by cases isPayload⟩
  | toControl reading whole isControl =>
    exact ⟨inv, silent rfl, fun isPayload => by cases isPayload⟩
  | refused error interpret unsupported =>
    exact ⟨inv, sound_of_errors [error] goesOn kept.sound rfl rfl,
      fun isPayload => by cases isPayload⟩
  | swallowed interpret supported isNoop =>
    exact ⟨inv, silent rfl, fun isPayload => by cases isPayload⟩
  | tooLarge type interpret isType large =>
    refine ⟨inv, ?_, fun isPayload => by cases isPayload⟩
    by_cases size : sizeAccepted type framer.current_frame_buffer_.length_
    · refine sound_of_errors [.SPDY_CONTROL_PAYLOAD_TOO_LARGE] goesOn kept.sound ?_ rfl
      rw [if_pos size, append_nil]
      rfl
    · refine sound_of_errors [.SPDY_INVALID_CONTROL_FRAME,
        .SPDY_CONTROL_PAYLOAD_TOO_LARGE] goesOn kept.sound ?_ rfl
      rw [if_neg size, append_assoc]
      rfl
  | accepted type interpret supported isType payload small size =>
    exact ⟨inv, silent rfl, fun _ => ⟨supported, type, isType, size⟩⟩
  | short type interpret supported isType small size =>
    exact (size (checked interpret supported small type isType)).elim
  | payload reading part =>
    have begun := kept.consistent
    rw [Consistent, reading] at begun
    exact ⟨inv, silent rfl, fun _ => accepted_append begun.1 (kept.payload reading)⟩
  | control reading all =>
    have begun := kept.consistent
    rw [Consistent, reading] at begun
    have accepted : ∀ piece, Accepted p (framer.current_frame_buffer_ ++ piece) :=
      fun piece => accepted_append begun.1 (kept.payload reading)
    refine ⟨inv, sound_of_calls _ goesOn kept.sound rfl controlCalls_quiet.1 ?_,
      fun isPayload => by cases isPayload⟩
    intro frame mem
    rw [controlCalls_quiet.2 frame mem]
    exact accepted _
  | forward decompressors forwards plain nonempty fits all =>
    have quiet := finCalls_quiet framer.current_frame_buffer_
    refine ⟨inv, sound_of_calls _ goesOn kept.sound (append_assoc _ _ _) ?_ ?_,
      fun isPayload => by simp [forwards] at isPayload⟩
    · intro error
      split <;> simp [quiet.1]
    · intro frame
      split <;> simp [quiet.2]
  | forwarded forwards complete =>
    exact ⟨inv, silent rfl, fun isPayload => by cases isPayload⟩
  | inflated read forwards compressed sameBuffer sameOverrun outcome =>
    rcases outcome with ⟨isError, isCalls⟩ | ⟨goesOnStill, pieces, isCalls⟩
    · exact ⟨inv,
        sound_of_errors [.SPDY_DECOMPRESS_FAILURE] goesOn kept.sound isCalls isError,
        fun isPayload => by simp [isError] at isPayload⟩
    · exact ⟨inv, sound_of_calls _ goesOn kept.sound isCalls (by simp) (by simp),
        fun isPayload => by simp [goesOnStill] at isPayload⟩

/-- A round that is not checked goes on behind an error. -/
theorem not_sound_of_not_checked (unchecked : ¬ framer.Checked p)
    (turned : Turned p framer data next rest) :
    ¬ next.Sound p := by
  simp only [Checked, not_forall] at unchecked
  obtain ⟨interpret, supported, small, type, isType, size⟩ := unchecked
  intro sound
  cases turned with
  | short other _ _ isOther _ _ =>
    have isError := (sound.1 framer.calls _ [] rfl).1
    cases isError
  | accepted other _ _ isOther _ _ accepted =>
    rw [isType] at isOther
    cases isOther
    exact size accepted
  | refused error _ unsupported =>
    rcases unsupported with unsupported | invalid
    · exact unsupported supported
    · simp [invalid] at isType
  | swallowed _ _ isNoop =>
    rw [isType] at isNoop
    cases isNoop
    exact size rfl
  | tooLarge other _ _ large => exact Nat.not_lt_of_le small large
  | _ => simp_all

end SpdyFramer

namespace Feed

/-- The action is one that can be performed. -/
def Possible (feed : Feed σ) (action : Action) : Prop := (feed.perform p action).isSome

/-- A round is checked. -/
def Checked (feed : Feed σ) (action : Action) : Prop :=
  action = .turn -> feed.framer.Checked p

instance (feed : Feed σ) (action : Action) : Decidable (feed.Possible p action) :=
  inferInstanceAs (Decidable (_ = true))

instance (feed : Feed σ) (action : Action) : Decidable (feed.Checked p action) :=
  inferInstanceAs (Decidable (_ -> _))

variable {p : Platform σ} {feed next : Feed σ} {action : Action}

theorem kept_of_no_calls {framer : SpdyFramer σ} (isReset : framer.state_ = .SPDY_RESET)
    (silent : framer.calls = []) :
    framer.Kept p where
  consistent := by
    rw [SpdyFramer.Consistent, isReset]
    exact trivial
  sound := by
    constructor
    · intro before error after split
      rw [silent] at split
      cases before <;> cases split
    · intro frame mem
      rw [silent] at mem
      cases mem
  payload := by
    intro isPayload
    rw [isReset] at isPayload
    cases isPayload

theorem perform_kept (kept : feed.framer.Kept p) (checked : feed.Checked p action)
    (runs : feed.perform p action = some next) :
    next.framer.Kept p := by
  cases action with
  | input data =>
    obtain ⟨-, rfl⟩ := perform_input runs
    exact kept
  | turn =>
    obtain ⟨ne, framer, rest, turns, rfl⟩ := perform_turn runs
    exact kept.turn (checked rfl) (SpdyFramer.turn_cases kept.consistent ne turns)
  | reset =>
    obtain ⟨-, rfl⟩ := perform_reset runs
    exact kept_of_no_calls feed.framer.reset_state rfl

/-- An unchecked step leaves an error behind that does not stop the framer. -/
theorem perform_not_sound (kept : feed.framer.Kept p) (unchecked : ¬ feed.Checked p action)
    (runs : feed.perform p action = some next) :
    ¬ next.framer.Sound p := by
  simp only [Checked, not_forall] at unchecked
  obtain ⟨rfl, unchecked⟩ := unchecked
  obtain ⟨ne, framer, rest, turns, rfl⟩ := perform_turn runs
  exact SpdyFramer.not_sound_of_not_checked unchecked
    (SpdyFramer.turn_cases kept.consistent ne turns)

/-- Errors stop the framer throughout a run exactly if each control frame whose
header is interpreted has a length that its type allows. -/
theorem sound_iff_checked (actions : List Action)
    (possible : Throughout (perform p) (Possible p) {} actions) :
    Always (perform p) (fun feed => feed.framer.Sound p) {} actions ↔
      Throughout (perform p) (Checked p) {} actions := by
  have holds : ∀ {feed : Feed σ}, feed.framer.Kept p -> feed.framer.Sound p :=
    fun kept => kept.sound
  have stays : ∀ {feed : Feed σ} {action},
      feed.framer.Kept p -> feed.Possible p action -> feed.Checked p action ->
        ∃ next, feed.perform p action = some next ∧ next.framer.Kept p := by
    intro feed action kept isPossible checked
    obtain ⟨next, runs⟩ := Option.isSome_iff_exists.mp isPossible
    exact ⟨next, runs, perform_kept kept checked runs⟩
  have breaks : ∀ {feed : Feed σ} {action next},
      feed.framer.Kept p → feed.Possible p action → ¬ feed.Checked p action →
        feed.perform p action = some next ->
        ¬ next.framer.Sound p := by
    intro feed action next kept _ unchecked runs
    exact perform_not_sound kept unchecked runs
  have start : ({} : Feed σ).framer.Kept p := kept_of_no_calls rfl rfl
  exact always_iff_throughout holds stays breaks start possible

/-- A connection that is refused for its version. -/
theorem sound_iff_checked_refused : Always (perform plainPlatform)
      (fun feed => feed.framer.Sound plainPlatform) {} [.input [0x80, 1, 0, 2, 0, 0], .turn, .turn,
        .input [0, 0, 0x80, 2], .turn, .turn, .turn, .input [0, 2]] :=
  (sound_iff_checked _ (by decide)).mpr (by decide)

/-- A SYN_REPLY without a stream id is an error, and then given to the
visitor. -/
theorem not_all_errors_stop : ¬ ∀ actions,
      Throughout (perform plainPlatform) (Possible plainPlatform) {} actions ->
        Always (perform plainPlatform)
          (fun feed => feed.framer.Sound plainPlatform) {} actions := by
  intro claim
  obtain ⟨last, reaches, stopped, -⟩ := (claim
    [.input [0x80, 2, 0, 2, 0, 0, 0, 0, 0], .turn, .turn, .turn, .turn, .turn]
    (by decide)).last
  have ends : ([.input [0x80, 2, 0, 2, 0, 0, 0, 0, 0], .turn, .turn, .turn,
        .turn, .turn].foldlM (perform plainPlatform) {}).map
        (fun feed => (feed.framer.calls, feed.framer.state_)) =
      some ([.OnError .SPDY_INVALID_CONTROL_FRAME,
        .OnControl [0x80, 2, 0, 2, 0, 0, 0, 0]], .SPDY_AUTO_RESET) := by
    decide
  rw [reaches] at ends
  obtain ⟨isCalls, isState⟩ := Prod.mk.inj (Option.some.inj ends)
  obtain ⟨isError, -, quiet⟩ := stopped [] _ _ isCalls
  rw [isState] at isError
  cases isError

end Feed
end Chromium.Spdy
