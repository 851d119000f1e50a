import Chromium.Net.WebSocketJob

/-!
# Runs of web socket jobs

A session pairs a job with what passes through it. What the delegate sends is
handed to the socket in order, and the socket is closed behind it, unless the
job is closed after a buffer was sent and before the next one is taken.
-/

namespace Chromium.Net.WebSocketJob

open List Option

inductive Event
  | sendData (data : Bytes)
  | close
  | onSentData (amount_sent : Nat)
  | onReceivedData (data : Bytes)
  /-- A posted task is executed. -/
  | sendPending
deriving DecidableEq

/-- A job with what has passed through it. -/
structure Session where
  job : WebSocketJob
  /-- The number of posted tasks. -/
  posted : Nat := 0
  /-- The bytes of the calls of `SendData` that were accepted. -/
  accepted : Bytes := []
  /-- The bytes handed to the socket. -/
  handed : Bytes := []
  acknowledged : Nat := 0
  /-- Whether the socket was closed. -/
  closed : Bool := false
  /-- The bytes received while the job is not closed. -/
  received : Bytes := []
  /-- The bytes that the delegate received. -/
  delivered : Bytes := []
deriving DecidableEq

namespace Session

/-- A job whose handshake request has been sent. -/
def start (protocol_version : Nat) : Session where
  job := {
    state := .CONNECTING
    handshake_response := { protocol_version } }

section

variable (s : Session)

def absorb : Effect -> Session
  | .sendData data => { s with handed := s.handed ++ data }
  | .close => { s with closed := true }
  | .onSentData _ => s
  | .onReceivedData data => { s with delivered := s.delivered ++ data }
  | .postSendPending => { s with posted := s.posted + 1 }

/-- The session after a job has done something. -/
def after (result : WebSocketJob × List Effect) : Session :=
  result.2.foldl absorb { s with job := result.1 }

def perform : Event -> Option Session
  | .sendData data =>
    let (accepts, result) := s.job.sendData data
    some ({ s with
      accepted := s.accepted ++ if accepts then data else [] }.after result)
  | .close => some (s.after s.job.close)
  | .onSentData amount_sent => do
      let result ← s.job.onSentData amount_sent
      return { s with
        acknowledged := s.acknowledged + amount_sent }.after result
  | .onReceivedData data => do
      let result ← s.job.onReceivedData data
      return { s with
        received := s.received ++
          if s.job.state = State.CLOSED then [] else data }.after result
  | .sendPending =>
    some ({ s with posted := s.posted - 1 }.after s.job.sendPending)

/-- What can happen to a job that reaches OPEN. No data is empty, and no more
is sent than there is to send. -/
def Permitted (event : Event) : Prop :=
  match event with
  | .sendData data => s.job.state ≠ .CONNECTING ∧ data ≠ []
  | .close => s.job.state ≠ .CONNECTING
  | .onSentData amount_sent =>
    0 < amount_sent ∧ ∃ buffer, s.job.current_buffer = some buffer ∧
      amount_sent <= buffer.bytesRemaining
  | .onReceivedData data => data ≠ []
  | .sendPending => 0 < s.posted

/-- All events of a run are permitted. -/
def AllPermitted (events : List Event) : Prop :=
  ∀ before event rest, events = before ++ event :: rest ->
    ∀ between, before.foldlM perform s = some between -> between.Permitted event

end

/-- The bytes handed to the socket are those accepted, in order, up to what is
still to come; the socket is closed behind all of them; and what the delegate
receives is determined by the bytes received. -/
structure Exact (protocol_version : Nat) (s : Session) : Prop where
  ordered : s.handed <+: s.accepted
  all : s.job.current_buffer = none -> s.posted = 0 -> s.handed = s.accepted
  closed : s.closed = true -> s.handed = s.accepted ∧ s.acknowledged = s.accepted.length
  delivered : s.delivered = deliverable protocol_version s.received

/-- Every session reached by a run is exact. -/
def AlwaysExact (protocol_version : Nat) (s : Session) (events : List Event) : Prop :=
  ∀ before rest, events = before ++ rest ->
    ∃ between, before.foldlM perform s = some between ∧ between.Exact protocol_version

/-- The job is closed while a buffer is sent or nothing is queued. -/
def ClosesWell (s : Session) (events : List Event) : Prop :=
  ∀ before rest, events = before ++ .close :: rest ->
    ∀ between, before.foldlM perform s = some between ->
      between.job.current_buffer ≠ none ∨ between.job.send_frame_handler.pending_buffers = []

/-- The current buffer of the job is that of its send handler, and some buffers
are queued behind it. -/
inductive Sends (s : Session) : List Bytes -> Prop
  | idle (queue : List Bytes) (free : s.job.current_buffer = none)
      (handler : s.job.send_frame_handler = { pending_buffers := queue })
      (acknowledged : s.acknowledged = s.handed.length)
      (posted : queue ≠ [] -> 0 < s.posted) :
      Sends s queue
  | busy (data : Bytes) (used : Nat) (queue : List Bytes)
      (held : s.job.current_buffer = some ⟨data, used⟩)
      (handler : s.job.send_frame_handler = ⟨some data, data.length, data.length, data :: queue⟩)
      (unfinished : used < data.length)
      (acknowledged : s.acknowledged + (data.length - used) = s.handed.length) :
      Sends s queue

/-- What is sent, delivered and still queued. -/
structure Consistent (protocol_version : Nat) (s : Session) : Prop where
  sends : ∃ queue, s.Sends queue ∧ (∀ buffer ∈ queue, buffer ≠ []) ∧
    s.handed ++ queue.flatten = s.accepted ∧
    (s.closed = true ∨ s.job.state = .CLOSED ∨ s.job.state = .CONNECTING ->
        queue = [] ∧ s.job.current_buffer = none)
  closed : s.closed = true -> s.job.state ≠ .OPEN ∧ s.job.state ≠ .CONNECTING
  connecting : s.job.state = .CONNECTING -> s.job.handshake_response =
        collecting protocol_version s.received ∧
      responseSize protocol_version s.received = none ∧
      s.delivered = []
  connected : s.job.state ≠ .CONNECTING -> (responseSize protocol_version s.received).isSome ∧
      s.delivered = deliverable protocol_version s.received
  drained : s.job.receive_frame_handler = {}
  initialized : s.job.state ≠ .INITIALIZED

theorem start_consistent (protocol_version : Nat) :
    Consistent protocol_version (start protocol_version) where
  sends := ⟨[], .idle [] rfl rfl rfl (fun ne => absurd rfl ne), forall_mem_nil _, rfl,
    fun _ => ⟨rfl, rfl⟩⟩
  closed := fun isClosed => by cases isClosed
  connecting := fun _ => ⟨rfl, rfl, rfl⟩
  connected := fun isOpen => absurd rfl isOpen
  drained := rfl
  initialized := fun isInitialized => by cases isInitialized

theorem Consistent.exact_ (holds : Consistent protocol_version s) : s.Exact protocol_version := by
  obtain ⟨queue, sends, ne, split, closed⟩ := holds.sends
  refine ⟨⟨_, split⟩, ?_, ?_, ?_⟩
  · intro free none_
    cases sends with
    | idle _ _ _ _ posted =>
      have empty : queue = [] := by
        by_contra some_
        have pos := posted some_
        omega
      rw [← split, empty, flatten_nil, append_nil]
    | busy data used _ held =>
      rw [held] at free
      cases free
  · intro isClosed
    obtain ⟨rfl, free⟩ := closed (.inl isClosed)
    rw [flatten_nil, append_nil] at split
    refine ⟨split, ?_⟩
    cases sends with
    | idle _ _ _ acknowledged _ => rw [acknowledged, split]
    | busy data used _ held =>
      rw [held] at free
      cases free
  · by_cases connecting : s.job.state = .CONNECTING
    · obtain ⟨_, incomplete, none_⟩ := holds.connecting connecting
      rw [none_, deliverable, incomplete]
    · exact (holds.connected connecting).2

end Session

section

variable (data : Bytes)

variable (queue : List Bytes)

/-- A handler whose current buffer is the first in the queue. -/
def holding : WebSocketFrameHandler := ⟨some data, data.length, data.length, data :: queue⟩

theorem updateCurrentBuffer_cons :
    WebSocketFrameHandler.updateCurrentBuffer { pending_buffers := data :: queue } false =
      ((data.length : Int), holding data queue) :=
  rfl

theorem holding_currentData : (holding data queue).currentData = data := take_length

theorem holding_releaseCurrentBuffer :
    (holding data queue).releaseCurrentBuffer = some { pending_buffers := queue } := by
  rw [WebSocketFrameHandler.releaseCurrentBuffer, holding]
  dsimp only
  rw [drop_length]

end

theorem drainAll_eq (queue : List Bytes) (ne : ∀ buf ∈ queue, buf ≠ []) :
    drainAll { pending_buffers := queue } = some (queue.flatten, {}) := by
  rw [drainAll]
  induction queue with
  | nil => rfl
  | cons data queue ih =>
    rw [forall_mem_cons] at ne
    have pos := length_pos_iff.mpr ne.1
    rw [length_cons, drain, updateCurrentBuffer_cons]
    dsimp only
    rw [if_pos (by exact_mod_cast pos), holding_releaseCurrentBuffer,
      bind_eq_bind, bind_some, ih ne.2,
      holding_currentData]
    rfl

variable {job : WebSocketJob}

theorem sendData_idle (isOpen : job.state = .OPEN) (free : job.current_buffer = none)
    (handler : job.send_frame_handler = { pending_buffers := queue })
    (isQueue : queue ++ [data] = front :: rest)
    (ne : front ≠ []) :
    job.sendData data = (true,
        { job with
          send_frame_handler := holding front rest
          current_buffer := some ⟨front, 0⟩ },
        [.sendData front]) := by
  obtain ⟨s, handshake_response, _, cur, receive⟩ := job
  subst isOpen free handler
  have pos := length_pos_iff.mpr ne
  rw [sendData]
  dsimp only [WebSocketFrameHandler.appendData]
  rw [if_pos rfl, isQueue, updateCurrentBuffer_cons]
  dsimp only
  rw [if_pos (by exact_mod_cast pos), sendCurrent, holding_currentData]

theorem sendData_busy (isOpen : job.state = .OPEN)
    (handler : job.send_frame_handler = holding buffer queue) :
    job.sendData data = (true, { job with send_frame_handler := holding buffer (queue ++ [data]) },
        []) := by
  obtain ⟨s, handshake_response, _, cur, receive⟩ := job
  subst isOpen handler
  rfl

theorem sendData_refused (notOpen : job.state ≠ .OPEN) : job.sendData data = (false, job, []) := by
  rw [sendData]
  cases state : job.state with
  | OPEN => exact absurd state notOpen
  | _ => rfl

theorem sendPending_cons (free : job.current_buffer = none)
    (handler : job.send_frame_handler = { pending_buffers := front :: rest })
    (ne : front ≠ []) :
    job.sendPending =
      ({ job with
          send_frame_handler := holding front rest
          current_buffer := some ⟨front, 0⟩ },
        [.sendData front]) := by
  obtain ⟨s, handshake_response, _, cur, receive⟩ := job
  subst free handler
  have pos := length_pos_iff.mpr ne
  rw [sendPending]
  rw [updateCurrentBuffer_cons]
  dsimp only
  rw [if_neg (by omega), sendCurrent, holding_currentData]

theorem sendPending_nil (free : job.current_buffer = none) (handler : job.send_frame_handler = {}) :
    job.sendPending = (job, if job.state = .CLOSING then [.close] else []) := by
  obtain ⟨s, handshake_response, _, cur, receive⟩ := job
  subst free handler
  rfl

theorem sendPending_busy (held : job.current_buffer = some buffer) :
    job.sendPending = (job, []) := by
  rw [sendPending, held]

theorem onSentData_more (notClosed : job.state ≠ .CLOSED)
    (held : job.current_buffer = some ⟨data, used⟩)
    (more : used + amount_sent < data.length) :
    job.onSentData amount_sent =
      some ({ job with current_buffer := some ⟨data, used + amount_sent⟩ }, []) := by
  have remains : data.length - (used + amount_sent) > 0 := by omega
  rw [onSentData, if_neg notClosed, held]
  exact if_pos remains

theorem onSentData_last (notClosed : job.state ≠ .CLOSED)
    (held : job.current_buffer = some ⟨data, used⟩)
    (handler : job.send_frame_handler = holding data queue)
    (last : data.length <= used + amount_sent) :
    job.onSentData amount_sent =
      some ({ job with
          current_buffer := none
          send_frame_handler := { pending_buffers := queue } },
        [.onSentData data.length, .postSendPending]) := by
  have done : ¬ data.length - (used + amount_sent) > 0 := by omega
  rw [onSentData, if_neg notClosed, held]
  refine (if_neg done).trans ?_
  rw [handler, holding_releaseCurrentBuffer]
  rfl

theorem close_busy (held : job.current_buffer = some buffer) :
    job.close = ({ job with state := .CLOSING }, []) := by
  rw [close, held]

theorem close_idle (free : job.current_buffer = none) :
    job.close = ({ job with state := .CLOSED }, [.close]) := by
  rw [close, free]

/-- A segment behind the handshake response. -/
theorem onReceivedData_connected
    (notClosed : job.state ≠ .CLOSED) (notConnecting : job.state ≠ .CONNECTING)
    (drained : job.receive_frame_handler = {}) (ne : data ≠ []) :
    job.onReceivedData data = some (job, [.onReceivedData data]) := by
  obtain ⟨s, handshake_response, send, cur, _⟩ := job
  subst drained
  have drains : drainAll (WebSocketFrameHandler.appendData {} data) = some (data, {}) := by
    have all := drainAll_eq [data] (by simpa using ne)
    rw [flatten_singleton] at all
    exact all
  have shown : data.isEmpty = false := by
    rw [isEmpty_eq_false_iff]
    exact ne
  rw [onReceivedData]
  cases s with
  | CLOSED => exact absurd rfl notClosed
  | CONNECTING => exact absurd rfl notConnecting
  | _ =>
    rw [drains, bind_eq_bind, bind_some]
    dsimp only
    rw [shown]
    rfl

theorem onReceivedData_closed (closed : job.state = .CLOSED) :
    job.onReceivedData data = some (job, []) := by
  rw [onReceivedData, closed]

/-- A segment in front of the end of the handshake response. -/
theorem onReceivedData_incomplete (connecting : job.state = .CONNECTING)
    (handler : job.handshake_response = collecting protocol_version bytes)
    (incomplete : responseSize protocol_version (bytes ++ data) = none) :
    job.onReceivedData data =
      some ({ job with
        handshake_response := collecting protocol_version (bytes ++ data) },
        []) := by
  have notYet : (collecting protocol_version bytes).hasResponse = false := by
    rw [collecting_hasResponse, isSome_eq_false_iff, isNone_iff_eq_none]
    exact responseSize_eq_none_of_append incomplete
  have still : (collecting protocol_version (bytes ++ data)).hasResponse = false := by
    rw [collecting_hasResponse, incomplete]
    rfl
  have parses := parseRawResponse_of_incomplete incomplete
  rw [onReceivedData, connecting]
  rw [onReceivedHandshakeResponse, handler, notYet, if_neg Bool.false_ne_true]
  dsimp only
  rw [parses, still, if_neg Bool.false_ne_true, connecting]

/-- The segment with the end of the handshake response. -/
theorem onReceivedData_complete (connecting : job.state = .CONNECTING)
    (handler : job.handshake_response = collecting protocol_version bytes)
    (drained : job.receive_frame_handler = {})
    (incomplete : responseSize protocol_version bytes = none)
    (complete : responseSize protocol_version (bytes ++ data) = some size) :
    ∃ handshake_response, job.onReceivedData data =
        some ({ job with state := .OPEN, handshake_response },
          [.onReceivedData (deliverable protocol_version (bytes ++ data))]) := by
  obtain ⟨len, locates, rfl, done, parses⟩ := parseRawResponse_of_complete incomplete complete
  have notYet : (collecting protocol_version bytes).hasResponse = false := by
    rw [collecting_hasResponse, incomplete]
    rfl
  obtain ⟨state, _, send, cur, receive⟩ := job
  subst connecting handler drained
  refine ⟨(completed protocol_version (bytes ++ data) len).removeHeaders kSetCookieHeaders, ?_⟩
  have drains : drainAll (if data.length -
          (len + keySize protocol_version - bytes.length) > 0 then
        WebSocketFrameHandler.appendData {}
          (data.drop (len + keySize protocol_version - bytes.length))
      else {}) = some (data.drop (len + keySize protocol_version - bytes.length), {}) := by
    split_ifs with extra
    · have all := drainAll_eq [data.drop (len + keySize protocol_version - bytes.length)] (by
          intro buf mem
          rw [mem_singleton.mp mem, ← length_pos_iff, length_drop]
          exact extra)
      rw [flatten_singleton] at all
      exact all
    · rw [drop_eq_nil_of_le (by omega)]
      rfl
  rw [onReceivedData]
  rw [onReceivedHandshakeResponse, notYet, if_neg Bool.false_ne_true, parses]
  dsimp only
  rw [done, if_pos rfl, drains, bind_eq_bind, bind_some, deliverable_eq incomplete complete locates]
  rfl

namespace Session

variable {s : Session}

section

variable (holds : Consistent protocol_version s)
include holds

theorem Consistent.sendData (connected : s.job.state ≠ .CONNECTING) (ne : data ≠ []) :
    ∃ next, s.perform (.sendData data) = some next ∧ Consistent protocol_version next := by
  obtain ⟨queue, sends, filled, split, closing⟩ := holds.sends
  by_cases isOpen : s.job.state = .OPEN
  · have stillOpen : ¬ (s.closed = true ∨ s.job.state = .CLOSED ∨ s.job.state = .CONNECTING) := by
      rintro (isClosed | isClosed | connecting)
      · exact (holds.closed isClosed).1 isOpen
      · rw [isOpen] at isClosed
        cases isClosed
      · exact connected connecting
    have all : ∀ buf ∈ queue ++ [data], buf ≠ [] := by
      intro buf mem
      rcases mem_append.mp mem with earlier | last
      · exact filled buf earlier
      · rw [mem_singleton.mp last]
        exact ne
    have whole : s.handed ++ (queue ++ [data]).flatten = s.accepted ++ data := by
      rw [flatten_append, flatten_singleton, ← append_assoc, split]
    cases sends with
    | idle _ free handler acknowledged _ =>
      obtain ⟨front, rest, isQueue⟩ : ∃ front rest, queue ++ [data] = front :: rest := by
        cases queue with
        | nil => exact ⟨data, [], rfl⟩
        | cons front queue => exact ⟨front, queue ++ [data], rfl⟩
      rw [isQueue, forall_mem_cons] at all
      rw [isQueue, flatten_cons, ← append_assoc] at whole
      have performs : s.perform (.sendData data) = some { s with
          job := { s.job with
            send_frame_handler := holding front rest
            current_buffer := some ⟨front, 0⟩ }
          accepted := s.accepted ++ data
          handed := s.handed ++ front } := by
        rw [perform, sendData_idle isOpen free handler isQueue all.1]
        rfl
      refine ⟨_, performs, ⟨rest, .busy front 0 rest rfl rfl
        (length_pos_iff.mpr all.1) ?_, all.2, whole,
        fun ends => absurd ends stillOpen⟩, holds.closed,
        fun connecting => absurd connecting connected, holds.connected,
        holds.drained, holds.initialized⟩
      rw [acknowledged, length_append, Nat.sub_zero]
    | busy buf used _ held handler unfinished acknowledged =>
      have performs : s.perform (.sendData data) = some { s with
          job := { s.job with
            send_frame_handler := holding buf (queue ++ [data]) }
          accepted := s.accepted ++ data } := by
        rw [perform, sendData_busy isOpen handler]
        rfl
      exact ⟨_, performs, ⟨queue ++ [data], .busy buf used _ held rfl
        unfinished acknowledged, all, whole,
        fun ends => absurd ends stillOpen⟩, holds.closed,
        fun connecting => absurd connecting connected, holds.connected,
        holds.drained, holds.initialized⟩
  · refine ⟨s, ?_, holds⟩
    rw [perform, sendData_refused isOpen]
    dsimp only
    rw [if_neg Bool.false_ne_true, append_nil]
    rfl

theorem Consistent.close (connected : s.job.state ≠ .CONNECTING)
    (well : s.job.current_buffer ≠ none ∨ s.job.send_frame_handler.pending_buffers = []) :
    ∃ next, s.perform .close = some next ∧ Consistent protocol_version next := by
  obtain ⟨queue, sends, filled, split, closing⟩ := holds.sends
  cases sends with
  | idle _ free handler acknowledged posted =>
    have empty : queue = [] := by
      have none_ := well.resolve_left (fun held => held free)
      rw [handler] at none_
      exact none_
    have performs : s.perform .close = some { s with
        job := { s.job with state := .CLOSED }
        closed := true } := by
      rw [perform, close_idle free]
      rfl
    exact ⟨_, performs, ⟨queue, .idle _ free handler acknowledged posted,
      filled, split, fun _ => ⟨empty, free⟩⟩,
      fun _ => ⟨by rintro ⟨⟩, by rintro ⟨⟩⟩, (by rintro ⟨⟩),
      fun _ => holds.connected connected, holds.drained,
      (by rintro ⟨⟩)⟩
  | busy buffer used _ held handler unfinished acknowledged =>
    have performs : s.perform .close = some { s with
        job := { s.job with state := .CLOSING } } := by
      rw [perform, close_busy held]
      rfl
    refine ⟨_, performs, ⟨queue, .busy buffer used _ held handler unfinished
      acknowledged, filled, split, ?_⟩,
      fun _ => ⟨by rintro ⟨⟩, by rintro ⟨⟩⟩, (by rintro ⟨⟩),
      fun _ => holds.connected connected, holds.drained,
      (by rintro ⟨⟩)⟩
    rintro (isClosed | ⟨⟨⟩⟩ | ⟨⟨⟩⟩)
    exact closing (.inl isClosed)

theorem Consistent.onSentData (held : s.job.current_buffer = some buffer)
    (inside : amount_sent <= buffer.bytesRemaining) :
    ∃ next, s.perform (.onSentData amount_sent) = some next ∧ Consistent protocol_version next := by
  obtain ⟨queue, sends, filled, split, closing⟩ := holds.sends
  cases sends with
  | idle _ free _ _ _ =>
    rw [free] at held
    cases held
  | busy data used _ held' handler unfinished acknowledged =>
    rw [held] at held'
    cases held'
    have stillOpen : ¬ (s.closed = true ∨ s.job.state = .CLOSED ∨ s.job.state = .CONNECTING) := by
      intro ends
      rw [(closing ends).2] at held
      cases held
    have notClosed : s.job.state ≠ .CLOSED := fun isClosed => stillOpen (.inr (.inl isClosed))
    rw [DrainableIOBuffer.bytesRemaining] at inside
    dsimp only at inside
    rcases Nat.lt_or_ge (used + amount_sent) data.length with more | last
    · have performs : s.perform (.onSentData amount_sent) =
          some { s with
            job := { s.job with
              current_buffer := some ⟨data, used + amount_sent⟩ }
            acknowledged := s.acknowledged + amount_sent } := by
        rw [perform, onSentData_more notClosed held more]
        rfl
      refine ⟨_, performs, ⟨queue, .busy data (used + amount_sent) _ rfl
        handler more ?_, filled, split, fun ends => absurd ends stillOpen⟩,
        holds.closed, holds.connecting, holds.connected,
        holds.drained, holds.initialized⟩
      dsimp only
      omega
    · have performs : s.perform (.onSentData amount_sent) =
          some { s with
            job := { s.job with
              current_buffer := none
              send_frame_handler := { pending_buffers := queue } }
            acknowledged := s.acknowledged + amount_sent
            posted := s.posted + 1 } := by
        rw [perform, onSentData_last notClosed held handler last]
        rfl
      refine ⟨_, performs, ⟨queue, .idle _ rfl rfl ?_ (fun _ => Nat.succ_pos _), filled, split,
        fun ends => absurd ends stillOpen⟩,
        holds.closed, holds.connecting, holds.connected,
        holds.drained, holds.initialized⟩
      dsimp only
      omega

theorem Consistent.sendPending :
    ∃ next, s.perform .sendPending = some next ∧ Consistent protocol_version next := by
  obtain ⟨queue, sends, filled, split, closing⟩ := holds.sends
  cases sends with
  | busy data used _ held handler unfinished acknowledged =>
    have performs : s.perform .sendPending = some { s with posted := s.posted - 1 } := by
      rw [perform, sendPending_busy held]
      rfl
    exact ⟨_, performs, ⟨queue, .busy data used _ held handler unfinished
      acknowledged, filled, split, closing⟩, holds.closed,
      holds.connecting, holds.connected, holds.drained,
      holds.initialized⟩
  | idle _ free handler acknowledged posted =>
    cases queue with
    | nil =>
      have idle : ∀ closed, Sends { s with
          posted := s.posted - 1, closed } [] := fun closed =>
        .idle _ free handler acknowledged (fun some_ => absurd rfl some_)
      by_cases isClosing : s.job.state = .CLOSING
      · have performs : s.perform .sendPending =
            some { s with
              posted := s.posted - 1
              closed := true } := by
          rw [perform, sendPending_nil free handler, if_pos isClosing]
          rfl
        refine ⟨_, performs, ⟨[], idle true, filled, split,
          fun _ => ⟨rfl, free⟩⟩, fun _ => ?_, holds.connecting,
          holds.connected, holds.drained, holds.initialized⟩
        rw [isClosing]
        exact ⟨by rintro ⟨⟩, by rintro ⟨⟩⟩
      · have performs : s.perform .sendPending = some { s with posted := s.posted - 1 } := by
          rw [perform, sendPending_nil free handler, if_neg isClosing]
          rfl
        exact ⟨_, performs, ⟨[], idle s.closed, filled, split,
          closing⟩, holds.closed, holds.connecting,
          holds.connected, holds.drained, holds.initialized⟩
    | cons front rest =>
      have stillOpen : ¬ (s.closed = true ∨ s.job.state = .CLOSED ∨ s.job.state = .CONNECTING) := by
        intro ends
        cases (closing ends).1
      rw [forall_mem_cons] at filled
      rw [flatten_cons, ← append_assoc] at split
      have performs : s.perform .sendPending =
          some { s with
            posted := s.posted - 1
            job := { s.job with
              send_frame_handler := holding front rest
              current_buffer := some ⟨front, 0⟩ }
            handed := s.handed ++ front } := by
        rw [perform, sendPending_cons free handler filled.1]
        rfl
      refine ⟨_, performs, ⟨rest, .busy front 0 _ rfl rfl
        (length_pos_iff.mpr filled.1) ?_, filled.2, split,
        fun ends => absurd ends stillOpen⟩, holds.closed,
        holds.connecting, holds.connected, holds.drained,
        holds.initialized⟩
      rw [acknowledged, length_append, Nat.sub_zero]

end

/-- What is sent does not depend on what is received. -/
theorem Sends.congr {other : Session} (sends : s.Sends queue)
    (cur : other.job.current_buffer = s.job.current_buffer)
    (handler : other.job.send_frame_handler = s.job.send_frame_handler)
    (acknowledged : other.acknowledged = s.acknowledged)
    (handed : other.handed = s.handed) (posted : other.posted = s.posted) :
    other.Sends queue := by
  cases sends with
  | idle _ free isHandler acknowledgement waits =>
    refine .idle _ (cur.trans free) (handler.trans isHandler) ?_ ?_
    · rw [acknowledged, handed]
      exact acknowledgement
    · rw [posted]
      exact waits
  | busy data used _ held isHandler unfinished acknowledgement =>
    refine .busy data used _ (cur.trans held) (handler.trans isHandler) unfinished ?_
    rw [acknowledged, handed]
    exact acknowledgement

theorem Consistent.onReceivedData (holds : Consistent protocol_version s) (ne : data ≠ []) :
    ∃ next, s.perform (.onReceivedData data) = some next ∧ Consistent protocol_version next := by
  obtain ⟨queue, sends, filled, split, closing⟩ := holds.sends
  by_cases isClosed : s.job.state = .CLOSED
  · refine ⟨s, ?_, holds⟩
    rw [perform, onReceivedData_closed isClosed]
    rw [if_pos isClosed, append_nil]
    rfl
  by_cases connecting : s.job.state = .CONNECTING
  · obtain ⟨handler, incomplete, none_⟩ := holds.connecting connecting
    have empty := closing (.inr (.inr connecting))
    cases complete : responseSize protocol_version (s.received ++ data) with
    | none =>
      have performs : s.perform (.onReceivedData data) =
          some { s with
            job := { s.job with
              handshake_response := collecting protocol_version (s.received ++ data) }
            received := s.received ++ data } := by
        rw [perform, onReceivedData_incomplete connecting handler complete, if_neg isClosed]
        rfl
      exact ⟨_, performs, ⟨queue, sends.congr rfl rfl rfl rfl rfl, filled,
        split, closing⟩, holds.closed, fun _ => ⟨rfl, complete, none_⟩,
        fun connected => absurd connecting connected, holds.drained,
        holds.initialized⟩
    | some size =>
      obtain ⟨handshake_response, receives⟩ := onReceivedData_complete
        connecting handler holds.drained incomplete complete
      have performs : s.perform (.onReceivedData data) =
          some { s with
            job := { s.job with state := .OPEN, handshake_response }
            received := s.received ++ data
            delivered := s.delivered ++
              deliverable protocol_version (s.received ++ data) } := by
        rw [perform, receives, if_neg isClosed]
        rfl
      refine ⟨_, performs, ⟨queue, sends.congr rfl rfl rfl rfl rfl, filled,
        split, fun _ => empty⟩, ?_, (by rintro ⟨⟩), fun _ => ⟨?_, ?_⟩,
        holds.drained, (by rintro ⟨⟩)⟩
      · intro shut
        exact absurd connecting (holds.closed shut).2
      · rw [complete]
        rfl
      · rw [none_, nil_append]
  · have performs : s.perform (.onReceivedData data) =
        some { s with
          received := s.received ++ data
          delivered := s.delivered ++ data } := by
      rw [perform, onReceivedData_connected isClosed connecting
        holds.drained ne, if_neg isClosed]
      rfl
    obtain ⟨complete, delivered⟩ := holds.connected connecting
    obtain ⟨size, complete⟩ := isSome_iff_exists.mp complete
    refine ⟨_, performs, ⟨queue, sends.congr rfl rfl rfl rfl rfl, filled, split,
      closing⟩, holds.closed, fun isConnecting =>
        absurd isConnecting connecting, fun _ => ⟨?_, ?_⟩, holds.drained,
      holds.initialized⟩
    · rw [responseSize_append complete]
      rfl
    · rw [deliverable_append complete, delivered]

variable {event : Event} {events : List Event} {next : Session}

/-- Every event keeps a session consistent, if the job is closed well. -/
theorem Consistent.perform (holds : Consistent protocol_version s) (ok : s.Permitted event)
    (well : event = .close -> s.job.current_buffer ≠ none ∨
      s.job.send_frame_handler.pending_buffers = []) :
    ∃ next, s.perform event = some next ∧ Consistent protocol_version next := by
  cases event with
  | sendData data => exact holds.sendData ok.1 ok.2
  | close => exact holds.close ok (well rfl)
  | onSentData amount_sent =>
    obtain ⟨_, buf, held, inside⟩ := ok
    exact holds.onSentData held inside
  | onReceivedData data => exact holds.onReceivedData ok
  | sendPending => exact holds.sendPending

/-- A job that is closed with data in its queue loses it. -/
theorem Consistent.not_exact_of_close (holds : Consistent protocol_version s)
    (free : s.job.current_buffer = none)
    (waits : s.job.send_frame_handler.pending_buffers ≠ []) :
    ∃ next, s.perform .close = some next ∧ ¬ Exact protocol_version next := by
  refine ⟨_, rfl, ?_⟩
  intro exact_
  rw [close_idle free] at exact_
  have same : s.handed = s.accepted := (exact_.closed rfl).1
  obtain ⟨queue, sends, filled, split, _⟩ := holds.sends
  cases sends with
  | busy data used _ held => rw [held] at free; cases free
  | idle _ _ handler _ _ =>
    rw [handler] at waits
    rw [same, append_right_eq_self] at split
    cases queue with
    | nil => exact waits rfl
    | cons front rest =>
      rw [flatten_cons, append_eq_nil_iff] at split
      exact filled front mem_cons_self split.1

theorem AllPermitted.head (ok : s.AllPermitted (event :: events)) : s.Permitted event :=
  ok [] event events rfl s rfl

theorem AllPermitted.tail (ok : s.AllPermitted (event :: events))
    (performs : s.perform event = some next) :
    next.AllPermitted events := by
  intro before other rest isEvents between runs
  refine ok (event :: before) other rest (by rw [isEvents]; rfl) between ?_
  rw [foldlM_cons, performs]
  exact runs

theorem allPermitted_nil : s.AllPermitted [] := by
  intro before event rest isEvents
  cases before <;> cases isEvents

theorem AllPermitted.cons (ok : s.Permitted event)
    (performs : s.perform event = some next) (later : next.AllPermitted events) :
    s.AllPermitted (event :: events) := by
  intro before other rest isEvents between runs
  cases before with
  | nil =>
    cases isEvents
    cases runs
    exact ok
  | cons first before =>
    rw [cons_append, List.cons.injEq] at isEvents
    obtain ⟨rfl, isEvents⟩ := isEvents
    rw [foldlM_cons, performs] at runs
    exact later before other rest isEvents between runs

theorem AlwaysExact.tail (exact_ : s.AlwaysExact protocol_version (event :: events))
    (performs : s.perform event = some next) :
    next.AlwaysExact protocol_version events := by
  intro before rest isEvents
  obtain ⟨between, runs, isExact⟩ := exact_ (event :: before) rest (by rw [isEvents]; rfl)
  rw [foldlM_cons, performs] at runs
  exact ⟨between, runs, isExact⟩

theorem ClosesWell.tail (well : s.ClosesWell (event :: events))
    (performs : s.perform event = some next) :
    next.ClosesWell events := by
  intro before rest isEvents between runs
  refine well (event :: before) rest (by rw [isEvents]; rfl) between ?_
  rw [foldlM_cons, performs]
  exact runs

theorem closesWell_nil : s.ClosesWell [] := by
  intro before rest isEvents
  cases before <;> cases isEvents

theorem ClosesWell.cons (well : event = .close -> s.job.current_buffer ≠ none ∨
      s.job.send_frame_handler.pending_buffers = [])
    (performs : s.perform event = some next) (later : next.ClosesWell events) :
    s.ClosesWell (event :: events) := by
  intro before rest isEvents between runs
  cases before with
  | nil =>
    cases isEvents
    cases runs
    exact well rfl
  | cons first before =>
    rw [cons_append, List.cons.injEq] at isEvents
    obtain ⟨rfl, isEvents⟩ := isEvents
    rw [foldlM_cons, performs] at runs
    exact later before rest isEvents between runs

theorem Consistent.alwaysExact_iff : ∀ {s : Session}, Consistent protocol_version s ->
      s.AllPermitted events ->
      (s.AlwaysExact protocol_version events ↔ s.ClosesWell events) := by
  induction events with
  | nil =>
    intro s holds _
    constructor
    · exact fun _ => closesWell_nil
    · intro _ before rest isEvents
      rw [nil_eq, append_eq_nil_iff] at isEvents
      rw [isEvents.1]
      exact ⟨s, rfl, holds.exact_⟩
  | cons event events ih =>
    intro s holds ok
    constructor
    · intro exact_
      have well : event = .close -> s.job.current_buffer ≠ none ∨
          s.job.send_frame_handler.pending_buffers = [] := by
        rintro rfl
        by_contra bad
        rw [not_or, not_not] at bad
        obtain ⟨next, performs, notExact⟩ := holds.not_exact_of_close bad.1 bad.2
        obtain ⟨between, runs, isExact⟩ := exact_ [.close] events rfl
        rw [foldlM_cons, performs] at runs
        cases runs
        exact notExact isExact
      obtain ⟨next, performs, onward⟩ := holds.perform ok.head well
      have rest := (ih onward (ok.tail performs)).mp (exact_.tail performs)
      exact .cons well performs rest
    · intro well
      obtain ⟨next, performs, onward⟩ := holds.perform ok.head (by
        rintro rfl
        exact well [] events rfl s rfl)
      have rest := (ih onward (ok.tail performs)).mpr (well.tail performs)
      intro before later isEvents
      cases before with
      | nil => exact ⟨s, rfl, holds.exact_⟩
      | cons first before =>
        rw [cons_append, List.cons.injEq] at isEvents
        obtain ⟨rfl, isEvents⟩ := isEvents
        rw [foldlM_cons, performs]
        exact rest before later isEvents

/-- A run of a job loses nothing if and only if the job is closed well. -/
theorem alwaysExact_iff_closesWell (protocol_version : Nat) (events : List Event)
    (ok : (start protocol_version).AllPermitted events) :
    (start protocol_version).AlwaysExact protocol_version events ↔
      (start protocol_version).ClosesWell events :=
  (start_consistent protocol_version).alwaysExact_iff ok

/-- A job that is closed while its only buffer is sent. -/
theorem alwaysExact_iff_closesWell_once : (start 4).AlwaysExact 4
      [.onReceivedData [lf, lf, 7], .sendData [1, 2], .onSentData 1, .close,
        .onSentData 1, .sendPending] := by
  refine (alwaysExact_iff_closesWell 4 _ ?_).mpr ?_
  · refine .cons (by rintro ⟨⟩) rfl ?_
    refine .cons ⟨by rintro ⟨⟩, by rintro ⟨⟩⟩ rfl ?_
    refine .cons ⟨by decide, ⟨[1, 2], 0⟩, rfl, by decide⟩ rfl ?_
    refine .cons (by rintro ⟨⟩) rfl ?_
    refine .cons ⟨by decide, ⟨[1, 2], 1⟩, rfl, by decide⟩ rfl ?_
    exact .cons Nat.one_pos rfl allPermitted_nil
  · refine .cons (by rintro ⟨⟩) rfl ?_
    refine .cons (by rintro ⟨⟩) rfl ?_
    refine .cons (by rintro ⟨⟩) rfl ?_
    refine .cons (fun _ => .inl (by rintro ⟨⟩)) rfl ?_
    refine .cons (by rintro ⟨⟩) rfl ?_
    exact .cons (by rintro ⟨⟩) rfl closesWell_nil

/-- A job that is closed between two buffers does not send the second one
before. -/
theorem not_alwaysExact : ¬ ∀ (protocol_version : Nat) (events : List Event),
      (start protocol_version).AllPermitted events ->
      (start protocol_version).AlwaysExact protocol_version events := by
  intro claim
  have exact_ := claim 4
    [.onReceivedData [lf, lf], .sendData [1], .sendData [2], .onSentData 1, .close] (by
        refine .cons (by rintro ⟨⟩) rfl ?_
        refine .cons ⟨by rintro ⟨⟩, by rintro ⟨⟩⟩ rfl ?_
        refine .cons ⟨by rintro ⟨⟩, by rintro ⟨⟩⟩ rfl ?_
        refine .cons ⟨by decide, ⟨[1], 0⟩, rfl, by decide⟩ rfl ?_
        exact .cons (by rintro ⟨⟩) rfl allPermitted_nil)
  obtain ⟨last, runs, isExact⟩ := exact_ _ [] (append_nil _).symm
  cases runs
  cases (isExact.closed rfl).1

end Session
end Chromium.Net.WebSocketJob
