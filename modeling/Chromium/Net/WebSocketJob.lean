import Chromium.Net.HttpChunkedDecoder
import Chromium.Net.HttpUtil
import Chromium.Net.WebSocketFrames

/-!
# The handshake response of web sockets

`WebSocketHandshakeResponseHandler` collects the bytes of a response up to its
last byte, and removes headers from it.
-/

namespace Chromium.Net

open List Option

section

open Library (Span tokens)

/-- The loop of `HttpUtil::LocateEndOfHeaders`. -/
def locateLoop : Nat -> Bool -> UInt8 -> Bytes -> Option Nat
  | _, _, _, [] => none
  | i, was_lf, last_c, c :: buf =>
    if c = lf then if was_lf then some (i + 1) else locateLoop (i + 1) true c buf
    else if c ≠ cr ∨ last_c ≠ lf then locateLoop (i + 1) false c buf
    else locateLoop (i + 1) was_lf c buf

/-- `HttpUtil::LocateEndOfHeaders`: the number of bytes up to the end of the
headers. -/
def locateEndOfHeaders (buf : Bytes) : Option Nat := locateLoop 0 false 0 buf

/-- `ParseHandshakeHeader`: the status line and the headers. -/
def parseHandshakeHeader (handshake_message : Bytes) : Bytes × Bytes :=
  let i := handshake_message.findIdx fun c => c == cr || c == lf
  if i = handshake_message.length then (handshake_message, [])
  else
    let header_len := handshake_message.length - (i + 2) - 2
    (handshake_message.take (i + 2), (handshake_message.drop (i + 2)).take header_len)

/-- The name of a header line, if the line has one. -/
def getHeaderName (line : Bytes) : Option Bytes :=
  let colon := line.findIdx (· == 0x3a)
  if colon = line.length then none
  else if colon = 0 ∨ HttpUtil.isLWS (line.getD 0 0) then none
  else some ((HttpUtil.trimLWS line ⟨0, colon⟩).of line)

/-- The lines of headers. -/
def headerLines (headers : Bytes) : List Bytes :=
  (tokens () (fun _ c => if c = cr ∨ c = lf then none else some ()) headers).map (Span.of · headers)

/-- Whether a header line has one of some names. -/
def isNamedIn (headers_to_remove : List String) (line : Bytes) : Bool :=
  match getHeaderName line with
  | none => false
  | some name => headers_to_remove.any (lowerCaseEqualsASCII name)

/-- `FilterHeaders`, which keeps malformed headers. -/
def filterHeaders (headers : Bytes) (headers_to_remove : List String) : Bytes :=
  ((headerLines headers).filter fun line =>
    !isNamedIn headers_to_remove line).flatMap (· ++ [cr, lf])

def kResponseKeySize : Nat := 16
def kMinVersionOfHybiNewHandshake : Nat := 4

structure WebSocketHandshakeResponseHandler where
  original : Bytes := []
  original_header_length : Option Nat := none
  status_line : Bytes := []
  headers : Bytes := []
  header_separator : Bytes := []
  key : Bytes := []
  protocol_version : Nat := 0
deriving DecidableEq

namespace WebSocketHandshakeResponseHandler

variable (handler : WebSocketHandshakeResponseHandler)

def getResponseKeySize : Nat :=
  if handler.protocol_version ≥ kMinVersionOfHybiNewHandshake then 0
  else kResponseKeySize

def hasResponse : Bool :=
  match handler.original_header_length with
  | none => false
  | some length => decide (length + handler.getResponseKeySize <= handler.original.length)

/-- `ParseRawResponse`: the number of bytes that belong to the response. -/
def parseRawResponse (data : Bytes) : Nat × WebSocketHandshakeResponseHandler :=
  if handler.hasResponse then (0, handler)
  else
    let original := handler.original ++ data
    let parsed := { handler with
      original
      original_header_length := locateEndOfHeaders original }
    match parsed.original_header_length with
    | none => (data.length, parsed)
    | some length =>
      if parsed.hasResponse then
        let (status_line, headers) := parseHandshakeHeader (original.take length)
        let header_size := status_line.length + headers.length
        (length + handler.getResponseKeySize - handler.original.length,
          { parsed with
            status_line
            headers
            header_separator := (original.drop header_size).take (length - header_size)
            key := (original.drop length).take handler.getResponseKeySize })
      else (data.length, parsed)

def removeHeaders (headers_to_remove : List String) : WebSocketHandshakeResponseHandler :=
  { handler with headers := filterHeaders handler.headers headers_to_remove }

def getResponse : Bytes :=
  handler.status_line ++ handler.headers ++ handler.header_separator ++ handler.key

end WebSocketHandshakeResponseHandler

end

/-!
## Web socket jobs

`WebSocketJob` stands between a socket and a delegate. It keeps the cookies of
a handshake response from the delegate, and hands the data that the delegate
sends to the socket, one buffer after the other has been sent.
-/

section

/-- lower-case header names. -/
def kSetCookieHeaders : List String := ["set-cookie", "set-cookie2"]

/-- A `DrainableIOBuffer`. -/
structure DrainableIOBuffer where
  data : Bytes
  used : Nat := 0
deriving DecidableEq

namespace DrainableIOBuffer

def didConsume (buffer : DrainableIOBuffer) (bytes : Nat) : DrainableIOBuffer :=
  { buffer with used := buffer.used + bytes }

def bytesRemaining (buffer : DrainableIOBuffer) : Nat := buffer.data.length - buffer.used

end DrainableIOBuffer

namespace WebSocketJob

inductive State where
  | INITIALIZED
  | CONNECTING
  | OPEN
  | CLOSING
  | CLOSED
deriving DecidableEq

/-- What a job does to its socket, its delegate and the message loop. -/
inductive Effect where
  | sendData (data : Bytes)
  | close
  | onSentData (amount_sent : Nat)
  | onReceivedData (data : Bytes)
  | postSendPending
deriving DecidableEq

end WebSocketJob

open WebSocketJob (State Effect)

/-- A job with a socket and a delegate. -/
structure WebSocketJob where
  state : State
  handshake_response : WebSocketHandshakeResponseHandler
  send_frame_handler : WebSocketFrameHandler := {}
  current_buffer : Option DrainableIOBuffer := none
  receive_frame_handler : WebSocketFrameHandler := {}
deriving DecidableEq

namespace WebSocketJob

section

variable (job : WebSocketJob)

/-- The current buffer of the send handler is handed to the socket. -/
def sendCurrent (handler : WebSocketFrameHandler) : WebSocketJob × List Effect :=
  ({ job with
      send_frame_handler := handler
      current_buffer := some { data := handler.currentData } },
    [.sendData handler.currentData])

/-- `WebSocketJob::SendData`, once the handshake is over. The socket takes the
data it is given. -/
def sendData (data : Bytes) : Bool × WebSocketJob × List Effect :=
  match job.state with
  | .OPEN =>
    let handler := job.send_frame_handler.appendData data
    let job := { job with send_frame_handler := handler }
    -- If a buffer is sent now, this data is sent in SendPending().
    if handler.current_buffer = none then
      let (err, handler) := handler.updateCurrentBuffer false
      if err > 0 then (true, job.sendCurrent handler)
      else (decide (err ≥ 0), { job with send_frame_handler := handler }, [])
    else (true, job, [])
  | _ => (false, job, [])

/-- `WebSocketJob::Close`. -/
def close (job : WebSocketJob) : WebSocketJob × List Effect :=
  match job.current_buffer with
  | some _ => ({ job with state := .CLOSING }, [])
  | none => ({ job with state := .CLOSED }, [.close])

/-- `WebSocketJob::SendPending`. -/
def sendPending : WebSocketJob × List Effect :=
  match job.current_buffer with
  | some _ => (job, [])
  | none =>
    let (err, handler) := job.send_frame_handler.updateCurrentBuffer false
    if err <= 0 then
      ({ job with send_frame_handler := handler }, if job.state = .CLOSING then [.close] else [])
    else job.sendCurrent handler

/-- `WebSocketJob::OnSentData`, once the handshake is over. It fails if there
is nothing being sent. -/
def onSentData (job : WebSocketJob) (amount_sent : Nat) : Option (WebSocketJob × List Effect) :=
  if job.state = .CLOSED then some (job, [])
  else
    match job.current_buffer with
    | none => none
    | some buffer =>
      let buffer := buffer.didConsume amount_sent
      if buffer.bytesRemaining > 0 then some ({ job with current_buffer := some buffer }, [])
      else do
        -- The original size is reported, not the amount that was sent.
        let amount_sent := job.send_frame_handler.original_current_buffer_size
        let handler ← job.send_frame_handler.releaseCurrentBuffer
        return ({ job with
            current_buffer := none
            send_frame_handler := handler },
          [.onSentData amount_sent, .postSendPending])

/-- The loop that takes all buffers out of the receive handler. -/
def drain : Nat -> WebSocketFrameHandler -> Option (Bytes × WebSocketFrameHandler)
  | 0, handler => some ([], handler)
  | rounds + 1, handler =>
    let (size, updated) := handler.updateCurrentBuffer false
    if size > 0 then do
      let released ← updated.releaseCurrentBuffer
      let (received_data, handler) ← drain rounds released
      return (updated.currentData ++ received_data, handler)
    else some ([], updated)

def drainAll (handler : WebSocketFrameHandler) : Option (Bytes × WebSocketFrameHandler) :=
  drain handler.pending_buffers.length handler

/-- `OnReceivedHandshakeResponse`, up to the end of `SaveNextCookie`. -/
def onReceivedHandshakeResponse (data : Bytes) : Option (WebSocketJob × List Effect) :=
  if job.handshake_response.hasResponse then
    some ({ job with
      receive_frame_handler := job.receive_frame_handler.appendData data }, [])
  else
    let (response_length, handshake_response) := job.handshake_response.parseRawResponse data
    if handshake_response.hasResponse then do
      -- Extra data is frame data.
      let handler :=
        if data.length - response_length > 0 then
          job.receive_frame_handler.appendData (data.drop response_length)
        else job.receive_frame_handler
      let handshake_response := handshake_response.removeHeaders kSetCookieHeaders
      let (received_data, handler) ← drainAll handler
      return ({ job with
          state := .OPEN
          handshake_response
          receive_frame_handler := handler },
        [.onReceivedData (handshake_response.getResponse ++ received_data)])
    else some ({ job with handshake_response }, [])

end

/-- `WebSocketJob::OnReceivedData`. -/
def onReceivedData (job : WebSocketJob) (data : Bytes) : Option (WebSocketJob × List Effect) :=
  match job.state with
  | .CLOSED => some (job, [])
  | .CONNECTING => job.onReceivedHandshakeResponse data
  | _ => do
      let (received_data, handler) ← drainAll (job.receive_frame_handler.appendData data)
      return ({ job with receive_frame_handler := handler },
        if received_data.isEmpty then [] else [.onReceivedData received_data])

end WebSocketJob

end

/-!
## What a delegate receives

The bytes of a server are a handshake response and frame data. The end of the
response, and what is left of it without its cookies, do not depend on how the
bytes are cut into segments.
-/

theorem locateLoop_bounds :
    ∀ {i was_lf last_c len}, locateLoop i was_lf last_c buf = some len ->
      i < len ∧ len <= i + buf.length := by
  induction buf with
  | nil =>
    intro i was_lf last_c len locates
    cases locates
  | cons c buf ih =>
    intro i was_lf last_c len locates
    rw [length_cons]
    rw [locateLoop] at locates
    split_ifs at locates with isLf wasLf isLine
    · cases locates
      omega
    all_goals
      have bounds := ih locates
      omega

/-- The end is found in the bytes in front of it. -/
theorem locateLoop_take (buf : Bytes) :
    ∀ {i was_lf last_c len}, locateLoop i was_lf last_c buf = some len ->
      locateLoop i was_lf last_c (buf.take (len - i)) = some len := by
  induction buf with
  | nil =>
    intro i was_lf last_c len locates
    cases locates
  | cons c buf ih =>
    intro i was_lf last_c len locates
    have bounds := locateLoop_bounds locates
    obtain ⟨n, same⟩ : ∃ n, len - i = n + 1 := ⟨len - i - 1, by omega⟩
    have rest : len - (i + 1) = n := by omega
    rw [same, take_succ_cons, locateLoop, ← rest]
    rw [locateLoop] at locates
    split_ifs at locates ⊢ with isLf wasLf isLine
    · exact locates
    · exact ih locates
    · exact ih locates
    · exact ih locates

theorem locateLoop_append :
    ∀ {i was_lf last_c len}, locateLoop i was_lf last_c buf = some len ->
      locateLoop i was_lf last_c (buf ++ more) = some len := by
  induction buf with
  | nil =>
    intro i was_lf last_c len locates
    cases locates
  | cons c buf ih =>
    intro i was_lf last_c len locates
    rw [cons_append, locateLoop]
    rw [locateLoop] at locates
    split_ifs at locates ⊢ with isLf wasLf isLine
    · exact locates
    · exact ih locates
    · exact ih locates
    · exact ih locates

theorem locateEndOfHeaders_append {len : Nat}
    (locates : locateEndOfHeaders buf = some len) (more : Bytes) :
    locateEndOfHeaders (buf ++ more) = some len :=
  locateLoop_append locates

theorem locateEndOfHeaders_take {len : Nat}
    (locates : locateEndOfHeaders buf = some len) {n : Nat} (enough : len <= n) :
    locateEndOfHeaders (buf.take n) = some len := by
  have front : locateEndOfHeaders (buf.take len) = some len := locateLoop_take buf locates
  have whole := locateEndOfHeaders_append front ((buf.take n).drop len)
  have isFront : buf.take len = (buf.take n).take len := by
    rw [take_take, Nat.min_eq_left enough]
  rw [isFront, take_append_drop] at whole
  exact whole

section

variable (protocol_version : Nat)

/-- The size of a response key. -/
def keySize : Nat :=
  if protocol_version ≥ kMinVersionOfHybiNewHandshake then 0
  else kResponseKeySize

/-- The size of the handshake response at the front of some bytes, if all of it
is there. -/
def responseSize (bytes : Bytes) : Option Nat :=
  (locateEndOfHeaders bytes).bind fun length =>
    if length + keySize protocol_version <= bytes.length then
      some (length + keySize protocol_version)
    else none

/-- A handshake response without its cookies. -/
def withoutCookies (response : Bytes) : Bytes :=
  let handler : WebSocketHandshakeResponseHandler := { protocol_version }
  ((handler.parseRawResponse response).2.removeHeaders kSetCookieHeaders).getResponse

/-- What a delegate receives of the bytes of a server: the handshake response
without its cookies, and then frame data. -/
def deliverable (bytes : Bytes) : Bytes :=
  match responseSize protocol_version bytes with
  | none => []
  | some size => withoutCookies protocol_version (bytes.take size) ++ bytes.drop size

end

theorem responseSize_le (complete : responseSize protocol_version bytes = some size) :
    size <= bytes.length := by
  obtain ⟨len, _, fits⟩ := bind_eq_some_iff.mp complete
  split_ifs at fits with enough
  cases fits
  exact enough

theorem responseSize_append {bytes : Bytes}
    (complete : responseSize protocol_version bytes = some size) :
    responseSize protocol_version (bytes ++ more) = some size := by
  rw [responseSize] at complete ⊢
  obtain ⟨len, locates, fits⟩ := bind_eq_some_iff.mp complete
  rw [locateEndOfHeaders_append locates, bind_some]
  split_ifs at fits with enough
  rw [if_pos (by rw [length_append]; omega)]
  exact fits

theorem responseSize_eq_none_of_append
    (incomplete : responseSize protocol_version (bytes ++ more) = none) :
    responseSize protocol_version bytes = none := by
  by_contra complete
  obtain ⟨size, complete⟩ := ne_none_iff_exists'.mp complete
  rw [responseSize_append complete] at incomplete
  cases incomplete

/-- More bytes behind a complete response are delivered as they are. -/
theorem deliverable_append (complete : responseSize protocol_version bytes = some size) :
    deliverable protocol_version (bytes ++ more) = deliverable protocol_version bytes ++ more := by
  have inside := responseSize_le complete
  rw [deliverable, deliverable, responseSize_append complete, complete]
  dsimp only
  rw [take_append_of_le_length inside, drop_append_of_le_length inside, append_assoc]

section

variable (protocol_version : Nat)

/-- A handler that has some bytes of a response, but not all of it. -/
def collecting (bytes : Bytes) : WebSocketHandshakeResponseHandler where
  original := bytes
  original_header_length := locateEndOfHeaders bytes
  protocol_version

theorem collecting_hasResponse (bytes : Bytes) : (collecting protocol_version bytes).hasResponse =
      (responseSize protocol_version bytes).isSome := by
  rw [responseSize, WebSocketHandshakeResponseHandler.hasResponse, collecting]
  cases locateEndOfHeaders bytes with
  | none => rfl
  | some length =>
    rw [bind_some]
    split_ifs with enough
    · exact decide_eq_true enough
    · exact decide_eq_false enough

variable (original : Bytes)

/-- A handler that has a response whose headers have some length. -/
def completed (length : Nat) : WebSocketHandshakeResponseHandler :=
  let (status_line, headers) := parseHandshakeHeader (original.take length)
  let header_size := status_line.length + headers.length
  { original
    original_header_length := some length
    status_line
    headers
    header_separator := (original.drop header_size).take (length - header_size)
    key := (original.drop length).take (keySize protocol_version)
    protocol_version }

/-- What is delivered of a response whose headers have some length. -/
def partsWithoutCookies (length : Nat) : Bytes :=
  ((completed protocol_version original length).removeHeaders kSetCookieHeaders).getResponse

/-- Bytes behind the response do not count. -/
theorem partsWithoutCookies_take (len : Nat) : partsWithoutCookies protocol_version
        (original.take (len + keySize protocol_version)) len =
      partsWithoutCookies protocol_version original len := by
  have status : (original.take (len + keySize protocol_version)).take
      len = original.take len := by
    rw [take_take, Nat.min_eq_left (Nat.le_add_right _ _)]
  have separator : ∀ header_size, ((original.take (len + keySize protocol_version)).drop
          header_size).take (len - header_size) =
        (original.drop header_size).take (len - header_size) := by
    intro header_size
    rw [drop_take, take_take, Nat.min_eq_left (by omega)]
  have key : ((original.take (len + keySize protocol_version)).drop
      len).take (keySize protocol_version) =
        (original.drop len).take (keySize protocol_version) := by
    rw [drop_take, take_take, Nat.min_eq_left (by omega)]
  simp only [partsWithoutCookies, completed, WebSocketHandshakeResponseHandler.removeHeaders,
    WebSocketHandshakeResponseHandler.getResponse, status, separator, key]

end

theorem parseRawResponse_of_complete (incomplete : responseSize protocol_version bytes = none)
    (complete : responseSize protocol_version (bytes ++ data) = some size) :
    ∃ len, locateEndOfHeaders (bytes ++ data) = some len ∧
      size = len + keySize protocol_version ∧
      (completed protocol_version (bytes ++ data) len).hasResponse = true ∧
      (collecting protocol_version bytes).parseRawResponse data =
        (size - bytes.length, completed protocol_version (bytes ++ data) len) := by
  have notYet : (collecting protocol_version bytes).hasResponse = false := by
    rw [collecting_hasResponse, incomplete]
    rfl
  have done : (collecting protocol_version (bytes ++ data)).hasResponse = true := by
    rw [collecting_hasResponse, complete]
    rfl
  obtain ⟨len, locates, fits⟩ := bind_eq_some_iff.mp complete
  split_ifs at fits
  cases fits
  rw [collecting, locates] at done
  refine ⟨len, locates, rfl, done, ?_⟩
  rw [WebSocketHandshakeResponseHandler.parseRawResponse, notYet, if_neg Bool.false_ne_true]
  simp only [collecting, locates]
  rw [if_pos done]
  rfl

theorem withoutCookies_take {bytes : Bytes} {len : Nat}
    (locates : locateEndOfHeaders bytes = some len)
    (enough : len + keySize protocol_version <= bytes.length) :
    withoutCookies protocol_version (bytes.take (len + keySize protocol_version)) =
      partsWithoutCookies protocol_version bytes len := by
  have front := locateEndOfHeaders_take locates (Nat.le_add_right len (keySize protocol_version))
  have whole : responseSize protocol_version
      ([] ++ bytes.take (len + keySize protocol_version)) =
        some (len + keySize protocol_version) := by
    rw [nil_append, responseSize, front, bind_some, length_take_of_le enough, if_pos le_rfl]
  obtain ⟨length', locates', _, _, parses⟩ :=
    @parseRawResponse_of_complete protocol_version [] _ _ rfl whole
  rw [nil_append] at locates' parses
  rw [front] at locates'
  cases locates'
  rw [← partsWithoutCookies_take]
  exact congrArg (fun parsed => (WebSocketHandshakeResponseHandler.getResponse
    (parsed.2.removeHeaders kSetCookieHeaders))) parses

/-- A segment in front of the end of a response. -/
theorem parseRawResponse_of_incomplete
    (incomplete : responseSize protocol_version (bytes ++ data) = none) :
    ((collecting protocol_version bytes).parseRawResponse data).2 =
      collecting protocol_version (bytes ++ data) := by
  have notYet : (collecting protocol_version bytes).hasResponse = false := by
    rw [collecting_hasResponse, isSome_eq_false_iff, isNone_iff_eq_none]
    exact responseSize_eq_none_of_append incomplete
  have still : (collecting protocol_version (bytes ++ data)).hasResponse = false := by
    rw [collecting_hasResponse, incomplete]
    rfl
  rw [WebSocketHandshakeResponseHandler.parseRawResponse, notYet, if_neg Bool.false_ne_true]
  cases locates : locateEndOfHeaders (bytes ++ data) with
  | none => simp only [collecting, locates]
  | some length =>
    rw [collecting, locates] at still
    simp only [collecting, locates]
    rw [if_neg (by rw [still]; exact Bool.false_ne_true)]

/-- A response is not complete in front of its last byte. -/
theorem lt_responseSize {bytes data : Bytes} {size : Nat}
    (incomplete : responseSize protocol_version bytes = none)
    (complete : responseSize protocol_version (bytes ++ data) = some size) :
    bytes.length < size := by
  by_contra short
  obtain ⟨len, locates, fits⟩ := bind_eq_some_iff.mp complete
  split_ifs at fits
  cases fits
  have early : len <= bytes.length := by omega
  have front := locateEndOfHeaders_take locates early
  rw [take_left] at front
  rw [responseSize, front, bind_some, if_pos (by omega)] at incomplete
  cases incomplete

/-- What the last segment of a response gives. -/
theorem deliverable_eq {bytes data : Bytes} {len : Nat}
    (incomplete : responseSize protocol_version bytes = none)
    (complete : responseSize protocol_version (bytes ++ data) =
      some (len + keySize protocol_version))
    (locates : locateEndOfHeaders (bytes ++ data) = some len) :
    deliverable protocol_version (bytes ++ data) =
      partsWithoutCookies protocol_version (bytes ++ data) len ++
        data.drop (len + keySize protocol_version - bytes.length) := by
  have early := lt_responseSize incomplete complete
  rw [deliverable, complete]
  dsimp only
  rw [withoutCookies_take locates (responseSize_le complete), drop_append,
    drop_eq_nil_of_le early.le, nil_append]

end Chromium.Net
