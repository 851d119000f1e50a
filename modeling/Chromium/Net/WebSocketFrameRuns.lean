import Chromium.Net.WebSocketFrames

/-!
# Runs of the frame handler

A stream of frames is appended in pieces. The handler gives all of it, cut at
the ends of frames, unless a piece at the front of the queue does not begin with
a complete frame, or ends in a length before its first digit that is not zero.
-/

namespace Chromium.Net.WebSocketFrameHandler

open List

inductive Call
  | append (piece : Bytes)
  | update
  | release
deriving DecidableEq

/-- The bytes that a call appends. -/
def Call.bytes : Call -> Bytes
  | .append piece => piece
  | .update => []
  | .release => []

def appended (calls : List Call) : Bytes := calls.flatMap Call.bytes

/-- A handler with the contents of its current buffers so far. -/
structure Session where
  handler : WebSocketFrameHandler := {}
  delivered : Bytes := []
deriving DecidableEq

namespace Session

def perform (s : Session) : Call -> Option Session
  | .append piece => some { s with handler := s.handler.appendData piece }
  | .update =>
    let handler := (s.handler.updateCurrentBuffer true).2
    some {
      handler
      delivered := s.delivered ++
        if s.handler.current_buffer = none then handler.currentData
        else [] }
  | .release => do
      let handler ← s.handler.releaseCurrentBuffer
      return { s with handler }

def run : Session -> List Call -> Option Session
  | s, [] => some s
  | s, call :: calls => do
      let next ← s.perform call
      run next calls

/-- A buffer is released only if there is a current one. -/
def Alternates : Session -> List Call -> Prop
  | _, [] => True
  | s, call :: calls =>
    (call = .release -> s.handler.current_buffer ≠ none) ∧
      ∀ next, s.perform call = some next -> Alternates next calls

/-- Neither an update nor a release makes progress. -/
def Idle (s : Session) : Prop :=
  s.handler.current_buffer = none ∧ (s.handler.updateCurrentBuffer true).1 <= 0

/-- Whatever is delivered ends at the end of a frame, and everything is if no
more progress is possible. -/
structure Splits (frames : List Frame) (s : Session) (calls : List Call) : Prop where
  bounded : ∀ before after between, calls = before ++ after ->
    s.run before = some between -> ∃ complete, complete <+: frames ∧
        between.delivered = frameBytes complete
  whole : ∃ last, s.run calls = some last ∧ (last.Idle -> last.delivered = frameBytes frames)

/-- The first buffer in the queue begins with a complete frame, or has only a
bare length. -/
def Ready (s : Session) : Prop :=
  s.handler.current_buffer = none -> ∀ front ∈ s.handler.pending_buffers.head?,
      BareLength front ∨ ∃ frame rest, front = Frame.bytes frame ++ rest

/-- The first buffer does not end in a bare length when it is parsed, and a
joined buffer is not too long. -/
def Safe (s : Session) : Call -> Prop
  | .append _ => True
  | .update =>
    s.handler.current_buffer = none -> ∀ front ∈ s.handler.pending_buffers.head?,
        ¬ ∃ complete part, front = frameBytes complete ++ part ∧ BareLength part
  | .release =>
    ∀ front next rest, s.handler.pending_buffers = front :: next :: rest ->
      s.handler.original_current_buffer_size < front.length ->
      front.length - s.handler.original_current_buffer_size + next.length < 2 ^ 31

/-- The pieces are cut well. -/
def CutWell : Session -> List Call -> Prop
  | s, [] => s.Ready
  | s, call :: calls =>
    s.Ready ∧ s.Safe call ∧ ∀ next, s.perform call = some next -> CutWell next calls

/-- The bytes that are queued behind the current buffer. -/
def queued (s : Session) : Bytes :=
  match s.handler.current_buffer with
  | none => s.handler.pending_buffers.flatten
  | some _ => s.handler.pending_buffers.flatten.drop
      s.handler.original_current_buffer_size

/-- The bytes delivered, queued and still to come are the stream. -/
structure Consistent (frames : List Frame) (future : Bytes) (s : Session) : Prop where
  nonempty : ∀ buffer ∈ s.handler.pending_buffers, buffer ≠ []
  current : ∀ buffer, s.handler.current_buffer = some buffer ->
    s.handler.pending_buffers.head? = some buffer ∧
      s.handler.original_current_buffer_size <= buffer.length
  split : ∃ complete ahead, frames = complete ++ ahead ∧ s.delivered = frameBytes complete ∧
    s.queued ++ future = frameBytes ahead

theorem start_consistent (frames : List Frame) : Consistent frames (frameBytes frames) {} where
  nonempty := forall_mem_nil _
  current := fun buf isCurrent => by cases isCurrent
  split := ⟨[], frames, rfl, rfl, rfl⟩

variable {s : Session}

/-- The first buffer in the queue has complete frames and a part of one. -/
theorem Consistent.front (inv : Consistent frames future s)
    (free : s.handler.current_buffer = none) {front : Bytes}
    (pending : s.handler.pending_buffers = front :: rest) :
    ∃ complete next later part, frames = complete ++ (next ++ later) ∧
      s.delivered = frameBytes complete ∧ front = frameBytes next ++ part ∧ CutAt later part ∧
      part ++ rest.flatten ++ future = frameBytes later := by
  obtain ⟨complete, ahead, isStream, delivered, split⟩ := inv.split
  rw [queued, free] at split
  rw [pending, flatten_cons, append_assoc] at split
  obtain ⟨next, later, part, rfl, rfl, cut⟩ := exists_cutAt front ⟨_, split⟩
  refine ⟨complete, next, later, part, isStream, delivered, rfl, cut, ?_⟩
  rw [frameBytes_append, append_assoc] at split
  rw [append_assoc]
  exact append_cancel_left split

/-- Nothing changes if there is a current buffer or no complete frame. -/
theorem perform_update_of_stays (stays : s.handler.current_buffer ≠ none ∨
      ∀ front ∈ s.handler.pending_buffers.head?, (parseWebSocketFrame front).1 <= 0) :
    s.perform .update = some s ∧ (s.handler.updateCurrentBuffer true).1 <= 0 := by
  obtain ⟨⟨cur, size, original, pending⟩, delivered⟩ := s
  cases cur with
  | some buffer =>
    refine ⟨?_, le_rfl⟩
    rw [perform, if_neg (by simp), append_nil]
    rfl
  | none =>
    have nothing := stays.resolve_left (by simp)
    cases pending with
    | nil =>
      refine ⟨?_, le_rfl⟩
      rw [perform, if_pos rfl]
      dsimp only [updateCurrentBuffer, currentData]
      rw [append_nil]
    | cons front rest =>
      have size_ := nothing front rfl
      have update : updateCurrentBuffer ⟨none, size, original, front :: rest⟩ true =
            ((parseWebSocketFrame front).1, ⟨none, size, original, front :: rest⟩) := by
        rw [updateCurrentBuffer]
        dsimp only
        rw [if_pos rfl, if_pos (by simpa using size_)]
      rw [perform, if_pos rfl, update]
      dsimp only [currentData]
      rw [append_nil]
      exact ⟨rfl, size_⟩

/-- Complete frames are taken as the current buffer. -/
theorem perform_update_of_takes {size : Nat} (free : s.handler.current_buffer = none)
    (pending : s.handler.pending_buffers = front :: rest)
    (parses : (parseWebSocketFrame front).1 = size)
    (pos : 0 < size) :
    s.perform .update = some {
      handler := ⟨some front, size, size, front :: rest⟩
      delivered := s.delivered ++ front.take size } := by
  obtain ⟨⟨cur, _, original, _⟩, delivered⟩ := s
  subst free pending
  have update : ∀ size', updateCurrentBuffer ⟨none, size', original, front :: rest⟩ true =
        ((size : Int), ⟨some front, size, size, front :: rest⟩) := by
    intro size'
    rw [updateCurrentBuffer]
    dsimp only
    rw [if_pos rfl, parses, if_neg (by simpa using pos.ne')]
    rfl
  rw [perform, if_pos rfl, update]
  rfl

end Session

/-- A released buffer leaves the bytes behind it at the front of the queue. -/
theorem releaseCurrentBuffer_eq {handler : WebSocketFrameHandler}
    (pending : handler.pending_buffers = front :: rest)
    (fits : ∀ next others, rest = next :: others ->
      handler.original_current_buffer_size < front.length ->
      front.length - handler.original_current_buffer_size + next.length < 2 ^ 31)
    (ne : ∀ buf ∈ rest, buf ≠ []) :
    ∃ pending_buffers, handler.releaseCurrentBuffer = some { pending_buffers } ∧
      pending_buffers.flatten = front.drop handler.original_current_buffer_size ++ rest.flatten ∧
      ∀ buf ∈ pending_buffers, buf ≠ [] := by
  rw [releaseCurrentBuffer, pending]
  dsimp only
  cases remaining : front.drop handler.original_current_buffer_size with
  | nil => exact ⟨rest, rfl, rfl, ne⟩
  | cons c remaining_ =>
    have length := congrArg length remaining
    rw [length_drop, length_cons] at length
    cases rest with
    | nil =>
      refine ⟨_, rfl, ?_, ?_⟩
      · simp
      · simp
    | cons next others =>
      have sum := fits next others rfl (by omega)
      rw [forall_mem_cons] at ne
      refine ⟨((c :: remaining_) ++ next) :: others, ?_, ?_, ?_⟩
      · dsimp only
        rw [if_pos (by rw [length_cons]; omega)]
      · rw [flatten_cons, flatten_cons, append_assoc]
      · rw [forall_mem_cons]
        exact ⟨cons_ne_nil _ _, ne.2⟩

namespace Session

variable {frames : List Frame} {future : Bytes} {s : Session}

theorem Consistent.perform_append (inv : Consistent frames (piece ++ future) s)
    (nonempty : piece ≠ []) :
    Consistent frames future { s with handler := s.handler.appendData piece } where
  nonempty := by
    intro buf mem
    rcases mem_append.mp mem with earlier | last
    · exact inv.nonempty buf earlier
    · rw [mem_singleton.mp last]
      exact nonempty
  current := by
    intro buf isCurrent
    obtain ⟨isHead, inside⟩ := inv.current buf isCurrent
    refine ⟨?_, inside⟩
    rw [appendData, List.head?_append, isHead]
    rfl
  split := by
    obtain ⟨complete, ahead, isStream, delivered, split⟩ := inv.split
    refine ⟨complete, ahead, isStream, delivered, ?_⟩
    rw [← split, ← append_assoc, queued, queued, appendData]
    cases isCurrent : s.handler.current_buffer with
    | none => simp
    | some buf =>
      obtain ⟨isHead, inside⟩ := inv.current buf isCurrent
      obtain ⟨rest, pending⟩ := List.head?_eq_some_iff.mp isHead
      rw [flatten_append, flatten_singleton, drop_append_of_le_length]
      rw [pending, flatten_cons, length_append]
      exact inside.trans (Nat.le_add_right _ _)

theorem Consistent.perform_update (inv : Consistent frames future s) (safe : s.Safe .update) :
    ∃ next, s.perform .update = some next ∧ Consistent frames future next := by
  by_cases free : s.handler.current_buffer = none
  · cases pending : s.handler.pending_buffers with
    | nil =>
      refine ⟨s, (perform_update_of_stays (.inr ?_)).1, inv⟩
      rw [pending]
      exact fun front isHead => by cases isHead
    | cons front rest =>
      obtain ⟨complete, next, later, part, isStream, delivered, isFront, cut,
        split⟩ := inv.front free pending
      have notBare : ¬ BareLength part := by
        intro bare
        refine safe free front ?_ ⟨next, part, isFront, bare⟩
        rw [pending]
        rfl
      have parses := parseWebSocketFrame_of_not_bareLength next cut.cutOff notBare
      rw [← isFront] at parses
      rcases Nat.eq_zero_or_pos (frameBytes next).length with zero | pos
      · refine ⟨s, (perform_update_of_stays (.inr ?_)).1, inv⟩
        rw [pending]
        intro other isHead
        cases isHead
        rw [parses, zero]
        rfl
      · refine ⟨_, perform_update_of_takes free pending parses pos, ?_⟩
        have taken : front.take (frameBytes next).length = frameBytes next := by
          rw [isFront, take_left]
        refine ⟨?_, ?_, complete ++ next, later, ?_, ?_, ?_⟩
        · rw [← pending]
          exact inv.nonempty
        · intro buf isCurrent
          cases isCurrent
          refine ⟨rfl, ?_⟩
          rw [isFront, length_append]
          exact Nat.le_add_right _ _
        · rw [isStream, append_assoc]
        · rw [taken, delivered, frameBytes_append]
        · rw [← split, queued]
          rw [flatten_cons, isFront, append_assoc, drop_left]
  · exact ⟨s, (perform_update_of_stays (.inl free)).1, inv⟩

theorem Consistent.perform_release (inv : Consistent frames future s)
    (held : s.handler.current_buffer ≠ none) (safe : s.Safe .release) :
    ∃ next, s.perform .release = some next ∧ Consistent frames future next := by
  obtain ⟨buf, isCurrent⟩ := Option.ne_none_iff_exists'.mp held
  obtain ⟨isHead, inside⟩ := inv.current buf isCurrent
  obtain ⟨rest, pending⟩ := List.head?_eq_some_iff.mp isHead
  obtain ⟨pending_buffers, released, flat, ne⟩ :=
    releaseCurrentBuffer_eq pending
      (fun next others isRest => safe buf next others (isRest ▸ pending))
      (fun other mem => inv.nonempty other (pending ▸ mem_cons_of_mem _ mem))
  refine ⟨{ s with handler := { pending_buffers } }, ?_, ne, ?_, ?_⟩
  · rw [perform, released]
    rfl
  · exact fun other isOther => by cases isOther
  · obtain ⟨complete, ahead, isStream, delivered, split⟩ := inv.split
    refine ⟨complete, ahead, isStream, delivered, ?_⟩
    rw [← split, queued, queued, isCurrent, pending]
    rw [flat, flatten_cons, drop_append_of_le_length inside]

theorem Consistent.perform
    (inv : Consistent frames (call.bytes ++ future) s) (ne : call ≠ .append [])
    (alternates : call = .release -> s.handler.current_buffer ≠ none)
    (safe : s.Safe call) :
    ∃ next, s.perform call = some next ∧ Consistent frames future next := by
  cases call with
  | append piece =>
    refine ⟨_, rfl, inv.perform_append ?_⟩
    exact fun empty => ne (empty ▸ rfl)
  | update => exact Consistent.perform_update inv safe
  | release => exact Consistent.perform_release inv (alternates rfl) safe

/-- If no more progress is possible, everything is delivered. -/
theorem Consistent.whole (inv : Consistent frames [] s) (ready : s.Ready) (idle : s.Idle) :
    s.delivered = frameBytes frames := by
  obtain ⟨free, noUpdate⟩ := idle
  cases pending : s.handler.pending_buffers with
  | nil =>
    obtain ⟨complete, ahead, rfl, delivered, split⟩ := inv.split
    rw [queued, free, pending] at split
    cases ahead with
    | nil => rw [delivered, append_nil]
    | cons frame ahead => cases split
  | cons front rest =>
    exfalso
    obtain ⟨complete, next, later, part, _, _, isFront, cut, _⟩ := inv.front free pending
    have takes : ∀ size : Nat, (parseWebSocketFrame front).1 = size -> ¬ 0 < size := by
      intro size parses pos
      obtain ⟨⟨cur, _, original, _⟩, delivered⟩ := s
      subst free pending
      rw [updateCurrentBuffer] at noUpdate
      dsimp only at noUpdate
      rw [if_pos rfl, parses, if_neg (by simpa using pos.ne')] at noUpdate
      omega
    have ne := inv.nonempty front (pending ▸ mem_cons_self)
    by_cases bare : BareLength part
    · have parses := parseWebSocketFrame_of_bareLength next bare
      rw [← isFront] at parses
      exact takes _ parses (length_pos_iff.mpr ne)
    · have parses := parseWebSocketFrame_of_not_bareLength next cut.cutOff bare
      rw [← isFront] at parses
      have none_ := takes _ parses
      cases next with
      | cons frame next =>
        refine none_ ?_
        rw [frameBytes_cons, length_append]
        exact Nat.lt_of_lt_of_le (Nat.succ_pos _) (Nat.le_add_right _ _)
      | nil =>
        have isPart : front = part := isFront
        rw [← isPart] at bare cut
        rcases ready free front (by rw [pending]; rfl) with
          isBare | ⟨frame, rest, begins⟩
        · exact bare isBare
        · exact bytes_append_ne_of_cutOff cut.cutOff bare begins.symm

/-- The first buffer in the queue has no complete frame. -/
structure Stuck (front : Bytes) (s : Session) : Prop where
  free : s.handler.current_buffer = none
  isFront : s.handler.pending_buffers.head? = some front
  incomplete : (parseWebSocketFrame front).1 <= 0

theorem Consistent.stuck (inv : Consistent frames future s) (notReady : ¬ s.Ready) :
    ∃ front, s.Stuck front := by
  rw [Ready, Classical.not_imp] at notReady
  obtain ⟨free, notReady⟩ := notReady
  push Not at notReady
  obtain ⟨front, isHead, notBare, noFrame⟩ := notReady
  obtain ⟨rest, pending⟩ := List.head?_eq_some_iff.mp isHead
  obtain ⟨complete, next, later, part, _, _, rfl, cut, _⟩ := inv.front free pending
  refine ⟨_, free, isHead, ?_⟩
  cases next with
  | cons frame next =>
    refine absurd ?_ (noFrame frame (frameBytes next ++ part))
    rw [frameBytes_cons, append_assoc]
  | nil =>
    have parses := parseWebSocketFrame_of_not_bareLength [] cut.cutOff notBare
    exact parses.le

theorem Stuck.perform {next : Session} (stuck : s.Stuck front)
    (alternates : call = .release -> s.handler.current_buffer ≠ none)
    (performs : s.perform call = some next) :
    next.Stuck front ∧ next.delivered = s.delivered := by
  cases call with
  | append piece =>
    cases performs
    refine ⟨⟨stuck.free, ?_, stuck.incomplete⟩, rfl⟩
    rw [appendData, List.head?_append, stuck.isFront]
    rfl
  | update =>
    have stays := (perform_update_of_stays (.inr ?_)).1.symm.trans performs
    · cases stays
      exact ⟨stuck, rfl⟩
    · intro other isHead
      rw [stuck.isFront] at isHead
      cases isHead
      exact stuck.incomplete
  | release => exact absurd stuck.free (alternates rfl)

/-- There is no more progress once the first buffer has no complete frame. -/
theorem Stuck.run : ∀ {s : Session}, s.Stuck front -> s.Alternates calls ->
      ∀ {last : Session}, s.run calls = some last ->
        last.Stuck front ∧ last.delivered = s.delivered := by
  induction calls with
  | nil =>
    intro s stuck _ last runs
    cases runs
    exact ⟨stuck, rfl⟩
  | cons call calls ih =>
    intro s stuck alternates last runs
    obtain ⟨next, performs, runs⟩ := Option.bind_eq_some_iff.mp runs
    obtain ⟨stuckNext, same⟩ := stuck.perform alternates.1 performs
    obtain ⟨stuckLast, delivered⟩ := ih stuckNext (alternates.2 next performs) runs
    exact ⟨stuckLast, delivered.trans same⟩

/-- Not everything is delivered if the first buffer has no complete frame. -/
theorem Consistent.not_splits_of_stuck {front : Bytes}
    (inv : Consistent frames future s) (stuck : s.Stuck front)
    (alternates : s.Alternates calls) :
    ¬ Splits frames s calls := by
  intro splits
  obtain ⟨last, runs, whole⟩ := splits.whole
  obtain ⟨stuckLast, same⟩ := stuck.run alternates runs
  have idle : last.Idle := by
    refine ⟨stuckLast.free, (perform_update_of_stays (.inr ?_)).2⟩
    intro other isHead
    rw [stuckLast.isFront] at isHead
    cases isHead
    exact stuck.incomplete
  obtain ⟨complete, ahead, rfl, delivered, split⟩ := inv.split
  have everything := whole idle
  obtain ⟨rest, pending⟩ := List.head?_eq_some_iff.mp stuck.isFront
  rw [same, delivered, frameBytes_append, self_eq_append_right] at everything
  rw [everything, queued, stuck.free] at split
  rw [pending, flatten_cons] at split
  have empty := (append_eq_nil_iff.mp split).1
  exact inv.nonempty front (pending ▸ mem_cons_self) (append_eq_nil_iff.mp empty).1

/-- A release that is not safe fails. -/
theorem perform_release_of_not_safe (notSafe : ¬ s.Safe .release) : s.perform .release = none := by
  rw [Safe] at notSafe
  push Not at notSafe
  obtain ⟨front, next, rest, pending, more, tooLong⟩ := notSafe
  have fails : s.handler.releaseCurrentBuffer = none := by
    rw [releaseCurrentBuffer, pending]
    dsimp only
    cases remaining : front.drop s.handler.original_current_buffer_size with
    | nil =>
      rw [drop_eq_nil_iff] at remaining
      omega
    | cons c remaining_ =>
      have length := congrArg length remaining
      rw [length_drop] at length
      exact if_neg (by omega)
  rw [perform, fails]
  rfl

/-- An update that is not safe delivers a bare length. -/
theorem Consistent.not_splits_of_update (inv : Consistent frames future s)
    (notSafe : ¬ s.Safe .update) :
    ¬ Splits frames s (.update :: calls) := by
  intro splits
  rw [Safe, Classical.not_imp] at notSafe
  obtain ⟨free, notSafe⟩ := notSafe
  push Not at notSafe
  obtain ⟨front, isHead, others, bare, isSplit, isBare⟩ := notSafe
  obtain ⟨rest, pending⟩ := List.head?_eq_some_iff.mp isHead
  obtain ⟨complete, next, later, part, isStream, delivered, isFront, cut, _⟩ :=
    inv.front free pending
  have partBare : BareLength part :=
    bareLength_of_append_eq cut.cutOff isBare next others (isFront.symm.trans isSplit)
  have parses := parseWebSocketFrame_of_bareLength next partBare
  rw [← isFront] at parses
  have takes := perform_update_of_takes free pending parses (length_pos_iff.mpr
      (inv.nonempty front (pending ▸ mem_cons_self)))
  obtain ⟨done, inside, ends⟩ := splits.bounded [.update] calls _ rfl (by
    rw [run, takes]
    rfl)
  rw [take_length, delivered, isFront, ← append_assoc, ← frameBytes_append] at ends
  rw [isStream, ← append_assoc] at inside
  refine cut.frameBytes_append_ne ?_ inside ends
  obtain ⟨frame_byte, zeros, _, rfl⟩ := partBare
  exact cons_ne_nil _ _

theorem Splits.next {call : Call} {calls : List Call}
    (splits : Splits frames s (call :: calls)) {next : Session}
    (performs : s.perform call = some next) :
    Splits frames next calls where
  bounded := by
    intro before after between isCalls runs
    refine splits.bounded (call :: before) after between (by rw [isCalls]; rfl) ?_
    rw [run, performs]
    exact runs
  whole := by
    obtain ⟨last, runs, whole⟩ := splits.whole
    rw [run, performs] at runs
    exact ⟨last, runs, whole⟩

theorem Splits.cons {call : Call} {calls : List Call}
    (inv : Consistent frames future s) {next : Session}
    (performs : s.perform call = some next) (splits : Splits frames next calls) :
    Splits frames s (call :: calls) where
  bounded := by
    intro before after between isCalls runs
    cases before with
    | nil =>
      cases runs
      obtain ⟨complete, ahead, isStream, delivered, _⟩ := inv.split
      exact ⟨complete, ⟨ahead, isStream.symm⟩, delivered⟩
    | cons first before =>
      rw [cons_append, List.cons.injEq] at isCalls
      obtain ⟨rfl, isCalls⟩ := isCalls
      rw [run, performs] at runs
      exact splits.bounded before after between isCalls runs
  whole := by
    obtain ⟨last, runs, whole⟩ := splits.whole
    refine ⟨last, ?_, whole⟩
    rw [run, performs]
    exact runs

theorem calls_nil : s.Alternates [] := trivial

theorem Consistent.splits_iff :
    ∀ {s : Session}, Consistent frames (appended calls) s -> .append [] ∉ calls ->
      s.Alternates calls -> (Splits frames s calls ↔ s.CutWell calls) := by
  induction calls with
  | nil =>
    intro s inv _ _
    constructor
    · intro splits
      by_contra notReady
      obtain ⟨front, stuck⟩ := inv.stuck notReady
      exact inv.not_splits_of_stuck stuck calls_nil splits
    · intro ready
      refine ⟨?_, s, rfl, inv.whole ready⟩
      intro before after between isCalls runs
      rw [nil_eq, append_eq_nil_iff] at isCalls
      rw [isCalls.1] at runs
      cases runs
      obtain ⟨complete, ahead, isStream, delivered, _⟩ := inv.split
      exact ⟨complete, ⟨ahead, isStream.symm⟩, delivered⟩
  | cons call calls ih =>
    intro s inv ne alternates
    rw [mem_cons, not_or] at ne
    constructor
    · intro splits
      have ready : s.Ready := by
        by_contra notReady
        obtain ⟨front, stuck⟩ := inv.stuck notReady
        exact inv.not_splits_of_stuck stuck alternates splits
      have safe : s.Safe call := by
        by_contra notSafe
        cases call with
        | append piece => exact notSafe trivial
        | update => exact inv.not_splits_of_update notSafe splits
        | release =>
          obtain ⟨last, runs, _⟩ := splits.whole
          rw [run, perform_release_of_not_safe notSafe] at runs
          cases runs
      refine ⟨ready, safe, ?_⟩
      intro next performs
      obtain ⟨_, performs', consistentNext⟩ :=
        inv.perform (Ne.symm ne.1) alternates.1 safe
      rw [performs] at performs'
      cases performs'
      exact (ih consistentNext ne.2 (alternates.2 next performs)).mp (splits.next performs)
    · rintro ⟨ready, safe, rest⟩
      obtain ⟨next, performs, consistentNext⟩ :=
        inv.perform (Ne.symm ne.1) alternates.1 safe
      exact Splits.cons inv performs
        ((ih consistentNext ne.2 (alternates.2 next performs)).mpr (rest next performs))

/-- A stream of frames that is appended in pieces is delivered at the ends of
frames, and all of it, if and only if the pieces are cut well. -/
theorem splits_iff_cutWell (frames : List Frame) (calls : List Call)
    (stream : appended calls = frameBytes frames) (nonempty : .append [] ∉ calls)
    (alternates : Alternates {} calls) :
    Splits frames {} calls ↔ CutWell {} calls :=
  (stream ▸ start_consistent frames).splits_iff nonempty alternates

/-- A text frame with one byte. -/
def letter : Frame := .text 0 [0x61] rfl (by decide)

theorem splits_iff_cutWell_letter :
    Splits [letter] {} [.append [0, 0x61, 0xff], .update, .release] := by
  refine (splits_iff_cutWell [letter] _ rfl (by decide) ?_).mpr ?_
  · refine ⟨by decide, ?_⟩
    rintro _ ⟨⟩
    refine ⟨by decide, ?_⟩
    rintro _ ⟨⟩
    refine ⟨by decide, ?_⟩
    rintro _ ⟨⟩
    trivial
  · refine ⟨fun _ front isHead => (by cases isHead), trivial, ?_⟩
    rintro _ ⟨⟩
    refine ⟨?_, ?_, ?_⟩
    · rintro _ front ⟨⟩
      exact .inr ⟨letter, [], rfl⟩
    · rintro _ front ⟨⟩ ⟨complete, part, isFront, bare⟩
      have cut : CutOff [] := ⟨letter, nil_prefix, Nat.succ_pos _⟩
      obtain ⟨_, _, _, empty⟩ := bareLength_of_append_eq cut bare [letter] complete isFront
      cases empty
    · rintro _ ⟨⟩
      refine ⟨fun free => (by cases free), ?_, ?_⟩
      · rintro front next rest ⟨⟩
      · rintro _ ⟨⟩
        exact fun _ front isHead => by cases isHead

/-- A frame that is cut into two pieces is never delivered. -/
theorem not_splits : ¬ ∀ (frames : List Frame) (calls : List Call),
      appended calls = frameBytes frames -> .append [] ∉ calls -> Alternates {} calls ->
      Splits frames {} calls := by
  intro claim
  have splits := claim [letter]
    [.append [0], .update, .append [0x61, 0xff], .update] rfl (by decide) (by
      refine ⟨by decide, ?_⟩
      rintro _ ⟨⟩
      refine ⟨by decide, ?_⟩
      rintro _ ⟨⟩
      refine ⟨by decide, ?_⟩
      rintro _ ⟨⟩
      refine ⟨by decide, ?_⟩
      rintro _ ⟨⟩
      trivial)
  obtain ⟨last, runs, whole⟩ := splits.whole
  cases runs
  have nothing := whole ⟨rfl, by decide⟩
  cases nothing

end Session
end Chromium.Net.WebSocketFrameHandler
