import Chromium.Courgette.StreamSets

/-!
# Streams read back

What was written to the streams of a set, other sets among it, is read back by
the same calls in the same order.
-/

namespace Chromium.Courgette

open List hiding count set tail
open Function Option

/-- Calls that write to a set, with the sets that are written to it in turn. -/
inductive Script
  | done
  | writeVarint32 (stream : Fin kMaxStreams) (value : BitVec 32) (rest : Script)
  | writeVarint32Signed (stream : Fin kMaxStreams) (value : BitVec 32) (rest : Script)
  | write (stream : Fin kMaxStreams) (data : List Byte) (rest : Script)
  | writeSet (inner rest : Script)
  deriving DecidableEq

/-- Calls that read from a set. -/
inductive ReadCalls
  | done
  | readVarint32 (stream : Fin kMaxStreams) (rest : ReadCalls)
  | readVarint32Signed (stream : Fin kMaxStreams) (rest : ReadCalls)
  | read (stream : Fin kMaxStreams) (count : Nat) (rest : ReadCalls)
  | readSet (inner rest : ReadCalls)

/-- The calls that read what a script writes. -/
def Script.calls : Script -> ReadCalls
  | done => .done
  | writeVarint32 stream _ rest => .readVarint32 stream rest.calls
  | writeVarint32Signed stream _ rest => .readVarint32Signed stream rest.calls
  | write stream data rest => .read stream data.length rest.calls
  | writeSet inner rest => .readSet inner.calls rest.calls

/-- Perform the calls of a script. -/
def Script.writeTo : Script -> SinkStreamSet -> SinkStreamSet
  | done, this => this
  | writeVarint32 stream value rest, this =>
    rest.writeTo (this.modify stream fun stream => SinkStream.writeVarint32 stream value)
  | writeVarint32Signed stream value rest, this =>
    rest.writeTo (this.modify stream fun stream => SinkStream.writeVarint32Signed stream value)
  | write stream data rest, this =>
    rest.writeTo (this.modify stream fun stream => SinkStream.write stream data)
  | writeSet inner rest, this => rest.writeTo (this.writeSet (inner.writeTo .fresh))

/-- Perform the calls that read, and gather their results as a script. A set
that is read has to be empty after its own calls. -/
def ReadCalls.readFrom : ReadCalls -> SourceStreamSet -> Option (Script × SourceStreamSet)
  | done, this => some (.done, this)
  | readVarint32 stream rest, this => do
      let (value, left) ← SourceStream.readVarint32 (this.streams stream)
      let (script, this) ← rest.readFrom
        { this with streams := Function.update this.streams stream left }
      return (.writeVarint32 stream value script, this)
  | readVarint32Signed stream rest, this => do
      let (value, left) ← SourceStream.readVarint32Signed (this.streams stream)
      let (script, this) ← rest.readFrom
        { this with streams := Function.update this.streams stream left }
      return (.writeVarint32Signed stream value script, this)
  | read stream count rest, this => do
      let (data, left) ← SourceStream.read (this.streams stream) count
      let (script, this) ← rest.readFrom
        { this with streams := Function.update this.streams stream left }
      return (.write stream data script, this)
  | readSet inner rest, this => do
      let (this, set) ← this.readSet .fresh
      let (innerScript, set) ← inner.readFrom set
      if !set.empty then none
      let (script, this) ← rest.readFrom this
      return (.writeSet innerScript script, this)

/-- The streams of every set that a script writes to another one are shorter
than 2^32 bytes. -/
def Script.Small : Script -> Prop
  | done => True
  | writeVarint32 _ _ rest => rest.Small
  | writeVarint32Signed _ _ rest => rest.Small
  | write _ _ rest => rest.Small
  | writeSet inner rest =>
    inner.Small ∧ (∀ index, ((inner.writeTo .fresh).streams index).length < 2 ^ 32) ∧ rest.Small

/-- Bytes for one of the streams. -/
def one (stream : Fin kMaxStreams) (data : List Byte) : StreamArray :=
  fun index => if index = stream then data else []

/-- The bytes that a script writes to each stream. -/
def Script.bytes : Script -> StreamArray
  | done => fun _ => []
  | writeVarint32 stream value rest => fun index =>
    one stream (encode32 value) index ++ rest.bytes index
  | writeVarint32Signed stream value rest => fun index =>
    one stream (SinkStream.writeVarint32Signed [] value) index ++ rest.bytes index
  | write stream data rest => fun index => one stream data index ++ rest.bytes index
  | writeSet inner rest => fun index =>
    SinkStreamSet.setBytes ⟨kMaxStreams, inner.bytes⟩ index ++ rest.bytes index

theorem modify_one (this : SinkStreamSet) (stream : Fin kMaxStreams)
    (appends : ∀ stream, change stream = stream ++ data) :
    this.modify stream change = { this with
        streams := fun i => this.streams i ++ one stream data i } := by
  rw [SinkStreamSet.modify]
  congr 1
  funext i
  by_cases here : i = stream
  · subst here
    rw [update_self, appends, one, if_pos rfl]
  · rw [update_of_ne here, one, if_neg here, append_nil]

theorem writeVarint32Signed_append (val : BitVec 32) :
    SinkStream.writeVarint32Signed stream val =
      stream ++ SinkStream.writeVarint32Signed [] val := by
  unfold SinkStream.writeVarint32Signed SinkStream.writeVarint32 SinkStream.write
  split <;> rw [nil_append]

theorem count_writeSet (this set : SinkStreamSet) : (this.writeSet set).count = this.count := by
  unfold SinkStreamSet.writeSet
  rw [SinkStreamSet.count_foldl_write]
  rfl

theorem Script.writeTo_eq {script : Script} (small : script.Small) (this : SinkStreamSet) :
    script.writeTo this = { this with
        streams := fun i => this.streams i ++ script.bytes i } := by
  induction script generalizing this with
  | done => simp [writeTo, bytes]
  | writeVarint32 stream value rest ih =>
    rw [writeTo, modify_one this stream
      (fun stream => rfl : ∀ stream, SinkStream.writeVarint32 stream value =
        stream ++ encode32 value), ih small]
    simp [bytes]
  | writeVarint32Signed stream value rest ih =>
    rw [writeTo, modify_one this stream (fun stream => writeVarint32Signed_append value), ih small]
    simp [bytes]
  | write stream data rest ih =>
    rw [writeTo, modify_one this stream
      (fun stream => rfl : ∀ stream, SinkStream.write stream data = stream ++ data), ih small]
    simp [bytes]
  | writeSet inner rest innerHypothesis restHypothesis =>
    obtain ⟨innerSmall, short, restSmall⟩ := small
    have innerWritten : inner.writeTo .fresh =
        ⟨kMaxStreams, inner.bytes⟩ := innerHypothesis innerSmall .fresh
    rw [innerWritten] at short
    rw [writeTo, innerWritten, restHypothesis restSmall, count_writeSet]
    congr 1
    funext i
    rw [SinkStreamSet.streams_writeSet short, bytes, append_assoc]

theorem Script.writeTo_fresh {script : Script} (small : script.Small) :
    script.writeTo .fresh = ⟨kMaxStreams, script.bytes⟩ :=
  writeTo_eq small .fresh

theorem update_one (starts : ∀ i, streams i = one stream data i ++ tail i) :
    streams stream = data ++ tail stream ∧ Function.update streams stream (tail stream) = tail := by
  constructor
  · rw [starts, one, if_pos rfl]
  · funext i
    by_cases here : i = stream
    · subst here
      rw [update_self]
    · rw [update_of_ne here, starts, one, if_neg here, nil_append]

theorem empty_of_nil (n : Nat) : SourceStreamSet.empty ⟨n, fun _ => []⟩ = true := by
  simp [SourceStreamSet.empty]

/-- The calls of a script read its bytes and leave what follows them. -/
theorem Script.readFrom_bytes {script : Script} (small : script.Small)
    (starts : ∀ i, streams i = script.bytes i ++ tail i) :
    script.calls.readFrom ⟨kMaxStreams, streams⟩ = some (script, ⟨kMaxStreams, tail⟩) := by
  induction script generalizing streams tail with
  | done =>
    have same : streams = tail := funext starts
    rw [same]
    rfl
  | writeVarint32 stream value rest ih =>
    simp only [bytes, append_assoc] at starts
    obtain ⟨here, left⟩ := update_one starts
    rw [calls, ReadCalls.readFrom]
    dsimp only
    rw [here, SourceStream.readVarint32_append]
    simp only [bind_eq_bind, bind_some]
    rw [left, ih small fun _ => rfl]
    rfl
  | writeVarint32Signed stream value rest ih =>
    simp only [bytes, append_assoc] at starts
    obtain ⟨here, left⟩ := update_one starts
    rw [calls, ReadCalls.readFrom]
    dsimp only
    rw [here, SourceStream.readVarint32Signed_append]
    simp only [bind_eq_bind, bind_some]
    rw [left, ih small fun _ => rfl]
    rfl
  | write stream data rest ih =>
    simp only [bytes, append_assoc] at starts
    obtain ⟨here, left⟩ := update_one starts
    rw [calls, ReadCalls.readFrom]
    dsimp only
    rw [here, SourceStream.read_append]
    simp only [bind_eq_bind, bind_some]
    rw [left, ih small fun _ => rfl]
    rfl
  | writeSet inner rest innerHypothesis restHypothesis =>
    obtain ⟨innerSmall, short, restSmall⟩ := small
    rw [writeTo_fresh innerSmall] at short
    simp only [bytes, append_assoc] at starts
    have read : SourceStreamSet.readSet ⟨kMaxStreams, streams⟩ .fresh = _ :=
      SourceStreamSet.readSet_setBytes rfl short starts
    have innerRead : inner.calls.readFrom ⟨kMaxStreams, inner.bytes⟩ =
        some (inner, ⟨kMaxStreams, fun _ => []⟩) :=
      innerHypothesis innerSmall fun i => (append_nil _).symm
    rw [calls, ReadCalls.readFrom, read]
    simp only [bind_eq_bind, bind_some]
    rw [innerRead]
    rw [restHypothesis restSmall fun _ => rfl]
    rfl

/-- The streams of a set that was written to one stream are found in it again.
What a script writes to a set, other sets among it, is read back by the same
calls in the same order, which leave every stream empty. -/
theorem streams_roundTrip (sizeLimit : Nat) : (∀ set : SinkStreamSet, set.count <= kMaxStreams ->
      (∀ index : Fin kMaxStreams, index.val < set.count -> (set.streams index).length < 2 ^ 32) ->
      (set.copyTo []).length < sizeLimit ->
      ∃ source, SourceStreamSet.init sizeLimit (set.copyTo []) = some source ∧
        source.count = set.count ∧ ∀ index : Fin kMaxStreams, index.val < set.count ->
          source.streams index = set.streams index) ∧
      ∀ script : Script, script.Small -> ∃ left, script.calls.readFrom
              ⟨kMaxStreams, (script.writeTo .fresh).streams⟩ = some (script, left) ∧
          left.empty = true := by
  constructor
  · intro set bounded small fits
    refine ⟨_, SourceStreamSet.init_copyTo bounded small fits, rfl, ?_⟩
    intro index inside
    exact if_pos inside
  · intro script small
    refine ⟨⟨kMaxStreams, fun _ => []⟩, ?_, empty_of_nil _⟩
    apply script.readFrom_bytes small
    intro index
    rw [script.writeTo_fresh small]
    exact (append_nil _).symm

/-- A set with empty streams in its middle and at its end, in another one. -/
theorem streams_roundTrip_nested :
    (∃ source, SourceStreamSet.init (2 ^ 32) (SinkStreamSet.copyTo ⟨3, fun index =>
            if index = 1 then [7#8, 200#8] else []⟩ []) =
        some source ∧ source.streams 1 = [7#8, 200#8]) ∧
      ∃ left, (Script.writeVarint32Signed 0 0xffffff00#32 (.writeSet
            (.write 0 [1#8] (.writeVarint32 3 300#32 .done))
            (.write 0 [9#8] .done))).calls.readFrom
          ⟨kMaxStreams, ((Script.writeVarint32Signed 0 0xffffff00#32 (.writeSet
              (.write 0 [1#8] (.writeVarint32 3 300#32 .done))
              (.write 0 [9#8] .done))).writeTo .fresh).streams⟩ =
        some (.writeVarint32Signed 0 0xffffff00#32 (.writeSet
            (.write 0 [1#8] (.writeVarint32 3 300#32 .done))
            (.write 0 [9#8] .done)), left) ∧
        left.empty = true := by
  constructor
  · obtain ⟨source, read, -, same⟩ := (streams_roundTrip (2 ^ 32)).1
      ⟨3, fun index => if index = 1 then [7#8, 200#8] else []⟩ (by decide)
      (by decide) (by decide +kernel)
    exact ⟨source, read, same 1 (by decide)⟩
  · apply (streams_roundTrip (2 ^ 32)).2
    refine ⟨trivial, ?_, trivial⟩
    decide +kernel

end Chromium.Courgette
