import Chromium.Remoting.CompoundBuffer

/-!
# Streams over compound buffers

A `CompoundBufferInputStream` reads a locked buffer in blocks, each the rest of
a chunk. Its position is kept as a chunk with an offset, and as a number.
-/

namespace Chromium.Remoting

open List Library

structure CompoundBufferInputStream where
  buffer_ : CompoundBuffer
  current_chunk_ : Nat := 0
  current_chunk_position_ : Int := 0
  position_ : Int := 0
  last_returned_size_ : Int := 0

namespace CompoundBufferInputStream

section

variable (self : CompoundBufferInputStream)

/-- The constructor. -/
def new_ (buffer : CompoundBuffer) : Option CompoundBufferInputStream :=
  if buffer.locked_ then some { buffer_ := buffer } else none

/-- `Next`, with the block that it returns, if any. -/
def next : Option (Option Bytes × CompoundBufferInputStream) :=
  match self.buffer_.chunks_[self.current_chunk_]? with
  | some chunk =>
    let read_size := chunk.size - self.current_chunk_position_
    some (some (DataChunk.bytes
        ⟨chunk.buffer, chunk.start + self.current_chunk_position_, read_size⟩),
      { self with
        current_chunk_ := self.current_chunk_ + 1
        current_chunk_position_ := 0
        position_ := self.position_ + read_size
        last_returned_size_ := read_size })
  | none =>
    if self.position_ = self.buffer_.total_bytes_ then
      some (none, { self with last_returned_size_ := 0 })
    else none

def backUp (count : Int) : Option CompoundBufferInputStream :=
  if count <= self.last_returned_size_ ∧ 0 < self.current_chunk_ then
    match self.buffer_.chunks_[self.current_chunk_ - 1]? with
    | some chunk =>
      if 0 <= self.position_ - count then
        some { self with
          current_chunk_ := self.current_chunk_ - 1
          current_chunk_position_ := chunk.size - count
          position_ := self.position_ - count
          last_returned_size_ := 0 }
      else none
    | none => none
  else none

/-- The loop of `Skip` over the chunks from the current one on, with what is left
of the count. -/
def skipChunks : List DataChunk -> CompoundBufferInputStream -> Int ->
    CompoundBufferInputStream × Int
  | [], self, count => (self, count)
  | chunk :: chunks, self, count =>
    if 0 < count then
      let read := min count (chunk.size - self.current_chunk_position_)
      let current_chunk_position_ := self.current_chunk_position_ + read
      let position_ := self.position_ + read
      if current_chunk_position_ = chunk.size then
        skipChunks chunks { self with
          current_chunk_ := self.current_chunk_ + 1
          current_chunk_position_ := 0
          position_ } (count - read)
      else
        -- The chunk goes on, so the count is used up and the loop ends.
        ({ self with current_chunk_position_, position_ }, count - read)
    else (self, count)

/-- `Skip`, with its result. -/
def skip (count : Int) : Option (Bool × CompoundBufferInputStream) :=
  if 0 <= count then
    let (self, count) := skipChunks (self.buffer_.chunks_.drop self.current_chunk_)
      { self with last_returned_size_ := 0 } count
    some (decide (count = 0), self)
  else none

def byteCount : Int := self.position_

end

inductive Call
  | next
  | backUp (count : Int)
  | skip (count : Int)

/-- What a caller knows: the sum of the sizes that were returned and skipped less
those that were backed up, and the size of a block that was just returned. -/
structure Caller where
  position : Int := 0
  returned : Option Int := none

abbrev State := CompoundBufferInputStream × Caller

/-- A block is backed up after it was returned, and as far as it goes. -/
def Legal (state : State) : Call -> Prop
  | .next => True
  | .backUp count => 0 <= count ∧ ∃ size, state.2.returned = some size ∧ count <= size
  | .skip count => 0 <= count

/-- A call of a stream of a length. -/
def perform (length : Nat) : State -> Call -> Option State
  | (self, caller), .next => self.next.map fun (block, self) => (self, match block with
    | some block => ⟨caller.position + block.length, some block.length⟩
    | none => ⟨caller.position, none⟩)
  | (self, caller), .backUp count =>
    (self.backUp count).map (·, ⟨caller.position - count, none⟩)
  | (self, caller), .skip count => (self.skip count).map fun (skipped, self) =>
    (self, ⟨if skipped then caller.position + count else length, none⟩)

/-- The stream is at the position of the caller, from which on it has a byte
string. -/
structure Faithful (string : Bytes) (state : State) : Prop where
  byteCount : state.1.byteCount = state.2.position
  next : ∀ block self, state.1.next = some (some block, self) ->
    block <+: string.drop state.1.byteCount.toNat
  end_ : ∀ self, state.1.next = some (none, self) -> state.1.byteCount = string.length
  skip : ∀ count skipped self, 0 <= count -> state.1.skip count = some (skipped, self) ->
    (skipped = true ↔ state.1.byteCount + count <= string.length) ∧
      (skipped = false -> self.byteCount = string.length)

/-- The chunk at an index, an offset in it, and the position there. -/
structure At (buffer : CompoundBuffer) (front back : List DataChunk) (index : Nat)
    (offset position : Int) : Prop where
  isChunks : buffer.chunks_ = front ++ back
  isIndex : index = front.length
  isPosition : position = (chunkBytes front).length + offset
  starts : 0 <= offset
  inside : offset <= (chunkBytes (back.take 1)).length

/-- The stream is at the position of its caller, and behind the chunk of a block
that may be backed up. -/
inductive Follows (buffer : CompoundBuffer) : State -> Prop
  | intro (at_ : At buffer front back index offset position)
      (read : ∀ size, returned = some size -> ∃ front' chunk,
        front = front' ++ [chunk] ∧ offset = 0 ∧ last = size ∧ size <= chunk.size) :
      Follows buffer (⟨buffer, index, offset, position, last⟩, ⟨position, returned⟩)

variable {buffer : CompoundBuffer} {front back : List DataChunk} {chunk : DataChunk}
  {string : Bytes} {index : Nat} {offset position last count : Int}

section

variable (holds : buffer.Holds string)
include holds

theorem At.cons (at_ : At buffer front (chunk :: back) index offset position) :
    buffer.chunks_[index]? = some chunk ∧ chunk.Sound ∧ chunk.bytes.length = chunk.size ∧
      offset <= chunk.size := by
  obtain ⟨isChunks, rfl, -, -, inside⟩ := at_
  have sound := holds.sound chunk (by simp [isChunks])
  have isLength := DataChunk.length_bytes sound
  exact ⟨by simp [isChunks], sound, isLength, by simpa [isLength] using inside⟩

theorem At.string_drop (at_ : At buffer front back index offset position) :
    string.drop position.toNat = (chunkBytes back).drop offset.toNat ∧
      position <= string.length := by
  obtain ⟨isChunks, -, rfl, starts, inside⟩ := at_
  have isDrop : ((chunkBytes front).length + offset).toNat =
      (chunkBytes front).length + offset.toNat := by omega
  rw [← holds.isBytes, isChunks, chunkBytes_append, isDrop, ← drop_drop, drop_left, length_append]
  refine ⟨rfl, ?_⟩
  cases back with
  | nil => simpa using inside
  | cons chunk back =>
    simp only [take_succ_cons, take_zero, chunkBytes_cons, chunkBytes_nil, append_nil] at inside
    rw [chunkBytes_cons, length_append]
    omega

theorem At.nil (at_ : At buffer front [] index offset position) :
    position = string.length ∧ offset = 0 := by
  obtain ⟨isChunks, -, rfl, starts, inside⟩ := at_
  obtain rfl : offset = 0 := le_antisymm inside starts
  rw [← holds.isBytes, isChunks, append_nil]
  exact ⟨Int.add_zero _, rfl⟩

/-- Behind the first chunk that is left. -/
theorem At.forward (at_ : At buffer front (chunk :: back) index offset position) :
    At buffer (front ++ [chunk]) back (index + 1) 0 (position + (chunk.size - offset)) := by
  have isLength := (at_.cons holds).2.2.1
  obtain ⟨isChunks, rfl, rfl, -, -⟩ := at_
  refine ⟨by simp [isChunks], by simp, ?_, le_refl _, Int.natCast_nonneg _⟩
  rw [chunkBytes_append, chunkBytes_cons, chunkBytes_nil, append_nil, length_append]
  omega

/-- `Skip` stops behind the bytes that it skips, or at the end. -/
theorem skipChunks_at (at_ : At buffer front back index offset position) (nonneg : 0 <= count) :
    ∃ front' back' index' offset',
      At buffer front' back' index' offset' (min (position + count) string.length) ∧
      skipChunks back ⟨buffer, index, offset, position, last⟩ count =
        (⟨buffer, index', offset', min (position + count) string.length, last⟩,
          max 0 (position + count - string.length)) := by
  have within := (at_.string_drop holds).2
  have stays : ∀ {position count : Int}, position <= string.length -> 0 <= count ->
      position = string.length ∨ count = 0 -> min (position + count) string.length = position ∧
        max 0 (position + count - string.length) = count := by omega
  induction back generalizing front index offset position count with
  | nil =>
    obtain ⟨isEnd, isCount⟩ := stays within nonneg (.inl (at_.nil holds).1)
    rw [isEnd, isCount]
    exact ⟨_, _, _, _, at_, rfl⟩
  | cons chunk back ih =>
    obtain ⟨-, -, isLength, inside⟩ := at_.cons holds
    rw [skipChunks]
    split
    · dsimp only
      split
      · have isRead : min count (chunk.size - offset) = chunk.size - offset := by omega
        have later := at_.forward holds
        have isSum : position + (chunk.size - offset) + (count - (chunk.size - offset)) =
            position + count := by omega
        obtain ⟨front', back', index', offset', later', skips⟩ := @ih _ _ _ _
          (count - (chunk.size - offset)) later (by omega) (later.string_drop holds).2
        rw [isSum] at later' skips
        rw [isRead]
        exact ⟨front', back', index', offset', later', skips⟩
      · -- The chunk goes on behind what is skipped.
        have isRead : min count (chunk.size - offset) = count := by omega
        have later : At buffer front (chunk :: back) index (offset + count) (position + count) :=
          ⟨at_.isChunks, at_.isIndex, by rw [at_.isPosition, Int.add_assoc],
            by have := at_.starts; omega, by simp [isLength]; omega⟩
        have within := (later.string_drop holds).2
        have isEnd : min (position + count) string.length = position + count := by omega
        have isCount : max 0 (position + count - string.length) = count - count := by omega
        rw [isRead, isEnd, isCount]
        exact ⟨_, _, _, _, later, rfl⟩
    · obtain ⟨isEnd, isCount⟩ := stays within nonneg (.inr (by omega))
      rw [isEnd, isCount]
      exact ⟨_, _, _, _, at_, rfl⟩

theorem skip_at (at_ : At buffer front back index offset position) (nonneg : 0 <= count) :
    ∃ front' back' index' offset',
      At buffer front' back' index' offset' (min (position + count) string.length) ∧
      skip ⟨buffer, index, offset, position, last⟩ count =
        some (decide (position + count <= string.length),
          ⟨buffer, index', offset', min (position + count) string.length, 0⟩) := by
  obtain ⟨front', back', index', offset', later, skips⟩ :=
    @skipChunks_at _ _ _ _ _ _ _ 0 _ holds at_ nonneg
  refine ⟨front', back', index', offset', later, ?_⟩
  have isDrop : buffer.chunks_.drop index = back := by
    rw [at_.isChunks, at_.isIndex, drop_left]
  rw [skip, if_pos nonneg, isDrop, skips]
  dsimp only
  congr 2
  rw [decide_eq_decide]
  omega

/-- `Next` reads the rest of a chunk. -/
theorem next_cons (at_ : At buffer front (chunk :: back) index offset position) :
    next ⟨buffer, index, offset, position, last⟩ = some (some (chunk.bytes.drop offset.toNat),
      ⟨buffer, index + 1, 0, position + (chunk.size - offset), chunk.size - offset⟩) := by
  obtain ⟨hit, sound, isLength, inside⟩ := at_.cons holds
  have starts := at_.starts
  have inBuffer := sound.inBuffer
  have isBlock : DataChunk.bytes ⟨chunk.buffer, chunk.start + offset, chunk.size - offset⟩ =
      chunk.bytes.drop offset.toNat := by
    rw [DataChunk.bytes, DataChunk.bytes, drop_take, drop_drop]
    dsimp only
    congr 2 <;> omega
  rw [next, hit]
  dsimp only
  rw [isBlock]

theorem next_nil (at_ : At buffer front [] index offset position) :
    next ⟨buffer, index, offset, position, last⟩ =
      some (none, ⟨buffer, index, offset, position, 0⟩) := by
  have isEnd : buffer.chunks_[index]? = none := by simp [at_.isChunks, at_.isIndex]
  rw [next, isEnd]
  dsimp only
  rw [if_pos ((at_.nil holds).1.trans holds.total.symm)]

/-- `BackUp` goes into the chunk that was read. -/
theorem backUp_at (at_ : At buffer (front ++ [chunk]) back index 0 position) (nonneg : 0 <= count)
    (allowed : count <= last) (fits : count <= chunk.size) :
    At buffer front (chunk :: back) (index - 1) (chunk.size - count) (position - count) ∧
      backUp ⟨buffer, index, 0, position, last⟩ count =
        some ⟨buffer, index - 1, chunk.size - count, position - count, 0⟩ := by
  obtain ⟨isChunks, rfl, rfl, -, -⟩ := at_
  have isLength := DataChunk.length_bytes (holds.sound chunk (by simp [isChunks]))
  refine ⟨⟨by simp [isChunks], by simp, ?_, by omega, by simp; omega⟩, ?_⟩
  · simp
    omega
  · rw [backUp]
    simp [isChunks, allowed]
    omega

variable {state : State} (follows : Follows buffer state)
include follows

theorem Follows.faithful : Faithful string state := by
  obtain @⟨front, back, index, offset, position, returned, last, at_, -⟩ := follows
  obtain ⟨isDrop, within⟩ := at_.string_drop holds
  refine ⟨rfl, ?_, ?_, ?_⟩
  · intro block self reads
    cases back with
    | nil =>
      rw [next_nil holds at_] at reads
      cases reads
    | cons chunk back =>
      rw [next_cons holds at_] at reads
      cases reads
      obtain ⟨-, -, isLength, inside⟩ := at_.cons holds
      rw [byteCount, isDrop, chunkBytes_cons, drop_append_of_le_length (by omega)]
      exact prefix_append _ _
  · intro self fails
    cases back with
    | nil => exact (at_.nil holds).1
    | cons chunk back =>
      rw [next_cons holds at_] at fails
      cases fails
  · intro count skipped self nonneg runs
    obtain ⟨_, _, _, _, -, skips⟩ := @skip_at _ _ _ _ _ _ _ last _ holds at_ nonneg
    rw [skips] at runs
    cases runs
    simp only [byteCount, decide_eq_true_eq, decide_eq_false_iff_not, true_and]
    omega

theorem Follows.perform (legal : Legal state call) :
    ∃ next, perform string.length state call = some next ∧ Follows buffer next := by
  obtain @⟨front, back, index, offset, position, returned, last, at_, read⟩ := follows
  cases call with
  | next =>
    cases back with
    | nil =>
      rw [CompoundBufferInputStream.perform, next_nil holds at_]
      exact ⟨_, rfl, .intro at_ (by simp)⟩
    | cons chunk back =>
      obtain ⟨-, -, isLength, inside⟩ := at_.cons holds
      have starts := at_.starts
      have isSize : ((chunk.bytes.drop offset.toNat).length : Int) = chunk.size - offset := by
        rw [length_drop]
        omega
      rw [CompoundBufferInputStream.perform, next_cons holds at_, Option.map_some]
      dsimp only
      rw [isSize]
      refine ⟨_, rfl, .intro (at_.forward holds) ?_⟩
      rintro _ ⟨⟩
      exact ⟨front, chunk, rfl, rfl, rfl, by omega⟩
  | backUp count =>
    obtain ⟨nonneg, size, isReturned, allowed⟩ := legal
    obtain ⟨front, chunk, rfl, rfl, rfl, fits⟩ := read size isReturned
    obtain ⟨later, runs⟩ := backUp_at holds at_ nonneg allowed (allowed.trans fits)
    rw [CompoundBufferInputStream.perform, runs]
    exact ⟨_, rfl, .intro later (by simp)⟩
  | skip count =>
    obtain ⟨_, _, _, _, later, skips⟩ := @skip_at _ _ _ _ _ _ _ last _ holds at_ legal
    rw [CompoundBufferInputStream.perform, skips, Option.map_some]
    dsimp only
    have isEnd : (if decide (position + count <= string.length) = true then position + count
        else (string.length : Int)) = min (position + count) string.length := by
      simp only [decide_eq_true_eq]
      omega
    rw [isEnd]
    exact ⟨_, rfl, .intro later (by simp)⟩

end

/-- No legal call of a stream over a locked buffer fails a check, and the stream
stays faithful to the byte string of the buffer. -/
theorem stream_faithful (holds : buffer.Holds string) (creates : new_ buffer = some start)
    (legal : Throughout (perform string.length) Legal (start, {}) calls) :
    Always (perform string.length) (Faithful string) (start, {}) calls := by
  have follows : Follows buffer (start, {}) := by
    unfold new_ at creates
    split at creates
    · cases creates
      have at_ : At buffer [] buffer.chunks_ 0 0 0 :=
        ⟨rfl, rfl, rfl, le_refl _, Int.natCast_nonneg _⟩
      exact .intro at_ (by simp)
    · cases creates
  generalize (start, ({} : Caller)) = state at legal follows
  induction calls generalizing state with
  | nil => exact follows.faithful holds
  | cons call calls ih =>
    obtain ⟨next, runs, later⟩ := follows.perform holds legal.1
    exact ⟨follows.faithful holds, next, runs, ih next (legal.2 next runs) later⟩

/-- A block that is read in part. -/
theorem stream_faithful_part : Always (perform 3) (Faithful [1, 2, 3])
    ({ buffer_ := ⟨[⟨[0, 1, 2, 3], 1, 3⟩], 3, true⟩ }, {}) [.next, .backUp 2, .skip 1] := by
  have holds : CompoundBuffer.Holds ⟨[⟨[0, 1, 2, 3], 1, 3⟩], 3, true⟩ [1, 2, 3] := by
    refine ⟨?_, rfl, rfl, by decide⟩
    simp only [mem_singleton, forall_eq]
    exact ⟨by decide, by decide, by decide⟩
  refine stream_faithful holds rfl ⟨trivial, ?_⟩
  rintro _ ⟨⟩
  refine ⟨⟨by decide, 3, rfl, by decide⟩, ?_⟩
  rintro _ ⟨⟩
  exact ⟨show (0 : Int) <= 1 by decide, fun _ _ => trivial⟩

end CompoundBufferInputStream

end Chromium.Remoting
