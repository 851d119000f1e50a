import Chromium.Base.PickleCalls

/-!
# What is written is read

A pickle that refers to the data of a pickle gives the values that were written,
in the same order, and nothing behind them.
-/

namespace Chromium.Base

open List hiding after count iter length take
open Option

section

open Library

namespace PickleView

/-- A pickle refers to the first bytes of a buffer. -/
structure Shows {p : Platform} (buffer : Buffer p) (view : PickleView) (size : Nat) : Prop where
  header : view.header = buffer.address
  header_size : 4 <= view.header_size
  header_le : view.header_size <= size
  size_le : size <= buffer.bytes.length
  small : size < 2 ^ 31
  sound : Sound buffer view (buffer.address + size)

/-- Chunks are ahead of an iterator. -/
def Ahead {p : Platform} (buffer : Buffer p) (view : PickleView) (size iter : Nat)
    (chunks : List Bytes) : Prop :=
  ∃ offset, iter = buffer.address + offset ∧ view.header_size <= offset ∧
    Packed 4 buffer.bytes offset size chunks

section RoundTrip

variable {p : Platform} {buffer : Buffer p} {view : PickleView} {size iter : Nat}

section

variable (shows : Shows buffer view size)
include shows

theorem start_of_ahead (ahead : Ahead buffer view size iter chunks) : start p view iter = iter := by
  obtain ⟨off, rfl, behind, -⟩ := ahead
  have header := shows.header_size
  rw [start, if_neg (by omega)]

theorem take_chunk (ahead : Ahead buffer view size iter (chunk :: rest)) :
    ∃ next, take buffer view iter chunk.length chunk.length = some (some chunk, next) ∧
      Ahead buffer view size next rest := by
  obtain ⟨off, rfl, behind, fits, isChunk, packed⟩ := ahead
  have size_le := shows.size_le
  have small := shows.small
  have loads := @load_of_inside p buffer (buffer.address + off)
    chunk.length (Nat.le_add_right _ _) (by omega)
  rw [Nat.add_sub_cancel_left, isChunk] at loads
  refine ⟨_, take_of_room shows.sound (by omega) ?_ (by omega) loads,
    off + alignUp 4 chunk.length, Nat.add_assoc _ _ _,
    Nat.le_trans behind (Nat.le_add_right _ _), packed⟩
  rw [shows.header]
  exact Nat.le_add_right _ _

theorem readFixed_chunk (ahead : Ahead buffer view size iter (bytesOf width val :: rest)) :
    ∃ next, readFixed buffer view width iter = some (some val, next) ∧
      Ahead buffer view size next rest := by
  obtain ⟨next, takes, aheadNext⟩ := take_chunk shows ahead
  rw [length_bytesOf] at takes
  refine ⟨next, ?_, aheadNext⟩
  rw [readFixed, start_of_ahead shows ahead, takes, bind_eq_bind, bind_some]
  dsimp only
  rw [map_some, ofBytes_bytesOf]

theorem readLength_chunk
    (ahead : Ahead buffer view size iter (bytesOf 4 len :: rest)) (nonneg : 0 <= len.toInt) :
    ∃ next, readLength buffer view iter = some (some len, next) ∧
      Ahead buffer view size next rest := by
  obtain ⟨next, reads, aheadNext⟩ := readFixed_chunk shows ahead
  refine ⟨next, ?_, aheadNext⟩
  rw [readLength, readInt, reads, bind_eq_bind, bind_some]
  simp [nonneg]

/-- A length is read, and what is behind it. -/
theorem afterLength_chunk {read : BitVec 32 -> Nat -> Option (Read α)}
    (ahead : Ahead buffer view size iter (bytesOf 4 len :: chunk :: rest))
    (nonneg : 0 <= len.toInt) (reads : ∀ iter, Ahead buffer view size iter (chunk :: rest) ->
      ∃ next, read len iter = some (some val, next) ∧ Ahead buffer view size next rest) :
    ∃ next, afterLength buffer view iter read = some (some val, next) ∧
      Ahead buffer view size next rest := by
  obtain ⟨middle, readsLength, aheadMiddle⟩ := readLength_chunk shows ahead nonneg
  obtain ⟨next, readsRest, aheadNext⟩ := reads middle aheadMiddle
  refine ⟨next, ?_, aheadNext⟩
  rw [afterLength, readsLength, bind_eq_bind, bind_some]
  exact readsRest

theorem takeUnits_chunk (ahead : Ahead buffer view size iter (unitBytes width units :: rest))
    (fits : units.length < 2 ^ 31) :
    ∃ next, takeUnits buffer view width (toInt units.length) iter = some (some units, next) ∧
        Ahead buffer view size next rest := by
  have word := p.le_word
  obtain ⟨next, takes, aheadNext⟩ := take_chunk shows ahead
  obtain ⟨off, rfl, behind, inside, -, -⟩ := ahead
  have small := shows.small
  obtain ⟨isNat, nonneg⟩ := PickleBuffer.toInt_toNat fits
  rw [length_unitBytes] at inside takes
  have isSize : p.toSize ((toInt units.length).toInt * width) = units.length * width := by
    rw [toInt_toInt_of_lt fits, ← Int.natCast_mul]
    exact p.toSize_of_lt (by omega)
  refine ⟨next, ?_, aheadNext⟩
  rw [takeUnits, isSize, toInt_toInt_of_lt (by omega), isNat, takes, bind_eq_bind, bind_some]
  dsimp only
  rw [map_some, unitsOf_unitBytes]

theorem readBytes_chunk (ahead : Ahead buffer view size iter (chunk :: rest))
    (nonneg : 0 <= length.toInt) (isLength : chunk.length = length.toNat) :
    ∃ next, readBytes buffer view length iter = some (some chunk, next) ∧
      Ahead buffer view size next rest := by
  obtain ⟨next, takes, aheadNext⟩ := take_chunk shows ahead
  refine ⟨next, ?_, aheadNext⟩
  rw [readBytes, start_of_ahead shows ahead, toInt_eq_toNat nonneg, ← isLength, takes]

end

theorem typed_chunk {read : Option (Read α)} (tag : α -> Value p)
    (reads : ∃ next, read = some (some val, next) ∧ Ahead buffer view size next rest) :
    ∃ next, typed tag read = some (some (tag val), next) ∧ Ahead buffer view size next rest := by
  obtain ⟨next, rfl, aheadNext⟩ := reads
  exact ⟨next, rfl, aheadNext⟩

theorem length_lt_of_ahead (shows : Shows buffer view size)
    (ahead : Ahead buffer view size iter (first :: chunk :: rest)) :
    chunk.length < 2 ^ 31 := by
  obtain ⟨off, -, -, -, -, fits, -, -⟩ := ahead
  have small := shows.small
  omega

/-- The check of `ReadWString` passes if the units fit. -/
theorem wchar_fits (less : n * p.wchar_t_size < 2 ^ 31) :
    n < 2 ^ 31 ∧ ¬ (n : Int) > (2 ^ 31 - 1) / p.wchar_t_size := by
  rcases p.wchar_t_size_eq with width | width
  · rw [width] at less ⊢
    omega
  · rw [width] at less ⊢
    omega

/-- The matching call reads the value of a call. -/
theorem read_matching {call : WriteCall p} (shows : Shows buffer view size)
    (ok : call.Permitted) (accepted : call.accepted = true)
    (ahead : Ahead buffer view size iter (call.chunks ++ rest)) :
    ∃ next, read buffer view iter call.matching = some (some call.value, next) ∧
        Ahead buffer view size next rest := by
  cases call with
  | bool val =>
    obtain ⟨next, reads, aheadNext⟩ := readFixed_chunk shows ahead
    refine ⟨next, ?_, aheadNext⟩
    rw [WriteCall.matching, read, readBool, readInt, reads]
    cases val <;> rfl
  | int val => exact typed_chunk .int (readFixed_chunk shows ahead)
  | long val => exact typed_chunk .long (readFixed_chunk shows ahead)
  | size val => exact typed_chunk .size (readFixed_chunk shows ahead)
  | uint16 val => exact typed_chunk .uint16 (readFixed_chunk shows ahead)
  | uint32 val => exact typed_chunk .uint32 (readFixed_chunk shows ahead)
  | int64 val => exact typed_chunk .int64 (readFixed_chunk shows ahead)
  | uint64 val => exact typed_chunk .uint64 (readFixed_chunk shows ahead)
  | string val =>
    have less := length_lt_of_ahead shows ahead
    obtain ⟨isNat, nonneg⟩ := PickleBuffer.toInt_toNat less
    refine typed_chunk .string (afterLength_chunk shows ahead nonneg ?_)
    intro iter aheadValue
    rw [isNat, toInt_toInt_of_lt less]
    exact take_chunk shows aheadValue
  | wstring val =>
    have less := length_lt_of_ahead shows ahead
    rw [length_unitBytes] at less
    obtain ⟨fits, short⟩ := wchar_fits less
    obtain ⟨-, nonneg⟩ := PickleBuffer.toInt_toNat fits
    refine typed_chunk .wstring (afterLength_chunk shows ahead nonneg ?_)
    intro iter aheadValue
    rw [toInt_toInt_of_lt fits, if_neg short]
    exact takeUnits_chunk shows aheadValue fits
  | string16 val =>
    have less := length_lt_of_ahead shows ahead
    rw [length_unitBytes] at less
    have fits : val.length < 2 ^ 31 := by omega
    obtain ⟨-, nonneg⟩ := PickleBuffer.toInt_toNat fits
    refine typed_chunk .string16 (afterLength_chunk shows ahead nonneg ?_)
    intro iter aheadValue
    exact takeUnits_chunk shows aheadValue fits
  | data given length =>
    have nonneg := of_decide_eq_true accepted
    have enough : length.toNat <= given.length := by
      rw [WriteCall.Permitted, toInt_eq_toNat nonneg] at ok
      omega
    rw [WriteCall.chunks, if_pos nonneg] at ahead
    refine typed_chunk .data (afterLength_chunk shows ahead nonneg ?_)
    intro iter aheadValue
    exact readBytes_chunk shows aheadValue nonneg (length_take_of_le enough)
  | bytes given data_len =>
    obtain ⟨nonneg, enough⟩ := ok
    exact typed_chunk .data (readBytes_chunk shows ahead nonneg (length_take_of_le enough))
  | region length filled new_length =>
    have nonneg := of_decide_eq_true accepted
    obtain ⟨-, isFilled⟩ := ok nonneg
    obtain ⟨nonnegTrimmed, -⟩ := trimmed_le nonneg new_length
    rw [WriteCall.chunks, if_pos nonneg] at ahead
    refine typed_chunk .data (afterLength_chunk shows ahead nonnegTrimmed ?_)
    intro iter aheadValue
    exact readBytes_chunk shows aheadValue nonnegTrimmed (length_take_of_le isFilled)

/-- Behind the last chunk there is no room for a byte. -/
theorem take_end {len : Int} (shows : Shows buffer view size)
    (ahead : Ahead buffer view size iter []) (small : len < 2 ^ 31)
    (counts : 0 <= len -> n = len.toNat) :
    ∃ bytes, take buffer view iter len n = some (bytes, iter) ∧ (len ≠ 0 -> bytes = none) := by
  obtain ⟨off, rfl, -, isEnd⟩ := ahead
  have le := le_alignUp 4 size
  rw [isEnd] at le
  by_cases room : 0 <= len ∧ view.header <= buffer.address + off ∧
      (buffer.address + off : Nat) + len <= (buffer.address + size : Nat)
  · obtain ⟨nonneg, after, inside⟩ := room
    have nothing : len = 0 := by omega
    subst nothing
    have isZero : n = 0 := counts nonneg
    subst isZero
    obtain ⟨bytes, loads⟩ := shows.sound.loads (buffer.address + off) 0 after (by omega)
    have takes := @take_of_room p buffer view _ _ 0 0 bytes shows.sound
      (by decide) after (by omega) loads
    exact ⟨some bytes, takes, fun not => absurd rfl not⟩
  · exact ⟨none, take_of_no_room shows.sound small room n, fun _ => rfl⟩

theorem readFixed_end (shows : Shows buffer view size) (ahead : Ahead buffer view size iter [])
    (width : Nat) (pos : 0 < width) (small : width < 2 ^ 31) :
    readFixed buffer view width iter = some (none, iter) := by
  obtain ⟨bytes, takes, nothing⟩ := @take_end p buffer view size iter
    width width shows ahead (by omega) (fun _ => by omega)
  rw [readFixed, start_of_ahead shows ahead, takes, nothing (by omega)]
  rfl

/-- A read at the end fails, unless it reads no bytes. -/
theorem read_end (shows : Shows buffer view size) (ahead : Ahead buffer view size iter []) :
    ∃ val, read buffer view iter call = some (val, iter) ∧
      (call ≠ .bytes 0 -> val = none) := by
  have fixed := readFixed_end shows ahead
  have noLength : readLength buffer view iter = some (none, iter) := by
    rw [readLength, readInt, fixed 4 (by decide) (by decide)]
    rfl
  have after : ∀ {α : Type} (read : BitVec 32 -> Nat -> Option (Read α)),
      afterLength buffer view iter read = some (none, iter) := by
    intro α read
    rw [afterLength, noLength]
    rfl
  have long : 0 < p.long_size ∧ p.long_size < 2 ^ 31 := by
    rcases p.long_size_eq with size | size <;> omega
  have word : 0 < p.size_t_size ∧ p.size_t_size < 2 ^ 31 := by
    rcases p.size_t_size_eq with size | size <;> omega
  have fails : ∀ {call : ReadCall}, read buffer view iter call = some (none, iter) ->
        ∃ val, read buffer view iter call = some (val, iter) ∧
          (call ≠ .bytes 0 -> val = none) :=
    fun reads => ⟨none, reads, fun _ => rfl⟩
  have none_typed : ∀ {α : Type} (tag : α -> Value p)
      {read : Option (Read α)}, read = some (none, iter) -> typed tag read = some (none, iter) := by
    rintro α tag _ rfl
    rfl
  cases call with
  | bytes length =>
    obtain ⟨bytes, takes, nothing⟩ := @take_end p buffer view size iter
      length.toNat length.toInt shows ahead (toInt_lt length) (by
        intro nonneg
        rw [toInt_eq_toNat nonneg, Int.toNat_natCast])
    refine ⟨bytes.map .data, ?_, ?_⟩
    · rw [read, readBytes, start_of_ahead shows ahead, takes]
      rfl
    · intro some_
      rw [nothing, map_none]
      intro isZero
      apply some_
      rw [show length = 0 from BitVec.eq_of_toInt_eq isZero]
  | bool =>
    apply fails
    rw [read, readBool, readInt, fixed 4 (by decide) (by decide)]
    rfl
  | int => exact fails (none_typed .int (fixed 4 (by decide) (by decide)))
  | long => exact fails (none_typed .long (fixed _ long.1 long.2))
  | size => exact fails (none_typed .size (fixed _ word.1 word.2))
  | uint16 => exact fails (none_typed .uint16 (fixed 2 (by decide) (by decide)))
  | uint32 => exact fails (none_typed .uint32 (fixed 4 (by decide) (by decide)))
  | int64 => exact fails (none_typed .int64 (fixed 8 (by decide) (by decide)))
  | uint64 => exact fails (none_typed .uint64 (fixed 8 (by decide) (by decide)))
  | string => exact fails (none_typed .string (after _))
  | wstring => exact fails (none_typed .wstring (after _))
  | string16 => exact fails (none_typed .string16 (after _))
  | data => exact fails (none_typed .data (after _))
  | length => exact fails (none_typed .int noLength)

/-- A read that fails, unless it reads no bytes. -/
def Ends (call : ReadCall) (result : Read (Value p)) : Prop :=
  call = .bytes 0 ∨ result.1 = none

theorem readAll_end (shows : Shows buffer view size) (ahead : Ahead buffer view size iter []) :
    ∃ results, readAll buffer view iter further = some results ∧
      List.Forall₂ Ends further results := by
  induction further with
  | nil => exact ⟨[], rfl, .nil⟩
  | cons call rest ih =>
    obtain ⟨val, reads, nothing⟩ := read_end shows ahead
    obtain ⟨results, readsRest, ends⟩ := ih
    refine ⟨(val, iter) :: results, ?_, .cons ?_ ends⟩
    · rw [readAll, reads, bind_eq_bind, bind_some, readsRest]
      rfl
    · by_cases isNothing : call = .bytes 0
      · exact .inl isNothing
      · exact .inr (nothing isNothing)

/-- The values of calls are read, and nothing behind them. -/
theorem readAll_chunks {calls : List (WriteCall p)} (shows : Shows buffer view size)
    (ok : ∀ call ∈ calls, call.Permitted) (accepted : ∀ call ∈ calls, call.accepted = true)
    (ahead : Ahead buffer view size iter (calls.flatMap WriteCall.chunks)) :
    ∃ values results, readAll buffer view iter (calls.map WriteCall.matching ++ further) =
          some (values ++ results) ∧ values.map Prod.fst = calls.map (fun call => some call.value) ∧
        List.Forall₂ Ends further results := by
  induction calls generalizing iter with
  | nil =>
    obtain ⟨results, reads, ends⟩ := readAll_end shows ahead
    exact ⟨[], results, reads, rfl, ends⟩
  | cons call rest ih =>
    obtain ⟨next, reads, aheadNext⟩ := read_matching shows
      (ok call mem_cons_self) (accepted call mem_cons_self)
      ahead
    obtain ⟨values, results, readsRest, isValues, ends⟩ :=
      ih ((forall_mem_cons.mp ok).2) ((forall_mem_cons.mp accepted).2) aheadNext
    refine ⟨(some call.value, next) :: values, results, ?_,
      congrArg (List.cons (some call.value)) isValues, ends⟩
    rw [map_cons, cons_append, readAll, reads, bind_eq_bind, bind_some, readsRest]
    rfl

/-- A null iterator stands for the start of the payload. -/
theorem read_start (pos : view.payload p ≠ 0) :
    read buffer view (view.payload p) call = read buffer view 0 call := by
  have same : start p view (view.payload p) = start p view 0 := by
    rw [start, if_neg pos, start, if_pos rfl]
  have fixed : ∀ width, readFixed buffer view width (view.payload p) =
      readFixed buffer view width 0 := by
    intro width
    rw [readFixed, same, readFixed]
  have lengths : readLength buffer view (view.payload p) = readLength buffer view 0 := by
    rw [readLength, readInt, fixed, readLength, readInt]
  have after : ∀ {α : Type} (next : BitVec 32 -> Nat -> Option (Read α)),
      afterLength buffer view (view.payload p) next = afterLength buffer view 0 next := by
    intro α next
    rw [afterLength, lengths, afterLength]
  cases call with
  | bool => rw [read, readBool, readInt, fixed, read, readBool, readInt]
  | int => rw [read, readInt, fixed, read, readInt]
  | long => rw [read, readLong, fixed, read, readLong]
  | size => rw [read, readSize, fixed, read, readSize]
  | uint16 => rw [read, readUInt16, fixed, read, readUInt16]
  | uint32 => rw [read, readUInt32, fixed, read, readUInt32]
  | int64 => rw [read, readInt64, fixed, read, readInt64]
  | uint64 => rw [read, readUInt64, fixed, read, readUInt64]
  | string => rw [read, readString, after, read, readString]
  | wstring => rw [read, readWString, after, read, readWString]
  | string16 => rw [read, readString16, after, read, readString16]
  | data => rw [read, readData, after, read, readData]
  | bytes len => rw [read, readBytes, same, read, readBytes]
  | length => rw [read, lengths, read]

theorem readAll_start (pos : view.payload p ≠ 0) :
    readAll buffer view (view.payload p) calls = readAll buffer view 0 calls := by
  cases calls with
  | nil => rfl
  | cons call rest => rw [readAll, read_start pos, readAll]

/-- A pickle that refers to the data of a pickle. -/
theorem create_shows {pickle : PickleBuffer} (inv : PickleBuffer.Holds pickle chunks)
    (small : pickle.size < 2 ^ 31) (isData : buffer.bytes = pickle.data) :
    ∃ view, create buffer (toInt pickle.size) = some view ∧ Shows buffer view pickle.size ∧
      view.payload p ≠ 0 ∧ Ahead buffer view pickle.size (view.payload p) chunks := by
  have header := inv.header
  have size_le := inv.size_le
  have in_memory := buffer.in_memory
  have sizeIs : pickle.size = pickle.header_size + pickle.payload_size := rfl
  have len : buffer.bytes.length = pickle.size := by
    rw [isData, PickleBuffer.data, length_take_of_le size_le]
  have slices : ∀ start n, start + n <= pickle.size ->
      slice buffer.bytes start n = slice pickle.memory start n := by
    intro start n inside
    rw [isData, PickleBuffer.data, slice_slice inside]
  have payload : (ofBytes 4 (slice buffer.bytes 0 4)).toNat = pickle.payload_size := by
    rw [slices 0 4 (by omega)]
    rfl
  have loads := @load_of_inside p buffer buffer.address 4 (Nat.le_refl _) (by omega)
  rw [Nat.sub_self] at loads
  obtain ⟨isNat, nonneg⟩ := PickleBuffer.toInt_toNat small
  have isHeader : (toInt pickle.size -
      ofBytes 4 (slice buffer.bytes 0 4)).toNat = pickle.header_size := by
    rw [BitVec.toNat_sub, isNat, payload]
    omega
  have within : pickle.header_size <= pickle.size := Nat.le_add_right _ _
  have pos : 0 < pickle.header_size := by omega
  have aligned : pickle.header_size = Pickle.alignInt pickle.header_size 4 := by
    rw [alignInt_eq, alignUp_of_dvd inv.header_aligned]
  have sound := @PickleView.sound_of_inside p buffer _ header (by rw [payload, len, ← sizeIs])
  rw [payload, ← sizeIs] at sound
  have isPayload : PickleView.payload p
      { header := buffer.address, header_size := pickle.header_size } =
        buffer.address + pickle.header_size :=
    advance_of_lt (by dsimp only; omega)
  refine ⟨{ header := buffer.address, header_size := pickle.header_size },
    ?_, ⟨rfl, header, within, Nat.le_of_eq len.symm, small, sound⟩, ?_, ?_⟩
  · rw [create, if_pos (by rw [toInt_toInt_of_lt small]; omega), loads]
    simp only [bind_eq_bind, bind_some]
    rw [isHeader, if_neg (Nat.not_lt.mpr (Nat.le_trans within isNat.ge)),
      if_neg (not_not.mpr aligned), if_neg (Nat.ne_of_gt pos)]
  · rw [isPayload]
    omega
  · refine ⟨pickle.header_size, isPayload, Nat.le_refl _, ?_⟩
    apply inv.packed.congr
    exact fun start n _ inside => slices start n inside

end RoundTrip
end PickleView

end

/-!
## Serialization of pickles

For every sequence of writes, what the reads of the written data give; and for
every buffer, what reads do with it.
-/

section

open Library

/-- The data of a pickle gives the values of the calls that wrote to it, and
further reads end as required. -/
def RoundTrips {p : Platform} (ends : ReadCall -> PickleView.Read (Value p) -> Prop)
    (pickle : PickleBuffer) (calls : List (WriteCall p)) : Prop :=
  ∀ buffer : Buffer p, buffer.bytes = pickle.data ->
    ∃ view, PickleView.create buffer (toInt pickle.size) = some view ∧
      ∀ further : List ReadCall, ∃ values results, PickleView.readAll buffer view 0
            ((calls.filter WriteCall.accepted).map WriteCall.matching ++
              further) = some (values ++ results) ∧
          values.map Prod.fst = (calls.filter WriteCall.accepted).map
            (fun call => some call.value) ∧
          List.Forall₂ ends further results

/-- Reads of a buffer return, load no byte outside it, and do not move the
iterator back. -/
def StaysInside {p : Platform} (buffer : Buffer p) : Prop :=
  ∃ view, PickleView.create buffer (toInt buffer.bytes.length) = some view ∧
    ∀ calls : List ReadCall, ∃ results, PickleView.readAll buffer view 0 calls = some results ∧
        results.length = calls.length ∧ (0 :: results.map Prod.snd).IsChain (· <= ·)

variable {p : Platform} {alloc : Allocator} {header_size : Nat}
  {pickle : PickleBuffer} {calls : List (WriteCall p)}

theorem staysInside (buf : Buffer p) : StaysInside buf := by
  obtain ⟨view, end_, creates, sound⟩ := PickleView.create_sound toInt_toInt_le
  exact ⟨view, creates, PickleView.readAll_forward sound⟩

/-- A call that is not accepted puts nothing into the payload. -/
theorem flatMap_chunks_filter (calls : List (WriteCall p)) :
    (calls.filter WriteCall.accepted).flatMap WriteCall.chunks =
      calls.flatMap WriteCall.chunks := by
  induction calls with
  | nil => rfl
  | cons call rest ih =>
    by_cases ok : call.accepted = true
    · rw [filter_cons_of_pos ok, flatMap_cons, flatMap_cons, ih]
    · rw [filter_cons_of_neg ok, flatMap_cons,
        WriteCall.chunks_of_rejected ok, nil_append,
        ih]

theorem roundTrips_of_holds (inv : pickle.Holds (calls.flatMap WriteCall.chunks))
    (small : pickle.size < 2 ^ 31) (ok : ∀ call ∈ calls, call.Permitted) :
    RoundTrips PickleView.Ends pickle calls := by
  intro buf isData
  rw [← flatMap_chunks_filter] at inv
  obtain ⟨view, creates, shows, pos, ahead⟩ := PickleView.create_shows inv small isData
  refine ⟨view, creates, fun further => ?_⟩
  rw [← PickleView.readAll_start pos]
  apply PickleView.readAll_chunks shows _ _ ahead
  · intro call mem
    exact ok call (mem_of_mem_filter mem)
  · intro call mem
    exact of_mem_filter mem

/-- What is written is read, and reads stay in the buffer. -/
theorem pickle_serialization (p : Platform) (alloc : Allocator) :
    (∀ (header_size : Nat) (pickle : PickleBuffer) (calls : List (WriteCall p)),
      4 <= header_size -> header_size <= PickleBuffer.kPayloadUnit ->
      PickleBuffer.create p alloc header_size = some pickle ->
      (∀ call ∈ calls, call.Permitted) -> WriteCall.Fits (alignUp 4 header_size) calls ->
      ∃ next results, pickle.writeAll p alloc calls = some (next, results) ∧
        (¬ alloc.Refuses -> results = calls.map WriteCall.accepted) ∧
        (results = calls.map WriteCall.accepted -> RoundTrips PickleView.Ends next calls)) ∧
    ∀ buffer : Buffer p, StaysInside buffer := by
  refine ⟨?_, staysInside⟩
  intro header_size pickle calls enough short creates ok fits
  obtain ⟨holds, size⟩ := PickleBuffer.create_holds enough short creates
  have bounded := alignUp_le (show 0 < 4 by decide) short (by decide)
  have unit : PickleBuffer.kPayloadUnit = 64 := rfl
  obtain ⟨next, results, writes, small, all, holdsNext⟩ :=
    @PickleBuffer.writeAll_spec p alloc pickle [] calls _ holds
      (Nat.le_of_eq size) (by omega) ok fits
  exact ⟨next, results, writes, all, fun accepts =>
    roundTrips_of_holds (holdsNext accepts) small ok⟩

/-- 64-bit `long`, `size_t` and pointers, and 32-bit `wchar_t`. -/
def lp64 : Platform where
  long_size := 8
  size_t_size := 8
  wchar_t_size := 4
  long_size_eq := .inr rfl
  size_t_size_eq := .inr rfl
  wchar_t_size_eq := .inr rfl

/-- An allocator that always has memory, and clears it. -/
def clearing : Allocator where
  realloc memory size := some (memory.take size ++ List.replicate (size - memory.length) 0)
  length_realloc := by
    intro memory size grown isGrown
    rw [← Option.some.inj isGrown, List.length_append, List.length_take, List.length_replicate]
    omega
  keeps := by
    intro memory size grown start count isGrown inMemory inSize
    rw [← Option.some.inj isGrown]
    apply List.ext_getElem?
    intro index
    rw [getElem?_slice, getElem?_slice]
    split_ifs with inside
    · rw [List.getElem?_append_left (by rw [List.length_take]; omega),
        List.getElem?_take_of_lt (by omega)]
    · rfl

theorem not_refuses_clearing : ¬ clearing.Refuses := by
  rintro ⟨memory, size, refused⟩
  cases refused

/-- A string, a region of eight bytes that is trimmed to three, and a flag. -/
def trimmedCalls : List (WriteCall lp64) :=
  [.string [104, 105], .region 8 [1, 2, 3] (some 3), .bool true]

theorem pickle_serialization_trimmed : ∃ pickle next results,
      PickleBuffer.create lp64 clearing 4 = some pickle ∧
      pickle.writeAll lp64 clearing trimmedCalls = some (next, results) ∧
      RoundTrips PickleView.Ends next trimmedCalls := by
  obtain ⟨next, results, writes, all, roundTrips⟩ :=
    (pickle_serialization lp64 clearing).1 4 _ trimmedCalls (by decide) (by decide) rfl (by
        intro call member
        simp only [trimmedCalls, mem_cons, not_mem_nil, or_false] at member
        rcases member with rfl | rfl | rfl
        · trivial
        · exact fun _ => by decide
        · trivial)
      ⟨by decide, by decide, by decide, trivial⟩
  exact ⟨_, next, results, rfl, writes, roundTrips (all not_refuses_clearing)⟩

/-- A read that fails, whatever it reads. -/
def Fails (_call : ReadCall) (result : PickleView.Read (Value p)) : Prop := result.1 = none

/-- A pickle with no payload. -/
def emptyPickle : PickleBuffer where
  memory := List.replicate 64 0
  header_size := 4
  variable_buffer_offset := 0

def emptyBuffer : Buffer lp64 where
  address := 64
  bytes := [0, 0, 0, 0]
  not_null := by decide
  in_memory := by decide

/-- At the end of the payload a read of no bytes succeeds. -/
theorem not_roundTrips_fails : ¬ RoundTrips Fails emptyPickle ([] : List (WriteCall lp64)) := by
  intro roundTrips
  obtain ⟨view, creates, reads⟩ := roundTrips emptyBuffer (by decide)
  obtain rfl : { header := 64, header_size := 4 } = view := Option.some.inj creates
  obtain ⟨values, results, isAll, isValues, fails⟩ := reads [.bytes 0]
  obtain rfl : values = [] := map_eq_nil_iff.mp isValues
  have isResult : PickleView.readAll emptyBuffer
      { header := 64, header_size := 4 } 0 [.bytes 0] = some [(some (.data []), 68)] := rfl
  obtain rfl := Option.some.inj (isResult.symm.trans isAll)
  cases fails with
  | cons isNone _ => cases isNone

/-- As many bytes as an `int` can count. -/
def longestBytes : WriteCall lp64 :=
  .bytes (List.replicate (2 ^ 31 - 1) 0) (BitVec.ofNat 32 (2 ^ 31 - 1))

/-- The size of a pickle with that many bytes is negative as an `int`. -/
theorem not_roundTrips_of_longest (size : pickle.size = 4 + (2 ^ 31 - 1))
    (size_le : pickle.size <= pickle.memory.length) :
    ¬ RoundTrips PickleView.Ends pickle [longestBytes] := by
  intro roundTrips
  have len : pickle.data.length = 4 + (2 ^ 31 - 1) := by
    rw [PickleBuffer.data, length_take_of_le size_le, size]
  obtain ⟨buf, isData⟩ : ∃ buf : Buffer lp64, buf.bytes = pickle.data := by
    refine ⟨⟨64, pickle.data, fun _ => by omega, ?_⟩, rfl⟩
    rw [len]
    decide
  obtain ⟨view, creates, reads⟩ := roundTrips buf isData
  have negative : (toInt pickle.size).toInt < 0 := toInt_toInt_neg (by omega) (by omega)
  rw [PickleView.create_null (by omega)] at creates
  obtain rfl := Option.some.inj creates
  obtain ⟨values, results, isAll, isValues, -⟩ := reads []
  obtain ⟨val, isOnly, isValue⟩ := map_eq_singleton_iff.mp isValues
  -- A null pickle has no room for the bytes.
  have takes := @PickleView.take_of_no_room lp64 buf _ 0 0 (BitVec.ofNat 32 (2 ^ 31 - 1)).toInt
    PickleView.sound_null (by decide) (by decide)
    (BitVec.ofNat 32 (2 ^ 31 - 1)).toNat
  have fails : PickleView.readAll buf { header := 0, header_size := 0 } 0
      [.bytes (BitVec.ofNat 32 (2 ^ 31 - 1))] = some [(none, 0)] := by
    rfl
  have isNone := fails.symm.trans isAll
  rw [isOnly] at isNone
  obtain ⟨rfl, -⟩ := List.cons.inj (Option.some.inj isNone)
  cases isValue

/-- Neither may every further read fail, nor may a pickle have any size. -/
theorem not_pickle_serialization : (¬ ∀ (p : Platform) (alloc : Allocator) (header_size : Nat)
        (pickle : PickleBuffer) (calls : List (WriteCall p)),
      4 <= header_size -> header_size <= PickleBuffer.kPayloadUnit ->
      PickleBuffer.create p alloc header_size = some pickle ->
      (∀ call ∈ calls, call.Permitted) -> WriteCall.Fits (alignUp 4 header_size) calls ->
      ∃ next results, pickle.writeAll p alloc calls = some (next, results) ∧
        (results = calls.map WriteCall.accepted -> RoundTrips Fails next calls)) ∧
    ¬ ∀ (p : Platform) (alloc : Allocator) (header_size : Nat)
        (pickle : PickleBuffer) (calls : List (WriteCall p)),
      4 <= header_size -> header_size <= PickleBuffer.kPayloadUnit ->
      PickleBuffer.create p alloc header_size = some pickle ->
      (∀ call ∈ calls, call.Permitted) ->
      ∃ next results, pickle.writeAll p alloc calls = some (next, results) ∧
        (results = calls.map WriteCall.accepted -> RoundTrips PickleView.Ends next calls) := by
  constructor
  · intro claimed
    obtain ⟨next, results, writes, roundTrips⟩ := claimed lp64 clearing 4
      emptyPickle [] (by decide) (by decide) (by decide)
      (forall_mem_nil _) trivial
    obtain ⟨rfl, rfl⟩ := Prod.mk.inj (Option.some.inj writes)
    exact not_roundTrips_fails (roundTrips rfl)
  · intro claimed
    have creates : PickleBuffer.create lp64 clearing 4 = some emptyPickle := by decide
    have ok : longestBytes.Permitted := by
      refine ⟨by decide, ?_⟩
      rw [length_replicate]
      decide
    obtain ⟨next, results, writes, roundTrips⟩ := claimed lp64 clearing 4
      emptyPickle [longestBytes] (by decide) (by decide) creates (by
        intro call member
        rwa [mem_singleton.mp member])
    obtain ⟨holds, size⟩ := PickleBuffer.create_holds (by decide) (by decide) creates
    obtain ⟨_, refuses⟩ | ⟨last, isWritten, appended⟩ :=
      @PickleBuffer.writeBytes_cases lp64 clearing emptyPickle []
        (replicate (2 ^ 31 - 1) 0) (BitVec.ofNat 32 (2 ^ 31 - 1)) holds
        ok.1 ok.2 (by rw [size]; decide)
    · exact not_refuses_clearing refuses
    have isAll : emptyPickle.writeAll lp64 clearing [longestBytes] = some (last, [true]) := by
      have writesCall : emptyPickle.write lp64 clearing longestBytes =
          some (last, true) := isWritten
      rw [PickleBuffer.writeAll, writesCall]
      rfl
    obtain ⟨rfl, rfl⟩ := Prod.mk.inj (Option.some.inj (isAll.symm.trans writes))
    refine not_roundTrips_of_longest ?_ appended.size_le (roundTrips rfl)
    rw [appended.size, size, length_take_of_le ok.2]
    rfl

end

end Chromium.Base
