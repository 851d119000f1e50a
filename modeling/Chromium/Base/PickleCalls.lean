import Chromium.Base.PickleWrites

/-!
# Regions that the caller fills

`BeginWriteData` reserves a region behind its length. What the caller puts
there and trims is a length and a chunk, as `WriteData` would have put them.
-/

namespace Chromium.Base

open List Option

section

open Library

/-- The length of a region that may have been trimmed. -/
def trimmed (length : BitVec 32) (new_length : Option (BitVec 32)) : BitVec 32 :=
  match new_length with
  | some new_length =>
    if new_length.toInt < 0 ∨ new_length.toInt > length.toInt then length
    else new_length
  | none => length

theorem trimmed_le {len : BitVec 32} (nonneg : 0 <= len.toInt)
    (new_length : Option (BitVec 32)) :
    0 <= (trimmed len new_length).toInt ∧ (trimmed len new_length).toNat <= len.toNat := by
  cases new_length with
  | none => exact ⟨nonneg, Nat.le_refl _⟩
  | some new_length =>
    rw [trimmed]
    split_ifs with invalid
    · exact ⟨nonneg, Nat.le_refl _⟩
    · have isNat := toInt_eq_toNat nonneg
      have isNew := toInt_eq_toNat (show 0 <= new_length.toInt by omega)
      exact ⟨by omega, by omega⟩

namespace PickleBuffer

section Regions

variable {p : Platform} {alloc : Allocator} {pickle middle next : PickleBuffer}
  {chunks : List Bytes}

/-- A region of a length that lies behind the chunks of a pickle. -/
structure Region (pickle next : PickleBuffer) (length : BitVec 32) (data_ptr : Nat) : Prop where
  keeps : Keeps pickle next pickle.size
  start : data_ptr = alignUp 4 pickle.size + 4
  size : next.size = data_ptr + length.toNat
  size_le : next.size <= next.memory.length
  offset : next.variable_buffer_offset = alignUp 4 pickle.size
  stored : slice next.memory (alignUp 4 pickle.size) 4 = bytesOf 4 length

/-- A pickle behind whose chunks a length and that many bytes are. -/
theorem Holds.snoc_region {len : BitVec 32} (inv : Holds pickle chunks)
    (keeps : Keeps pickle next pickle.size)
    (size : next.size = alignUp 4 pickle.size + 4 + chunk.length)
    (size_le : next.size <= next.memory.length)
    (stored : slice next.memory (alignUp 4 pickle.size) 4 = bytesOf 4 len)
    (isChunk : slice next.memory (alignUp 4 pickle.size + 4) chunk.length = chunk) :
    Holds next (chunks ++ [bytesOf 4 len, chunk]) := by
  have aligned : alignUp 4 (alignUp 4 pickle.size + (bytesOf 4 len).length) =
      alignUp 4 pickle.size + 4 := by
    rw [length_bytesOf]
    apply alignUp_of_dvd
    have := dvd_alignUp (show 0 < 4 by decide) pickle.size
    omega
  have withLength := (inv.packed_of_keeps keeps).snoc (by decide)
    (show slice next.memory (alignUp 4 pickle.size) (bytesOf 4 len).length =
      bytesOf 4 len by rw [length_bytesOf, stored])
  have packed := withLength.snoc (by decide)
    (show slice next.memory _ chunk.length = chunk by rw [aligned, isChunk])
  rw [aligned, ← size, append_assoc] at packed
  refine ⟨?_, ?_, keeps.capacity, size_le, packed⟩
  · rw [keeps.header_size]
    exact inv.header_aligned
  · rw [keeps.header_size]
    exact inv.header

/-- `BeginWriteData` makes a region, or is refused. -/
theorem beginWriteData_cases {len : BitVec 32} (inv : Holds pickle chunks)
    (nonneg : 0 <= len.toInt) (small : extent pickle.size [4, len.toNat] < 2 ^ 31) :
    (∃ next others, pickle.beginWriteData p alloc len = some (next, none) ∧
      alloc.Refuses ∧ Holds next others ∧ next.size <= extent pickle.size [4]) ∨
    ∃ next data_ptr, pickle.beginWriteData p alloc len = some (next, some data_ptr) ∧
      Region pickle next len data_ptr := by
  have word := p.le_word
  have header := inv.header
  have sizeIs : pickle.size = pickle.header_size + pickle.payload_size := rfl
  have le := le_alignUp 4 pickle.size
  have whole := dvd_alignUp (show 0 < 4 by decide) pickle.size
  have aligned : alignUp 4 (alignUp 4 pickle.size + 4) =
      alignUp 4 pickle.size + 4 := alignUp_of_dvd (by omega)
  have unit : kPayloadUnit = 64 := rfl
  have ends : alignUp 4 pickle.size + 4 + len.toNat < 2 ^ 31 := by
    have isExtent : extent pickle.size [4, len.toNat] =
        alignUp 4 (alignUp 4 pickle.size + 4) + len.toNat := rfl
    rwa [isExtent, aligned] at small
  have n : p.toSize len.toInt = len.toNat := by
    rw [toInt_eq_toNat nonneg]
    exact p.toSize_of_lt (by omega)
  rw [beginWriteData, if_neg (by omega), writeInt, writeFixed]
  rcases @writeBytes_cases p alloc pickle chunks (bytesOf 4 len)
      (toInt 4) inv (by decide) (by rw [length_bytesOf]; decide)
      (by rw [show (toInt 4).toNat = 4 from rfl]; omega) with
    ⟨writes, refuses⟩ | ⟨middle, writes, appended⟩
  · rw [writes]
    exact .inl ⟨pickle, chunks, rfl, refuses, inv, le_extent _⟩
  · have holdsMiddle := inv.snoc appended
    rw [show (toInt 4).toNat = 4 from rfl, take_of_length_le
      (Nat.le_of_eq (length_bytesOf 4 len))] at appended
    have sizeMiddle : middle.size = alignUp 4 pickle.size + 4 := by
      rw [appended.size, length_bytesOf]
    rw [writes, bind_eq_bind, bind_some]
    dsimp only
    rw [if_pos rfl, beginVariableBuffer, n]
    rcases @beginWrite_cases p alloc _ _ len.toNat holdsMiddle
        (by rw [sizeMiddle, aligned]; omega) with
      ⟨begins, refuses⟩ | ⟨next, begins, keepsNext, isSize, fits⟩
    · rw [begins]
      exact .inl ⟨middle, _, rfl, refuses, holdsMiddle, Nat.le_of_eq sizeMiddle⟩
    · rw [sizeMiddle, aligned] at isSize begins
      obtain ⟨last, endsWrite, keepsLast, payload, lastLength, off⟩ :=
        @endWrite_keeps p
          { next with
            variable_buffer_offset := alignUp 4 pickle.size + 4 - 4 }
          (alignUp 4 pickle.size + 4) len.toNat keepsNext.capacity
          (by omega) (by omega) (by dsimp only; omega) (by omega)
      have lastSize : last.size = next.size := by
        rw [size, size, payload, keepsLast.header_size]
        rfl
      have keepsAll : Keeps middle last middle.size :=
        keepsNext.trans ⟨keepsLast.header_size, keepsLast.capacity, fun start n behind inside =>
            keepsLast.cells start n behind (by omega)⟩
      rw [begins]
      refine .inr ⟨last, alignUp 4 pickle.size + 4, ?_,
        appended.keeps.trans (keepsAll.of_le (by omega)), rfl, ?_, ?_, ?_, ?_⟩
      · rw [toInt_eq_toNat nonneg]
        dsimp only
        rw [endsWrite]
        rfl
      · rw [lastSize, isSize]
      · rw [lastSize, lastLength]
        exact fits
      · exact off.trans (Nat.add_sub_cancel _ 4)
      · rw [keepsAll.cells (alignUp 4 pickle.size) 4 (by omega) (by omega)]
        have stored := appended.stored
        rwa [length_bytesOf] at stored

theorem Region.alignUp_size_lt {len : BitVec 32} (inv : Holds pickle chunks)
    (region : Region pickle next len data_ptr) :
    pickle.size <= alignUp 4 pickle.size ∧ 4 <= alignUp 4 pickle.size ∧
      alignUp 4 pickle.size + 4 + len.toNat <= next.memory.length := by
  have header := inv.header
  have le := le_alignUp 4 pickle.size
  have sizeIs : pickle.size = pickle.header_size + pickle.payload_size := rfl
  have size_le := region.size_le
  rw [region.size, region.start] at size_le
  exact ⟨le, by omega, size_le⟩

/-- The region after the caller has filled it. -/
theorem put_region {len : BitVec 32}
    (inv : Holds pickle chunks) (region : Region pickle next len data_ptr)
    (inside : filled.length <= len.toNat) :
    ∃ last, next.put data_ptr filled = some last ∧ Region pickle last len data_ptr ∧
      slice last.memory data_ptr filled.length = filled := by
  obtain ⟨le, behind, fits⟩ := region.alignUp_size_lt inv
  have start := region.start
  have within : data_ptr + filled.length <= next.memory.length := by omega
  have size : PickleBuffer.size
      { next with memory := store next.memory data_ptr filled } = next.size := by
    rw [PickleBuffer.size, payload_size_put within (by omega)]
    rfl
  refine ⟨_, put_eq within, ⟨?_, start, ?_, ?_, region.offset, ?_⟩, slice_store within⟩
  · exact region.keeps.trans ((keeps_put within region.keeps.capacity).of_le (by omega))
  · rw [size]
    exact region.size
  · rw [size, length_store within]
    exact region.size_le
  · rw [slice_store_of_apart within (.inl (by omega))]
    exact region.stored

theorem trimWriteData_region {len new_length : BitVec 32} {data_ptr : Nat}
    (inv : Holds pickle chunks) (region : Region pickle next len data_ptr)
    (nonneg : 0 <= len.toInt) :
    ∃ last, next.trimWriteData new_length = some last ∧
      Region pickle last (trimmed len (some new_length)) data_ptr ∧
      ∀ n, slice last.memory data_ptr n = slice next.memory data_ptr n := by
  obtain ⟨le, behind, fits⟩ := region.alignUp_size_lt inv
  have start := region.start
  rw [trimWriteData, region.offset, region.stored, ofBytes_bytesOf, if_pos (by omega), trimmed]
  split_ifs with invalid
  · exact ⟨next, rfl, region, fun _ => rfl⟩
  have isLength := toInt_eq_toNat nonneg
  have isNew := toInt_eq_toNat (show 0 <= new_length.toInt by omega)
  generalize resized : BitVec.ofInt 32
    (next.payload_size - (len.toInt - new_length.toInt)) = payload_size
  have small : next.payload_size < 2 ^ 32 := by exact BitVec.isLt _
  have isSize : next.size = next.header_size + next.payload_size := rfl
  have size := region.size
  have header : next.header_size <= alignUp 4 pickle.size := by
    rw [region.keeps.header_size]
    exact Nat.le_trans (Nat.le_add_right _ _) le
  have payload : payload_size.toNat + len.toNat = next.payload_size + new_length.toNat := by
    rw [← resized, BitVec.toNat_ofInt]
    omega
  have sets := keeps_setPayloadSize (show 4 <= next.memory.length by omega)
    region.keeps.capacity payload_size data_ptr
  have setLength : (next.setPayloadSize payload_size).memory.length = next.memory.length :=
    length_store (by rw [length_bytesOf]; omega)
  have within : alignUp 4 pickle.size + (bytesOf 4 new_length).length <=
      (next.setPayloadSize payload_size).memory.length := by
    rw [setLength, length_bytesOf]
    omega
  have keepsLast := region.keeps.trans ((sets.of_le (by omega)).trans
    ((keeps_put within sets.capacity).of_le le))
  have lastSize : PickleBuffer.size
      { next.setPayloadSize payload_size with
        memory := store (next.setPayloadSize payload_size).memory
          (alignUp 4 pickle.size) (bytesOf 4 new_length) } =
        data_ptr + new_length.toNat := by
    rw [PickleBuffer.size, payload_size_put within behind, payload_size_setPayloadSize (by omega)]
    dsimp only [setPayloadSize]
    omega
  refine ⟨_, put_eq within, ⟨keepsLast, start, lastSize, ?_, region.offset, ?_⟩, ?_⟩
  · rw [lastSize, length_store within, setLength]
    omega
  · have stored := slice_store within
    rwa [length_bytesOf] at stored
  · intro n
    rw [slice_store_of_apart within (.inr (by rw [length_bytesOf]; omega))]
    exact slice_store_of_apart (by rw [length_bytesOf]; omega)
      (.inr (by rw [length_bytesOf]; omega))

/-- A filled region is a length and a chunk. -/
theorem Region.holds {len : BitVec 32}
    (region : Region pickle next len data_ptr) (inv : Holds pickle chunks)
    (isFilled : len.toNat <= filled.length)
    (stored : slice next.memory data_ptr filled.length = filled) :
    Holds next (chunks ++ [bytesOf 4 len, filled.take len.toNat]) := by
  have size := region.size
  have isLength : (filled.take len.toNat).length = len.toNat := length_take_of_le isFilled
  refine inv.snoc_region region.keeps ?_ region.size_le region.stored ?_
  · rw [size, isLength, region.start]
  · have front := congrArg (List.take len.toNat) stored
    rw [slice, take_take, Nat.min_eq_left isFilled] at front
    rw [isLength, ← region.start]
    exact front

/-- What the caller puts into a region and trims is a length and a chunk. -/
theorem fillRegion_holds {len : BitVec 32} (inv : Holds pickle chunks)
    (region : Region pickle next len data_ptr) (nonneg : 0 <= len.toInt)
    (inside : filled.length <= len.toNat)
    (isFilled : (trimmed len new_length).toNat <= filled.length) :
    ∃ last, next.fillRegion data_ptr filled new_length = some last ∧
      Region pickle last (trimmed len new_length) data_ptr ∧
      Holds last (chunks ++ [bytesOf 4 (trimmed len new_length),
        filled.take (trimmed len new_length).toNat]) := by
  obtain ⟨full, puts, regionFull, stored⟩ := put_region inv region inside
  rw [fillRegion, puts, bind_eq_bind, bind_some]
  cases new_length with
  | none => exact ⟨full, rfl, regionFull, regionFull.holds inv isFilled stored⟩
  | some new_length =>
    obtain ⟨last, trims, regionLast, same⟩ :=
      @trimWriteData_region _ _ _ _ new_length _ inv regionFull nonneg
    refine ⟨last, trims, regionLast, regionLast.holds inv isFilled ?_⟩
    rw [same, stored]

/-- A `BeginWriteData` call and what the caller does with its region. -/
theorem wrote_region {len : BitVec 32} (inv : Holds pickle chunks) (nonneg : 0 <= len.toInt)
    (inside : filled.length <= len.toNat)
    (isFilled : (trimmed len new_length).toNat <= filled.length)
    (small : extent pickle.size [4, len.toNat] < 2 ^ 31) :
    ∃ next written, pickle.writeRegion p alloc len filled new_length = some (next, written) ∧
        Wrote alloc pickle next chunks [bytesOf 4 (trimmed len new_length),
            filled.take (trimmed len new_length).toNat] written := by
  have aligned := dvd_alignUp (show 0 < 4 by decide) pickle.size
  rcases @beginWriteData_cases p alloc _ _ _ inv nonneg small with
    ⟨next, others, begins, refuses, holdsNext, size_le⟩ |
    ⟨next, data_ptr, begins, region⟩
  · rw [writeRegion, begins, bind_eq_bind, bind_some]
    refine ⟨next, false, rfl, .refused others refuses holdsNext ?_⟩
    exact Nat.le_trans size_le (le_extent _)
  · obtain ⟨last, fills, regionLast, holdsLast⟩ :=
      fillRegion_holds inv region nonneg inside isFilled
    rw [writeRegion, begins, bind_eq_bind, bind_some]
    dsimp only
    rw [fills]
    refine ⟨last, true, rfl, .written holdsLast ?_⟩
    rw [regionLast.size, regionLast.start, map_cons, map_singleton,
      length_bytesOf, length_take_of_le isFilled]
    have isExtent : extent pickle.size [4, (trimmed len new_length).toNat] =
          alignUp 4 (alignUp 4 pickle.size + 4) + (trimmed len new_length).toNat := rfl
    rw [isExtent, alignUp_of_dvd (show 4 ∣ alignUp 4 pickle.size + 4 by omega)]

end Regions
end PickleBuffer

end

/-!
## Sequences of writes

The calls that write to a pickle, what each puts into the payload, and the call
that reads its value back.
-/

section

open Library

namespace WriteCall

variable {p : Platform}

/-- A call is accepted unless it has a negative length, which it checks. -/
def accepted : WriteCall p -> Bool
  | .data _ length => 0 <= length.toInt
  | .region length _ _ => 0 <= length.toInt
  | _ => true

/-- The call has as many bytes as it says, and a region is filled as far as it
is not trimmed. -/
def Permitted : WriteCall p -> Prop
  | .data given length => length.toInt <= given.length
  | .bytes given data_len => 0 <= data_len.toInt ∧ data_len.toNat <= given.length
  | .region length filled new_length =>
    0 <= length.toInt -> filled.length <= length.toNat ∧
        (trimmed length new_length).toNat <= filled.length
  | _ => True

/-- What a call puts into the payload. -/
def chunks : WriteCall p -> List Bytes
  | .bool value => [bytesOf 4 (if value then 1 else 0)]
  | .int value => [bytesOf 4 value]
  | .long value => [bytesOf p.long_size value]
  | .size value => [bytesOf p.size_t_size value]
  | .uint16 value => [bytesOf 2 value]
  | .uint32 value => [bytesOf 4 value]
  | .int64 value => [bytesOf 8 value]
  | .uint64 value => [bytesOf 8 value]
  | .string value => [bytesOf 4 (toInt value.length), value]
  | .wstring value => [bytesOf 4 (toInt value.length), unitBytes p.wchar_t_size value]
  | .string16 value => [bytesOf 4 (toInt value.length), unitBytes 2 value]
  | .data given length =>
    if 0 <= length.toInt then [bytesOf 4 length, given.take length.toNat]
    else []
  | .bytes given data_len => [given.take data_len.toNat]
  | .region length filled new_length =>
    if 0 <= length.toInt then
      [bytesOf 4 (trimmed length new_length), filled.take (trimmed length new_length).toNat]
    else []

theorem chunks_of_rejected {call : WriteCall p} (rejected : ¬ call.accepted = true) :
    call.chunks = [] := by
  cases call with
  | data given length => rw [chunks, if_neg (by rwa [accepted, decide_eq_true_eq] at rejected)]
  | region length filled new_length =>
    rw [chunks, if_neg (by rwa [accepted, decide_eq_true_eq] at rejected)]
  | _ => exact absurd rfl rejected

/-- The lengths of the parts of the payload that a call uses; a region has its
length until it is trimmed. -/
def lengths : WriteCall p -> List Nat
  | .region length _ _ => if 0 <= length.toInt then [4, length.toNat] else []
  | call => call.chunks.map List.length

/-- The call that reads what a call wrote. -/
def matching : WriteCall p -> ReadCall
  | .bool _ => .bool
  | .int _ => .int
  | .long _ => .long
  | .size _ => .size
  | .uint16 _ => .uint16
  | .uint32 _ => .uint32
  | .int64 _ => .int64
  | .uint64 _ => .uint64
  | .string _ => .string
  | .wstring _ => .wstring
  | .string16 _ => .string16
  | .data _ _ => .data
  | .bytes _ data_len => .bytes data_len
  | .region _ _ _ => .data

/-- The value that a call writes. -/
def value : WriteCall p -> Value p
  | .bool value => .bool value
  | .int value => .int value
  | .long value => .long value
  | .size value => .size value
  | .uint16 value => .uint16 value
  | .uint32 value => .uint32 value
  | .int64 value => .int64 value
  | .uint64 value => .uint64 value
  | .string value => .string value
  | .wstring value => .wstring value
  | .string16 value => .string16 value
  | .data given length => .data (given.take length.toNat)
  | .bytes given data_len => .data (given.take data_len.toNat)
  | .region length filled new_length => .data (filled.take (trimmed length new_length).toNat)

/-- The pickle has no more bytes than an `int` can count, at any time. -/
def Fits : Nat -> List (WriteCall p) -> Prop
  | _, [] => True
  | used, call :: rest =>
    PickleBuffer.extent used call.lengths < 2 ^ 31 ∧
      Fits (PickleBuffer.extent used (call.chunks.map List.length)) rest

end WriteCall

namespace PickleBuffer

section Runs

variable {p : Platform} {alloc : Allocator} {pickle : PickleBuffer} {chunks : List Bytes}

/-- What a call leaves: a call that is not accepted leaves the pickle. -/
def Result (alloc : Allocator) (pickle next : PickleBuffer)
    (chunks : List Bytes) (call : WriteCall p) (written : Bool) : Prop :=
  if call.accepted then Wrote alloc pickle next chunks call.chunks written
  else next = pickle ∧ written = false

theorem toInt_toNat (less : number < 2 ^ 31) :
    (toInt number).toNat = number ∧ 0 <= (toInt number).toInt := by
  have isInt := toInt_toInt_of_lt less
  have isNat := toInt_eq_toNat (show 0 <= (toInt number).toInt by omega)
  exact ⟨by omega, by omega⟩

/-- A length and all of the bytes behind it. -/
theorem wrote_lengthAndAll {data : Bytes} (inv : Holds pickle chunks)
    (small : extent pickle.size [4, data.length] < 2 ^ 31) (len : BitVec 32) :
    ∃ next written, pickle.writeLengthAndBytes p alloc len data
          (toInt data.length) = some (next, written) ∧
        Wrote alloc pickle next chunks [bytesOf 4 len, data] written := by
  have less : data.length < 2 ^ 31 := Nat.lt_of_le_of_lt (Nat.le_add_left data.length _) small
  obtain ⟨isNat, nonneg⟩ := toInt_toNat less
  have wrote := @wrote_lengthAndBytes p alloc pickle chunks data
    (toInt data.length) inv nonneg (by rw [isNat])
    (by rw [isNat]; exact small) len
  rwa [isNat, take_length] at wrote

theorem write_result {call : WriteCall p} (inv : Holds pickle chunks)
    (ok : call.Permitted) (small : extent pickle.size call.lengths < 2 ^ 31) :
    ∃ next written, pickle.write p alloc call = some (next, written) ∧
        Result alloc pickle next chunks call written := by
  have word := p.le_word
  have fixed : ∀ width (val : BitVec (8 * width)),
      extent pickle.size [(bytesOf width val).length] < 2 ^ 31 ->
      ∃ next written, pickle.writeFixed p alloc width val = some (next, written) ∧
          Wrote alloc pickle next chunks [bytesOf width val] written := by
    intro width val fits
    rw [length_bytesOf] at fits
    exact wrote_fixed inv fits val
  cases call with
  | bool val => exact fixed 4 _ small
  | int val => exact fixed 4 val small
  | long val => exact fixed p.long_size val small
  | size val => exact fixed p.size_t_size val small
  | uint16 val => exact fixed 2 val small
  | uint32 val => exact fixed 4 val small
  | int64 val => exact fixed 8 val small
  | uint64 val => exact fixed 8 val small
  | string val => exact wrote_lengthAndAll inv small (toInt val.length)
  | wstring val =>
    have less := Nat.lt_of_le_of_lt (Nat.le_add_left _ _) small
    rw [length_unitBytes] at less
    have isSize : p.toSize (val.length * p.wchar_t_size) =
        (unitBytes p.wchar_t_size val).length := by
      rw [← Int.natCast_mul, length_unitBytes]
      exact p.toSize_of_lt (by omega)
    have wrote := @wrote_lengthAndAll p alloc _ _ _ inv small (toInt val.length)
    rw [← isSize] at wrote
    exact wrote
  | string16 val =>
    have less := Nat.lt_of_le_of_lt (Nat.le_add_left _ _) small
    rw [length_unitBytes] at less
    have isSize : p.toSize ((toInt val.length).toInt * 2) = (unitBytes 2 val).length := by
      rw [toInt_toInt_of_lt (by omega), length_unitBytes]
      exact @Platform.toSize_of_lt p (val.length * 2) (by omega)
    have wrote := @wrote_lengthAndAll p alloc _ _ _ inv small (toInt val.length)
    rw [← isSize] at wrote
    exact wrote
  | data data len =>
    rw [write, writeData]
    by_cases nonneg : 0 <= len.toInt
    · have isNat := toInt_eq_toNat nonneg
      have enough : len.toNat <= data.length := by
        rw [WriteCall.Permitted, isNat] at ok
        omega
      simp only [WriteCall.lengths, WriteCall.chunks, if_pos nonneg,
        map_cons, map_nil, length_bytesOf,
        length_take_of_le enough] at small
      obtain ⟨next, written, writes, wrote⟩ := wrote_lengthAndBytes inv nonneg enough small len
      rw [if_pos nonneg]
      refine ⟨next, written, writes, ?_⟩
      rwa [Result, WriteCall.accepted, if_pos (decide_eq_true nonneg),
        WriteCall.chunks, if_pos nonneg]
    · rw [if_neg nonneg]
      refine ⟨pickle, false, rfl, ?_⟩
      rw [Result, WriteCall.accepted, if_neg (by rwa [decide_eq_true_eq])]
      exact ⟨rfl, rfl⟩
  | bytes data data_len =>
    obtain ⟨nonneg, enough⟩ := ok
    simp only [WriteCall.lengths, WriteCall.chunks, map_cons,
      map_nil, length_take_of_le enough] at small
    exact wrote_bytes inv nonneg enough small
  | region len filled new_length =>
    rw [write]
    by_cases nonneg : 0 <= len.toInt
    · obtain ⟨inside, isFilled⟩ := ok nonneg
      rw [WriteCall.lengths, if_pos nonneg] at small
      obtain ⟨next, written, writes, wrote⟩ := wrote_region inv nonneg inside isFilled small
      refine ⟨next, written, writes, ?_⟩
      rwa [Result, WriteCall.accepted, if_pos (decide_eq_true nonneg),
        WriteCall.chunks, if_pos nonneg]
    · rw [writeRegion, beginWriteData, if_pos (by omega)]
      refine ⟨pickle, false, rfl, ?_⟩
      rw [Result, WriteCall.accepted, if_neg (by rwa [decide_eq_true_eq])]
      exact ⟨rfl, rfl⟩

/-- The chunks of a call do not end behind the parts of the payload it uses. -/
theorem extent_chunks_le {call : WriteCall p} (ok : call.Permitted) :
    extent used (call.chunks.map List.length) <= extent used call.lengths := by
  cases call with
  | region length filled new_length =>
    rw [WriteCall.lengths, WriteCall.chunks]
    split_ifs with nonneg
    · have le := (trimmed_le nonneg new_length).2
      have taken : (filled.take (trimmed length new_length).toNat).length <= length.toNat :=
        Nat.le_trans (length_take_le _ _) le
      exact Nat.add_le_add_left taken _
    · exact Nat.le_refl _
  | _ => exact Nat.le_refl _

theorem fits_mono (fits : WriteCall.Fits used calls) (le : other <= used) :
    WriteCall.Fits other calls := by
  induction calls generalizing used other with
  | nil => trivial
  | cons call rest ih =>
    exact ⟨Nat.lt_of_le_of_lt (extent_mono le) fits.1, ih fits.2 (extent_mono le)⟩

/-- Where the chunks of a call end, whether it returned true or not. -/
theorem Result.state {next : PickleBuffer}
    (result : Result alloc pickle next chunks call written) (inv : Holds pickle chunks) :
    next.size <= extent pickle.size (call.chunks.map List.length) ∧ (∃ others, Holds next others) ∧
      (¬ alloc.Refuses -> written = call.accepted) ∧
      (written = call.accepted -> Holds next (chunks ++ call.chunks)) := by
  rw [Result] at result
  split_ifs at result with ok
  · rw [ok]
    cases result with
    | written holdsNext size =>
      exact ⟨Nat.le_of_eq size, ⟨_, holdsNext⟩, fun _ => rfl, fun _ => holdsNext⟩
    | refused others refuses holdsNext size_le =>
      exact ⟨size_le, ⟨others, holdsNext⟩, fun not => absurd refuses not,
        fun isTrue => absurd isTrue Bool.false_ne_true⟩
  · obtain ⟨rfl, rfl⟩ := result
    have isFalse : call.accepted = false := by rwa [Bool.not_eq_true] at ok
    refine ⟨le_extent _, ⟨chunks, inv⟩, fun _ => isFalse.symm, fun _ => ?_⟩
    rwa [WriteCall.chunks_of_rejected ok, append_nil]

/-- Calls return, and what they write is the payload. -/
theorem writeAll_spec {calls : List (WriteCall p)} {used : Nat}
    (inv : Holds pickle chunks) (within : pickle.size <= used)
    (small : used < 2 ^ 31) (ok : ∀ call ∈ calls, call.Permitted)
    (fits : WriteCall.Fits used calls) :
    ∃ next results, pickle.writeAll p alloc calls = some (next, results) ∧
      next.size < 2 ^ 31 ∧ (¬ alloc.Refuses -> results = calls.map WriteCall.accepted) ∧
      (results = calls.map WriteCall.accepted ->
        Holds next (chunks ++ calls.flatMap WriteCall.chunks)) := by
  induction calls generalizing pickle chunks used with
  | nil =>
    refine ⟨pickle, [], rfl, Nat.lt_of_le_of_lt within small, fun _ => rfl, fun _ => ?_⟩
    rwa [flatMap_nil, append_nil]
  | cons call rest ih =>
    have permittedCall := ok call mem_cons_self
    obtain ⟨fitsCall, fitsRest⟩ := fits_mono fits within
    obtain ⟨middle, written, writes, result⟩ :=
      @write_result p alloc _ _ _ inv permittedCall fitsCall
    obtain ⟨size_le, ⟨others, holdsOthers⟩, all, holdsMiddle⟩ := result.state inv
    have smallMiddle := Nat.lt_of_le_of_lt (extent_chunks_le permittedCall) fitsCall
    have permittedRest : ∀ call ∈ rest, call.Permitted := (forall_mem_cons.mp ok).2
    by_cases isWritten : written = call.accepted
    · obtain ⟨next, results, writesRest, smallNext, allRest, holdsNext⟩ :=
        ih (holdsMiddle isWritten) size_le smallMiddle permittedRest fitsRest
      refine ⟨next, written :: results, ?_, smallNext, ?_, ?_⟩
      · rw [writeAll, writes, bind_eq_bind, bind_some]
        dsimp only
        rw [writesRest]
        rfl
      · intro accepts
        rw [map_cons, isWritten, allRest accepts]
      · intro accepts
        have isHolds := holdsNext (List.cons.inj accepts).2
        rwa [append_assoc] at isHolds
    · -- A call was refused: what it left may not be what the call writes.
      obtain ⟨next, results, writesRest, smallNext, _, _⟩ :=
        ih holdsOthers size_le smallMiddle permittedRest fitsRest
      refine ⟨next, written :: results, ?_, smallNext, ?_, ?_⟩
      · rw [writeAll, writes, bind_eq_bind, bind_some]
        dsimp only
        rw [writesRest]
        rfl
      · exact fun accepts => absurd (all accepts) isWritten
      · exact fun accepts => absurd (List.cons.inj accepts).1 isWritten

theorem create_holds {header_size : Nat} (enough : 4 <= header_size)
    (short : header_size <= kPayloadUnit)
    (creates : create p alloc header_size = some pickle) :
    Holds pickle [] ∧ pickle.size = alignUp 4 header_size := by
  have unit : kPayloadUnit = 64 := rfl
  have word := p.le_word
  have whole := dvd_alignUp (show 0 < 4 by decide) header_size
  have le := le_alignUp 4 header_size
  have bound := alignUp_le (show 0 < 4 by decide) short (by decide)
  rw [create, resize] at creates
  rw [show Pickle.alignInt kPayloadUnit kPayloadUnit = 64 from rfl,
    p.toSize_of_lt (by omega)] at creates
  cases allocates : alloc.realloc [] 64 with
  | none =>
    rw [allocates] at creates
    cases creates
  | some memory =>
    rw [allocates] at creates
    obtain rfl := some.inj creates
    have len := alloc.length_realloc allocates
    have keeps := @keeps_setPayloadSize
      { memory := memory
        header_size := Pickle.alignInt header_size 4
        variable_buffer_offset := 0 }
      (by dsimp only; omega) (by dsimp only; rw [len]; decide) 0 0
    have isSize := @payload_size_setPayloadSize
      { memory := memory
        header_size := Pickle.alignInt header_size 4
        variable_buffer_offset := 0 }
      (by dsimp only; omega) 0
    have size : PickleBuffer.size (PickleBuffer.setPayloadSize
        { memory := memory
          header_size := Pickle.alignInt header_size 4
          variable_buffer_offset := 0 } 0) = alignUp 4 header_size := by
      rfl
    refine ⟨⟨whole, Nat.le_trans enough le, keeps.capacity, ?_, ?_⟩, size⟩
    · rw [size, setPayloadSize, length_store (by
        rw [length_bytesOf]
        dsimp only
        omega), len]
      omega
    · rw [size]
      exact alignUp_of_dvd whole

end Runs
end PickleBuffer

end

end Chromium.Base
