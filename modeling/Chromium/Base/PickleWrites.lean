import Chromium.Base.Pickle
import Mathlib.Data.List.Chain

/-!
# Reads stay in the buffer

Whatever the bytes of a buffer are, no read of a pickle that refers to it loads
a byte outside it, and the iterator only moves forward.
-/

namespace Chromium.Base

open List hiding after count iter sum take

section

open Library

namespace Platform

variable (p : Platform)

/-- An address or a `size_t` has at least 32 bits. -/
theorem le_word : 2 ^ 32 <= 2 ^ (8 * p.size_t_size) := by
  rcases p.size_t_size_eq with size | size
  · rw [size]
  · rw [size]
    decide

theorem toSize_natCast (n : Nat) : p.toSize n = n % 2 ^ (8 * p.size_t_size) := by
  rw [toSize, ← Nat.cast_ofNat, ← Nat.cast_pow, ← Int.natCast_mod, Int.toNat_natCast]

theorem toSize_of_lt {n : Nat} (less : n < 2 ^ (8 * p.size_t_size)) :
    p.toSize n = n := by
  rw [toSize_natCast, Nat.mod_eq_of_lt less]

end Platform

theorem toInt_toInt_of_lt (less : number < 2 ^ 31) : (toInt number).toInt = number := by
  have toNat : (toInt number).toNat = number := by
    rw [toInt, BitVec.toNat_ofNat]
    omega
  rw [BitVec.toInt_eq_toNat_cond, toNat, if_pos (by omega)]

theorem toInt_toInt_neg (le : 2 ^ 31 <= number) (less : number < 2 ^ 32) :
    (toInt number).toInt < 0 := by
  have toNat : (toInt number).toNat = number := by
    rw [toInt, BitVec.toNat_ofNat]
    omega
  rw [BitVec.toInt_eq_toNat_cond, toNat, if_neg (by omega)]
  omega

/-- An `int` that is not negative is its unsigned number. -/
theorem toInt_eq_toNat {val : BitVec 32} (nonneg : 0 <= val.toInt) :
    val.toInt = val.toNat := by
  rw [BitVec.toInt_eq_toNat_cond] at nonneg ⊢
  split_ifs at nonneg ⊢ with small
  · rfl
  · have := val.isLt
    omega

theorem toInt_lt (val : BitVec 32) : val.toInt < 2 ^ 31 := by
  rw [BitVec.toInt_eq_toNat_cond]
  split_ifs <;> omega

/-- The `int` of a length is at most the length. -/
theorem toInt_toInt_le : (toInt number).toInt <= number := by
  have toNat : (toInt number).toNat = number % 2 ^ 32 := by rw [toInt, BitVec.toNat_ofNat]
  rw [BitVec.toInt_eq_toNat_cond, toNat]
  split_ifs <;> omega

theorem alignInt_eq (n : Nat) : Pickle.alignInt n 4 = alignUp 4 n := rfl

namespace PickleView

/-- A pickle refers to a part of a buffer, which ends at an address; a null
pickle refers to no bytes. -/
structure Sound {p : Platform} (buffer : Buffer p) (view : PickleView) (end_ : Nat) : Prop where
  endOfPayload : endOfPayload buffer view = some end_
  in_memory : end_ + 3 < 2 ^ (8 * p.size_t_size)
  loads : ∀ iter count, view.header <= iter -> iter + count <= end_ ->
      ∃ bytes, load buffer iter count = some bytes

section Safety

variable {p : Platform} {buffer : Buffer p} {view : PickleView} {end_ iter : Nat}

theorem advance_of_lt {ptr bytes : Nat} (less : ptr + bytes < 2 ^ (8 * p.size_t_size)) :
    advance p ptr bytes = ptr + bytes := by
  exact p.toSize_of_lt less

theorem load_of_inside (after : buffer.address <= address)
    (inside : address + count <= buffer.address + buffer.bytes.length) :
    load buffer address count = some (slice buffer.bytes (address - buffer.address) count) := by
  rw [load]
  split_ifs with nothing
  · subst nothing
    rw [slice, take_zero]
  · rfl
  · exact absurd (And.intro after inside) ‹_›

theorem sound_null : Sound buffer { header := 0, header_size := 0 } 0 where
  endOfPayload := rfl
  in_memory := by
    have := p.le_word
    omega
  loads := by
    intro iter n _ inside
    have nothing : n = 0 := by omega
    exact ⟨[], by rw [load, if_pos nothing]⟩

/-- A pickle whose header and payload are in the buffer. -/
theorem sound_of_inside {header_size : Nat} (not_null : 4 <= header_size)
    (inside : header_size + (ofBytes 4 (slice buffer.bytes 0 4)).toNat <= buffer.bytes.length) :
    Sound buffer { header := buffer.address, header_size := header_size } (buffer.address +
        (header_size + (ofBytes 4 (slice buffer.bytes 0 4)).toNat)) := by
  have in_memory := buffer.in_memory
  have pos : 0 < buffer.address := by
    apply buffer.not_null
    rintro nothing
    rw [nothing, length_nil] at inside
    omega
  refine ⟨?_, by omega, ?_⟩
  · have loads := @load_of_inside p buffer buffer.address 4 (Nat.le_refl _) (by omega)
    rw [Nat.sub_self] at loads
    rw [PickleView.endOfPayload, if_neg (Nat.ne_of_gt pos), loads,
      Option.bind_eq_bind, Option.bind_some, payload,
      @advance_of_lt p buffer.address header_size (by omega),
      advance_of_lt (by omega), Nat.add_assoc]
  · intro iter n after before
    exact ⟨_, load_of_inside after (Nat.le_trans before (by omega))⟩

/-- A pickle with less than a header is null. -/
theorem create_null (short : data_len.toInt < 4) :
    create buffer data_len = some { header := 0, header_size := 0 } := by
  rw [create, if_neg (Int.not_le.mpr short)]
  simp only [Option.bind_eq_bind, Option.bind_some]
  rw [if_pos]
  split_ifs <;> rfl

/-- Whatever the bytes are, the constructor returns. -/
theorem create_sound {data_len : BitVec 32} (inside : data_len.toInt <= buffer.bytes.length) :
    ∃ view end_, create buffer data_len = some view ∧ Sound buffer view end_ := by
  by_cases long : data_len.toInt ≥ 4
  · have isNat := toInt_eq_toNat (show 0 <= data_len.toInt by omega)
    have loads := @load_of_inside p buffer buffer.address 4 (Nat.le_refl _) (by omega)
    rw [Nat.sub_self] at loads
    rw [create, if_pos long, loads]
    simp only [Option.bind_eq_bind, Option.bind_some]
    generalize sizeIs : (data_len - ofBytes 4 (slice buffer.bytes 0 4)).toNat = header_size
    by_cases more : header_size > data_len.toNat
    · rw [if_pos more]
      exact ⟨_, _, rfl, sound_null⟩
    by_cases unaligned : header_size ≠ Pickle.alignInt header_size 4
    · rw [if_neg more, if_pos unaligned]
      exact ⟨_, _, rfl, sound_null⟩
    by_cases null : header_size = 0
    · rw [if_neg more, if_neg unaligned, if_pos null]
      exact ⟨_, _, rfl, sound_null⟩
    rw [if_neg more, if_neg unaligned, if_neg null]
    refine ⟨_, _, rfl, sound_of_inside ?_ ?_⟩
    · have whole : 4 ∣ header_size := by
        rw [not_not.mp unaligned, alignInt_eq]
        exact dvd_alignUp (by decide) _
      omega
    · rw [BitVec.toNat_sub] at sizeIs
      omega
  · exact ⟨_, _, create_null (Int.not_le.mp long), sound_null⟩

/-- There is room for a length if it ends in front of the end. -/
theorem iteratorHasRoomFor_eq (sound : Sound buffer view end_) (small : len < 2 ^ 31) :
    iteratorHasRoomFor buffer view iter len =
      some (decide (0 <= len ∧ view.header <= iter ∧ iter + len <= end_)) := by
  have in_memory := sound.in_memory
  have word := p.le_word
  rw [iteratorHasRoomFor, sound.endOfPayload]
  simp only [Option.bind_eq_bind, Option.bind_some]
  split_ifs with outside behind
  · rw [decide_eq_false (by omega)]
  · rw [decide_eq_false (by omega)]
  · obtain ⟨n, rfl⟩ := Int.eq_ofNat_of_zero_le (show 0 <= len by omega)
    rw [Int.toNat_natCast, advance, ← Int.natCast_add, p.toSize_natCast, Option.some_inj]
    apply decide_eq_decide.mpr
    rcases Nat.lt_or_ge (iter + n) (2 ^ (8 * p.size_t_size)) with fits | wraps
    · rw [Nat.mod_eq_of_lt fits]
      omega
    · -- The sum wraps below the iterator.
      rw [Nat.mod_eq_sub_mod wraps, Nat.mod_eq_of_lt (by omega)]
      omega

/-- A read that has an outcome and does not move the iterator back. -/
def Forward (iter : Nat) (read : Option (Read α)) : Prop :=
  ∃ value next, read = some (value, next) ∧ iter <= next

theorem Forward.map {read : Option (Read α)} (forward : Forward iter read)
    (change : Option α -> Option β) :
    Forward iter (read.bind fun (val, next) => some (change val, next)) := by
  obtain ⟨val, next, rfl, le⟩ := forward
  exact ⟨change val, next, rfl, le⟩

theorem Forward.typed {read : Option (Read α)} (forward : Forward iter read) (tag : α -> Value p) :
    Forward iter (typed tag read) := by
  obtain ⟨val, next, rfl, le⟩ := forward
  exact ⟨val.map tag, next, rfl, le⟩

theorem Forward.of_le {read : Option (Read α)} (forward : Forward iter read) (le : first <= iter) :
    Forward first read := by
  obtain ⟨val, next, isRead, le'⟩ := forward
  exact ⟨val, next, isRead, Nat.le_trans le le'⟩

theorem updateIter_eq (sound : Sound buffer view end_) (inside : iter + len <= end_) :
    updateIter p iter len = iter + alignUp 4 len := by
  have in_memory := sound.in_memory
  have less := alignUp_lt (show 0 < 4 by decide) len
  rw [updateIter, @Platform.toSize_of_lt p len (by omega), alignInt_eq,
    p.toSize_of_lt (by omega), advance_of_lt (by omega)]

theorem take_of_room (sound : Sound buffer view end_)
    (small : len < 2 ^ 31) (after : view.header <= iter) (inside : iter + len <= end_)
    (loads : load buffer iter count = some bytes) :
    take buffer view iter len count = some (some bytes, iter + alignUp 4 len) := by
  rw [take, iteratorHasRoomFor_eq sound (by omega), decide_eq_true ⟨by omega, after, by omega⟩]
  simp only [Option.bind_eq_bind, Option.bind_some, if_true]
  rw [loads, Option.bind_some, updateIter_eq sound inside]

theorem take_of_no_room {len : Int} (sound : Sound buffer view end_) (small : len < 2 ^ 31)
    (outside : ¬(0 <= len ∧ view.header <= iter ∧ iter + len <= end_)) (n : Nat) :
    take buffer view iter len n = some (none, iter) := by
  rw [take, iteratorHasRoomFor_eq sound small, decide_eq_false outside]
  rfl

theorem take_forward {len : Int} (sound : Sound buffer view end_) (small : len < 2 ^ 31)
    (counts : 0 <= len -> n = len.toNat) :
    Forward iter (take buffer view iter len n) := by
  by_cases room : 0 <= len ∧ view.header <= iter ∧ iter + len <= end_
  · obtain ⟨nonneg, after, inside⟩ := room
    obtain ⟨number, rfl⟩ := Int.eq_ofNat_of_zero_le nonneg
    rw [counts nonneg, Int.toNat_natCast]
    obtain ⟨bytes, loads⟩ := sound.loads iter number after (by omega)
    exact ⟨_, _, take_of_room sound (by omega) after (by omega) loads, Nat.le_add_right _ _⟩
  · exact ⟨_, _, take_of_no_room sound small room n, Nat.le_refl _⟩

theorem le_start (iter : Nat) : iter <= start p view iter := by
  rw [start]
  split_ifs with null
  · omega
  · exact Nat.le_refl _

theorem readFixed_forward (sound : Sound buffer view end_) (small : width < 2 ^ 31) :
    Forward iter (readFixed buffer view width iter) := by
  have forward := @take_forward p buffer view end_
    (start p view iter) width width sound (by omega) fun _ => by omega
  exact (forward.map (Option.map (ofBytes width))).of_le (le_start _)

theorem readLength_forward (sound : Sound buffer view end_) :
    Forward iter (readLength buffer view iter) :=
  (@readFixed_forward p buffer view end_ iter 4 sound (by decide)).map (Option.filter (·.toInt ≥ 0))

/-- A length that is read is not negative. -/
theorem readLength_nonneg {next : Nat}
    (reads : readLength buffer view iter = some (some len, next)) : 0 <= len.toInt := by
  rw [readLength, Option.bind_eq_bind, Option.bind_eq_some_iff] at reads
  obtain ⟨⟨result, _⟩, _, isLen⟩ := reads
  rw [Option.some_inj, Prod.mk.injEq, Option.filter_eq_some_iff] at isLen
  exact of_decide_eq_true isLen.1.2

section

variable (sound : Sound buffer view end_)
include sound

theorem afterLength_forward {read : BitVec 32 -> Nat -> Option (Read α)}
    (forward : ∀ len iter, 0 <= len.toInt -> Forward iter (read len iter)) :
    Forward iter (afterLength buffer view iter read) := by
  obtain ⟨val, next, reads, le⟩ := @readLength_forward _ _ _ _ iter sound
  rw [afterLength, reads, Option.bind_eq_bind, Option.bind_some]
  cases val with
  | none => exact ⟨none, next, rfl, le⟩
  | some len => exact (forward len next (readLength_nonneg reads)).of_le le

theorem takeUnits_forward {len : BitVec 32} (nonneg : 0 <= len.toInt)
    (fits : len.toNat * width < 2 ^ 32) :
    Forward iter (takeUnits buffer view width len iter) := by
  have word := p.le_word
  have isSize : p.toSize (len.toInt * width) = len.toNat * width := by
    rw [toInt_eq_toNat nonneg, ← Int.natCast_mul]
    exact p.toSize_of_lt (by omega)
  apply Forward.map
  apply take_forward sound (toInt_lt _)
  rw [isSize]
  intro isNonneg
  rcases Nat.lt_or_ge (len.toNat * width) (2 ^ 31) with small | big
  · rw [toInt_toInt_of_lt small, Int.toNat_natCast]
  · exact absurd isNonneg (Int.not_le.mpr (toInt_toInt_neg big fits))

theorem readBytes_forward {len : BitVec 32} :
    Forward iter (readBytes buffer view len iter) := by
  have forward := @take_forward p buffer view end_
    (start p view iter) len.toNat len.toInt sound (toInt_lt _)
  refine (forward ?_).of_le (le_start _)
  intro nonneg
  rw [toInt_eq_toNat nonneg, Int.toNat_natCast]

theorem read_forward (call : ReadCall) : Forward iter (read buffer view iter call) := by
  have fixed : ∀ width < 2 ^ 31, Forward iter (readFixed buffer view width iter) :=
    fun width small => readFixed_forward sound small
  cases call with
  | bool => exact ((fixed 4 (by decide)).map
      (Option.map fun tmp => decide (tmp ≠ 0))).typed _
  | int => exact (fixed 4 (by decide)).typed _
  | long =>
    refine (fixed p.long_size ?_).typed _
    rcases p.long_size_eq with size | size <;> omega
  | size =>
    refine (fixed p.size_t_size ?_).typed _
    rcases p.size_t_size_eq with size | size <;> omega
  | uint16 => exact (fixed 2 (by decide)).typed _
  | uint32 => exact (fixed 4 (by decide)).typed _
  | int64 => exact (fixed 8 (by decide)).typed _
  | uint64 => exact (fixed 8 (by decide)).typed _
  | string =>
    refine (afterLength_forward sound ?_).typed _
    intro len iter nonneg
    apply take_forward sound (toInt_lt _)
    rw [toInt_eq_toNat nonneg, Int.toNat_natCast]
    exact fun _ => rfl
  | wstring =>
    refine (afterLength_forward sound ?_).typed _
    intro len iter nonneg
    split_ifs with long
    · exact ⟨none, iter, rfl, Nat.le_refl _⟩
    · apply takeUnits_forward sound nonneg
      rw [toInt_eq_toNat nonneg] at long
      rcases p.wchar_t_size_eq with size | size <;> rw [size] at long ⊢ <;> omega
  | string16 =>
    refine (afterLength_forward sound ?_).typed _
    intro len iter nonneg
    apply takeUnits_forward sound nonneg
    have := toInt_lt len
    rw [toInt_eq_toNat nonneg] at this
    omega
  | data =>
    refine (afterLength_forward sound ?_).typed _
    intro len iter _
    exact readBytes_forward sound
  | bytes length => exact (readBytes_forward sound).typed _
  | length => exact (readLength_forward sound).typed _

/-- Every call of a sequence returns, and none moves the iterator back. -/
theorem readAll_forward (calls : List ReadCall) :
    ∃ results, readAll buffer view iter calls = some results ∧ results.length = calls.length ∧
        (iter :: results.map Prod.snd).IsChain (· <= ·) := by
  induction calls generalizing iter with
  | nil => exact ⟨[], rfl, rfl, .singleton iter⟩
  | cons call rest ih =>
    obtain ⟨val, next, reads, le⟩ := @read_forward _ _ _ _ iter sound call
    obtain ⟨results, readsRest, len, forward⟩ := @ih next
    refine ⟨(val, next) :: results, ?_, congrArg Nat.succ len,
      isChain_cons_cons.mpr ⟨le, forward⟩⟩
    rw [readAll, reads, Option.bind_eq_bind, Option.bind_some, readsRest]
    rfl

end

end Safety
end PickleView

end

/-!
## What writes leave in memory

Each write puts chunks behind those that are in the payload, or is refused
because memory cannot be allocated.
-/

section

open Library

/-- The allocator has no memory for a request. -/
def Allocator.Refuses (alloc : Allocator) : Prop :=
  ∃ memory size, alloc.realloc memory size = none

namespace PickleBuffer

/-- The payload of a pickle consists of chunks. -/
structure Holds (pickle : PickleBuffer) (chunks : List Bytes) : Prop where
  header_aligned : 4 ∣ pickle.header_size
  header : 4 <= pickle.header_size
  capacity : kPayloadUnit ∣ pickle.memory.length
  size_le : pickle.size <= pickle.memory.length
  packed : Packed 4 pickle.memory pickle.header_size pickle.size chunks

/-- The cells behind the payload size and in front of a limit are as they
were. -/
structure Keeps (pickle next : PickleBuffer) (limit : Nat) : Prop where
  header_size : next.header_size = pickle.header_size
  capacity : kPayloadUnit ∣ next.memory.length
  cells : ∀ start count, 4 <= start -> start + count <= limit ->
      slice next.memory start count = slice pickle.memory start count

section Writes

variable {p : Platform} {alloc : Allocator} {pickle next last : PickleBuffer} {chunks : List Bytes}

theorem Keeps.trans (first : Keeps pickle next limit) (second : Keeps next last limit) :
    Keeps pickle last limit where
  header_size := second.header_size.trans first.header_size
  capacity := second.capacity
  cells := fun start n behind inside =>
    (second.cells start n behind inside).trans (first.cells start n behind inside)

theorem Keeps.of_le (keeps : Keeps pickle next limit) (le : less <= limit) :
    Keeps pickle next less where
  header_size := keeps.header_size
  capacity := keeps.capacity
  cells := fun start n behind inside => keeps.cells start n behind (Nat.le_trans inside le)

/-- The chunks are still there if their cells are kept. -/
theorem Holds.packed_of_keeps (inv : Holds pickle chunks)
    (keeps : Keeps pickle next pickle.size) :
    Packed 4 next.memory next.header_size pickle.size chunks := by
  rw [keeps.header_size]
  apply inv.packed.congr
  intro start n behind inside
  exact keeps.cells start n (Nat.le_trans inv.header behind) inside

theorem payload_size_setPayloadSize (inside : 4 ≤ pickle.memory.length) (payload_size : BitVec 32) :
    (pickle.setPayloadSize payload_size).payload_size = payload_size.toNat := by
  have len := length_bytesOf 4 payload_size
  have written := @slice_store _ pickle.memory (bytesOf 4 payload_size) 0 (by rw [len]; omega)
  rw [len] at written
  rw [PickleBuffer.payload_size, setPayloadSize, written, ofBytes_bytesOf]

theorem keeps_setPayloadSize (inside : 4 <= pickle.memory.length)
    (capacity : kPayloadUnit ∣ pickle.memory.length) (payload_size : BitVec 32) (limit : Nat) :
    Keeps pickle (pickle.setPayloadSize payload_size) limit where
  header_size := rfl
  capacity := by
    rw [setPayloadSize, length_store (by rw [length_bytesOf]; omega)]
    exact capacity
  cells := by
    intro start n behind _
    apply slice_store_of_apart (by rw [length_bytesOf]; omega)
    right
    rw [length_bytesOf]
    omega

theorem put_eq {data : Bytes} (inside : start + data.length <= pickle.memory.length) :
    pickle.put start data = some { pickle with memory := store pickle.memory start data } := by
  rw [put, if_pos ⟨by omega, by omega⟩, Int.toNat_natCast]

theorem keeps_put {data : Bytes} (inside : start + data.length <= pickle.memory.length)
    (capacity : kPayloadUnit ∣ pickle.memory.length) :
    Keeps pickle { pickle with memory := store pickle.memory start data } start where
  header_size := rfl
  capacity := by
    rw [length_store inside]
    exact capacity
  cells := fun _ _ _ before => slice_store_of_apart inside (.inl before)

/-- A write behind the header does not change the payload size. -/
theorem payload_size_put {data : Bytes} (inside : start + data.length <= pickle.memory.length)
    (behind : 4 <= start) :
    payload_size { pickle with memory := store pickle.memory start data } =
      pickle.payload_size := by
  rw [payload_size, payload_size, slice_store_of_apart inside (.inl behind)]

/-- A new capacity is a multiple of the unit, and enough. -/
theorem resize_capacity {capacity needed_size : Nat} (whole : kPayloadUnit ∣ capacity)
    (small : needed_size + kPayloadUnit <= 2 ^ 32) :
    let new_capacity := p.toSize (Pickle.alignInt
      (max (p.toSize (capacity * 2)) needed_size : Nat) kPayloadUnit)
    needed_size <= new_capacity ∧ kPayloadUnit ∣ new_capacity := by
  have word := p.le_word
  have wordWhole : kPayloadUnit ∣ 2 ^ (8 * p.size_t_size) := by
    rw [show kPayloadUnit = 2 ^ 6 from rfl]
    apply Nat.pow_dvd_pow
    rcases p.size_t_size_eq with size | size <;> omega
  have isAligned : ∀ n, Pickle.alignInt n kPayloadUnit = alignUp kPayloadUnit n :=
    fun _ => rfl
  have doubled : p.toSize (capacity * 2) = (capacity * 2) % 2 ^ (8 * p.size_t_size) := by
    have := p.toSize_natCast (capacity * 2)
    rwa [Int.natCast_mul] at this
  rcases Nat.le_total needed_size (p.toSize (capacity * 2)) with enough | more
  · have less : p.toSize (capacity * 2) < 2 ^ (8 * p.size_t_size) := by
      rw [doubled]
      exact Nat.mod_lt _ (by omega)
    have isWhole : kPayloadUnit ∣ p.toSize (capacity * 2) := by
      rw [doubled, Nat.dvd_mod_iff wordWhole]
      exact Dvd.dvd.mul_right whole 2
    rw [Nat.max_eq_left enough, isAligned, alignUp_of_dvd isWhole, p.toSize_of_lt less]
    exact ⟨enough, isWhole⟩
  · have less := alignUp_lt (show 0 < kPayloadUnit by decide) needed_size
    rw [Nat.max_eq_right more, isAligned, p.toSize_of_lt (by omega)]
    exact ⟨le_alignUp _ _, dvd_alignUp (by decide) _⟩

/-- The memory is enlarged if it must be, or that is refused. -/
theorem reserve_cases {needed_size : Nat} (inv : Holds pickle chunks)
    (small : needed_size + kPayloadUnit <= 2 ^ 32) (grows : pickle.size <= needed_size) :
    (pickle.reserve p alloc needed_size = (pickle, false) ∧ alloc.Refuses) ∨
    ∃ next, pickle.reserve p alloc needed_size = (next, true) ∧
      Keeps pickle next pickle.size ∧ needed_size <= next.memory.length := by
  rw [reserve]
  split_ifs with more
  · obtain ⟨enough, whole⟩ := @resize_capacity p pickle.capacity _ inv.capacity small
    rw [resize]
    cases allocates : alloc.realloc pickle.memory (p.toSize
        (Pickle.alignInt (max (p.toSize (pickle.capacity * 2)) needed_size) kPayloadUnit)) with
    | none => exact .inl ⟨rfl, _, _, allocates⟩
    | some memory =>
      have length_memory := alloc.length_realloc allocates
      refine .inr ⟨{ pickle with memory := memory }, rfl, ⟨rfl, ?_, ?_⟩, ?_⟩
      · rw [length_memory]
        exact whole
      · intro start n _ inside
        have size_le := inv.size_le
        exact alloc.keeps allocates (by omega) (by omega)
      · rw [length_memory]
        exact enough
  · refine .inr ⟨pickle, rfl, ⟨rfl, inv.capacity, fun _ _ _ _ => rfl⟩, ?_⟩
    exact Nat.le_of_not_lt more

theorem Holds.alignUp_size (inv : Holds pickle chunks) : alignUp 4 pickle.size =
      pickle.header_size + alignUp 4 pickle.payload_size :=
  alignUp_add inv.header_aligned

/-- `BeginWrite` makes room behind the payload, or is refused. -/
theorem beginWrite_cases {len : Nat} (inv : Holds pickle chunks)
    (small : alignUp 4 pickle.size + len + kPayloadUnit <= 2 ^ 32) :
    (pickle.beginWrite p alloc len = (pickle, none) ∧ alloc.Refuses) ∨
    ∃ next, pickle.beginWrite p alloc len = (next, some (alignUp 4 pickle.size)) ∧
      Keeps pickle next pickle.size ∧ next.size = alignUp 4 pickle.size + len ∧
      next.size <= next.memory.length := by
  have word := p.le_word
  have unit : kPayloadUnit = 64 := rfl
  have header := inv.header
  have le := le_alignUp 4 pickle.size
  have aligned := inv.alignUp_size
  have off : p.toSize (Pickle.alignInt pickle.payload_size 4) =
      alignUp 4 pickle.payload_size := by
    rw [alignInt_eq]
    exact p.toSize_of_lt (by omega)
  have new_size : p.toSize ((alignUp 4 pickle.payload_size : Nat) + (len : Nat)) =
        alignUp 4 pickle.payload_size + len := by
    exact p.toSize_of_lt (by omega)
  have needed : p.toSize ((pickle.header_size : Nat) +
      (alignUp 4 pickle.payload_size + len : Nat)) = alignUp 4 pickle.size + len := by
    rw [← Int.natCast_add, p.toSize_of_lt (by omega), aligned, Nat.add_assoc]
  rw [beginWrite, off, new_size, needed]
  rcases @reserve_cases p alloc _ _ _ inv small (by omega) with
    ⟨reserves, refuses⟩ | ⟨next, reserves, keeps, room⟩
  · rw [reserves]
    exact .inl ⟨rfl, refuses⟩
  · have inside : 4 <= next.memory.length := by omega
    have payload : (next.setPayloadSize
        (toInt (alignUp 4 pickle.payload_size + len))).payload_size =
          alignUp 4 pickle.payload_size + len := by
      rw [payload_size_setPayloadSize inside, toInt, BitVec.toNat_ofNat]
      exact Nat.mod_eq_of_lt (by omega)
    have isSize : (next.setPayloadSize (toInt (alignUp 4 pickle.payload_size + len))).size =
          alignUp 4 pickle.size + len := by
      rw [size, payload, aligned, ← keeps.header_size, Nat.add_assoc]
      rfl
    rw [reserves]
    refine .inr ⟨_, ?_, keeps.trans (keeps_setPayloadSize inside keeps.capacity _ _), isSize, ?_⟩
    · rw [aligned, ← keeps.header_size]
    · rw [isSize, setPayloadSize, length_store (by rw [length_bytesOf]; omega)]
      exact room

/-- `EndWrite` fills the word in which a write ends. -/
theorem endWrite_keeps {dest len : Nat} (capacity : kPayloadUnit ∣ pickle.memory.length)
    (behind : 4 <= dest) (aligned : 4 ∣ dest) (inside : dest + len <= pickle.memory.length)
    (small : len < 2 ^ 31) :
    ∃ next, pickle.endWrite p dest len = some next ∧ Keeps pickle next (dest + len) ∧
      next.payload_size = pickle.payload_size ∧ next.memory.length = pickle.memory.length ∧
      next.variable_buffer_offset = pickle.variable_buffer_offset := by
  have word := p.le_word
  rw [endWrite, p.toSize_of_lt (show len < _ by omega)]
  split_ifs with part
  · have padding : dest + len + (replicate (4 - len % 4) (0 : UInt8)).length <=
          pickle.memory.length := by
      rw [length_replicate]
      rw [kPayloadUnit] at capacity
      omega
    rw [← Int.natCast_add, put_eq padding]
    refine ⟨_, rfl, keeps_put padding capacity, payload_size_put padding (by omega), ?_, rfl⟩
    rw [length_store padding]
  · exact ⟨pickle, rfl, ⟨rfl, capacity, fun _ _ _ _ => rfl⟩, rfl, rfl, rfl⟩

/-- A chunk was put behind the payload of a pickle. -/
structure Appended (pickle next : PickleBuffer) (chunk : Bytes) : Prop where
  keeps : Keeps pickle next pickle.size
  size : next.size = alignUp 4 pickle.size + chunk.length
  size_le : next.size <= next.memory.length
  stored : slice next.memory (alignUp 4 pickle.size) chunk.length = chunk

theorem Holds.snoc (inv : Holds pickle chunks) (appended : Appended pickle next chunk) :
    Holds next (chunks ++ [chunk]) where
  header_aligned := by
    rw [appended.keeps.header_size]
    exact inv.header_aligned
  header := by
    rw [appended.keeps.header_size]
    exact inv.header
  capacity := appended.keeps.capacity
  size_le := appended.size_le
  packed := by
    rw [appended.size]
    exact (inv.packed_of_keeps appended.keeps).snoc (by decide) appended.stored

/-- `WriteBytes` adds a chunk, or is refused. -/
theorem writeBytes_cases {data : Bytes} {data_len : BitVec 32} (inv : Holds pickle chunks)
    (nonneg : 0 <= data_len.toInt) (enough : data_len.toNat <= data.length)
    (small : alignUp 4 pickle.size + data_len.toNat + kPayloadUnit <= 2 ^ 32) :
    (pickle.writeBytes p alloc data data_len = some (pickle, false) ∧ alloc.Refuses) ∨
    ∃ next, pickle.writeBytes p alloc data data_len = some (next, true) ∧
      Appended pickle next (data.take data_len.toNat) := by
  have word := p.le_word
  have less := toInt_lt data_len
  rw [toInt_eq_toNat nonneg] at less
  have header := inv.header
  have aligned := dvd_alignUp (show 0 < 4 by decide) pickle.size
  have le := le_alignUp 4 pickle.size
  have sizeIs : pickle.size = pickle.header_size + pickle.payload_size := rfl
  have len : (data.take data_len.toNat).length = data_len.toNat := length_take_of_le enough
  have n : p.toSize data_len.toInt = data_len.toNat := by
    rw [toInt_eq_toNat nonneg]
    exact p.toSize_of_lt (by omega)
  rw [writeBytes, n]
  rcases @beginWrite_cases p alloc _ _ _ inv small with
    ⟨begins, refuses⟩ | ⟨next, begins, keeps, isSize, fits⟩
  · rw [begins]
    exact .inl ⟨rfl, refuses⟩
  · have inside : alignUp 4 pickle.size + (data.take data_len.toNat).length <=
        next.memory.length := by
      omega
    have copied := length_store inside
    have behind : 4 <= alignUp 4 pickle.size := by omega
    obtain ⟨last, ends, keepsLast, payload, lastLength, -⟩ :=
      @endWrite_keeps p
        { next with
          memory := store next.memory (alignUp 4 pickle.size) (data.take data_len.toNat) }
        (alignUp 4 pickle.size) data_len.toNat
        (keeps_put inside keeps.capacity).capacity behind aligned
        (by
          rw [copied]
          omega)
        (by omega)
    have keepsAll : Keeps pickle last pickle.size :=
      keeps.trans (((keeps_put inside keeps.capacity).of_le le).trans
        (keepsLast.of_le (Nat.le_trans le (Nat.le_add_right _ _))))
    have lastSize : last.size = alignUp 4 pickle.size + (data.take data_len.toNat).length := by
      rw [len, ← isSize, size, size, payload,
        payload_size_put inside behind, keepsLast.header_size]
    rw [begins]
    refine .inr ⟨last, ?_, keepsAll, lastSize, ?_, ?_⟩
    · dsimp only
      rw [memcpy, if_pos enough, put_eq inside]
      simp only [Option.bind_eq_bind, Option.bind_some]
      rw [toInt_eq_toNat nonneg, ends]
      rfl
    · rw [lastSize, lastLength]
      rw [copied]
      exact inside
    · rw [keepsLast.cells _ _ behind (by rw [len])]
      exact slice_store inside

/-- Where chunks of some lengths end that are put behind a payload. -/
def extent (size : Nat) (lengths : List Nat) : Nat :=
  lengths.foldl (fun size length => alignUp 4 size + length) size

theorem alignUp_mono {size other : Nat} (le : size <= other) : alignUp 4 size <= alignUp 4 other :=
  alignUp_le (by decide) (Nat.le_trans le (le_alignUp 4 other)) (dvd_alignUp (by decide) other)

theorem extent_mono {size other : Nat} (le : size <= other) :
    extent size lengths <= extent other lengths := by
  induction lengths generalizing size other with
  | nil => exact le
  | cons length rest ih => exact ih (Nat.add_le_add_right (alignUp_mono le) length)

theorem le_extent (size : Nat) : size <= extent size lengths := by
  induction lengths generalizing size with
  | nil => exact Nat.le_refl size
  | cons length rest ih =>
    have first : size <= alignUp 4 size + length :=
      Nat.le_trans (le_alignUp 4 size) (Nat.le_add_right _ _)
    exact Nat.le_trans first (ih _)

/-- What a call that adds chunks leaves, if it returns true, and if it returns
false since memory is refused. -/
inductive Wrote (alloc : Allocator) (pickle next : PickleBuffer) (chunks new : List Bytes) :
    Bool -> Prop
  | written (holds : Holds next (chunks ++ new))
      (size : next.size = extent pickle.size (new.map List.length)) :
      Wrote alloc pickle next chunks new true
  | refused (others : List Bytes) (refuses : alloc.Refuses) (holds : Holds next others)
      (size_le : next.size <= extent pickle.size (new.map List.length)) :
      Wrote alloc pickle next chunks new false

theorem wrote_bytes {data : Bytes} {data_len : BitVec 32} (inv : Holds pickle chunks)
    (nonneg : 0 <= data_len.toInt) (enough : data_len.toNat <= data.length)
    (small : extent pickle.size [data_len.toNat] < 2 ^ 31) :
    ∃ next written, pickle.writeBytes p alloc data data_len = some (next, written) ∧
        Wrote alloc pickle next chunks [data.take data_len.toNat] written := by
  have ends : alignUp 4 pickle.size + data_len.toNat < 2 ^ 31 := small
  rcases @writeBytes_cases p alloc _ _ _ _ inv nonneg enough
      (by rw [kPayloadUnit]; omega) with ⟨writes, refuses⟩ | ⟨next, writes, appended⟩
  · exact ⟨pickle, false, writes, .refused chunks refuses inv (le_extent _)⟩
  · exact ⟨next, true, writes, .written (inv.snoc appended) appended.size⟩

theorem wrote_fixed {width : Nat} (inv : Holds pickle chunks)
    (small : extent pickle.size [width] < 2 ^ 31) (val : BitVec (8 * width)) :
    ∃ next written, pickle.writeFixed p alloc width val = some (next, written) ∧
        Wrote alloc pickle next chunks [bytesOf width val] written := by
  have less : width < 2 ^ 31 := by
    refine Nat.lt_of_le_of_lt ?_ small
    exact Nat.le_add_left width _
  have isInt := toInt_toInt_of_lt less
  have isNat : (toInt width).toNat = width := by
    have := toInt_eq_toNat (show 0 <= (toInt width).toInt by omega)
    omega
  have wrote := @wrote_bytes p alloc pickle chunks
    (bytesOf width val) (toInt width) inv (by omega)
    (by rw [isNat, length_bytesOf]) (by rw [isNat]; exact small)
  rwa [isNat, take_of_length_le (Nat.le_of_eq (length_bytesOf _ _))] at wrote

/-- A length and bytes behind it are two chunks. -/
theorem wrote_lengthAndBytes {data : Bytes} {data_len : BitVec 32} (inv : Holds pickle chunks)
    (nonneg : 0 <= data_len.toInt) (enough : data_len.toNat <= data.length)
    (small : extent pickle.size [4, data_len.toNat] < 2 ^ 31) (len : BitVec 32) :
    ∃ next written, pickle.writeLengthAndBytes p alloc len data data_len =
          some (next, written) ∧ Wrote alloc pickle next chunks
          [bytesOf 4 len, data.take data_len.toNat] written := by
  have isLength : (data.take data_len.toNat).length = data_len.toNat := length_take_of_le enough
  obtain ⟨middle, written, writes, wrote⟩ :=
    @wrote_fixed p alloc pickle chunks 4 inv (Nat.lt_of_le_of_lt (le_extent _) small) len
  rw [writeLengthAndBytes, writeInt, writes, Option.bind_eq_bind, Option.bind_some]
  cases wrote with
  | refused others refuses holdsMiddle size_le =>
    refine ⟨middle, false, rfl, .refused others refuses holdsMiddle ?_⟩
    exact Nat.le_trans size_le (le_extent _)
  | written holdsMiddle size =>
    have rest : extent middle.size [data_len.toNat] = extent pickle.size [4, data_len.toNat] := by
      rw [size]
      rfl
    obtain ⟨next, written, writesBytes, wroteBytes⟩ :=
      @wrote_bytes p alloc middle _ data data_len holdsMiddle
        nonneg enough (by rw [rest]; exact small)
    refine ⟨next, written, writesBytes, ?_⟩
    cases wroteBytes with
    | refused others refuses holdsNext size_le =>
      refine .refused others refuses holdsNext ?_
      rw [map_singleton, isLength, rest] at size_le
      rw [map_cons, map_singleton, length_bytesOf, isLength]
      exact size_le
    | written holdsNext sizeNext =>
      rw [append_assoc] at holdsNext
      refine .written holdsNext ?_
      rw [map_singleton, isLength, rest] at sizeNext
      rw [map_cons, map_singleton, length_bytesOf, isLength, sizeNext]

end Writes
end PickleBuffer

end

end Chromium.Base
