import Chromium.Library.Bytes
import Chromium.Library.Run
import Mathlib

/-!
# Compound buffers

`CompoundBuffer` is a data buffer that is composed of chunks of shared buffers.
A function that fails one of its checks has no result. The memory of a shared
buffer does not change, so a chunk has the contents of its buffer.
-/

namespace Chromium.Remoting

open List Option

/-- A part of a shared buffer. -/
structure DataChunk where
  buffer : Bytes
  start : Int
  size : Int
deriving DecidableEq

/-- The memory of a chunk. -/
def DataChunk.bytes (chunk : DataChunk) : Bytes :=
  (chunk.buffer.drop chunk.start.toNat).take chunk.size.toNat

structure CompoundBuffer where
  chunks_ : List DataChunk := []
  total_bytes_ : Int := 0
  locked_ : Bool := false
deriving DecidableEq

namespace CompoundBuffer

variable (self : CompoundBuffer)

def clear : Option CompoundBuffer :=
  if self.locked_ then none
  else some { self with chunks_ := [], total_bytes_ := 0 }

/-- `Append` of a chunk. The offset of one without a start is zero. -/
def append (buffer : Bytes) (start size : Int) : Option CompoundBuffer :=
  if 0 <= start ∧ 0 < size ∧ self.locked_ = false then
    some { self with
      chunks_ := self.chunks_ ++ [⟨buffer, start, size⟩]
      total_bytes_ := (self.total_bytes_ + size).bmod (2 ^ 32) }
  else none

/-- `Append` of another buffer. -/
def appendBuffer (buffer : CompoundBuffer) : Option CompoundBuffer :=
  buffer.chunks_.foldlM (fun self chunk => self.append chunk.buffer chunk.start chunk.size) self

/-- `Prepend` of a chunk. -/
def prepend (buffer : Bytes) (start size : Int) : Option CompoundBuffer :=
  if 0 <= start ∧ 0 < size ∧ self.locked_ = false then
    some { self with
      chunks_ := ⟨buffer, start, size⟩ :: self.chunks_
      total_bytes_ := (self.total_bytes_ + size).bmod (2 ^ 32) }
  else none

/-- `Prepend` of another buffer, from its first chunk to its last. -/
def prependBuffer (buffer : CompoundBuffer) : Option CompoundBuffer :=
  buffer.chunks_.foldlM (fun self chunk => self.prepend chunk.buffer chunk.start chunk.size) self

def appendCopyOf (data : Bytes) : Option CompoundBuffer := self.append data 0 data.length

def prependCopyOf (data : Bytes) : Option CompoundBuffer := self.prepend data 0 data.length

/-- The loop of `CropFront` and `CropBack`: drop whole chunks. -/
def dropChunks : List DataChunk -> Int -> List DataChunk × Int
  | [], bytes => ([], bytes)
  | chunk :: chunks, bytes =>
    if chunk.size <= bytes then dropChunks chunks (bytes - chunk.size)
    else (chunk :: chunks, bytes)

/-- Drop bytes from chunks, and cut the first of those that are left. -/
def cropChunks (cut : DataChunk -> Int -> DataChunk) (chunks : List DataChunk)
    (bytes : Int) : Option (List DataChunk) :=
  match dropChunks chunks bytes with
  | (chunk :: chunks, bytes) =>
    if 0 < bytes then
      if 0 < (cut chunk bytes).size then some (cut chunk bytes :: chunks)
      else none
    else if bytes = 0 then some (chunk :: chunks)
    else none
  | ([], bytes) => if bytes = 0 then some [] else none

def cutFront (chunk : DataChunk) (bytes : Int) : DataChunk :=
  { chunk with start := chunk.start + bytes, size := chunk.size - bytes }

def cutBack (chunk : DataChunk) (bytes : Int) : DataChunk :=
  { chunk with size := chunk.size - bytes }

def cropFront (bytes : Int) : Option CompoundBuffer :=
  if self.locked_ then none
  else if self.total_bytes_ <= bytes then self.clear
  else
    (cropChunks cutFront self.chunks_ bytes).map fun chunks =>
      { self with chunks_ := chunks, total_bytes_ := self.total_bytes_ - bytes }

def cropBack (bytes : Int) : Option CompoundBuffer :=
  if self.locked_ then none
  else if self.total_bytes_ <= bytes then self.clear
  else
    (cropChunks cutBack self.chunks_.reverse bytes).map fun chunks =>
      { self with
        chunks_ := chunks.reverse
        total_bytes_ := self.total_bytes_ - bytes }

def lock : CompoundBuffer := { self with locked_ := true }

/-- The loop of `CopyTo` from a position on. -/
def copyChunksTo (size : Int) : List DataChunk -> Int -> Option Bytes
  | [], _ => some []
  | chunk :: chunks, pos =>
    if pos + chunk.size <= size then
      (copyChunksTo size chunks (pos + chunk.size)).map (chunk.bytes ++ ·)
    else none

/-- `CopyTo`: the bytes that are written to a place of some size. -/
def copyTo (size : Int) : Option Bytes := copyChunksTo size self.chunks_ 0

def toIOBufferWithSize : Option Bytes := self.copyTo self.total_bytes_

/-- The loop of `CopyFrom` over the chunks of the source. -/
def copyChunksFrom (start end_ : Int) :
    List DataChunk -> Int -> CompoundBuffer -> Option CompoundBuffer
  | [], _, self => some self
  | chunk :: chunks, pos, self =>
    let relative_start := max 0 (start - pos)
    let relative_end := min chunk.size (end_ - pos)
    let added :=
      if pos + chunk.size > start ∧ pos < end_ then
        if relative_start < relative_end then
          self.append chunk.buffer (chunk.start + relative_start) (relative_end - relative_start)
        else none
      else some self
    match added with
    | none => none
    | some self =>
      if pos + chunk.size ≥ end_ then some self
      else copyChunksFrom start end_ chunks (pos + chunk.size) self

end CompoundBuffer

/-- `CopyFrom`, of a buffer that may be the buffer itself. -/
def copyFrom (buffers : Nat -> CompoundBuffer) (target source : Nat)
    (start end_ : Int) : Option CompoundBuffer :=
  if 0 <= start ∧ start <= end_ ∧ end_ <= (buffers source).total_bytes_ then
    match (buffers target).clear with
    | none => none
    | some cleared =>
      if end_ = start then some cleared
      else
        let chunks := (Function.update buffers target cleared source).chunks_
        match cleared.copyChunksFrom start end_ chunks 0 with
        | none => none
        | some self => if self.total_bytes_ = end_ - start then some self else none
  else none

/-- A chunk is a part of its buffer that is not empty. -/
structure DataChunk.Sound (chunk : DataChunk) : Prop where
  inBuffer : 0 <= chunk.start
  nonempty : 0 < chunk.size
  fits : chunk.start + chunk.size <= chunk.buffer.length

/-- The concatenation of chunks. -/
def chunkBytes (chunks : List DataChunk) : Bytes := chunks.flatMap DataChunk.bytes

namespace DataChunk

variable {chunk : DataChunk}

theorem length_bytes (sound : chunk.Sound) : (chunk.bytes.length : Int) = chunk.size := by
  obtain ⟨inBuffer, ne, fits⟩ := sound
  rw [bytes, length_take, length_drop]
  omega

theorem bytes_ne_nil (sound : chunk.Sound) : chunk.bytes ≠ [] := by
  have isLength := length_bytes sound
  have ne := sound.nonempty
  rintro isNil
  rw [isNil, length_nil] at isLength
  omega

theorem bytes_slice (sound : chunk.Sound)
    (starts : 0 <= relative_start) (ordered : relative_start < relative_end)
    (ends : relative_end <= chunk.size) :
    DataChunk.Sound ⟨chunk.buffer, chunk.start + relative_start, relative_end - relative_start⟩ ∧
      DataChunk.bytes ⟨chunk.buffer, chunk.start + relative_start, relative_end - relative_start⟩ =
        (chunk.bytes.take relative_end.toNat).drop relative_start.toNat := by
  obtain ⟨inBuffer, ne, fits⟩ := sound
  refine ⟨⟨by dsimp only; omega, by dsimp only; omega, by dsimp only; omega⟩, ?_⟩
  have isStart : (chunk.start + relative_start).toNat =
      chunk.start.toNat + relative_start.toNat := by omega
  have isSize : (relative_end - relative_start).toNat =
      relative_end.toNat - relative_start.toNat := by omega
  have shorter : min relative_end.toNat chunk.size.toNat = relative_end.toNat := by omega
  rw [bytes, bytes, isStart, isSize, take_take, shorter, drop_take, drop_drop]

end DataChunk

section ChunkBytes

@[simp] theorem chunkBytes_nil : chunkBytes [] = [] := rfl

@[simp] theorem chunkBytes_cons : chunkBytes (chunk :: chunks) = chunk.bytes ++ chunkBytes chunks :=
  flatMap_cons

@[simp] theorem chunkBytes_append :
    chunkBytes (front ++ chunks) = chunkBytes front ++ chunkBytes chunks :=
  flatMap_append

end ChunkBytes

/-!
## The byte string of a compound buffer

Each function does to the concatenation of the chunks what it says, but for
`Prepend` of another buffer: it takes the chunks from the first to the last, so
they come to stand in reverse order.
-/

section

namespace CompoundBuffer

/-- The buffer has a byte string, of less than `2 ^ 31` bytes. -/
structure Holds (holder : CompoundBuffer) (string : Bytes) : Prop where
  sound : ∀ chunk ∈ holder.chunks_, chunk.Sound
  isBytes : chunkBytes holder.chunks_ = string
  total : holder.total_bytes_ = string.length
  short : string.length < 2 ^ 31

/-- The concatenation of the chunks from the last to the first. -/
def reversedBytes (self : CompoundBuffer) : Bytes := chunkBytes self.chunks_.reverse

variable {self next source : CompoundBuffer} {string other : Bytes} {chunk : DataChunk}
  {buffer data : Bytes} {start size bytes : Int}

theorem holds_empty : Holds {} [] where
  sound _ member := absurd member List.not_mem_nil
  isBytes := rfl
  total := rfl
  short := by decide

/-- The sum of lengths does not wrap around if it is short. -/
theorem bmod_of_short {left right : Nat} (short : left + right < 2 ^ 31) :
    ((left : Int) + right).bmod (2 ^ 32) = (left + right : Nat) := by
  rw [Int.bmod_eq_of_le] <;> omega

theorem bmod_lt (val : Int) : val.bmod (2 ^ 32) < 2 ^ 31 := by
  have bound := @Int.bmod_lt val (2 ^ 32) (by decide)
  omega

theorem append_eq_some_iff : self.append buf start size = some next ↔
      (0 <= start ∧ 0 < size ∧ self.locked_ = false) ∧
        next = { self with
          chunks_ := self.chunks_ ++ [⟨buf, start, size⟩]
          total_bytes_ := (self.total_bytes_ + size).bmod (2 ^ 32) } := by
  rw [append]
  split
  · rename_i checked
    simp [checked, eq_comm]
  · rename_i refused
    simp [refused]

theorem prepend_eq_some_iff : self.prepend buf start size = some next ↔
      (0 <= start ∧ 0 < size ∧ self.locked_ = false) ∧
        next = { self with
          chunks_ := ⟨buf, start, size⟩ :: self.chunks_
          total_bytes_ := (self.total_bytes_ + size).bmod (2 ^ 32) } := by
  rw [prepend]
  split
  · rename_i checked
    simp [checked, eq_comm]
  · rename_i refused
    simp [refused]

theorem total_of_append (inv : self.Holds string) (sound : chunk.Sound)
    (short : string.length + chunk.bytes.length < 2 ^ 31) :
    (self.total_bytes_ + chunk.size).bmod (2 ^ 32) =
      (string.length + chunk.bytes.length : Nat) := by
  rw [inv.total, ← DataChunk.length_bytes sound]
  exact bmod_of_short short

/-- `Append` of a chunk adds its bytes behind. -/
theorem holds_append (inv : self.Holds string) (sound : chunk.Sound)
    (short : string.length + chunk.bytes.length < 2 ^ 31)
    (runs : self.append chunk.buffer chunk.start chunk.size = some next) :
    next.Holds (string ++ chunk.bytes) := by
  obtain ⟨-, rfl⟩ := append_eq_some_iff.mp runs
  refine ⟨?_, ?_, ?_, ?_⟩
  · exact forall_mem_append.mpr ⟨inv.sound, forall_mem_singleton.mpr sound⟩
  · simp [inv.isBytes]
  · rw [length_append]
    exact total_of_append inv sound short
  · rw [length_append]
    exact short

/-- `Prepend` of a chunk adds its bytes in front. -/
theorem holds_prepend (inv : self.Holds string) (sound : chunk.Sound)
    (short : string.length + chunk.bytes.length < 2 ^ 31)
    (runs : self.prepend chunk.buffer chunk.start chunk.size = some next) :
    next.Holds (chunk.bytes ++ string) := by
  obtain ⟨-, rfl⟩ := prepend_eq_some_iff.mp runs
  refine ⟨?_, ?_, ?_, ?_⟩
  · exact forall_mem_cons.mpr ⟨sound, inv.sound⟩
  · simp [inv.isBytes]
  · rw [length_append, Nat.add_comm]
    exact total_of_append inv sound short
  · rw [length_append, Nat.add_comm]
    exact short

/-- A new buffer is a chunk as a whole. -/
theorem bytes_of_data (data : Bytes) : DataChunk.bytes ⟨data, 0, data.length⟩ = data :=
  take_of_length_le (Nat.le_refl _)

theorem sound_of_data (checked : (0 : Int) <= 0 ∧ 0 < (data.length : Int) ∧ locked = false) :
    DataChunk.Sound ⟨data, 0, data.length⟩ :=
  ⟨Int.le_refl 0, checked.2.1, Int.le_of_eq (Int.zero_add _)⟩

theorem holds_appendCopyOf
    (inv : self.Holds string) (short : string.length + data.length < 2 ^ 31)
    (runs : self.appendCopyOf data = some next) :
    next.Holds (string ++ data) := by
  have sound := sound_of_data (append_eq_some_iff.mp runs).1
  rw [← bytes_of_data data] at short ⊢
  exact holds_append inv sound short runs

theorem holds_prependCopyOf
    (inv : self.Holds string) (short : string.length + data.length < 2 ^ 31)
    (runs : self.prependCopyOf data = some next) :
    next.Holds (data ++ string) := by
  have sound := sound_of_data (prepend_eq_some_iff.mp runs).1
  rw [← bytes_of_data data] at short ⊢
  exact holds_prepend inv sound short runs

variable {chunks : List DataChunk}

/-- `Append` of chunks adds their bytes behind, in order. -/
theorem holds_foldlM_append (sound : ∀ chunk ∈ chunks, chunk.Sound) (inv : self.Holds string)
    (short : string.length + (chunkBytes chunks).length < 2 ^ 31)
    (runs : chunks.foldlM (fun self chunk =>
      self.append chunk.buffer chunk.start chunk.size) self = some next) :
    next.Holds (string ++ chunkBytes chunks) := by
  induction chunks generalizing self string with
  | nil =>
    cases runs
    rwa [chunkBytes_nil, append_nil]
  | cons chunk chunks ih =>
    rw [forall_mem_cons] at sound
    rw [chunkBytes_cons, length_append] at short
    obtain ⟨middle, first, rest⟩ := bind_eq_some_iff.mp runs
    have middleHolds := holds_append inv sound.1 (by omega) first
    rw [chunkBytes_cons, ← append_assoc]
    refine ih sound.2 middleHolds ?_ rest
    rw [length_append]
    omega

theorem holds_appendBuffer (inv : self.Holds string) (sourceHolds : source.Holds other)
    (short : string.length + other.length < 2 ^ 31)
    (runs : self.appendBuffer source = some next) :
    next.Holds (string ++ other) := by
  rw [← sourceHolds.isBytes] at short ⊢
  exact holds_foldlM_append sourceHolds.sound inv short runs

/-- `Prepend` of chunks adds their bytes in front, in reverse order. -/
theorem holds_foldlM_prepend (sound : ∀ chunk ∈ chunks, chunk.Sound) (inv : self.Holds string)
    (short : string.length + (chunkBytes chunks).length < 2 ^ 31)
    (runs : chunks.foldlM (fun self chunk =>
      self.prepend chunk.buffer chunk.start chunk.size) self = some next) :
    next.Holds (chunkBytes chunks.reverse ++ string) := by
  induction chunks generalizing self string with
  | nil =>
    cases runs
    exact inv
  | cons chunk chunks ih =>
    rw [forall_mem_cons] at sound
    rw [chunkBytes_cons, length_append] at short
    obtain ⟨middle, first, rest⟩ := bind_eq_some_iff.mp runs
    have middleHolds := holds_prepend inv sound.1 (by omega) first
    have added := ih sound.2 middleHolds (by
      rw [length_append]
      omega) rest
    rw [reverse_cons, chunkBytes_append, chunkBytes_cons, chunkBytes_nil, append_nil, append_assoc]
    exact added

theorem holds_prependBuffer (inv : self.Holds string) (sourceHolds : source.Holds other)
    (short : string.length + other.length < 2 ^ 31)
    (runs : self.prependBuffer source = some next) :
    next.Holds (source.reversedBytes ++ string) := by
  rw [← sourceHolds.isBytes] at short
  exact holds_foldlM_prepend sourceHolds.sound inv short runs

/-- The number of bytes stays a number of 32 bits. -/
theorem total_lt_of_append (runs : self.append buffer start size = some next) :
    next.total_bytes_ < 2 ^ 31 := by
  obtain ⟨-, rfl⟩ := append_eq_some_iff.mp runs
  exact bmod_lt _

theorem total_lt_of_prepend (runs : self.prepend buffer start size = some next) :
    next.total_bytes_ < 2 ^ 31 := by
  obtain ⟨-, rfl⟩ := prepend_eq_some_iff.mp runs
  exact bmod_lt _

/-- So it does over the chunks of another buffer. -/
theorem total_lt_of_foldlM
    (bound : ∀ {self chunk next}, step self chunk = some next -> next.total_bytes_ < 2 ^ 31)
    (start : self.total_bytes_ < 2 ^ 31) (runs : chunks.foldlM step self = some next) :
    next.total_bytes_ < 2 ^ 31 :=
  @Library.property_of_foldlM _ _ step (·.total_bytes_ < 2 ^ 31) self chunks
    next (fun _ steps => bound steps) runs start

theorem holds_clear (runs : self.clear = some next) : next.Holds [] := by
  rw [clear] at runs
  split at runs
  · cases runs
  · cases runs
    exact ⟨forall_mem_nil _, rfl, rfl, by decide⟩

section Crop

theorem cropChunks_of_le (whole : chunk.size <= bytes) :
    cropChunks cut (chunk :: chunks) bytes = cropChunks cut chunks (bytes - chunk.size) := by
  rw [cropChunks, cropChunks, dropChunks, if_pos whole]

theorem cropChunks_of_lt (part : bytes < chunk.size) :
    cropChunks cut (chunk :: chunks) bytes = if 0 < bytes then
        if 0 < (cut chunk bytes).size then some (cut chunk bytes :: chunks)
        else none
      else if bytes = 0 then some (chunk :: chunks)
      else none := by
  rw [cropChunks, dropChunks, if_neg (by omega)]

section

variable (sound : ∀ chunk ∈ chunks, chunk.Sound)
include sound

/-- A negative number of bytes fails the last check. -/
theorem cropChunks_of_neg (negative : bytes < 0) : cropChunks cut chunks bytes = none := by
  cases chunks with
  | nil => exact if_neg (by omega)
  | cons chunk chunks =>
    have ne := (sound chunk mem_cons_self).nonempty
    rw [cropChunks_of_lt (by omega), if_neg (by omega), if_neg (by omega)]

theorem cropChunks_cutFront (nonnegative : 0 ≤ bytes) (fewer : bytes < (chunkBytes chunks).length) :
    ∃ rest, cropChunks cutFront chunks bytes = some rest ∧ (∀ chunk ∈ rest, chunk.Sound) ∧
      chunkBytes rest = (chunkBytes chunks).drop bytes.toNat := by
  induction chunks generalizing bytes with
  | nil =>
    rw [chunkBytes_nil, length_nil] at fewer
    omega
  | cons chunk chunks ih =>
    rw [forall_mem_cons] at sound
    have isLength := DataChunk.length_bytes sound.1
    rw [chunkBytes_cons, length_append] at fewer
    by_cases whole : chunk.size <= bytes
    · obtain ⟨rest, crops, restSound, isRest⟩ :=
        @ih (bytes - chunk.size) sound.2 (by omega) (by omega)
      refine ⟨rest, (cropChunks_of_le whole).trans crops, restSound, ?_⟩
      have isDropped : (bytes - chunk.size).toNat = bytes.toNat - chunk.bytes.length := by omega
      have gone : chunk.bytes.drop bytes.toNat = [] := drop_of_length_le (by omega)
      rw [isRest, isDropped, chunkBytes_cons, drop_append, gone, nil_append]
    · rw [cropChunks_of_lt (by omega)]
      by_cases pos : 0 < bytes
      · obtain ⟨cutSound, isCut⟩ := DataChunk.bytes_slice sound.1
          nonnegative (Int.lt_of_not_ge whole) (Int.le_refl _)
        have ne : 0 < (cutFront chunk bytes).size := cutSound.nonempty
        refine ⟨cutFront chunk bytes :: chunks, ?_, ?_, ?_⟩
        · rw [if_pos pos, if_pos ne]
        · exact forall_mem_cons.mpr ⟨cutSound, sound.2⟩
        · have all : chunk.bytes.take chunk.size.toNat = chunk.bytes := take_of_length_le (by omega)
          rw [all] at isCut
          rw [chunkBytes_cons, chunkBytes_cons, drop_append,
            Nat.sub_eq_zero_of_le (by omega), drop_zero, ← isCut]
          rfl
      · obtain rfl : bytes = 0 := by omega
        exact ⟨chunk :: chunks, rfl, forall_mem_cons.mpr sound, rfl⟩

/-- The chunks are those of the buffer in reverse order. -/
theorem cropChunks_cutBack (nonnegative : 0 <= bytes)
    (fewer : bytes < (chunkBytes chunks.reverse).length) :
    ∃ rest, cropChunks cutBack chunks bytes = some rest ∧ (∀ chunk ∈ rest, chunk.Sound) ∧
      chunkBytes rest.reverse = (chunkBytes chunks.reverse).take
        ((chunkBytes chunks.reverse).length - bytes.toNat) := by
  induction chunks generalizing bytes with
  | nil =>
    rw [reverse_nil, chunkBytes_nil, length_nil] at fewer
    omega
  | cons chunk chunks ih =>
    rw [forall_mem_cons] at sound
    have isLength := DataChunk.length_bytes sound.1
    have isAll : chunkBytes (chunk :: chunks).reverse =
        chunkBytes chunks.reverse ++ chunk.bytes := by simp
    rw [isAll, length_append] at fewer
    rw [isAll, length_append]
    by_cases whole : chunk.size <= bytes
    · obtain ⟨rest, crops, restSound, isRest⟩ :=
        @ih (bytes - chunk.size) sound.2 (by omega) (by omega)
      refine ⟨rest, (cropChunks_of_le whole).trans crops, restSound, ?_⟩
      rw [isRest, take_append_of_le_length (by omega)]
      congr 1
      omega
    · rw [cropChunks_of_lt (by omega)]
      by_cases pos : 0 < bytes
      · obtain ⟨cutSound, isCut⟩ := DataChunk.bytes_slice sound.1
          (Int.le_refl 0) (by omega : 0 < chunk.size - bytes) (by omega)
        have isBack : (⟨chunk.buffer, chunk.start + 0,
            chunk.size - bytes - 0⟩ : DataChunk) = cutBack chunk bytes := by
          rw [cutBack, Int.add_zero, Int.sub_zero]
        rw [isBack] at cutSound isCut
        refine ⟨cutBack chunk bytes :: chunks, ?_, ?_, ?_⟩
        · rw [if_pos pos, if_pos cutSound.nonempty]
        · exact forall_mem_cons.mpr ⟨cutSound, sound.2⟩
        · have all : (chunkBytes chunks.reverse).take
              ((chunkBytes chunks.reverse).length + chunk.bytes.length -
                bytes.toNat) = chunkBytes chunks.reverse :=
            take_of_length_le (by omega)
          have isSize : (chunk.size - bytes).toNat =
              (chunkBytes chunks.reverse).length + chunk.bytes.length -
                bytes.toNat - (chunkBytes chunks.reverse).length := by
            omega
          rw [reverse_cons, chunkBytes_append, chunkBytes_cons,
            chunkBytes_nil, append_nil, isCut, take_append, all,
            isSize]
          rfl
      · obtain rfl : bytes = 0 := by omega
        refine ⟨chunk :: chunks, rfl, forall_mem_cons.mpr sound, ?_⟩
        rw [isAll]
        exact (take_of_length_le (by simp)).symm

end

end Crop

/-- `CropFront` drops bytes in front. -/
theorem holds_cropFront (inv : self.Holds string) (runs : self.cropFront bytes = some next) :
    next.Holds (string.drop bytes.toNat) := by
  rw [cropFront] at runs
  have isTotal := inv.total
  split at runs
  · cases runs
  · split at runs
    · rw [drop_of_length_le (by omega)]
      exact holds_clear runs
    · obtain ⟨chunks, crops, rfl⟩ := map_eq_some_iff.mp runs
      have nonnegative : 0 <= bytes := by
        by_contra negative
        rw [cropChunks_of_neg inv.sound (by omega)] at crops
        cases crops
      obtain ⟨rest, cropsRest, sound, isRest⟩ :=
        cropChunks_cutFront inv.sound nonnegative (by rw [inv.isBytes]; omega)
      rw [crops] at cropsRest
      obtain rfl := some.inj cropsRest
      have short := inv.short
      refine ⟨sound, ?_, ?_, ?_⟩
      · rw [isRest, inv.isBytes]
      · rw [length_drop]
        dsimp only
        omega
      · rw [length_drop]
        omega

theorem holds_cropBack (inv : self.Holds string) (runs : self.cropBack bytes = some next) :
    next.Holds (string.take (string.length - bytes.toNat)) := by
  rw [cropBack] at runs
  have isTotal := inv.total
  have sound : ∀ chunk ∈ self.chunks_.reverse, chunk.Sound :=
    fun chunk mem => inv.sound chunk (mem_reverse.mp mem)
  split at runs
  · cases runs
  · split at runs
    · rw [Nat.sub_eq_zero_of_le (by omega), take_zero]
      exact holds_clear runs
    · obtain ⟨chunks, crops, rfl⟩ := map_eq_some_iff.mp runs
      have nonnegative : 0 <= bytes := by
        by_contra negative
        rw [cropChunks_of_neg sound (by omega)] at crops
        cases crops
      obtain ⟨rest, cropsRest, restSound, isRest⟩ :=
        cropChunks_cutBack sound nonnegative (by rw [reverse_reverse, inv.isBytes]; omega)
      rw [crops] at cropsRest
      obtain rfl := some.inj cropsRest
      rw [reverse_reverse, inv.isBytes] at isRest
      have short := inv.short
      refine ⟨?_, isRest, ?_, ?_⟩
      · exact fun chunk mem => restSound chunk (mem_reverse.mp mem)
      · rw [length_take]
        dsimp only
        omega
      · rw [length_take]
        omega

theorem copyChunksTo_eq (sound : ∀ chunk ∈ chunks, chunk.Sound)
    (fits : pos + (chunkBytes chunks).length <= size) :
    copyChunksTo size chunks pos = some (chunkBytes chunks) := by
  induction chunks generalizing pos with
  | nil => rfl
  | cons chunk chunks ih =>
    rw [forall_mem_cons] at sound
    have isLength := DataChunk.length_bytes sound.1
    rw [chunkBytes_cons, length_append] at fits
    rw [copyChunksTo, if_pos (by omega), ih sound.2 (by omega), chunkBytes_cons]
    rfl

/-- `CopyTo` gives the byte string where there is room for it. -/
theorem copyTo_of_holds (inv : self.Holds string) (fits : self.total_bytes_ <= size) :
    self.copyTo size = some string := by
  rw [← inv.isBytes]
  refine copyChunksTo_eq inv.sound ?_
  rw [inv.isBytes, ← inv.total]
  omega

/-- A part of two byte strings, one behind the other. -/
theorem slice_append (front back : Bytes) (first last : Nat) :
    ((front ++ back).take last).drop first = (front.take last).drop first ++
        (back.take (last - front.length)).drop (first - front.length) := by
  rw [take_append, drop_append, length_take]
  congr 1
  rcases Nat.le_total last front.length with before | behind
  · rw [Nat.sub_eq_zero_of_le before, take_zero, drop_nil, drop_nil]
  · rw [Nat.min_eq_right behind]

/-- The chunks that `CopyFrom` adds have the bytes of the interval. -/
theorem holds_copyChunksFrom (sound : ∀ chunk ∈ chunks, chunk.Sound)
    (inv : self.Holds string) (ordered : start < end_) (before : pos < end_)
    (short : string.length + (chunkBytes chunks).length < 2 ^ 31)
    (runs : copyChunksFrom start end_ chunks pos self = some next) :
    next.Holds (string ++ ((chunkBytes chunks).take (end_ - pos).toNat).drop
      (start - pos).toNat) := by
  induction chunks generalizing self string pos with
  | nil =>
    cases runs
    simpa using inv
  | cons chunk chunks ih =>
    rw [forall_mem_cons] at sound
    have isLength := DataChunk.length_bytes sound.1
    rw [chunkBytes_cons, length_append] at short
    have behind : (end_ - (pos + chunk.size)).toNat =
        (end_ - pos).toNat - chunk.bytes.length := by omega
    have infront : (start - (pos + chunk.size)).toNat =
        (start - pos).toNat - chunk.bytes.length := by omega
    have joined := slice_append chunk.bytes (chunkBytes chunks)
      (start - pos).toNat (end_ - pos).toNat
    rw [← behind, ← infront] at joined
    rw [chunkBytes_cons, joined, ← append_assoc]
    rw [copyChunksFrom] at runs
    split at runs
    · cases runs
    · rename_i added isAdded
      -- What is added is the part of the chunk that is in the interval.
      have addedHolds : added.Holds (string ++
          (chunk.bytes.take (end_ - pos).toNat).drop (start - pos).toNat) := by
        split at isAdded
        · rename_i inside
          split at isAdded
          · rename_i relative
            obtain ⟨partSound, isPart⟩ := DataChunk.bytes_slice sound.1
              (Int.le_max_left 0 (start - pos)) relative
              (Int.min_le_left _ _)
            have isStart : (max 0 (start - pos)).toNat = (start - pos).toNat := by omega
            have isTake : chunk.bytes.take (min chunk.size (end_ - pos)).toNat =
                  chunk.bytes.take (end_ - pos).toNat := by
              rw [take_eq_take_iff]
              omega
            rw [isStart, isTake] at isPart
            rw [← isPart]
            refine holds_append inv partSound ?_ isAdded
            rw [isPart, length_drop, length_take]
            omega
          · cases isAdded
        · rename_i outside
          cases isAdded
          rw [drop_of_length_le, append_nil]
          · exact inv
          · rw [length_take]
            omega
      split at runs
      · rename_i last
        cases runs
        have nothing : (end_ - (pos + chunk.size)).toNat = 0 := by omega
        rw [nothing, take_zero, drop_nil, append_nil]
        exact addedHolds
      · refine ih sound.2 addedHolds (by omega) ?_ runs
        rw [length_append, length_drop, length_take]
        omega

end CompoundBuffer

open CompoundBuffer

/-- `CopyFrom` takes an interval of the source. -/
theorem holds_copyFrom {next : CompoundBuffer} (inv : (buffers source).Holds string)
    (runs : copyFrom buffers target source start end_ = some next) :
    next.Holds ((string.take end_.toNat).drop start.toNat) := by
  rw [copyFrom] at runs
  split at runs
  · rename_i checked
    split at runs
    · cases runs
    · rename_i cleared clears
      have clearedHolds := holds_clear clears
      split at runs
      · rename_i isEmpty
        cases runs
        rw [drop_of_length_le (by rw [length_take]; omega)]
        exact clearedHolds
      · rename_i nonempty
        dsimp only at runs
        split at runs
        · cases runs
        · rename_i copied copies
          split at runs
          · rename_i complete
            cases runs
            have copied : ∀ {other : CompoundBuffer} {bytes : Bytes}, other.Holds bytes ->
                copyChunksFrom start end_ other.chunks_ 0 cleared = some next ->
                next.Holds ((bytes.take end_.toNat).drop start.toNat) := by
              intro other bytes otherHolds copies
              have short := otherHolds.short
              have copiedHolds := holds_copyChunksFrom otherHolds.sound
                clearedHolds (by omega) (by omega) (by
                  rw [length_nil, Nat.zero_add, otherHolds.isBytes]
                  exact short) copies
              rwa [Int.sub_zero, Int.sub_zero, otherHolds.isBytes, nil_append] at copiedHolds
            by_cases same : source = target
            · -- The source is cleared, so nothing is copied.
              subst same
              rw [Function.update_self] at copies
              have isTotal := (copied clearedHolds copies).total
              rw [take_nil, drop_nil, length_nil] at isTotal
              omega
            · rw [Function.update_of_ne same] at copies
              exact copied inv copies
          · cases runs
  · cases runs

end

end Chromium.Remoting
