import Chromium.Library.Bitmap
import Chromium.Library.Logged
import Mathlib.Tactic.IntervalCases

/-!
# The allocation map of a block file

A block file keeps one bit for each of its blocks. Four consecutive bits, a
nibble, share a group of blocks, and the type of a nibble is the number of
free blocks at its end. This file models the scan for a nibble of a type and
the byte view of the map, and describes both by the bits they read and write.
-/

namespace Chromium.DiskCache

section

open Library

def kMaxNumBlocks : Nat := 4
def kBlockHeaderSize : Nat := 8192
def kMaxBlocks : Nat := (kBlockHeaderSize - 80) * 8

/-- Bitmap to track used blocks on a block file. -/
abbrev AllocBitmap := Vector (BitVec 32) (kMaxBlocks / 32)

/-- The type of entry that can be stored for each nibble bit pattern. -/
def s_types : Vector Nat 16 := #v[4, 3, 2, 2, 1, 1, 1, 1, 0, 0, 0, 0, 0, 0, 0, 0]

/-- The number of consecutive blocks that can be stored for a nibble of the
bitmap. -/
def getMapBlockType (value : BitVec 8) : Nat := s_types[(value &&& 0xf).toNat]?.getD 0

/-- The first nibble of a type among the remaining ones of a chunk, which is
shifted down by a nibble for each one passed. -/
def nibbleOfType (target : Nat) (map_block : BitVec 32) (j : Nat) : (remaining : Nat) -> Option Nat
  | 0 => none
  | remaining + 1 =>
    if getMapBlockType (map_block.setWidth 8) = target then some j
    else nibbleOfType target (map_block >>> 4) (j + 1) remaining

section

variable (map : AllocBitmap)

/-- A byte of the map, whose words are little endian. -/
def byteMap (byte_index : Nat) : BitVec 8 :=
  (Bitmap.word map (byte_index / 4) >>> (8 * (byte_index % 4))).setWidth 8

/-- Replace a byte of the map. -/
def setByteMap (byte_index : Nat) (value : BitVec 8) : AllocBitmap :=
  map.setIfInBounds (byte_index / 4) ((Bitmap.word map (byte_index / 4) &&&
        ~~~(0xff#32 <<< (8 * (byte_index % 4)))) |||
      value.setWidth 32 <<< (8 * (byte_index % 4)))

/-- The bits of four consecutive blocks. -/
def nibble (index : Nat) : BitVec 4 :=
  (Bitmap.word map (index / 8) >>> (4 * (index % 8))).setWidth 4

/-- The type of a nibble of the map. -/
def nibbleType (index : Nat) : Nat :=
  getMapBlockType ((Bitmap.word map (index / 8) >>> (4 * (index % 8))).setWidth 8)

/-- Only the low nibble of a value determines its type. -/
theorem getMapBlockType_eq_of_setWidth (same : value.setWidth 4 = value'.setWidth 4) :
    getMapBlockType value = getMapBlockType value' := by
  unfold getMapBlockType
  congr 2
  rw [BitVec.toNat_and, BitVec.toNat_and, show (0xf : BitVec 8).toNat = 2 ^ 4 - 1 by rfl,
    Nat.and_two_pow_sub_one_eq_mod, Nat.and_two_pow_sub_one_eq_mod,
    ← BitVec.toNat_setWidth, ← BitVec.toNat_setWidth, same]

theorem nibbleType_eq (i : Nat) :
    nibbleType map i = getMapBlockType ((nibble map i).setWidth 8) := by
  apply getMapBlockType_eq_of_setWidth
  apply BitVec.eq_of_getLsbD_eq
  intro pos inside
  simp only [nibble, BitVec.getLsbD_setWidth]
  grind

theorem getMapBlockType_le : getMapBlockType value <= kMaxNumBlocks := by
  revert value
  decide

/-- The bits of a nibble are the bits of its blocks. -/
theorem getLsbD_nibble (lt : pos < 4) :
    (nibble map index).getLsbD pos = Bitmap.bit map (4 * index + pos) := by
  unfold nibble Bitmap.bit
  rw [BitVec.getLsbD_setWidth, BitVec.getLsbD_ushiftRight,
    show (4 * index + pos) / 32 = index / 8 by omega,
    show (4 * index + pos) % 32 = 4 * (index % 8) + pos by omega]
  simp [lt]

/-- Nibbles with the same bits are the same. -/
theorem nibble_congr (same : ∀ pos < 4, Bitmap.bit map' (4 * index + pos) =
      Bitmap.bit map (4 * index + pos)) :
    nibble map' index = nibble map index := by
  apply BitVec.eq_of_getLsbD_eq
  intro pos inside
  rw [getLsbD_nibble map' inside, getLsbD_nibble map inside]
  exact same pos inside

theorem nibbleType_of_clear (clear : ∀ pos < 4, Bitmap.bit map (4 * index + pos) = false) :
    nibbleType map index = kMaxNumBlocks := by
  have zero : nibble map index = 0#4 := by
    apply BitVec.eq_of_getLsbD_eq
    intro pos inside
    rw [getLsbD_nibble map inside, clear pos inside]
    simp
  rw [nibbleType_eq, zero]
  rfl

/-- The scan of a chunk stops at a nibble of the type. -/
theorem nibbleOfType_eq_some
    (hit : nibbleOfType target (Bitmap.word map chunk >>> (4 * j)) j remaining = some stop)
    (inside : j + remaining <= 8) :
    stop < 8 ∧ nibbleType map (8 * chunk + stop) = target := by
  induction remaining generalizing j with
  | zero => simp [nibbleOfType] at hit
  | succ remaining ih =>
    rw [nibbleOfType] at hit
    split at hit
    case isTrue taken =>
      rw [Option.some.injEq] at hit
      subst hit
      refine ⟨by omega, ?_⟩
      rw [nibbleType, show (8 * chunk + j) / 8 = chunk by omega,
        show (8 * chunk + j) % 8 = j by omega]
      exact taken
    case isFalse =>
      rw [← BitVec.shiftRight_add, show 4 * j + 4 = 4 * (j + 1) by omega] at hit
      exact ih hit (by omega)

/-- A scan of a chunk without a result passed no nibble of the type. -/
theorem nibbleOfType_eq_none
    (missing : nibbleOfType target (Bitmap.word map chunk >>> (4 * j)) j remaining = none)
    (inside : j + remaining <= 8) (low : j <= other) (high : other < j + remaining) :
    nibbleType map (8 * chunk + other) ≠ target := by
  induction remaining generalizing j with
  | zero => omega
  | succ remaining ih =>
    rw [nibbleOfType] at missing
    split at missing
    case isTrue => simp at missing
    case isFalse passed =>
      by_cases here : other = j
      · subst here
        rw [nibbleType, show (8 * chunk + other) / 8 = chunk by omega,
          show (8 * chunk + other) % 8 = other by omega]
        exact passed
      · rw [← BitVec.shiftRight_add, show 4 * j + 4 = 4 * (j + 1) by omega] at missing
        exact ih missing (by omega) (by omega) (by omega)

/-- The bits of a byte are those of its blocks. -/
theorem getLsbD_byteMap (lt : pos < 8) :
    (byteMap map byte_index).getLsbD pos = Bitmap.bit map (8 * byte_index + pos) := by
  unfold byteMap Bitmap.bit
  rw [BitVec.getLsbD_setWidth, BitVec.getLsbD_ushiftRight,
    show (8 * byte_index + pos) / 32 = byte_index / 4 by omega,
    show (8 * byte_index + pos) % 32 = 8 * (byte_index % 4) + pos by omega]
  simp [lt]

/-- Replacing a byte replaces the bits of its blocks. -/
theorem bit_setByteMap (lt : byte_index / 4 < kMaxBlocks / 32) :
    Bitmap.bit (setByteMap map byte_index value) pos =
      if pos / 8 = byte_index then value.getLsbD (pos % 8)
      else Bitmap.bit map pos := by
  have low : pos % 32 < 32 := Nat.mod_lt _ (by decide)
  have ones : ∀ i, (0xff#32).getLsbD i = decide (i < 8) := by
    intro i
    rw [show (0xff#32) = BitVec.ofNat 32 (2 ^ 8 - 1) by rfl,
      BitVec.getLsbD_ofNat, Nat.testBit_two_pow_sub_one]
    rw [Bool.eq_iff_iff]
    simp only [Bool.and_eq_true, decide_eq_true_eq]
    omega
  unfold setByteMap
  rw [Bitmap.bit_set map lt]
  by_cases sameWord : pos / 32 = byte_index / 4
  · rw [if_pos sameWord]
    simp only [BitVec.getLsbD_or, BitVec.getLsbD_and, BitVec.getLsbD_not,
      BitVec.getLsbD_shiftLeft, BitVec.getLsbD_setWidth, low, decide_true,
      Bool.true_and, ones]
    by_cases sameByte : pos / 8 = byte_index
    · rw [if_pos sameByte, show pos % 32 - 8 * (byte_index % 4) = pos % 8 by omega]
      have above : ¬ pos % 32 < 8 * (byte_index % 4) := by omega
      have narrow : pos % 8 < 32 := by omega
      have byteLow : pos % 8 < 8 := Nat.mod_lt _ (by decide)
      simp [above, narrow, byteLow]
    · rw [if_neg sameByte]
      unfold Bitmap.bit
      rw [sameWord]
      by_cases below : pos % 32 < 8 * (byte_index % 4)
      · simp [below]
      · have beyond : ¬ pos % 32 - 8 * (byte_index % 4) < 8 := by omega
        have clear : value.getLsbD (pos % 32 - 8 * (byte_index % 4)) =
            false := BitVec.getLsbD_of_ge _ _ (by omega)
        simp [below, beyond, clear]
  · rw [if_neg sameWord, if_neg (by omega)]

/-- The byte with a block, shifted so that its low nibble holds the block. -/
def mapBlockOf (index : Nat) : BitVec 8 :=
  if 4 <= index % 8 then byteMap map (index / 8) >>> 4
  else byteMap map (index / 8)

theorem getLsbD_mapBlockOf (i : Nat) (lt : pos < 4) :
    (mapBlockOf map i).getLsbD pos = Bitmap.bit map (4 * (i / 4) + pos) := by
  unfold mapBlockOf
  by_cases upper : 4 <= i % 8
  · rw [if_pos upper, BitVec.getLsbD_ushiftRight, getLsbD_byteMap map (by omega)]
    congr 1
    omega
  · rw [if_neg upper, getLsbD_byteMap map (by omega)]
    congr 1
    omega

/-- The type of a nibble is the number of free blocks at its end. -/
theorem nibbleType_eq_iff (i : Nat) (bound : target <= kMaxNumBlocks) :
    nibbleType map i = target ↔ (∀ pos < 4, 4 <= pos + target ->
        Bitmap.bit map (4 * i + pos) = false) ∧
      (target < 4 -> Bitmap.bit map (4 * i + (3 - target)) = true) := by
  have table : ∀ (bits : BitVec 4) (type : Fin 5), getMapBlockType (bits.setWidth 8) = type.val ↔
        (∀ pos < 4, 4 <= pos + type.val -> bits.getLsbD pos = false) ∧
        (type.val < 4 -> bits.getLsbD (3 - type.val) = true) := by
    decide
  rw [nibbleType_eq]
  refine (table (nibble map i) ⟨target, Nat.lt_succ_of_le bound⟩).trans ?_
  apply and_congr
  · apply forall_congr'
    intro pos
    apply forall_congr'
    intro inside
    rw [getLsbD_nibble map inside]
  · rw [getLsbD_nibble map (by omega)]

theorem nibbleType_le (i : Nat) : nibbleType map i <= kMaxNumBlocks := getMapBlockType_le

/-- The test of the bits after a deleted range reads exactly those bits. -/
theorem and_endMask_eq_zero_iff (val : BitVec 8) (bound : bits_at_end <= 4) :
    val &&& ((0xf#8 <<< (4 - bits_at_end)) &&& 0xf#8) = 0#8 ↔
      ∀ pos < 4, 4 <= pos + bits_at_end -> val.getLsbD pos = false := by
  have ones : ∀ n ≤ 4, ∀ pos < 8, ((0xf#8 <<< (4 - n)) &&& 0xf#8).getLsbD pos =
        decide (4 <= pos + n ∧ pos < 4) := by
    decide
  constructor
  · intro zero pos inside atEnd
    have bit : (val &&& ((0xf#8 <<< (4 - bits_at_end)) &&& 0xf#8)).getLsbD pos = false := by
      rw [zero]
      exact BitVec.getLsbD_zero
    rw [BitVec.getLsbD_and, ones _ bound _ (by omega)] at bit
    simpa [inside, atEnd] using bit
  · intro clear
    apply BitVec.eq_of_getLsbD_eq
    intro pos inside
    rw [BitVec.getLsbD_and, ones _ bound _ inside, BitVec.getLsbD_zero]
    by_cases atEnd : 4 <= pos + bits_at_end ∧ pos < 4
    · rw [clear pos atEnd.2 atEnd.1, Bool.false_and]
    · simp [atEnd]

/-- The blocks of a range. -/
abbrev InRange (index size pos : Nat) : Prop := index <= pos ∧ pos < index + size

/-- Adding a mask to a chunk takes the blocks of its range. -/
theorem bit_take (lt : current < kMaxBlocks / 32) (small : size < 32)
    (fits : offset + size <= 32) (pos : Nat) :
    Bitmap.bit (map.setIfInBounds current
        (Bitmap.word map current ||| Bitmap.mask 32 size offset)) pos =
      (Bitmap.bit map pos || decide (InRange (current * 32 + offset) size pos)) := by
  rw [Bitmap.bit_set map lt]
  by_cases same : pos / 32 = current
  · rw [if_pos same, BitVec.getLsbD_or, Bitmap.getLsbD_mask small]
    unfold Bitmap.bit
    rw [same]
    congr 1
    rw [decide_eq_decide]
    omega
  · rw [if_neg same, decide_eq_false, Bool.or_false]
    rintro ⟨low, high⟩
    omega

/-- Removing a mask from a byte frees the blocks of its range. -/
theorem bit_free (lt : index / 32 < kMaxBlocks / 32)
    (small : size < 8) (fits : index % 8 + size <= 8) (pos : Nat) :
    Bitmap.bit (setByteMap map (index / 8)
        (byteMap map (index / 8) &&& ~~~Bitmap.mask 8 size (index % 8))) pos =
      (Bitmap.bit map pos && !decide (InRange index size pos)) := by
  rw [bit_setByteMap map (by omega)]
  have low : pos % 8 < 8 := Nat.mod_lt _ (by decide)
  by_cases same : pos / 8 = index / 8
  · rw [if_pos same, BitVec.getLsbD_and, BitVec.getLsbD_not,
      Bitmap.getLsbD_mask small, getLsbD_byteMap map low,
      show 8 * (index / 8) + pos % 8 = pos by omega, decide_eq_true low,
      Bool.true_and]
    congr 2
    rw [decide_eq_decide]
    omega
  · rw [if_neg same, decide_eq_false, Bool.not_false, Bool.and_true]
    rintro ⟨above, below⟩
    omega

end

section Nibbles

variable {map map' : AllocBitmap}

/-- Blocks taken at the end of a nibble leave the rest of its free end. -/
theorem nibbleType_of_take (taken : ∀ pos, Bitmap.bit map' pos = (Bitmap.bit map pos ||
        decide (InRange (4 * index + (4 - target)) size pos)))
    (isType : nibbleType map index = target) (positive : 0 < size) (fits : size <= target)
    (bound : target <= kMaxNumBlocks) :
    nibbleType map' index = target - size := by
  have four : target <= 4 := bound
  obtain ⟨free, _⟩ := (nibbleType_eq_iff map index bound).mp isType
  refine (nibbleType_eq_iff map' index (by omega)).mpr ⟨?_, ?_⟩
  · intro pos inside atEnd
    rw [taken, free pos inside (by omega), Bool.false_or, decide_eq_false_iff_not]
    rintro ⟨_, below⟩
    omega
  · intro _
    rw [taken, decide_eq_true ⟨by omega, by omega⟩, Bool.or_true]

theorem bit_of_nibbleType
    (isType : nibbleType map index = target) (bound : target <= kMaxNumBlocks)
    (inside : InRange (4 * index + (4 - target)) target pos) :
    Bitmap.bit map pos = false := by
  have four : target <= 4 := bound
  have free := ((nibbleType_eq_iff map index bound).mp isType).1
    (pos - 4 * index) (by omega) (by omega)
  rwa [show 4 * index + (pos - 4 * index) = pos by omega] at free

variable (freed : ∀ pos, Bitmap.bit map' pos =
    (Bitmap.bit map pos && !decide (InRange first size pos)))
  (fits : first % 4 + size <= 4)

include freed fits

/-- When the blocks after a range are free, they are the free end before the
range is freed, and a larger one is left. -/
theorem nibbleType_of_free_last (used : ∀ pos, InRange first size pos -> Bitmap.bit map pos = true)
    (positive : 0 < size) (last : ∀ pos < 4, 4 <= pos + (4 - size - first % 4) ->
      Bitmap.bit map (4 * (first / 4) + pos) = false) :
    nibbleType map (first / 4) = 4 - size - first % 4 ∧ 0 < nibbleType map' (first / 4) := by
  constructor
  · refine (nibbleType_eq_iff map _ (show _ <= 4 by omega)).mpr ⟨last, ?_⟩
    intro _
    exact used _ ⟨by omega, by omega⟩
  · rw [Nat.pos_iff_ne_zero]
    intro none
    have taken := ((nibbleType_eq_iff map' _ (Nat.zero_le _)).mp none).2 (by decide)
    rw [freed] at taken
    by_cases inside : InRange first size (4 * (first / 4) + 3)
    · simp [inside] at taken
    · simp only [InRange] at inside
      rw [last 3 (by decide) (by omega)] at taken
      simp at taken

/-- When a block after a range is used, freeing the range leaves the free end
as it is. -/
theorem nibbleType_of_free_inner (inner : ∃ pos < 4, 4 <= pos + (4 - size - first % 4) ∧
      Bitmap.bit map (4 * (first / 4) + pos) = true) :
    nibbleType map' (first / 4) = nibbleType map (first / 4) := by
  obtain ⟨blocking, inside, atEnd, isUsed⟩ := inner
  have bound := nibbleType_le map (first / 4)
  obtain ⟨free, before⟩ := (nibbleType_eq_iff map _ bound).mp rfl
  have short : nibbleType map (first / 4) + blocking < 4 := by
    by_contra long
    rw [free blocking inside (by omega)] at isUsed
    simp at isUsed
  refine (nibbleType_eq_iff map' _ bound).mpr ⟨?_, ?_⟩
  · intro pos below free'
    rw [freed, free pos below free', Bool.false_and]
  · intro _
    have outside : ¬ InRange first size (4 * (first / 4) + (3 - nibbleType map (first / 4))) := by
      rintro ⟨_, high⟩
      omega
    rw [freed, before (by omega), decide_eq_false outside]
    rfl

end Nibbles

end

/-!
## Block files

A block file starts with a header that is mapped into memory, so that every
write of a header field is persistent. This file models the operations on
the header of one block file: taking and freeing blocks of the allocation
map, growing the file, and repairing the header when the file is opened after
it was not closed properly. The operations on the file system succeed, apart
from the change of the file's length.
-/

section

open Library

def kBlockMagic : Nat := 0xC104CAC3
def kCurrentVersion : Nat := 0x20000

/-- The types of block files. -/
inductive FileType
  | RANKINGS
  | BLOCK_256
  | BLOCK_1K
  | BLOCK_4K
  deriving DecidableEq

def blockSizeForFileType : FileType -> Nat
  | .RANKINGS => 36
  | .BLOCK_256 => 256
  | .BLOCK_1K => 1024
  | .BLOCK_4K => 4096

/-- The counters a header keeps for each number of consecutive blocks. -/
abbrev Counters (α : Type) := Vector α kMaxNumBlocks

/-- The header of a block file. -/
structure BlockFileHeader where
  magic : Nat
  version : Nat
  this_file : Nat
  next_file : Nat
  entry_size : Nat
  num_entries : Int
  max_entries : Nat
  empty : Counters Int
  hints : Counters Nat
  updating : Int
  allocation_map : AllocBitmap

namespace BlockFileHeader

/-- A new header, all zeros apart from its magic number and its version. -/
def init : BlockFileHeader where
  magic := kBlockMagic
  version := kCurrentVersion
  this_file := 0
  next_file := 0
  entry_size := 0
  num_entries := 0
  max_entries := 0
  empty := Vector.replicate _ 0
  hints := Vector.replicate _ 0
  updating := 0
  allocation_map := Vector.replicate _ 0

variable (header : BlockFileHeader)

/-- An entry of the empty counters. -/
def emptyAt (index : Nat) : Int := header.empty[index]?.getD 0

/-- An entry of the hints. -/
def hintAt (index : Nat) : Nat := header.hints[index]?.getD 0

@[simps]
def addUpdating (change : Int) : BlockFileHeader :=
  { header with updating := header.updating + change }

@[simps]
def setUpdating (value : Int) : BlockFileHeader := { header with updating := value }

@[simps]
def addEmpty (index : Nat) (change : Int) : BlockFileHeader :=
  { header with
    empty := header.empty.setIfInBounds index (header.emptyAt index + change) }

@[simps]
def setEmpty (index : Nat) (value : Int) : BlockFileHeader :=
  { header with empty := header.empty.setIfInBounds index value }

@[simps]
def setHint (index value : Nat) : BlockFileHeader :=
  { header with hints := header.hints.setIfInBounds index value }

@[simps]
def addEntries (change : Int) : BlockFileHeader :=
  { header with num_entries := header.num_entries + change }

@[simps]
def setMaxEntries (value : Nat) : BlockFileHeader := { header with max_entries := value }

@[simps]
def setNextFile (value : Nat) : BlockFileHeader := { header with next_file := value }

@[simps]
def setMap (value : AllocBitmap) : BlockFileHeader := { header with allocation_map := value }

end BlockFileHeader

/-- A block file: its header and its length in bytes. -/
structure BlockFile where
  header : BlockFileHeader
  length : Nat

/-- Write a field of the header. -/
def put (change : BlockFileHeader -> BlockFileHeader) : Logged BlockFile Unit :=
  .persist fun file => { file with header := change file.header }

/-- Take the lock of a header: it is being updated. -/
def lock : Logged BlockFile Unit := put fun header => header.addUpdating 1

/-- Release the lock of a header. -/
def unlock : Logged BlockFile Unit := put fun header => header.addUpdating (-1)

/-- Count the nibbles of a chunk in the empty counters. -/
def countChunk (map_block : BitVec 32) : (remaining : Nat) -> Logged BlockFile Unit
  | 0 => pure ()
  | remaining + 1 => do
      let type := getMapBlockType (map_block.setWidth 8)
      if type ≠ 0 then put fun header => header.addEmpty (type - 1) 1
      countChunk (map_block >>> 4) remaining

/-- Restore the empty counters and the allocation hints. -/
def fixAllocationCounters : Logged BlockFile Unit := do
  (List.range kMaxNumBlocks).forM fun i => do
    put fun header => header.setHint i 0
    put fun header => header.setEmpty i 0
  let chunks ← Logged.read fun file => file.header.max_entries / 32
  (List.range chunks).forM fun i => do
    let map_block ← Logged.read fun file => Bitmap.word file.header.allocation_map i
    countChunk map_block 8

/-- The value of a length in a signed word. -/
def toInt32 (length : Nat) : Int := (BitVec.ofNat 32 length).toInt

/-- Repair the header of a file that was being updated. -/
def fixBlockFileHeader : Logged BlockFile Bool := do
  let file ← Logged.read id
  let header := file.header
  let file_size := toInt32 file.length
  if file_size < kBlockHeaderSize then return false
  let expected : Int := header.entry_size * header.max_entries + kBlockHeaderSize
  if file_size ≠ expected then
    let max_expected : Int := header.entry_size * kMaxBlocks + kBlockHeaderSize
    if file_size < expected ∨ header.emptyAt 3 ≠ 0 ∨ max_expected < file_size then return false
    -- The process stopped while it was growing the file.
    put fun header => header.setMaxEntries
      ((file_size - kBlockHeaderSize) / header.entry_size).toNat
  fixAllocationCounters
  put fun header => header.setUpdating 0
  return true

/-- Open a block file, which fails on a header that is not usable. -/
def openBlockFile : Logged BlockFile Bool := do
  let file ← Logged.read id
  if file.length < kBlockHeaderSize then return false
  if kBlockMagic ≠ file.header.magic ∨ kCurrentVersion ≠ file.header.version then return false
  if file.header.updating ≠ 0 then
    -- The last instance was not shut down properly.
    if !(← fixBlockFileHeader) then return false
  return true

/-- Look for a nibble of a type in the remaining chunks, from the current one
on and around the end of the map. -/
def searchMap (header : BlockFileHeader)
    (target : Nat) : (remaining current : Nat) -> Option (Nat × Nat)
  | 0, _ => none
  | remaining + 1, current =>
    let current := if current = header.max_entries / 32 then 0 else current
    match nibbleOfType target (Bitmap.word header.allocation_map current) 0 8 with
    | some j => some (current, j)
    | none => searchMap header target remaining (current + 1)

/-- Create an entry of a size on the allocation map, in a nibble of the target
type. -/
def createMapBlock (target size : Nat) : Logged BlockFile (Option Nat) := do
  if target = 0 ∨ kMaxNumBlocks < target ∨ size = 0 ∨ kMaxNumBlocks < size then return none
  let header ← Logged.read (·.header)
  match searchMap header target (header.max_entries / 32) (header.hintAt (target - 1)) with
  | some (current, j) =>
    lock
    let index_offset := j * 4 + 4 - target
    let to_add := Bitmap.mask 32 size index_offset
    put fun header => header.setMap (header.allocation_map.setIfInBounds current
        (Bitmap.word header.allocation_map current ||| to_add))
    put fun header => header.setHint (target - 1) current
    put fun header => header.addEmpty (target - 1) (-1)
    put fun header => header.addEntries 1
    if target ≠ size then put fun header => header.addEmpty (target - size - 1) 1
    unlock
    return some (current * 32 + index_offset)
  | none =>
    fixAllocationCounters
    return none

/-- Delete an entry from the allocation map. -/
def deleteMapBlock (index size : Nat) : Logged BlockFile Unit := do
  if kMaxNumBlocks < size then return ()
  let map ← Logged.read (·.header.allocation_map)
  let map_block := mapBlockOf map index
  -- The type of block that will be available after this one is deleted.
  let bits_at_end := 4 - size - index % 4
  let end_mask := (0xf#8 <<< (4 - bits_at_end)) &&& 0xf#8
  let new_value := map_block &&& ~~~Bitmap.mask 8 size (index % 4)
  let new_type := getMapBlockType new_value
  lock
  let to_clear := Bitmap.mask 8 size (index % 8)
  put fun header => header.setMap (setByteMap header.allocation_map (index / 8)
      (byteMap header.allocation_map (index / 8) &&& ~~~to_clear))
  if map_block &&& end_mask = 0#8 then
    if bits_at_end ≠ 0 then put fun header => header.addEmpty (bits_at_end - 1) (-1)
    put fun header => header.addEmpty (new_type - 1) 1
  put fun header => header.addEntries (-1)
  unlock

/-- The empty blocks of a header. -/
def emptyBlocks (header : BlockFileHeader) : Int :=
  ((List.range kMaxNumBlocks).map fun i => header.emptyAt i * (i + 1)).sum

/-- Whether the file should not be used as it is to store another entry of a
number of blocks. -/
def needToGrowBlockFile (header : BlockFileHeader) (block_count : Nat) : Bool :=
  let have_space := (List.range kMaxNumBlocks).any fun i =>
    decide (block_count - 1 <= i) && decide (header.emptyAt i ≠ 0)
  if header.next_file ≠ 0 ∧ emptyBlocks header < kMaxBlocks / 10 then true
  else !have_space

/-- The number of blocks of a file after it grew. -/
def grownSize (max_entries : Nat) : Nat :=
  if kMaxBlocks < max_entries + 1024 then kMaxBlocks else max_entries + 1024

/-- Grow a file, whose length can be set or not. -/
def growBlockFile (lengthSet : Bool) : Logged BlockFile Bool := do
  let header ← Logged.read (·.header)
  if kMaxBlocks = header.max_entries then return false
  let new_size := grownSize header.max_entries
  lock
  if !lengthSet then
    let header ← Logged.read (·.header)
    if header.updating < 10 then
      if !(← fixBlockFileHeader) then
        put fun header => header.setUpdating 100
        unlock
        return false
    let header ← Logged.read (·.header)
    unlock
    return decide (new_size <= header.max_entries)
  Logged.persist fun file =>
    { file with length := new_size * file.header.entry_size + kBlockHeaderSize }
  put fun header => header.setEmpty 3 ((new_size - header.max_entries) / 4)
  put fun header => header.setMaxEntries new_size
  unlock
  return true

/-- Link a full file to the next one of its chain, which is a new file when
there is none yet. No file follows when the new one is zero. -/
def nextFile (new_file : Nat) : Logged BlockFile Unit := do
  let header ← Logged.read (·.header)
  if header.next_file = 0 ∧ new_file ≠ 0 then
    lock
    put fun header => header.setNextFile new_file
    unlock

/-- Prepare one file of a chain for a new block, and tell whether the block is
to be taken from it. Otherwise the next file of the chain is looked at, or
the file could not grow. -/
def fileForNewBlock (block_count : Nat) (lengthSet : Bool)
    (new_file : Nat) : Logged BlockFile Bool := do
  let header ← Logged.read (·.header)
  if needToGrowBlockFile header block_count then
    if kMaxBlocks = header.max_entries then
      nextFile new_file
      return false
    growBlockFile lengthSet
  else return true

/-- The smallest type with empty blocks for a number of blocks, or zero. -/
def targetSize (header : BlockFileHeader) (block_count : Nat) : Nat :=
  ((List.range' block_count (5 - block_count)).find? fun i =>
    decide (header.emptyAt (i - 1) ≠ 0)).getD 0

/-- Create an entry of a number of blocks in a file. -/
def createBlock (block_count : Nat) (lengthSet : Bool)
    (new_file : Nat) : Logged BlockFile (Option Nat) := do
  if block_count < 1 ∨ 4 < block_count then return none
  if !(← fileForNewBlock block_count lengthSet new_file) then return none
  let header ← Logged.read (·.header)
  createMapBlock (targetSize header block_count) block_count

/-- Skip a file that was found empty in the chain. -/
def removeEmptyFile (next_file : Nat) : Logged BlockFile Unit := do
  let header ← Logged.read (·.header)
  if header.next_file ≠ 0 then put fun header => header.setNextFile next_file

/-- A new block file of a type. -/
def createBlockFile (index : Nat) (file_type : FileType) : BlockFile where
  header :=
    { BlockFileHeader.init with
      entry_size := blockSizeForFileType file_type
      this_file := index }
  length := kBlockHeaderSize

end

end Chromium.DiskCache
