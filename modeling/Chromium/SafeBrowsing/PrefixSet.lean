import Chromium.Library.Bytes
import Chromium.SafeBrowsing.Util

/-!
# The compressed set of safe-browsing prefixes

The constructor, the membership test, the accessors and the file of `PrefixSet`:
an index of prefixes with the place of their first delta, and 16-bit deltas.
-/

namespace Chromium.SafeBrowsing

/-- The members of a prefix set. The checksum is the one the constructor
leaves unset when it is given no prefixes. -/
structure PrefixSet where
  index : List (SBPrefix × Nat)
  deltas : List UInt16
  checksum : Option UInt32
  deriving DecidableEq

namespace PrefixSet

/-- The longest run of deltas before a new index entry. -/
def kMaxRun : Nat := 100

/-- `current += delta` on a signed 32-bit integer. -/
def advance (current : SBPrefix) (delta : UInt16) : SBPrefix := current + delta.toUInt32.toInt32

/-- The members under construction and the locals of the constructor. -/
structure Building where
  index : List (SBPrefix × Nat)
  deltas : List UInt16
  checksum : UInt32
  prevPrefix : SBPrefix
  runLength : Nat
  deriving DecidableEq

namespace Building

/-- The state before the loop, made from the first prefix. -/
def start (first : SBPrefix) : Building where
  index := [(first, 0)]
  deltas := []
  checksum := first.toUInt32 ^^^ UInt32.ofNat 0
  prevPrefix := first
  runLength := 0

variable (building : Building)

/-- A new index entry for a prefix. -/
def pushIndex (item : SBPrefix) : Building where
  index := building.index ++ [(item, building.deltas.length)]
  deltas := building.deltas
  checksum := building.checksum ^^^ item.toUInt32 ^^^ UInt32.ofNat building.deltas.length
  prevPrefix := item
  runLength := 0

/-- One more delta of the current run. -/
def pushDelta (item : SBPrefix) (delta16 : UInt16) : Building where
  index := building.index
  deltas := building.deltas ++ [delta16]
  checksum := building.checksum ^^^ delta16.toUInt32
  prevPrefix := item
  runLength := building.runLength + 1

/-- One round of the constructor's loop. -/
def step (item : SBPrefix) : Building :=
  if item = building.prevPrefix then building
  else
    let delta := (item - building.prevPrefix).toUInt32
    let delta16 := delta.toUInt16
    if delta ≠ delta16.toUInt32 ∨ building.runLength ≥ kMaxRun then building.pushIndex item
    else building.pushDelta item delta16

end Building

/-- The constructor of `PrefixSet`. -/
def ofSortedPrefixes (sortedPrefixes : List SBPrefix) : PrefixSet :=
  match sortedPrefixes with
  | [] => ⟨[], [], none⟩
  | first :: rest =>
    let building := rest.foldl Building.step (Building.start first)
    ⟨building.index, building.deltas, some building.checksum⟩

/-- `std::upper_bound` over the index: the position of the first entry after
a prefix. -/
def upperBound (set : PrefixSet) (item : SBPrefix) : Nat :=
  set.index.findIdx fun entry => decide (item < entry.1)

/-- The place of the first delta of an index entry, or the end of the deltas
behind the last entry. -/
def deltasAt (set : PrefixSet) (pos : Nat) : Nat :=
  match set.index[pos]? with
  | some entry => entry.2
  | none => set.deltas.length

/-- The loop of `Exists` that accumulates deltas while a match is possible. -/
def accumulate (deltas : List UInt16) (item : SBPrefix) (bound : Nat) (current : SBPrefix)
    (di : Nat) : SBPrefix :=
  if di < bound ∧ current < item then
    accumulate deltas item bound (advance current (deltas.getD di 0)) (di + 1)
  else current
termination_by bound - di

/-!
## Files

The file of a set, where `size_t` has 64 bits: a header, the index as it lies
in memory, the deltas, and a digest of these bytes.
-/

section

open List
open Library

def kMagic : BitVec (8 * 4) := 0x864088dd

def kVersion : BitVec (8 * 4) := 1

/-- The pair at an element of `index_` in memory, whatever its padding. -/
def entryOf (element : BitVec (8 * 16)) : SBPrefix × Nat :=
  (.ofBitVec (element.setWidth 32), (element >>> 64).toNat)

variable {md5 : Bytes -> BitVec (8 * 16)} {index : List (BitVec (8 * 16))} {deltas : List UInt16}

/-- `PrefixSet::WriteFile`, of an index with these elements in memory. -/
def writeFile (md5 : Bytes -> BitVec (8 * 16)) (index : List (BitVec (8 * 16)))
    (deltas : List UInt16) : Option Bytes :=
  if index.length < 2 ^ 32 ∧ deltas.length < 2 ^ 32 then
    let content :=
      unitBytes 4 [kMagic, kVersion, .ofNat _ index.length, .ofNat _ deltas.length] ++
        (unitBytes 16 index ++ unitBytes 2 (deltas.map UInt16.toBitVec))
    some (content ++ bytesOf 16 (md5 content))
  else none

/-- `PrefixSet::LoadFile`. -/
def loadFile (md5 : Bytes -> BitVec (8 * 16)) (file : Bytes) : Option PrefixSet :=
  if file.length < 16 + 16 then none
  else
    match unitsOf 4 4 (file.take 16) with
    | [magic, version, index_size, deltas_size] =>
      let index_bytes := index_size.toNat * 16
      let size := 16 + index_bytes + deltas_size.toNat * 2
      if magic ≠ kMagic ∨ version ≠ kVersion then none
      else if size + 16 ≠ file.length then none
      else
        let content := file.take size
        if file.drop size ≠ bytesOf 16 (md5 content) then none
        else
          some ⟨(unitsOf 16 index_size.toNat ((content.drop 16).take index_bytes)).map entryOf,
            (unitsOf 2 deltas_size.toNat (content.drop (16 + index_bytes))).map .ofBitVec, none⟩
    | _ => none

/-- What is written is read back. -/
theorem loadFile_of_writeFile (writes : writeFile md5 index deltas = some file) :
    loadFile md5 file = some ⟨index.map entryOf, deltas, none⟩ := by
  unfold writeFile at writes
  split_ifs at writes with fits
  injection writes with isFile
  let fields := [kMagic, kVersion, .ofNat _ index.length, .ofNat _ deltas.length]
  have isHeader : unitsOf 4 4 (unitBytes 4 fields) = fields := unitsOf_unitBytes 4 fields
  have header : (unitBytes 4 fields).length = 16 := length_unitBytes 4 fields
  have isFront := unitsOf_unitBytes 16 index
  have front := length_unitBytes 16 index
  have isBack := unitsOf_unitBytes 2 (deltas.map UInt16.toBitVec)
  have back := length_unitBytes 2 (deltas.map UInt16.toBitVec)
  rw [length_map] at back isBack
  have size : (unitBytes 4 fields ++ (unitBytes 16 index ++
      unitBytes 2 (deltas.map UInt16.toBitVec))).length =
      16 + index.length * 16 + deltas.length * 2 := by
    rw [length_append, length_append, header, front, back, Nat.add_assoc]
  have fileSize : 16 + index.length * 16 + deltas.length * 2 + 16 = file.length := by
    rw [← isFile, length_append, length_bytesOf, size]
  have hasFields : unitsOf 4 4 (file.take 16) = fields := by
    rw [← isFile, append_assoc, take_left' header, isHeader]
  rw [loadFile, if_neg (by omega), hasFields]
  dsimp only [fields]
  rw [BitVec.toNat_ofNat, BitVec.toNat_ofNat, Nat.mod_eq_of_lt fits.1, Nat.mod_eq_of_lt fits.2,
    if_neg (by simp), fileSize, if_neg (by simp), ← size, ← isFile, take_left, drop_left,
    if_neg (not_not.mpr rfl), ← drop_drop, drop_left' header, take_left' front, drop_left' front,
    isFront, isBack, List.map_map, show UInt16.ofBitVec ∘ UInt16.toBitVec = id from rfl, map_id]

/-- What is read is what writing it gives: the header, the elements and the digest. -/
theorem writeFile_of_loadFile {set : PrefixSet} (loads : loadFile md5 file = some set) :
    set.checksum = none ∧
      ∃ index, index.map entryOf = set.index ∧ writeFile md5 index set.deltas = some file := by
  unfold loadFile at loads
  split_ifs at loads with long
  split at loads
  · rename_i index_size deltas_size isHeader
    dsimp only at loads
    generalize isSize : 16 + index_size.toNat * 16 + deltas_size.toNat * 2 = size at loads
    split_ifs at loads with known fits digest
    rw [not_or, not_not, not_not] at known
    rw [not_not] at fits digest
    have header := @unitBytes_unitsOf 4 4 (file.take 16) (by rw [length_take]; omega)
    rw [isHeader, known.1, known.2] at header
    have isFile := take_append_drop size file
    have isFront : (file.take size).take 16 = file.take 16 := by
      rw [take_take, Nat.min_eq_left (by omega)]
    have long : (file.take size).length = size := length_take_of_le (by omega)
    rw [digest] at isFile
    generalize file.take size = content at *
    have front := @unitBytes_unitsOf 16 index_size.toNat
      ((content.drop 16).take (index_size.toNat * 16)) (by rw [length_take, length_drop]; omega)
    have back := @unitBytes_unitsOf 2 deltas_size.toNat
      (content.drop (16 + index_size.toNat * 16)) (by rw [length_drop]; omega)
    cases loads
    refine ⟨rfl, _, rfl, ?_⟩
    dsimp only [writeFile]
    rw [length_map, length_unitsOf, length_unitsOf, if_pos ⟨index_size.isLt, deltas_size.isLt⟩,
      List.map_map, show UInt16.toBitVec ∘ UInt16.ofBitVec = id from rfl, map_id, front, back,
      BitVec.ofNat_toNat, BitVec.ofNat_toNat, BitVec.setWidth_eq, BitVec.setWidth_eq, header,
      ← isFront, ← drop_drop, take_append_drop, take_append_drop, isFile]
  · cases loads

/-- A file is loaded as a set exactly when writing the set gives the file. -/
theorem loadFile_eq_some_iff (file : Bytes) (set : PrefixSet) :
    loadFile md5 file = some set ↔ set.checksum = none ∧
      ∃ index, index.map entryOf = set.index ∧ writeFile md5 index set.deltas = some file := by
  constructor
  · exact writeFile_of_loadFile
  · obtain ⟨entries, deltas, checksum⟩ := set
    rintro ⟨rfl, index, rfl, writes⟩
    exact loadFile_of_writeFile writes

end

end PrefixSet

/-- `PrefixSet::Exists`. -/
def PrefixSet.exists (set : PrefixSet) (item : SBPrefix) : Bool :=
  if set.index.isEmpty then false
  else
    let iter := set.upperBound item
    if iter = 0 then false
    else
      let bound := set.deltasAt iter
      match set.index[iter - 1]? with
      | none => false
      | some entry =>
        if entry.1 = item then true
        else PrefixSet.accumulate set.deltas item bound entry.1 entry.2 == item

namespace PrefixSet

/-- The inner loop of `GetPrefixes`. -/
def pushDeltas (deltas : List UInt16) (deltasEnd : Nat) (current : SBPrefix)
    (di : Nat) : List SBPrefix :=
  if di < deltasEnd then
    let next := advance current (deltas.getD di 0)
    next :: pushDeltas deltas deltasEnd next (di + 1)
  else []
termination_by deltasEnd - di

variable (set : PrefixSet)

/-- The prefixes `GetPrefixes` pushes for one index entry. -/
def binPrefixes (ii : Nat) : List SBPrefix :=
  match set.index[ii]? with
  | none => []
  | some entry => entry.1 :: pushDeltas set.deltas (set.deltasAt (ii + 1)) entry.1 entry.2

/-- `PrefixSet::GetPrefixes`, into an empty vector. -/
def getPrefixes : List SBPrefix := (List.range set.index.length).flatMap set.binPrefixes

/-- The logical index of an index entry. -/
def logicalStart (i : Nat) : Nat := i + set.deltasAt i

/-- The binary search of `IndexBinFor`. -/
def indexBinLoop (set : PrefixSet) (targetIndex : Nat) (lo hi : Nat) : Nat :=
  if 1 < hi - lo then
    let i := (lo + hi) / 2
    if targetIndex < set.logicalStart i then indexBinLoop set targetIndex lo i
    else indexBinLoop set targetIndex i hi
  else lo
termination_by hi - lo

variable (targetIndex : Nat)

/-- `PrefixSet::IndexBinFor`. -/
def indexBinFor : Nat := set.indexBinLoop targetIndex 0 set.index.length

/-- `PrefixSet::GetSize`. -/
def getSize : Nat := set.index.length + set.deltas.length

/-- `PrefixSet::IsDeltaAt`; nothing is returned when its check fails. -/
def isDeltaAt : Option Bool :=
  if targetIndex < set.getSize then
    let i := set.indexBinFor targetIndex
    some (decide (targetIndex > set.logicalStart i))
  else none

/-- `PrefixSet::DeltaAt`; nothing is returned when one of its checks
fails. -/
def deltaAt : Option UInt16 :=
  if targetIndex < set.getSize then
    let i := set.indexBinFor targetIndex
    if targetIndex > set.logicalStart i then set.deltas[targetIndex - i - 1]?
    else none
  else none

/-- The loops of `CheckChecksum`. -/
def recomputed (index : List (SBPrefix × Nat)) (deltas : List UInt16) : UInt32 :=
  deltas.foldl (fun checksum delta => checksum ^^^ delta.toUInt32)
    (index.foldl (fun checksum entry => checksum ^^^ entry.1.toUInt32 ^^^ UInt32.ofNat entry.2) 0)

/-- `PrefixSet::CheckChecksum`, of a set whose checksum is set. -/
def checkChecksum : Bool :=
  set.checksum == some (recomputed set.index set.deltas)

end PrefixSet

end Chromium.SafeBrowsing
