import Chromium.Library.SinglePrecision
import Chromium.VisitedLink.HashTable
import Mathlib.Data.Vector.Basic

/-!
# The master of the visited links

`VisitedLinkMaster`: the operations on the table, its resizing, the changes
collected while the table is rebuilt, and the writes posted to the file
thread.
-/

namespace Chromium.VisitedLink

open List hiding Vector after count length nil set

section

open Library

/-- A task posted to the file thread. -/
inductive FileTask
  | write (offset : Int) (data : List UInt8)
  | setEndOfFile
  deriving DecidableEq

/-- The bytes of a 32-bit integer. -/
def bytes32 (value : Int) : List UInt8 :=
  let bits := (value % 2 ^ 32).toNat
  [UInt8.ofNat bits, UInt8.ofNat (bits / 2 ^ 8), UInt8.ofNat (bits / 2 ^ 16),
    UInt8.ofNat (bits / 2 ^ 24)]

/-- The bytes of a fingerprint. -/
def bytes64 (fp : Fingerprint) : List UInt8 :=
  (List.range 8).map fun index => UInt8.ofNat (fp.toNat / 2 ^ (8 * index))

/-- The bytes of a stretch of the table. -/
def tableBytes (fingerprints : List Fingerprint) : List UInt8 := fingerprints.flatMap bytes64

def kFileHeaderUsedOffset : Nat := 12

def kFileHeaderSaltOffset : Nat := 16

def kLinkSaltLength : Nat := 8

def kFileHeaderSize : Nat := kFileHeaderSaltOffset + kLinkSaltLength

def kFileSignature : Int := 0x6b6e4c56

def kFileCurrentVersion : Int := 2

def kDefaultTableSize : Nat := 16381

def kBigDeleteThreshold : Nat := 64

def sizeofFingerprint : Nat := 8

def sizeofSharedHeader : Nat := 12

/-- What the master does not decide: which table sizes shared memory can be
had for, whether the file can be opened, and what stands in memory behind the
table. -/
structure Environment where
  allocates : Nat -> Bool
  opens : Bool
  behind : Fingerprint

/-- The members of the master. `allocationFailed` records that memory for a
table was refused, `aborted` that a write of more bytes than a 32-bit integer
counts was posted, and `readsPastEnd` that bytes behind the table were
written. -/
structure Master where
  table : Table
  salt : Vector UInt8 kLinkSaltLength
  tableBuilder : Bool
  addedSinceRebuild : List Fingerprint
  deletedSinceRebuild : List Fingerprint
  file : Bool
  posted : List FileTask
  allocationFailed : Bool
  aborted : Bool
  readsPastEnd : Bool
  deriving DecidableEq

/-- A URL as the master sees it: invalid, or known by its fingerprint. -/
abbrev URL := Option Fingerprint

/-- Insertion into a `std::set`, which is iterated in increasing order. -/
def setInsert (set : List Fingerprint) (element : Fingerprint) : List Fingerprint :=
  if element ∈ set then set else set.orderedInsert (· <= ·) element

/-- Removal from a `std::set`. -/
def setErase (set : List Fingerprint) (element : Fingerprint) : List Fingerprint :=
  set.filter fun other => decide (other ≠ element)

namespace Master

@[simps]
def setTable (master : Master) (table : Table) : Master := { master with table := table }

/-- `WriteToFile`; the offset and the size are 32-bit integers. -/
def writeToFile (master : Master) (offset : Nat) (data : List UInt8) : Master :=
  if data.length < 2 ^ 31 then
    { master with
      posted := master.posted ++ [.write ((offset : Int).bmod (2 ^ 32)) data] }
  else { master with aborted := true }

/-- `WriteUsedItemCountToFile`. -/
def writeUsedItemCountToFile (master : Master) : Master :=
  if master.file then master.writeToFile kFileHeaderUsedOffset (bytes32 master.table.usedItems)
  else master

variable (env : Environment)

/-- The fingerprints in memory from a place on; the one behind the table is
what the environment left there. -/
def memory (master : Master) (first count : Nat) : List Fingerprint :=
  (master.table.hashTable ++ [env.behind]).drop first |>.take count

/-- Write a number of fingerprints from a place of the table. -/
def writeRange (master : Master) (first count : Nat) : Master :=
  let written :=
    master.writeToFile (first * sizeofFingerprint + kFileHeaderSize)
      (tableBytes (master.memory env first count))
  if first + count <= master.table.tableLength then written
  else { written with readsPastEnd := true }

/-- `WriteHashRangeToFile`. -/
def writeHashRangeToFile (master : Master) (firstHash lastHash : Nat) : Master :=
  if master.file then
    if lastHash < firstHash then
      let master := master.writeRange env firstHash (master.table.tableLength - firstHash + 1)
      master.writeRange env 0 (lastHash + 1)
    else master.writeRange env firstHash (lastHash - firstHash + 1)
  else master

section

variable (master : Master)

/-- Post that the file ends here. -/
def postSetEndOfFile : Master := { master with posted := master.posted ++ [.setEndOfFile] }

/-- Open the file. -/
def openFile : Master := { master with file := true }

/-- `WriteFullTable`. -/
def writeFullTable (master : Master) : Master :=
  if master.file || env.opens then
    let master := master.openFile
    let header :=
      bytes32 kFileSignature ++ bytes32 kFileCurrentVersion ++
        bytes32 master.table.tableLength ++ bytes32 master.table.usedItems
    let master := master.writeToFile 0 header
    let master := master.writeToFile header.length master.salt.toList
    let master := master.writeToFile kFileHeaderSize (tableBytes master.table.hashTable)
    master.postSetEndOfFile
  else master

/-- `CreateURLTable`, initialised to empty. A table whose bytes the 32-bit
allocation size cannot count is not had either. -/
def createURLTable (numEntries : Nat) : Option Table :=
  if numEntries * sizeofFingerprint + sizeofSharedHeader < 2 ^ 32 ∧
      env.allocates numEntries = true then
    some (Table.empty numEntries)
  else none

/-- `ComputeTableLoad`. -/
def computeTableLoad : ℚ := divideSingle master.table.usedItems master.table.tableLength

def tableSizes : List Nat :=
  [16381, 32767, 65521, 130051, 262127, 524269, 1048549, 2097143, 4194301,
    8388571, 16777199, 33554347]

/-- `NewTableSizeForCount`. -/
def newTableSizeForCount (itemCount : Int) : Nat :=
  let desired := (itemCount * 3).bmod (2 ^ 32)
  (tableSizes.find? fun size : Nat => decide (desired < size)).getD
    ((itemCount * 2 - 1) % 2 ^ 32).toNat

/-- The fingerprints that `ResizeTable` copies, in order. -/
def storedFingerprints (table : Table) : List Fingerprint :=
  table.hashTable.filter fun fp => decide (fp ≠ nullFingerprint)

/-- `ResizeTable`. -/
def resizeTable (master : Master) (newSize : Nat) : Master :=
  match createURLTable env newSize with
  | none => { master with allocationFailed := true }
  | some newTable =>
    let copied :=
      { newTable with notReached := master.table.notReached }.addFingerprints
        (storedFingerprints master.table)
    (master.setTable copied).writeFullTable env

/-- `ResizeTableIfNecessary`, with whether it resized the table. -/
def resizeTableIfNecessary (master : Master) : Master × Bool :=
  let maxTableLoad := roundSingle (1 / 2)
  let minTableLoad := roundSingle (1 / 5)
  let load := master.computeTableLoad
  if load < maxTableLoad ∧ (roundSingle master.table.tableLength <= roundSingle kDefaultTableSize ∨
        load > minTableLoad) then
    (master, false)
  else (master.resizeTable env (newTableSizeForCount master.table.usedItems), true)

/-- What `TryToAddURL` notes while a rebuild is in progress. -/
def noteAddition (fp : Fingerprint) : Master :=
  if master.tableBuilder then
    { master with
      deletedSinceRebuild := setErase master.deletedSinceRebuild fp
      addedSinceRebuild := setInsert master.addedSinceRebuild fp }
  else master

/-- The table takes no more additions. -/
def isFull : Bool := decide (master.table.usedItems / 8 > master.table.tableLength / 10)

/-- `TryToAddURL`, for a profile that keeps its history. -/
def tryToAddURL (url : URL) : Master × Option Nat :=
  match url with
  | none => (master, none)
  | some fp =>
    let master := master.noteAddition fp
    if master.isFull then (master, none)
    else
      let (table, index) := master.table.addFingerprint fp
      (master.setTable table, index)

end

variable (master : Master)

/-- `AddURL`. -/
def addURL (url : URL) : Master :=
  let (master, index) := master.tryToAddURL url
  match index with
  | some index =>
    if master.tableBuilder then master
    else
      let master := master.writeUsedItemCountToFile
      let master := master.writeHashRangeToFile env index index
      (master.resizeTableIfNecessary env).1
  | none => master

/-- One round of `AddURLs`. -/
def addURLsStep (url : URL) : Master :=
  let (master, index) := master.tryToAddURL url
  if !master.tableBuilder && index.isSome then (master.resizeTableIfNecessary env).1
  else master

/-- `AddURLs`. -/
def addURLs (urls : List URL) : Master :=
  let master := urls.foldl (addURLsStep env) master
  if master.tableBuilder then master
  else master.writeFullTable env

/-- `DeleteAllURLs`. -/
def deleteAllURLs : Master :=
  let cleared : Table :=
    { Table.empty master.table.tableLength with
      notReached := master.table.notReached }
  let master :=
    { master.setTable cleared with
      addedSinceRebuild := []
      deletedSinceRebuild := [] }
  let (master, resized) := master.resizeTableIfNecessary env
  if resized then master else master.writeFullTable env

/-- `DeleteFingerprint`. -/
def deleteFingerprint (updateFile : Bool) (master : Master) (fp : Fingerprint) : Master :=
  if master.table.tableLength = 0 then master.setTable master.table.reach
  else if !master.table.isVisited fp then master
  else
    let master := master.setTable (master.table.countItems (-1))
    let master := if updateFile then master.writeUsedItemCountToFile else master
    let deletedHash := master.table.hashFingerprint fp
    let endRange := master.table.endRange deletedHash
    let master := master.setTable (master.table.reshuffle fp deletedHash endRange)
    if updateFile then master.writeHashRangeToFile env deletedHash endRange
    else master

/-- `DeleteFingerprintsFromCurrentTable`. -/
def deleteFingerprintsFromCurrentTable (fingerprints : List Fingerprint) : Master :=
  let bulkWrite := decide (fingerprints.length > kBigDeleteThreshold)
  let master := fingerprints.foldl (deleteFingerprint env !bulkWrite) master
  let (master, resized) := master.resizeTableIfNecessary env
  if resized then master
  else if bulkWrite then master.writeFullTable env
  else master

/-- What `DeleteURLs` does with a URL while a rebuild is in progress. -/
def deleteDuringRebuild (fp : Fingerprint) : Master :=
  let master :=
    { master with
      deletedSinceRebuild := setInsert master.deletedSinceRebuild fp
      addedSinceRebuild := setErase master.addedSinceRebuild fp }
  master.deleteFingerprint env false fp

/-- `DeleteURLs`. -/
def deleteURLs (urls : List URL) : Master :=
  if urls.isEmpty then master
  else
    let fingerprints := urls.filterMap id
    if master.tableBuilder then fingerprints.foldl (deleteDuringRebuild env) master
    else master.deleteFingerprintsFromCurrentTable env (fingerprints.foldl setInsert [])

/-- `OnTableRebuildComplete`, called with success. -/
def onTableRebuildComplete (fingerprints : List Fingerprint) : Master :=
  let newTableSize :=
    newTableSizeForCount (((fingerprints.length + master.addedSinceRebuild.length : Nat) :
        Int).bmod (2 ^ 32))
  let master :=
    match createURLTable env newTableSize with
    | none => { master with allocationFailed := true }
    | some newTable =>
      let table :=
        { newTable with
          notReached := master.table.notReached }.addFingerprints fingerprints
      let table := table.addFingerprints master.addedSinceRebuild
      let master := { master.setTable table with addedSinceRebuild := [] }
      let master := master.deleteFingerprintsFromCurrentTable env master.deletedSinceRebuild
      { master with deletedSinceRebuild := [] }.writeFullTable env
  { master with tableBuilder := false }

end Master

end

/-!
## The table of the master

Writing the file leaves the table alone. Resizing keeps the set the table
stands for and makes room for the next addition.
-/

section

open Library Library.Probing

/-- Two masters that differ in what was written to the file only. -/
structure OnlyWrites (before after : Master) : Prop where
  table : after.table = before.table
  tableBuilder : after.tableBuilder = before.tableBuilder
  addedSinceRebuild : after.addedSinceRebuild = before.addedSinceRebuild
  deletedSinceRebuild : after.deletedSinceRebuild = before.deletedSinceRebuild
  allocationFailed : after.allocationFailed = before.allocationFailed

namespace OnlyWrites

theorem refl (master : Master) : OnlyWrites master master := ⟨rfl, rfl, rfl, rfl, rfl⟩

theorem trans (first : OnlyWrites before middle) (second : OnlyWrites middle after) :
    OnlyWrites before after where
  table := second.table.trans first.table
  tableBuilder := second.tableBuilder.trans first.tableBuilder
  addedSinceRebuild := second.addedSinceRebuild.trans first.addedSinceRebuild
  deletedSinceRebuild := second.deletedSinceRebuild.trans first.deletedSinceRebuild
  allocationFailed := second.allocationFailed.trans first.allocationFailed

theorem setTable (writes : OnlyWrites before after) (table : Table) :
    OnlyWrites (before.setTable table) (after.setTable table) :=
  ⟨rfl, writes.tableBuilder, writes.addedSinceRebuild,
    writes.deletedSinceRebuild, writes.allocationFailed⟩

end OnlyWrites

namespace Master

theorem writeToFile_onlyWrites (master : Master) (off : Nat) (data : List UInt8) :
    OnlyWrites master (master.writeToFile off data) := by
  unfold writeToFile
  split <;> exact ⟨rfl, rfl, rfl, rfl, rfl⟩

theorem writeUsedItemCountToFile_onlyWrites (master : Master) :
    OnlyWrites master master.writeUsedItemCountToFile := by
  unfold writeUsedItemCountToFile
  split
  · exact writeToFile_onlyWrites _ _ _
  · exact .refl master

variable (env : Environment)

variable (master : Master)

theorem writeRange_onlyWrites {n : Nat} :
    OnlyWrites master (master.writeRange env first n) := by
  have written :=
    writeToFile_onlyWrites master (first * sizeofFingerprint + kFileHeaderSize)
      (tableBytes (master.memory env first n))
  unfold writeRange
  split
  · exact written
  · exact ⟨written.table, written.tableBuilder, written.addedSinceRebuild,
      written.deletedSinceRebuild, written.allocationFailed⟩

theorem writeHashRangeToFile_onlyWrites (firstHash lastHash : Nat) :
    OnlyWrites master (master.writeHashRangeToFile env firstHash lastHash) := by
  unfold writeHashRangeToFile
  split
  · split
    · exact (writeRange_onlyWrites env master).trans (writeRange_onlyWrites env _)
    · exact writeRange_onlyWrites env master
  · exact .refl master

theorem openFile_onlyWrites : OnlyWrites master master.openFile := ⟨rfl, rfl, rfl, rfl, rfl⟩

theorem postSetEndOfFile_onlyWrites : OnlyWrites master master.postSetEndOfFile :=
  ⟨rfl, rfl, rfl, rfl, rfl⟩

theorem writeFullTable_onlyWrites : OnlyWrites master (master.writeFullTable env) := by
  unfold writeFullTable
  split
  · dsimp only
    exact ((((openFile_onlyWrites _).trans (writeToFile_onlyWrites _ _ _)).trans
      (writeToFile_onlyWrites _ _ _)).trans
        (writeToFile_onlyWrites _ _ _)).trans (postSetEndOfFile_onlyWrites _)
  · exact .refl master

end Master

/-- A table stands for a set of visited fingerprints. -/
structure StandsFor (table : Table) (visited : Set Fingerprint) : Prop where
  wellFormed : table.WellFormed
  contents : ∀ fp ≠ nullFingerprint, table.Contains fp ↔ fp ∈ visited
  positive : 0 < table.tableLength
  allocated : table.tableLength * sizeofFingerprint + sizeofSharedHeader < 2 ^ 32

/-- A table that takes another addition. -/
structure Roomy (table : Table) : Prop where
  room : table.nonZero < table.tableLength
  spacious : table.nonZero / 8 <= table.tableLength / 10

namespace Table

theorem cell_empty {len place : Nat} : (Table.empty len).cell place = nullFingerprint := by
  rw [cell, fingerprintAt, empty, getD_eq_getElem?_getD, List.getElem?_replicate]
  split <;> rfl

variable (length : Nat)

@[simp] theorem tableLength_empty : (Table.empty length).tableLength = length := by
  simp [Table.empty, tableLength]

theorem nonZero_empty : (Table.empty length).nonZero = 0 := by
  by_contra some
  obtain ⟨place, -, taken⟩ := exists_of_tally_pos (Nat.pos_of_ne_zero some)
  rw [cell_empty] at taken
  exact absurd taken (by decide)

theorem empty_wellFormed : (Table.empty length).WellFormed where
  probed := Probed.of_empty fun place _ => cell_empty
  counted := by rw [nonZero_empty]; rfl

theorem not_contains_empty (notNull : fp ≠ nullFingerprint) :
    ¬(Table.empty length).Contains fp := by
  rintro ⟨place, -, hit⟩
  rw [cell_empty] at hit
  exact notNull hit.symm

end Table

/-- An empty table stands for the empty set, whatever was reached before. -/
theorem standsFor_empty (positive : 0 < length)
    (allocated : length * sizeofFingerprint + sizeofSharedHeader < 2 ^ 32)
    (reached : Bool) :
    StandsFor { Table.empty length with notReached := reached } ∅ where
  wellFormed := ⟨(Table.empty_wellFormed length).probed, (Table.empty_wellFormed length).counted⟩
  contents _ notNull := iff_of_false (Table.not_contains_empty length notNull) id
  positive := (Table.tableLength_empty length).symm ▸ positive
  allocated := (Table.tableLength_empty length).symm ▸ allocated

/-- Counting the places that are not empty is counting the fingerprints. -/
theorem tally_hashTable {hashTable : List Fingerprint} : tally (fun place =>
          decide (hashTable.getD place nullFingerprint ≠ nullFingerprint)) true hashTable.length =
      (hashTable.filter fun fp => decide (fp ≠ nullFingerprint)).length := by
  induction hashTable using reverseRecOn with
  | nil => rfl
  | append_singleton front last ih =>
    have same : ∀ place < front.length,
        decide ((front ++ [last]).getD place nullFingerprint ≠ nullFingerprint) =
          decide (front.getD place nullFingerprint ≠ nullFingerprint) := by
      intro place inside
      rw [getD_eq_getElem?_getD, getD_eq_getElem?_getD, List.getElem?_append_left inside]
    rw [length_append, length_singleton, tally_succ, tally_congr same, ih, filter_append,
      length_append, getD_eq_getElem?_getD]
    by_cases null : last = nullFingerprint <;> simp [null]

/-- The number of items is the number of fingerprints that a resize copies. -/
theorem length_storedFingerprints (table : Table) :
    (Master.storedFingerprints table).length = table.nonZero :=
  tally_hashTable.symm

/-- The copied fingerprints are those of the table. -/
theorem mem_storedFingerprints (notNull : fp ≠ nullFingerprint) :
    fp ∈ Master.storedFingerprints table ↔ table.Contains fp := by
  rw [Master.storedFingerprints, mem_filter]
  simp only [notNull, ne_eq, not_false_eq_true, decide_true, and_true,
    Table.Contains, Holds, Table.cell, Table.fingerprintAt,
    Table.tableLength]
  rw [mem_iff_getElem]
  constructor
  · rintro ⟨place, inside, hit⟩
    refine ⟨place, inside, ?_⟩
    rw [getD_eq_getElem?_getD, List.getElem?_eq_getElem inside, hit]
    rfl
  · rintro ⟨place, inside, hit⟩
    refine ⟨place, inside, ?_⟩
    rwa [getD_eq_getElem?_getD, List.getElem?_eq_getElem inside] at hit

/-- A number of items larger than a third of all listed sizes. -/
theorem le_of_find?_tableSizes {desired : Int}
    (none : (Master.tableSizes.find? fun size : Nat => decide (desired < size)) = none) :
    (33554347 : Nat) <= desired := by
  have last : 33554347 ∈ Master.tableSizes := by simp [Master.tableSizes]
  have large := List.find?_eq_none.mp none _ last
  simpa only [decide_eq_true_eq, not_lt] using large

/-- The new size leaves room for the items counted and more, while three
times their number does not overflow. -/
theorem newTableSizeForCount_roomy {n : Nat} (fits : 3 * n < 2 ^ 31) :
    n < Master.newTableSizeForCount n ∧
      n / 8 <= Master.newTableSizeForCount n / 10 := by
  have desired : ((n : Int) * 3).bmod (2 ^ 32) = 3 * n := by
    rw [Int.bmod_eq_of_le] <;> norm_num <;> omega
  have chosen : Master.newTableSizeForCount n = (Master.tableSizes.find?
          fun size : Nat => decide (3 * (n : Int) < size)).getD
            (((n : Int) * 2 - 1) % 2 ^ 32).toNat := by
    rw [Master.newTableSizeForCount, desired]
  cases hit : Master.tableSizes.find? fun size : Nat => decide (3 * (n : Int) < size) with
  | some size =>
    have larger : 3 * (n : Int) < size := by simpa using List.find?_some hit
    rw [hit, Option.getD_some] at chosen
    omega
  | none =>
    have large := le_of_find?_tableSizes hit
    have wide : ((n : Int) * 2 - 1) % 2 ^ 32 = (n * 2 - 1 : Nat) := by
      rw [Int.emod_eq_of_lt] <;> omega
    rw [hit, Option.getD_none, wide, Int.toNat_natCast] at chosen
    omega

/-- A load that is computed below one half leaves room. -/
theorem roomy_of_load {master : Master} (wf : master.table.WellFormed)
    (pos : 0 < master.table.tableLength)
    (low : master.computeTableLoad < roundSingle (1 / 2)) :
    Roomy master.table := by
  have half : 2 * ((master.table.usedItems : Int) : ℚ) < (master.table.tableLength : ℚ) :=
    lt_of_divideSingle_lt_half (by exact_mod_cast pos) low
  rw [wf.counted] at half
  have fewer : 2 * master.table.nonZero < master.table.tableLength := by exact_mod_cast half
  exact ⟨by omega, by omega⟩

end

end Chromium.VisitedLink
