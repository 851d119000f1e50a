import Chromium.Library.Bytes
import Chromium.VisitedLink.VisitedSet

/-!
# The range a deletion affects

A deletion changes the places of one cluster only: the saved fingerprints are
added back to places of the cluster.
-/

namespace Chromium.VisitedLink

open List hiding Vector after all count length

namespace Table

open Library Library.Probing

/-- A table in which a cluster of another table is refilled. -/
abbrev RefilledAt (table after : Table) (start length current : Nat) : Prop :=
  Refilled nullFingerprint table.tableLength table.cell after.cell start length current

/-- Adding back the next fingerprint of a cluster. -/
theorem RefilledAt.addFingerprint {table refilled : Table} (wf : table.WellFormed)
    (cluster : table.ClusterAt start length)
    (soFar : table.RefilledAt refilled start length current)
    (sameLength : refilled.tableLength = table.tableLength)
    (lt : current < length) :
    let added := (refilled.addFingerprint (table.cell (slot table.tableLength start current))).1
    table.RefilledAt added start length (current + 1) ∧ added.tableLength = table.tableLength ∧
      added.usedItems = refilled.usedItems + 1 := by
  have shorter := cluster.shorter
  obtain ⟨gap, target, earlier, meets, free, stops⟩ :=
    soFar.stops wf.probed cluster lt
  have taken := cluster.taken current lt
  generalize fingerprintIs : table.cell (slot table.tableLength start current) = fp
    at taken meets stops ⊢
  have stopsAt : refilled.StopsAt fp gap := by
    rw [StopsAt, sameLength]
    exact stops
  have place : refilled.place fp gap = slot table.tableLength start target := by
    rw [Table.place, sameLength]
    exact meets
  have other : refilled.cell (refilled.place fp gap) ≠ fp := by
    rw [place, free]
    exact taken.symm
  have added : refilled.addFingerprint fp =
      ((refilled.store (refilled.place fp gap) fp).countItems 1,
        some (refilled.place fp gap)) := by
    rw [Table.addFingerprint, if_neg (by omega), hashFingerprint_eq]
    simp only [addLoop_eq stopsAt (Nat.zero_le _) (Nat.add_zero _), if_neg other]
  rw [added, place]
  refine ⟨?_, ?_, rfl⟩
  · apply soFar.store lt shorter earlier
    · rw [cell_countItems, fingerprintIs, cell_store_self]
      rw [sameLength]
      exact slot_lt (by omega)
    · intro i ne
      rw [cell_countItems, cell_store_ne ne]
  · rw [tableLength_countItems, tableLength_store, sameLength]

/-- Adding back the fingerprints of a cluster but one. -/
theorem RefilledAt.addFingerprints {table refilled : Table} (fp : Fingerprint)
    (wf : table.WellFormed) (cluster : table.ClusterAt start length)
    (soFar : table.RefilledAt refilled start length current)
    (sameLength : refilled.tableLength = table.tableLength)
    (rest : current + count = length) :
    let saved := (table.fingerprintsFrom start current count).filter
      fun hit => decide (hit ≠ fp)
    let added := refilled.addFingerprints saved
    table.RefilledAt added start length length ∧ added.tableLength = table.tableLength ∧
      added.usedItems = refilled.usedItems + saved.length := by
  induction count generalizing refilled current with
  | zero =>
    obtain rfl : current = length := rest
    refine ⟨soFar, sameLength, ?_⟩
    simp [fingerprintsFrom, Table.addFingerprints]
  | succ count ih =>
    have split : table.fingerprintsFrom start current (count + 1) =
        table.cell (slot table.tableLength start current) ::
          table.fingerprintsFrom start (current + 1) count := by
      rfl
    rw [split]
    by_cases same : table.cell (slot table.tableLength start current) = fp
    · rw [filter_cons_of_neg (by simpa using same)]
      exact ih (soFar.skip (by omega)) sameLength (by omega)
    · rw [filter_cons_of_pos (by simpa using same)]
      obtain ⟨first, firstLength, firstUsed⟩ :=
        soFar.addFingerprint wf cluster sameLength (by omega)
      obtain ⟨all, allLength, allUsed⟩ := ih first firstLength (by omega)
      refine ⟨all, allLength, ?_⟩
      rw [length_cons]
      refine allUsed.trans ?_
      omega

/-- A deletion leaves the places outside the cluster alone and counts one
item less. -/
theorem Shuffling.range {table removed : Table} (wf : table.WellFormed)
    (shuffling : Shuffling table removed fp last shuffled) :
    let deleted := removed.addFingerprints shuffled
    deleted.tableLength = table.tableLength ∧ deleted.usedItems = table.usedItems - 1 ∧
      ∀ i, (∀ gap < last + 1, i ≠ table.place fp gap) ->
        deleted.cell i = table.cell i := by
  have cleared := shuffling.removed.cleared
  have len : removed.tableLength = table.tableLength := shuffling.removed.tableLength
  have used : removed.usedItems = table.usedItems + -1 - last := shuffling.removed.usedItems
  have refilled := RefilledAt.addFingerprints fp wf
    shuffling.cluster (Refilled.of_cleared cleared) len (Nat.zero_add _)
  rw [← shuffling.saved] at refilled
  obtain ⟨all, sameLength, counted⟩ := refilled
  refine ⟨sameLength, ?_, all.others⟩
  rw [counted, shuffling.length, used]
  omega

end Table

/-!
## The file of the visited links

The tasks of the file thread, what a master expects of its file, and reading
the file at the next start.
-/

section

open Library

/-- Run a task on the file thread; a write to a negative offset fails. -/
def FileTask.run (file : File) : FileTask -> File
  | write offset data => if 0 <= offset then file.writeAt offset.toNat data else file
  | setEndOfFile => file.truncate

/-- Run tasks in the order they were posted. -/
def runTasks (file : File) (tasks : List FileTask) : File := tasks.foldl FileTask.run file

theorem runTasks_append : runTasks file (first ++ second) = runTasks (runTasks file first) second :=
  foldl_append

def kFileHeaderSignatureOffset : Nat := 0

def kFileHeaderVersionOffset : Nat := 4

def kFileHeaderLengthOffset : Nat := 8

/-- What `ReadFileHeader` reads. -/
structure FileHeader where
  numEntries : Int
  usedCount : Int
  salt : Vector UInt8 kLinkSaltLength
  deriving DecidableEq

/-- A 32-bit integer of a file. -/
def int32At (bytes : Bytes) (offset : Nat) : Int :=
  (littleEndian ((bytes.drop offset).take 4) : Int).bmod (2 ^ 32)

/-- A fingerprint of a file. -/
def fingerprintOfBytes (bytes : Bytes) : Fingerprint := UInt64.ofNat (littleEndian bytes)

/-- `ReadFileHeader`. -/
def readFileHeader (bytes : Bytes) : Option FileHeader :=
  if bytes.length <= kFileHeaderSize then none
  else if int32At bytes kFileHeaderSignatureOffset ≠ kFileSignature then none
  else if int32At bytes kFileHeaderVersionOffset ≠ kFileCurrentVersion then none
  else
    let numEntries := int32At bytes kFileHeaderLengthOffset
    if (numEntries * sizeofFingerprint + kFileHeaderSize) % 2 ^ 64 ≠ bytes.length then none
    else
      let usedCount := int32At bytes kFileHeaderUsedOffset
      if usedCount > numEntries then none
      else
        some ⟨numEntries, usedCount, .ofFn fun index =>
              bytes.getD (kFileHeaderSaltOffset + index) 0⟩

/-- `InitFromFile`. -/
def Master.initFromFile (env : Environment) (master : Master) (bytes : Bytes) : Option Master :=
  if env.opens then
    match readFileHeader bytes with
    | none => none
    | some header =>
      let numEntries := header.numEntries.toNat
      match createURLTable env numEntries with
      | none => none
      | some _ =>
        let data := bytes.drop kFileHeaderSize
        if data.length < numEntries * sizeofFingerprint then none
        else
          let hashTable :=
            (List.range numEntries).map fun index =>
              fingerprintOfBytes ((data.drop (index * sizeofFingerprint)).take sizeofFingerprint)
          some { master.setTable { master.table with
                  hashTable := hashTable
                  usedItems := header.usedCount } with
              salt := header.salt
              file := true }
  else none

/-- The bytes a file is to have. -/
def fileBytes (tableLength : Nat) (usedItems : Int) (salt : Vector UInt8 kLinkSaltLength)
    (hashTable : List Fingerprint) : Bytes :=
  bytes32 kFileSignature ++ bytes32 kFileCurrentVersion ++
    bytes32 tableLength ++ bytes32 usedItems ++ salt.toList ++ tableBytes hashTable

/-- The bytes that hold a master's table. -/
def Master.image (master : Master) : Bytes :=
  fileBytes master.table.tableLength master.table.usedItems master.salt master.table.hashTable

@[simp] theorem length_bytes32 (val : Int) : (bytes32 val).length = 4 := rfl

@[simp] theorem length_bytes64 (fp : Fingerprint) : (bytes64 fp).length = sizeofFingerprint :=
  rfl

theorem length_tableBytes : (tableBytes hashTable).length = hashTable.length * sizeofFingerprint :=
  length_records length_bytes64 hashTable

theorem length_fileBytes (tableLength : Nat) (usedItems : Int) (salt : Vector UInt8 kLinkSaltLength)
    (hashTable : List Fingerprint) :
    (fileBytes tableLength usedItems salt hashTable).length =
      kFileHeaderSize + hashTable.length * sizeofFingerprint := by
  simp [fileBytes, length_tableBytes, kFileHeaderSize, kFileHeaderSaltOffset]
  omega

theorem littleEndian_bytes32 (low : -2 ^ 31 <= value) (high : value < 2 ^ 31) :
    (littleEndian (bytes32 value) : Int).bmod (2 ^ 32) = value := by
  have bytes : bytes32 value = (List.range 4).map fun i =>
        UInt8.ofNat ((value % 2 ^ 32).toNat / 2 ^ (8 * i)) := by
    simp [bytes32, range_succ]
  have small : (value % 2 ^ 32).toNat < 2 ^ (8 * 4) := by omega
  have wraps : (value % 2 ^ 32).bmod (2 ^ 32) = value.bmod (2 ^ 32) := by
    exact_mod_cast Int.emod_bmod value (2 ^ 32)
  rw [bytes, littleEndian_bytes, Nat.mod_eq_of_lt small,
    Int.toNat_of_nonneg (Int.emod_nonneg _ (by norm_num)), wraps,
    Int.bmod_eq_of_le] <;> norm_num <;> omega

theorem fingerprintOfBytes_bytes64 (fp : Fingerprint) : fingerprintOfBytes (bytes64 fp) = fp := by
  rw [fingerprintOfBytes, bytes64, littleEndian_bytes,
    Nat.mod_eq_of_lt fp.toNat_lt, UInt64.ofNat_toNat]

/-- Reading a 32-bit integer between other bytes. -/
theorem int32At_append (front back : Bytes)
    (split : bytes = front ++ bytes32 value ++ back) (low : -2 ^ 31 <= value)
    (high : value < 2 ^ 31) :
    int32At bytes front.length = value := by
  have read : ((bytes.drop front.length).take 4) = bytes32 value := by
    rw [split, append_assoc, drop_left, take_left' (length_bytes32 value)]
  unfold int32At
  rw [read]
  exact littleEndian_bytes32 low high

/-- Reading the salt between other bytes. -/
theorem saltAt_append (front back : Bytes) (split : bytes = front ++ salt.toList ++ back) :
    (.ofFn fun i => bytes.getD (front.length + i) 0 :
      Vector UInt8 kLinkSaltLength) = salt := by
  apply Vector.ext
  intro i inside
  rw [Vector.getElem_ofFn, split, append_assoc, getD_append_right _ _ _ _ (Nat.le_add_right _ _),
    Nat.add_sub_cancel_left,
    getD_append _ _ _ _ (by simpa using inside),
    getD_eq_getElem _ _ (by simpa using inside)]
  simp

/-- The header of the expected file is accepted. -/
theorem readFileHeader_fileBytes {usedItems : Int} {hashTable : List Fingerprint}
    (len : hashTable.length = tableLength) (pos : 0 < tableLength)
    (short : tableLength < 2 ^ 28) (counted : 0 <= usedItems) (fits : usedItems <= tableLength) :
    readFileHeader (fileBytes tableLength usedItems salt hashTable) =
      some ⟨tableLength, usedItems, salt⟩ := by
  have usedHigh : usedItems < 2 ^ 31 := by omega
  have usedLow : -2 ^ 31 <= usedItems := by omega
  have entriesHigh : (tableLength : Int) < 2 ^ 31 := by omega
  have entriesLow : -2 ^ 31 <= (tableLength : Int) := by omega
  have few : ¬usedItems > tableLength := by omega
  have width : sizeofFingerprint = 8 := rfl
  have header : kFileHeaderSize = 24 := rfl
  have size := length_fileBytes tableLength usedItems salt hashTable
  have long : ¬(fileBytes tableLength usedItems salt hashTable).length <= kFileHeaderSize := by
    rw [size, len, width, header]
    omega
  have whole : ((tableLength : Int) * sizeofFingerprint + kFileHeaderSize) % 2 ^ 64 =
        (fileBytes tableLength usedItems salt hashTable).length := by
    rw [size, len, width, header]
    omega
  have signature : int32At (fileBytes tableLength usedItems salt hashTable)
        kFileHeaderSignatureOffset = kFileSignature :=
    int32At_append [] (bytes32 kFileCurrentVersion ++ bytes32 tableLength ++
        bytes32 usedItems ++ salt.toList ++ tableBytes hashTable)
      (by simp [fileBytes]) (by decide) (by decide)
  have version : int32At (fileBytes tableLength usedItems salt hashTable)
        kFileHeaderVersionOffset = kFileCurrentVersion :=
    int32At_append (bytes32 kFileSignature)
      (bytes32 tableLength ++ bytes32 usedItems ++ salt.toList ++ tableBytes hashTable)
      (by simp [fileBytes]) (by decide) (by decide)
  have entries : int32At (fileBytes tableLength usedItems salt hashTable)
        kFileHeaderLengthOffset = tableLength :=
    int32At_append (bytes32 kFileSignature ++ bytes32 kFileCurrentVersion)
      (bytes32 usedItems ++ salt.toList ++ tableBytes hashTable)
      (by simp [fileBytes]) entriesLow entriesHigh
  have used : int32At (fileBytes tableLength usedItems salt hashTable)
        kFileHeaderUsedOffset = usedItems :=
    int32At_append (bytes32 kFileSignature ++ bytes32 kFileCurrentVersion ++ bytes32 tableLength)
      (salt.toList ++ tableBytes hashTable)
      (by simp [fileBytes]) usedLow usedHigh
  have saltRead : (.ofFn fun i =>
        (fileBytes tableLength usedItems salt hashTable).getD (kFileHeaderSaltOffset + i) 0 :
        Vector UInt8 kLinkSaltLength) = salt :=
    saltAt_append (bytes32 kFileSignature ++ bytes32 kFileCurrentVersion ++
        bytes32 tableLength ++ bytes32 usedItems)
      (tableBytes hashTable) (by simp [fileBytes])
  unfold readFileHeader
  rw [if_neg long, signature, if_neg (not_not.mpr rfl), version, if_neg (not_not.mpr rfl)]
  rw [entries, if_neg (not_not.mpr whole), used, if_neg few, saltRead]

theorem drop_fileBytes : (fileBytes tableLength usedItems salt hashTable).drop kFileHeaderSize =
      tableBytes hashTable := by
  have front : (bytes32 kFileSignature ++ bytes32 kFileCurrentVersion ++
        bytes32 tableLength ++ bytes32 usedItems ++ salt.toList).length =
        kFileHeaderSize := by
    simp [kFileHeaderSize, kFileHeaderSaltOffset]
    omega
  rw [fileBytes, ← front, drop_left]

/-- Reading back the fingerprints of a table. -/
theorem fingerprints_tableBytes (hashTable : List Fingerprint) :
    ((List.range hashTable.length).map fun i =>
      fingerprintOfBytes (((tableBytes hashTable).drop (i * sizeofFingerprint)).take
          sizeofFingerprint)) = hashTable := by
  apply ext_getElem
  · simp
  · intro i _ inside
    rw [getElem_map, getElem_range, tableBytes,
      record_bytes length_bytes64 inside, fingerprintOfBytes_bytes64]

/-- A master starts from the file that holds a table with that table. -/
theorem Master.initFromFile_image {master : Master} {reader : Master}
    (opens : env.opens = true) (allocates : env.allocates master.table.tableLength = true)
    (pos : 0 < master.table.tableLength) (short : master.table.tableLength < 2 ^ 28)
    (counted : 0 <= master.table.usedItems)
    (fits : master.table.usedItems <= master.table.tableLength) :
    ∃ loaded, reader.initFromFile env master.image = some loaded ∧
      loaded.table.hashTable = master.table.hashTable ∧
      loaded.table.tableLength = master.table.tableLength ∧
      loaded.table.usedItems = master.table.usedItems ∧
      loaded.salt = master.salt ∧ loaded.file = true := by
  have width : sizeofFingerprint = 8 := rfl
  have header : sizeofSharedHeader = 12 := rfl
  have created : Master.createURLTable env master.table.tableLength =
      some (Table.empty master.table.tableLength) := by
    rw [createURLTable, if_pos ⟨by rw [width, header]; omega, allocates⟩]
  have read : readFileHeader master.image =
      some ⟨master.table.tableLength, master.table.usedItems, master.salt⟩ :=
    readFileHeader_fileBytes rfl pos short counted fits
  have behind : master.image.drop kFileHeaderSize = tableBytes master.table.hashTable :=
    drop_fileBytes
  have enough : ¬(tableBytes master.table.hashTable).length <
        master.table.tableLength * sizeofFingerprint := by
    rw [length_tableBytes]
    exact Nat.lt_irrefl _
  have table := fingerprints_tableBytes master.table.hashTable
  unfold initFromFile
  rw [if_pos opens, read]
  dsimp only
  rw [Int.toNat_natCast, created, behind]
  rw [if_neg enough]
  exact ⟨_, rfl, table, congrArg List.length table, rfl, rfl, rfl⟩

end

end Chromium.VisitedLink
