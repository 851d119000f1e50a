import Chromium.VisitedLink.TableFile

/-!
# The file keeps in step with the table

Once the posted tasks have run, the file holds the table of the master. A
full write makes it so whatever the file was; the partial writes of additions
and deletions keep it so while the range of a deletion does not pass the end
of the table.
-/

namespace Chromium.VisitedLink

open List hiding Vector after cons count length nil
open Library Library.Probing

/-- The longest table all offsets of which are 32-bit integers. -/
def maxTableLength : Nat := 2 ^ 28 - 3

/-- A master with an open file, all of whose writes so far were complete. -/
structure Filed (master : Master) : Prop where
  file : master.file = true
  short : master.table.tableLength <= maxTableLength
  complete : master.aborted = false
  inside : master.readsPastEnd = false

/-- The file holds the table of the master. -/
def InStep (file : File) (master : Master) : Prop :=
  (runTasks file master.posted).bytes = master.image

theorem Filed.setTable (filed : Filed master)
    (len : table.tableLength = master.table.tableLength) :
    Filed (master.setTable table) :=
  ⟨filed.file, len.trans_le filed.short, filed.complete, filed.inside⟩

namespace Master

/-- Post tasks. -/
@[simps]
def post (master : Master) (tasks : List FileTask) : Master :=
  { master with posted := master.posted ++ tasks }

theorem writeToFile_eq (master : Master) (data : Bytes)
    (offsetFits : off < 2 ^ 31) (dataFits : data.length < 2 ^ 31) :
    master.writeToFile off data = master.post [.write off data] := by
  have offsetIs : (off : Int).bmod (2 ^ 32) = off := by
    rw [Int.bmod_eq_of_le]
    · norm_num
    · norm_num
      omega
  rw [writeToFile, if_pos dataFits, offsetIs]
  rfl

theorem writeUsedItemCountToFile_eq (filed : Filed master) :
    master.writeUsedItemCountToFile = master.post
        [.write kFileHeaderUsedOffset (bytes32 master.table.usedItems)] := by
  rw [writeUsedItemCountToFile, if_pos filed.file]
  exact writeToFile_eq master _ (by decide) (by rw [length_bytes32]; decide)

variable (env : Environment)

theorem writeRange_eq (filed : Filed master) (lt : first < master.table.tableLength)
    (within : first + count <= master.table.tableLength) :
    master.writeRange env first count = master.post
        [.write (first * sizeofFingerprint + kFileHeaderSize : Nat)
          (tableBytes ((master.table.hashTable.drop first).take count))] := by
  have short := filed.short
  have read : master.memory env first count = (master.table.hashTable.drop first).take count := by
    have long : count <= (master.table.hashTable.drop first).length := by
      rw [length_drop]
      exact Nat.le_sub_of_add_le' within
    rw [memory, drop_append_of_le_length lt.le, take_append_of_le_length long]
  have width : sizeofFingerprint = 8 := rfl
  have header : kFileHeaderSize = 24 := rfl
  have len : ((master.table.hashTable.drop first).take count).length <= count :=
    length_take_le _ _
  rw [maxTableLength] at short
  unfold writeRange
  rw [if_pos within, read]
  apply writeToFile_eq
  · rw [width, header]
    omega
  · rw [length_tableBytes, width]
    omega

theorem writeHashRangeToFile_eq (filed : Filed master) (straight : ¬lastHash < firstHash) :
    master.writeHashRangeToFile env firstHash lastHash =
      master.writeRange env firstHash (lastHash - firstHash + 1) := by
  rw [writeHashRangeToFile, if_pos filed.file, if_neg straight]

/-- The tasks of a full write. -/
def fullTableTasks (master : Master) : List FileTask :=
  [.write 0 (bytes32 kFileSignature ++ bytes32 kFileCurrentVersion ++
        bytes32 master.table.tableLength ++ bytes32 master.table.usedItems),
    .write (kFileHeaderSaltOffset : Nat) master.salt.toList,
    .write (kFileHeaderSize : Nat) (tableBytes master.table.hashTable),
    .setEndOfFile]

theorem writeFullTable_eq (filed : Filed master) :
    master.writeFullTable env = master.post master.fullTableTasks := by
  have short := filed.short
  have width : sizeofFingerprint = 8 := rfl
  have bytes : (tableBytes master.table.hashTable).length < 2 ^ 31 := by
    rw [length_tableBytes, width]
    change master.table.tableLength * 8 < 2 ^ 31
    rw [maxTableLength] at short
    omega
  have opened : master.openFile = master := by
    obtain ⟨_, _, _, _, _, file, _⟩ := master
    obtain rfl : file = true := filed.file
    rfl
  have header : ∀ a b c d : Int, (bytes32 a ++ bytes32 b ++ bytes32 c ++ bytes32 d).length =
        kFileHeaderSaltOffset :=
    fun _ _ _ _ => rfl
  unfold writeFullTable
  rw [if_pos (by rw [filed.file, Bool.true_or])]
  dsimp only
  rw [opened, writeToFile_eq master _ (by decide) (by rw [header]; decide), header, post_salt,
    writeToFile_eq _ master.salt.toList (by decide) (by rw [Vector.length_toList]; decide),
    post_table, post_table, writeToFile_eq _ _ (by decide) bytes]
  simp [post, postSetEndOfFile, fullTableTasks]

end Master

/-- The bytes of the tasks of a full write replace all bytes of a file. -/
theorem runTasks_fullTable (headerLength : header.length = kFileHeaderSaltOffset)
    (saltLength : salt.length = kLinkSaltLength) :
    (runTasks file [.write 0 header, .write (kFileHeaderSaltOffset : Nat) salt,
        .write (kFileHeaderSize : Nat) table, .setEndOfFile]).bytes = header ++ salt ++ table := by
  have frontLength : (header ++ salt).length = kFileHeaderSize := by
    rw [length_append, headerLength, saltLength, kFileHeaderSize]
  have afterFirst : (file.writeAt 0 header).bytes.take header.length = header := by
    have none : file.bytes.take ([] : Bytes).length = [] := rfl
    exact File.take_writeAt header none
  have afterSecond := File.take_writeAt salt afterFirst
  have afterThird := File.take_writeAt table afterSecond
  rw [headerLength, frontLength] at afterThird
  apply File.bytes_truncate afterThird
  rw [length_append, frontLength]
  rfl

/-- A full write puts the table into any file. -/
theorem inStep_fullTable {master : Master} : InStep file (master.post master.fullTableTasks) := by
  rw [InStep, Master.post_posted, runTasks_append]
  exact runTasks_fullTable rfl Vector.length_toList

theorem Filed.post (filed : Filed master) (tasks : List FileTask) : Filed (master.post tasks) :=
  ⟨filed.file, filed.short, filed.complete, filed.inside⟩

/-- `WriteFullTable` leaves the file in step. -/
theorem writeFullTable_inStep (filed : Filed master) :
    Filed (master.writeFullTable env) ∧ InStep file (master.writeFullTable env) := by
  rw [Master.writeFullTable_eq env filed]
  exact ⟨filed.post _, inStep_fullTable⟩

variable {env : Environment} {master : Master}

/-- Writing the used count and the changed range of a table. -/
theorem runTasks_changes (bytes : file.bytes = fileBytes len before salt hashTable)
    (front : changed.take first = hashTable.take first)
    (back : changed.drop (first + count) = hashTable.drop (first + count))
    (sameLength : changed.length = hashTable.length) (within : first + count <= hashTable.length) :
    (runTasks file [.write kFileHeaderUsedOffset (bytes32 after),
        .write (first * sizeofFingerprint + kFileHeaderSize : Nat)
          (tableBytes ((changed.drop first).take count))]).bytes =
      fileBytes len after salt changed := by
  -- Only the lengths of the parts before the used count matter.
  obtain ⟨start, startLength, layout⟩ :
      ∃ start : Bytes, start.length = kFileHeaderUsedOffset ∧ ∀ used table,
          fileBytes len used salt table =
            start ++ bytes32 used ++ (salt.toList ++ tableBytes table) := by
    refine ⟨bytes32 kFileSignature ++ bytes32 kFileCurrentVersion ++
      bytes32 len, by simp [kFileHeaderUsedOffset], ?_⟩
    intro used table
    simp [fileBytes]
  have parts : ∀ table : List Fingerprint, tableBytes table =
        tableBytes (table.take first) ++ tableBytes ((table.drop first).take count) ++
            tableBytes (table.drop (first + count)) := by
    intro table
    rw [tableBytes, tableBytes, tableBytes, tableBytes, ← flatMap_append,
      ← flatMap_append, ← drop_drop, append_assoc,
      take_append_drop, take_append_drop]
  have used := File.bytes_writeAt_replace (bytes.trans (layout _ _)) (length_bytes32 after)
  rw [startLength] at used
  obtain ⟨ahead, aheadIs⟩ : ∃ ahead : Bytes,
      ahead = start ++ bytes32 after ++ salt.toList ++ tableBytes (hashTable.take first) :=
    ⟨_, rfl⟩
  have aheadLength : ahead.length = first * sizeofFingerprint + kFileHeaderSize := by
    rw [aheadIs, length_append, length_append, length_append,
      startLength, length_bytes32, Vector.length_toList, length_tableBytes,
      length_take_of_le (by omega)]
    exact Nat.add_comm _ _
  have split : (file.writeAt kFileHeaderUsedOffset (bytes32 after)).bytes =
        ahead ++ tableBytes ((hashTable.drop first).take count) ++
          tableBytes (hashTable.drop (first + count)) := by
    rw [used, parts hashTable, aheadIs]
    simp
  have sameBytes : (tableBytes ((changed.drop first).take count)).length =
        (tableBytes ((hashTable.drop first).take count)).length := by
    simp [length_tableBytes, sameLength]
  have written :=
    File.bytes_writeAt_replace split sameBytes
  rw [aheadLength] at written
  refine Eq.trans ?_ (written.trans ?_)
  · rfl
  · rw [layout, parts changed, front, back, aheadIs]
    simp

/-- A change of the table inside a range that is written keeps the file in
step. -/
theorem inStep_changes (env : Environment) (first n : Nat)
    (filed : Filed master) (inStep : InStep file master)
    (len : table.tableLength = master.table.tableLength)
    (lt : first < master.table.tableLength)
    (within : first + n <= master.table.tableLength)
    (same : ∀ i, i < first ∨ first + n <= i ->
      table.cell i = master.table.cell i) :
    let written :=
      ((master.setTable table).post
        [.write kFileHeaderUsedOffset (bytes32 table.usedItems)]).writeRange env first n
    Filed written ∧ InStep file written ∧ written.table = table := by
  have counted : Filed ((master.setTable table).post
      [.write kFileHeaderUsedOffset (bytes32 table.usedItems)]) :=
    (filed.setTable len).post _
  have cells : ∀ i, (low : i < table.hashTable.length) ->
      (high : i < master.table.hashTable.length) ->
      i < first ∨ first + n <= i ->
      table.hashTable[i] = master.table.hashTable[i] := by
    intro i low high outside
    have kept := same i outside
    rwa [Table.cell, Table.cell, Table.fingerprintAt, Table.fingerprintAt,
      getD_eq_getElem _ _ low, getD_eq_getElem _ _ high] at kept
  have sameLength : table.hashTable.length = master.table.hashTable.length := len
  have front : table.hashTable.take first = master.table.hashTable.take first := by
    apply ext_getElem
    · rw [length_take, length_take, sameLength]
    · intro i low high
      rw [length_take] at low high
      rw [getElem_take, getElem_take]
      exact cells i _ _ (.inl (by omega))
  have back : table.hashTable.drop (first + n) =
        master.table.hashTable.drop (first + n) := by
    apply ext_getElem
    · rw [length_drop, length_drop, sameLength]
    · intro i low high
      rw [getElem_drop, getElem_drop]
      exact cells _ _ _ (.inr (Nat.le_add_right _ _))
  rw [Master.writeRange_eq env counted (len ▸ lt) (len ▸ within)]
  refine ⟨counted.post _, ?_, rfl⟩
  rw [InStep, Master.post_posted, Master.post_posted, Master.setTable_posted,
    append_assoc, runTasks_append]
  refine Eq.trans (runTasks_changes inStep front back sameLength within) ?_
  rw [← len]
  rfl

/-- An environment that has memory for tables of 32-bit offsets only. -/
def Environment.Bounded (env : Environment) : Prop :=
  ∀ length, env.allocates length = true -> length <= maxTableLength

theorem createURLTable_length (created : Master.createURLTable env len = some table) :
    env.allocates len = true ∧ table.tableLength = len := by
  unfold Master.createURLTable at created
  split at created
  · rename_i allocated
    obtain rfl := Option.some.inj created
    exact ⟨allocated.2, Table.tableLength_empty len⟩
  · exact absurd created (Option.some_ne_none _).symm

theorem tableLength_addFingerprint {table : Table} :
    (table.addFingerprint fp).1.tableLength = table.tableLength := by
  unfold Table.addFingerprint
  dsimp only
  split
  · rfl
  split
  · rfl
  · rw [Table.tableLength_countItems, Table.tableLength_store]
  · rfl

theorem tableLength_addFingerprints (table : Table) :
    (table.addFingerprints fingerprints).tableLength = table.tableLength := by
  induction fingerprints generalizing table with
  | nil => rfl
  | cons fp rest ih => exact (ih _).trans tableLength_addFingerprint

/-- A resized master has its file, which is in step if memory was had for the
table. -/
theorem resizeTable_filed (filed : Filed master) (bound : env.Bounded) :
    Filed (master.resizeTable env newSize) ∧
      ((master.resizeTable env newSize).allocationFailed = false ->
        InStep file (master.resizeTable env newSize)) := by
  rw [Master.resizeTable]
  cases created : Master.createURLTable env newSize with
  | none =>
    exact ⟨⟨filed.file, filed.short, filed.complete, filed.inside⟩,
      fun allocated => absurd allocated (Ne.symm Bool.false_ne_true)⟩
  | some newTable =>
    obtain ⟨allocated, len⟩ := createURLTable_length created
    have short : ∀ fps, ({ newTable with
          notReached := master.table.notReached }.addFingerprints
            fps).tableLength <= maxTableLength := by
      intro fps
      rw [tableLength_addFingerprints]
      exact len.trans_le (bound newSize allocated)
    have copied : Filed (master.setTable ({ newTable with
            notReached := master.table.notReached }.addFingerprints
              (Master.storedFingerprints master.table))) :=
      ⟨filed.file, short (Master.storedFingerprints master.table), filed.complete, filed.inside⟩
    obtain ⟨still, inStep⟩ := writeFullTable_inStep copied
    exact ⟨still, fun _ => inStep⟩

/-- Resizing where necessary keeps the file, and keeps it in step. -/
theorem resizeTableIfNecessary_filed (file : File) (filed : Filed master) (bound : env.Bounded) :
    let resized := master.resizeTableIfNecessary env
    Filed resized.1 ∧ (resized.1.allocationFailed = false ->
        resized.2 = true ∨ InStep file master -> InStep file resized.1) := by
  unfold Master.resizeTableIfNecessary
  dsimp only
  split
  · refine ⟨filed, fun _ before => ?_⟩
    exact before.resolve_left Bool.false_ne_true
  · obtain ⟨still, inStep⟩ := resizeTable_filed filed bound
    exact ⟨still, fun kept _ => inStep kept⟩

theorem addURL_inStep (serving : Serving master visited) (filed : Filed master)
    (inStep : InStep file master) (bound : env.Bounded) :
    Filed (master.addURL env url) ∧ ((master.addURL env url).allocationFailed = false ->
        InStep file (master.addURL env url)) := by
  cases url with
  | none => exact ⟨filed, fun _ => inStep⟩
  | some fp =>
    have noted : master.noteAddition fp = master := by
      rw [Master.noteAddition, serving.idle]
      rfl
    have tried : master.tryToAddURL (some fp) = (master.setTable (master.table.addFingerprint fp).1,
          (master.table.addFingerprint fp).2) := by
      rw [Master.tryToAddURL, noted]
      rw [serving.isFull, if_neg Bool.false_ne_true]
    unfold Master.addURL
    rw [tried]
    have stands := serving.stands
    have formed := stands.wellFormed
    have room := serving.roomy.room
    by_cases present : master.table.Contains fp
    · rw [Table.addFingerprint_present formed room present]
      exact ⟨filed, fun _ => inStep⟩
    · obtain ⟨gap, stops, free, added⟩ := Table.addFingerprint_absent formed room present
      have lt : master.table.place fp gap < master.table.tableLength :=
        slot_lt stands.positive
      generalize master.table.place fp gap = place at added lt
      have len : ((master.table.store place fp).countItems 1).tableLength =
            master.table.tableLength := by
        rw [Table.tableLength_countItems, Table.tableLength_store]
      have same : ∀ i, i < place ∨ place + 1 <= i ->
          ((master.table.store place fp).countItems 1).cell i =
            master.table.cell i := by
        intro i outside
        rw [Table.cell_countItems, Table.cell_store_ne (by omega)]
      obtain ⟨writtenFiled, written, table⟩ :=
        inStep_changes env place 1 filed inStep len lt lt same
      rw [added]
      dsimp only
      rw [if_neg (by
        rw [Master.setTable_tableBuilder, serving.idle]
        exact Bool.false_ne_true),
        Master.writeUsedItemCountToFile_eq (filed.setTable len),
        Master.setTable_table,
        Master.writeHashRangeToFile_eq env ((filed.setTable len).post _)
          (Nat.lt_irrefl place), Nat.sub_self, Nat.zero_add]
      obtain ⟨resizedFiled, resized⟩ := resizeTableIfNecessary_filed file writtenFiled bound
      exact ⟨resizedFiled, fun kept => resized kept (.inr written)⟩

/-- Trying to add a URL keeps the file. -/
theorem tryToAddURL_filed (filed : Filed master) (url : URL) :
    Filed (master.tryToAddURL url).1 := by
  cases url with
  | none => exact filed
  | some fp =>
    have noted : Filed (master.noteAddition fp) := by
      unfold Master.noteAddition
      split
      · exact ⟨filed.file, filed.short, filed.complete, filed.inside⟩
      · exact filed
    rw [Master.tryToAddURL]
    split
    · exact noted
    · exact noted.setTable tableLength_addFingerprint

/-- The rounds of `AddURLs` keep the file. -/
theorem foldl_addURLsStep_filed (filed : Filed master) (bound : env.Bounded) (urls : List URL) :
    Filed (urls.foldl (Master.addURLsStep env) master) := by
  induction urls generalizing master with
  | nil => exact filed
  | cons url rest ih =>
    apply ih
    have tried := tryToAddURL_filed filed url
    unfold Master.addURLsStep
    dsimp only
    split
    · exact (resizeTableIfNecessary_filed ⟨[], 0⟩ tried bound).1
    · exact tried

/-- `AddURLs` leaves the file in step. -/
theorem addURLs_inStep (serving : Serving master visited) (filed : Filed master)
    (bound : env.Bounded) :
    Filed (master.addURLs env urls) ∧ ((master.addURLs env urls).allocationFailed = false ->
        InStep file (master.addURLs env urls)) := by
  have added := foldl_addURLsStep_filed filed bound urls
  have sound := foldl_addURLsStep_sound env (.inr serving) urls
  obtain ⟨writtenFiled, written⟩ := writeFullTable_inStep added
  unfold Master.addURLs
  dsimp only
  split
  · rename_i rebuilding
    refine ⟨added, fun kept => ?_⟩
    have still := sound.resolve_left (by rw [kept]; exact Bool.false_ne_true)
    exact absurd (still.idle.symm.trans rebuilding) Bool.false_ne_true
  · exact ⟨writtenFiled, fun _ => written⟩

/-- The run of places behind the home of a stored fingerprint does not pass
the end of the table. -/
def Table.Straight (table : Table) (fp : Fingerprint) : Prop :=
  table.isVisited fp = true -> ¬table.endRange (table.hashFingerprint fp) < table.hashFingerprint fp

/-- A deletion that writes its range keeps the file in step while the range
does not pass the end of the table. -/
theorem deleteFingerprint_inStep (stands : StandsFor master.table visited)
    (room : master.table.nonZero < master.table.tableLength)
    (filed : Filed master) (inStep : InStep file master)
    (straight : master.table.Straight fp) :
    Filed (master.deleteFingerprint env true fp) ∧
      InStep file (master.deleteFingerprint env true fp) := by
  rw [Master.deleteFingerprint, if_neg (by omega)]
  by_cases visits : master.table.isVisited fp = true
  · rw [if_neg (by simpa using visits)]
    obtain ⟨-, removed, last, shuffled, shuffling⟩ :=
      Table.exists_shuffling stands.wellFormed room visits
    obtain ⟨len, used, outside⟩ := shuffling.range stands.wellFormed
    have reshuffle := shuffling.reshuffle
    have endRange := shuffling.endRange
    have noWrap := straight visits
    rw [endRange] at noWrap
    generalize removed.addFingerprints shuffled = deleted at len used outside reshuffle
    have shorter : last < master.table.tableLength := by
      have := shuffling.cluster.shorter
      omega
    have places : ∀ gap ≤ last, master.table.place fp gap =
          master.table.hashFingerprint fp + gap :=
      fun gap => slot_straight shorter noWrap
    have lastInside : master.table.place fp last < master.table.tableLength :=
      slot_lt stands.positive
    have counted : Filed (master.setTable (master.table.countItems (-1))) := filed.setTable rfl
    have noted : (master.setTable (master.table.countItems (-1))).writeUsedItemCountToFile =
          (master.setTable (master.table.countItems (-1))).post
            [.write kFileHeaderUsedOffset (bytes32 deleted.usedItems)] := by
      rw [Master.writeUsedItemCountToFile_eq counted, used]
      rfl
    have moved : ((master.setTable (master.table.countItems (-1))).post
            [.write kFileHeaderUsedOffset (bytes32 deleted.usedItems)]).setTable deleted =
          (master.setTable deleted).post
            [.write kFileHeaderUsedOffset (bytes32 deleted.usedItems)] :=
      rfl
    rw [endRange] at reshuffle
    have sameHash : (master.table.countItems (-1)).hashFingerprint fp =
          master.table.hashFingerprint fp :=
      rfl
    have lastPlace := places last (Nat.le_refl _)
    have changed :=
      inStep_changes env (master.table.hashFingerprint fp) (last + 1)
        filed inStep len (by omega) (by omega)
        (by
          intro i apart
          apply outside
          intro gap inside
          rw [places gap (by omega)]
          omega)
    have ran : (((master.setTable deleted).post [.write kFileHeaderUsedOffset
              (bytes32 deleted.usedItems)]).writeHashRangeToFile env
                (master.table.hashFingerprint fp)
                (master.table.place fp last)) =
          ((master.setTable deleted).post
            [.write kFileHeaderUsedOffset (bytes32 deleted.usedItems)]).writeRange env
                (master.table.hashFingerprint fp) (last + 1) := by
      rw [Master.writeHashRangeToFile_eq env ((filed.setTable len).post _) noWrap, lastPlace,
        Nat.add_sub_cancel_left]
    rw [if_pos rfl, if_pos rfl, noted, Master.post_table,
      Master.setTable_table, Table.endRange_countItems, sameHash, endRange,
      reshuffle, moved, ran]
    exact ⟨changed.1, changed.2.1⟩
  · rw [if_pos (by simpa using visits)]
    exact ⟨filed, inStep⟩

/-- None of some deletions that write their ranges passes the end of the
table. -/
def Master.DeletesStraight (env : Environment) : Master -> List Fingerprint -> Prop
  | _, [] => True
  | master, fp :: rest =>
    master.table.Straight fp ∧ DeletesStraight env (master.deleteFingerprint env true fp) rest

/-- Deletions that write their ranges keep the file in step. -/
theorem foldl_deleteFingerprint_inStep (stands : StandsFor master.table visited)
    (room : master.table.nonZero < master.table.tableLength)
    (filed : Filed master) (inStep : InStep file master)
    (straight : master.DeletesStraight env fingerprints) :
    let deleted := fingerprints.foldl (Master.deleteFingerprint env true) master
    Filed deleted ∧ InStep file deleted := by
  induction fingerprints generalizing master visited with
  | nil => exact ⟨filed, inStep⟩
  | cons fp rest ih =>
    obtain ⟨first, others⟩ := straight
    obtain ⟨stillStands, fewer, len, -, -⟩ :=
      deleteFingerprint_spec env true stands room fp
    obtain ⟨stillFiled, stillInStep⟩ := deleteFingerprint_inStep stands room filed inStep first
    exact ih stillStands (by omega) stillFiled stillInStep others

/-- Deletions that write nothing keep the file. -/
theorem foldl_deleteFingerprint_filed (env : Environment) (stands : StandsFor master.table visited)
    (room : master.table.nonZero < master.table.tableLength) (filed : Filed master)
    (fps : List Fingerprint) :
    Filed (fps.foldl (Master.deleteFingerprint env false) master) := by
  induction fps generalizing master visited with
  | nil => exact filed
  | cons fp rest ih =>
    obtain ⟨stillStands, fewer, len, -, -⟩ :=
      deleteFingerprint_spec env false stands room fp
    apply ih stillStands (by omega)
    have deleted : master.deleteFingerprint env false fp = master.setTable
          (master.deleteFingerprint env false fp).table := by
      unfold Master.deleteFingerprint
      split
      · rfl
      split
      · rfl
      · rfl
    rw [deleted]
    exact filed.setTable len

/-- `DeleteFingerprintsFromCurrentTable` keeps the file in step while the
deletions it writes one by one do not pass the end of the table. -/
theorem deleteFingerprintsFromCurrentTable_inStep
    (serving : Serving master visited) (filed : Filed master)
    (inStep : InStep file master) (bound : env.Bounded)
    (fps : List Fingerprint)
    (straight : fps.length <= kBigDeleteThreshold ->
      master.DeletesStraight env fps) :
    let after := master.deleteFingerprintsFromCurrentTable env fps
    Filed after ∧ (after.allocationFailed = false -> InStep file after) := by
  have stands := serving.stands
  have room := serving.roomy.room
  unfold Master.deleteFingerprintsFromCurrentTable
  dsimp only
  by_cases few : fps.length <= kBigDeleteThreshold
  · obtain ⟨deletedFiled, deleted⟩ :=
      foldl_deleteFingerprint_inStep stands room filed inStep (straight few)
    obtain ⟨resizedFiled, resized⟩ := resizeTableIfNecessary_filed file deletedFiled bound
    rw [decide_eq_false (Nat.not_lt.mpr few), Bool.not_false]
    split
    · exact ⟨resizedFiled, fun kept => resized kept (.inr deleted)⟩
    · rw [if_neg Bool.false_ne_true]
      exact ⟨resizedFiled, fun kept => resized kept (.inr deleted)⟩
  · have deletedFiled := foldl_deleteFingerprint_filed env stands room filed fps
    obtain ⟨resizedFiled, resized⟩ := resizeTableIfNecessary_filed file deletedFiled bound
    obtain ⟨writtenFiled, written⟩ := writeFullTable_inStep resizedFiled
    rw [decide_eq_true (Nat.lt_of_not_le few), Bool.not_true]
    split
    · rename_i needed
      exact ⟨resizedFiled, fun kept => resized kept (.inl needed)⟩
    · exact ⟨writtenFiled, fun _ => written⟩

/-- The deletions of a call that write their ranges do not pass the end of the
table. -/
def Operation.Straight (env : Environment) (master : Master) : Operation -> Prop
  | deleteURLs urls =>
    ((urls.filterMap id).foldl setInsert []).length <= kBigDeleteThreshold ->
      master.DeletesStraight env ((urls.filterMap id).foldl setInsert [])
  | _ => True

/-- `DeleteAllURLs` leaves the file in step. -/
theorem deleteAllURLs_inStep (filed : Filed master) (bound : env.Bounded) :
    Filed (master.deleteAllURLs env) ∧ ((master.deleteAllURLs env).allocationFailed = false ->
        InStep file (master.deleteAllURLs env)) := by
  have cleared : Filed { master.setTable { Table.empty master.table.tableLength with
            notReached := master.table.notReached } with
        addedSinceRebuild := []
        deletedSinceRebuild := [] } := by
    refine ⟨filed.file, ?_, filed.complete, filed.inside⟩
    exact (Table.tableLength_empty _).trans_le filed.short
  obtain ⟨resizedFiled, resized⟩ := resizeTableIfNecessary_filed file cleared bound
  obtain ⟨writtenFiled, written⟩ := writeFullTable_inStep resizedFiled
  unfold Master.deleteAllURLs
  dsimp only
  split
  · rename_i needed
    exact ⟨resizedFiled, fun kept => resized kept (.inl needed)⟩
  · exact ⟨writtenFiled, fun _ => written⟩

/-- Every call keeps the file in step. -/
theorem perform_inStep (serving : Serving master visited) (filed : Filed master)
    (inStep : InStep file master) (bound : env.Bounded)
    (straight : op.Straight env master) :
    Filed (master.perform env op) ∧ ((master.perform env op).allocationFailed = false ->
        InStep file (master.perform env op)) := by
  cases op with
  | addURL url => exact addURL_inStep serving filed inStep bound
  | addURLs urls => exact addURLs_inStep serving filed bound
  | deleteURLs urls =>
    unfold Master.perform Master.deleteURLs
    dsimp only
    split
    · exact ⟨filed, fun _ => inStep⟩
    · rw [serving.idle, if_neg Bool.false_ne_true]
      exact deleteFingerprintsFromCurrentTable_inStep serving filed inStep bound _ straight
  | deleteAllURLs => exact deleteAllURLs_inStep filed bound

/-- No call of a run writes a deletion that passes the end of the table. -/
def Master.RunStraight : Master -> List (Environment × Operation) -> Prop
  | _, [] => True
  | master, call :: rest =>
    call.2.Straight call.1 master ∧ RunStraight (master.perform call.1 call.2) rest

/-- A run keeps the file in step and serves a set. -/
theorem performAll_inStep (serving : Serving master visited)
    (filed : Filed master) (inStep : InStep file master)
    (bound : ∀ call ∈ calls, call.1.Bounded)
    (straight : master.RunStraight calls)
    (allocated : (master.performAll calls).allocationFailed = false) :
    let after := master.performAll calls
    (∃ served, Serving after served) ∧ Filed after ∧ InStep file after := by
  induction calls generalizing master visited with
  | nil => exact ⟨⟨visited, serving⟩, filed, inStep⟩
  | cons call rest ih =>
    obtain ⟨first, others⟩ := straight
    have kept : (master.perform call.1 call.2).allocationFailed = false := by
      by_contra failed
      have ended := Master.performAll_allocationFailed rest (by simpa using failed)
      exact Bool.false_ne_true (allocated.symm.trans ended)
    have still :=
      (perform_sound (.inr serving)).resolve_left (by rw [kept]; exact Bool.false_ne_true)
    obtain ⟨stillFiled, stillInStep⟩ :=
      perform_inStep serving filed inStep (bound call mem_cons_self) first
    exact ih still stillFiled (stillInStep kept) ((forall_mem_cons.mp bound).2) others allocated

/-- A master that writes its empty table keeps its file in step. -/
theorem writeFullTable_start (file : File) (long : 11 <= length) (short : length <= maxTableLength)
    (empty : Master.createURLTable env length = some master.table)
    (idle : master.tableBuilder = false) (opens : env.opens = true)
    (complete : master.aborted = false)
    (inside : master.readsPastEnd = false) :
    let started := master.writeFullTable env
    Serving started ∅ ∧ Filed started ∧ InStep file started := by
  have opened : master.writeFullTable env = master.openFile.writeFullTable env := by
    have twice : master.openFile.openFile = master.openFile := rfl
    have may : ∀ file : Bool, (file || env.opens) = true := by
      intro file
      rw [opens, Bool.or_true]
    unfold Master.writeFullTable
    rw [if_pos (may _), if_pos (may _), twice]
  have filed : Filed master.openFile :=
    ⟨rfl, (createURLTable_length empty).2.trans_le short, complete, inside⟩
  have serving : Serving master.openFile ∅ := serving_created long empty idle
  have writes := Master.writeFullTable_onlyWrites env master.openFile
  rw [opened]
  exact ⟨serving.onlyWrites writes, writeFullTable_inStep filed⟩

/-- After any run of additions and deletions whose written ranges do not pass
the end of the table, all posted tasks executed, the file has the bytes of the
table, the next start accepts it and reads the same table back; no write was
cut short or read past the end of the table. -/
theorem visitedLinkFile_inStep {master : Master} {file : File} {env : Environment} (reader : Master)
    (calls : List (Environment × Operation)) (serving : Serving master visited)
    (filed : Filed master) (inStep : InStep file master)
    (bounded : ∀ call ∈ calls, call.1.Bounded)
    (straight : master.RunStraight calls)
    (allocated : (master.performAll calls).allocationFailed = false)
    (opens : env.opens = true)
    (allocates : env.allocates (master.performAll calls).table.tableLength = true) :
    let after := master.performAll calls
    let bytes := (runTasks file after.posted).bytes
    bytes.length = kFileHeaderSize + after.table.tableLength * sizeofFingerprint ∧
      (∃ loaded, reader.initFromFile env bytes = some loaded ∧
        loaded.table.hashTable = after.table.hashTable ∧
        loaded.table.tableLength = after.table.tableLength ∧
        loaded.table.usedItems = after.table.usedItems ∧
        loaded.salt = after.salt ∧ loaded.file = true) ∧
      after.readsPastEnd = false ∧ after.aborted = false := by
  obtain ⟨⟨served, still⟩, stillFiled, stillInStep⟩ :=
    performAll_inStep serving filed inStep bounded straight allocated
  have counted := still.stands.wellFormed.counted
  have fits := (still.stands.nonZero_lt).1
  have short := stillFiled.short
  rw [maxTableLength] at short
  intro after bytes
  have image : bytes = after.image := stillInStep
  rw [image]
  refine ⟨length_fileBytes _ _ _ _, ?_, stillFiled.inside, stillFiled.complete⟩
  apply Master.initFromFile_image opens allocates still.stands.positive
  · exact Nat.lt_of_le_of_lt short (by norm_num)
  · rw [counted]
    exact Int.natCast_nonneg _
  · rw [counted]
    exact_mod_cast fits

instance (table : Table) (fp : Fingerprint) : Decidable (table.Straight fp) :=
  inferInstanceAs (Decidable (_ = true -> ¬_ < _))

/-- Whether deletions pass the end of the table can be computed. -/
def Master.decidableDeletesStraight (env : Environment) :
    (master : Master) -> (fingerprints : List Fingerprint) ->
      Decidable (master.DeletesStraight env fingerprints)
  | _, [] => isTrue trivial
  | master, fp :: rest =>
    have : Decidable (Master.DeletesStraight env (master.deleteFingerprint env true fp) rest) :=
      decidableDeletesStraight env _ rest
    inferInstanceAs (Decidable (_ ∧ _))

instance (env : Environment) (master : Master) (op : Operation) :
    Decidable (op.Straight env master) :=
  match op with
  | .addURL _ => isTrue trivial
  | .addURLs _ => isTrue trivial
  | .deleteURLs urls =>
    have := master.decidableDeletesStraight env ((urls.filterMap id).foldl setInsert [])
    inferInstanceAs (Decidable (_ <= _ -> _))
  | .deleteAllURLs => isTrue trivial

/-- Whether a run passes the end of the table can be computed. -/
def Master.decidableRunStraight : (master : Master) -> (calls : List (Environment × Operation)) ->
      Decidable (master.RunStraight calls)
  | _, [] => isTrue trivial
  | master, call :: rest =>
    have : Decidable (Master.RunStraight (master.perform call.1 call.2) rest) :=
      decidableRunStraight _ rest
    inferInstanceAs (Decidable (_ ∧ _))

instance (master : Master) (calls : List (Environment × Operation)) :
    Decidable (master.RunStraight calls) :=
  master.decidableRunStraight calls

/-- An environment that refuses only tables that are too long. -/
def confined : Environment :=
  ⟨fun length => decide (length <= maxTableLength), true, nullFingerprint⟩

theorem confined_bounded : confined.Bounded := fun _ allocated => of_decide_eq_true allocated

/-- Two fingerprints with one home are added and the first one deleted; the
next start finds the second one alone. -/
theorem visitedLinkFile_inStep_sharedHome : let calls : List (Environment × Operation) :=
      [(confined, .addURL (some 5)), (confined, .addURL (some 16)),
        (confined, .deleteURLs [some 5])]
    let after := ((Master.fresh 11).writeFullTable confined).performAll calls
    ∃ loaded, (Master.fresh 11).initFromFile confined
          (runTasks ⟨[], 0⟩ after.posted).bytes = some loaded ∧
        loaded.table.hashTable = [0, 0, 0, 0, 0, 16, 0, 0, 0, 0, 0] := by
  intro calls after
  have empty : Master.createURLTable confined 11 = some (Master.fresh 11).table := by decide
  obtain ⟨serving, filed, inStep⟩ :=
    writeFullTable_start ⟨[], 0⟩ (Nat.le_refl 11) (by decide) empty rfl rfl rfl rfl
  have straight : ((Master.fresh 11).writeFullTable confined).RunStraight calls := by decide +kernel
  have bounded : ∀ call ∈ calls, call.1.Bounded := by simp [calls, confined_bounded]
  have kept : after.allocationFailed = false := by decide +kernel
  have size : confined.allocates after.table.tableLength = true := by decide +kernel
  have held : after.table.hashTable = [0, 0, 0, 0, 0, 16, 0, 0, 0, 0, 0] := by decide +kernel
  obtain ⟨-, ⟨loaded, read, table, -⟩, -⟩ :=
    visitedLinkFile_inStep (Master.fresh 11) calls serving filed inStep
      bounded straight kept rfl size
  exact ⟨loaded, read, table.trans held⟩

/-- A deletion whose range passes the end of the table reads behind the table
and makes the file too long for the next start. -/
theorem wrappingDeletion_spoils_file : let calls : List (Environment × Operation) :=
      [(confined, .addURL (some 10)), (confined, .addURL (some 21)),
        (confined, .deleteURLs [some 10])]
    let after := ((Master.fresh 11).writeFullTable confined).performAll calls
    let bytes := (runTasks ⟨[], 0⟩ after.posted).bytes
    after.readsPastEnd = true ∧ bytes.length =
        kFileHeaderSize + (after.table.tableLength + 1) * sizeofFingerprint ∧
      (Master.fresh 11).initFromFile confined bytes = none := by
  decide +kernel

end Chromium.VisitedLink
