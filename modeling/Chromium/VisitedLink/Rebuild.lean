import Chromium.VisitedLink.VisitedSet

/-!
# Rebuilding the table

While the table is rebuilt from the history, the master keeps the additions
and deletions it is told of in two pending sets and replays them over the
table built from the snapshot.
-/

namespace Chromium.VisitedLink

open List hiding after count length

namespace Operation

/-- A call concerns the fingerprints of its URLs, or all of them. -/
def concerns (fingerprint : Fingerprint) : Operation -> Bool
  | addURL url => decide (some fingerprint = url)
  | addURLs urls => decide (some fingerprint ∈ urls)
  | deleteURLs urls => decide (some fingerprint ∈ urls)
  | deleteAllURLs => true

/-- A call adds the fingerprints it concerns. -/
def adds : Operation -> Bool
  | addURL _ => true
  | addURLs _ => true
  | deleteURLs _ => false
  | deleteAllURLs => false

end Operation

/-- The last call that concerns a fingerprint. -/
def lastConcerning (calls : List (Environment × Operation))
    (fingerprint : Fingerprint) : Option Operation :=
  (calls.map Prod.snd).reverse.find? (Operation.concerns fingerprint)

/-- A fingerprint is to be visited after a rebuild: the last call concerning
it added it, or none concerned it and the snapshot has it. -/
def VisitedAfterRebuild (snap : List Fingerprint) (calls : List (Environment × Operation))
    (fingerprint : Fingerprint) : Prop :=
  match lastConcerning calls fingerprint with
  | some op => op.adds = true
  | none => fingerprint ∈ snap

theorem lastConcerning_append :
    lastConcerning (calls ++ [call]) fingerprint = if call.2.concerns fingerprint then some call.2
      else lastConcerning calls fingerprint := by
  rw [lastConcerning, map_append, map_singleton,
    reverse_append, reverse_singleton, singleton_append,
    List.find?_cons]
  cases call.2.concerns fingerprint <;> rfl

/-- The pending sets of a master. -/
structure Pending (before after : Master) : Prop where
  tableBuilder : after.tableBuilder = before.tableBuilder
  addedSinceRebuild : after.addedSinceRebuild = before.addedSinceRebuild
  deletedSinceRebuild : after.deletedSinceRebuild = before.deletedSinceRebuild

namespace Pending

theorem trans (first : Pending before middle) (second : Pending middle after) :
    Pending before after where
  tableBuilder := second.tableBuilder.trans first.tableBuilder
  addedSinceRebuild := second.addedSinceRebuild.trans first.addedSinceRebuild
  deletedSinceRebuild := second.deletedSinceRebuild.trans first.deletedSinceRebuild

/-- Writing the file does not matter to the pending sets, nor does the
table. -/
theorem of_onlyWrites (written : OnlyWrites before after) (table : Pending original before) :
    Pending original after :=
  table.trans ⟨written.tableBuilder, written.addedSinceRebuild, written.deletedSinceRebuild⟩

end Pending

namespace Master

theorem resizeTableIfNecessary_pending : Pending master (master.resizeTableIfNecessary env).1 := by
  unfold resizeTableIfNecessary
  dsimp only
  split
  · exact ⟨rfl, rfl, rfl⟩
  · rw [resizeTable]
    split
    · exact ⟨rfl, rfl, rfl⟩
    · exact .of_onlyWrites (writeFullTable_onlyWrites env _) ⟨rfl, rfl, rfl⟩

theorem deleteFingerprint_pending :
    Pending master (master.deleteFingerprint env updateFile fingerprint) := by
  have counted : Pending master (master.setTable (master.table.countItems (-1))
        ).writeUsedItemCountToFile :=
    .of_onlyWrites (writeUsedItemCountToFile_onlyWrites _) ⟨rfl, rfl, rfl⟩
  unfold deleteFingerprint
  split
  · exact ⟨rfl, rfl, rfl⟩
  split
  · exact ⟨rfl, rfl, rfl⟩
  cases updateFile with
  | false => exact ⟨rfl, rfl, rfl⟩
  | true =>
    exact .of_onlyWrites (writeHashRangeToFile_onlyWrites env _ _ _) (counted.trans ⟨rfl, rfl, rfl⟩)

end Master

/-- What a call does to the pending sets of a rebuilding master. -/
structure Noted (before after : Master) (op : Operation) : Prop where
  rebuilding : after.tableBuilder = true
  added : ∀ fingerprint, fingerprint ∈ after.addedSinceRebuild ↔
      if op.concerns fingerprint then op.adds = true
      else fingerprint ∈ before.addedSinceRebuild
  deleted : ∀ fingerprint, fingerprint ∈ after.deletedSinceRebuild ↔
      if op.concerns fingerprint then op.adds = false ∧ op ≠ .deleteAllURLs
      else fingerprint ∈ before.deletedSinceRebuild

theorem mem_setErase {set : List Fingerprint} :
    other ∈ setErase set element ↔ other ≠ element ∧ other ∈ set := by
  rw [setErase, mem_filter, decide_eq_true_iff, and_comm]

variable {master : Master}

/-- Trying to add a URL notes the addition. -/
theorem tryToAddURL_noted (rebuilding : master.tableBuilder = true) (url : URL) :
    Noted master (master.tryToAddURL url).1 (.addURL url) := by
  cases url with
  | none =>
    refine ⟨rebuilding, ?_, ?_⟩
    · simp [Operation.concerns, Master.tryToAddURL]
    · simp [Operation.concerns, Master.tryToAddURL]
  | some fingerprint =>
    have noted : Pending (master.noteAddition fingerprint)
        (master.tryToAddURL (some fingerprint)).1 := by
      rw [Master.tryToAddURL]
      split
      · exact ⟨rfl, rfl, rfl⟩
      · exact ⟨rfl, rfl, rfl⟩
    have note : master.noteAddition fingerprint = { master with
          deletedSinceRebuild := setErase master.deletedSinceRebuild fingerprint
          addedSinceRebuild := setInsert master.addedSinceRebuild fingerprint } := by
      rw [Master.noteAddition, if_pos rebuilding]
    refine ⟨?_, ?_, ?_⟩
    · rw [noted.tableBuilder, note]
      exact rebuilding
    · intro other
      rw [noted.addedSinceRebuild, note, mem_setInsert]
      simp only [Operation.concerns, Operation.adds, Option.some.injEq]
      by_cases same : other = fingerprint <;> simp [same]
    · intro other
      rw [noted.deletedSinceRebuild, note, mem_setErase]
      simp only [Operation.concerns, Operation.adds, Option.some.injEq]
      by_cases same : other = fingerprint <;> simp [same]

section

variable (env : Environment)
include env

section

variable (rebuilding : master.tableBuilder = true)
include rebuilding

theorem addURL_noted : Noted master (master.addURL env url) (.addURL url) := by
  have tried := tryToAddURL_noted rebuilding url
  unfold Master.addURL
  dsimp only
  split
  · rw [if_pos tried.rebuilding]
    exact tried
  · exact tried

theorem addURLs_noted : Noted master (master.addURLs env urls) (.addURLs urls) := by
  have noted : Noted master (urls.foldl (Master.addURLsStep env) master) (.addURLs urls) := by
    induction urls generalizing master with
    | nil => exact ⟨rebuilding, by simp [Operation.concerns],
        by simp [Operation.concerns]⟩
    | cons url rest ih =>
      have tried := tryToAddURL_noted rebuilding url
      have step : master.addURLsStep env url = (master.tryToAddURL url).1 := by
        rw [Master.addURLsStep]
        dsimp only
        rw [tried.rebuilding]
        rfl
      have all := ih tried.rebuilding
      rw [foldl_cons, step]
      refine ⟨all.rebuilding, ?_, ?_⟩
      · intro fp
        rw [all.added, tried.added]
        simp only [Operation.concerns, Operation.adds, mem_cons]
        by_cases first : some fp = url <;> simp [first]
      · intro fp
        rw [all.deleted, tried.deleted]
        simp only [Operation.concerns, Operation.adds, mem_cons]
        by_cases first : some fp = url <;> simp [first]
  unfold Master.addURLs
  rw [if_pos noted.rebuilding]
  exact noted

/-- `DeleteURLs` notes the deletions. -/
theorem deleteURLs_noted : Noted master (master.deleteURLs env urls) (.deleteURLs urls) := by
  have folded : ∀ fps : List Fingerprint,
      let after := fps.foldl (Master.deleteDuringRebuild env) master
      after.tableBuilder = true ∧ (∀ fp, fp ∈ after.addedSinceRebuild ↔
          fp ∉ fps ∧ fp ∈ master.addedSinceRebuild) ∧
        ∀ fp, fp ∈ after.deletedSinceRebuild ↔
          fp ∈ fps ∨ fp ∈ master.deletedSinceRebuild := by
    intro fps
    induction fps generalizing master with
    | nil => exact ⟨rebuilding, by simp, by simp⟩
    | cons fp rest ih =>
      have kept : Pending { master with
            deletedSinceRebuild := setInsert master.deletedSinceRebuild fp
            addedSinceRebuild := setErase master.addedSinceRebuild fp }
          (master.deleteDuringRebuild env fp) :=
        Master.deleteFingerprint_pending
      obtain ⟨still, added, deleted⟩ := ih (kept.tableBuilder.trans rebuilding)
      refine ⟨still, ?_, ?_⟩
      · intro other
        rw [foldl_cons, added, kept.addedSinceRebuild, mem_setErase, mem_cons]
        tauto
      · intro other
        rw [foldl_cons, deleted, kept.deletedSinceRebuild, mem_setInsert, mem_cons]
        tauto
  unfold Master.deleteURLs
  split
  · rename_i empty
    rw [List.isEmpty_iff.mp empty]
    exact ⟨rebuilding, by simp [Operation.concerns], by simp [Operation.concerns]⟩
  · obtain ⟨still, added, deleted⟩ := folded (urls.filterMap id)
    refine ⟨still, ?_, ?_⟩
    · intro fp
      rw [added, mem_filterMap_id]
      simp only [Operation.concerns, Operation.adds]
      by_cases given : some fp ∈ urls <;> simp [given]
    · intro fp
      rw [deleted, mem_filterMap_id]
      simp only [Operation.concerns, Operation.adds]
      by_cases given : some fp ∈ urls <;> simp [given]

/-- `DeleteAllURLs` forgets what was noted. -/
theorem deleteAllURLs_noted : Noted master (master.deleteAllURLs env) .deleteAllURLs := by
  have kept : Pending { master with addedSinceRebuild := [], deletedSinceRebuild := [] }
      (master.deleteAllURLs env) := by
    unfold Master.deleteAllURLs
    dsimp only
    split
    · refine .trans ?_ Master.resizeTableIfNecessary_pending
      exact ⟨rfl, rfl, rfl⟩
    · refine .of_onlyWrites (Master.writeFullTable_onlyWrites env _) ?_
      refine .trans ?_ Master.resizeTableIfNecessary_pending
      exact ⟨rfl, rfl, rfl⟩
  refine ⟨kept.tableBuilder.trans rebuilding, ?_, ?_⟩
  · intro fp
    simp [kept.addedSinceRebuild, Operation.concerns, Operation.adds]
  · intro fp
    simp [kept.deletedSinceRebuild, Operation.concerns, Operation.adds]

theorem perform_noted (op : Operation) : Noted master (master.perform env op) op := by
  cases op with
  | addURL url => exact addURL_noted env rebuilding
  | addURLs urls => exact addURLs_noted env rebuilding
  | deleteURLs urls => exact deleteURLs_noted env rebuilding
  | deleteAllURLs => exact deleteAllURLs_noted env rebuilding

end

end

/-- What the pending sets of a rebuilding master are after some calls. -/
structure Collected (master : Master) (calls : List (Environment × Operation)) : Prop where
  rebuilding : master.tableBuilder = true
  added : ∀ fingerprint, fingerprint ∈ master.addedSinceRebuild ↔
    ∃ op, lastConcerning calls fingerprint = some op ∧ op.adds = true
  deleted : ∀ fingerprint, fingerprint ∈ master.deletedSinceRebuild ↔
    ∃ op, lastConcerning calls fingerprint = some op ∧ op.adds = false ∧ op ≠ .deleteAllURLs

theorem Collected.perform (collected : Collected master calls) (call : Environment × Operation) :
    Collected (master.perform call.1 call.2) (calls ++ [call]) := by
  have noted := perform_noted call.1 collected.rebuilding call.2
  refine ⟨noted.rebuilding, ?_, ?_⟩
  · intro fp
    rw [noted.added, lastConcerning_append]
    split
    · simp
    · exact collected.added fp
  · intro fp
    rw [noted.deleted, lastConcerning_append]
    split
    · simp
    · exact collected.deleted fp

/-- All calls during a rebuild are collected. -/
theorem performAll_collected (rebuilding : master.tableBuilder = true)
    (noAdditions : master.addedSinceRebuild = []) (noDeletions : master.deletedSinceRebuild = [])
    (calls : List (Environment × Operation)) :
    Collected (master.performAll calls) calls := by
  induction calls using reverseRecOn with
  | nil =>
    refine ⟨rebuilding, ?_, ?_⟩
    · simp [Master.performAll, noAdditions, lastConcerning]
    · simp [Master.performAll, noDeletions, lastConcerning]
  | append_singleton calls call ih =>
    have last : master.performAll (calls ++ [call]) =
        (master.performAll calls).perform call.1 call.2 := by
      rw [Master.performAll, foldl_append]
      rfl
    rw [last]
    exact ih.perform call

/-- Deleting from the current table removes from the set, whether or not the
table can be resized. -/
theorem deleteFingerprintsFromCurrentTable_stands
    (env : Environment) (stands : StandsFor master.table visited)
    (room : master.table.nonZero < master.table.tableLength)
    (fps : List Fingerprint) :
    let after := master.deleteFingerprintsFromCurrentTable env fps
    StandsFor after.table (visited \ {fingerprint | fingerprint ∈ fps}) ∧
      after.table.nonZero < after.table.tableLength := by
  obtain ⟨deleted, fewer, len, -⟩ :=
    foldl_deleteFingerprint_spec env
      (!decide (fps.length > kBigDeleteThreshold)) stands room
      fps
  have resized := resizeTableIfNecessary_resized env deleted
  have still := resized.room (by omega)
  unfold Master.deleteFingerprintsFromCurrentTable
  dsimp only
  split
  · exact ⟨resized.stands, still⟩
  split
  · have written :=
      Master.writeFullTable_onlyWrites env ((fps.foldl (Master.deleteFingerprint env
            (!decide (fps.length > kBigDeleteThreshold)))
          master).resizeTableIfNecessary env).1
    rw [written.table]
    exact ⟨resized.stands, still⟩
  · exact ⟨resized.stands, still⟩

/-- A count that `static_cast<int>` leaves alone. -/
theorem bmod_count {n : Nat} (fits : 3 * n < 2 ^ 31) :
    (n : Int).bmod (2 ^ 32) = n := by
  rw [Int.bmod_eq_of_le]
  · norm_num
  · norm_num
    omega

/-- The master whose table holds the snapshot and the pending additions. -/
def Master.replay (master : Master) (newTable : Table) (snap : List Fingerprint) : Master :=
  { master.setTable (({ newTable with
        notReached := master.table.notReached }.addFingerprints
          snap).addFingerprints master.addedSinceRebuild) with
    addedSinceRebuild := [] }

/-- The table after a rebuild for which a new table was had. -/
theorem table_onTableRebuildComplete
    (created : Master.createURLTable env (Master.newTableSizeForCount
        (((snap.length + master.addedSinceRebuild.length : Nat) :
          Int).bmod (2 ^ 32))) = some newTable) :
    (master.onTableRebuildComplete env snap).table = ((master.replay newTable
        snap).deleteFingerprintsFromCurrentTable env master.deletedSinceRebuild).table := by
  simp only [Master.onTableRebuildComplete, created]
  rw [(Master.writeFullTable_onlyWrites env _).table]
  rfl

/-- What is visited once a rebuild is complete. -/
theorem onTableRebuildComplete_visits {snap : List Fingerprint} (env : Environment)
    (fits : 3 * (snap.length + master.addedSinceRebuild.length) < 2 ^ 31)
    (created : Master.createURLTable env (Master.newTableSizeForCount
        (snap.length + master.addedSinceRebuild.length : Nat)) = some newTable)
    (notNull : fingerprint ≠ nullFingerprint) :
    (master.onTableRebuildComplete env snap).table.isVisited fingerprint = true ↔
      (fingerprint ∈ snap ∨ fingerprint ∈ master.addedSinceRebuild) ∧
        fingerprint ∉ master.deletedSinceRebuild := by
  obtain ⟨larger, -⟩ := newTableSizeForCount_roomy fits
  obtain ⟨empty, len, none⟩ := standsFor_created created (by omega) master.table.notReached
  obtain ⟨first, firstLength, -, firstCounted⟩ :=
    empty.addFingerprints snap (by rw [none, len]; omega)
  obtain ⟨second, secondLength, -, secondCounted⟩ :=
    first.addFingerprints master.addedSinceRebuild (by rw [firstLength, len]; omega)
  have room : (master.replay newTable snap).table.nonZero <
        (master.replay newTable snap).table.tableLength := by
    refine Nat.lt_of_le_of_lt secondCounted ?_
    refine Nat.lt_of_lt_of_eq ?_ secondLength.symm
    omega
  have merged : StandsFor (master.replay newTable snap).table
        (∅ ∪ {other | other ∈ snap} ∪ {other | other ∈ master.addedSinceRebuild}) :=
    second
  obtain ⟨stands, room⟩ :=
    deleteFingerprintsFromCurrentTable_stands env merged room master.deletedSinceRebuild
  rw [← bmod_count fits] at created
  rw [table_onTableRebuildComplete created,
    Table.isVisited_iff stands.wellFormed room notNull, stands.contents fingerprint notNull]
  simp

/-- A master that rebuilds a table without items. -/
def Master.freshRebuilding : Master := { Master.fresh 11 with tableBuilder := true }

/-- A permissive environment has memory for tables of few items. -/
theorem createURLTable_permissive
    (small : length * sizeofFingerprint + sizeofSharedHeader < 2 ^ 32) :
    Master.createURLTable permissive length = some (Table.empty length) :=
  if_pos ⟨small, rfl⟩

end Chromium.VisitedLink
