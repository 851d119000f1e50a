import Chromium.Syncable.Directory

/-!
# Saving, purging and loading

A snapshot takes the dirty entries, the purged metahandles and the kernel info.
The backing store accepts it or not, and the directory drops what it can out of
memory, or restores what has to be saved.
-/

namespace Chromium.Syncable

section

open Library
open Sync (Id ModelType)

/-- The fields that the backing store has. -/
def EntryKernel.persistent (entry : EntryKernel) : EntryKernel :=
  { entry with syncing := false, dirty_ := false }

structure SaveChangesSnapshot where
  kernel_info_status : KernelShareInfoStatus := .INVALID
  kernel_info : PersistedKernelInfo := {}
  dirty_metas : List (Handle × EntryKernel) := []
  metahandles_to_purge : MetahandleSet := ∅

namespace Directory

/-- `InitializeIndexEntry`; what is in the index already stays. -/
def initializeIndexEntry [LinearOrder κ] (indexer : Indexer κ)
    (dir : Directory) : List Handle -> Handle -> List Handle :=
  KeyedIndex.collect (dir.keyOf indexer) fun handle =>
    indexer.shouldInclude ((dir.memory handle).getD {})

/-- `OpenImpl`, with the rows that the backing store has loaded. -/
def openImpl (rows : List (Handle × EntryKernel)) (info : PersistedKernelInfo)
    (max_metahandle : Handle) : Directory :=
  let dir : Directory :=
    { memory := fun handle => rows.lookup handle
      metahandles_index := (rows.map Prod.fst).foldl (KeyedIndex.collect id fun _ => true) []
      persisted_info := info
      next_metahandle := max_metahandle + 1 }
  let flagged (field : IndexedBitField) :=
    dir.metahandles_index.filter fun handle =>
      ((dir.memory handle).getD {}).indexed_bit_fields field
  { dir with
    parent_id_child_index := dir.metahandles_index.foldl
      (dir.initializeIndexEntry parentIdAndHandleIndexer) []
    ids_index := dir.metahandles_index.foldl (dir.initializeIndexEntry idIndexer) []
    client_tag_index := dir.metahandles_index.foldl (dir.initializeIndexEntry clientTagIndexer) []
    unsynced_metahandles := (flagged .IS_UNSYNCED).toFinset
    unapplied_update_metahandles := (flagged .IS_UNAPPLIED_UPDATE).toFinset }

/-- What is left of an index without the key of an entry. -/
def erased [LinearOrder κ] (indexer : Indexer κ) (dir : Directory)
    (handle : Handle) (index : List Handle) : List Handle :=
  (KeyedIndex.erase (dir.keyOf indexer) handle index).getD index

variable (dir : Directory)

/-- Delete an entry that is in no set of metahandles. -/
def drop (handle : Handle) : Directory :=
  { dir with
    memory := Function.update dir.memory handle none
    metahandles_index :=
      (KeyedIndex.erase id handle dir.metahandles_index).getD dir.metahandles_index
    ids_index := dir.erased idIndexer handle dir.ids_index
    parent_id_child_index := dir.erased parentIdAndHandleIndexer handle dir.parent_id_child_index
    client_tag_index := dir.erased clientTagIndexer handle dir.client_tag_index }

/-- The dirty entries; a dirty metahandle without one is a false positive. -/
def dirtyMetas : List (Handle × EntryKernel) :=
  dir.metahandles_index.filterMap fun handle =>
    if handle ∈ dir.dirty_metahandles then
      match dir.memory handle with
      | some entry => if entry.dirty_ then some (handle, entry) else none
      | none => none
    else none

/-- The info that a snapshot has, with room for ids until the next one. -/
def snapshotInfo (info : PersistedKernelInfo) : PersistedKernelInfo :=
  { info with next_id := info.next_id - 65536 }

def takeSnapshotForSaveChanges : Directory × SaveChangesSnapshot :=
  ({ dir with
      memory := fun handle =>
        if handle ∈ dir.dirty_metahandles then (dir.memory handle).map ({ · with dirty_ := false })
        else dir.memory handle
      dirty_metahandles := ∅
      metahandles_to_purge := ∅
      info_status := .VALID },
    { kernel_info_status := dir.info_status
      kernel_info := snapshotInfo dir.persisted_info
      dirty_metas := dir.dirtyMetas
      metahandles_to_purge := dir.metahandles_to_purge })

def safeToPurgeFromMemory (entry : EntryKernel) : Bool :=
  entry.is_del && !entry.dirty_ && !entry.syncing &&
    !entry.indexed_bit_fields .IS_UNAPPLIED_UPDATE &&
    !entry.indexed_bit_fields .IS_UNSYNCED

/-- Drop an entry out of memory if that is safe. -/
def vacuum (handle : Handle) : Option Directory :=
  match dir.memory handle with
  | none => some dir
  | some entry =>
    if safeToPurgeFromMemory entry then
      if handle ∈ dir.dirty_metahandles ∨ handle ∈ dir.unsynced_metahandles ∨
          handle ∈ dir.unapplied_update_metahandles ∨
          (KeyedIndex.find (dir.keyOf parentIdAndHandleIndexer) (parentIdAndHandleIndexer.key entry)
            dir.parent_id_child_index).isSome then none
      else some (dir.drop handle)
    else some dir

def vacuumAfterSaveChanges (snap : SaveChangesSnapshot) : Option Directory :=
  (snap.dirty_metas.map Prod.fst).foldlM vacuum dir

def handleSaveChangesFailure (snap : SaveChangesSnapshot) : Directory :=
  let dir := { dir with info_status := .DIRTY }
  let dir := (snap.dirty_metas.map Prod.fst).foldl markDirty dir
  { dir with
    metahandles_to_purge := dir.metahandles_to_purge ∪ snap.metahandles_to_purge }

def setInitialSyncEndedForType (type : ModelType) (x : Bool) : Directory :=
  if dir.persisted_info.initial_sync_ended type = x then dir
  else
    { dir with
      persisted_info := { dir.persisted_info with
        initial_sync_ended := Function.update dir.persisted_info.initial_sync_ended type x }
      info_status := .DIRTY }

def setDownloadProgress (model_type : ModelType)
    (new_progress : DataTypeProgressMarker) : Directory :=
  { dir with
    persisted_info := { dir.persisted_info with
      download_progress := Function.update dir.persisted_info.download_progress
        model_type new_progress }
    info_status := .DIRTY }

def setNotificationState (notification_state : String) : Directory :=
  if notification_state = dir.persisted_info.notification_state then dir
  else
    { dir with
      persisted_info := { dir.persisted_info with notification_state }
      info_status := .DIRTY }

def setStoreBirthday (store_birthday : String) : Directory :=
  if dir.persisted_info.store_birthday = store_birthday then dir
  else
    { dir with
      persisted_info := { dir.persisted_info with store_birthday }
      info_status := .DIRTY }

def setAutofillMigrationState (state : AutofillMigrationState) (now : Int) : Directory :=
  if state = dir.persisted_info.autofill_migration_state then dir
  else
    let info := { dir.persisted_info with autofill_migration_state := state }
    { dir with
      persisted_info :=
        if state = .MIGRATED then
          { info with
            autofill_migration_debug_info :=
              { info.autofill_migration_debug_info with
                autofill_migration_time := now } }
        else info
      info_status := .DIRTY }

inductive PropertyToSet
  | MIGRATION_TIME
  | ENTRIES_ADDED
  | PROFILES_ADDED
deriving DecidableEq

/-- The debug info with one property of another. -/
def testAndSet (property_to_set : PropertyToSet)
    (debug_info info : AutofillMigrationDebugInfo) : AutofillMigrationDebugInfo :=
  match property_to_set with
  | .MIGRATION_TIME => { debug_info with autofill_migration_time := info.autofill_migration_time }
  | .ENTRIES_ADDED =>
    { debug_info with
      autofill_entries_added_during_migration := info.autofill_entries_added_during_migration }
  | .PROFILES_ADDED =>
    { debug_info with
      autofill_profile_added_during_migration := info.autofill_profile_added_during_migration }

def setAutofillMigrationStateDebugInfo
    (property_to_set : PropertyToSet) (info : AutofillMigrationDebugInfo) :
    Directory :=
  let debug_info := dir.persisted_info.autofill_migration_debug_info
  let written := testAndSet property_to_set debug_info info
  if debug_info = written then dir
  else
    { dir with
      persisted_info := { dir.persisted_info with autofill_migration_debug_info := written }
      info_status := .DIRTY }

def hasTypeIn (types : List ModelType) (entry : EntryKernel) : Bool :=
  (entry.specifics_fields .SPECIFICS).model_type ∈ types ||
    (entry.specifics_fields .SERVER_SPECIFICS).model_type ∈ types

/-- Purge an entry if it has one of the types. -/
def purgeEntry (types : List ModelType) (dir : Directory) (handle : Handle) : Option Directory := do
  let entry ← dir.memory handle
  if hasTypeIn types entry then do
    let dir ← dir.unlinkEntryFromOrder handle
    some ({ dir with
      metahandles_to_purge := insert handle dir.metahandles_to_purge
      unsynced_metahandles := dir.unsynced_metahandles.erase handle
      unapplied_update_metahandles := dir.unapplied_update_metahandles.erase handle }.drop handle)
  else some dir

/-- The meta tracking of a type that was purged; the reset alone does not make
the info dirty. -/
def resetType (type : ModelType) : Directory :=
  let dir := dir.setInitialSyncEndedForType type false
  { dir with persisted_info := dir.persisted_info.resetDownloadProgress type }

def purgeEntriesWithTypeIn (types : List ModelType) : Option Directory :=
  if .unspecified ∈ types ∨ .topLevelFolder ∈ types ∨ types = [] then some dir
  else do
    let dir ← dir.metahandles_index.foldlM (purgeEntry types) dir
    some (types.foldl resetType dir)

end Directory

/-- The table of entries, and the tables of the kernel info. -/
structure DirectoryBackingStore where
  metas : Handle -> Option EntryKernel := fun _ => none
  info : PersistedKernelInfo := {}

namespace DirectoryBackingStore

def saveEntryToDB (metas : Handle -> Option EntryKernel)
    (saved : Handle × EntryKernel) : Handle -> Option EntryKernel :=
  Function.update metas saved.1 (some saved.2.persistent)

/-- The progress of the types that are no real ones is not stored. -/
def saveInfo (stored info : PersistedKernelInfo) : PersistedKernelInfo :=
  let isReal (type : ModelType) : Bool := type ≠ .unspecified && type ≠ .topLevelFolder
  { info with
    download_progress := fun type =>
      if isReal type then info.download_progress type
      else stored.download_progress type
    initial_sync_ended := fun type =>
      if isReal type then info.initial_sync_ended type
      else stored.initial_sync_ended type }

/-- What the store has after it accepted a snapshot. -/
def saveChanges (store : DirectoryBackingStore)
    (snap : SaveChangesSnapshot) : DirectoryBackingStore :=
  if snap.dirty_metas = [] ∧ snap.kernel_info_status ≠ .DIRTY then store
  else
    let metas := snap.dirty_metas.foldl saveEntryToDB store.metas
    { metas := fun handle => if handle ∈ snap.metahandles_to_purge then none else metas handle
      info :=
        if snap.kernel_info_status = .DIRTY then saveInfo store.info snap.kernel_info
        else store.info }

end DirectoryBackingStore

end

/-!
## Transactions and saves in turn

One step performs an operation of a transaction, takes a snapshot for a save,
lets the backing store accept or reject it, or finishes the save.
-/

section

open Sync (Id ModelType)

/-- What a transaction does with a directory. -/
inductive Operation
  | create (parent_id : Id) (name : String) (now : Int)
  | createNewUpdateItem (id : Id)
  | putInt64 (handle : Handle) (field : Int64Field) (value : Int)
  | putBaseVersion (handle : Handle) (value : Int)
  | putSpecifics (handle : Handle) (field : ProtoField) (value : EntitySpecifics)
  | putBit (handle : Handle) (field : BitField) (value : Bool)
  | putSyncing (handle : Handle) (value : Bool)
  | putIndexedBit (handle : Handle) (field : IndexedBitField) (value : Bool)
  | putString (handle : Handle) (field : StringField) (value : String)
  | putId (handle : Handle) (field : IdField) (value : Id)
  | putIsDel (handle : Handle) (is_del : Bool)
  | putParentIdPropertyOnly (handle : Handle) (parent_id : Id)
  | putPredecessor (handle : Handle) (predecessor_id : Id)
  | changeEntryIDAndUpdateChildren (handle : Handle) (new_id : Id)
  | splitServerInformationIntoNewEntry (handle : Handle)
  | nextId
  | purgeEntriesWithTypeIn (types : List ModelType)
  | setInitialSyncEndedForType (type : ModelType) (x : Bool)
  | setDownloadProgress (type : ModelType) (progress : DataTypeProgressMarker)
  | setNotificationState (notification_state : String)
  | setStoreBirthday (store_birthday : String)
  | setAutofillMigrationState (state : AutofillMigrationState) (now : Int)
  | setAutofillMigrationStateDebugInfo (property_to_set : Directory.PropertyToSet)
      (info : AutofillMigrationDebugInfo)

namespace Directory

/-- The directory after an operation, and what the operation returns. -/
def perform (dir : Directory) : Operation -> Option (Directory × Bool)
  | .create parent_id name now => (dir.create parent_id name now).map (·, true)
  | .createNewUpdateItem id => dir.createNewUpdateItem id
  | .putInt64 handle field value => (dir.putInt64 handle field value).map (·, true)
  | .putBaseVersion handle value => (dir.putBaseVersion handle value).map (·, true)
  | .putSpecifics handle field value => (dir.putSpecifics handle field value).map (·, true)
  | .putBit handle field value => (dir.putBit handle field value).map (·, true)
  | .putSyncing handle value => (dir.putSyncing handle value).map (·, true)
  | .putIndexedBit handle field value => (dir.putIndexedBit handle field value).map (·, true)
  | .putString handle field value => dir.putString handle field value
  | .putId handle field value => dir.putId handle field value
  | .putIsDel handle is_del => (dir.putIsDel handle is_del).map (·, true)
  | .putParentIdPropertyOnly handle parent_id =>
    (dir.putParentIdPropertyOnly handle parent_id).map (·, true)
  | .putPredecessor handle predecessor_id => dir.putPredecessor handle predecessor_id
  | .changeEntryIDAndUpdateChildren handle new_id =>
    (dir.changeEntryIDAndUpdateChildren handle new_id).map (·, true)
  | .splitServerInformationIntoNewEntry handle =>
    (dir.splitServerInformationIntoNewEntry handle).map (·, true)
  | .nextId => some (dir.nextId.1, true)
  | .purgeEntriesWithTypeIn types => (dir.purgeEntriesWithTypeIn types).map (·, true)
  | .setInitialSyncEndedForType type x => some (dir.setInitialSyncEndedForType type x, true)
  | .setDownloadProgress type progress => some (dir.setDownloadProgress type progress, true)
  | .setNotificationState state => some (dir.setNotificationState state, true)
  | .setStoreBirthday birthday => some (dir.setStoreBirthday birthday, true)
  | .setAutofillMigrationState state now => some (dir.setAutofillMigrationState state now, true)
  | .setAutofillMigrationStateDebugInfo property_to_set info =>
    some (dir.setAutofillMigrationStateDebugInfo property_to_set info, true)

end Directory

/-- How far a save is. -/
inductive Saving
  | idle
  | taken (snap : SaveChangesSnapshot)
  | answered (snap : SaveChangesSnapshot) (success : Bool)

/-- A directory with its backing store, and the metahandles purged so far. -/
structure Session where
  directory : Directory
  store : DirectoryBackingStore
  saving : Saving := .idle
  purged : MetahandleSet := ∅

inductive Event
  | transaction (op : Operation)
  | takeSnapshot
  | answer (success : Bool)
  | finish

namespace Session

/-- The session after an operation. -/
def transact (s : Session) (op : Operation) : Option Session := do
  let ran ← s.directory.perform op
  let dropped := s.directory.metahandles_index.filter fun handle =>
    (ran.1.memory handle).isNone
  some { s with
    directory := ran.1
    purged := s.purged ∪ dropped.toFinset }

/-- One step; the steps of a save follow each other, one save after another. -/
def step (s : Session) : Event -> Option Session
  | .transaction op => s.transact op
  | .takeSnapshot =>
    match s.saving with
    | .idle =>
      let taken := s.directory.takeSnapshotForSaveChanges
      some { s with directory := taken.1, saving := .taken taken.2 }
    | _ => none
  | .answer success =>
    match s.saving with
    | .taken snap =>
      some { s with
        store :=
          if success then s.store.saveChanges snap
          else s.store
        saving := .answered snap success }
    | _ => none
  | .finish =>
    match s.saving with
    | .answered snap true => do
        let directory ← s.directory.vacuumAfterSaveChanges snap
        some { s with directory, saving := .idle }
    | .answered snap false =>
      some { s with
        directory := s.directory.handleSaveChangesFailure snap
        saving := .idle }
    | _ => none

/-- The rows of a backing store, with the greatest metahandle of one. -/
structure Loadable (rows : List (Handle × EntryKernel))
    (info : PersistedKernelInfo) (max_metahandle : Handle) : Prop where
  handles : (rows.map Prod.fst).Nodup
  bounded : ∀ row ∈ rows, row.1 <= max_metahandle
  stored : ∀ row ∈ rows, row.2.persistent = row.2
  ids : (rows.map fun row => row.2.id).Nodup
  client_tags : ((rows.map fun row => row.2.string_fields .UNIQUE_CLIENT_TAG).filter (· ≠ "")).Nodup
  negative : info.next_id < 0

/-- The session of a directory that was just opened. -/
def opened (rows : List (Handle × EntryKernel)) (info : PersistedKernelInfo)
    (max_metahandle : Handle) : Session where
  directory := Directory.openImpl rows info max_metahandle
  store := { metas := fun handle => rows.lookup handle, info }

end Session

end

end Chromium.Syncable
