import Chromium.Library.KeyedIndex
import Chromium.Sync.GetCommitIdsCommand
import Mathlib.Data.Finset.Basic
import Mathlib.Data.Prod.Lex
import Mathlib.Data.String.Basic

/-!
# Entries of the sync directory

An entry has fields of several kinds, a temporary bit that is not stored, and a
bit that tells whether it has to be saved.
-/

namespace Chromium.Syncable

section

open Sync (Id ModelType)

/-- The metahandle of an entry is its key in memory, and no field here. -/
abbrev Handle := Int

inductive Int64Field
  | SERVER_VERSION
  | MTIME
  | SERVER_MTIME
  | CTIME
  | SERVER_CTIME
  | SERVER_POSITION_IN_PARENT
  | LOCAL_EXTERNAL_ID
deriving DecidableEq

inductive IdField
  | ID
  | PARENT_ID
  | SERVER_PARENT_ID
  | PREV_ID
  | NEXT_ID
deriving DecidableEq

inductive IndexedBitField
  | IS_UNSYNCED
  | IS_UNAPPLIED_UPDATE
deriving DecidableEq

inductive BitField
  | IS_DIR
  | SERVER_IS_DIR
  | SERVER_IS_DEL
deriving DecidableEq

inductive StringField
  | NON_UNIQUE_NAME
  | SERVER_NON_UNIQUE_NAME
  | UNIQUE_SERVER_TAG
  | UNIQUE_CLIENT_TAG
deriving DecidableEq

inductive ProtoField
  | SPECIFICS
  | SERVER_SPECIFICS
deriving DecidableEq

/-- The type of the extension that is set, and the serialised form. -/
structure EntitySpecifics where
  model_type : ModelType := .unspecified
  serialized : String := ""
deriving DecidableEq

def CHANGES_VERSION : Int := -1

/-- The fields of an entry after `ZeroFields`. -/
structure EntryKernel where
  base_version : Int := 0
  int64_fields : Int64Field -> Int := fun _ => 0
  id_fields : IdField -> Id := fun _ => .root
  indexed_bit_fields : IndexedBitField -> Bool := fun _ => false
  is_del : Bool := false
  bit_fields : BitField -> Bool := fun _ => false
  string_fields : StringField -> String := fun _ => ""
  specifics_fields : ProtoField -> EntitySpecifics := fun _ => {}
  /-- The temporary bit `SYNCING`. -/
  syncing : Bool := false
  dirty_ : Bool := false

namespace EntryKernel

variable (entry : EntryKernel)

abbrev id : Id := entry.id_fields .ID

abbrev parent_id : Id := entry.id_fields .PARENT_ID

abbrev prev_id : Id := entry.id_fields .PREV_ID

abbrev next_id : Id := entry.id_fields .NEXT_ID

def putInt64 (field : Int64Field) (value : Int) : EntryKernel :=
  { entry with int64_fields := Function.update entry.int64_fields field value }

def putId (field : IdField) (value : Id) : EntryKernel :=
  { entry with id_fields := Function.update entry.id_fields field value }

def putIndexedBit (field : IndexedBitField) (value : Bool) : EntryKernel :=
  { entry with
    indexed_bit_fields := Function.update entry.indexed_bit_fields field value }

def putBit (field : BitField) (value : Bool) : EntryKernel :=
  { entry with bit_fields := Function.update entry.bit_fields field value }

def putString (field : StringField) (value : String) : EntryKernel :=
  { entry with string_fields := Function.update entry.string_fields field value }

def putSpecifics (field : ProtoField) (value : EntitySpecifics) : EntryKernel :=
  { entry with
    specifics_fields := Function.update entry.specifics_fields field value }

end EntryKernel

/-- The rank of a form of ids by its first character, and the rest. -/
def idKey : Id -> ℕ ×ₗ String
  | .client opaque_id => toLex (0, opaque_id)
  | .root => toLex (1, "")
  | .server opaque_id => toLex (2, opaque_id)

theorem idKey_injective : Function.Injective idKey := by
  intro left right same
  cases left <;> cases right <;> simp_all [idKey]

/-- Ids are compared as strings. -/
instance : LinearOrder Id := LinearOrder.lift' idKey idKey_injective

/-- The order of an index, and the entries that it has. -/
structure Indexer (κ : Type) where
  key : EntryKernel -> κ
  shouldInclude : EntryKernel -> Bool

def idIndexer : Indexer Id where
  key := EntryKernel.id
  shouldInclude _ := true

def clientTagIndexer : Indexer String where
  key entry := entry.string_fields .UNIQUE_CLIENT_TAG
  shouldInclude entry := entry.string_fields .UNIQUE_CLIENT_TAG ≠ ""

/-- The root is excluded so that it is no child of itself. -/
def parentIdAndHandleIndexer : Indexer (Id ×ₗ Int ×ₗ Id) where
  key entry := toLex (entry.parent_id,
    toLex (entry.int64_fields .SERVER_POSITION_IN_PARENT, entry.id))
  shouldInclude entry := !entry.is_del && !entry.id.isRoot

end

/-!
## The sync directory

The kernel of a directory has the entries in memory, the indices over them, and
what has to be saved. A failed `CHECK`, and a walk that does not end, leave no
directory.
-/

section

open Library
open Sync (Id ModelType)

abbrev MetahandleSet := Finset Handle

inductive KernelShareInfoStatus
  | INVALID
  | VALID
  | DIRTY
deriving DecidableEq

inductive AutofillMigrationState
  | NOT_DETERMINED
  | NOT_MIGRATED
  | MIGRATED
  | INSUFFICIENT_INFO_TO_DETERMINE
deriving DecidableEq

structure AutofillMigrationDebugInfo where
  autofill_migration_time : Int := 0
  bookmarks_added_during_migration : Int := 0
  autofill_entries_added_during_migration : Int := 0
  autofill_profile_added_during_migration : Int := 0
deriving DecidableEq

structure DataTypeProgressMarker where
  data_type_id : Int := 0
  token : String := ""
  timestamp_token_for_migration : Int := 0
deriving DecidableEq

def getExtensionFieldNumberFromModelType : ModelType -> Int
  | .bookmarks => 32904
  | .passwords => 45873
  | .preferences => 37702
  | .autofill => 31729
  | .autofillProfile => 63951
  | .themes => 41210
  | .typedUrls => 40781
  | .extensions => 48119
  | .nigori => 47745
  | .sessions => 50119
  | .apps => 48364
  | .unspecified | .topLevelFolder => 0

structure PersistedKernelInfo where
  download_progress : ModelType -> DataTypeProgressMarker := fun type =>
    { data_type_id := getExtensionFieldNumberFromModelType type }
  initial_sync_ended : ModelType -> Bool := fun _ => false
  store_birthday : String := ""
  next_id : Int := 0
  notification_state : String := ""
  autofill_migration_state : AutofillMigrationState := .NOT_DETERMINED
  autofill_migration_debug_info : AutofillMigrationDebugInfo := {}

def PersistedKernelInfo.resetDownloadProgress
    (info : PersistedKernelInfo) (model_type : ModelType) :
    PersistedKernelInfo :=
  { info with
    download_progress := Function.update info.download_progress model_type
      { info.download_progress model_type with
        data_type_id := getExtensionFieldNumberFromModelType model_type
        token := "" } }

/-- The kernel of a directory; the indices are lists of metahandles. -/
structure Directory where
  /-- The entries that were allocated and not deleted. -/
  memory : Handle -> Option EntryKernel := fun _ => none
  metahandles_index : List Handle := []
  ids_index : List Handle := []
  parent_id_child_index : List Handle := []
  client_tag_index : List Handle := []
  unapplied_update_metahandles : MetahandleSet := ∅
  unsynced_metahandles : MetahandleSet := ∅
  dirty_metahandles : MetahandleSet := ∅
  metahandles_to_purge : MetahandleSet := ∅
  info_status : KernelShareInfoStatus := .VALID
  persisted_info : PersistedKernelInfo := {}
  next_metahandle : Handle := 1

namespace Directory

/-- The key that an entry has at present. -/
def keyOf (indexer : Indexer κ) (dir : Directory) (handle : Handle) : κ :=
  indexer.key ((dir.memory handle).getD {})

variable (dir : Directory)

/-- Change the fields of an entry. -/
def modify (handle : Handle) (change : EntryKernel -> EntryKernel) : Directory :=
  { dir with
    memory := Function.update dir.memory handle ((dir.memory handle).map change) }

/-- `mark_dirty`, with the dirty metahandles of the directory. -/
def markDirty (handle : Handle) : Directory :=
  match dir.memory handle with
  | none => dir
  | some entry =>
    { dir with
      memory := Function.update dir.memory handle (some { entry with dirty_ := true })
      dirty_metahandles :=
        if entry.dirty_ then dir.dirty_metahandles
        else insert handle dir.dirty_metahandles }

/-- Change the fields of an entry and mark it as dirty. -/
def write (handle : Handle) (change : EntryKernel -> EntryKernel) : Directory :=
  (dir.modify handle change).markDirty handle

/-- Take an entry out of an index that includes it. -/
def removed [LinearOrder κ] (indexer : Indexer κ) (dir : Directory)
    (handle : Handle) (index : List Handle) : Option (List Handle) :=
  match dir.memory handle with
  | none => none
  | some entry =>
    if indexer.shouldInclude entry then KeyedIndex.erase (dir.keyOf indexer) handle index
    else some index

/-- Put an entry into an index that includes it. -/
def restored [LinearOrder κ] (indexer : Indexer κ) (dir : Directory)
    (handle : Handle) (index : List Handle) : Option (List Handle) :=
  match dir.memory handle with
  | none => none
  | some entry =>
    if indexer.shouldInclude entry then KeyedIndex.insert (dir.keyOf indexer) handle index
    else some index

def getEntryById (id : Id) : Option Handle := KeyedIndex.find (dir.keyOf idIndexer) id dir.ids_index

/-- The range of the child index between the bounds of a parent. -/
def getChildHandles (parent_id : Id) : List Handle :=
  dir.parent_id_child_index.filter fun handle => ((dir.memory handle).getD {}).parent_id = parent_id

/-- Whether an entry is in the sibling order; self-looped ones are not. -/
def isOrdered (entry : EntryKernel) : Bool := entry.prev_id.isRoot || entry.prev_id ≠ entry.next_id

/-- Walk along the entries that a field refers to, until it is the root. -/
def walk (dir : Directory) (field : IdField) : Nat -> Handle -> Option Id
  | 0, _ => none
  | fuel + 1, handle => do
      let entry ← dir.memory handle
      if (entry.id_fields field).isRoot then some entry.id
      else
        let next ← dir.getEntryById (entry.id_fields field)
        walk dir field fuel next

def getFirstChildId (parent_id : Id) : Option Id :=
  match (dir.getChildHandles parent_id).find? fun handle =>
      isOrdered ((dir.memory handle).getD {}) with
  | none => some .root
  | some candidate => dir.walk .PREV_ID (dir.ids_index.length + 1) candidate

def getLastChildId (parent_id : Id) : Option Id :=
  match (dir.getChildHandles parent_id).reverse.find? fun handle =>
      isOrdered ((dir.memory handle).getD {}) with
  | none => some .root
  | some candidate => dir.walk .NEXT_ID (dir.ids_index.length + 1) candidate

def insertEntry (handle : Handle) (entry : EntryKernel) : Option Directory := do
  let dir := { dir with
    memory := Function.update dir.memory handle (some entry) }
  let metahandles_index ← KeyedIndex.insert id handle dir.metahandles_index
  -- The root is no exception here, unlike in the indexer.
  let parent_id_child_index ← (if entry.is_del then some dir.parent_id_child_index
    else KeyedIndex.insert (dir.keyOf parentIdAndHandleIndexer) handle dir.parent_id_child_index)
  let ids_index ← KeyedIndex.insert (dir.keyOf idIndexer) handle dir.ids_index
  if entry.string_fields .UNIQUE_CLIENT_TAG ≠ "" then none
  else some { dir with metahandles_index, parent_id_child_index, ids_index }

/-- The entry itself is not marked as dirty here. -/
def reindexId (handle : Handle) (new_id : Id) : Option (Directory × Bool) :=
  if (dir.getEntryById new_id).isSome then some (dir, false)
  else do
    let ids_index ← dir.removed idIndexer handle dir.ids_index
    let parent_id_child_index ←
      dir.removed parentIdAndHandleIndexer handle dir.parent_id_child_index
    let dir := dir.modify handle (·.putId .ID new_id)
    let parent_id_child_index ← dir.restored parentIdAndHandleIndexer handle parent_id_child_index
    let ids_index ← dir.restored idIndexer handle ids_index
    some ({ dir with ids_index, parent_id_child_index }, true)

/-- Change what the child index depends on. -/
def reindexChild (handle : Handle) (change : EntryKernel -> EntryKernel) : Option Directory := do
  let parent_id_child_index ← dir.removed parentIdAndHandleIndexer handle dir.parent_id_child_index
  let dir := dir.modify handle change
  let parent_id_child_index ← dir.restored parentIdAndHandleIndexer handle parent_id_child_index
  some { dir with parent_id_child_index }

def reindexParentId (handle : Handle) (new_parent_id : Id) : Option Directory :=
  dir.reindexChild handle (·.putId .PARENT_ID new_parent_id)

/-- Write a field of the entry with an id, unless it is the root. -/
def putAt (id : Id) (field : IdField) (value : Id) : Option Directory :=
  if id.isRoot then some dir
  else do
    let handle ← dir.getEntryById id
    some (dir.write handle (·.putId field value))

def unlinkEntryFromOrder (handle : Handle) : Option Directory := do
  let entry ← dir.memory handle
  let old_previous := entry.prev_id
  let old_next := entry.next_id
  let dir := dir.write handle fun entry => (entry.putId .NEXT_ID entry.id).putId .PREV_ID entry.id
  if !old_previous.isRoot && old_previous = old_next then
    -- The entry was self-looped before.
    if old_next = entry.id || !old_next.serverKnows then some dir else none
  else do
    let dir ← dir.putAt old_previous .NEXT_ID old_next
    dir.putAt old_next .PREV_ID old_previous

end Directory

end

/-!
## Mutable entries

The functions that create entries and write their fields. The setters that
return true in every case return the directory alone.
-/

section

open Library
open Sync (Id ModelType)

/-- `Id::CreateFromClientString`. -/
def createFromClientString (local_id : String) : Id :=
  if local_id = "0" then .root else .client local_id

namespace Directory

def putInt64 (dir : Directory) (handle : Handle) (field : Int64Field)
    (value : Int) : Option Directory := do
  let entry ← dir.memory handle
  if entry.int64_fields field = value then some dir
  else if field = .SERVER_POSITION_IN_PARENT then do
    let dir ← dir.reindexChild handle (·.putInt64 field value)
    some (dir.markDirty handle)
  else some (dir.write handle (·.putInt64 field value))

variable (dir : Directory)

def putBaseVersion (handle : Handle) (value : Int) : Option Directory := do
  let entry ← dir.memory handle
  if entry.base_version = value then some dir
  else some (dir.write handle ({ · with base_version := value }))

def putSpecifics (dir : Directory) (handle : Handle) (field : ProtoField)
    (value : EntitySpecifics) : Option Directory := do
  let entry ← dir.memory handle
  if (entry.specifics_fields field).serialized = value.serialized then some dir
  else some (dir.write handle (·.putSpecifics field value))

def putBit (dir : Directory) (handle : Handle) (field : BitField)
    (value : Bool) : Option Directory := do
  let entry ← dir.memory handle
  if entry.bit_fields field = value then some dir
  else some (dir.write handle (·.putBit field value))

/-- Put the temporary bit; the entry does not become dirty. -/
def putSyncing (handle : Handle) (value : Bool) : Option Directory := do
  let _ ← dir.memory handle
  some (dir.modify handle ({ · with syncing := value }))

/-- The set of metahandles that goes with a bit, after a change of the bit. -/
def changedMetahandles (handle : Handle) (value : Bool) (set : MetahandleSet) :
    Option MetahandleSet :=
  if value then if handle ∈ set then none else some (insert handle set)
  else if handle ∈ set then some (set.erase handle)
  else none

def putIndexedBit (dir : Directory) (handle : Handle) (field : IndexedBitField)
    (value : Bool) : Option Directory := do
  let entry ← dir.memory handle
  if entry.indexed_bit_fields field = value then some dir
  else
    match field with
    | .IS_UNSYNCED => do
        let unsynced_metahandles ← changedMetahandles handle value dir.unsynced_metahandles
        some ({ dir with unsynced_metahandles }.write handle (·.putIndexedBit field value))
    | .IS_UNAPPLIED_UPDATE => do
        let unapplied_update_metahandles ←
          changedMetahandles handle value dir.unapplied_update_metahandles
        some ({ dir with unapplied_update_metahandles }.write handle (·.putIndexedBit field value))

def getEntryByClientTag (tag : String) : Option Handle :=
  KeyedIndex.find (dir.keyOf clientTagIndexer) tag dir.client_tag_index

/-- Change the unique client tag, with the index over the tags. -/
def reindexClientTag (handle : Handle) (new_tag : String) : Option Directory := do
  let client_tag_index ← dir.removed clientTagIndexer handle dir.client_tag_index
  let dir := dir.modify handle (·.putString .UNIQUE_CLIENT_TAG new_tag)
  let client_tag_index ← dir.restored clientTagIndexer handle client_tag_index
  some { dir with client_tag_index }

def putUniqueClientTag (handle : Handle) (new_tag : String) : Option (Directory × Bool) := do
  let entry ← dir.memory handle
  if entry.string_fields .UNIQUE_CLIENT_TAG = new_tag then some (dir, true)
  else if new_tag ≠ "" ∧ (dir.getEntryByClientTag new_tag).isSome then some (dir, false)
  else do
    let dir ← dir.reindexClientTag handle new_tag
    some (dir.markDirty handle, true)

def putString (dir : Directory) (handle : Handle) (field : StringField)
    (value : String) : Option (Directory × Bool) :=
  if field = .UNIQUE_CLIENT_TAG then dir.putUniqueClientTag handle value
  else do
    let entry ← dir.memory handle
    if entry.string_fields field = value then some (dir, true)
    else some (dir.write handle (·.putString field value), true)

/-- `Put` of an id that no index depends on. -/
def putLink (handle : Handle) (field : IdField) (value : Id) : Option Directory := do
  let entry ← dir.memory handle
  if entry.id_fields field = value then some dir
  else some (dir.write handle (·.putId field value))

/-- The end of `PutPredecessor`, from the successor on. -/
def putBetween (handle : Handle)
    (predecessor_id successor_id : Id) : Option (Directory × Bool) := do
  let entry ← dir.memory handle
  if successor_id.isRoot then do
    let dir ← dir.putLink handle .PREV_ID predecessor_id
    let dir ← dir.putLink handle .NEXT_ID successor_id
    some (dir, true)
  else do
    let successor ← dir.getEntryById successor_id
    let successor_entry ← dir.memory successor
    if successor_entry.parent_id ≠ entry.parent_id then some (dir, false)
    else do
      let dir ← dir.putLink successor .PREV_ID entry.id
      let dir ← dir.putLink handle .PREV_ID predecessor_id
      let dir ← dir.putLink handle .NEXT_ID successor_id
      some (dir, true)

/-- Put an entry behind a sibling; the root stands for the first position. -/
def putPredecessor (handle : Handle) (predecessor_id : Id) : Option (Directory × Bool) := do
  let dir ← dir.unlinkEntryFromOrder handle
  let entry ← dir.memory handle
  if entry.is_del then some (dir, true)
  else if predecessor_id.isRoot then do
    let successor_id ← dir.getFirstChildId entry.parent_id
    dir.putBetween handle predecessor_id successor_id
  else do
    let predecessor ← dir.getEntryById predecessor_id
    let predecessor_entry ← dir.memory predecessor
    if predecessor_entry.parent_id ≠ entry.parent_id then some (dir, false)
    else do
      let dir ← dir.putLink predecessor .NEXT_ID entry.id
      dir.putBetween handle predecessor_id predecessor_entry.next_id

def putParentIdPropertyOnly (handle : Handle) (parent_id : Id) : Option Directory := do
  let dir ← dir.reindexParentId handle parent_id
  some (dir.markDirty handle)

def putId (dir : Directory) (handle : Handle) (field : IdField) (value : Id) :
    Option (Directory × Bool) := do
  let entry ← dir.memory handle
  if entry.id_fields field = value then some (dir, true)
  else
    match field with
    | .ID => do
        let reindexed ← dir.reindexId handle value
        if reindexed.2 then some (reindexed.1.markDirty handle, true)
        else some (dir, false)
    | .PARENT_ID => do
        -- The sibling order is inconsistent in between.
        let dir ← dir.putParentIdPropertyOnly handle value
        let placed ← dir.putPredecessor handle .root
        some (placed.1.markDirty handle, true)
    | field => some (dir.write handle (·.putId field value), true)

def putIsDel (handle : Handle) (is_del : Bool) : Option Directory := do
  let entry ← dir.memory handle
  if entry.is_del = is_del then some dir
  else if is_del then do
    let dir ← dir.unlinkEntryFromOrder handle
    let dir ← dir.reindexChild handle ({ · with is_del := true })
    some (dir.markDirty handle)
  else do
    let dir ← dir.reindexChild handle ({ · with is_del := false })
    let placed ← (dir.markDirty handle).putPredecessor handle .root
    some placed.1

/-- A client id that is the string of a negative number. -/
def nextId : Directory × Id :=
  ({ dir with
      persisted_info := { dir.persisted_info with next_id := dir.persisted_info.next_id - 1 }
      info_status := .DIRTY },
    createFromClientString (toString dir.persisted_info.next_id))

/-- Insert an entry with the next metahandle, as dirty. -/
def insertNew (entry : EntryKernel) : Option Directory :=
  { dir with
    next_metahandle := dir.next_metahandle + 1
    dirty_metahandles := insert dir.next_metahandle dir.dirty_metahandles
  }.insertEntry dir.next_metahandle { entry with dirty_ := true }

/-- The entry after `Init`; its two writes of `IS_DEL` undo each other. -/
def initialEntry (id parent_id : Id) (name : String) (now : Int) : EntryKernel :=
  { ((({} : EntryKernel).putId .ID id).putId .PARENT_ID parent_id
      |>.putString .NON_UNIQUE_NAME name
      |>.putInt64 .CTIME now
      |>.putInt64 .MTIME now) with
    base_version := CHANGES_VERSION }

def create (parent_id : Id) (name : String) (now : Int) : Option Directory :=
  dir.nextId.1.insertNew (initialEntry dir.nextId.2 parent_id name now)

/-- An id that is in use already is refused. -/
def createNewUpdateItem (id : Id) : Option (Directory × Bool) :=
  if (dir.getEntryById id).isSome then some (dir, false)
  else do
    let dir ← dir.insertNew
      { ({} : EntryKernel).putId .ID id with
        is_del := true
        base_version := CHANGES_VERSION }
    some (dir, true)

def changeEntryIDAndUpdateChildren (handle : Handle) (new_id : Id) : Option Directory := do
  let entry ← dir.memory handle
  let old_id := entry.id
  let renamed ← dir.putId handle .ID new_id
  if !renamed.2 then none
  else do
    let dir := renamed.1
    -- The links among the children are valid again after the loop.
    let dir ← (if entry.bit_fields .IS_DIR then
        (dir.getChildHandles old_id).foldlM
          (fun dir child => dir.putParentIdPropertyOnly child new_id) dir
      else some dir)
    let entry ← dir.memory handle
    if entry.prev_id = entry.next_id ∧ entry.prev_id = old_id then do
      let dir ← dir.putLink handle .NEXT_ID new_id
      dir.putLink handle .PREV_ID new_id
    else do
      let placed ← dir.putPredecessor handle entry.prev_id
      some placed.1

def copyServerFields (source : EntryKernel) (handle : Handle) : Option Directory := do
  let named ← dir.putString handle .SERVER_NON_UNIQUE_NAME
    (source.string_fields .SERVER_NON_UNIQUE_NAME)
  let dir ← named.1.putLink handle .SERVER_PARENT_ID (source.id_fields .SERVER_PARENT_ID)
  let dir ← dir.putInt64 handle .SERVER_MTIME (source.int64_fields .SERVER_MTIME)
  let dir ← dir.putInt64 handle .SERVER_CTIME (source.int64_fields .SERVER_CTIME)
  let dir ← dir.putInt64 handle .SERVER_VERSION (source.int64_fields .SERVER_VERSION)
  let dir ← dir.putBit handle .SERVER_IS_DIR (source.bit_fields .SERVER_IS_DIR)
  let dir ← dir.putBit handle .SERVER_IS_DEL (source.bit_fields .SERVER_IS_DEL)
  let dir ← dir.putIndexedBit handle .IS_UNAPPLIED_UPDATE
    (source.indexed_bit_fields .IS_UNAPPLIED_UPDATE)
  let dir ← dir.putSpecifics handle .SERVER_SPECIFICS (source.specifics_fields .SERVER_SPECIFICS)
  dir.putInt64 handle .SERVER_POSITION_IN_PARENT (source.int64_fields .SERVER_POSITION_IN_PARENT)

/-- The server data of an entry is that of an entry after `ZeroFields`. -/
def clearServerData (handle : Handle) : Option Directory := dir.copyServerFields {} handle

def splitServerInformationIntoNewEntry (handle : Handle) : Option Directory := do
  let entry ← dir.memory handle
  let dir ← dir.nextId.1.changeEntryIDAndUpdateChildren handle dir.nextId.2
  let dir ← dir.putBaseVersion handle 0
  let new_entry := dir.next_metahandle
  let created ← dir.createNewUpdateItem entry.id
  if !created.2 then none
  else do
    let entry ← created.1.memory handle
    let dir ← created.1.copyServerFields entry new_entry
    dir.clearServerData handle

end Directory

end

end Chromium.Syncable
