import Chromium.Syncable.Directory

/-!
# Edits of the sync directory

Every function that creates an entry or writes a field makes a sequence of
edits. An edit changes one entry, with the indices that depend on the field,
and leaves it dirty.
-/

namespace Chromium.Syncable

open List Option Function
open Library
open Sync (Id ModelType)

/-- What the indices and the sets of metahandles see of an entry. -/
structure IndexedFields where
  id : Id
  parent_id : Id
  server_position : Int
  is_del : Bool
  client_tag : String
  indexed_bits : IndexedBitField -> Bool

def EntryKernel.indexedFields (entry : EntryKernel) : IndexedFields where
  id := entry.id
  parent_id := entry.parent_id
  server_position := entry.int64_fields .SERVER_POSITION_IN_PARENT
  is_del := entry.is_del
  client_tag := entry.string_fields .UNIQUE_CLIENT_TAG
  indexed_bits := entry.indexed_bit_fields

/-- A change that no index sees, and that marks nothing as dirty. -/
def Unindexed (change : EntryKernel -> EntryKernel) : Prop :=
  ∀ entry, (change entry).indexedFields = entry.indexedFields ∧ (change entry).dirty_ = entry.dirty_

/-- A change that no index sees but that of the children. -/
def ChildIndexed (change : EntryKernel -> EntryKernel) : Prop :=
  ∀ entry, (change entry).id = entry.id ∧ (change entry).string_fields = entry.string_fields ∧
    (change entry).indexed_bit_fields = entry.indexed_bit_fields ∧
    (change entry).dirty_ = entry.dirty_

/-- One edit of a directory. -/
inductive Edit (dir : Directory) : Directory -> Prop
  | write (handle : Handle) {change : EntryKernel -> EntryKernel} (unindexed : Unindexed change) :
      Edit dir (dir.write handle change)
  | syncing (handle : Handle) (value : Bool) :
      Edit dir (dir.modify handle ({ · with syncing := value }))
  | child {handle : Handle} {change : EntryKernel -> EntryKernel} {next : Directory}
      (childIndexed : ChildIndexed change)
      (reindexed : dir.reindexChild handle change = some next) :
      Edit dir (next.markDirty handle)
  | id {handle : Handle} {new_id : Id} {next : Directory}
      (reindexed : dir.reindexId handle new_id = some (next, true)) :
      Edit dir (next.markDirty handle)
  | clientTag {handle : Handle} {new_tag : String} {next : Directory}
      (reindexed : dir.reindexClientTag handle new_tag = some next) :
      Edit dir (next.markDirty handle)
  | indexedBit {handle : Handle} {field : IndexedBitField} {value : Bool} {next : Directory}
      (put : dir.putIndexedBit handle field value = some next) :
      Edit dir next
  | insert {entry : EntryKernel} {next : Directory}
      (apart : entry.is_del = true ∨ entry.id.isRoot = false)
      (plain : entry.indexed_bit_fields = fun _ => false)
      (inserted : dir.insertNew entry = some next) :
      Edit dir next
  | info {persisted_info : PersistedKernelInfo}
      (counts : persisted_info.next_id <= dir.persisted_info.next_id) :
      Edit dir { dir with persisted_info, info_status := .DIRTY }

/-- A sequence of edits. -/
abbrev Edits : Directory -> Directory -> Prop := Relation.ReflTransGen Edit

theorem Edit.edits {dir next : Directory} (edit : Edit dir next) : Edits dir next :=
  Relation.ReflTransGen.single edit

theorem unindexed_id : Unindexed id := fun _ => ⟨rfl, rfl⟩

theorem indexedFields_putId (notId : field ≠ .ID) (notParent : field ≠ .PARENT_ID)
    {entry : EntryKernel} :
    (entry.putId field value).indexedFields = entry.indexedFields := by
  simp only [EntryKernel.indexedFields, EntryKernel.putId, EntryKernel.id,
    EntryKernel.parent_id, update_of_ne notId.symm,
    update_of_ne notParent.symm]

theorem unindexed_putId (notId : field ≠ .ID) (notParent : field ≠ .PARENT_ID) :
    Unindexed (·.putId field value) :=
  fun _ => ⟨indexedFields_putId notId notParent, rfl⟩

theorem unindexed_putInt64 (notPosition : field ≠ .SERVER_POSITION_IN_PARENT) :
    Unindexed (·.putInt64 field value) := by
  intro entry
  refine ⟨?_, rfl⟩
  simp only [EntryKernel.indexedFields, EntryKernel.putInt64, update_of_ne notPosition.symm]

theorem unindexed_putString (notTag : field ≠ .UNIQUE_CLIENT_TAG) :
    Unindexed (·.putString field value) := by
  intro entry
  refine ⟨?_, rfl⟩
  simp only [EntryKernel.indexedFields, EntryKernel.putString, update_of_ne notTag.symm]

/-- The change that takes an entry out of the sibling order. -/
theorem unindexed_selfLoop : Unindexed fun entry =>
      (entry.putId .NEXT_ID entry.id).putId .PREV_ID entry.id := by
  intro entry
  refine ⟨?_, rfl⟩
  rw [indexedFields_putId (by simp) (by simp), indexedFields_putId (by simp) (by simp)]

theorem childIndexed_putParentId : ChildIndexed (·.putId .PARENT_ID value) := by
  intro entry
  refine ⟨?_, rfl, rfl, rfl⟩
  have ne : IdField.ID ≠ IdField.PARENT_ID := by simp
  exact update_of_ne ne value entry.id_fields

namespace Directory

variable {dir next : Directory}

theorem modify_id (dir : Directory) (handle : Handle) : dir.modify handle id = dir := by
  unfold modify
  rw [Option.map_id, id, update_eq_self]

/-- Marking an entry as dirty is an edit of its own. -/
theorem edit_markDirty (dir : Directory) (handle : Handle) : Edit dir (dir.markDirty handle) := by
  have edit : Edit dir (dir.write handle _) := Edit.write handle unindexed_id
  rwa [write, modify_id] at edit

theorem edits_putInt64 (put : dir.putInt64 handle field value = some next) : Edits dir next := by
  obtain ⟨entry, -, put⟩ := bind_eq_some_iff.mp put
  split at put
  · cases put
    exact .refl
  · split at put
    · obtain ⟨middle, reindexed, put⟩ := bind_eq_some_iff.mp put
      cases put
      refine (Edit.child ?_ reindexed).edits
      exact fun _ => ⟨rfl, rfl, rfl, rfl⟩
    next notPosition =>
      cases put
      exact (Edit.write handle (unindexed_putInt64 notPosition)).edits

theorem edits_putBaseVersion (put : dir.putBaseVersion handle value = some next) :
    Edits dir next := by
  obtain ⟨entry, -, put⟩ := bind_eq_some_iff.mp put
  split at put
  · cases put
    exact .refl
  · cases put
    refine (Edit.write handle ?_).edits
    exact fun _ => ⟨rfl, rfl⟩

theorem edits_putSpecifics (put : dir.putSpecifics handle field value = some next) :
    Edits dir next := by
  obtain ⟨entry, -, put⟩ := bind_eq_some_iff.mp put
  split at put
  · cases put
    exact .refl
  · cases put
    refine (Edit.write handle ?_).edits
    exact fun _ => ⟨rfl, rfl⟩

theorem edits_putBit (put : dir.putBit handle field value = some next) : Edits dir next := by
  obtain ⟨entry, -, put⟩ := bind_eq_some_iff.mp put
  split at put
  · cases put
    exact .refl
  · cases put
    refine (Edit.write handle ?_).edits
    exact fun _ => ⟨rfl, rfl⟩

theorem edits_putSyncing (put : dir.putSyncing handle value = some next) : Edits dir next := by
  obtain ⟨entry, -, put⟩ := bind_eq_some_iff.mp put
  cases put
  exact (Edit.syncing handle value).edits

theorem edits_putUniqueClientTag
    (put : dir.putUniqueClientTag handle new_tag = some (next, ok)) :
    Edits dir next := by
  obtain ⟨entry, -, put⟩ := bind_eq_some_iff.mp put
  split at put
  · cases put
    exact .refl
  · split at put
    · cases put
      exact .refl
    · obtain ⟨middle, reindexed, put⟩ := bind_eq_some_iff.mp put
      cases put
      exact (Edit.clientTag reindexed).edits

theorem edits_putString (put : dir.putString handle field value = some (next, ok)) :
    Edits dir next := by
  unfold putString at put
  split at put
  · exact edits_putUniqueClientTag put
  next notTag =>
    obtain ⟨entry, -, put⟩ := bind_eq_some_iff.mp put
    split at put
    · cases put
      exact .refl
    · cases put
      exact (Edit.write handle (unindexed_putString notTag)).edits

theorem edits_putLink (notId : field ≠ .ID) (notParent : field ≠ .PARENT_ID)
    (put : dir.putLink handle field value = some next) :
    Edits dir next := by
  obtain ⟨entry, -, put⟩ := bind_eq_some_iff.mp put
  split at put
  · cases put
    exact .refl
  · cases put
    exact (Edit.write handle (unindexed_putId notId notParent)).edits

theorem edits_putAt (notId : field ≠ .ID) (notParent : field ≠ .PARENT_ID)
    (put : dir.putAt other field value = some next) :
    Edits dir next := by
  unfold putAt at put
  split at put
  · cases put
    exact .refl
  · obtain ⟨handle, -, put⟩ := bind_eq_some_iff.mp put
    cases put
    exact (Edit.write handle (unindexed_putId notId notParent)).edits

theorem edits_unlinkEntryFromOrder (unlinked : dir.unlinkEntryFromOrder handle = some next) :
    Edits dir next := by
  obtain ⟨entry, -, unlinked⟩ := bind_eq_some_iff.mp unlinked
  have looped : Edits dir (dir.write handle _) := (Edit.write handle unindexed_selfLoop).edits
  dsimp only at unlinked
  split at unlinked
  · split at unlinked
    · cases unlinked
      exact looped
    · cases unlinked
  · obtain ⟨middle, putNext, putPrevious⟩ := bind_eq_some_iff.mp unlinked
    exact (looped.trans (edits_putAt (by simp) (by simp) putNext)).trans
      (edits_putAt (by simp) (by simp) putPrevious)

theorem edits_putBetween
    (put : dir.putBetween handle predecessor_id successor_id = some (next, ok)) :
    Edits dir next := by
  obtain ⟨entry, -, put⟩ := bind_eq_some_iff.mp put
  split at put
  · obtain ⟨before, putPrevious, put⟩ := bind_eq_some_iff.mp put
    obtain ⟨after, putNext, put⟩ := bind_eq_some_iff.mp put
    cases put
    exact (edits_putLink (by simp) (by simp) putPrevious).trans
      (edits_putLink (by simp) (by simp) putNext)
  · obtain ⟨successor, -, put⟩ := bind_eq_some_iff.mp put
    obtain ⟨successor_entry, -, put⟩ := bind_eq_some_iff.mp put
    split at put
    · cases put
      exact .refl
    · obtain ⟨middle, putSuccessor, put⟩ := bind_eq_some_iff.mp put
      obtain ⟨before, putPrevious, put⟩ := bind_eq_some_iff.mp put
      obtain ⟨after, putNext, put⟩ := bind_eq_some_iff.mp put
      cases put
      exact ((edits_putLink (by simp) (by simp) putSuccessor).trans
        (edits_putLink (by simp) (by simp) putPrevious)).trans
        (edits_putLink (by simp) (by simp) putNext)

theorem edits_putPredecessor
    (put : dir.putPredecessor handle predecessor_id = some (next, ok)) :
    Edits dir next := by
  obtain ⟨unlinked, isUnlinked, put⟩ := bind_eq_some_iff.mp put
  obtain ⟨entry, -, put⟩ := bind_eq_some_iff.mp put
  have edits := edits_unlinkEntryFromOrder isUnlinked
  split at put
  · cases put
    exact edits
  · split at put
    · obtain ⟨successor_id, -, put⟩ := bind_eq_some_iff.mp put
      exact edits.trans (edits_putBetween put)
    · obtain ⟨predecessor, -, put⟩ := bind_eq_some_iff.mp put
      obtain ⟨predecessor_entry, -, put⟩ := bind_eq_some_iff.mp put
      split at put
      · cases put
        exact edits
      · obtain ⟨middle, putPredecessor, put⟩ := bind_eq_some_iff.mp put
        exact (edits.trans (edits_putLink (by simp) (by simp) putPredecessor)).trans
          (edits_putBetween put)

theorem edits_putParentIdPropertyOnly
    (put : dir.putParentIdPropertyOnly handle parent_id = some next) :
    Edits dir next := by
  obtain ⟨middle, reindexed, put⟩ := bind_eq_some_iff.mp put
  cases put
  exact (Edit.child childIndexed_putParentId reindexed).edits

theorem edits_putId (put : dir.putId handle field value = some (next, ok)) :
    Edits dir next := by
  obtain ⟨entry, -, put⟩ := bind_eq_some_iff.mp put
  split at put
  · cases put
    exact .refl
  · cases field with
    | ID =>
      obtain ⟨reindexed, isReindexed, put⟩ := bind_eq_some_iff.mp put
      split at put
      next isAccepted =>
        cases put
        obtain ⟨middle, reindexes⟩ := reindexed
        cases isAccepted
        exact (Edit.id isReindexed).edits
      · cases put
        exact .refl
    | PARENT_ID =>
      obtain ⟨middle, putParent, put⟩ := bind_eq_some_iff.mp put
      obtain ⟨placed, isPlaced, put⟩ := bind_eq_some_iff.mp put
      cases put
      exact ((edits_putParentIdPropertyOnly putParent).trans
        (edits_putPredecessor isPlaced)).tail (edit_markDirty _ handle)
    | SERVER_PARENT_ID | PREV_ID | NEXT_ID =>
      cases put
      exact (Edit.write handle (unindexed_putId (by simp) (by simp))).edits

theorem edits_putIsDel (put : dir.putIsDel handle is_del = some next) : Edits dir next := by
  obtain ⟨entry, -, put⟩ := bind_eq_some_iff.mp put
  split at put
  · cases put
    exact .refl
  · split at put
    · obtain ⟨unlinked, isUnlinked, put⟩ := bind_eq_some_iff.mp put
      obtain ⟨middle, reindexed, put⟩ := bind_eq_some_iff.mp put
      cases put
      refine (edits_unlinkEntryFromOrder isUnlinked).tail (Edit.child ?_ reindexed)
      exact fun _ => ⟨rfl, rfl, rfl, rfl⟩
    · obtain ⟨middle, reindexed, put⟩ := bind_eq_some_iff.mp put
      obtain ⟨placed, isPlaced, put⟩ := bind_eq_some_iff.mp put
      cases put
      refine (Edit.child ?_ reindexed).edits.trans (edits_putPredecessor isPlaced)
      exact fun _ => ⟨rfl, rfl, rfl, rfl⟩

theorem edit_nextId : Edit dir dir.nextId.1 :=
  Edit.info (by
    show dir.persisted_info.next_id - 1 <= dir.persisted_info.next_id
    omega)

theorem edits_createNewUpdateItem
    (created : dir.createNewUpdateItem new_id = some (next, ok)) :
    Edits dir next := by
  unfold createNewUpdateItem at created
  split at created
  · cases created
    exact .refl
  · obtain ⟨middle, inserted, created⟩ := bind_eq_some_iff.mp created
    cases created
    exact (Edit.insert (.inl rfl) rfl inserted).edits

theorem edits_foldlM_putParentIdPropertyOnly {children : List Handle} (put : children.foldlM
      (fun dir child => dir.putParentIdPropertyOnly child new_id) dir = some next) :
    Edits dir next := by
  induction children generalizing dir with
  | nil =>
    cases put
    exact .refl
  | cons child children ih =>
    obtain ⟨middle, putChild, put⟩ := bind_eq_some_iff.mp put
    exact (edits_putParentIdPropertyOnly putChild).trans (ih put)

theorem edits_changeEntryIDAndUpdateChildren
    (changed : dir.changeEntryIDAndUpdateChildren handle new_id = some next) :
    Edits dir next := by
  obtain ⟨entry, -, changed⟩ := bind_eq_some_iff.mp changed
  obtain ⟨renamed, isRenamed, changed⟩ := bind_eq_some_iff.mp changed
  have edits := edits_putId isRenamed
  split at changed
  · cases changed
  · obtain ⟨updated, isUpdated, changed⟩ := bind_eq_some_iff.mp changed
    have children : Edits renamed.1 updated := by
      split at isUpdated
      · exact edits_foldlM_putParentIdPropertyOnly isUpdated
      · cases isUpdated
        exact .refl
    obtain ⟨cur, -, changed⟩ := bind_eq_some_iff.mp changed
    refine (edits.trans children).trans ?_
    split at changed
    · obtain ⟨middle, putNext, putPrevious⟩ := bind_eq_some_iff.mp changed
      exact (edits_putLink (by simp) (by simp) putNext).trans
        (edits_putLink (by simp) (by simp) putPrevious)
    · obtain ⟨placed, isPlaced, changed⟩ := bind_eq_some_iff.mp changed
      cases changed
      exact edits_putPredecessor isPlaced

theorem edits_copyServerFields (copied : dir.copyServerFields source handle = some next) :
    Edits dir next := by
  obtain ⟨named, isNamed, copied⟩ := bind_eq_some_iff.mp copied
  obtain ⟨parent, isParent, copied⟩ := bind_eq_some_iff.mp copied
  obtain ⟨mtime, isMtime, copied⟩ := bind_eq_some_iff.mp copied
  obtain ⟨ctime, isCtime, copied⟩ := bind_eq_some_iff.mp copied
  obtain ⟨version, isVersion, copied⟩ := bind_eq_some_iff.mp copied
  obtain ⟨folder, isFolder, copied⟩ := bind_eq_some_iff.mp copied
  obtain ⟨deleted, isDeleted, copied⟩ := bind_eq_some_iff.mp copied
  obtain ⟨unapplied, isUnapplied, copied⟩ := bind_eq_some_iff.mp copied
  obtain ⟨specifics, isSpecifics, isPosition⟩ := bind_eq_some_iff.mp copied
  calc
    Edits dir named.1 := edits_putString isNamed
    Edits _ parent := edits_putLink (by simp) (by simp) isParent
    Edits _ mtime := edits_putInt64 isMtime
    Edits _ ctime := edits_putInt64 isCtime
    Edits _ version := edits_putInt64 isVersion
    Edits _ folder := edits_putBit isFolder
    Edits _ deleted := edits_putBit isDeleted
    Edits _ unapplied := (Edit.indexedBit isUnapplied).edits
    Edits _ specifics := edits_putSpecifics isSpecifics
    Edits _ next := edits_putInt64 isPosition

theorem edits_splitServerInformationIntoNewEntry
    (divided : dir.splitServerInformationIntoNewEntry handle = some next) :
    Edits dir next := by
  obtain ⟨entry, -, divided⟩ := bind_eq_some_iff.mp divided
  obtain ⟨renamed, isRenamed, divided⟩ := bind_eq_some_iff.mp divided
  obtain ⟨based, isBased, divided⟩ := bind_eq_some_iff.mp divided
  obtain ⟨created, isCreated, divided⟩ := bind_eq_some_iff.mp divided
  split at divided
  · cases divided
  · obtain ⟨cur, -, divided⟩ := bind_eq_some_iff.mp divided
    obtain ⟨copied, isCopied, isCleared⟩ := bind_eq_some_iff.mp divided
    calc
      Edits dir dir.nextId.1 := edit_nextId.edits
      Edits _ renamed := edits_changeEntryIDAndUpdateChildren isRenamed
      Edits _ based := edits_putBaseVersion isBased
      Edits _ created.1 := edits_createNewUpdateItem isCreated
      Edits _ copied := edits_copyServerFields isCopied
      Edits _ next := edits_copyServerFields isCleared

end Directory

end Chromium.Syncable
