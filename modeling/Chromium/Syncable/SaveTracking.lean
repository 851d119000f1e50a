import Chromium.Library.Assoc
import Chromium.Syncable.IndexRuns

/-!
# What a save has to write

A clean entry is in the store, or will be with the snapshot that waits for it.
Writes, purges and the steps of a save keep this, as far as the kernel info
that a purge resets is marked as dirty.
-/

namespace Chromium.Syncable

open List Option Function
open Library
open Sync (Id ModelType)

/-- The tables have the info, as it was loaded or as a snapshot has it. -/
def InfoStored (stored info : PersistedKernelInfo) : Prop :=
  DirectoryBackingStore.saveInfo stored info = stored ∨
    DirectoryBackingStore.saveInfo stored (Directory.snapshotInfo info) = stored

/-- The row that the store has once a snapshot is in it. -/
def expected (store : DirectoryBackingStore)
    (pending : Option SaveChangesSnapshot) (handle : Handle) :
    Option EntryKernel :=
  match pending.bind fun snap => snap.dirty_metas.lookup handle with
  | some saved => some saved.persistent
  | none => store.metas handle

/-- The tables have the info once a snapshot is in them. -/
structure InfoExpected (store : DirectoryBackingStore)
    (pending : Option SaveChangesSnapshot) (info : PersistedKernelInfo) :
    Prop where
  inSnapshot : ∀ snap, pending = some snap -> snap.kernel_info_status = .DIRTY ->
    snap.kernel_info = Directory.snapshotInfo info
  inStore : (∀ snap, pending = some snap ->
    snap.kernel_info_status ≠ .DIRTY) -> InfoStored store.info info

/-- A metahandle whose entry was deleted, and that is not given out again. -/
def Gone (dir : Directory) (handle : Handle) : Prop :=
  dir.memory handle = none ∧ handle < dir.next_metahandle

/-- The metahandles that the directory or a snapshot has to purge. -/
def ToPurge (dir : Directory) (pending : Option SaveChangesSnapshot) (handle : Handle) : Prop :=
  handle ∈ dir.metahandles_to_purge ∨
    ∃ snap, pending = some snap ∧ handle ∈ snap.metahandles_to_purge

/-- Whatever differs from the store is dirty, or in a pending snapshot. -/
structure Tracked (dir : Directory) (store : DirectoryBackingStore)
    (pending : Option SaveChangesSnapshot) (purged : Handle -> Prop) : Prop where
  mirrored : Mirrored dir
  negative : dir.persisted_info.next_id < 0
  listed : ∀ handle entry, dir.memory handle = some entry ->
    entry.dirty_ = true -> handle ∈ dir.dirty_metahandles
  clean : ∀ handle entry, dir.memory handle = some entry ->
    entry.dirty_ = false -> expected store pending handle = some entry.persistent
  bounded : ∀ handle, (dir.memory handle).isSome = true -> handle < dir.next_metahandle
  gone : ∀ handle, ToPurge dir pending handle -> Gone dir handle
  purges : ∀ handle, purged handle -> Gone dir handle ∧
    (expected store pending handle ≠ none -> ToPurge dir pending handle)
  info : dir.info_status = .DIRTY ∨ InfoExpected store pending dir.persisted_info
  distinct : ∀ snap, pending = some snap -> Assoc.Distinct snap.dirty_metas

namespace Tracked

variable {dir next : Directory} {store : DirectoryBackingStore}

section

variable (tracked : Tracked dir store pending purged)
include tracked

theorem mono (fewer : ∀ handle, others handle -> purged handle) :
    Tracked dir store pending others :=
  { tracked with purges := fun handle isOther => tracked.purges handle (fewer handle isOther) }

/-- Whatever marks what it writes keeps track of it. -/
theorem touched (touched : Touched dir next) (mirrored : Mirrored next) :
    Tracked next store pending purged := by
  have stillGone : ∀ handle, Gone dir handle -> Gone next handle := by
    rintro handle ⟨isGone, below⟩
    refine ⟨?_, lt_of_lt_of_le below touched.counts⟩
    rw [← not_isSome_iff_eq_none]
    intro isPresent
    rcases touched.created handle isPresent with wasPresent | ⟨above, -⟩
    · rw [isGone] at wasPresent
      cases wasPresent
    · exact absurd below (not_lt.mpr above)
  have sameToPurge : ∀ handle, ToPurge next pending handle ↔ ToPurge dir pending handle := by
    intro handle
    unfold ToPurge
    rw [touched.pending]
  exact {
    mirrored := mirrored
    negative := lt_of_le_of_lt touched.ids tracked.negative
    listed := by
      intro handle entry isEntry isDirty
      rcases touched.entries handle entry isEntry with
        ⟨-, isListed | ⟨before, isBefore, wasDirty⟩⟩ | ⟨before, isBefore, -, sameFlag⟩
      · exact isListed
      · exact touched.listed (tracked.listed handle before isBefore wasDirty)
      · exact touched.listed (tracked.listed handle before isBefore (sameFlag.trans isDirty))
    clean := by
      intro handle entry isEntry isClean
      rcases touched.entries handle entry isEntry with
        ⟨isDirty, -⟩ | ⟨before, isBefore, samePersistent, sameFlag⟩
      · rw [isClean] at isDirty
        cases isDirty
      · rw [← samePersistent]
        exact tracked.clean handle before isBefore (sameFlag.trans isClean)
    bounded := by
      intro handle isPresent
      rcases touched.created handle isPresent with wasPresent | ⟨-, below⟩
      · exact lt_of_lt_of_le (tracked.bounded handle wasPresent) touched.counts
      · exact below
    gone := fun handle toPurge =>
      stillGone handle (tracked.gone handle ((sameToPurge handle).mp toPurge))
    purges := by
      intro handle isPurged
      obtain ⟨isGone, isPending⟩ := tracked.purges handle isPurged
      exact ⟨stillGone handle isGone,
        fun isExpected => (sameToPurge handle).mpr (isPending isExpected)⟩
    info := by
      rcases touched.info with isDirty | ⟨sameInfo, sameStatus⟩
      · exact .inl isDirty
      · rw [sameInfo, sameStatus]
        exact tracked.info
    distinct := tracked.distinct }

theorem edits (edits : Edits dir next) : Tracked next store pending purged :=
  tracked.touched (.edits edits) (tracked.mirrored.edits edits)

/-- An entry is dropped, and its metahandle may have to be purged. -/
theorem drop (isEntry : dir.memory handle = some entry) (more : MetahandleSet)
    (onlyIts : ∀ mem ∈ more, mem = handle) :
    Tracked { dir.drop handle with
        unsynced_metahandles := dir.unsynced_metahandles.erase handle
        unapplied_update_metahandles := dir.unapplied_update_metahandles.erase handle
        metahandles_to_purge := more ∪ dir.metahandles_to_purge }
      store pending
      (fun mem => purged mem ∨ mem ∈ more) := by
  have isPresent : (dir.memory handle).isSome = true := by
    rw [isEntry]
    rfl
  have remains : ∀ mem other, (update dir.memory handle none) mem = some other ->
      dir.memory mem = some other := by
    intro mem other isOther
    by_cases same : mem = handle
    · rw [same, update_self] at isOther
      cases isOther
    · rwa [update_of_ne same] at isOther
  have stillGone : ∀ mem, Gone dir mem ->
      (update dir.memory handle none) mem = none ∧ mem < dir.next_metahandle := by
    rintro mem ⟨isGone, below⟩
    refine ⟨?_, below⟩
    by_cases same : mem = handle
    · rw [same, update_self]
    · rwa [update_of_ne same]
  have nowGone : ∀ mem ∈ more, (update dir.memory handle none) mem = none ∧
        mem < dir.next_metahandle := by
    intro mem isMore
    rw [onlyIts mem isMore, update_self]
    exact ⟨rfl, tracked.bounded handle isPresent⟩
  have dropped := tracked.mirrored.drop isEntry
  exact {
    mirrored := ⟨dropped.metahandles, dropped.ids, dropped.children,
      dropped.client_tags, dropped.unsynced, dropped.unapplied⟩
    negative := tracked.negative
    listed := fun mem other isOther => tracked.listed mem other (remains mem other isOther)
    clean := fun mem other isOther => tracked.clean mem other (remains mem other isOther)
    bounded := by
      intro mem isMem
      obtain ⟨other, isOther⟩ := isSome_iff_exists.mp isMem
      apply tracked.bounded mem
      rw [remains mem other isOther]
      rfl
    gone := by
      rintro mem (inSet | inSnapshot)
      · rcases Finset.mem_union.mp inSet with isMore | wasInSet
        · exact nowGone mem isMore
        · exact stillGone mem (tracked.gone mem (.inl wasInSet))
      · exact stillGone mem (tracked.gone mem (.inr inSnapshot))
    purges := by
      rintro mem (isPurged | isMore)
      · obtain ⟨isGone, isPending⟩ := tracked.purges mem isPurged
        refine ⟨stillGone mem isGone, fun isExpected => ?_⟩
        exact (isPending isExpected).imp_left fun inSet => Finset.mem_union.mpr (.inr inSet)
      · exact ⟨nowGone mem isMore, fun _ => .inl (Finset.mem_union.mpr (.inl isMore))⟩
    info := tracked.info
    distinct := tracked.distinct }

/-- The metahandles purged since a directory are those that it had. -/
theorem purgeEntry (isPurged : Directory.purgeEntry types dir handle = some next) :
    Tracked next store pending fun mem =>
      purged mem ∨ (dir.memory mem).isSome = true ∧ next.memory mem = none := by
  obtain ⟨entry, isEntry, isPurged⟩ := bind_eq_some_iff.mp isPurged
  split at isPurged
  · obtain ⟨unlinked, isUnlinked, isPurged⟩ := bind_eq_some_iff.mp isPurged
    cases isPurged
    have unlinks := Directory.edits_unlinkEntryFromOrder isUnlinked
    have isPresent := (Touched.edits unlinks).present
    obtain ⟨cur, isCurrent⟩ := isSome_iff_exists.mp (isPresent handle (by rw [isEntry]; rfl))
    refine mono ((tracked.edits unlinks).drop isCurrent {handle}
      fun mem => Finset.mem_singleton.mp) ?_
    rintro mem (wasPurged | ⟨wasPresent, isGone⟩)
    · exact .inl wasPurged
    · right
      rw [Finset.mem_singleton]
      by_contra differs
      have same : (update unlinked.memory handle none) mem =
          unlinked.memory mem := update_of_ne differs _ _
      have stillPresent := isPresent mem wasPresent
      rw [← same] at stillPresent
      have isNone : (update unlinked.memory handle none) mem = none := isGone
      rw [isNone] at stillPresent
      cases stillPresent
  · cases isPurged
    refine tracked.mono ?_
    rintro mem (wasPurged | ⟨isPresent, isGone⟩)
    · exact wasPurged
    · rw [isGone] at isPresent
      cases isPresent

theorem purgeEntries {handles : List Handle}
    (arePurged : handles.foldlM (Directory.purgeEntry types) dir = some next) :
    Tracked next store pending fun mem =>
      purged mem ∨ (dir.memory mem).isSome = true ∧ next.memory mem = none := by
  let kept (reached : Directory) : Prop :=
    Tracked reached store pending fun mem =>
      purged mem ∨ (dir.memory mem).isSome = true ∧ reached.memory mem = none
  have preserved : ∀ {reached handle after}, kept reached ->
      Directory.purgeEntry types reached handle = some after -> kept after := by
    intro reached handle after trackedReached isPurged
    refine (trackedReached.purgeEntry isPurged).mono ?_
    rintro mem (wasPurged | ⟨wasPresent, isGone⟩)
    · exact .inl (.inl wasPurged)
    · cases isReached : reached.memory mem with
      | none => exact .inl (.inr ⟨wasPresent, rfl⟩)
      | some entry => exact .inr ⟨rfl, isGone⟩
  have start : kept dir := by
    refine tracked.mono ?_
    rintro mem (wasPurged | ⟨isPresent, isGone⟩)
    · exact wasPurged
    · rw [isGone] at isPresent
      cases isPresent
  have last : kept next := property_of_foldlM preserved arePurged start
  exact last

/-- Nothing but the kernel info is changed, and it is marked as dirty if it is
not what it was. -/
theorem withInfo (persisted_info : PersistedKernelInfo) (info_status : KernelShareInfoStatus)
    (negative : persisted_info.next_id < 0) (marked : info_status = .DIRTY ∨
      persisted_info = dir.persisted_info ∧ info_status = dir.info_status) :
    Tracked { dir with persisted_info, info_status } store pending purged where
  mirrored := ⟨tracked.mirrored.metahandles, tracked.mirrored.ids,
    tracked.mirrored.children, tracked.mirrored.client_tags,
    tracked.mirrored.unsynced, tracked.mirrored.unapplied⟩
  negative := negative
  listed := tracked.listed
  clean := tracked.clean
  bounded := tracked.bounded
  gone := tracked.gone
  purges := tracked.purges
  info := by
    rcases marked with isDirty | ⟨rfl, rfl⟩
    · exact .inl isDirty
    · exact tracked.info
  distinct := tracked.distinct

end

end Tracked

namespace Directory

/-- The progress of a type is that of a first sync already. -/
def IsReset (info : PersistedKernelInfo) (type : ModelType) : Prop :=
  (info.download_progress type).data_type_id = getExtensionFieldNumberFromModelType type ∧
    (info.download_progress type).token = ""

instance (info : PersistedKernelInfo) (type : ModelType) : Decidable (IsReset info type) :=
  inferInstanceAs (Decidable (_ ∧ _))

/-- The info is marked as dirty by the resets, or none changes it. -/
def ResetsMarked (dir : Directory) (types : List ModelType) : Prop :=
  dir.info_status = .DIRTY ∨ (∃ type ∈ types, dir.persisted_info.initial_sync_ended type = true) ∨
    ∀ type ∈ types, IsReset dir.persisted_info type

instance (dir : Directory) (types : List ModelType) : Decidable (dir.ResetsMarked types) :=
  inferInstanceAs (Decidable (_ ∨ _ ∨ _))

theorem resetDownloadProgress_of_isReset (isReset : IsReset info type) :
    info.resetDownloadProgress type = info := by
  unfold PersistedKernelInfo.resetDownloadProgress
  rw [← isReset.1, ← isReset.2, update_eq_self]

variable {dir : Directory}

/-- A reset of a type whose initial sync has ended marks the info. -/
theorem resetType_of_ended (ended : dir.persisted_info.initial_sync_ended type = true) :
    (dir.resetType type).info_status = .DIRTY := by
  unfold resetType setInitialSyncEndedForType
  rw [if_neg (by rw [ended]; simp)]

/-- A reset that is done already, and of a type whose initial sync has not
ended, changes nothing. -/
theorem resetType_of_isReset (notEnded : dir.persisted_info.initial_sync_ended type = false)
    (isReset : IsReset dir.persisted_info type) :
    dir.resetType type = dir := by
  unfold resetType setInitialSyncEndedForType
  rw [if_pos notEnded]
  dsimp only
  rw [resetDownloadProgress_of_isReset isReset]

theorem resetType_of_not_ended (notEnded : dir.persisted_info.initial_sync_ended type = false) :
    (dir.resetType type).info_status = dir.info_status ∧
      (dir.resetType type).persisted_info.initial_sync_ended =
        dir.persisted_info.initial_sync_ended := by
  unfold resetType setInitialSyncEndedForType
  rw [if_pos notEnded]
  exact ⟨rfl, rfl⟩

variable {types : List ModelType}

theorem isDirty_resetTypes (isDirty : dir.info_status = .DIRTY) :
    (types.foldl resetType dir).info_status = .DIRTY := by
  induction types generalizing dir with
  | nil => exact isDirty
  | cons type types ih =>
    refine ih ?_
    unfold resetType setInitialSyncEndedForType
    split
    · exact isDirty
    · rfl

theorem isDirty_resetTypes_of_ended
    (ended : ∃ type ∈ types, dir.persisted_info.initial_sync_ended type = true) :
    (types.foldl resetType dir).info_status = .DIRTY := by
  induction types generalizing dir with
  | nil =>
    obtain ⟨type, isMem, -⟩ := ended
    cases isMem
  | cons type types ih =>
    by_cases isEnded : dir.persisted_info.initial_sync_ended type = true
    · rw [foldl_cons]
      exact isDirty_resetTypes (resetType_of_ended isEnded)
    · rw [Bool.not_eq_true] at isEnded
      obtain ⟨-, sameEnded⟩ := resetType_of_not_ended isEnded
      obtain ⟨other, isMem, otherEnded⟩ := ended
      rcases mem_cons.mp isMem with rfl | isMem
      · rw [isEnded] at otherEnded
        cases otherEnded
      · exact ih ⟨other, isMem, sameEnded ▸ otherEnded⟩

theorem resetTypes_of_isReset
    (notEnded : ∀ type ∈ types, dir.persisted_info.initial_sync_ended type = false)
    (areReset : ∀ type ∈ types, IsReset dir.persisted_info type) :
    types.foldl resetType dir = dir := by
  induction types with
  | nil => rfl
  | cons type types ih =>
    rw [forall_mem_cons] at notEnded areReset
    rw [foldl_cons, resetType_of_isReset notEnded.1 areReset.1]
    exact ih notEnded.2 areReset.2

theorem isDirty_or_same_resetTypes (marked : dir.ResetsMarked types) :
    (types.foldl resetType dir).info_status = .DIRTY ∨
      (types.foldl resetType dir).persisted_info = dir.persisted_info ∧
        (types.foldl resetType dir).info_status = dir.info_status := by
  by_cases ended : ∃ type ∈ types, dir.persisted_info.initial_sync_ended type = true
  · exact .inl (isDirty_resetTypes_of_ended ended)
  · rcases marked with isDirty | isEnded | areReset
    · exact .inl (isDirty_resetTypes isDirty)
    · exact absurd isEnded ended
    · right
      rw [resetTypes_of_isReset ?_ areReset]
      · exact ⟨rfl, rfl⟩
      · intro type isMem
        rw [← Bool.not_eq_true]
        exact fun isEnded => ended ⟨type, isMem, isEnded⟩

/-- The resets change nothing but the kernel info. -/
theorem resetTypes_eq (types : List ModelType) : types.foldl resetType dir =
      { dir with
        persisted_info := (types.foldl resetType dir).persisted_info
        info_status := (types.foldl resetType dir).info_status } := by
  induction types generalizing dir with
  | nil => rfl
  | cons type types ih =>
    rw [foldl_cons, ih]
    unfold resetType setInitialSyncEndedForType
    split <;> rfl

theorem resetsMarked_of_edits {next : Directory}
    (info : next.info_status = .DIRTY ∨ next.persisted_info = dir.persisted_info ∧
        next.info_status = dir.info_status) (marked : dir.ResetsMarked types) :
    next.ResetsMarked types := by
  rcases info with isDirty | ⟨sameInfo, sameStatus⟩
  · exact .inl isDirty
  · unfold ResetsMarked
    rw [sameInfo, sameStatus]
    exact marked

theorem info_purgeEntries {next : Directory} {handles : List Handle}
    (arePurged : handles.foldlM (purgeEntry types) dir = some next) :
    next.info_status = .DIRTY ∨ next.persisted_info = dir.persisted_info ∧
        next.info_status = dir.info_status := by
  let kept (reached : Directory) : Prop :=
    reached.info_status = .DIRTY ∨ reached.persisted_info = dir.persisted_info ∧
        reached.info_status = dir.info_status
  suffices preserved : ∀ {reached handle after}, kept reached ->
      purgeEntry types reached handle = some after -> kept after from
    (property_of_foldlM preserved arePurged (.inr ⟨rfl, rfl⟩) : kept next)
  intro reached handle after infoReached isPurged
  obtain ⟨entry, -, isPurged⟩ := bind_eq_some_iff.mp isPurged
  split at isPurged
  · obtain ⟨unlinked, isUnlinked, isPurged⟩ := bind_eq_some_iff.mp isPurged
    cases isPurged
    rcases (Touched.edits (edits_unlinkEntryFromOrder isUnlinked)).info with
      isDirty | ⟨sameInfo, sameStatus⟩
    · exact .inl isDirty
    · show unlinked.info_status = .DIRTY ∨ unlinked.persisted_info = dir.persisted_info ∧
          unlinked.info_status = dir.info_status
      rw [sameInfo, sameStatus]
      exact infoReached
  · cases isPurged
    exact infoReached

end Directory

namespace Tracked

variable {dir next : Directory} {store : DirectoryBackingStore}

/-- The types that a purge refuses, or resets with a mark. -/
def PurgeMarked (dir : Directory) (types : List ModelType) : Prop :=
  .unspecified ∈ types ∨ .topLevelFolder ∈ types ∨ dir.ResetsMarked types

instance (dir : Directory) (types : List ModelType) : Decidable (PurgeMarked dir types) :=
  inferInstanceAs (Decidable (_ ∨ _ ∨ _))

theorem purgeEntriesWithTypeIn (tracked : Tracked dir store pending purged)
    (marked : PurgeMarked dir types) (isPurged : dir.purgeEntriesWithTypeIn types = some next) :
    Tracked next store pending fun mem =>
      purged mem ∨ (dir.memory mem).isSome = true ∧ next.memory mem = none := by
  unfold Directory.purgeEntriesWithTypeIn at isPurged
  split at isPurged
  · cases isPurged
    refine tracked.mono ?_
    rintro mem (wasPurged | ⟨isPresent, isGone⟩)
    · exact wasPurged
    · rw [isGone] at isPresent
      cases isPresent
  next accepted =>
    rw [not_or, not_or] at accepted
    obtain ⟨dropped, areDropped, isPurged⟩ := bind_eq_some_iff.mp isPurged
    cases isPurged
    have trackedDropped := tracked.purgeEntries areDropped
    have resetsMarked : dir.ResetsMarked types :=
      (marked.resolve_left accepted.1).resolve_left accepted.2.1
    have markedDropped := Directory.resetsMarked_of_edits
      (Directory.info_purgeEntries areDropped) resetsMarked
    have withInfo := trackedDropped.withInfo
      (types.foldl Directory.resetType dropped).persisted_info _
      (by rw [Directory.next_id_resetTypes]; exact trackedDropped.negative)
      (Directory.isDirty_or_same_resetTypes markedDropped)
    rw [← Directory.resetTypes_eq] at withInfo
    refine withInfo.mono ?_
    intro mem
    rw [Directory.resetTypes_eq]
    exact id

end Tracked

end Chromium.Syncable
