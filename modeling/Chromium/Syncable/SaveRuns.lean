import Chromium.Syncable.SaveTracking

/-!
# The steps of a save

A snapshot takes what is dirty, the store takes what a snapshot has, and the
directory drops or restores entries so that nothing is lost track of.
-/

namespace Chromium.Syncable

open List Option

section

open Library
open Sync (Id ModelType)

section Snapshots

theorem mem_dirtyMetas_iff (mirrored : Mirrored dir) :
    (handle, saved) ∈ dir.dirtyMetas ↔ dir.memory handle = some saved ∧ saved.dirty_ = true ∧
        handle ∈ dir.dirty_metahandles := by
  unfold Directory.dirtyMetas
  rw [mem_filterMap]
  constructor
  · rintro ⟨other, -, isSaved⟩
    split at isSaved
    next isListed =>
      split at isSaved
      next entry isEntry =>
        split at isSaved
        next isDirty =>
          cases isSaved
          exact ⟨isEntry, isDirty, isListed⟩
        · cases isSaved
      · cases isSaved
    · cases isSaved
  · rintro ⟨isEntry, isDirty, isListed⟩
    refine ⟨handle, (mirrored.metahandles.mem_iff handle).mpr ?_, ?_⟩
    · rw [isEntry]
      rfl
    · rw [if_pos isListed, isEntry]
      simp [isDirty]

theorem distinct_dirtyMetas (mirrored : Mirrored dir) : Assoc.Distinct dir.dirtyMetas := by
  have nodup : dir.metahandles_index.Nodup :=
    mirrored.metahandles.ordered.imp fun before => ne_of_lt before
  unfold Assoc.Distinct Directory.dirtyMetas
  rw [map_filterMap]
  refine nodup.filterMap ?_
  intro first second handle isFirst isSecond
  obtain ⟨pair, isPair, rfl⟩ := map_eq_some_iff.mp isFirst
  obtain ⟨other, isOther, same⟩ := map_eq_some_iff.mp isSecond
  have isHandle : pair.1 = first := by
    split at isPair
    · split at isPair
      · split at isPair
        · cases isPair
          rfl
        · cases isPair
      · cases isPair
    · cases isPair
  have isOtherHandle : other.1 = second := by
    split at isOther
    · split at isOther
      · split at isOther
        · cases isOther
          rfl
        · cases isOther
      · cases isOther
    · cases isOther
  exact isHandle.symm.trans (same.symm.trans isOtherHandle)

theorem expected_of_mem {store : DirectoryBackingStore} (nodup : Assoc.Distinct snap.dirty_metas)
    (isMem : (handle, saved) ∈ snap.dirty_metas) :
    expected store (some snap) handle = some saved.persistent := by
  unfold expected
  rw [bind_some, nodup.lookup_of_mem isMem]

theorem expected_of_absent {store : DirectoryBackingStore}
    (absent : ∀ saved, (handle, saved) ∉ snap.dirty_metas) :
    expected store (some snap) handle = store.metas handle := by
  have isNone : snap.dirty_metas.lookup handle = none := by
    rw [lookup_eq_none_iff]
    intro pair isMem
    rw [bne_iff_ne]
    rintro rfl
    exact absent pair.2 isMem
  unfold expected
  rw [bind_some, isNone]

/-- The rows that a store has after those of a snapshot were saved. -/
theorem foldl_saveEntryToDB (nodup : Assoc.Distinct saves)
    (metas : Handle → Option EntryKernel) :
    saves.foldl DirectoryBackingStore.saveEntryToDB metas handle = match saves.lookup handle with
      | some saved => some saved.persistent
      | none => metas handle := by
  induction saves generalizing metas with
  | nil => rfl
  | cons save saves ih =>
    rw [Assoc.Distinct, map_cons, nodup_cons] at nodup
    rw [foldl_cons, ih nodup.2]
    unfold DirectoryBackingStore.saveEntryToDB
    by_cases same : handle = save.1
    · have isNone : saves.lookup handle = none := by
        rw [lookup_eq_none_iff]
        intro pair isMem
        rw [bne_iff_ne, same]
        intro sameKey
        exact nodup.1 (List.mem_map.mpr ⟨pair, isMem, sameKey.symm⟩)
      rw [isNone, lookup_cons, same, Function.update_self]
      simp
    · have ne : (handle == save.1) = false := beq_eq_false_iff_ne.mpr same
      rw [lookup_cons, ne, Function.update_of_ne same]

end Snapshots

namespace Tracked

variable {dir next : Directory} {store : DirectoryBackingStore}

theorem isSome_takeSnapshot {dir : Directory} :
    (dir.takeSnapshotForSaveChanges.1.memory handle).isSome = (dir.memory handle).isSome := by
  unfold Directory.takeSnapshotForSaveChanges
  dsimp only
  split
  · exact isSome_map
  · rfl

/-- A snapshot takes all that is dirty. -/
theorem takeSnapshot (tracked : Tracked dir store none purged) :
    Tracked dir.takeSnapshotForSaveChanges.1 store
      (some dir.takeSnapshotForSaveChanges.2) purged := by
  have mem_iff : ∀ {handle saved}, (handle, saved) ∈ dir.dirtyMetas ↔ _ :=
    mem_dirtyMetas_iff tracked.mirrored
  have distinct := distinct_dirtyMetas tracked.mirrored
  have stillGone : ∀ handle, Gone dir handle -> Gone dir.takeSnapshotForSaveChanges.1 handle := by
    rintro handle ⟨isGone, below⟩
    refine ⟨?_, below⟩
    rw [← not_isSome_iff_eq_none, isSome_takeSnapshot, isGone]
    simp
  exact {
    mirrored := tracked.mirrored.takeSnapshotForSaveChanges
    negative := tracked.negative
    listed := by
      intro handle entry isEntry isDirty
      unfold Directory.takeSnapshotForSaveChanges at isEntry
      dsimp only at isEntry
      split at isEntry
      · obtain ⟨before, -, rfl⟩ := map_eq_some_iff.mp isEntry
        cases isDirty
      next notListed => exact absurd (tracked.listed handle entry isEntry isDirty) notListed
    clean := by
      intro handle entry isEntry isClean
      unfold Directory.takeSnapshotForSaveChanges at isEntry
      dsimp only at isEntry
      have wasClean : ∀ before, dir.memory handle = some before ->
          before.dirty_ = false ->
          expected store (some dir.takeSnapshotForSaveChanges.2) handle =
            some before.persistent := by
        intro before isBefore wasClean
        rw [expected_of_absent]
        · exact tracked.clean handle before isBefore wasClean
        · intro saved isMem
          obtain ⟨isSaved, isDirty, -⟩ := mem_iff.mp isMem
          rw [isBefore] at isSaved
          cases isSaved
          rw [wasClean] at isDirty
          cases isDirty
      split at isEntry
      next isListed =>
        obtain ⟨before, isBefore, rfl⟩ := map_eq_some_iff.mp isEntry
        by_cases isDirty : before.dirty_ = true
        · have isExpected : expected store
              (some dir.takeSnapshotForSaveChanges.2) handle = some before.persistent :=
            expected_of_mem distinct (mem_iff.mpr ⟨isBefore, isDirty, isListed⟩)
          exact isExpected
        · rw [Bool.not_eq_true] at isDirty
          exact wasClean before isBefore isDirty
      · exact wasClean entry isEntry isClean
    bounded := by
      intro handle isPresent
      rw [isSome_takeSnapshot] at isPresent
      exact tracked.bounded handle isPresent
    gone := by
      rintro handle (inSet | ⟨snap, isSnapshot, inSnapshot⟩)
      · cases inSet
      · cases isSnapshot
        exact stillGone handle (tracked.gone handle (.inl inSnapshot))
    purges := by
      intro handle isPurged
      obtain ⟨isGone, isPending⟩ := tracked.purges handle isPurged
      refine ⟨stillGone handle isGone, fun isExpected => ?_⟩
      rw [expected_of_absent] at isExpected
      · rcases isPending isExpected with inSet | ⟨snap, isSnapshot, -⟩
        · exact .inr ⟨_, rfl, inSet⟩
        · cases isSnapshot
      · intro saved isMem
        have isEntry := (mem_iff.mp isMem).1
        rw [isGone.1] at isEntry
        cases isEntry
    info := by
      right
      constructor
      · intro snap isSnapshot _
        cases isSnapshot
        rfl
      · intro notDirty
        rcases tracked.info with isDirty | info
        · exact absurd isDirty (notDirty _ rfl)
        · exact info.inStore fun snap impossible => by cases impossible
    distinct := by
      intro snap isSnapshot
      cases isSnapshot
      exact distinct }

/-- The row that the store has, unless the snapshot has one. -/
theorem expected_of_row (isRow : store.metas handle ≠ none) :
    expected store pending handle ≠ none := by
  unfold expected
  split
  · simp
  · exact isRow

theorem saveInfo_saveInfo (info : PersistedKernelInfo) :
    DirectoryBackingStore.saveInfo (DirectoryBackingStore.saveInfo stored info) info =
      DirectoryBackingStore.saveInfo stored info := by
  unfold DirectoryBackingStore.saveInfo
  dsimp only
  congr 1
  · funext type
    split <;> rfl
  · funext type
    split <;> rfl

/-- A store that accepts a snapshot has what it takes, unless it has nothing to
do and purges are lost. -/
theorem accept (tracked : Tracked dir store (some snap) purged)
    (saves : snap.dirty_metas ≠ [] ∨ snap.kernel_info_status = .DIRTY ∨
      ∀ handle ∈ snap.metahandles_to_purge, store.metas handle = none) :
    Tracked dir (store.saveChanges snap) none purged := by
  have distinct := tracked.distinct snap rfl
  by_cases nothing : snap.dirty_metas = [] ∧ snap.kernel_info_status ≠ .DIRTY
  · -- The store returns at once.
    have same : store.saveChanges snap = store := if_pos nothing
    have lost := (saves.resolve_left (not_not.mpr nothing.1)).resolve_left nothing.2
    have sameRow : ∀ handle, expected store (some snap) handle = store.metas handle := by
      intro handle
      apply expected_of_absent
      rw [nothing.1]
      simp
    rw [same]
    exact {
      tracked with
      clean := by
        intro handle entry isEntry isClean
        rw [← tracked.clean handle entry isEntry isClean, sameRow]
        rfl
      gone := by
        rintro handle (inSet | ⟨other, impossible, -⟩)
        · exact tracked.gone handle (.inl inSet)
        · cases impossible
      purges := by
        intro handle isPurged
        obtain ⟨isGone, isPending⟩ := tracked.purges handle isPurged
        refine ⟨isGone, fun isRow => .inl ?_⟩
        rcases isPending (expected_of_row isRow) with
          inSet | ⟨other, isOther, inSnapshot⟩
        · exact inSet
        · cases isOther
          exact absurd (lost handle inSnapshot) isRow
      info := by
        refine tracked.info.imp_right fun info => ⟨?_, fun _ => ?_⟩
        · intro other impossible
          cases impossible
        · apply info.inStore
          intro other isOther
          cases isOther
          exact nothing.2
      distinct := by
        intro other impossible
        cases impossible }
  · have isSaved : store.saveChanges snap =
        { metas := fun handle =>
            if handle ∈ snap.metahandles_to_purge then none
            else expected store (some snap) handle
          info :=
            if snap.kernel_info_status = .DIRTY then
              DirectoryBackingStore.saveInfo store.info snap.kernel_info
            else store.info } := by
      unfold DirectoryBackingStore.saveChanges
      rw [if_neg nothing]
      dsimp only
      congr 1
      funext handle
      rw [foldl_saveEntryToDB distinct]
      rfl
    rw [isSaved]
    exact {
      tracked with
      clean := by
        intro handle entry isEntry isClean
        have notPurged : handle ∉ snap.metahandles_to_purge := by
          intro inSnapshot
          have isGone := tracked.gone handle (.inr ⟨snap, rfl, inSnapshot⟩)
          rw [isGone.1] at isEntry
          cases isEntry
        refine Eq.trans ?_ (tracked.clean handle entry isEntry isClean)
        exact if_neg notPurged
      gone := by
        rintro handle (inSet | ⟨other, impossible, -⟩)
        · exact tracked.gone handle (.inl inSet)
        · cases impossible
      purges := by
        intro handle isPurged
        obtain ⟨isGone, isPending⟩ := tracked.purges handle isPurged
        refine ⟨isGone, fun isRow => .inl ?_⟩
        by_cases inSnapshot : handle ∈ snap.metahandles_to_purge
        · exact absurd (if_pos inSnapshot) isRow
        · have isExpected : expected store (some snap) handle ≠ none := by
            intro isNone
            exact isRow ((if_neg inSnapshot).trans isNone)
          rcases isPending isExpected with inSet | ⟨other, isOther, inOther⟩
          · exact inSet
          · cases isOther
            exact absurd inOther inSnapshot
      info := by
        refine tracked.info.imp_right fun info => ⟨?_, fun _ => ?_⟩
        · intro other impossible
          cases impossible
        · dsimp only
          split
          next isDirty =>
            right
            rw [← info.inSnapshot snap rfl isDirty]
            exact saveInfo_saveInfo _
          next notDirty =>
            apply info.inStore
            intro other isOther
            cases isOther
            exact notDirty
      distinct := by
        intro other impossible
        cases impossible }

section

variable (tracked : Tracked dir store pending purged)
include tracked

/-- An entry that is dropped after a save was saved, and is synced. -/
theorem vacuum (vacuumed : dir.vacuum handle = some next) :
    Tracked next store pending purged ∧ ∀ mem, next.memory mem = dir.memory mem ∨
        next.memory mem = none ∧ ∃ entry, dir.memory mem = some entry ∧
          Directory.safeToPurgeFromMemory entry = true := by
  unfold Directory.vacuum at vacuumed
  split at vacuumed
  · cases vacuumed
    exact ⟨tracked, fun _ => .inl rfl⟩
  next entry isEntry =>
    split at vacuumed
    next isSafe =>
      split at vacuumed
      · cases vacuumed
      next unused =>
        cases vacuumed
        rw [not_or, not_or, not_or] at unused
        have dropped := tracked.drop isEntry ∅ (by simp)
        rw [Finset.erase_eq_of_notMem unused.2.1, Finset.erase_eq_of_notMem unused.2.2.1,
          Finset.empty_union] at dropped
        refine ⟨dropped.mono fun _ => .inl, ?_⟩
        intro mem
        by_cases same : mem = handle
        · subst same
          exact .inr ⟨Function.update_self _ _ _, entry, isEntry, isSafe⟩
        · exact .inl (Function.update_of_ne same _ _)
    · cases vacuumed
      exact ⟨tracked, fun _ => .inl rfl⟩

theorem vacuumAfterSaveChanges (vacuumed : dir.vacuumAfterSaveChanges snap = some next) :
    Tracked next store pending purged ∧ ∀ mem, next.memory mem = dir.memory mem ∨
        next.memory mem = none ∧ ∃ entry, dir.memory mem = some entry ∧
          Directory.safeToPurgeFromMemory entry = true := by
  let kept (reached : Directory) : Prop := Tracked reached store pending purged ∧
    ∀ mem, reached.memory mem = dir.memory mem ∨
      reached.memory mem = none ∧ ∃ entry, dir.memory mem = some entry ∧
        Directory.safeToPurgeFromMemory entry = true
  suffices preserved : ∀ {reached handle after}, kept reached ->
      Directory.vacuum reached handle = some after -> kept after from
    (property_of_foldlM preserved vacuumed ⟨tracked, fun _ => .inl rfl⟩ : kept next)
  rintro reached handle after ⟨trackedReached, kept⟩ vacuums
  obtain ⟨trackedAfter, keeps⟩ := trackedReached.vacuum vacuums
  refine ⟨trackedAfter, fun mem => ?_⟩
  rcases keeps mem with same | ⟨isGone, entry, isEntry, isSafe⟩
  · rw [same]
    exact kept mem
  · rcases kept mem with same | ⟨wasGone, -⟩
    · exact .inr ⟨isGone, entry, same ▸ isEntry, isSafe⟩
    · rw [wasGone] at isEntry
      cases isEntry

/-- Entries that were marked are dirty. -/
theorem markAll {handles : List Handle} :
    Tracked (handles.foldl Directory.markDirty dir) store pending purged ∧
      Touched dir (handles.foldl Directory.markDirty dir) ∧ ∀ handle ∈ handles, ∀ entry,
        (handles.foldl Directory.markDirty dir).memory handle = some entry ->
        entry.dirty_ = true := by
  induction handles generalizing dir with
  | nil => exact ⟨tracked, .refl dir, by simp⟩
  | cons first handles ih =>
    have edit := Directory.edit_markDirty dir first
    obtain ⟨trackedLast, touchedLast, areDirty⟩ := ih (tracked.edits edit.edits)
    refine ⟨trackedLast, (Touched.edit edit).trans touchedLast, ?_⟩
    intro handle isMem entry isEntry
    rcases mem_cons.mp isMem with rfl | isMem
    · rcases touchedLast.entries handle entry isEntry with
        ⟨isDirty, -⟩ | ⟨before, isBefore, -, sameFlag⟩
      · exact isDirty
      · -- It was marked at first, and nothing clears a mark.
        rw [← sameFlag]
        unfold Directory.markDirty at isBefore
        split at isBefore
        next isNone =>
          rw [isNone] at isBefore
          cases isBefore
        · dsimp only at isBefore
          rw [Function.update_self] at isBefore
          cases isBefore
          rfl
    · exact areDirty handle isMem entry isEntry

end

/-- A directory whose snapshot was rejected has to write it once more. -/
theorem handleSaveChangesFailure (tracked : Tracked dir store (some snap) purged) :
    Tracked (dir.handleSaveChangesFailure snap) store none purged := by
  have mirrored := tracked.mirrored.handleSaveChangesFailure snap
  obtain ⟨marked, touched, areDirty⟩ := markAll
    (tracked.withInfo dir.persisted_info .DIRTY tracked.negative (.inl rfl))
  exact {
    mirrored := mirrored
    negative := marked.negative
    listed := marked.listed
    clean := by
      intro handle entry isEntry isClean
      rw [← marked.clean handle entry isEntry isClean, expected_of_absent]
      · rfl
      · intro saved isMem
        have isDirty := areDirty handle (List.mem_map.mpr ⟨_, isMem, rfl⟩) entry isEntry
        rw [isClean] at isDirty
        cases isDirty
    bounded := marked.bounded
    gone := by
      rintro handle (inSet | ⟨other, impossible, -⟩)
      · refine marked.gone handle ?_
        rcases Finset.mem_union.mp inSet with wasInSet | inSnapshot
        · exact .inl wasInSet
        · exact .inr ⟨snap, rfl, inSnapshot⟩
      · cases impossible
    purges := by
      intro handle isPurged
      obtain ⟨isGone, isPending⟩ := marked.purges handle isPurged
      refine ⟨isGone, fun isRow => .inl (Finset.mem_union.mpr ?_)⟩
      rcases isPending (expected_of_row isRow) with
        inSet | ⟨other, isOther, inOther⟩
      · exact .inl inSet
      · cases isOther
        exact .inr inOther
    info := by
      left
      rcases touched.info with isDirty | ⟨-, sameStatus⟩
      · exact isDirty
      · exact sameStatus
    distinct := by
      intro other impossible
      cases impossible }

end Tracked

end

/-!
## No change is lost by saving

In every run whose purges mark the kernel info that they reset, and whose
accepted saves do not leave out purged metahandles, whatever differs from the
backing store is dirty or in the snapshot of the save in flight.
-/

section

open Library
open Sync (Id ModelType)

namespace Saving

/-- The snapshot of a save that is not finished. -/
def inFlight : Saving -> Option SaveChangesSnapshot
  | .idle => none
  | .taken snap => some snap
  | .answered snap _ => some snap

/-- A snapshot that the store has not accepted. -/
def pending : Saving -> Option SaveChangesSnapshot
  | .taken snap => some snap
  | .answered snap false => some snap
  | _ => none

theorem inFlight_of_pending {saving : Saving} (isPending : saving.pending = some snap) :
    saving.inFlight = some snap := by
  cases saving with
  | idle => cases isPending
  | taken other => exact isPending
  | answered other success =>
    cases success with
    | false => exact isPending
    | true => cases isPending

end Saving

namespace Session

/-- An operation other than a purge, or a step of a save. -/
def IsPurge : Event -> Prop
  | .transaction (.purgeEntriesWithTypeIn _) => True
  | _ => False

/-- What has to be saved is marked or in the snapshot in flight, and a step that
is no purge drops only what was saved and is synced. -/
structure Safe (s : Session) : Prop where
  entries : ∀ handle entry, s.directory.memory handle = some entry ->
    s.store.metas handle = some entry.persistent ∨
    (entry.dirty_ = true ∧ handle ∈ s.directory.dirty_metahandles) ∨
    ∃ snap, s.saving.inFlight = some snap ∧
      ∃ saved, (handle, saved) ∈ snap.dirty_metas ∧ saved.persistent = entry.persistent
  purged : ∀ handle ∈ s.purged, s.store.metas handle ≠ none ->
    handle ∈ s.directory.metahandles_to_purge ∨
    ∃ snap, s.saving.inFlight = some snap ∧ handle ∈ snap.metahandles_to_purge
  info : InfoStored s.store.info s.directory.persisted_info ∨ s.directory.info_status = .DIRTY ∨
    ∃ snap, s.saving.inFlight = some snap ∧ snap.kernel_info_status = .DIRTY ∧
      snap.kernel_info = Directory.snapshotInfo s.directory.persisted_info
  dropped : ∀ event next, ¬ IsPurge event -> s.step event = some next ->
    ∀ handle entry, s.directory.memory handle = some entry ->
    next.directory.memory handle = none ->
    entry.is_del = true ∧ s.store.metas handle = some entry.persistent ∧
      entry.indexed_bit_fields .IS_UNSYNCED = false ∧
      entry.indexed_bit_fields .IS_UNAPPLIED_UPDATE = false

/-- A purge marks the kernel info that it resets, and a save that is accepted
has something to write, or nothing to delete. -/
def Meets (s : Session) : Event -> Prop
  | .transaction (.purgeEntriesWithTypeIn types) => Tracked.PurgeMarked s.directory types
  | .answer true =>
    match s.saving with
    | .taken snap =>
      snap.dirty_metas ≠ [] ∨ snap.kernel_info_status = .DIRTY ∨
        ∀ handle ∈ snap.metahandles_to_purge, s.store.metas handle = none
    | _ => True
  | _ => True

/-- Everything is kept track of. -/
def Tracks (s : Session) : Prop :=
  Tracked s.directory s.store s.saving.pending (· ∈ s.purged)

variable {s next : Session}

section

variable (tracks : s.Tracks)
include tracks

theorem Tracks.transact (meets : s.Meets (.transaction op))
    (transacts : s.transact op = some next) :
    next.Tracks := by
  obtain ⟨ran, isPerformed, transacts⟩ := bind_eq_some_iff.mp transacts
  cases transacts
  have tracked : Tracked ran.1 s.store s.saving.pending
      fun mem => mem ∈ s.purged ∨ (s.directory.memory mem).isSome = true ∧
          ran.1.memory mem = none := by
    by_cases isPurge : ∃ types, op = .purgeEntriesWithTypeIn types
    · obtain ⟨types, rfl⟩ := isPurge
      obtain ⟨purged, isPurged, rfl⟩ := map_eq_some_iff.mp isPerformed
      exact Tracked.purgeEntriesWithTypeIn tracks meets isPurged
    · have edits := Directory.edits_perform tracks.negative (not_exists.mp isPurge) isPerformed
      refine (Tracked.edits tracks edits).mono ?_
      rintro mem (isPurged | ⟨wasPresent, isGone⟩)
      · exact isPurged
      · have isPresent := (Touched.edits edits).present mem wasPresent
        rw [isGone] at isPresent
        cases isPresent
  refine tracked.mono ?_
  intro mem isPurged
  rcases Finset.mem_union.mp isPurged with wasPurged | isDropped
  · exact .inl wasPurged
  · rw [List.mem_toFinset, mem_filter, tracks.mirrored.metahandles.mem_iff] at isDropped
    exact .inr ⟨isDropped.1, isNone_iff_eq_none.mp isDropped.2⟩

theorem Tracks.step (meets : s.Meets event) (stepped : s.step event = some next) :
    next.Tracks := by
  obtain ⟨directory, store, saving, purged⟩ := s
  cases event with
  | transaction op => exact Tracks.transact tracks meets stepped
  | takeSnapshot =>
    cases saving with
    | idle =>
      cases stepped
      exact Tracked.takeSnapshot tracks
    | taken snap => cases stepped
    | answered snap success => cases stepped
  | answer success =>
    cases saving with
    | idle => cases stepped
    | taken snap =>
      cases stepped
      cases success with
      | true => exact Tracked.accept tracks meets
      | false => exact tracks
    | answered snap answer => cases stepped
  | finish =>
    cases saving with
    | idle => cases stepped
    | taken snap => cases stepped
    | answered snap answer =>
      cases answer with
      | true =>
        obtain ⟨vacuumed, isVacuumed, same⟩ := bind_eq_some_iff.mp stepped
        cases same
        exact (Tracked.vacuumAfterSaveChanges tracks isVacuumed).1
      | false =>
        cases stepped
        exact Tracked.handleSaveChangesFailure tracks

/-- A step that is no purge keeps the entries, but for those that are saved. -/
theorem Tracks.dropped (noPurge : ¬ IsPurge event) (stepped : s.step event = some next)
    (isEntry : s.directory.memory handle = some entry)
    (isGone : next.directory.memory handle = none) :
    entry.is_del = true ∧ s.store.metas handle = some entry.persistent ∧
      entry.indexed_bit_fields .IS_UNSYNCED = false ∧
      entry.indexed_bit_fields .IS_UNAPPLIED_UPDATE = false := by
  obtain ⟨directory, store, saving, purged⟩ := s
  have isPresent : (directory.memory handle).isSome = true := by
    rw [isEntry]
    rfl
  -- Whatever keeps all entries drops none.
  have keeps : ∀ kept : Directory, kept.memory handle = none ->
      ((directory.memory handle).isSome = true -> (kept.memory handle).isSome = true) -> False := by
    intro kept isNone stays
    have stillPresent := stays isPresent
    rw [isNone] at stillPresent
    cases stillPresent
  cases event with
  | transaction op =>
    obtain ⟨ran, isPerformed, same⟩ := bind_eq_some_iff.mp stepped
    cases same
    have notPurge : ∀ types, op ≠ .purgeEntriesWithTypeIn types := by
      rintro types rfl
      exact noPurge trivial
    have edits := Directory.edits_perform tracks.negative notPurge isPerformed
    exact (keeps _ isGone ((Touched.edits edits).present handle)).elim
  | takeSnapshot =>
    cases saving with
    | idle =>
      cases stepped
      refine (keeps _ isGone fun stays => ?_).elim
      exact Tracked.isSome_takeSnapshot.trans stays
    | taken snap => cases stepped
    | answered snap success => cases stepped
  | answer success =>
    cases saving with
    | idle => cases stepped
    | taken snap =>
      cases stepped
      exact (keeps _ isGone id).elim
    | answered snap answer => cases stepped
  | finish =>
    cases saving with
    | idle => cases stepped
    | taken snap => cases stepped
    | answered snap answer =>
      cases answer with
      | true =>
        obtain ⟨vacuumed, isVacuumed, same⟩ := bind_eq_some_iff.mp stepped
        cases same
        obtain ⟨-, drops⟩ := Tracked.vacuumAfterSaveChanges tracks isVacuumed
        rcases drops handle with same | ⟨-, other, isOther, isSafe⟩
        · exact (keeps _ isGone fun stays => same ▸ stays).elim
        · have sameEntry : other = entry := some.inj (isOther.symm.trans isEntry)
          subst sameEntry
          simp only [Directory.safeToPurgeFromMemory, Bool.and_eq_true, Bool.not_eq_true'] at isSafe
          obtain ⟨⟨⟨⟨isDel, isClean⟩, -⟩, applied⟩, synced⟩ := isSafe
          exact ⟨isDel, Tracked.clean tracks handle other isOther isClean, synced, applied⟩
      | false =>
        cases stepped
        obtain ⟨-, touched, -⟩ := Tracked.markAll
          (Tracked.withInfo tracks directory.persisted_info .DIRTY tracks.negative (.inl rfl))
        exact (keeps _ isGone (touched.present handle)).elim

theorem Tracks.safe : s.Safe where
  entries handle entry isEntry := by
    by_cases isDirty : entry.dirty_ = true
    · exact .inr (.inl ⟨isDirty, tracks.listed handle entry isEntry isDirty⟩)
    · rw [Bool.not_eq_true] at isDirty
      have isExpected := tracks.clean handle entry isEntry isDirty
      unfold expected at isExpected
      split at isExpected
      next saved isSaved =>
        obtain ⟨snap, isPending, hit⟩ := bind_eq_some_iff.mp isSaved
        refine .inr (.inr ⟨snap, Saving.inFlight_of_pending isPending, saved,
          mem_rows_of_lookup hit, some.inj isExpected⟩)
      · exact .inl isExpected
  purged handle isPurged isRow := by
    have isPending := (tracks.purges handle isPurged).2 (Tracked.expected_of_row isRow)
    refine isPending.imp_right ?_
    rintro ⟨snap, isPending, inSnapshot⟩
    exact ⟨snap, Saving.inFlight_of_pending isPending, inSnapshot⟩
  info := by
    rcases tracks.info with isDirty | info
    · exact .inr (.inl isDirty)
    · by_cases pending : ∃ snap, s.saving.pending = some snap ∧ snap.kernel_info_status = .DIRTY
      · obtain ⟨snap, isPending, isDirty⟩ := pending
        exact .inr (.inr ⟨snap, Saving.inFlight_of_pending isPending, isDirty,
          info.inSnapshot snap isPending isDirty⟩)
      · exact .inl (info.inStore fun snap isPending isDirty =>
          pending ⟨snap, isPending, isDirty⟩)
  dropped event next noPurge stepped handle entry isEntry isGone :=
    tracks.dropped noPurge stepped isEntry isGone

end

theorem tracks_opened (loadable : Loadable rows info max_metahandle) :
    (opened rows info max_metahandle).Tracks where
  mirrored := mirrored_openImpl loadable
  negative := loadable.negative
  listed handle entry isEntry isDirty := by
    have isStored := loadable.stored _ (mem_rows_of_lookup isEntry)
    have flag := congrArg EntryKernel.dirty_ isStored
    rw [isDirty] at flag
    cases flag
  clean handle entry isEntry _ := by
    have isStored : entry.persistent = entry := loadable.stored _ (mem_rows_of_lookup isEntry)
    rw [isStored]
    exact isEntry
  bounded handle isPresent := by
    obtain ⟨entry, isEntry⟩ := isSome_iff_exists.mp isPresent
    have below := loadable.bounded _ (mem_rows_of_lookup isEntry)
    exact Int.lt_add_one_of_le below
  gone handle toPurge := by
    rcases toPurge with inSet | ⟨snap, impossible, -⟩
    · cases inSet
    · cases impossible
  purges handle isPurged := by cases isPurged
  info := by
    right
    constructor
    · intro snap impossible
      cases impossible
    · intro _
      left
      unfold DirectoryBackingStore.saveInfo
      dsimp only
      congr 1
      · funext type
        exact ite_self _
      · funext type
        exact ite_self _
  distinct snap impossible := by cases impossible

/-- In a run whose steps meet the condition nothing is lost. -/
theorem holding_safe {rows : List (Handle × EntryKernel)} {info : PersistedKernelInfo}
    {max_metahandle : Handle} {events : List Event} (loadable : Loadable rows info max_metahandle)
    (meets : Throughout Session.step Meets (opened rows info max_metahandle) events) :
    Holding Session.step Safe (opened rows info max_metahandle) events :=
  holding_of_throughout (fun tracks => Tracks.safe tracks)
    (fun tracks meets stepped => Tracks.step tracks meets stepped)
    (tracks_opened loadable) meets

/-- A directory with the root and a bookmark. -/
def bookmarkRows : List (Handle × EntryKernel) :=
  [(1, ({} : EntryKernel).putBit .IS_DIR true),
    (2, (({} : EntryKernel).putId .ID (.server "b")).putSpecifics .SPECIFICS
      { model_type := .bookmarks, serialized := "b" })]

theorem loadable_bookmarkRows : Loadable bookmarkRows { next_id := -2 } 2 where
  handles := by simp [bookmarkRows]
  bounded := by simp [bookmarkRows]
  stored := by
    simp [bookmarkRows, EntryKernel.persistent, EntryKernel.putBit,
      EntryKernel.putId, EntryKernel.putSpecifics]
  ids := by
    simp [bookmarkRows, EntryKernel.id, EntryKernel.putBit, EntryKernel.putId,
      EntryKernel.putSpecifics]
  client_tags := by
    simp [bookmarkRows, EntryKernel.putBit, EntryKernel.putId, EntryKernel.putSpecifics]
  negative := by simp

theorem holding_safe_bookmark : Holding Session.step Safe (opened bookmarkRows { next_id := -2 } 2)
      [.transaction (.setInitialSyncEndedForType .bookmarks true),
        .transaction (.purgeEntriesWithTypeIn [.bookmarks]),
        .takeSnapshot, .answer true, .finish] := by
  refine holding_safe loadable_bookmarkRows ?_
  refine ⟨trivial, fun next runs => ?_⟩
  obtain rfl := some.inj runs
  refine ⟨.inr (.inr (.inl rfl)), fun next runs => ?_⟩
  obtain rfl := some.inj runs
  refine ⟨trivial, fun next runs => ?_⟩
  obtain rfl := some.inj runs
  refine ⟨.inr (.inl rfl), fun next runs => ?_⟩
  exact ⟨trivial, fun next runs => trivial⟩

/-- A purge resets the progress of a type without a mark, and a save that has
nothing else to write leaves the rows of the purged entries. -/
theorem not_holding_safe : ¬ Holding Session.step Safe (opened rootRows { next_id := -2 } 1)
        [.transaction (.setDownloadProgress .bookmarks { token := "t" }),
          .takeSnapshot, .answer true, .finish,
          .transaction (.purgeEntriesWithTypeIn [.bookmarks])] ∧
      ¬ Holding Session.step Safe (opened bookmarkRows { next_id := -2 } 2)
        [.transaction (.purgeEntriesWithTypeIn [.bookmarks]),
          .takeSnapshot, .answer true, .finish] := by
  constructor
  · intro holding
    have last := ((((holding.2 _ rfl).2 _ rfl).2 _ rfl).2 _ rfl).2 _ rfl
    rcases last.info with stored | isDirty | ⟨snap, inFlight, -⟩
    · let token (info : PersistedKernelInfo) : String := (info.download_progress .bookmarks).token
      rcases stored with stored | stored
      · exact absurd (congrArg token stored) (by decide)
      · exact absurd (congrArg token stored) (by decide)
    · cases isDirty
    · cases inFlight
  · intro holding
    have last := (((holding.2 _ rfl).2 _ rfl).2 _ rfl).2 _ rfl
    rcases last.purged 2 (by decide) (by decide) with
      isPending | ⟨snap, inFlight, -⟩
    · revert isPending
      decide
    · cases inFlight

end Session

end

end Chromium.Syncable
