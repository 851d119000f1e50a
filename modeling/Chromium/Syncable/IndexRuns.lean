import Chromium.Library.Run
import Chromium.Syncable.Indices
import Chromium.Syncable.SaveChanges

/-!
# What edits touch

An edit leaves an entry as it was, or dirty and listed as such; it leaves the
kernel info as it was, or marks it as dirty.
-/

namespace Chromium.Syncable

open List Option Finset Function Prod

section

open Sync (Id ModelType)

/-- What was written since a directory is marked as dirty in another one. -/
structure Touched (dir next : Directory) : Prop where
  entries : ∀ handle entry, next.memory handle = some entry ->
    (entry.dirty_ = true ∧ (handle ∈ next.dirty_metahandles ∨
      ∃ before, dir.memory handle = some before ∧ before.dirty_ = true)) ∨
    ∃ before, dir.memory handle = some before ∧
      before.persistent = entry.persistent ∧ before.dirty_ = entry.dirty_
  present : ∀ handle, (dir.memory handle).isSome = true -> (next.memory handle).isSome = true
  created : ∀ handle, (next.memory handle).isSome = true -> (dir.memory handle).isSome = true ∨
      dir.next_metahandle <= handle ∧ handle < next.next_metahandle
  listed : dir.dirty_metahandles ⊆ next.dirty_metahandles
  pending : next.metahandles_to_purge = dir.metahandles_to_purge
  info : next.info_status = .DIRTY ∨
    next.persisted_info = dir.persisted_info ∧ next.info_status = dir.info_status
  counts : dir.next_metahandle <= next.next_metahandle
  ids : next.persisted_info.next_id <= dir.persisted_info.next_id

/-- The entry of a metahandle was changed, and nothing marked as dirty. -/
structure ChangedAt (handle : Handle) (dir next : Directory) : Prop where
  elsewhere : ∀ ptr, ptr ≠ handle -> next.memory ptr = dir.memory ptr
  flag : (next.memory handle).map EntryKernel.dirty_ = (dir.memory handle).map EntryKernel.dirty_
  listed : next.dirty_metahandles = dir.dirty_metahandles
  pending : next.metahandles_to_purge = dir.metahandles_to_purge
  info : next.persisted_info = dir.persisted_info
  status : next.info_status = dir.info_status
  counts : next.next_metahandle = dir.next_metahandle

namespace Touched

variable {dir middle next : Directory}

protected theorem refl (dir : Directory) : Touched dir dir where
  entries _ entry isEntry := .inr ⟨entry, isEntry, rfl, rfl⟩
  present _ := id
  created _ := .inl
  listed := Finset.Subset.refl _
  pending := rfl
  info := .inr ⟨rfl, rfl⟩
  counts := le_refl _
  ids := le_refl _

protected theorem trans (first : Touched dir middle) (second : Touched middle next) :
    Touched dir next where
  entries handle entry isEntry := by
    -- A dirty entry in between was listed by then, or dirty before.
    have dirtyBetween : ∀ between, middle.memory handle = some between ->
        between.dirty_ = true -> handle ∈ next.dirty_metahandles ∨
          ∃ before, dir.memory handle = some before ∧ before.dirty_ = true := by
      intro between isBetween isDirty
      rcases first.entries handle between isBetween with
        ⟨-, isListed | wasDirty⟩ | ⟨before, isBefore, -, sameFlag⟩
      · exact .inl (second.listed isListed)
      · exact .inr wasDirty
      · exact .inr ⟨before, isBefore, sameFlag.trans isDirty⟩
    rcases second.entries handle entry isEntry with
      ⟨isDirty, isListed | ⟨between, isBetween, wasDirty⟩⟩ |
        ⟨between, isBetween, samePersistent, sameFlag⟩
    · exact .inl ⟨isDirty, .inl isListed⟩
    · exact .inl ⟨isDirty, dirtyBetween between isBetween wasDirty⟩
    · rcases first.entries handle between isBetween with
        ⟨isDirty, -⟩ | ⟨before, isBefore, beforePersistent, beforeFlag⟩
      · exact .inl ⟨sameFlag.symm.trans isDirty, dirtyBetween between isBetween isDirty⟩
      · exact .inr ⟨before, isBefore, beforePersistent.trans samePersistent,
          beforeFlag.trans sameFlag⟩
  present handle isPresent := second.present handle (first.present handle isPresent)
  created handle isPresent := by
    rcases second.created handle isPresent with wasPresent | ⟨above, below⟩
    · rcases first.created handle wasPresent with before | ⟨above, below⟩
      · exact .inl before
      · exact .inr ⟨above, lt_of_lt_of_le below second.counts⟩
    · exact .inr ⟨le_trans first.counts above, below⟩
  listed := first.listed.trans second.listed
  pending := second.pending.trans first.pending
  info := by
    rcases second.info with isDirty | ⟨sameInfo, sameStatus⟩
    · exact .inl isDirty
    · rw [sameInfo, sameStatus]
      exact first.info
  counts := le_trans first.counts second.counts
  ids := le_trans second.ids first.ids

end Touched

namespace ChangedAt

variable {dir next : Directory}

theorem modify (dir : Directory) (handle : Handle)
    (keepsFlag : ∀ entry, (change entry).dirty_ = entry.dirty_) :
    ChangedAt handle dir (dir.modify handle change) where
  elsewhere ptr differs := update_of_ne differs _ _
  flag := by
    show ((update dir.memory handle ((dir.memory handle).map change)) handle).map _ = _
    rw [update_self, Option.map_map]
    congr 1
    exact funext keepsFlag
  listed := rfl
  pending := rfl
  info := rfl
  status := rfl
  counts := rfl

theorem isSome_iff (changed : ChangedAt handle dir next) (ptr : Handle) :
    (next.memory ptr).isSome = (dir.memory ptr).isSome := by
  by_cases same : ptr = handle
  · subst same
    have both := congrArg isSome changed.flag
    rwa [isSome_map, isSome_map] at both
  · rw [changed.elsewhere ptr same]

/-- An entry that was changed is marked as dirty. -/
theorem touched (changed : ChangedAt handle dir next) : Touched dir (next.markDirty handle) := by
  have isSome_iff := changed.isSome_iff
  unfold Directory.markDirty
  split
  next isNone =>
    have isEntryBefore : dir.memory handle = none := by
      rw [← not_isSome_iff_eq_none, ← isSome_iff, isNone]
      simp
    have same : next.memory = dir.memory := by
      funext ptr
      by_cases same : ptr = handle
      · rw [same, isNone, isEntryBefore]
      · exact changed.elsewhere ptr same
    exact {
      entries := fun ptr entry isEntry => .inr ⟨entry, same ▸ isEntry, rfl, rfl⟩
      present := fun ptr => (isSome_iff ptr ▸ id)
      created := fun ptr isPresent => .inl (isSome_iff ptr ▸ isPresent)
      listed := changed.listed ▸ Finset.Subset.refl _
      pending := changed.pending
      info := .inr ⟨changed.info, changed.status⟩
      counts := le_of_eq changed.counts.symm
      ids := le_of_eq (congrArg PersistedKernelInfo.next_id changed.info) }
  next current isCurrent =>
    have isSome_update : ∀ ptr, ((update next.memory handle
          (some { current with dirty_ := true })) ptr).isSome =
        (dir.memory ptr).isSome := by
      intro ptr
      rw [← isSome_iff]
      by_cases same : ptr = handle
      · rw [same, update_self, isCurrent]
        rfl
      · rw [update_of_ne same]
    exact {
      entries := by
        intro ptr entry isEntry
        by_cases same : ptr = handle
        · subst same
          dsimp only at isEntry
          rw [update_self] at isEntry
          cases isEntry
          refine .inl ⟨rfl, ?_⟩
          by_cases wasDirty : current.dirty_ = true
          · -- It is dirty already, so that the flag was set before.
            have flag := changed.flag
            rw [isCurrent, map_some, wasDirty] at flag
            exact .inr (map_eq_some_iff.mp flag.symm)
          · left
            rw [if_neg wasDirty]
            exact Finset.mem_insert_self _ _
        · dsimp only at isEntry
          rw [update_of_ne same, changed.elsewhere ptr same] at isEntry
          exact .inr ⟨entry, isEntry, rfl, rfl⟩
      present := fun ptr isPresent => (isSome_update ptr).trans isPresent
      created := fun ptr isPresent => .inl ((isSome_update ptr).symm.trans isPresent)
      listed := by
        rw [← changed.listed]
        split
        · exact Finset.Subset.refl _
        · exact Finset.subset_insert _ _
      pending := changed.pending
      info := .inr ⟨changed.info, changed.status⟩
      counts := le_of_eq changed.counts.symm
      ids := le_of_eq (congrArg PersistedKernelInfo.next_id changed.info) }

theorem reindexChild (keepsFlag : ∀ entry, (change entry).dirty_ = entry.dirty_)
    (reindexed : dir.reindexChild handle change = some next) :
    ChangedAt handle dir next := by
  have changed := modify dir handle keepsFlag
  obtain ⟨removed, -, reindexed⟩ := bind_eq_some_iff.mp reindexed
  obtain ⟨restored, -, reindexed⟩ := bind_eq_some_iff.mp reindexed
  cases reindexed
  exact ⟨changed.elsewhere, changed.flag, rfl, rfl, rfl, rfl, rfl⟩

theorem reindexId (reindexed : dir.reindexId handle new_id = some (next, true)) :
    ChangedAt handle dir next := by
  have keepsFlag : ∀ entry : EntryKernel,
      (entry.putId .ID new_id).dirty_ = entry.dirty_ := fun _ => rfl
  have changed := modify dir handle keepsFlag
  unfold Directory.reindexId at reindexed
  split at reindexed
  · cases reindexed
  · obtain ⟨ids, -, reindexed⟩ := bind_eq_some_iff.mp reindexed
    obtain ⟨children, -, reindexed⟩ := bind_eq_some_iff.mp reindexed
    obtain ⟨newChildren, -, reindexed⟩ := bind_eq_some_iff.mp reindexed
    obtain ⟨newIds, -, reindexed⟩ := bind_eq_some_iff.mp reindexed
    cases reindexed
    exact ⟨changed.elsewhere, changed.flag, rfl, rfl, rfl, rfl, rfl⟩

theorem reindexClientTag (reindexed : dir.reindexClientTag handle new_tag = some next) :
    ChangedAt handle dir next := by
  have keepsFlag : ∀ entry : EntryKernel,
      (entry.putString .UNIQUE_CLIENT_TAG new_tag).dirty_ = entry.dirty_ :=
    fun _ => rfl
  have changed := modify dir handle keepsFlag
  obtain ⟨removed, -, reindexed⟩ := bind_eq_some_iff.mp reindexed
  obtain ⟨restored, -, reindexed⟩ := bind_eq_some_iff.mp reindexed
  cases reindexed
  exact ⟨changed.elsewhere, changed.flag, rfl, rfl, rfl, rfl, rfl⟩

end ChangedAt

namespace Touched

variable {dir next : Directory}

theorem putIndexedBit (put : dir.putIndexedBit handle field value = some next) :
    Touched dir next := by
  have keepsFlag : ∀ entry : EntryKernel,
      (entry.putIndexedBit field value).dirty_ = entry.dirty_ := fun _ => rfl
  have changed := ChangedAt.modify dir handle keepsFlag
  obtain ⟨entry, -, put⟩ := bind_eq_some_iff.mp put
  split at put
  · cases put
    exact .refl dir
  · cases field with
    | IS_UNSYNCED | IS_UNAPPLIED_UPDATE =>
      obtain ⟨set, -, put⟩ := bind_eq_some_iff.mp put
      cases put
      apply ChangedAt.touched
      exact ⟨changed.elsewhere, changed.flag, rfl, rfl, rfl, rfl, rfl⟩

theorem syncing (dir : Directory) (handle : Handle) (val : Bool) :
    Touched dir (dir.modify handle ({ · with syncing := val })) := by
  have keepsFlag : ∀ entry : EntryKernel,
      { entry with syncing := val }.dirty_ = entry.dirty_ := fun _ => rfl
  have changed := ChangedAt.modify dir handle keepsFlag
  exact {
    entries := by
      intro ptr entry isEntry
      right
      by_cases same : ptr = handle
      · subst same
        unfold Directory.modify at isEntry
        dsimp only at isEntry
        rw [update_self] at isEntry
        obtain ⟨before, isBefore, rfl⟩ := map_eq_some_iff.mp isEntry
        exact ⟨before, isBefore, rfl, rfl⟩
      · rw [changed.elsewhere ptr same] at isEntry
        exact ⟨entry, isEntry, rfl, rfl⟩
    present := fun ptr isPresent => (changed.isSome_iff ptr).trans isPresent
    created := fun ptr isPresent => .inl ((changed.isSome_iff ptr).symm.trans isPresent)
    listed := Finset.Subset.refl _
    pending := rfl
    info := .inr ⟨rfl, rfl⟩
    counts := le_refl _
    ids := le_refl _ }

theorem insertNew (inserted : dir.insertNew entry = some next) : Touched dir next := by
  obtain ⟨metahandles, -, inserted⟩ := bind_eq_some_iff.mp inserted
  obtain ⟨children, -, inserted⟩ := bind_eq_some_iff.mp inserted
  obtain ⟨ids, -, inserted⟩ := bind_eq_some_iff.mp inserted
  split at inserted
  · cases inserted
  · cases inserted
    exact {
      entries := by
        intro ptr other isOther
        dsimp only at isOther
        by_cases same : ptr = dir.next_metahandle
        · rw [same, update_self] at isOther
          cases isOther
          refine .inl ⟨rfl, .inl ?_⟩
          rw [same]
          exact Finset.mem_insert_self _ _
        · rw [update_of_ne same] at isOther
          exact .inr ⟨other, isOther, rfl, rfl⟩
      present := by
        intro ptr isPresent
        dsimp only
        by_cases same : ptr = dir.next_metahandle
        · rw [same, update_self]
          rfl
        · rwa [update_of_ne same]
      created := by
        intro ptr isPresent
        dsimp only at isPresent ⊢
        by_cases same : ptr = dir.next_metahandle
        · rw [same]
          exact .inr ⟨le_refl _, Int.lt_succ _⟩
        · rw [update_of_ne same] at isPresent
          exact .inl isPresent
      listed := Finset.subset_insert _ _
      pending := rfl
      info := .inr ⟨rfl, rfl⟩
      counts := (Int.lt_succ _).le
      ids := le_refl _ }

theorem edit (edit : Edit dir next) : Touched dir next := by
  cases edit with
  | write handle unindexed =>
    exact (ChangedAt.modify dir handle fun entry => (unindexed entry).2).touched
  | syncing handle value => exact syncing dir handle value
  | child childIndexed reindexed =>
    exact (ChangedAt.reindexChild (fun entry => (childIndexed entry).2.2.2) reindexed).touched
  | id reindexed => exact (ChangedAt.reindexId reindexed).touched
  | clientTag reindexed => exact (ChangedAt.reindexClientTag reindexed).touched
  | indexedBit put => exact putIndexedBit put
  | insert apart plain inserted => exact insertNew inserted
  | info counts =>
    exact {
      entries := fun ptr entry isEntry => .inr ⟨entry, isEntry, rfl, rfl⟩
      present := fun _ => id
      created := fun _ => .inl
      listed := Finset.Subset.refl _
      pending := rfl
      info := .inl rfl
      counts := le_refl _
      ids := counts }

theorem edits (edits : Edits dir next) : Touched dir next := by
  induction edits with
  | refl => exact .refl dir
  | tail _ edit ih => exact ih.trans (.edit edit)

end Touched

end

/-!
## The indices mirror the entries in every run

A loaded directory has indices that mirror its entries, and they do so after
every operation of a transaction and every step of a save.
-/

section

open Library
open Sync (Id ModelType)

namespace Mirrored

variable {dir next : Directory}

section

variable (mirrored : Mirrored dir)
include mirrored

/-- The entries in memory have ids of their own. -/
theorem eq_of_id (isLeft : dir.memory first = some left) (isRight : dir.memory second = some right)
    (same : left.id = right.id) :
    first = second := by
  refine KeyedIndex.Mirrors.eq_of_key mirrored.ids ⟨left, isLeft, rfl⟩ ⟨right, isRight, rfl⟩ ?_
  rw [isLeft, isRight]
  exact same

/-- An entry is dropped, also from the sets of metahandles. -/
theorem drop (isEntry : dir.memory handle = some entry) :
    Mirrored { dir.drop handle with
      unsynced_metahandles := dir.unsynced_metahandles.erase handle
      unapplied_update_metahandles := dir.unapplied_update_metahandles.erase handle } := by
  have cleared {field : IndexedBitField} {set : MetahandleSet}
      (flagged : Flagged field dir.memory set) :
      Flagged field (update dir.memory handle none) (set.erase handle) := by
    intro ptr
    rw [mem_erase]
    by_cases same : ptr = handle
    · simp [same]
    · rw [update_of_ne same, flagged ptr]
      exact and_iff_right same
  have otherId : ∀ ptr other, ptr ≠ handle -> dir.memory ptr = some other -> other.id ≠ entry.id :=
    fun ptr other ne isOther same => ne (mirrored.eq_of_id isOther isEntry same)
  exact {
    metahandles := by
      obtain ⟨erased, isErased, mirrors⟩ :=
        mirrored.metahandles.erase (show (dir.memory handle).isSome = true by rw [isEntry]; rfl)
      show KeyedIndex.Mirrors id _
        ((KeyedIndex.erase id handle dir.metahandles_index).getD dir.metahandles_index)
      rw [isErased]
      refine mirrors.congr (fun _ _ => rfl) ?_
      intro ptr
      unfold Directory.drop
      by_cases same : ptr = handle
      · simp [same]
      · simp [same]
    ids := mirrored.ids.dropped isEntry
      fun ptr other ne isOther _ => otherId ptr other ne isOther
    children := by
      apply mirrored.children.dropped isEntry
      intro ptr other ne isOther _ same
      apply otherId ptr other ne isOther
      simp only [parentIdAndHandleIndexer, EmbeddingLike.apply_eq_iff_eq, Prod.mk.injEq] at same
      exact same.2.2
    client_tags := by
      apply mirrored.client_tags.dropped isEntry
      intro ptr other ne isOther included same
      -- The other entry has a tag, so the entry itself is in the index too.
      have includedToo : clientTagIndexer.shouldInclude entry = true := by
        simp only [clientTagIndexer] at same included ⊢
        rwa [← same]
      apply ne
      refine KeyedIndex.Mirrors.eq_of_key mirrored.client_tags
        ⟨other, isOther, included⟩ ⟨entry, isEntry, includedToo⟩ ?_
      rw [isOther, isEntry]
      exact same
    unsynced := cleared mirrored.unsynced
    unapplied := cleared mirrored.unapplied }

theorem vacuum (vacuumed : dir.vacuum handle = some next) : Mirrored next := by
  unfold Directory.vacuum at vacuumed
  split at vacuumed
  · cases vacuumed
    exact mirrored
  next entry isEntry =>
    split at vacuumed
    · split at vacuumed
      · cases vacuumed
      next unused =>
        cases vacuumed
        rw [not_or, not_or, not_or] at unused
        have dropped := mirrored.drop isEntry
        rw [erase_eq_of_notMem unused.2.1, erase_eq_of_notMem unused.2.2.1] at dropped
        exact dropped
    · cases vacuumed
      exact mirrored

theorem takeSnapshotForSaveChanges : Mirrored dir.takeSnapshotForSaveChanges.1 := by
  have alike {β : Type} (view : EntryKernel -> β) (kept : ∀ entry : EntryKernel,
        view { entry with dirty_ := false } = view entry) (handle : Handle) :
      (dir.takeSnapshotForSaveChanges.1.memory handle).map view = (dir.memory handle).map view := by
    unfold Directory.takeSnapshotForSaveChanges
    dsimp only
    split
    · rw [Option.map_map]
      congr 1
      exact funext kept
    · rfl
  exact {
    metahandles := by
      refine mirrored.metahandles.congr (fun _ _ => rfl) ?_
      intro ptr
      have both := congrArg isSome (alike (fun _ => ()) (fun _ => rfl) ptr)
      rw [isSome_map, isSome_map] at both
      rw [both]
    ids := mirrored.ids.congr (alike _ fun _ => rfl)
    children := mirrored.children.congr (alike _ fun _ => rfl)
    client_tags := mirrored.client_tags.congr (alike _ fun _ => rfl)
    unsynced := mirrored.unsynced.congr (alike _ fun _ => rfl)
    unapplied := mirrored.unapplied.congr (alike _ fun _ => rfl) }

theorem handleSaveChangesFailure (snap : SaveChangesSnapshot) :
    Mirrored (dir.handleSaveChangesFailure snap) := by
  have marked : ∀ (handles : List Handle) (dir : Directory), Mirrored dir ->
      Mirrored (handles.foldl Directory.markDirty dir) := by
    intro handles
    induction handles with
    | nil => exact fun _ mirrored => mirrored
    | cons handle handles ih =>
      intro dir mirrored
      exact ih _ (mirrored.markDirty handle)
  have restored := marked (snap.dirty_metas.map fst) { dir with info_status := .DIRTY }
    ⟨mirrored.metahandles, mirrored.ids, mirrored.children,
      mirrored.client_tags, mirrored.unsynced, mirrored.unapplied⟩
  exact ⟨restored.metahandles, restored.ids, restored.children,
    restored.client_tags, restored.unsynced, restored.unapplied⟩

theorem purgeEntry (purged : Directory.purgeEntry types dir handle = some next) :
    Mirrored next := by
  obtain ⟨entry, isEntry, purged⟩ := bind_eq_some_iff.mp purged
  split at purged
  · obtain ⟨unlinked, isUnlinked, purged⟩ := bind_eq_some_iff.mp purged
    cases purged
    have edits := Directory.edits_unlinkEntryFromOrder isUnlinked
    have isPresent := (Touched.edits edits).present handle (by rw [isEntry]; rfl)
    obtain ⟨cur, isCurrent⟩ := isSome_iff_exists.mp isPresent
    have dropped := (mirrored.edits edits).drop isCurrent
    exact ⟨dropped.metahandles, dropped.ids, dropped.children,
      dropped.client_tags, dropped.unsynced, dropped.unapplied⟩
  · cases purged
    exact mirrored

theorem resetType (type : ModelType) : Mirrored (dir.resetType type) := by
  unfold Directory.resetType Directory.setInitialSyncEndedForType
  split
  · exact ⟨mirrored.metahandles, mirrored.ids, mirrored.children,
      mirrored.client_tags, mirrored.unsynced, mirrored.unapplied⟩
  · exact ⟨mirrored.metahandles, mirrored.ids, mirrored.children,
      mirrored.client_tags, mirrored.unsynced, mirrored.unapplied⟩

theorem resetTypes (types : List ModelType) : Mirrored (types.foldl Directory.resetType dir) := by
  induction types generalizing dir with
  | nil => exact mirrored
  | cons type types ih => exact ih (mirrored.resetType type)

theorem purgeEntriesWithTypeIn (purged : dir.purgeEntriesWithTypeIn types = some next) :
    Mirrored next := by
  unfold Directory.purgeEntriesWithTypeIn at purged
  split at purged
  · cases purged
    exact mirrored
  · obtain ⟨dropped, isDropped, purged⟩ := bind_eq_some_iff.mp purged
    cases purged
    have droppedMirrored : Mirrored dropped :=
      property_of_foldlM (fun mirrored purges => purgeEntry mirrored purges) isDropped mirrored
    exact droppedMirrored.resetTypes types

end

end Mirrored

/-- No string of a negative number is that of the root. -/
theorem isRoot_createFromClientString {n : Int} (negative : n < 0) :
    (createFromClientString (toString n)).isRoot = false := by
  have ne : toString n ≠ "0" := by
    intro same
    have isRepr : toString n = "-" ++ (n.natAbs).repr := by
      obtain ⟨magnitude, rfl⟩ := Int.eq_negSucc_of_lt_zero negative
      rfl
    have characters := congrArg String.toList (isRepr.symm.trans same)
    exact absurd (congrArg head? characters) (by simp)
  unfold createFromClientString
  rw [if_neg ne]
  rfl

namespace Directory

variable {dir next : Directory}

theorem edit_setInfo (dir : Directory) (sameId : info.next_id = dir.persisted_info.next_id) :
    Edit dir { dir with persisted_info := info, info_status := .DIRTY } :=
  Edit.info (le_of_eq sameId)

theorem edits_of_map (edits : ∀ {made}, attempt = some made -> Edits dir made)
    (ran : attempt.map (·, true) = some (next, ok)) :
    Edits dir next := by
  obtain ⟨made, isMade, same⟩ := map_eq_some_iff.mp ran
  cases same
  exact edits isMade

/-- Every operation but a purge makes edits. -/
theorem edits_perform {op : Operation} (negative : dir.persisted_info.next_id < 0)
    (noPurge : ∀ types, op ≠ .purgeEntriesWithTypeIn types)
    (ran : dir.perform op = some (next, ok)) :
    Edits dir next := by
  cases op with
  | create parent_id name now =>
    refine edits_of_map (fun created => ?_) ran
    refine edit_nextId.edits.tail (Edit.insert ?_ rfl created)
    exact .inr (isRoot_createFromClientString negative)
  | createNewUpdateItem new_id => exact edits_createNewUpdateItem ran
  | putInt64 handle field value => exact edits_of_map edits_putInt64 ran
  | putBaseVersion handle value => exact edits_of_map edits_putBaseVersion ran
  | putSpecifics handle field value => exact edits_of_map edits_putSpecifics ran
  | putBit handle field value => exact edits_of_map edits_putBit ran
  | putSyncing handle value => exact edits_of_map edits_putSyncing ran
  | putIndexedBit handle field value =>
    exact edits_of_map (fun put => (Edit.indexedBit put).edits) ran
  | putString handle field value => exact edits_putString ran
  | putId handle field value => exact edits_putId ran
  | putIsDel handle is_del => exact edits_of_map edits_putIsDel ran
  | putParentIdPropertyOnly handle parent_id =>
    exact edits_of_map edits_putParentIdPropertyOnly ran
  | putPredecessor handle predecessor_id => exact edits_putPredecessor ran
  | changeEntryIDAndUpdateChildren handle new_id =>
    exact edits_of_map edits_changeEntryIDAndUpdateChildren ran
  | splitServerInformationIntoNewEntry handle =>
    exact edits_of_map edits_splitServerInformationIntoNewEntry ran
  | nextId =>
    cases ran
    exact edit_nextId.edits
  | purgeEntriesWithTypeIn types => exact absurd rfl (noPurge types)
  | setInitialSyncEndedForType type x =>
    cases ran
    unfold setInitialSyncEndedForType
    split
    · exact .refl
    · refine (dir.edit_setInfo ?_).edits
      rfl
  | setDownloadProgress type progress =>
    cases ran
    refine (dir.edit_setInfo ?_).edits
    rfl
  | setNotificationState state =>
    cases ran
    unfold setNotificationState
    split
    · exact .refl
    · refine (dir.edit_setInfo ?_).edits
      rfl
  | setStoreBirthday birthday =>
    cases ran
    unfold setStoreBirthday
    split
    · exact .refl
    · refine (dir.edit_setInfo ?_).edits
      rfl
  | setAutofillMigrationState state now =>
    cases ran
    unfold setAutofillMigrationState
    split
    · exact .refl
    · refine (dir.edit_setInfo ?_).edits
      split <;> rfl
  | setAutofillMigrationStateDebugInfo property_to_set info =>
    cases ran
    unfold setAutofillMigrationStateDebugInfo
    dsimp only
    split
    · exact .refl
    · refine (dir.edit_setInfo ?_).edits
      rfl

end Directory

section Loading

variable {rows : List (Handle × EntryKernel)}

/-- An entry of a loaded directory is that of a row. -/
theorem mem_rows_of_lookup (isEntry : rows.lookup handle = some entry) :
    (handle, entry) ∈ rows := by
  obtain ⟨front, back, rfl, -⟩ := lookup_eq_some_iff.mp isEntry
  simp

theorem isSome_lookup_iff : (rows.lookup handle).isSome = true ↔ handle ∈ rows.map Prod.fst := by
  rw [← Bool.not_eq_false, isSome_eq_false_iff, isNone_iff_eq_none,
    lookup_eq_none_iff, List.mem_map]
  simp only [bne_iff_ne, not_forall, not_not, exists_prop]
  exact exists_congr fun row => and_congr_right fun _ => eq_comm

/-- An index of a loaded directory has the rows that it includes. -/
theorem indexed_foldl_initializeIndexEntry [LinearOrder κ] {indexer : Indexer κ} {dir : Directory}
    (metahandles : KeyedIndex.Mirrors id
      (fun handle => (dir.memory handle).isSome = true) dir.metahandles_index)
    (distinct : ∀ first second left right,
      dir.memory first = some left -> dir.memory second = some right ->
      indexer.shouldInclude left = true -> indexer.shouldInclude right = true ->
      indexer.key left = indexer.key right -> first = second) :
    Indexed indexer dir.memory
      (dir.metahandles_index.foldl (dir.initializeIndexEntry indexer) []) := by
  have nodup : dir.metahandles_index.Nodup := metahandles.ordered.imp fun before => ne_of_lt before
  have mirrors := KeyedIndex.mirrors_collect (dir.keyOf indexer)
    (fun handle => indexer.shouldInclude ((dir.memory handle).getD {})) nodup ?_
  · refine mirrors.congr (fun _ _ => rfl) ?_
    intro ptr
    rw [metahandles.mem_iff, isSome_iff_exists]
    constructor
    · rintro ⟨⟨entry, isEntry⟩, included⟩
      rw [isEntry] at included
      exact ⟨entry, isEntry, included⟩
    · rintro ⟨entry, isEntry, included⟩
      rw [isEntry]
      exact ⟨⟨entry, rfl⟩, included⟩
  · intro first isFirst second isSecond includesFirst includesSecond same
    rw [metahandles.mem_iff, isSome_iff_exists] at isFirst isSecond
    obtain ⟨left, isLeft⟩ := isFirst
    obtain ⟨right, isRight⟩ := isSecond
    unfold Directory.keyOf at same
    rw [isLeft] at includesFirst
    rw [isRight] at includesSecond
    rw [isLeft, isRight] at same
    exact distinct first second left right isLeft isRight includesFirst includesSecond same

theorem flagged_toFinset {dir : Directory} (metahandles : KeyedIndex.Mirrors id
      (fun handle => (dir.memory handle).isSome = true) dir.metahandles_index) :
    Flagged field dir.memory (dir.metahandles_index.filter fun handle =>
        ((dir.memory handle).getD {}).indexed_bit_fields field).toFinset := by
  intro ptr
  rw [List.mem_toFinset, mem_filter, metahandles.mem_iff, isSome_iff_exists]
  constructor
  · rintro ⟨⟨entry, isEntry⟩, isSet⟩
    rw [isEntry] at isSet
    exact ⟨entry, isEntry, isSet⟩
  · rintro ⟨entry, isEntry, isSet⟩
    rw [isEntry]
    exact ⟨⟨entry, rfl⟩, isSet⟩

theorem mirrored_openImpl (loadable : Session.Loadable rows info max_metahandle) :
    Mirrored (Directory.openImpl rows info max_metahandle) := by
  let dir : Directory :=
    { memory := fun handle => rows.lookup handle
      metahandles_index := (rows.map fst).foldl (KeyedIndex.collect id fun _ => true) []
      persisted_info := info
      next_metahandle := max_metahandle + 1 }
  have metahandles : KeyedIndex.Mirrors id
      (fun handle => (dir.memory handle).isSome = true) dir.metahandles_index := by
    have mirrors := KeyedIndex.mirrors_collect id (fun _ => true) loadable.handles
      fun _ _ _ _ _ _ same => same
    refine mirrors.congr (fun _ _ => rfl) ?_
    intro ptr
    rw [isSome_lookup_iff]
    exact and_iff_left rfl
  have sameRow : ∀ first second left right,
      dir.memory first = some left -> dir.memory second = some right ->
      left.id = right.id -> first = second := by
    intro first second left right isLeft isRight same
    have sameRow := inj_on_of_nodup_map loadable.ids
      (mem_rows_of_lookup isLeft) (mem_rows_of_lookup isRight) same
    exact congrArg fst sameRow
  have ids : Indexed idIndexer dir.memory
      (dir.metahandles_index.foldl (dir.initializeIndexEntry idIndexer) []) := by
    apply indexed_foldl_initializeIndexEntry metahandles
    intro first second left right isLeft isRight _ _ same
    exact sameRow first second left right isLeft isRight same
  have children : Indexed parentIdAndHandleIndexer dir.memory (dir.metahandles_index.foldl
        (dir.initializeIndexEntry parentIdAndHandleIndexer) []) := by
    apply indexed_foldl_initializeIndexEntry metahandles
    intro first second left right isLeft isRight _ _ same
    apply sameRow first second left right isLeft isRight
    simp only [parentIdAndHandleIndexer, EmbeddingLike.apply_eq_iff_eq, Prod.mk.injEq] at same
    exact same.2.2
  have client_tags : Indexed clientTagIndexer dir.memory (dir.metahandles_index.foldl
        (dir.initializeIndexEntry clientTagIndexer) []) := by
    apply indexed_foldl_initializeIndexEntry metahandles
    intro first second left right isLeft isRight includesLeft includesRight same
    have nodup := loadable.client_tags
    rw [List.filter_map] at nodup
    have sameRow := inj_on_of_nodup_map nodup
      (mem_filter.mpr ⟨mem_rows_of_lookup isLeft, includesLeft⟩)
      (mem_filter.mpr ⟨mem_rows_of_lookup isRight, includesRight⟩) same
    exact congrArg fst sameRow
  exact ⟨metahandles, ids, children, client_tags,
    flagged_toFinset metahandles, flagged_toFinset metahandles⟩

end Loading

namespace Directory

variable {dir next : Directory}

@[simp] theorem persisted_info_markDirty (dir : Directory) :
    (dir.markDirty handle).persisted_info = dir.persisted_info := by
  unfold markDirty
  split <;> rfl

theorem persisted_info_vacuum (vacuumed : dir.vacuum handle = some next) :
    next.persisted_info = dir.persisted_info := by
  unfold vacuum at vacuumed
  split at vacuumed
  · cases vacuumed
    rfl
  · split at vacuumed
    · split at vacuumed
      · cases vacuumed
      · cases vacuumed
        rfl
    · cases vacuumed
      rfl

theorem persisted_info_handleSaveChangesFailure (dir : Directory) :
    (dir.handleSaveChangesFailure snap).persisted_info = dir.persisted_info := by
  have marked : ∀ (handles : List Handle) (dir : Directory),
      (handles.foldl markDirty dir).persisted_info = dir.persisted_info := by
    intro handles
    induction handles with
    | nil => exact fun _ => rfl
    | cons handle handles ih =>
      intro dir
      rw [foldl_cons, ih, persisted_info_markDirty]
  exact marked _ _

theorem next_id_purgeEntry (purged : purgeEntry types dir handle = some next) :
    next.persisted_info.next_id <= dir.persisted_info.next_id := by
  obtain ⟨entry, -, purged⟩ := bind_eq_some_iff.mp purged
  split at purged
  · obtain ⟨unlinked, isUnlinked, purged⟩ := bind_eq_some_iff.mp purged
    cases purged
    exact (Touched.edits (edits_unlinkEntryFromOrder isUnlinked)).ids
  · cases purged
    exact le_refl _

theorem next_id_resetTypes (types : List ModelType) :
    (types.foldl resetType dir).persisted_info.next_id = dir.persisted_info.next_id := by
  induction types generalizing dir with
  | nil => rfl
  | cons type types ih =>
    rw [foldl_cons, ih]
    unfold resetType setInitialSyncEndedForType
    split <;> rfl

theorem next_id_purgeEntriesWithTypeIn (purged : dir.purgeEntriesWithTypeIn types = some next)
    (negative : dir.persisted_info.next_id < 0) :
    next.persisted_info.next_id < 0 := by
  unfold purgeEntriesWithTypeIn at purged
  split at purged
  · cases purged
    exact negative
  · obtain ⟨dropped, isDropped, purged⟩ := bind_eq_some_iff.mp purged
    cases purged
    rw [next_id_resetTypes]
    have preserved : ∀ {dir handle next}, dir.persisted_info.next_id < 0 ->
        purgeEntry types dir handle = some next ->
        next.persisted_info.next_id < 0 := fun negative purges =>
      lt_of_le_of_lt (next_id_purgeEntry purges) negative
    have kept := property_of_foldlM preserved isDropped negative
    exact kept

end Directory

namespace Session

variable {session next : Session}

/-- What every step keeps. -/
def Kept (session : Session) : Prop :=
  Mirrored session.directory ∧ session.directory.persisted_info.next_id < 0

theorem Kept.perform {dir next : Directory} (kept : Mirrored dir ∧ dir.persisted_info.next_id < 0)
    (ran : dir.perform op = some (next, ok)) :
    Mirrored next ∧ next.persisted_info.next_id < 0 := by
  obtain ⟨mirrored, negative⟩ := kept
  by_cases isPurge : ∃ types, op = .purgeEntriesWithTypeIn types
  · obtain ⟨types, rfl⟩ := isPurge
    obtain ⟨purged, isPurged, same⟩ := map_eq_some_iff.mp ran
    cases same
    exact ⟨mirrored.purgeEntriesWithTypeIn isPurged,
      Directory.next_id_purgeEntriesWithTypeIn isPurged negative⟩
  · have edits := Directory.edits_perform negative (not_exists.mp isPurge) ran
    exact ⟨mirrored.edits edits, lt_of_le_of_lt (Touched.edits edits).ids negative⟩

theorem Kept.step (kept : session.Kept) (stepped : session.step event = some next) : next.Kept := by
  cases event with
  | transaction op =>
    obtain ⟨ran, isPerformed, stepped⟩ := bind_eq_some_iff.mp stepped
    cases stepped
    exact Kept.perform kept isPerformed
  | takeSnapshot =>
    unfold Session.step at stepped
    dsimp only at stepped
    split at stepped
    · cases stepped
      exact ⟨kept.1.takeSnapshotForSaveChanges, kept.2⟩
    · cases stepped
  | answer success =>
    unfold Session.step at stepped
    dsimp only at stepped
    split at stepped
    · cases stepped
      exact kept
    · cases stepped
  | finish =>
    unfold Session.step at stepped
    dsimp only at stepped
    split at stepped
    next snap isSaving =>
      obtain ⟨vacuumed, isVacuumed, stepped⟩ := bind_eq_some_iff.mp stepped
      cases stepped
      have preserved : ∀ {dir handle next}, Mirrored dir ∧ dir.persisted_info.next_id < 0 ->
          Directory.vacuum dir handle = some next ->
          Mirrored next ∧ next.persisted_info.next_id < 0 := fun kept vacuums =>
        ⟨kept.1.vacuum vacuums, Directory.persisted_info_vacuum vacuums ▸ kept.2⟩
      have keptAll := property_of_foldlM preserved isVacuumed kept
      exact keptAll
    next snap isSaving =>
      cases stepped
      refine ⟨kept.1.handleSaveChangesFailure snap, ?_⟩
      rw [Directory.persisted_info_handleSaveChangesFailure]
      exact kept.2
    · cases stepped

/-- The indices mirror the entries, and a setter that refuses a value changes
nothing. -/
structure Consistent (session : Session) : Prop where
  mirrored : Mirrored session.directory
  refusedId : ∀ handle field value next,
    session.directory.putId handle field value = some (next, false) ->
    next = session.directory
  refusedString : ∀ handle field value next,
    session.directory.putString handle field value = some (next, false) ->
    next = session.directory

theorem eq_of_putId_refused {dir next : Directory}
    (refused : dir.putId handle field value = some (next, false)) :
    next = dir := by
  obtain ⟨entry, -, refused⟩ := bind_eq_some_iff.mp refused
  split at refused
  · cases refused
  · cases field with
    | ID =>
      obtain ⟨reindexed, -, refused⟩ := bind_eq_some_iff.mp refused
      split at refused
      · cases refused
      · cases refused
        rfl
    | PARENT_ID =>
      obtain ⟨middle, -, refused⟩ := bind_eq_some_iff.mp refused
      obtain ⟨placed, -, refused⟩ := bind_eq_some_iff.mp refused
      cases refused
    | SERVER_PARENT_ID | PREV_ID | NEXT_ID => cases refused

theorem eq_of_putString_refused {dir next : Directory}
    (refused : dir.putString handle field value = some (next, false)) :
    next = dir := by
  unfold Directory.putString Directory.putUniqueClientTag at refused
  split at refused
  · obtain ⟨entry, -, refused⟩ := bind_eq_some_iff.mp refused
    split at refused
    · cases refused
    · split at refused
      · cases refused
        rfl
      · obtain ⟨reindexed, -, refused⟩ := bind_eq_some_iff.mp refused
        cases refused
  · obtain ⟨entry, -, refused⟩ := bind_eq_some_iff.mp refused
    split at refused
    · cases refused
    · cases refused

/-- In every run from a loaded directory, the indices mirror the entries. -/
theorem holding_consistent {rows : List (Handle × EntryKernel)} {info : PersistedKernelInfo}
    {max_metahandle : Handle} (loadable : Loadable rows info max_metahandle) (events : List Event) :
    Holding Session.step Consistent (opened rows info max_metahandle) events := by
  have start : (opened rows info max_metahandle).Kept :=
    ⟨mirrored_openImpl loadable, loadable.negative⟩
  refine holding_of_kept ?_ (fun kept stepped => Kept.step kept stepped) start
  intro session kept
  exact ⟨kept.1, fun _ _ _ _ => eq_of_putId_refused, fun _ _ _ _ => eq_of_putString_refused⟩

/-- A directory with the root alone. -/
def rootRows : List (Handle × EntryKernel) := [(1, ({} : EntryKernel).putBit .IS_DIR true)]

theorem loadable_rootRows : Loadable rootRows { next_id := -2 } 1 where
  handles := by simp [rootRows]
  bounded := by simp [rootRows]
  stored := by simp [rootRows, EntryKernel.persistent, EntryKernel.putBit]
  ids := by simp [rootRows]
  client_tags := by simp [rootRows, EntryKernel.putBit]
  negative := by simp

theorem holding_consistent_folder :
    Holding Session.step Consistent (opened rootRows { next_id := -2 } 1)
      [.transaction (.create .root "folder" 5),
        .transaction (.putString 2 .UNIQUE_CLIENT_TAG "tag"),
        .takeSnapshot, .answer true, .finish,
        .transaction (.putId 2 .ID (.server "s")),
        .transaction (.putIsDel 2 true)] :=
  holding_consistent loadable_rootRows _

end Session

end

end Chromium.Syncable
