import Chromium.Syncable.Edits

/-!
# The indices of the sync directory

The indices mirror the entries in memory. An edit of an entry takes the entry
out of the indices that depend on it, and puts it back.
-/

namespace Chromium.Syncable

open List Option Function Prod

section

open Library
open Sync (Id ModelType)

abbrev Memory := Handle -> Option EntryKernel

/-- An index has the entries that it includes, in the order of their keys. -/
def Indexed [LinearOrder κ] (indexer : Indexer κ) (memory : Memory) (index : List Handle) : Prop :=
  KeyedIndex.Mirrors (fun handle => indexer.key ((memory handle).getD {}))
    (fun handle => ∃ entry, memory handle = some entry ∧ indexer.shouldInclude entry = true) index

/-- A set of metahandles has those of the entries with a bit. -/
def Flagged (field : IndexedBitField) (memory : Memory) (set : MetahandleSet) : Prop :=
  ∀ handle, handle ∈ set ↔
    ∃ entry, memory handle = some entry ∧ entry.indexed_bit_fields field = true

/-- The indices and the sets of metahandles mirror the entries. -/
structure Mirrored (dir : Directory) : Prop where
  metahandles : KeyedIndex.Mirrors id (fun handle => (dir.memory handle).isSome = true)
      dir.metahandles_index
  ids : Indexed idIndexer dir.memory dir.ids_index
  children : Indexed parentIdAndHandleIndexer dir.memory dir.parent_id_child_index
  client_tags : Indexed clientTagIndexer dir.memory dir.client_tag_index
  unsynced : Flagged .IS_UNSYNCED dir.memory dir.unsynced_metahandles
  unapplied : Flagged .IS_UNAPPLIED_UPDATE dir.memory dir.unapplied_update_metahandles

section Indexer

variable [LinearOrder κ] {indexer : Indexer κ} {memory next : Memory}
  {change : EntryKernel -> EntryKernel}

/-- An index sees the keys of its entries only. -/
theorem Indexed.congr (indexed : Indexed indexer memory i) (alike : ∀ handle,
      (next handle).map (fun entry => (indexer.key entry, indexer.shouldInclude entry)) =
        (memory handle).map fun entry => (indexer.key entry, indexer.shouldInclude entry)) :
    Indexed indexer next i := by
  refine KeyedIndex.Mirrors.congr indexed ?_ ?_
  · rintro ptr ⟨entry, isEntry, -⟩
    have same := alike ptr
    rw [isEntry] at same
    obtain ⟨other, isOther, same⟩ := map_eq_some_iff.mp same
    rw [isEntry, isOther]
    exact congrArg fst same
  · intro ptr
    have same := alike ptr
    constructor
    · rintro ⟨entry, isEntry, included⟩
      rw [isEntry] at same
      obtain ⟨other, isOther, same⟩ := map_eq_some_iff.mp same
      exact ⟨other, isOther, (congrArg snd same).trans included⟩
    · rintro ⟨entry, isEntry, included⟩
      rw [isEntry] at same
      obtain ⟨other, isOther, same⟩ := map_eq_some_iff.mp same.symm
      exact ⟨other, isOther, (congrArg snd same).trans included⟩

/-- What a change of an entry keeps is kept in the memory. -/
theorem map_update {view : EntryKernel -> β} (kept : ∀ entry, view (change entry) = view entry)
    (ptr : Handle) :
    ((Function.update memory handle ((memory handle).map change)) ptr).map view =
      (memory ptr).map view := by
  by_cases same : ptr = handle
  · subst same
    rw [update_self, Option.map_map]
    congr 1
    exact funext kept
  · rw [update_of_ne same]

theorem Indexed.update (indexed : Indexed indexer memory i)
    (keepsKey : ∀ entry, indexer.key (change entry) = indexer.key entry)
    (keepsInclusion : ∀ entry, indexer.shouldInclude (change entry) = indexer.shouldInclude entry) :
    Indexed indexer (Function.update memory handle ((memory handle).map change)) i := by
  apply indexed.congr
  apply map_update
  intro entry
  rw [keepsKey, keepsInclusion]

/-- What an index has after an entry was taken out of it. -/
theorem mirrors_of_removed {dir : Directory} (indexed : Indexed indexer dir.memory index)
    (removed : dir.removed indexer handle index = some result) :
    KeyedIndex.Mirrors (dir.keyOf indexer)
      (fun ptr => ptr ≠ handle ∧ ∃ entry, dir.memory ptr = some entry ∧
        indexer.shouldInclude entry = true) result := by
  unfold Directory.removed at removed
  split at removed
  · cases removed
  next entry isEntry =>
    split at removed
    next included =>
      obtain ⟨erased, isErased, mirrors⟩ :=
        KeyedIndex.Mirrors.erase indexed ⟨entry, isEntry, included⟩
      have same : erased = result := some.inj (isErased.symm.trans removed)
      subst same
      refine mirrors.congr (fun _ _ => rfl) ?_
      exact fun ptr => and_comm
    next excluded =>
      cases removed
      refine KeyedIndex.Mirrors.congr indexed (fun _ _ => rfl) ?_
      intro ptr
      refine ⟨?_, And.right⟩
      rintro ⟨other, isOther, included⟩
      refine ⟨?_, other, isOther, included⟩
      rintro rfl
      rw [isEntry] at isOther
      cases isOther
      exact excluded included

/-- An entry is put back under its new key. -/
theorem Indexed.reindexed {dir : Directory} (indexed : Indexed indexer dir.memory index)
    (isRemoved : dir.removed indexer handle index = some removed)
    (isRestored : (dir.modify handle change).restored indexer handle removed = some result) :
    Indexed indexer (dir.modify handle change).memory result := by
  have mirrors := mirrors_of_removed indexed isRemoved
  -- The keys of the other entries are as they were.
  have others : KeyedIndex.Mirrors ((dir.modify handle change).keyOf indexer)
      (fun ptr => ptr ≠ handle ∧ ∃ entry, (dir.modify handle change).memory ptr = some entry ∧
          indexer.shouldInclude entry = true) removed := by
    have elsewhere : ∀ ptr, ptr ≠ handle ->
        (dir.modify handle change).memory ptr = dir.memory ptr :=
      fun ptr ne => update_of_ne ne _ _
    refine mirrors.congr ?_ ?_
    · rintro ptr ⟨ne, -⟩
      unfold Directory.keyOf
      rw [elsewhere ptr ne]
    · intro ptr
      refine and_congr_right fun ne => ?_
      rw [elsewhere ptr ne]
  unfold Directory.restored at isRestored
  split at isRestored
  · cases isRestored
  next entry isEntry =>
    split at isRestored
    next included =>
      refine (others.insert isRestored).congr (fun _ _ => rfl) ?_
      intro ptr
      constructor
      · rintro (rfl | ⟨-, isIncluded⟩)
        · exact ⟨entry, isEntry, included⟩
        · exact isIncluded
      · intro isIncluded
        exact or_iff_not_imp_left.mpr fun ne => ⟨ne, isIncluded⟩
    next excluded =>
      cases isRestored
      refine others.congr (fun _ _ => rfl) ?_
      intro ptr
      refine ⟨And.right, ?_⟩
      rintro ⟨other, isOther, included⟩
      refine ⟨?_, other, isOther, included⟩
      rintro rfl
      rw [isEntry] at isOther
      cases isOther
      exact excluded included

section

variable (indexed : Indexed indexer memory index)
include indexed

/-- A new entry that an index includes is inserted. -/
theorem Indexed.inserted (fresh : memory handle = none)
    (included : indexer.shouldInclude entry = true)
    (isInserted : KeyedIndex.insert (fun ptr => indexer.key
        (((Function.update memory handle (some entry)) ptr).getD {}))
      handle index = some result) :
    Indexed indexer (Function.update memory handle (some entry)) result := by
  have others : KeyedIndex.Mirrors (fun ptr => indexer.key
        (((Function.update memory handle (some entry)) ptr).getD {}))
      (fun ptr => ∃ entry, memory ptr = some entry ∧ indexer.shouldInclude entry = true) index := by
    refine KeyedIndex.Mirrors.congr indexed ?_ fun _ => Iff.rfl
    rintro ptr ⟨other, isOther, -⟩
    have ne : ptr ≠ handle := by
      rintro rfl
      rw [fresh] at isOther
      cases isOther
    rw [Function.update_of_ne ne]
  refine (others.insert isInserted).congr (fun _ _ => rfl) ?_
  intro ptr
  by_cases same : ptr = handle
  · subst same
    rw [Function.update_self]
    exact iff_of_true (.inl rfl) ⟨entry, rfl, included⟩
  · rw [Function.update_of_ne same]
    exact or_iff_right same

/-- A new entry that an index does not include changes nothing in it. -/
theorem Indexed.excluded (fresh : memory handle = none)
    (excluded : indexer.shouldInclude entry = false) :
    Indexed indexer (Function.update memory handle (some entry)) index := by
  have elsewhere : ∀ ptr, (∃ other, memory ptr = some other ∧ indexer.shouldInclude other = true) ->
      ptr ≠ handle := by
    rintro ptr ⟨other, isOther, -⟩ rfl
    rw [fresh] at isOther
    cases isOther
  refine KeyedIndex.Mirrors.congr indexed ?_ ?_
  · intro ptr included
    rw [update_of_ne (elsewhere ptr included)]
  · intro ptr
    by_cases same : ptr = handle
    · subst same
      rw [update_self, fresh]
      constructor
      · rintro ⟨other, isOther, -⟩
        cases isOther
      · rintro ⟨other, isOther, included⟩
        cases isOther
        rw [excluded] at included
        cases included
    · rw [update_of_ne same]

/-- An entry is dropped, with what an index has under its key. -/
theorem Indexed.dropped (isEntry : memory handle = some entry)
    (apart : ∀ ptr other, ptr ≠ handle -> memory ptr = some other ->
      indexer.shouldInclude other = true -> indexer.key other ≠ indexer.key entry) :
    Indexed indexer (Function.update memory handle none)
      ((KeyedIndex.erase (fun ptr => indexer.key ((memory ptr).getD {}))
        handle index).getD index) := by
  have alike : ∀ ptr, ((∃ other, memory ptr = some other ∧ indexer.shouldInclude other = true) ∧
        ptr ≠ handle) ↔
      ∃ other, (Function.update memory handle none) ptr = some other ∧
        indexer.shouldInclude other = true := by
    intro ptr
    by_cases same : ptr = handle
    · subst same
      rw [Function.update_self]
      refine iff_of_false (fun both => both.2 rfl) ?_
      rintro ⟨other, isOther, -⟩
      cases isOther
    · rw [Function.update_of_ne same]
      exact and_iff_left same
  have sameKey : ∀ ptr, ptr ≠ handle ->
      indexer.key (((Function.update memory handle none) ptr).getD {}) =
        indexer.key ((memory ptr).getD {}) := by
    intro ptr ne
    rw [Function.update_of_ne ne]
  by_cases included : indexer.shouldInclude entry = true
  · obtain ⟨erased, isErased, mirrors⟩ :=
      KeyedIndex.Mirrors.erase indexed ⟨entry, isEntry, included⟩
    rw [isErased]
    exact mirrors.congr (fun ptr both => sameKey ptr both.2) alike
  · -- No other entry of the index has the key, so that nothing is erased.
    have elsewhere : ∀ ptr,
        (∃ other, memory ptr = some other ∧ indexer.shouldInclude other = true) ->
        ptr ≠ handle := by
      rintro ptr ⟨other, isOther, isIncluded⟩ rfl
      rw [isEntry] at isOther
      cases isOther
      exact included isIncluded
    have unused : KeyedIndex.erase
        (fun ptr => indexer.key ((memory ptr).getD {})) handle index = none := by
      apply KeyedIndex.erase_of_unused
      intro mem isMem
      have isIncluded := (KeyedIndex.Mirrors.mem_iff indexed mem).mp isMem
      obtain ⟨other, isOther, includesOther⟩ := isIncluded
      have ne := elsewhere mem ⟨other, isOther, includesOther⟩
      rw [isEntry, isOther]
      exact apart mem other ne isOther includesOther
    rw [unused]
    refine KeyedIndex.Mirrors.congr indexed
      (fun ptr isIncluded => sameKey ptr (elsewhere ptr isIncluded)) ?_
    intro ptr
    rw [← alike]
    exact ⟨fun isIncluded => ⟨isIncluded, elsewhere ptr isIncluded⟩, And.left⟩

end

end Indexer

end

/-!
## Edits keep the indices

Every edit of a directory whose indices mirror its entries leaves such a
directory, and so does dropping an entry from the memory and the indices.
-/

section

open Library
open Sync (Id ModelType)

section Flags

variable {field : IndexedBitField} {memory next : Memory} {handle : Handle}
  {entry : EntryKernel} {set written : MetahandleSet}

section

variable (flagged : Flagged field memory set)
include flagged

theorem Flagged.congr
    (alike : ∀ handle, (next handle).map (fun entry => entry.indexed_bit_fields field) =
        (memory handle).map fun entry => entry.indexed_bit_fields field) :
    Flagged field next set := by
  intro handle
  have hasBit (memory : Memory) : (∃ entry, memory handle = some entry ∧
        entry.indexed_bit_fields field = true) ↔
      (memory handle).map (fun entry => entry.indexed_bit_fields field) = some true :=
    map_eq_some_iff.symm
  rw [flagged handle, hasBit, hasBit, alike]

/-- A bit is written together with the set that goes with it. -/
theorem Flagged.changed (isEntry : memory handle = some entry)
    (isChanged : Directory.changedMetahandles handle value set = some written) :
    Flagged field (Function.update memory handle
        ((memory handle).map (·.putIndexedBit field value))) written := by
  intro ptr
  have members : ptr ∈ written ↔ if ptr = handle then value = true else ptr ∈ set := by
    unfold Directory.changedMetahandles at isChanged
    split at isChanged
    next isSet =>
      split at isChanged
      · cases isChanged
      · cases isChanged
        rw [Finset.mem_insert, isSet]
        by_cases same : ptr = handle <;> simp [same]
    next isCleared =>
      split at isChanged
      · cases isChanged
        by_cases same : ptr = handle <;> simp [same, isCleared]
      · cases isChanged
  rw [members]
  by_cases same : ptr = handle
  · subst same
    rw [if_pos rfl, update_self, isEntry]
    simp [EntryKernel.putIndexedBit]
  · rw [if_neg same, update_of_ne same]
    exact flagged ptr

/-- An entry without the bit is added or dropped. -/
theorem Flagged.update_of_clear
    (clearBefore : ∀ entry, memory handle = some entry -> entry.indexed_bit_fields field = false)
    (clearAfter : ∀ entry, val = some entry -> entry.indexed_bit_fields field = false) :
    Flagged field (Function.update memory handle val) set := by
  intro ptr
  rw [flagged ptr]
  by_cases same : ptr = handle
  · subst same
    rw [update_self]
    refine iff_of_false ?_ ?_
    · rintro ⟨entry, isEntry, isSet⟩
      rw [clearBefore entry isEntry] at isSet
      cases isSet
    · rintro ⟨entry, isEntry, isSet⟩
      rw [clearAfter entry isEntry] at isSet
      cases isSet
  · rw [update_of_ne same]

end

end Flags

namespace Mirrored

variable {dir next : Directory}

/-- No change of an entry adds or drops one. -/
theorem metahandles_modify (mirrored : Mirrored dir) (handle : Handle)
    (change : EntryKernel -> EntryKernel) :
    KeyedIndex.Mirrors id (fun ptr => ((dir.modify handle change).memory ptr).isSome = true)
      dir.metahandles_index := by
  refine mirrored.metahandles.congr (fun _ _ => rfl) ?_
  intro ptr
  have both : ((dir.modify handle change).memory ptr).map (fun _ => ()) =
      (dir.memory ptr).map fun _ => () := by
    refine map_update ?_ ptr
    exact fun _ => rfl
  have present := congrArg isSome both
  rw [isSome_map, isSome_map] at present
  rw [present]

variable {change : EntryKernel -> EntryKernel}

section

variable (mirrored : Mirrored dir)
include mirrored

theorem modify (handle : Handle)
    (unindexed : ∀ entry, (change entry).indexedFields = entry.indexedFields) :
    Mirrored (dir.modify handle change) where
  metahandles := mirrored.metahandles_modify handle change
  ids := by
    apply mirrored.ids.update
    · exact fun entry => congrArg IndexedFields.id (unindexed entry)
    · exact fun _ => rfl
  children := by
    apply mirrored.children.update
    · intro entry
      have sameParent := congrArg IndexedFields.parent_id (unindexed entry)
      have samePosition := congrArg IndexedFields.server_position (unindexed entry)
      have sameId := congrArg IndexedFields.id (unindexed entry)
      simp only [EntryKernel.indexedFields] at sameParent samePosition sameId
      simp only [parentIdAndHandleIndexer, sameParent, samePosition, sameId]
    · intro entry
      have sameDel := congrArg IndexedFields.is_del (unindexed entry)
      have sameId := congrArg IndexedFields.id (unindexed entry)
      simp only [EntryKernel.indexedFields] at sameDel sameId
      simp only [parentIdAndHandleIndexer, sameDel, sameId]
  client_tags := by
    have sameTag := fun entry => congrArg IndexedFields.client_tag (unindexed entry)
    simp only [EntryKernel.indexedFields] at sameTag
    apply mirrored.client_tags.update
    · exact sameTag
    · intro entry
      simp only [clientTagIndexer, sameTag]
  unsynced := by
    apply mirrored.unsynced.congr
    apply map_update
    intro entry
    exact congrFun (congrArg IndexedFields.indexed_bits (unindexed entry)) _
  unapplied := by
    apply mirrored.unapplied.congr
    apply map_update
    intro entry
    exact congrFun (congrArg IndexedFields.indexed_bits (unindexed entry)) _

theorem markDirty (handle : Handle) : Mirrored (dir.markDirty handle) := by
  have unindexed : ∀ entry : EntryKernel,
      { entry with dirty_ := true }.indexedFields = entry.indexedFields :=
    fun _ => rfl
  have marked := mirrored.modify handle unindexed
  unfold Directory.markDirty
  split
  · exact mirrored
  next entry isEntry =>
    unfold Directory.modify at marked
    rw [isEntry, map_some] at marked
    exact ⟨marked.metahandles, marked.ids, marked.children,
      marked.client_tags, marked.unsynced, marked.unapplied⟩

theorem write (handle : Handle) (unindexed : Unindexed change) :
    Mirrored (dir.write handle change) :=
  (mirrored.modify handle fun entry => (unindexed entry).1).markDirty handle

theorem reindexChild (childIndexed : ChildIndexed change)
    (reindexed : dir.reindexChild handle change = some next) :
    Mirrored next := by
  obtain ⟨removed, isRemoved, reindexed⟩ := bind_eq_some_iff.mp reindexed
  obtain ⟨restored, isRestored, reindexed⟩ := bind_eq_some_iff.mp reindexed
  cases reindexed
  exact {
    metahandles := mirrored.metahandles_modify _ _
    ids := mirrored.ids.update (fun entry => (childIndexed entry).1) fun _ => rfl
    children := mirrored.children.reindexed isRemoved isRestored
    client_tags := by
      have sameTags := fun entry => (childIndexed entry).2.1
      apply mirrored.client_tags.update
      · exact fun entry => congrFun (sameTags entry) _
      · intro entry
        simp only [clientTagIndexer, sameTags]
    unsynced := by
      apply mirrored.unsynced.congr
      apply map_update
      exact fun entry => congrFun (childIndexed entry).2.2.1 _
    unapplied := by
      apply mirrored.unapplied.congr
      apply map_update
      exact fun entry => congrFun (childIndexed entry).2.2.1 _ }

theorem reindexId (reindexed : dir.reindexId handle new_id = some (next, ok)) :
    Mirrored next := by
  unfold Directory.reindexId at reindexed
  split at reindexed
  · cases reindexed
    exact mirrored
  · obtain ⟨ids, idsRemoved, reindexed⟩ := bind_eq_some_iff.mp reindexed
    obtain ⟨children, childrenRemoved, reindexed⟩ := bind_eq_some_iff.mp reindexed
    obtain ⟨newChildren, childrenRestored, reindexed⟩ := bind_eq_some_iff.mp reindexed
    obtain ⟨newIds, idsRestored, reindexed⟩ := bind_eq_some_iff.mp reindexed
    cases reindexed
    exact {
      metahandles := mirrored.metahandles_modify _ _
      ids := mirrored.ids.reindexed idsRemoved idsRestored
      children := mirrored.children.reindexed childrenRemoved childrenRestored
      client_tags := mirrored.client_tags.update (fun _ => rfl) fun _ => rfl
      unsynced := mirrored.unsynced.congr (map_update fun _ => rfl)
      unapplied := mirrored.unapplied.congr (map_update fun _ => rfl) }

theorem reindexClientTag (reindexed : dir.reindexClientTag handle new_tag = some next) :
    Mirrored next := by
  obtain ⟨removed, isRemoved, reindexed⟩ := bind_eq_some_iff.mp reindexed
  obtain ⟨restored, isRestored, reindexed⟩ := bind_eq_some_iff.mp reindexed
  cases reindexed
  exact {
    metahandles := mirrored.metahandles_modify _ _
    ids := mirrored.ids.update (fun _ => rfl) fun _ => rfl
    children := mirrored.children.update (fun _ => rfl) fun _ => rfl
    client_tags := mirrored.client_tags.reindexed isRemoved isRestored
    unsynced := mirrored.unsynced.congr (map_update fun _ => rfl)
    unapplied := mirrored.unapplied.congr (map_update fun _ => rfl) }

theorem putIndexedBit (put : dir.putIndexedBit handle field value = some next) : Mirrored next := by
  obtain ⟨entry, isEntry, put⟩ := bind_eq_some_iff.mp put
  split at put
  · cases put
    exact mirrored
  · have others (other : IndexedBitField) (ne : other ≠ field) (entry : EntryKernel) :
        (entry.putIndexedBit field value).indexed_bit_fields other =
          entry.indexed_bit_fields other :=
      update_of_ne ne _ _
    cases field with
    | IS_UNSYNCED =>
      obtain ⟨set, isChanged, put⟩ := bind_eq_some_iff.mp put
      cases put
      refine markDirty ?_ handle
      exact {
        metahandles := mirrored.metahandles_modify _ _
        ids := mirrored.ids.update (fun _ => rfl) fun _ => rfl
        children := mirrored.children.update (fun _ => rfl) fun _ => rfl
        client_tags := mirrored.client_tags.update (fun _ => rfl) fun _ => rfl
        unsynced := mirrored.unsynced.changed isEntry isChanged
        unapplied := mirrored.unapplied.congr (map_update (others _ (by simp))) }
    | IS_UNAPPLIED_UPDATE =>
      obtain ⟨set, isChanged, put⟩ := bind_eq_some_iff.mp put
      cases put
      refine markDirty ?_ handle
      exact {
        metahandles := mirrored.metahandles_modify _ _
        ids := mirrored.ids.update (fun _ => rfl) fun _ => rfl
        children := mirrored.children.update (fun _ => rfl) fun _ => rfl
        client_tags := mirrored.client_tags.update (fun _ => rfl) fun _ => rfl
        unsynced := mirrored.unsynced.congr (map_update (others _ (by simp)))
        unapplied := mirrored.unapplied.changed isEntry isChanged }

theorem insertEntry {entry : EntryKernel} (apart : entry.is_del = true ∨ entry.id.isRoot = false)
    (plain : entry.indexed_bit_fields = fun _ => false)
    (inserted : dir.insertEntry handle entry = some next) :
    Mirrored next := by
  obtain ⟨metahandles, metahandlesInserted, inserted⟩ := bind_eq_some_iff.mp inserted
  obtain ⟨children, childrenInserted, inserted⟩ := bind_eq_some_iff.mp inserted
  obtain ⟨ids, idsInserted, inserted⟩ := bind_eq_some_iff.mp inserted
  have fresh : dir.memory handle = none := by
    rw [← not_isSome_iff_eq_none]
    intro isSome
    have mem := (mirrored.metahandles.mem_iff handle).mpr isSome
    exact KeyedIndex.ne_of_insert mirrored.metahandles.ordered metahandlesInserted handle mem rfl
  split at inserted
  · cases inserted
  next noTag =>
    cases inserted
    have clear (field : IndexedBitField) : ∀ other, some entry = some other ->
        other.indexed_bit_fields field = false := by
      intro other same
      cases same
      rw [plain]
    have absent (field : IndexedBitField) : ∀ other,
        dir.memory handle = some other -> other.indexed_bit_fields field = false := by
      rw [fresh]
      intro other impossible
      cases impossible
    exact {
      metahandles := by
        refine (mirrored.metahandles.insert metahandlesInserted).congr (fun _ _ => rfl) ?_
        intro ptr
        by_cases same : ptr = handle
        · simp [same]
        · simp [same]
      ids := mirrored.ids.inserted fresh rfl idsInserted
      children := by
        split at childrenInserted
        next isDel =>
          cases childrenInserted
          exact mirrored.children.excluded fresh (by simp [parentIdAndHandleIndexer, isDel])
        next isLive =>
          refine mirrored.children.inserted fresh ?_ childrenInserted
          have notRoot := apart.resolve_left isLive
          simp [parentIdAndHandleIndexer, isLive, notRoot]
      client_tags := by
        apply mirrored.client_tags.excluded fresh
        simpa [clientTagIndexer] using noTag
      unsynced := mirrored.unsynced.update_of_clear (absent _) (clear _)
      unapplied := mirrored.unapplied.update_of_clear (absent _) (clear _) }

theorem edit (edit : Edit dir next) : Mirrored next := by
  cases edit with
  | write handle unindexed => exact mirrored.write handle unindexed
  | syncing handle value => exact mirrored.modify handle fun _ => rfl
  | child childIndexed reindexed => exact (mirrored.reindexChild childIndexed reindexed).markDirty _
  | id reindexed => exact (mirrored.reindexId reindexed).markDirty _
  | clientTag reindexed => exact (mirrored.reindexClientTag reindexed).markDirty _
  | indexedBit put => exact mirrored.putIndexedBit put
  | insert apart plain inserted =>
    refine insertEntry ?_ ?_ ?_ inserted
    · exact ⟨mirrored.metahandles, mirrored.ids, mirrored.children,
        mirrored.client_tags, mirrored.unsynced, mirrored.unapplied⟩
    · exact apart
    · exact plain
  | info counts =>
    exact ⟨mirrored.metahandles, mirrored.ids, mirrored.children,
      mirrored.client_tags, mirrored.unsynced, mirrored.unapplied⟩

theorem edits (edits : Edits dir next) : Mirrored next := by
  induction edits with
  | refl => exact mirrored
  | tail _ edit ih => exact ih.edit edit

end

end Mirrored

end

end Chromium.Syncable
