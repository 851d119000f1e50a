import Chromium.DiskCache.BlockFiles

/-!
# Creating and deleting entries

An entry is created in a nibble found by the search from a hint, and deleted
from the nibble that holds it. Either way one nibble of the allocation map
changes its type, and the empty counters follow it. Until the lock is
released, a stop leaves the old map or the new one under a raised flag.
-/

namespace Chromium.DiskCache

section

open Library BitVec

section Counters

variable (header : BlockFileHeader)

@[simp] theorem BlockFileHeader.emptyAt_addUpdating :
    (header.addUpdating change).emptyAt index = header.emptyAt index :=
  rfl

@[simp] theorem BlockFileHeader.emptyAt_addEntries :
    (header.addEntries change).emptyAt index = header.emptyAt index :=
  rfl

@[simp] theorem BlockFileHeader.emptyAt_setMap :
    (header.setMap map).emptyAt index = header.emptyAt index :=
  rfl

@[simp] theorem BlockFileHeader.emptyAt_setHint :
    (header.setHint hint value).emptyAt index = header.emptyAt index :=
  rfl

@[simp] theorem BlockFileHeader.emptyAt_setMaxEntries :
    (header.setMaxEntries value).emptyAt index = header.emptyAt index :=
  rfl

@[simp] theorem BlockFileHeader.hintAt_setMaxEntries :
    (header.setMaxEntries value).hintAt index = header.hintAt index :=
  rfl

@[simp] theorem BlockFileHeader.hintAt_setEmpty :
    (header.setEmpty counter value).hintAt index = header.hintAt index :=
  rfl

@[simp] theorem BlockFileHeader.hintAt_addEmpty :
    (header.addEmpty counter change).hintAt index = header.hintAt index :=
  rfl

@[simp] theorem BlockFileHeader.hintAt_addEntries :
    (header.addEntries change).hintAt index = header.hintAt index :=
  rfl

@[simp] theorem BlockFileHeader.hintAt_addUpdating :
    (header.addUpdating change).hintAt index = header.hintAt index :=
  rfl

@[simp] theorem BlockFileHeader.hintAt_setMap :
    (header.setMap map).hintAt index = header.hintAt index :=
  rfl

theorem BlockFileHeader.emptyAt_addEmpty (change : Int) (bound : other < kMaxNumBlocks) :
    (header.addEmpty index change).emptyAt other =
      header.emptyAt other + if other = index then change else 0 := by
  unfold emptyAt addEmpty
  rw [Vector.getElem?_setIfInBounds]
  by_cases same : index = other
  · subst same
    simp [bound, emptyAt]
  · rw [if_neg same, if_neg (Ne.symm same), Int.add_zero]

theorem BlockFileHeader.emptyAt_setEmpty (bound : other < kMaxNumBlocks) :
    (header.setEmpty index value).emptyAt other =
      if other = index then value else header.emptyAt other := by
  unfold emptyAt setEmpty
  rw [Vector.getElem?_setIfInBounds]
  by_cases same : index = other
  · subst same
    simp [bound]
  · rw [if_neg same, if_neg (Ne.symm same)]

theorem BlockFileHeader.hintAt_setHint (bound : other < kMaxNumBlocks) :
    (header.setHint index value).hintAt other =
      if other = index then value else header.hintAt other := by
  unfold hintAt setHint
  rw [Vector.getElem?_setIfInBounds]
  by_cases same : index = other
  · subst same
    simp [bound]
  · rw [if_neg same, if_neg (Ne.symm same)]

theorem BlockFileHeader.hintAt_of_le (beyond : kMaxNumBlocks <= index) :
    header.hintAt index = 0 := by
  rw [hintAt, Vector.getElem?_eq_none_iff.mpr beyond]
  rfl

end Counters

section Search

/-- The search stops at a nibble of the type. -/
theorem searchMap_eq_some (hit : searchMap header target remaining current = some (chunk, j))
    (inside : current <= header.max_entries / 32) (enough : remaining <= header.max_entries / 32) :
    chunk < header.max_entries / 32 ∧ j < 8 ∧
      nibbleType header.allocation_map (8 * chunk + j) = target := by
  induction remaining generalizing current with
  | zero => simp [searchMap] at hit
  | succ remaining ih =>
    rw [searchMap] at hit
    have wrapped : (if current = header.max_entries / 32 then 0
        else current) < header.max_entries / 32 := by
      split <;> omega
    generalize (if current = header.max_entries / 32 then 0 else current) = here at hit wrapped
    cases scan : nibbleOfType target (Bitmap.word header.allocation_map here) 0 8 with
    | none =>
      rw [scan] at hit
      exact ih hit (by omega) (by omega)
    | some stop =>
      rw [scan] at hit
      simp only [Option.some.injEq, Prod.mk.injEq] at hit
      obtain ⟨rfl, rfl⟩ := hit
      refine ⟨wrapped, ?_⟩
      apply nibbleOfType_eq_some (j := 0) header.allocation_map
      · rw [Nat.mul_zero, ushiftRight_zero]
        exact scan
      · decide

/-- A search without a result passed no nibble of the type in the chunks it
visited, around the end of the map. -/
theorem searchMap_eq_none (missing : searchMap header target remaining current = none)
    (inside : current <= header.max_entries / 32) (step : Nat)
    (visited : step < remaining) (enough : remaining <= header.max_entries / 32)
    (below : j < 8) :
    nibbleType header.allocation_map
        (8 * (if current + step < header.max_entries / 32 then current + step
          else current + step - header.max_entries / 32) + j) ≠ target := by
  induction remaining generalizing current step with
  | zero => omega
  | succ remaining ih =>
    rw [searchMap] at missing
    have wrapped : (if current = header.max_entries / 32 then 0
        else current) < header.max_entries / 32 := by
      split <;> omega
    have pos : (if current = header.max_entries / 32 then 0 else current) =
          if current < header.max_entries / 32 then current
          else current - header.max_entries / 32 := by
      split <;> split <;> omega
    generalize (if current = header.max_entries / 32 then 0
      else current) = here at missing wrapped pos
    cases scan : nibbleOfType target (Bitmap.word header.allocation_map here) 0 8 with
    | some stop =>
      rw [scan] at missing
      simp at missing
    | none =>
      rw [scan] at missing
      cases step with
      | zero =>
        rw [Nat.add_zero, ← pos]
        apply nibbleOfType_eq_none (j := 0) header.allocation_map
        · rw [Nat.mul_zero, ushiftRight_zero]
          exact scan
        · decide
        · exact Nat.zero_le _
        · omega
      | succ step =>
        have later := ih missing (by omega) step (by omega) (by omega)
        convert later using 3
        split at pos <;> split <;> split <;> omega

/-- The search finds a nibble of a type from every hint, as soon as there is
one. -/
theorem searchMap_isSome (inside : hint <= header.max_entries / 32)
    (present : ∃ i < 8 * (header.max_entries / 32),
      nibbleType header.allocation_map i = target) :
    ∃ chunk j, searchMap header target (header.max_entries / 32) hint = some (chunk, j) := by
  obtain ⟨i, below, isType⟩ := present
  cases search : searchMap header target (header.max_entries / 32) hint with
  | some hit => exact ⟨hit.1, hit.2, rfl⟩
  | none =>
    -- The chunk of the nibble is visited from the hint on, or after the
    -- search went around the end of the map.
    by_cases after : hint <= i / 8
    · have passed := searchMap_eq_none search inside (i / 8 - hint) (by omega) (Nat.le_refl _)
        (j := i % 8) (by omega)
      rw [if_pos (by omega), show 8 * (hint + (i / 8 - hint)) + i % 8 = i by omega]
        at passed
      exact absurd isType passed
    · have passed := searchMap_eq_none search inside
        (i / 8 + header.max_entries / 32 - hint) (by omega)
        (Nat.le_refl _) (j := i % 8) (by omega)
      rw [if_neg (by omega), show 8 * (hint + (i / 8 + header.max_entries / 32 - hint) -
          header.max_entries / 32) + i % 8 = i by omega] at passed
      exact absurd isType passed

end Search

/-- A header after an entry was added to or removed from its map, by which one
nibble changes its type. No counter belongs to the type zero. -/
structure Edited (before : BlockFileHeader) (map : AllocBitmap) (entries : Int) (type newType : Nat)
    (after : BlockFileHeader) : Prop where
  magic : after.magic = before.magic
  version : after.version = before.version
  next_file : after.next_file = before.next_file
  entry_size : after.entry_size = before.entry_size
  max_entries : after.max_entries = before.max_entries
  updating : after.updating = before.updating
  allocation_map : after.allocation_map = map
  num_entries : after.num_entries = before.num_entries + entries
  empty : ∀ index < kMaxNumBlocks, after.emptyAt index + (if type = index + 1 then 1 else 0) =
    before.emptyAt index + if newType = index + 1 then 1 else 0
  hints : ∀ index < kMaxNumBlocks, after.hintAt index = before.hintAt index ∨
      after.hintAt index < before.max_entries / 32

namespace Edited

theorem setMap (before : BlockFileHeader) (map : AllocBitmap) :
    Edited before map 0 0 0 (before.setMap map) where
  magic := rfl
  version := rfl
  next_file := rfl
  entry_size := rfl
  max_entries := rfl
  updating := rfl
  allocation_map := rfl
  num_entries := (Int.add_zero _).symm
  empty := by simp
  hints := fun _ _ => Or.inl rfl

/-- The hints are only moved inside of the map. -/
theorem setHint (edited : Edited before map entries type newType after) (i : Nat)
    (lt : hint < before.max_entries / 32) :
    Edited before map entries type newType (after.setHint i hint) :=
  { edited with
    hints := by
      intro other bound
      rw [BlockFileHeader.hintAt_setHint _ bound]
      split
      · exact Or.inr lt
      · exact edited.hints other bound }

theorem addEntries (edited : Edited before map entries type newType after) (change : Int) :
    Edited before map (entries + change) type newType (after.addEntries change) :=
  { edited with
    num_entries := by
      rw [BlockFileHeader.addEntries_num_entries, edited.num_entries, Int.add_assoc] }

/-- The old type of the nibble is no longer counted. -/
theorem dropType (edited : Edited before map entries 0 0 after) (type : Nat) (pos : 0 < type) :
    Edited before map entries type 0 (after.addEmpty (type - 1) (-1)) :=
  { edited with
    empty := by
      intro i bound
      have same := edited.empty i bound
      rw [BlockFileHeader.emptyAt_addEmpty _ _ bound]
      simp only [show (i = type - 1) = (type = i + 1) by apply propext; omega]
      split <;> omega }

/-- The new type of the nibble is counted. -/
theorem addType (edited : Edited before map entries type 0 after) (newType : Nat)
    (pos : 0 < newType) :
    Edited before map entries type newType (after.addEmpty (newType - 1) 1) :=
  { edited with
    empty := by
      intro i bound
      have same := edited.empty i bound
      rw [BlockFileHeader.emptyAt_addEmpty _ _ bound]
      simp only [show (i = newType - 1) = (newType = i + 1) by apply propext; omega]
      rw [if_neg (show ¬ 0 = i + 1 by omega)] at same
      omega }

/-- A nibble that keeps its type needs no counter. -/
theorem keepType (edited : Edited before map entries 0 0 after) (type : Nat) :
    Edited before map entries type type after :=
  { edited with
    empty := by
      intro i bound
      have same := edited.empty i bound
      omega }

/-- Releasing the lock restores the flag. -/
theorem unlock (edited : Edited (before.addUpdating 1) map entries type newType after) :
    Edited before map entries type newType (after.addUpdating (-1)) :=
  { edited with
    updating := by
      have raised := edited.updating
      simp only [BlockFileHeader.addUpdating_updating] at raised ⊢
      omega }

end Edited

/-- What a stop leaves while the flag is raised: the map is the one before or
after the operation, and the file could not grow. -/
structure Underway (before : BlockFile) (map : AllocBitmap) (left : BlockFile) : Prop where
  length : left.length = before.length
  magic : left.header.magic = before.header.magic
  version : left.header.version = before.header.version
  entry_size : left.header.entry_size = before.header.entry_size
  max_entries : left.header.max_entries = before.header.max_entries
  updating : left.header.updating = before.header.updating + 1
  allocation_map : left.header.allocation_map = before.header.allocation_map ∨
    left.header.allocation_map = map

/-- What the operations on the map leave when they are stopped or end: the
flag is raised, or the edit is complete. -/
def EditedOrUnderway (before : BlockFile) (map : AllocBitmap) (entries : Int) (type newType : Nat)
    (left : BlockFile) : Prop :=
  Underway before map left ∨ left.length = before.length ∧
      Edited before.header map entries type newType left.header

section Steps

theorem underway_lock : Underway ⟨header, len⟩ map ⟨header.addUpdating 1, len⟩ :=
  ⟨rfl, rfl, rfl, rfl, rfl, rfl, Or.inl rfl⟩

/-- An edit of a locked header is stopped under the raised flag. -/
theorem Edited.underway (edited : Edited (header.addUpdating 1) map entries type newType after) :
    Underway ⟨header, len⟩ map ⟨after, len⟩ :=
  ⟨rfl, edited.magic, edited.version, edited.entry_size, edited.max_entries,
    edited.updating, Or.inr edited.allocation_map⟩

theorem satisfies_put (written : change header = after)
    (safe : crash ⟨after, len⟩) (inv : post () ⟨after, len⟩) :
    Logged.Satisfies (put change) ⟨header, len⟩ crash post := by
  subst written
  exact .persist safe inv

end Steps

/-- Creating an entry takes blocks of a nibble of the target type. -/
theorem createMapBlock_satisfies (file : BlockFile)
    (hit : searchMap file.header target (file.header.max_entries / 32)
      (file.header.hintAt (target - 1)) = some (cur, j))
    (lt : cur < file.header.max_entries / 32)
    (bound : target <= kMaxNumBlocks) (pos : 0 < size)
    (fits : size <= target) :
    let map := file.header.allocation_map.setIfInBounds cur
      (Bitmap.word file.header.allocation_map cur ||| Bitmap.mask 32 size (j * 4 + 4 - target))
    Logged.Satisfies (createMapBlock target size) file
      (EditedOrUnderway file map 1 target (target - size))
      fun val left =>
        val = some (cur * 32 + (j * 4 + 4 - target)) ∧ left.length = file.length ∧
          Edited file.header map 1 target (target - size) left.header := by
  obtain ⟨header, len⟩ := file
  intro map
  have four : target <= 4 := bound
  have ok : ¬ (target = 0 ∨ kMaxNumBlocks < target ∨ size = 0 ∨ kMaxNumBlocks < size) := by
    simp only [kMaxNumBlocks]
    omega
  have taken := Edited.setMap (header.addUpdating 1) map
  have hinted := taken.setHint (target - 1) lt
  have dropped := hinted.dropType target (by omega)
  have added := dropped.addEntries 1
  unfold createMapBlock
  rw [if_neg ok]
  refine .bind (.read ?_)
  rw [hit]
  refine .bind (satisfies_put rfl (Or.inl underway_lock) ?_)
  refine .bind (satisfies_put rfl (Or.inl taken.underway) ?_)
  refine .bind (satisfies_put rfl (Or.inl hinted.underway) ?_)
  refine .bind (satisfies_put rfl (Or.inl dropped.underway) ?_)
  refine .bind (satisfies_put rfl (Or.inl added.underway) ?_)
  dsimp only
  by_cases same : target = size
  · rw [if_neg (not_not_intro same)]
    have ended := added.unlock
    rw [show (0 : Nat) = target - size by omega] at ended
    exact .bind (satisfies_put rfl (Or.inr ⟨rfl, ended⟩) (.pure ⟨rfl, rfl, ended⟩))
  · rw [if_pos same]
    have counted := added.addType (target - size) (by omega)
    have ended := counted.unlock
    refine .bind (satisfies_put rfl (Or.inl counted.underway) ?_)
    exact .bind (satisfies_put rfl (Or.inr ⟨rfl, ended⟩) (.pure ⟨rfl, rfl, ended⟩))

/-- The nibble computed before an entry is deleted is the one left by it. -/
theorem getMapBlockType_mapBlockOf (map : AllocBitmap) (lt : index / 32 < kMaxBlocks / 32)
    (fits : index % 4 + size <= 4) :
    getMapBlockType (mapBlockOf map index &&& ~~~Bitmap.mask 8 size (index % 4)) =
      nibbleType (setByteMap map (index / 8)
        (byteMap map (index / 8) &&& ~~~Bitmap.mask 8 size (index % 8))) (index / 4) := by
  rw [nibbleType_eq]
  apply getMapBlockType_eq_of_setWidth
  apply eq_of_getLsbD_eq
  intro pos below
  rw [getLsbD_setWidth, getLsbD_setWidth, getLsbD_setWidth,
    getLsbD_and, getLsbD_not, getLsbD_mapBlockOf _ _ below,
    getLsbD_nibble _ below, bit_free map lt (by omega) (by omega),
    Bitmap.getLsbD_mask (by omega), decide_eq_true below,
    decide_eq_true (show pos < 8 by omega)]
  have same : InRange index size (4 * (index / 4) + pos) ↔
      pos < 8 ∧ index % 4 <= pos ∧ pos < index % 4 + size := by
    simp only [InRange]
    omega
  simp [same]

/-- Deleting an entry frees its blocks. -/
theorem deleteMapBlock_satisfies (file : BlockFile) (lt : index / 32 < kMaxBlocks / 32)
    (positive : 0 < size) (fits : index % 4 + size <= 4)
    (used : ∀ pos, InRange index size pos -> Bitmap.bit file.header.allocation_map pos = true) :
    let map := setByteMap file.header.allocation_map (index / 8)
      (byteMap file.header.allocation_map (index / 8) &&& ~~~Bitmap.mask 8 size (index % 8))
    let type := nibbleType file.header.allocation_map (index / 4)
    let newType := nibbleType map (index / 4)
    Logged.Satisfies (deleteMapBlock index size) file (EditedOrUnderway file map (-1) type newType)
      fun _ left => left.length = file.length ∧
        Edited file.header map (-1) type newType left.header := by
  obtain ⟨header, len⟩ := file
  intro map type newType
  have ok : ¬ kMaxNumBlocks < size := by
    simp only [kMaxNumBlocks]
    omega
  have freed := bit_free header.allocation_map lt (show size < 8 by omega) (by omega)
  have isNewType := getMapBlockType_mapBlockOf header.allocation_map lt fits
  have atEnd := and_endMask_eq_zero_iff (mapBlockOf header.allocation_map index)
    (show 4 - size - index % 4 <= 4 by omega)
  have taken := Edited.setMap (header.addUpdating 1) map
  unfold deleteMapBlock
  rw [if_neg ok]
  refine .bind (.read ?_)
  dsimp only
  rw [isNewType]
  refine .bind (satisfies_put rfl (Or.inl underway_lock) ?_)
  refine .bind (satisfies_put rfl (Or.inl taken.underway) ?_)
  by_cases last : mapBlockOf header.allocation_map index &&&
      ((0xf#8 <<< (4 - (4 - size - index % 4))) &&& 0xf#8) = 0#8
  · rw [if_pos last]
    obtain ⟨isType, grown⟩ := nibbleType_of_free_last freed fits used positive (by
        intro pos below after
        rw [← getLsbD_mapBlockOf _ _ below]
        exact atEnd.mp last pos below after)
    change type = _ at isType
    change 0 < newType at grown
    by_cases none : 4 - size - index % 4 = 0
    · rw [if_neg (not_not_intro none)]
      have counted := taken.addType newType grown
      have removed := counted.addEntries (-1)
      have ended := removed.unlock
      rw [Int.zero_add, show (0 : Nat) = type by omega] at ended
      refine .bind (satisfies_put rfl (Or.inl counted.underway) ?_)
      refine .bind (satisfies_put rfl (Or.inl removed.underway) ?_)
      exact satisfies_put rfl (Or.inr ⟨rfl, ended⟩) ⟨rfl, ended⟩
    · rw [if_pos none, isType]
      have dropped := taken.dropType (4 - size - index % 4) (by omega)
      have counted := dropped.addType newType grown
      have removed := counted.addEntries (-1)
      have ended := removed.unlock
      rw [Int.zero_add] at ended
      refine .bind (satisfies_put rfl (Or.inl dropped.underway) ?_)
      refine .bind (satisfies_put rfl (Or.inl counted.underway) ?_)
      refine .bind (satisfies_put rfl (Or.inl removed.underway) ?_)
      exact satisfies_put rfl (Or.inr ⟨rfl, ended⟩) ⟨rfl, ended⟩
  · rw [if_neg last]
    have same : newType = type := by
      apply nibbleType_of_free_inner freed fits
      rw [atEnd] at last
      push Not at last
      obtain ⟨pos, below, after, isUsed⟩ := last
      refine ⟨pos, below, after, ?_⟩
      rw [getLsbD_mapBlockOf _ _ below] at isUsed
      simpa using isUsed
    have removed := (taken.addEntries (-1)).keepType type
    have ended := removed.unlock
    rw [Int.zero_add] at ended
    rw [same]
    refine .bind (satisfies_put rfl (Or.inl removed.underway) ?_)
    exact satisfies_put rfl (Or.inr ⟨rfl, ended⟩) ⟨rfl, ended⟩

end

/-!
## Repairing a header

The repair of a header counts the nibbles of the allocation map anew, and
derives the number of blocks from the length of the file when the process
stopped while it was growing the file.
-/

section

open Library

/-- A file in which only the empty counters and the hints were changed. -/
def Recounted (before left : BlockFile) : Prop :=
  ∃ empty hints, left = ⟨{ before.header with empty := empty, hints := hints }, before.length⟩

/-- The empty counters count the types of the nibbles below a limit. -/
def CountsBelow (limit : Nat) (header : BlockFileHeader) : Prop :=
  ∀ index < kMaxNumBlocks, header.emptyAt index =
    tally (nibbleType header.allocation_map) (index + 1) limit

section

variable (file : BlockFile)

theorem Recounted.refl : Recounted file file := ⟨_, _, rfl⟩

/-- Counting the remaining nibbles of a chunk extends the count to its end. -/
theorem countChunk_satisfies (file : BlockFile) (same : Recounted before file) (chunk j : Nat)
    (inside : j + remaining = 8) (counts : CountsBelow (8 * chunk + j) file.header) :
    Logged.Satisfies (countChunk (Bitmap.word before.header.allocation_map chunk >>> (4 * j))
        remaining) file (Recounted before) fun _ left =>
        Recounted before left ∧ CountsBelow (8 * chunk + 8) left.header ∧
          left.header.hints = file.header.hints := by
  induction remaining generalizing j file with
  | zero =>
    refine .pure ⟨same, ?_, rfl⟩
    rwa [show j = 8 by omega] at counts
  | succ remaining ih =>
    obtain ⟨empty, hints, rfl⟩ := same
    have next : Bitmap.word before.header.allocation_map chunk >>> (4 * j) >>> 4 =
        Bitmap.word before.header.allocation_map chunk >>> (4 * (j + 1)) := by
      rw [← BitVec.shiftRight_add, show 4 * j + 4 = 4 * (j + 1) by omega]
    have isType : getMapBlockType ((Bitmap.word before.header.allocation_map chunk >>>
          (4 * j)).setWidth 8) =
        nibbleType before.header.allocation_map (8 * chunk + j) := by
      rw [nibbleType, show (8 * chunk + j) / 8 = chunk by omega,
        show (8 * chunk + j) % 8 = j by omega]
    unfold countChunk
    rw [next, isType]
    dsimp only
    by_cases zero : nibbleType before.header.allocation_map (8 * chunk + j) = 0
    · rw [if_neg (not_not_intro zero)]
      apply ih _ ⟨empty, hints, rfl⟩ (j + 1) (by omega)
      intro i below
      rw [← Nat.add_assoc, tally_succ, if_neg (by simp only [zero]; omega)]
      exact counts i below
    · rw [if_pos zero]
      have counted : Recounted before ⟨BlockFileHeader.addEmpty
            { before.header with empty := empty, hints := hints }
            (nibbleType before.header.allocation_map (8 * chunk + j) - 1) 1,
            before.length⟩ := ⟨_, _, rfl⟩
      refine .bind (satisfies_put rfl counted ?_)
      apply ih _ counted (j + 1) (by omega)
      intro i below
      have before' := counts i below
      simp only at before'
      rw [← Nat.add_assoc, tally_succ, BlockFileHeader.emptyAt_addEmpty _ _ below, before']
      have pos : i = nibbleType before.header.allocation_map (8 * chunk + j) - 1 ↔
          nibbleType before.header.allocation_map (8 * chunk + j) = i + 1 := by
        omega
      simp only [pos, BlockFileHeader.addEmpty_allocation_map]
      split <;> simp

/-- The counters and the hints before an index are cleared. -/
def ClearedBelow (limit : Nat) (header : BlockFileHeader) : Prop :=
  ∀ index < limit, index < kMaxNumBlocks -> header.emptyAt index = 0 ∧ header.hintAt index = 0

/-- Clearing one counter and hint after the other clears all of them. -/
theorem clearCounters_satisfies : Logged.Satisfies ((List.range kMaxNumBlocks).forM fun i => do
        put fun header => header.setHint i 0
        put fun header => header.setEmpty i 0)
      file (Recounted file) fun _ left =>
        Recounted file left ∧ ClearedBelow kMaxNumBlocks left.header := by
  apply Logged.Satisfies.forM_range fun index left =>
    Recounted file left ∧ ClearedBelow index left.header
  · rintro index below left ⟨⟨empty, hints, rfl⟩, cleared⟩
    refine .bind (satisfies_put rfl ⟨_, _, rfl⟩ ?_)
    refine satisfies_put rfl ⟨_, _, rfl⟩ ⟨⟨_, _, rfl⟩, ?_⟩
    intro other inside bound
    rw [BlockFileHeader.emptyAt_setEmpty _ bound,
      BlockFileHeader.hintAt_setEmpty, BlockFileHeader.emptyAt_setHint,
      BlockFileHeader.hintAt_setHint _ bound]
    by_cases same : other = index
    · rw [if_pos same, if_pos same]
      exact ⟨rfl, rfl⟩
    · rw [if_neg same, if_neg same]
      exact cleared other (by omega) bound
  · exact ⟨.refl file, by simp [ClearedBelow]⟩

/-- The restored counters count the types of all nibbles, and the hints are
back at the first chunk. -/
theorem fixAllocationCounters_satisfies :
    Logged.Satisfies fixAllocationCounters file (Recounted file) fun _ left =>
      Recounted file left ∧ CountsBelow (8 * (file.header.max_entries / 32)) left.header ∧
        ∀ i, left.header.hintAt i = 0 := by
  refine .bind ((clearCounters_satisfies file).imp (fun _ same => same) ?_)
  rintro - left ⟨⟨empty, hints, rfl⟩, cleared⟩
  refine .bind (.read ?_)
  apply Logged.Satisfies.forM_range fun chunk left =>
    Recounted file left ∧ CountsBelow (8 * chunk) left.header ∧
      ∀ i, left.header.hintAt i = 0
  · rintro chunk - left ⟨⟨empty, hints, rfl⟩, counts, unhinted⟩
    refine .bind (.read ?_)
    refine (countChunk_satisfies _ ⟨_, _, rfl⟩ chunk 0 (Nat.zero_add 8)
      counts).imp (fun _ same => same) ?_
    rintro - left ⟨same, counted, unchanged⟩
    refine ⟨same, counted, ?_⟩
    intro i
    rw [BlockFileHeader.hintAt, unchanged]
    exact unhinted i
  · refine ⟨⟨_, _, rfl⟩, ?_, ?_⟩
    · intro i bound
      exact (cleared i bound bound).1
    · intro i
      by_cases bound : i < kMaxNumBlocks
      · exact (cleared i bound bound).2
      · exact BlockFileHeader.hintAt_of_le _ (Nat.le_of_not_lt bound)

/-- Lengths of block files fit in a signed word. -/
theorem toInt32_of_lt (small : length < 2 ^ 31) : toInt32 length = length := by
  unfold toInt32
  have whole : (BitVec.ofNat 32 length).toNat = length := by
    rw [BitVec.toNat_ofNat, Nat.mod_eq_of_lt (by omega)]
  rw [BitVec.toInt_eq_toNat_of_lt (by rw [whole]; omega), whole]

/-- A file after its header was repaired for a number of blocks. -/
structure Repaired (before : BlockFile) (entries : Nat) (left : BlockFile) : Prop where
  length : left.length = before.length
  magic : left.header.magic = before.header.magic
  version : left.header.version = before.header.version
  next_file : left.header.next_file = before.header.next_file
  entry_size : left.header.entry_size = before.header.entry_size
  num_entries : left.header.num_entries = before.header.num_entries
  allocation_map : left.header.allocation_map = before.header.allocation_map
  max_entries : left.header.max_entries = entries
  updating : left.header.updating = 0
  counts : CountsBelow (8 * (entries / 32)) left.header
  hints : ∀ index, left.header.hintAt index = 0

theorem fixCounters_satisfies : Logged.Satisfies (do
        fixAllocationCounters
        put fun header => header.setUpdating 0
        return true)
      file
      (fun left => Recounted file left ∨ Repaired file file.header.max_entries left)
      fun val left => val = true ∧ Repaired file file.header.max_entries left := by
  refine .bind ((fixAllocationCounters_satisfies file).imp (fun _ same => Or.inl same) ?_)
  rintro - left ⟨⟨empty, hints, rfl⟩, counts, unhinted⟩
  have repaired : Repaired file file.header.max_entries ⟨BlockFileHeader.setUpdating
        { file.header with empty := empty, hints := hints } 0,
        file.length⟩ :=
    ⟨rfl, rfl, rfl, rfl, rfl, rfl, rfl, rfl, rfl, counts, unhinted⟩
  exact .bind (satisfies_put rfl (Or.inr repaired) (.pure ⟨rfl, repaired⟩))

end

section Lengths

variable {file : BlockFile} (sized : file.length =
    file.header.entry_size * entries + kBlockHeaderSize)
  (bounded : entries <= kMaxBlocks) (small : file.header.entry_size <= 4096)

include sized bounded small

theorem toInt32_length : toInt32 file.length = file.length := by
  apply toInt32_of_lt
  have largest := Nat.mul_le_mul small bounded
  simp only [kMaxBlocks, kBlockHeaderSize] at sized largest
  omega

/-- A header that agrees with the length of its file is repaired. -/
theorem fixBlockFileHeader_satisfies (agrees : entries = file.header.max_entries) :
    Logged.Satisfies fixBlockFileHeader file (fun left => Recounted file left ∨
        Repaired file file.header.max_entries left) fun val left =>
        val = true ∧ Repaired file file.header.max_entries left := by
  subst agrees
  refine .bind (.read ?_)
  dsimp only [id]
  rw [toInt32_length sized bounded small, sized]
  rw [if_neg (by push_cast; omega), if_neg (by push_cast; omega)]
  exact fixCounters_satisfies file

/-- A file that was stopped while it grew is repaired for its new length. -/
theorem fixBlockFileHeader_of_grown (pos : 0 < file.header.entry_size)
    (grown : file.header.max_entries < entries) (unset : file.header.emptyAt 3 = 0) :
    (fixBlockFileHeader.run file).value = true ∧
      Repaired file entries (fixBlockFileHeader.run file).final := by
  have longer := Nat.mul_lt_mul_of_pos_left grown pos
  have within := Nat.mul_le_mul_left file.header.entry_size bounded
  have recovered : (((file.length : Int) - kBlockHeaderSize) /
      file.header.entry_size).toNat = entries := by
    rw [sized]
    push_cast
    rw [Int.add_sub_cancel, Int.mul_ediv_cancel_left _ (by omega), Int.toNat_natCast]
  have satisfied : Logged.Satisfies fixBlockFileHeader file (fun _ => True) fun val left =>
        val = true ∧ Repaired file entries left := by
    refine .bind (.read ?_)
    dsimp only [id]
    rw [toInt32_length sized bounded small, if_neg (by rw [sized]; push_cast; omega),
      if_pos (by rw [sized]; push_cast; omega),
      if_neg (not_or.mpr ⟨by rw [sized]; push_cast; omega,
        not_or.mpr ⟨not_not_intro unset, by rw [sized]; push_cast; omega⟩⟩)]
    change Logged.Satisfies _ (⟨file.header, file.length⟩ : BlockFile) _ _
    refine .bind (satisfies_put (congrArg file.header.setMaxEntries recovered) trivial ?_)
    apply (fixCounters_satisfies _).imp
    · exact fun _ _ => trivial
    · rintro val left ⟨succeeds, repaired⟩
      exact ⟨succeeds, { repaired with }⟩
  exact satisfied.final

/-- A file that is longer than its header says is not repaired when its header
counts empty nibbles. -/
theorem fixBlockFileHeader_of_counted (ne : entries ≠ file.header.max_entries)
    (pos : 0 < file.header.entry_size) (counted : file.header.emptyAt 3 ≠ 0) :
    (fixBlockFileHeader.run file).value = false := by
  have satisfied : Logged.Satisfies fixBlockFileHeader file
      (fun _ => True) fun val _ => val = false := by
    refine .bind (.read ?_)
    dsimp only [id]
    have other : (file.length : Int) ≠
        file.header.entry_size * file.header.max_entries + kBlockHeaderSize := by
      rw [sized]
      push_cast
      intro same
      have scaled : (file.header.entry_size : Int) * entries =
          file.header.entry_size * file.header.max_entries := by
        omega
      exact ne (by exact_mod_cast Int.eq_of_mul_eq_mul_left (by omega) scaled)
    rw [toInt32_length sized bounded small, if_neg (by rw [sized]; push_cast; omega), if_pos other,
      if_pos (Or.inr (Or.inl counted))]
    exact .pure rfl
  exact satisfied.final

end Lengths

end

end Chromium.DiskCache
