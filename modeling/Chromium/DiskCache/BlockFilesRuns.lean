import Chromium.DiskCache.BlockAllocation
import Chromium.Library.Run
import Chromium.Library.Tiling
import Mathlib.Data.List.Pairwise

/-!
# Runs of a block file

A session pairs one block file with the entries that were created in it and
not yet deleted. Every run keeps the header consistent with these entries:
the allocation map has exactly their bits, and the empty counters count the
nibbles of each type.
-/

namespace Chromium.DiskCache

open Library

/-- A block file together with the first block and the number of blocks of
each entry that is stored in it. -/
structure Session where
  file : BlockFile
  live : List (Nat × Nat)

/-- The operations on one block file: creating a block, where the length of
the file can or cannot be set and a number is given for a new file of the
chain, deleting one, and skipping an empty file that follows in the chain. -/
inductive Call
  | createBlock (block_count : Nat) (lengthSet : Bool) (new_file : Nat)
  | deleteBlock (index size : Nat)
  | removeEmptyFile (next_file : Nat)

/-- A header that agrees with its file, and whose counters agree with its
allocation map. -/
structure Valid (file : BlockFile) : Prop where
  magic : file.header.magic = kBlockMagic
  version : file.header.version = kCurrentVersion
  entry_size : ∃ type, file.header.entry_size = blockSizeForFileType type
  length : file.length = file.header.entry_size * file.header.max_entries + kBlockHeaderSize
  chunks : file.header.max_entries % 32 = 0
  bounded : file.header.max_entries <= kMaxBlocks
  linked : file.header.next_file ≠ 0 -> file.header.max_entries = kMaxBlocks
  updating : file.header.updating = 0 ∨ file.header.updating = -1
  hints : ∀ index < kMaxNumBlocks, file.header.hintAt index <= file.header.max_entries / 32
  counts : CountsBelow (file.header.max_entries / 4) file.header

/-- A new map differs from the one of a header in the type of one nibble. -/
def Retypes (header : BlockFileHeader) (map : AllocBitmap) (type newType : Nat) : Prop :=
  ∃ index, 4 * index < header.max_entries ∧ nibbleType header.allocation_map index = type ∧
    nibbleType map index = newType ∧
    ∀ other, other ≠ index -> nibbleType map other = nibbleType header.allocation_map other

namespace Valid

section

variable (valid : Valid file)
include valid

theorem entry_size_pos : 0 < file.header.entry_size := by
  obtain ⟨type, size⟩ := valid.entry_size
  rw [size]
  cases type <;> decide

theorem entry_size_le : file.header.entry_size <= 4096 := by
  obtain ⟨type, size⟩ := valid.entry_size
  rw [size]
  cases type <;> decide

/-- An edit that changes the type of one nibble keeps the header valid. -/
theorem edited (length : left.length = file.length)
    (edit : Edited file.header map entries type newType left.header)
    (retypes : Retypes file.header map type newType) :
    Valid left where
  magic := edit.magic.trans valid.magic
  version := edit.version.trans valid.version
  entry_size := by
    rw [edit.entry_size]
    exact valid.entry_size
  length := by
    rw [length, edit.entry_size, edit.max_entries]
    exact valid.length
  chunks := by
    rw [edit.max_entries]
    exact valid.chunks
  bounded := by
    rw [edit.max_entries]
    exact valid.bounded
  linked := by
    rw [edit.max_entries, edit.next_file]
    exact valid.linked
  updating := by
    rw [edit.updating]
    exact valid.updating
  hints := by
    intro counter bounded
    rw [edit.max_entries]
    rcases edit.hints counter bounded with same | moved
    · rw [same]
      exact valid.hints counter bounded
    · omega
  counts := by
    intro counter bounded
    have chunks := valid.chunks
    have counted := edit.empty counter bounded
    obtain ⟨i, inside, isType, isNewType, others⟩ := retypes
    have change := congrArg (Nat.cast : Nat -> Int) (tally_change (counter + 1)
      (show i < file.header.max_entries / 4 by omega) others)
    push_cast at change
    rw [isType, isNewType] at change
    rw [valid.counts counter bounded] at counted
    rw [edit.allocation_map, edit.max_entries]
    omega

/-- The target size of a block is one of the counted types that are large
enough. -/
theorem targetSize (pos : 0 < block_count)
    (present : ∃ index, block_count - 1 <= index ∧ index < 4 ∧ file.header.emptyAt index ≠ 0) :
    block_count <= DiskCache.targetSize file.header block_count ∧
      DiskCache.targetSize file.header block_count <= kMaxNumBlocks ∧
      0 < file.header.emptyAt (DiskCache.targetSize file.header block_count - 1) := by
  obtain ⟨index, low, high, counted⟩ := present
  unfold DiskCache.targetSize
  cases search : (List.range' block_count (5 - block_count)).find?
      fun i => decide (file.header.emptyAt (i - 1) ≠ 0) with
  | none =>
    rw [List.find?_eq_none] at search
    have missing := search (index + 1) (List.mem_range'_1.mpr ⟨by omega, by omega⟩)
    simp [counted] at missing
  | some found =>
    obtain ⟨within, before⟩ := List.mem_range'_1.mp (List.mem_of_find?_eq_some search)
    have test := List.find?_some search
    rw [decide_eq_true_eq] at test
    have four : kMaxNumBlocks = 4 := rfl
    have natural := valid.counts (found - 1) (by omega)
    rw [Option.getD_some]
    exact ⟨within, by omega, by omega⟩

/-- Blocks are created at the free end of a nibble of a counted type. -/
theorem createMapBlock (bound : target <= kMaxNumBlocks)
    (positive : 0 < size) (fits : size <= target) (counted : 0 < file.header.emptyAt (target - 1)) :
    ∃ i map, Logged.Satisfies (DiskCache.createMapBlock target size) file
        (EditedOrUnderway file map 1 target (target - size))
        (fun val left => val = some i ∧ left.length = file.length ∧
          Edited file.header map 1 target (target - size) left.header) ∧
      Retypes file.header map target (target - size) ∧ i % 4 + size <= 4 ∧
      i + size <= file.header.max_entries ∧
      (∀ pos, Bitmap.bit map pos = (Bitmap.bit file.header.allocation_map pos ||
          decide (InRange i size pos))) ∧ ∀ pos, InRange i size pos ->
        Bitmap.bit file.header.allocation_map pos = false := by
  have four : target <= 4 := bound
  have present := valid.counts (target - 1) (by omega)
  rw [present, Nat.sub_add_cancel (by omega)] at counted
  obtain ⟨nibbleIndex, below, isType⟩ := exists_of_tally_pos (Int.natCast_pos.mp counted)
  have chunks := valid.chunks
  obtain ⟨cur, j, hit⟩ := searchMap_isSome (valid.hints (target - 1) (by omega))
    ⟨nibbleIndex, by omega, isType⟩
  obtain ⟨inside, low, isTarget⟩ := searchMap_eq_some hit
    (valid.hints (target - 1) (by omega)) (Nat.le_refl _)
  have within := valid.bounded
  have taken := bit_take file.header.allocation_map
    (show cur < kMaxBlocks / 32 by omega) (show size < 32 by omega)
    (show j * 4 + 4 - target + size <= 32 by omega)
  -- The range in the chunk is the one at the end of the nibble.
  have place : cur * 32 + (j * 4 + 4 - target) = 4 * (8 * cur + j) + (4 - target) := by
    omega
  refine ⟨_, _, createMapBlock_satisfies file hit inside bound positive
    fits, ⟨8 * cur + j, by omega, isTarget, ?_, ?_⟩, by omega, by omega,
    taken, ?_⟩
  · exact nibbleType_of_take (fun pos => place ▸ taken pos) isTarget positive fits bound
  · intro other ne
    rw [nibbleType_eq, nibbleType_eq, nibble_congr]
    intro off small
    rw [taken, decide_eq_false, Bool.or_false]
    rintro ⟨_, _⟩
    omega
  · rintro pos ⟨above, high⟩
    rw [place] at above high
    exact bit_of_nibbleType isTarget bound ⟨above, by omega⟩

/-- Deleting blocks that lie in one nibble. -/
theorem deleteMapBlock (positive : 0 < size) (fits : first % 4 + size <= 4)
    (below : first + size <= file.header.max_entries)
    (used : ∀ pos, InRange first size pos -> Bitmap.bit file.header.allocation_map pos = true) :
    ∃ map type newType, Logged.Satisfies (DiskCache.deleteMapBlock first size) file
        (EditedOrUnderway file map (-1) type newType) (fun _ left => left.length = file.length ∧
          Edited file.header map (-1) type newType left.header) ∧
      Retypes file.header map type newType ∧
      ∀ pos, Bitmap.bit map pos = (Bitmap.bit file.header.allocation_map pos &&
          !decide (InRange first size pos)) := by
  have within := valid.bounded
  have lt : first / 32 < kMaxBlocks / 32 := by
    have chunks := valid.chunks
    omega
  have freed := bit_free file.header.allocation_map lt (show size < 8 by omega) (by omega)
  refine ⟨_, _, _, deleteMapBlock_satisfies file lt positive fits used,
    ⟨first / 4, by omega, rfl, rfl, ?_⟩, freed⟩
  intro other ne
  rw [nibbleType_eq, nibbleType_eq, nibble_congr]
  intro off small
  rw [freed, decide_eq_false, Bool.not_false, Bool.and_true]
  rintro ⟨_, _⟩
  omega

end

end Valid

namespace Session

/-- A session with a new block file. -/
def start (index : Nat) (file_type : FileType) : Session where
  file := createBlockFile index file_type
  live := []

/-- The session after an operation. -/
def perform (s : Session) : Call -> Session
  | .createBlock block_count lengthSet new_file =>
    let outcome := (createBlock block_count lengthSet new_file).run s.file
    { file := outcome.final
      live :=
        match outcome.value with
        | some index => (index, block_count) :: s.live
        | none => s.live }
  | .deleteBlock index size =>
    { file := ((deleteMapBlock index size).run s.file).final
      live := s.live.erase (index, size) }
  | .removeEmptyFile next_file =>
    { s with
      file := ((removeEmptyFile next_file).run s.file).final }

/-- Only stored entries are deleted. -/
def Permitted (s : Session) : Call -> Prop
  | .deleteBlock index size => (index, size) ∈ s.live
  | _ => True

/-- The step relation of a session on permitted operations. -/
def Performed (s : Session) (call : Call) (next : Session) : Prop :=
  s.Permitted call ∧ next = s.perform call

/-- The header is valid, and its map has the bits of the stored entries, which
are disjoint and lie in one nibble each. -/
structure Consistent (s : Session) : Prop where
  valid : Valid s.file
  placed : ∀ entry ∈ s.live, 0 < entry.2 ∧ entry.1 % 4 + entry.2 <= 4 ∧
    entry.1 + entry.2 <= s.file.header.max_entries
  apart : s.live.Pairwise Apart
  bits : ∀ pos, Bitmap.bit s.file.header.allocation_map pos = true ↔
      ∃ entry ∈ s.live, InRange entry.1 entry.2 pos
  num_entries : s.file.header.num_entries = s.live.length

theorem start_consistent (i : Nat) (file_type : FileType) :
    (start i file_type).Consistent where
  valid :=
    { magic := rfl
      version := rfl
      entry_size := ⟨file_type, rfl⟩
      length := by simp [start, createBlockFile, BlockFileHeader.init]
      chunks := rfl
      bounded := Nat.zero_le _
      linked := fun ne => absurd rfl ne
      updating := Or.inl rfl
      hints := by
        intro counter bounded
        simp [start, createBlockFile, BlockFileHeader.init, BlockFileHeader.hintAt, bounded]
      counts := by
        intro counter bounded
        simp [start, createBlockFile, BlockFileHeader.init,
          BlockFileHeader.emptyAt, bounded, tally] }
  placed := by simp [start]
  apart := .nil
  bits := by
    intro pos
    have clear : Bitmap.bit (createBlockFile i file_type).header.allocation_map pos =
          false := Bitmap.bit_replicate
    simp [start, clear]
  num_entries := rfl

/-- Ranges without a common position are apart. -/
theorem apart_of_disjoint (leftPositive : 0 < left.2) (rightPositive : 0 < right.2)
    (disjoint : ∀ pos, InRange left.1 left.2 pos -> ¬ InRange right.1 right.2 pos) :
    Apart left right := by
  simp only [InRange, Apart] at *
  by_contra overlap
  rcases Nat.le_total left.1 right.1 with before | after
  · exact disjoint right.1 ⟨by omega, by omega⟩ ⟨by omega, by omega⟩
  · exact disjoint left.1 ⟨by omega, by omega⟩ ⟨by omega, by omega⟩

variable {header : BlockFileHeader} {s : Session}

theorem Consistent.add (inv : s.Consistent) (valid : Valid left)
    (entries : left.header.max_entries = s.file.header.max_entries)
    (positive : 0 < size) (fits : first % 4 + size <= 4)
    (below : first + size <= s.file.header.max_entries)
    (taken : ∀ pos, Bitmap.bit left.header.allocation_map pos =
      (Bitmap.bit s.file.header.allocation_map pos || decide (InRange first size pos)))
    (free : ∀ pos, InRange first size pos -> Bitmap.bit s.file.header.allocation_map pos = false)
    (counted : left.header.num_entries = s.file.header.num_entries + 1) :
    Consistent { file := left, live := (first, size) :: s.live } where
  valid := valid
  placed := by
    intro entry mem
    rw [entries]
    rcases List.mem_cons.mp mem with rfl | old
    · exact ⟨positive, fits, below⟩
    · exact inv.placed entry old
  apart := by
    refine List.pairwise_cons.mpr ⟨?_, inv.apart⟩
    intro entry mem
    refine apart_of_disjoint positive (inv.placed entry mem).1 ?_
    intro pos inside used
    have isUsed := (inv.bits pos).mpr ⟨entry, mem, used⟩
    rw [free pos inside] at isUsed
    exact Bool.false_ne_true isUsed
  bits := by
    intro pos
    rw [taken, Bool.or_eq_true, decide_eq_true_eq, inv.bits]
    simp only [List.mem_cons, exists_eq_or_imp]
    exact or_comm
  num_entries := by
    rw [counted, inv.num_entries]
    simp

/-- Creating an entry of a size in a nibble of a type succeeds when the type
is counted, and adds the entry. -/
theorem Consistent.createMapBlock (inv : s.Consistent) (bound : target <= kMaxNumBlocks)
    (positive : 0 < size) (fits : size <= target)
    (counted : 0 < s.file.header.emptyAt (target - 1)) :
    ∃ i, ((DiskCache.createMapBlock target size).run s.file).value = some i ∧ Consistent
        { file := ((DiskCache.createMapBlock target size).run s.file).final
          live := (i, size) :: s.live } := by
  obtain ⟨i, map, satisfied, retypes, within, below, taken, free⟩ :=
    inv.valid.createMapBlock bound positive fits counted
  obtain ⟨val, len, edited⟩ := satisfied.final
  refine ⟨i, val, ?_⟩
  apply inv.add
  · exact inv.valid.edited len edited retypes
  · exact edited.max_entries
  · exact positive
  · exact within
  · exact below
  · intro pos
    rw [edited.allocation_map]
    exact taken pos
  · exact free
  · exact edited.num_entries

/-- Distinct stored entries have no block in common. -/
theorem Consistent.eq_of_inRange (inv : s.Consistent)
    (leftMember : left ∈ s.live) (rightMember : right ∈ s.live)
    (leftUses : InRange left.1 left.2 pos) (rightUses : InRange right.1 right.2 pos) :
    left = right := by
  by_contra differ
  have apart := inv.apart.forall leftMember rightMember differ
  simp only [InRange, Apart] at *
  omega

theorem Consistent.nodup (inv : s.Consistent) : s.live.Nodup := by
  refine inv.apart.imp_of_mem ?_
  rintro left right mem - apart rfl
  have pos := (inv.placed left mem).1
  simp only [Apart] at apart
  omega

/-- The blocks of a stored entry are used. -/
theorem Consistent.used (inv : s.Consistent)
    (mem : entry ∈ s.live) (pos : Nat) (inside : InRange entry.1 entry.2 pos) :
    Bitmap.bit s.file.header.allocation_map pos = true :=
  (inv.bits pos).mpr ⟨entry, mem, inside⟩

/-- Deleting a stored entry removes it. -/
theorem Consistent.deleteMapBlock (inv : s.Consistent) (mem : (i, size) ∈ s.live) :
    Consistent
      { file := ((DiskCache.deleteMapBlock i size).run s.file).final
        live := s.live.erase (i, size) } := by
  obtain ⟨positive, fits, below⟩ := inv.placed _ mem
  obtain ⟨map, type, newType, satisfied, retypes, freed⟩ :=
    inv.valid.deleteMapBlock positive fits below (inv.used mem)
  obtain ⟨len, edited⟩ := satisfied.final
  have remains : ∀ entry, entry ∈ s.live.erase (i, size) ↔
      entry ≠ (i, size) ∧ entry ∈ s.live :=
    fun entry => inv.nodup.mem_erase_iff
  exact
    { valid := inv.valid.edited len edited retypes
      placed := by
        intro entry left
        rw [edited.max_entries]
        exact inv.placed entry ((remains entry).mp left).2
      apart := inv.apart.sublist List.erase_sublist
      bits := by
        intro pos
        rw [edited.allocation_map, freed, Bool.and_eq_true, inv.bits]
        simp only [Bool.not_eq_true', decide_eq_false_iff_not, remains]
        constructor
        · rintro ⟨⟨entry, stored, uses⟩, outside⟩
          refine ⟨entry, ⟨?_, stored⟩, uses⟩
          rintro rfl
          exact outside uses
        · rintro ⟨entry, ⟨ne, stored⟩, uses⟩
          refine ⟨⟨entry, stored, uses⟩, ?_⟩
          intro inDeleted
          exact ne (inv.eq_of_inRange stored mem uses inDeleted)
      num_entries := by
        rw [edited.num_entries, inv.num_entries, List.length_erase_of_mem mem]
        have some := List.length_pos_of_mem mem
        omega }

/-- A file that grows gets free nibbles at its end. -/
theorem growBlockFile_run (len : Nat) (room : kMaxBlocks ≠ header.max_entries) :
    let grown := grownSize header.max_entries
    let raised := header.addUpdating 1
    let counted := raised.setEmpty 3 ((grown - header.max_entries) / 4)
    let bytes := grown * header.entry_size + kBlockHeaderSize
    (growBlockFile true).run ⟨header, len⟩ =
      { value := true
        final := ⟨(counted.setMaxEntries grown).addUpdating (-1), bytes⟩
        written :=
          [⟨raised, len⟩, ⟨raised, bytes⟩, ⟨counted, bytes⟩,
            ⟨counted.setMaxEntries grown, bytes⟩,
            ⟨(counted.setMaxEntries grown).addUpdating (-1), bytes⟩] } := by
  intro grown raised counted bytes
  unfold growBlockFile
  rw [Logged.bind_run, Logged.read_run]
  rw [if_neg room]
  rfl

/-- The header of a file whose length could not be set is repaired, and its
flag is lowered once more. -/
def Unset (header : BlockFileHeader) (length : Nat) (left : BlockFile) : Prop :=
  ∃ repaired, Repaired ⟨header.addUpdating 1, length⟩ header.max_entries repaired ∧
    left = ⟨repaired.header.addUpdating (-1), repaired.length⟩

theorem lt_grownSize (chunks : entries % 32 = 0) (bound : entries <= kMaxBlocks)
    (room : kMaxBlocks ≠ entries) :
    entries + 32 <= grownSize entries ∧ grownSize entries <= kMaxBlocks ∧
      grownSize entries % 32 = 0 := by
  have limit : kMaxBlocks = 64896 := rfl
  unfold grownSize
  split <;> omega

/-- Growing fails when the length of the file cannot be set. -/
theorem growBlockFile_failed (ok : Valid ⟨header, len⟩)
    (room : kMaxBlocks ≠ header.max_entries) :
    Logged.Satisfies (growBlockFile false) ⟨header, len⟩
      (fun left => Recounted ⟨header.addUpdating 1, len⟩ left ∨
        Repaired ⟨header.addUpdating 1, len⟩ header.max_entries left ∨ Unset header len left)
      fun val left => val = false ∧ Unset header len left := by
  have larger := (lt_grownSize ok.chunks ok.bounded room).1
  have low : (header.addUpdating 1).updating < 10 := by
    have flag := ok.updating
    rw [BlockFileHeader.addUpdating_updating]
    simp only at flag
    omega
  have sized : (⟨header.addUpdating 1, len⟩ : BlockFile).length =
      (header.addUpdating 1).entry_size * header.max_entries + kBlockHeaderSize :=
    ok.length
  have repairs := fixBlockFileHeader_satisfies sized ok.bounded ok.entry_size_le rfl
  refine .bind (.read ?_)
  rw [if_neg room]
  refine .bind (satisfies_put rfl (Or.inl (.refl _)) ?_)
  refine .bind (.read ?_)
  dsimp only
  rw [if_pos low]
  refine .bind (repairs.imp ?_ ?_)
  · intro left written
    exact written.imp_right Or.inl
  · rintro val ⟨after, length'⟩ ⟨rfl, repaired⟩
    have unset : Unset header len ⟨after.addUpdating (-1), length'⟩ := ⟨_, repaired, rfl⟩
    refine .bind (.read ?_)
    refine .bind (satisfies_put rfl (Or.inr (Or.inr unset)) (.pure ?_))
    refine ⟨?_, unset⟩
    have entries := repaired.max_entries
    simp only [BlockFileHeader.addUpdating_max_entries] at entries larger
    rw [decide_eq_false_iff_not, entries]
    omega

/-- A file that has to grow has no nibble of the largest type, unless it is
full already. -/
theorem emptyAt_of_needToGrow {file : BlockFile} (ok : Valid file)
    (room : kMaxBlocks ≠ file.header.max_entries) (small : block_count <= 4)
    (needed : needToGrowBlockFile file.header block_count = true) :
    file.header.emptyAt 3 = 0 := by
  have unlinked : ¬ file.header.next_file ≠ 0 := fun linked => room (ok.linked linked).symm
  unfold needToGrowBlockFile at needed
  rw [if_neg (fun both => unlinked both.1), Bool.not_eq_true', List.any_eq_false] at needed
  by_contra counted
  refine needed 3 (by decide) ?_
  rw [decide_eq_true (show block_count - 1 <= 3 by omega), decide_eq_true counted, Bool.and_self]

/-- A file that need not grow has a nibble with enough blocks. -/
theorem exists_emptyAt_of_ready (ready : needToGrowBlockFile header block_count = false) :
    ∃ i, block_count - 1 <= i ∧ i < 4 ∧ header.emptyAt i ≠ 0 := by
  unfold needToGrowBlockFile at ready
  split at ready
  · simp at ready
  · rw [Bool.not_eq_false', List.any_eq_true] at ready
    obtain ⟨i, mem, test⟩ := ready
    rw [Bool.and_eq_true, decide_eq_true_eq, decide_eq_true_eq] at test
    exact ⟨i, test.1, List.mem_range.mp mem, test.2⟩

/-- The blocks beyond the end of a file are free. -/
theorem Consistent.nibbleType_beyond (inv : s.Consistent)
    (beyond : s.file.header.max_entries <= 4 * index) :
    nibbleType s.file.header.allocation_map index = kMaxNumBlocks := by
  apply nibbleType_of_clear
  intro off small
  rw [Bool.eq_false_iff]
  intro used
  obtain ⟨entry, mem, _, high⟩ := (inv.bits _).mp used
  have below := (inv.placed entry mem).2.2
  omega

set_option maxRecDepth 2048 in
/-- Growing keeps the entries, and counts the new nibbles. -/
theorem Consistent.grow (inv : s.Consistent) (room : kMaxBlocks ≠ s.file.header.max_entries)
    (none : s.file.header.emptyAt 3 = 0) :
    Consistent
        { s with
          file := ((growBlockFile true).run s.file).final } ∧
      ((growBlockFile true).run s.file).final.header.emptyAt 3 ≠ 0 := by
  obtain ⟨⟨header, length⟩, live⟩ := s
  have valid := inv.valid
  obtain ⟨larger, within, chunks⟩ := lt_grownSize valid.chunks valid.bounded room
  simp only at larger within chunks none room
  rw [growBlockFile_run length room]
  dsimp only
  have empty : ∀ i < kMaxNumBlocks, ((((header.addUpdating 1).setEmpty 3
        ((grownSize header.max_entries - header.max_entries) / 4)).setMaxEntries
        (grownSize header.max_entries)).addUpdating (-1)).emptyAt i =
        if i = 3 then ((grownSize header.max_entries - header.max_entries : Int) / 4)
        else header.emptyAt i := by
    intro i bounded
    rw [BlockFileHeader.emptyAt_addUpdating, BlockFileHeader.emptyAt_setMaxEntries,
      BlockFileHeader.emptyAt_setEmpty _ bounded,
      BlockFileHeader.emptyAt_addUpdating]
  refine ⟨?_, ?_⟩
  · exact
      { valid :=
          { magic := by simpa using valid.magic
            version := by simpa using valid.version
            entry_size := by simpa using valid.entry_size
            length := by simp [Nat.mul_comm]
            chunks := by simpa using chunks
            bounded := by simpa using within
            linked := by
              intro linked
              simp only [BlockFileHeader.addUpdating_next_file,
                BlockFileHeader.setMaxEntries_next_file,
                BlockFileHeader.setEmpty_next_file] at linked
              exact absurd (valid.linked linked).symm room
            updating := by
              have flag := valid.updating
              simp only [BlockFileHeader.addUpdating_updating,
                BlockFileHeader.setMaxEntries_updating,
                BlockFileHeader.setEmpty_updating] at flag ⊢
              omega
            hints := by
              intro i bounded
              have hint := valid.hints i bounded
              simp only [BlockFileHeader.hintAt_addUpdating, BlockFileHeader.hintAt_setMaxEntries,
                BlockFileHeader.hintAt_setEmpty,
                BlockFileHeader.addUpdating_max_entries,
                BlockFileHeader.setMaxEntries_max_entries] at hint ⊢
              omega
            counts := by
              intro i bounded
              have four : kMaxNumBlocks = 4 := rfl
              have old := valid.counts i bounded
              have oldChunks : header.max_entries % 32 = 0 := valid.chunks
              have extended : tally (nibbleType header.allocation_map)
                    (i + 1) (grownSize header.max_entries / 4) =
                  tally (nibbleType header.allocation_map) (i + 1) (header.max_entries / 4) +
                  if kMaxNumBlocks = i + 1 then
                    grownSize header.max_entries / 4 - header.max_entries / 4
                  else 0 :=
                tally_extend (by omega)
                  fun other low _ => inv.nibbleType_beyond
                    (show header.max_entries <= 4 * other by omega)
              rw [empty i bounded]
              simp only [BlockFileHeader.addUpdating_allocation_map,
                BlockFileHeader.setMaxEntries_allocation_map,
                BlockFileHeader.setEmpty_allocation_map,
                BlockFileHeader.addUpdating_max_entries,
                BlockFileHeader.setMaxEntries_max_entries] at old ⊢
              rw [extended]
              by_cases last : i = 3
              · subst last
                rw [if_pos rfl, if_pos (show kMaxNumBlocks = 3 + 1 by rfl)]
                omega
              · rw [if_neg last, if_neg (by omega), old]
                rfl }
        placed := by
          intro entry mem
          obtain ⟨pos, fits, below⟩ := inv.placed entry mem
          refine ⟨pos, fits, ?_⟩
          simp only [BlockFileHeader.addUpdating_max_entries,
            BlockFileHeader.setMaxEntries_max_entries] at below ⊢
          omega
        apart := inv.apart
        bits := by simpa using inv.bits
        num_entries := by simpa using inv.num_entries }
  · rw [empty 3 (by decide), if_pos rfl]
    omega

/-- A header that only differs by its flag and its counters' repair is still
consistent. -/
theorem Consistent.unset (inv : s.Consistent) (unset : Unset s.file.header s.file.length left) :
    Consistent { s with file := left } := by
  obtain ⟨repaired, same, rfl⟩ := unset
  have valid := inv.valid
  have chunks := valid.chunks
  exact
    { valid :=
        { magic := same.magic.trans valid.magic
          version := same.version.trans valid.version
          entry_size := by
            simp only [BlockFileHeader.addUpdating_entry_size, same.entry_size]
            exact valid.entry_size
          length := by
            simp only [BlockFileHeader.addUpdating_entry_size,
              BlockFileHeader.addUpdating_max_entries, same.length,
              same.entry_size, same.max_entries]
            exact valid.length
          chunks := by
            simp only [BlockFileHeader.addUpdating_max_entries, same.max_entries]
            exact valid.chunks
          bounded := by
            simp only [BlockFileHeader.addUpdating_max_entries, same.max_entries]
            exact valid.bounded
          linked := by
            simp only [BlockFileHeader.addUpdating_max_entries,
              BlockFileHeader.addUpdating_next_file, same.max_entries,
              same.next_file]
            exact valid.linked
          updating := by
            simp only [BlockFileHeader.addUpdating_updating, same.updating]
            exact Or.inr rfl
          hints := by
            intro i _
            rw [BlockFileHeader.hintAt_addUpdating, same.hints i]
            exact Nat.zero_le _
          counts := by
            intro i bounded
            have counted := same.counts i bounded
            simp only [BlockFileHeader.addUpdating_max_entries, BlockFileHeader.emptyAt_addUpdating,
              BlockFileHeader.addUpdating_allocation_map, same.max_entries]
            rw [counted, show 8 * (s.file.header.max_entries / 32) =
              s.file.header.max_entries / 4 by omega] }
      placed := by
        intro entry mem
        simp only [BlockFileHeader.addUpdating_max_entries, same.max_entries]
        exact inv.placed entry mem
      apart := inv.apart
      bits := by
        intro pos
        simp only [BlockFileHeader.addUpdating_allocation_map, same.allocation_map]
        exact inv.bits pos
      num_entries := by
        simp only [BlockFileHeader.addUpdating_num_entries, same.num_entries]
        exact inv.num_entries }

/-- The link of a file that is full may change. -/
theorem Consistent.link (inv : s.Consistent) (full : s.file.header.max_entries = kMaxBlocks)
    (changed : ∃ next_file, header = { s.file.header with next_file := next_file }) :
    Consistent { s with file := { s.file with header := header } } := by
  obtain ⟨next_file, rfl⟩ := changed
  exact
    { valid :=
        { inv.valid with
          linked := fun _ => full }
      placed := inv.placed
      apart := inv.apart
      bits := inv.bits
      num_entries := inv.num_entries }

/-- A full file is linked to the next one. -/
theorem Consistent.nextFile (inv : s.Consistent) (full : s.file.header.max_entries = kMaxBlocks)
    (new_file : Nat) :
    Consistent
      { s with
        file := ((DiskCache.nextFile new_file).run s.file).final } := by
  unfold DiskCache.nextFile
  rw [Logged.bind_run, Logged.read_run, Logged.ite_run]
  split
  · have linked : ((s.file.header.addUpdating 1).setNextFile
        new_file).addUpdating (-1) = { s.file.header with next_file := new_file } := by
      simp [BlockFileHeader.addUpdating, BlockFileHeader.setNextFile]
    exact inv.link full ⟨new_file, linked⟩
  · exact inv

/-- Preparing a file for a new block keeps its entries, and a file that is
used has a nibble with enough blocks. -/
theorem Consistent.fileForNewBlock (inv : s.Consistent) (small : block_count <= 4)
    (lengthSet : Bool)
    (new_file : Nat) :
    let outcome := (DiskCache.fileForNewBlock block_count lengthSet new_file).run s.file
    Consistent { s with file := outcome.final } ∧
      (outcome.value = true -> ∃ i, block_count - 1 <= i ∧ i < 4 ∧
        outcome.final.header.emptyAt i ≠ 0) := by
  intro outcome
  have ok := inv.valid
  have ran : outcome = (DiskCache.fileForNewBlock block_count lengthSet new_file).run
        s.file := rfl
  unfold DiskCache.fileForNewBlock at ran
  rw [Logged.bind_run, Logged.read_run, Logged.ite_run, Logged.ite_run] at ran
  by_cases needed : needToGrowBlockFile s.file.header block_count = true
  · rw [if_pos needed] at ran
    by_cases room : kMaxBlocks = s.file.header.max_entries
    · rw [if_pos room] at ran
      have linked := inv.nextFile room.symm new_file
      rw [ran]
      exact ⟨linked, fun used => absurd used Bool.false_ne_true⟩
    · rw [if_neg room] at ran
      rw [ran]
      cases lengthSet with
      | true =>
        obtain ⟨grown, counted⟩ := inv.grow room (emptyAt_of_needToGrow ok room small needed)
        exact ⟨grown, fun _ => ⟨3, by omega, by decide, counted⟩⟩
      | false =>
        obtain ⟨val, unset⟩ := (growBlockFile_failed ok room).final
        refine ⟨inv.unset unset, ?_⟩
        intro used
        exact absurd (val.symm.trans used) Bool.false_ne_true
  · rw [if_neg needed] at ran
    rw [ran]
    rw [Bool.not_eq_true] at needed
    exact ⟨inv, fun _ => exists_emptyAt_of_ready needed⟩

theorem Consistent.createBlock
    (inv : s.Consistent) (block_count : Nat) (lengthSet : Bool) (new_file : Nat) :
    (s.perform (.createBlock block_count lengthSet new_file)).Consistent := by
  simp only [perform]
  generalize ran : (DiskCache.createBlock block_count lengthSet new_file).run s.file = outcome
  unfold DiskCache.createBlock at ran
  by_cases invalid : block_count < 1 ∨ 4 < block_count
  · rw [if_pos invalid] at ran
    rw [← ran]
    exact inv
  · rw [if_neg invalid, Logged.bind_run] at ran
    obtain ⟨prepared, present⟩ := inv.fileForNewBlock
      (show block_count <= 4 by omega) lengthSet new_file
    generalize (DiskCache.fileForNewBlock block_count lengthSet new_file).run
      s.file = chosen at ran prepared present
    obtain ⟨here, file, _⟩ := chosen
    cases here with
    | false =>
      rw [← ran]
      exact prepared
    | true =>
      obtain ⟨fits, bound, counted⟩ := prepared.valid.targetSize (by omega) (present rfl)
      obtain ⟨i, val, created⟩ := prepared.createMapBlock bound (by omega) fits counted
      have isValue : outcome.value = some i := by
        rw [← ran]
        exact val
      have isFinal : outcome.final = ((DiskCache.createMapBlock
          (targetSize file.header block_count) block_count).run file).final := by
        rw [← ran]
        rfl
      rw [isValue, isFinal]
      exact created

/-- Every operation keeps the session consistent. -/
theorem Consistent.performed (inv : s.Consistent) (performed : s.Performed call next) :
    next.Consistent := by
  obtain ⟨ok, rfl⟩ := performed
  cases call with
  | createBlock block_count lengthSet new_file =>
    exact inv.createBlock block_count lengthSet new_file
  | deleteBlock index size => exact inv.deleteMapBlock ok
  | removeEmptyFile next_file =>
    unfold perform DiskCache.removeEmptyFile
    dsimp only
    rw [Logged.bind_run, Logged.read_run, Logged.ite_run]
    split
    case isTrue linked => exact inv.link (inv.valid.linked linked) ⟨next_file, rfl⟩
    case isFalse => exact inv

/-- A consistent session with other hints inside of the map. -/
theorem Consistent.rehint (inv : s.Consistent) (hints : Counters Nat)
    (lt : ∀ i (bound : i < kMaxNumBlocks),
      hints[i] <= s.file.header.max_entries / 32) :
    Consistent
      { s with
        file :=
          { s.file with
            header := { s.file.header with hints := hints } } } where
  valid :=
    { inv.valid with
      hints := by
        intro i bound
        rw [BlockFileHeader.hintAt, Vector.getElem?_eq_getElem bound]
        exact lt i bound }
  placed := inv.placed
  apart := inv.apart
  bits := inv.bits
  num_entries := inv.num_entries

/-- In every run on a new block file, the stored entries are disjoint, lie in
one nibble each and below the end of the file, and their bits are exactly
those of the allocation map. The empty counters count the nibbles of each
type, and the number of entries is right. An entry can be created in every
counted type, wherever in the map the hints are. -/
theorem blockFile_run_consistent
    {index : Nat} {file_type : FileType} {calls : List Call} {last : Session}
    (run : Run Performed (start index file_type) calls last) :
    last.live.Pairwise Apart ∧ (∀ entry ∈ last.live, 0 < entry.2 ∧
        entry.1 / 4 = (entry.1 + entry.2 - 1) / 4 ∧
        entry.1 + entry.2 <= last.file.header.max_entries) ∧
      (∀ pos, Bitmap.bit last.file.header.allocation_map pos = true ↔
          ∃ entry ∈ last.live, InRange entry.1 entry.2 pos) ∧
      (∀ k, 1 <= k -> k <= kMaxNumBlocks -> last.file.header.emptyAt (k - 1) =
        tally (nibbleType last.file.header.allocation_map) k (last.file.header.max_entries / 4)) ∧
      last.file.header.num_entries = last.live.length ∧
      (∀ index < kMaxNumBlocks, last.file.header.hintAt index ≤ last.file.header.max_entries / 32) ∧
      ∀ hints : Counters Nat, (∀ index (_ : index < kMaxNumBlocks),
          hints[index] <= last.file.header.max_entries / 32) ->
        ∀ target size, 0 < size -> size <= target -> target <= kMaxNumBlocks ->
          0 < last.file.header.emptyAt (target - 1) ->
          ∃ index, ((createMapBlock target size).run
            { last.file with
              header := { last.file.header with hints := hints } }).value = some index := by
  have holds := run.invariant (fun s => s.Consistent)
    Consistent.performed (start_consistent index file_type)
  refine ⟨holds.apart, ?_, holds.bits, ?_, holds.num_entries, holds.valid.hints, ?_⟩
  · intro entry member
    obtain ⟨positive, fits, below⟩ := holds.placed entry member
    exact ⟨positive, by omega, below⟩
  · intro k low high
    have counted := holds.valid.counts (k - 1) (by omega)
    rwa [Nat.sub_add_cancel low] at counted
  · intro hints inside target size positive fits bounded counted
    obtain ⟨found, value, _⟩ := (holds.rehint hints inside).createMapBlock
      bounded positive fits counted
    exact ⟨found, value⟩

/-- Blocks are deleted in front of a used one. -/
theorem blockFile_run_consistent_reuse : ∃ last, Run Performed (start 0 .RANKINGS)
        [.createBlock 3 true 0, .createBlock 1 true 0, .deleteBlock 0 3] last ∧
      last.live = [(3, 1)] ∧ last.file.header.num_entries = last.live.length := by
  have stored : (0, 3) ∈ (((start 0 .RANKINGS).perform
      (.createBlock 3 true 0)).perform (.createBlock 1 true 0)).live := by
    decide +kernel
  have run : Run Performed (start 0 .RANKINGS)
      [.createBlock 3 true 0, .createBlock 1 true 0, .deleteBlock 0 3]
      ((((start 0 .RANKINGS).perform (.createBlock 3 true 0)).perform
        (.createBlock 1 true 0)).perform (.deleteBlock 0 3)) :=
    .cons ⟨trivial, rfl⟩ (.cons ⟨trivial, rfl⟩ (.single ⟨stored, rfl⟩))
  refine ⟨_, run, ?_, ?_⟩
  · decide +kernel
  · exact (blockFile_run_consistent run).2.2.2.2.1

end Session

end Chromium.DiskCache
