import Chromium.DiskCache.BlockFilesRuns

/-!
# Recovery of a block file

The process may stop at every write of an operation on the header, or of the
length of the file. Opening the file afterwards repairs the header, unless
the process stopped while it was growing the file, after the new nibbles were
counted and before the number of blocks was written.
-/

namespace Chromium.DiskCache

open Library

/-- The operations that may be stopped. -/
inductive Operation
  | createMapBlock (block_count : Nat)
  | deleteMapBlock (index size : Nat)
  | growBlockFile (lengthSet : Bool)

namespace Operation

/-- The states of a file during an operation, by the number of writes. -/
def stopped (file : BlockFile) : Operation -> (writes : Nat) -> BlockFile
  | .createMapBlock block_count =>
    (DiskCache.createMapBlock (targetSize file.header block_count) block_count).stopped file
  | .deleteMapBlock index size => (DiskCache.deleteMapBlock index size).stopped file
  | .growBlockFile lengthSet => (DiskCache.growBlockFile lengthSet).stopped file

/-- The file after an operation. -/
def result (file : BlockFile) : Operation -> BlockFile
  | .createMapBlock block_count =>
    ((DiskCache.createMapBlock (targetSize file.header block_count) block_count).run file).final
  | .deleteMapBlock index size => ((DiskCache.deleteMapBlock index size).run file).final
  | .growBlockFile lengthSet => ((DiskCache.growBlockFile lengthSet).run file).final

/-- A block is created in a file that need not grow, only stored entries are
deleted, and only a file that has to grow and is not full grows. -/
def Permitted (s : Session) : Operation -> Prop
  | .createMapBlock block_count => 1 <= block_count ∧ block_count <= 4 ∧
      needToGrowBlockFile s.file.header block_count = false
  | .deleteMapBlock index size => (index, size) ∈ s.live
  | .growBlockFile _ => kMaxBlocks ≠ s.file.header.max_entries ∧
      ∃ block_count, 1 <= block_count ∧ block_count <= 4 ∧
        needToGrowBlockFile s.file.header block_count = true

end Operation

/-- Opening a file succeeds and leaves a header that agrees with the length of
the file, with one of two maps and with its nibbles counted. -/
def Recovers (before after : AllocBitmap) (left : BlockFile) : Prop :=
  (openBlockFile.run left).value = true ∧ let opened := (openBlockFile.run left).final
    opened.length = opened.header.entry_size * opened.header.max_entries +
        kBlockHeaderSize ∧
      (opened.header.allocation_map = before ∨ opened.header.allocation_map = after) ∧
      ∀ k, 1 <= k -> k <= kMaxNumBlocks -> opened.header.emptyAt (k - 1) =
        tally (nibbleType opened.header.allocation_map) k (opened.header.max_entries / 4)

/-- A header that agrees with the length of its file. -/
structure Sized (file : BlockFile) : Prop where
  magic : file.header.magic = kBlockMagic
  version : file.header.version = kCurrentVersion
  entry_size_pos : 0 < file.header.entry_size
  entry_size_le : file.header.entry_size <= 4096
  length : file.length = file.header.entry_size * file.header.max_entries + kBlockHeaderSize
  chunks : file.header.max_entries % 32 = 0
  bounded : file.header.max_entries <= kMaxBlocks

theorem Valid.sized (ok : Valid file) : Sized file where
  magic := ok.magic
  version := ok.version
  entry_size_pos := ok.entry_size_pos
  entry_size_le := ok.entry_size_le
  length := ok.length
  chunks := ok.chunks
  bounded := ok.bounded

section Opening

variable {file left : BlockFile} {before after : AllocBitmap}

/-- Only a few fields decide whether a header agrees with its file. -/
theorem Sized.of_same (sized : Sized file) (length : left.length = file.length)
    (magic : left.header.magic = file.header.magic)
    (version : left.header.version = file.header.version)
    (entry_size : left.header.entry_size = file.header.entry_size)
    (max_entries : left.header.max_entries = file.header.max_entries) :
    Sized left where
  magic := magic.trans sized.magic
  version := version.trans sized.version
  entry_size_pos := by
    rw [entry_size]
    exact sized.entry_size_pos
  entry_size_le := by
    rw [entry_size]
    exact sized.entry_size_le
  length := by
    rw [length, entry_size, max_entries]
    exact sized.length
  chunks := by
    rw [max_entries]
    exact sized.chunks
  bounded := by
    rw [max_entries]
    exact sized.bounded

/-- The counts of all nibbles are the recount of a repair. -/
theorem CountsBelow.tally_eq (counts : CountsBelow (header.max_entries / 4) header) (k : Nat)
    (low : 1 <= k) (high : k <= kMaxNumBlocks) :
    header.emptyAt (k - 1) = tally (nibbleType header.allocation_map) k
      (header.max_entries / 4) := by
  have counted := counts (k - 1) (by omega)
  rwa [Nat.sub_add_cancel low] at counted

section

variable (magic : left.header.magic = kBlockMagic)
include magic

section

variable (version : left.header.version = kCurrentVersion)
include version

section

variable (long : kBlockHeaderSize <= left.length)
include long

/-- Opening checks the magic number and the version. -/
theorem openBlockFile_eq : openBlockFile.run left = (if left.header.updating ≠ 0 then do
        if !(← fixBlockFileHeader) then return false
        return true
      else return true : Logged BlockFile Bool).run left := by
  unfold openBlockFile
  rw [Logged.bind_run, Logged.read_run]
  dsimp only [id]
  rw [if_neg (by omega), if_neg (by rw [magic, version]; simp)]
  rfl

/-- A file whose flag is not raised is opened as it is. -/
theorem openBlockFile_of_lowered (lowered : left.header.updating = 0) :
    openBlockFile.run left = ⟨true, left, []⟩ := by
  rw [openBlockFile_eq magic version long, if_neg (not_not_intro lowered)]
  rfl

/-- A file whose flag is raised is repaired. -/
theorem openBlockFile_of_raised (raised : left.header.updating ≠ 0) :
    (openBlockFile.run left).value = (fixBlockFileHeader.run left).value ∧
      (openBlockFile.run left).final = (fixBlockFileHeader.run left).final := by
  rw [openBlockFile_eq magic version long, if_pos raised, Logged.bind_run, Logged.ite_run]
  cases fixed : (fixBlockFileHeader.run left).value <;> simp

end

/-- A repaired header recovers the file. -/
theorem recovers_of_repaired
    (sized : left.length = left.header.entry_size * entries + kBlockHeaderSize)
    (raised : left.header.updating ≠ 0) (chunks : entries % 32 = 0)
    (map : left.header.allocation_map = before ∨ left.header.allocation_map = after)
    (fixes : (fixBlockFileHeader.run left).value = true ∧
      Repaired left entries (fixBlockFileHeader.run left).final) :
    Recovers before after left := by
  obtain ⟨val, final⟩ := openBlockFile_of_raised magic version (by omega) raised
  obtain ⟨succeeds, repaired⟩ := fixes
  unfold Recovers
  rw [val, final]
  refine ⟨succeeds, ?_, ?_, CountsBelow.tally_eq ?_⟩
  · rw [repaired.length, repaired.entry_size, repaired.max_entries]
    exact sized
  · rw [repaired.allocation_map]
    exact map
  · rw [repaired.max_entries, show entries / 4 = 8 * (entries / 32) by omega]
    exact repaired.counts

end

end

/-- A sized header is recovered when its flag is raised, or its nibbles are
counted. -/
theorem Sized.recovers (sized : Sized left)
    (map : left.header.allocation_map = before ∨ left.header.allocation_map = after)
    (flag : left.header.updating ≠ 0 ∨ CountsBelow (left.header.max_entries / 4) left.header) :
    Recovers before after left := by
  by_cases lowered : left.header.updating = 0
  · unfold Recovers
    have long := sized.length
    rw [openBlockFile_of_lowered sized.magic sized.version (by omega) lowered]
    exact ⟨rfl, sized.length, map, (flag.resolve_left (not_not_intro lowered)).tally_eq⟩
  · exact recovers_of_repaired sized.magic sized.version sized.length lowered
      sized.chunks map (fixBlockFileHeader_satisfies sized.length sized.bounded
        sized.entry_size_le rfl).final

/-- A stop under the raised flag is recovered. -/
theorem Underway.recovers (underway : Underway file map left) (sized : Sized file)
    (raised : file.header.updating + 1 ≠ 0) :
    Recovers file.header.allocation_map map left := by
  apply Sized.recovers
  · exact sized.of_same underway.length underway.magic underway.version
      underway.entry_size underway.max_entries
  · exact underway.allocation_map
  · rw [underway.updating]
    exact Or.inl raised

end Opening

/-- A stop of an operation on the map is recovered. -/
theorem recovers_of_edits {post : α -> BlockFile -> Prop}
    (ok : Valid file) (raised : file.header.updating + 1 ≠ 0)
    (retypes : Retypes file.header map type newType) (satisfied : Logged.Satisfies prog file
      (EditedOrUnderway file map entries type newType) post)
    (ends : ∀ val left, post val left -> left.length = file.length ∧
      Edited file.header map entries type newType left.header) :
    Recovers file.header.allocation_map (prog.run file).final.header.allocation_map
      (prog.stopped file writes) := by
  obtain ⟨endLength, ended⟩ := ends _ _ satisfied.final
  have complete : ∀ left, left.length = file.length ->
      Edited file.header map entries type newType left.header ->
      Recovers file.header.allocation_map map left := by
    intro left len edited
    have valid' := ok.edited len edited retypes
    exact valid'.sized.recovers (Or.inr edited.allocation_map) (Or.inr valid'.counts)
  rw [ended.allocation_map]
  rcases satisfied.stopped writes with same | (underway | ⟨len, edited⟩) | final
  · rw [same]
    exact ok.sized.recovers (Or.inl rfl) (Or.inr ok.counts)
  · exact underway.recovers ok.sized raised
  · exact complete _ len edited
  · rw [final]
    exact complete _ endLength ended

/-- A stop of a growth that fails is recovered. -/
theorem recovers_of_failed (ok : Valid ⟨header, len⟩)
    (room : kMaxBlocks ≠ header.max_entries) (raised : header.updating + 1 ≠ 0) :
    Recovers header.allocation_map after
      ((growBlockFile false).stopped ⟨header, len⟩ writes) := by
  have sized := ok.sized
  have chunks := sized.chunks
  have unset : ∀ left, Session.Unset header len left ->
      Recovers header.allocation_map after left := by
    rintro left ⟨repaired, same, rfl⟩
    refine Sized.recovers (sized.of_same same.length same.magic same.version
      same.entry_size same.max_entries) (Or.inl same.allocation_map) (Or.inl ?_)
    rw [BlockFileHeader.addUpdating_updating, same.updating]
    decide
  have failed := Session.growBlockFile_failed ok room
  rcases failed.stopped writes with same | (counting | repaired | ended) | final
  · rw [same]
    exact ok.sized.recovers (Or.inl rfl) (Or.inr ok.counts)
  · obtain ⟨empty, hints, recounted⟩ := counting
    rw [recounted]
    exact Sized.recovers (sized.of_same rfl rfl rfl rfl rfl) (Or.inl rfl) (Or.inl raised)
  · refine (sized.of_same repaired.length repaired.magic repaired.version
      repaired.entry_size repaired.max_entries).recovers
        (Or.inl repaired.allocation_map) (Or.inr ?_)
    simp only at chunks
    rw [repaired.max_entries, show header.max_entries / 4 = 8 * (header.max_entries / 32) by omega]
    exact repaired.counts
  · exact unset _ ended
  · rw [final]
    exact unset _ failed.final.2

set_option maxRecDepth 2048 in
/-- A stop of a growth is recovered unless the new nibbles were counted and
the number of blocks was not written. -/
theorem recovers_of_grown_iff {s : Session} (inv : s.Consistent)
    (room : kMaxBlocks ≠ s.file.header.max_entries) (none : s.file.header.emptyAt 3 = 0)
    (raised : s.file.header.updating + 1 ≠ 0) :
    Recovers s.file.header.allocation_map
        ((growBlockFile true).run s.file).final.header.allocation_map
        ((growBlockFile true).stopped s.file writes) ↔ writes ≠ 3 := by
  obtain ⟨⟨header, length⟩, live⟩ := s
  have ok := inv.valid
  have sized := ok.sized
  have ended := (inv.grow room none).1.valid
  obtain ⟨larger, within, chunks⟩ := Session.lt_grownSize ok.chunks ok.bounded room
  have ran := Session.growBlockFile_run length room
  have bytes : grownSize header.max_entries * header.entry_size + kBlockHeaderSize =
      header.entry_size * grownSize header.max_entries + kBlockHeaderSize := by
    rw [Nat.mul_comm]
  simp only at larger within chunks none room raised ended
  unfold Logged.stopped
  rw [ran] at ended ⊢
  match writes with
  | 0 => exact iff_of_true (sized.recovers (Or.inl rfl) (Or.inr ok.counts)) (by decide)
  | 1 =>
    exact iff_of_true (Sized.recovers (sized.of_same rfl rfl rfl rfl rfl) (Or.inl rfl)
        (Or.inl raised)) (by decide)
  | 2 =>
    refine iff_of_true ?_ (by decide)
    exact recovers_of_repaired sized.magic sized.version bytes raised chunks
      (Or.inl rfl) (fixBlockFileHeader_of_grown bytes within
        sized.entry_size_le sized.entry_size_pos
        (by
          simp only [List.getD_cons_succ, List.getD_cons_zero,
            BlockFileHeader.addUpdating_max_entries]
          omega) none)
  | 3 =>
    refine iff_of_false ?_ (by decide)
    simp only [List.getD_cons_succ, List.getD_cons_zero]
    rintro ⟨succeeds, _⟩
    rw [(openBlockFile_of_raised ?_ ?_ ?_ ?_).1] at succeeds
    · rw [fixBlockFileHeader_of_counted ?_ within ?_ ?_ ?_ ?_] at succeeds
      · exact absurd succeeds Bool.false_ne_true
      · exact bytes
      · exact sized.entry_size_le
      · simp only [BlockFileHeader.setEmpty_max_entries, BlockFileHeader.addUpdating_max_entries]
        omega
      · exact sized.entry_size_pos
      · rw [BlockFileHeader.emptyAt_setEmpty _ (by decide), if_pos rfl]
        omega
    · exact sized.magic
    · exact sized.version
    · exact Nat.le_add_left _ _
    · exact raised
  | 4 =>
    refine iff_of_true ?_ (by decide)
    simp only [List.getD_cons_succ, List.getD_cons_zero]
    refine Sized.recovers
      { magic := by simpa using sized.magic
        version := by simpa using sized.version
        entry_size_pos := by simpa using sized.entry_size_pos
        entry_size_le := by simpa using sized.entry_size_le
        length := by simpa using bytes
        chunks := by simpa using chunks
        bounded := by simpa using within }
      (Or.inl (by simp)) (Or.inl (by simpa using raised))
  | 5 | writes + 6 =>
    refine iff_of_true ?_ (by omega)
    exact ended.sized.recovers (Or.inr (by simp)) (Or.inr ended.counts)

namespace Session

/-- After every run on a new block file, a stop of an operation at any of its
writes, under the raised flag, is recovered when the file is opened, unless a
growth was stopped between its writes of the empty counter and of the number
of blocks. -/
theorem blockFile_recovers_iff
    {index : Nat} {file_type : FileType} {calls : List Call} {last : Session}
    (run : Run Performed (start index file_type) calls last)
    (op : Operation) (ok : op.Permitted last)
    (raised : last.file.header.updating + 1 ≠ 0) (writes : Nat) :
    Recovers last.file.header.allocation_map (op.result last.file).header.allocation_map
        (op.stopped last.file writes) ↔
      ¬ (op = .growBlockFile true ∧ writes = 3) := by
  have holds := run.invariant (fun s => s.Consistent)
    Consistent.performed (start_consistent index file_type)
  have valid := holds.valid
  cases op with
  | createMapBlock block_count =>
    obtain ⟨pos, small, ready⟩ := ok
    obtain ⟨fits, bounded, counted⟩ := valid.targetSize pos (exists_emptyAt_of_ready ready)
    obtain ⟨index, map, satisfied, retypes, _⟩ := valid.createMapBlock bounded pos fits counted
    refine iff_of_true ?_ (by simp)
    exact recovers_of_edits valid raised retypes satisfied (fun _ _ ended => ended.2)
  | deleteMapBlock first size =>
    obtain ⟨pos, fits, below⟩ := holds.placed _ ok
    obtain ⟨map, type, newType, satisfied, retypes, _⟩ :=
      valid.deleteMapBlock pos fits below (holds.used ok)
    refine iff_of_true ?_ (by simp)
    exact recovers_of_edits valid raised retypes satisfied (fun _ _ ended => ended)
  | growBlockFile lengthSet =>
    obtain ⟨room, block_count, pos, small, needed⟩ := ok
    cases lengthSet with
    | true =>
      rw [show (¬ (Operation.growBlockFile true = .growBlockFile true ∧
        writes = 3)) ↔ writes ≠ 3 by simp]
      exact recovers_of_grown_iff holds room (emptyAt_of_needToGrow valid room small needed) raised
    | false =>
      refine iff_of_true ?_ (by simp)
      exact recovers_of_failed valid room raised

/-- The first growth of a new file, stopped after the number of blocks was
written. -/
theorem blockFile_recovers_iff_grown : Recovers (start 0 .RANKINGS).file.header.allocation_map
      (Operation.result (start 0 .RANKINGS).file (.growBlockFile true)).header.allocation_map
      (Operation.stopped (start 0 .RANKINGS).file (.growBlockFile true) 4) :=
  (blockFile_recovers_iff (.nil (start 0 .RANKINGS)) (.growBlockFile true)
    ⟨by decide, 1, by decide, by decide, by decide +kernel⟩ (by decide)
    4).mpr (by simp)

/-- The first growth of a new file, stopped between its writes of the empty
counter and of the number of blocks, leaves a file that is not opened. -/
theorem growBlockFile_stopped_unusable :
    Operation.Permitted (start 0 .RANKINGS) (.growBlockFile true) ∧
      (start 0 .RANKINGS).file.header.updating = 0 ∧
      ¬ Recovers (start 0 .RANKINGS).file.header.allocation_map
        (Operation.result (start 0 .RANKINGS).file (.growBlockFile true)).header.allocation_map
        (Operation.stopped (start 0 .RANKINGS).file (.growBlockFile true) 3) := by
  refine ⟨⟨by decide, 1, by decide, by decide, by decide +kernel⟩, rfl, ?_⟩
  rintro ⟨succeeds, _⟩
  revert succeeds
  decide +kernel

end Session

end Chromium.DiskCache
