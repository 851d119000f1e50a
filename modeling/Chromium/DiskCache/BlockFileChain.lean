import Chromium.DiskCache.BlockFilesRuns

/-!
# Chains of block files

`BlockFiles` stores the blocks of each type in a chain of block files, each of
which links to the next one by its number. Files are added at the end of a
chain, and removed from it when they have no entries.
-/

namespace Chromium.DiskCache

section

open Library Function

def kMaxBlockFile : Nat := 255
def kFirstAdditionalBlockFile : Nat := 4

/-- The first file of the chain of a type, `block_type - 1`. -/
def FileType.firstFile : FileType -> Nat
  | .RANKINGS => 0
  | .BLOCK_256 => 1
  | .BLOCK_1K => 2
  | .BLOCK_4K => 3

/-- `RequiredFileType`; larger blocks have a file of their own. -/
def requiredFileType (size : Nat) : Option FileType :=
  if size < 1024 then some .BLOCK_256
  else if size < 4096 then some .BLOCK_1K
  else if size <= 4096 * 4 then some .BLOCK_4K
  else none

/-- The type of a block file with an entry size. -/
def typeOfEntrySize (entry_size : Nat) : Option FileType :=
  if entry_size = blockSizeForFileType .RANKINGS then some .RANKINGS
  else requiredFileType entry_size

/-- The address of a block. -/
structure Addr where
  file_type : FileType
  num_blocks : Nat
  fileNumber : Nat
  start_block : Nat
  deriving DecidableEq

/-- The block files on disk by their number, those that are mapped in
`block_files_`, and `init_`. -/
structure BlockFiles where
  files : Nat -> Option BlockFile
  opened : Nat -> Bool
  init_ : Bool

/-- What the operations on the file system do during one call: whether each
file can be opened, created, have its header written and be deleted, whether
the file of the links can be read as a whole, and whether the length of a file
can be set. A loop along a chain is followed for a number of rounds. -/
structure Environment where
  opens : Nat -> Bool
  readsLinks : Bool
  creates : Nat -> Bool
  writesHeader : Nat -> Bool
  deletes : Nat -> Bool
  lengthSet : Bool
  rounds : Nat

namespace BlockFiles

section

variable (state : BlockFiles)

/-- Replace one file on disk. -/
def setFile (number : Nat) (file : Option BlockFile) : BlockFiles :=
  { state with files := Function.update state.files number file }

theorem files_setFile_self : (state.setFile number file).files number = file :=
  update_self ..

theorem files_setFile_of_ne (other : index ≠ number) :
    (state.setFile number file).files index = state.files index :=
  update_of_ne other ..

/-- Map or unmap a file. -/
def setOpened (number : Nat) (opened : Bool) : BlockFiles :=
  { state with opened := Function.update state.opened number opened }

theorem opened_setOpened_self : (state.setOpened number value).opened number = value :=
  update_self ..

theorem opened_setOpened_of_ne (other : index ≠ number) :
    (state.setOpened number value).opened index = state.opened index :=
  update_of_ne other ..

/-- The process stops: only what is on disk stays. -/
def crashed : BlockFiles := { state with opened := fun _ => false, init_ := false }

end

/-- Run a program on one file; there is nothing to do for a missing one. -/
def onFile (number : Nat) (missing : α) (prog : Logged BlockFile α) : Logged BlockFiles α where
  run state :=
    match state.files number with
    | none => ⟨missing, state, []⟩
    | some file =>
      let outcome := prog.run file
      ⟨outcome.value, state.setFile number (some outcome.final),
        outcome.written.map fun left => state.setFile number (some left)⟩

/-- The header of a file. -/
def header (state : BlockFiles) (number : Nat) : BlockFileHeader :=
  ((state.files number).map BlockFile.header).getD .init

/-- `OpenBlockFile`. -/
def openBlockFile (env : Environment) (index : Nat) : Logged BlockFiles Bool := do
  let state ← Logged.read id
  if (state.files index).isNone ∨ !env.opens index then return false
  if !(← onFile index false DiskCache.openBlockFile) then return false
  if index = 0 ∧ !env.readsLinks then return false
  Logged.modify fun state => state.setOpened index true
  return true

section

variable (env : Environment)

/-- `GetFile`, for the number of a file. -/
def getFile (number : Nat) : Logged BlockFiles Bool := do
  let opened ← Logged.read fun state => state.opened number
  if opened then return true
  else openBlockFile env number

/-- `CreateBlockFile` without `force`: an existing file is not replaced. The
new file is empty until its header is written. -/
def createBlockFile (env : Environment) (index : Nat)
    (file_type : FileType) : Logged BlockFiles Bool := do
  let state ← Logged.read id
  if (state.files index).isSome ∨ !env.creates index then return false
  let file := DiskCache.createBlockFile index file_type
  Logged.persist fun state => state.setFile index (some { file with length := 0 })
  if !env.writesHeader index then return false
  Logged.persist fun state => state.setFile index (some file)
  return true

/-- `CreateNextBlockFile`, from a number on; zero means that there is no
number left. -/
def createNextBlockFile (env : Environment)
    (block_type : FileType) : (remaining number : Nat) -> Logged BlockFiles Nat
  | 0, _ => return 0
  | remaining + 1, number => do
      if ← createBlockFile env number block_type then return number
      else createNextBlockFile env block_type remaining (number + 1)

/-- `NextFile`. -/
def nextFile (env : Environment) (file : Nat) : Logged BlockFiles (Option Nat) := do
  let header ← Logged.read fun state => state.header file
  if header.next_file ≠ 0 then
    if ← getFile env header.next_file then return some header.next_file
    else return none
  match typeOfEntrySize header.entry_size with
  | none => return none
  | some type =>
    let new_file ← createNextBlockFile env type (kMaxBlockFile + 1 - kFirstAdditionalBlockFile)
      kFirstAdditionalBlockFile
    if new_file = 0 then return none
    onFile file () (DiskCache.nextFile new_file)
    if ← getFile env new_file then return some new_file
    else return none

/-- `FileForNewBlock`, from one file of the chain on. -/
def fileForNewBlock (env : Environment)
    (block_count : Nat) : (rounds file : Nat) -> Logged BlockFiles (Option Nat)
  | 0, _ => return none
  | rounds + 1, file => do
      let header ← Logged.read fun state => state.header file
      if needToGrowBlockFile header block_count then
        if kMaxBlocks = header.max_entries then
          match ← nextFile env file with
          | none => return none
          | some next => fileForNewBlock env block_count rounds next
        else if ← onFile file false (growBlockFile env.lengthSet) then return some file
        else return none
      else return some file

/-- `CreateBlock`. -/
def createBlock (block_type : FileType) (block_count : Nat) : Logged BlockFiles (Option Addr) := do
  if block_count < 1 ∨ 4 < block_count then return none
  let state ← Logged.read id
  if !state.init_ then return none
  match ← fileForNewBlock env block_count env.rounds block_type.firstFile with
  | none => return none
  | some file =>
    let header ← Logged.read fun state => state.header file
    let index ← onFile file none (createMapBlock (targetSize header block_count) block_count)
    return index.map fun index => ⟨block_type, block_count, header.this_file, index⟩

/-- `RemoveEmptyFile`, from one file of the chain on. -/
def removeEmptyFile (env : Environment) : (rounds file : Nat) -> Logged BlockFiles Unit
  | 0, _ => return ()
  | rounds + 1, file => do
      let header ← Logged.read fun state => state.header file
      if header.next_file = 0 then return ()
      if !(← getFile env header.next_file) then return ()
      let next_header ← Logged.read fun state => state.header header.next_file
      if next_header.num_entries = 0 then
        onFile file () (put fun header => header.setNextFile next_header.next_file)
        Logged.modify fun state => state.setOpened header.next_file false
        if env.deletes header.next_file then
          Logged.persist fun state => state.setFile header.next_file none
        removeEmptyFile env rounds file
      else removeEmptyFile env rounds header.next_file

/-- `DeleteBlock`, for a block of a block file. Overwriting the data of the
block is left out. -/
def deleteBlock (addr : Addr) : Logged BlockFiles Unit := do
  if !(← getFile env addr.fileNumber) then return ()
  onFile addr.fileNumber () (deleteMapBlock addr.start_block addr.num_blocks)
  let header ← Logged.read fun state => state.header addr.fileNumber
  if header.num_entries = 0 then
    match typeOfEntrySize header.entry_size with
    | none => return ()
    | some type => removeEmptyFile env env.rounds type.firstFile

/-- The loop of `Init` over the first files, for files that exist. -/
def initFiles (env : Environment) : List FileType -> Logged BlockFiles Bool
  | [] => return true
  | type :: rest => do
      if !(← openBlockFile env type.firstFile) then return false
      removeEmptyFile env env.rounds type.firstFile
      initFiles env rest

/-- `Init(false)`. -/
def init : Logged BlockFiles Bool := do
  if ← initFiles env [.RANKINGS, .BLOCK_256, .BLOCK_1K, .BLOCK_4K] then
    Logged.modify fun state => { state with init_ := true }
    return true
  else return false

end

/-- What `Init(true)` leaves: the first file of each chain. -/
def created : BlockFiles where
  files
    | 0 => some (DiskCache.createBlockFile 0 .RANKINGS)
    | 1 => some (DiskCache.createBlockFile 1 .BLOCK_256)
    | 2 => some (DiskCache.createBlockFile 2 .BLOCK_1K)
    | 3 => some (DiskCache.createBlockFile 3 .BLOCK_4K)
    | _ => none
  opened number := decide (number < kFirstAdditionalBlockFile)
  init_ := true

end BlockFiles

end

/-!
## Entries held by a block file

At every write of its header, a block file counts at least the entries that
are stored in it, whose bits are set in its allocation map.
-/

section

open Library

/-- A block file with its number that holds stored entries, given by their
first block and their number of blocks, and counts at least a number of
them. -/
structure Holds (number : Nat) (live : List (Nat × Nat)) (count : Nat)
    (file : BlockFile) : Prop where
  this_file : file.header.this_file = number
  entry_size : 0 < file.header.entry_size
  bounded : file.header.max_entries <= kMaxBlocks
  hints : ∀ index < kMaxNumBlocks, file.header.hintAt index <= file.header.max_entries / 32
  placed : ∀ entry ∈ live, 0 < entry.2 ∧ entry.1 % 4 + entry.2 <= 4 ∧ entry.1 / 32 < kMaxBlocks / 32
  apart : live.Pairwise Apart
  bits : ∀ entry ∈ live, ∀ pos, InRange entry.1 entry.2 pos ->
    Bitmap.bit file.header.allocation_map pos = true
  counted : (count : Int) <= file.header.num_entries

/-- A file that holds entries, with its link and its map. -/
structure Kept (number : Nat) (live : List (Nat × Nat)) (count : Nat) (next : Nat)
    (map : AllocBitmap)
    (file : BlockFile) : Prop extends Holds number live count file where
  next_file : file.header.next_file = next
  allocation_map : file.header.allocation_map = map

theorem Holds.kept (inv : Holds number live count file) :
    Kept number live count file.header.next_file file.header.allocation_map file :=
  { inv with
    next_file := rfl
    allocation_map := rfl }

section Keeps

theorem unlock_keeps : unlock.Keeps (Kept number live count next map) :=
  .persist fun _ kept => { kept with }

theorem setUpdating_keeps :
    (put fun header => header.setUpdating value).Keeps (Kept number live count next map) :=
  .persist fun _ kept => { kept with }

theorem addEmpty_keeps (i : Nat) (change : Int) :
    (put fun header => header.addEmpty i change).Keeps (Kept number live count next map) :=
  .persist fun _ kept => { kept with }

theorem setEmpty_keeps :
    (put fun header => header.setEmpty index value).Keeps (Kept number live count next map) :=
  .persist fun _ kept => { kept with }

theorem resetHint_keeps :
    (put fun header => header.setHint index 0).Keeps (Kept number live count next map) :=
  .persist fun file kept =>
    { kept with
      hints := by
        intro other bound
        rw [BlockFileHeader.hintAt_setHint _ bound]
        split
        · exact Nat.zero_le _
        · exact kept.hints other bound }

theorem countChunk_keeps (map_block : BitVec 32) :
    (countChunk map_block remaining).Keeps (Kept number live count next map) := by
  induction remaining generalizing map_block with
  | zero => exact .pure _
  | succ remaining ih =>
    unfold countChunk
    dsimp only
    split
    · exact .bind (addEmpty_keeps _ _) fun _ => ih _
    · exact ih _

theorem fixAllocationCounters_keeps :
    fixAllocationCounters.Keeps (Kept number live count next map) := by
  refine .bind (.forM fun i _ => ?_) fun _ => ?_
  · exact .bind resetHint_keeps fun _ => setEmpty_keeps
  · refine .read_bind fun file kept => ?_
    refine Logged.Keeps.forM (fun i _ => ?_) file kept
    refine .read_bind fun file kept => ?_
    exact countChunk_keeps _ file kept

/-- A file grows to at most the largest number of blocks. -/
theorem Kept.setMaxEntries (kept : Kept number live count next map file)
    (grown : file.header.max_entries <= value)
    (bounded : value <= kMaxBlocks) :
    Kept number live count next map { file with header := file.header.setMaxEntries value } :=
  { kept with
    bounded := bounded
    hints := by
      intro i inside
      have before := kept.hints i inside
      exact before.trans (Nat.div_le_div_right grown) }

theorem fixBlockFileHeader_keeps : fixBlockFileHeader.Keeps (Kept number live count next map) := by
  have repaired : Logged.Keeps (do
        fixAllocationCounters
        put fun header => header.setUpdating 0
        return true)
      (Kept number live count next map) :=
    .bind fixAllocationCounters_keeps fun _ => .bind setUpdating_keeps fun _ => .pure true
  refine .read_bind fun file kept => ?_
  dsimp only [id]
  generalize toInt32 file.length = file_size
  split
  · exact .pure kept
  split
  · split
    · exact .pure kept
    · rename_i fits
      rw [not_or, not_or] at fits
      have pos : (0 : Int) < file.header.entry_size := by exact_mod_cast kept.entry_size
      have grown : file.header.max_entries <= ((file_size - kBlockHeaderSize) /
              file.header.entry_size).toNat := by
        have quotient : (file.header.max_entries : Int) <=
            (file_size - kBlockHeaderSize) / file.header.entry_size := by
          rw [Int.le_ediv_iff_mul_le pos, Int.mul_comm]
          omega
        omega
      have bound : ((file_size - kBlockHeaderSize) /
            file.header.entry_size).toNat <= kMaxBlocks := by
        have quotient : (file_size - kBlockHeaderSize) / file.header.entry_size <=
              (kMaxBlocks : Int) := by
          apply Int.ediv_le_of_le_mul pos
          rw [Int.mul_comm]
          omega
        omega
      have widened := kept.setMaxEntries grown bound
      exact .bind (.persist widened (repaired _ widened))
  · exact repaired file kept

theorem openBlockFile_keeps : openBlockFile.Keeps (Kept number live count next map) := by
  refine .read_bind fun file kept => ?_
  split
  · exact .pure kept
  split
  · exact .pure kept
  split
  · refine Logged.Keeps.bind fixBlockFileHeader_keeps (fun fixed => ?_) file kept
    split
    · exact .pure false
    · exact .pure true
  · exact .pure kept

theorem growBlockFile_keeps :
    (growBlockFile lengthSet).Keeps (Kept number live count next map) := by
  refine .read_bind fun file kept => ?_
  split
  · exact .pure kept
  have grown : file.header.max_entries <= grownSize file.header.max_entries ∧
      grownSize file.header.max_entries <= kMaxBlocks := by
    have bound := kept.bounded
    unfold grownSize
    split <;> omega
  have locked : Kept number live count next map { file with header := file.header.addUpdating 1 } :=
    { kept with }
  refine .bind (.persist locked ?_)
  cases lengthSet with
  | false =>
    have released (val : Bool) : Logged.Keeps (do
          unlock
          return val)
        (Kept number live count next map) :=
      .bind unlock_keeps fun _ => .pure val
    have ended : Logged.Keeps (do
          let header ← Logged.read (·.header)
          unlock
          return decide (grownSize file.header.max_entries <= header.max_entries))
        (Kept number live count next map) :=
      .read_bind fun file kept => released _ file kept
    refine Logged.Keeps.read_bind (fun file kept => ?_) _ locked
    split
    · refine Logged.Keeps.bind fixBlockFileHeader_keeps (fun fixed => ?_) file kept
      split
      · exact .bind setUpdating_keeps fun _ => released false
      · exact ended
    · exact ended file kept
  | true =>
    have lengthened (length : Nat) : Kept number live count next map
        { header := file.header.addUpdating 1, length := length } :=
      { kept with }
    refine .bind (.persist (lengthened _) ?_)
    have counted (length : Nat) (val : Int) : Kept number live count next map
        { header := (file.header.addUpdating 1).setEmpty 3 val, length := length } :=
      { kept with }
    refine .bind (.persist (counted _ _) ?_)
    have widened := (counted (grownSize file.header.max_entries *
      file.header.entry_size + kBlockHeaderSize)
      ((grownSize file.header.max_entries - file.header.max_entries) /
        4)).setMaxEntries grown.1 grown.2
    refine .bind (.persist widened ?_)
    exact Logged.Keeps.bind unlock_keeps (fun _ => .pure true) _ widened

theorem nextFile_satisfies (kept : Kept number live count 0 map file) (pos : new_file ≠ 0) :
    Logged.Satisfies (DiskCache.nextFile new_file) file
      (fun left => Kept number live count 0 map left ∨ Kept number live count new_file map left)
      fun _ left => Kept number live count new_file map left := by
  have locked : Kept number live count 0 map { file with header := file.header.addUpdating 1 } :=
    { kept with }
  have linked : Kept number live count new_file map { file with
        header := (file.header.addUpdating 1).setNextFile new_file } :=
    { kept with
      next_file := rfl }
  have unlocked : Kept number live count new_file map { file with
        header := ((file.header.addUpdating 1).setNextFile new_file).addUpdating (-1) } :=
    { linked with }
  refine .bind (.read ?_)
  rw [if_pos ⟨kept.next_file, pos⟩]
  refine .bind (.persist (Or.inl locked) ?_)
  refine .bind (.persist (Or.inr linked) ?_)
  exact .persist (Or.inr unlocked) unlocked

end Keeps

theorem targetSize_eq_zero_or_le :
    targetSize header block_count = 0 ∨ block_count <= targetSize header block_count := by
  unfold targetSize
  cases found : (List.range' block_count (5 - block_count)).find? fun i =>
      decide (header.emptyAt (i - 1) ≠ 0) with
  | none => exact Or.inl rfl
  | some size =>
    have mem := List.mem_of_find?_eq_some found
    rw [List.mem_range'_1] at mem
    exact Or.inr mem.1

section Entries

theorem Kept.tail (kept : Kept number (entry :: live) (count + 1) next map file) :
    Kept number live count next map file :=
  { kept with
    placed := (List.forall_mem_cons.mp kept.placed).2
    apart := kept.apart.of_cons
    bits := (List.forall_mem_cons.mp kept.bits).2
    counted := by
      have counted := kept.counted
      omega }

/-- An entry whose bits were set is added when it is counted. -/
theorem Kept.add (kept : Kept number live count next map file)
    (placed : 0 < entry.2 ∧ entry.1 % 4 + entry.2 <= 4 ∧ entry.1 / 32 < kMaxBlocks / 32)
    (apart : ∀ other ∈ live, Apart entry other)
    (bits : ∀ pos, InRange entry.1 entry.2 pos -> Bitmap.bit map pos = true) :
    Kept number (entry :: live) (count + 1) next map
      { file with header := file.header.addEntries 1 } :=
  { kept with
    placed := by
      rintro other (_ | ⟨_, mem⟩)
      · exact placed
      · exact kept.placed other mem
    apart := List.pairwise_cons.mpr ⟨apart, kept.apart⟩
    bits := by
      rintro other (_ | ⟨_, mem⟩)
      · rw [BlockFileHeader.addEntries_allocation_map, kept.allocation_map]
        exact bits
      · exact kept.bits other mem
    counted := by
      have counted := kept.counted
      rw [BlockFileHeader.addEntries_num_entries]
      omega }

/-- Creating an entry, or none, adds it to those that are held. -/
theorem createMapBlock_holds (kept : Kept number live live.length next map file)
    (fits : target = 0 ∨ size <= target) :
    Logged.Satisfies (createMapBlock target size) file
      (fun left => ∃ map, Kept number live live.length next map left)
      fun val left =>
        let stored := (val.map fun i => (i, size)).toList ++ live
        ∃ map, Kept number stored stored.length next map left := by
  unfold createMapBlock
  split
  · exact .pure ⟨map, kept⟩
  rename_i valid
  have small : target <= 4 ∧ 0 < size ∧ size <= target := by
    simp only [kMaxNumBlocks] at valid
    omega
  refine .bind (.read ?_)
  cases found : searchMap file.header target (file.header.max_entries / 32)
      (file.header.hintAt (target - 1)) with
  | none =>
    refine .bind ((fixAllocationCounters_keeps file kept).imp ?_ ?_)
    · exact fun left kept => ⟨map, kept⟩
    · exact fun _ left kept => .pure ⟨map, kept⟩
  | some place =>
    obtain ⟨cur, j⟩ := place
    obtain ⟨inside, low, isTarget⟩ := searchMap_eq_some found
      (kept.hints (target - 1) (by simp only [kMaxNumBlocks]; omega))
      (Nat.le_refl _)
    have within := kept.bounded
    have taken := bit_take file.header.allocation_map
      (show cur < kMaxBlocks / 32 by omega) (show size < 32 by omega)
      (show j * 4 + 4 - target + size <= 32 by omega)
    generalize mapIs : file.header.allocation_map.setIfInBounds cur
        (Bitmap.word file.header.allocation_map cur |||
          Bitmap.mask 32 size (j * 4 + 4 - target)) = map' at taken
    -- The range in the chunk is the one at the end of the nibble.
    have place : cur * 32 + (j * 4 + 4 - target) = 4 * (8 * cur + j) + (4 - target) := by
      omega
    generalize indexIs : cur * 32 + (j * 4 + 4 - target) = i at taken place
    have free : ∀ pos, InRange i size pos ->
        Bitmap.bit file.header.allocation_map pos = false := by
      rintro pos ⟨above, high⟩
      rw [place] at above high
      exact bit_of_nibbleType isTarget small.1 ⟨above, by omega⟩
    have marked : Kept number live live.length next map' { file with
          header := (file.header.addUpdating 1).setMap map' } :=
      { kept with
        bits := by
          intro entry mem pos range
          have used := kept.bits entry mem pos range
          rw [BlockFileHeader.setMap_allocation_map, taken, used, Bool.true_or]
        allocation_map := rfl }
    have hinted : Kept number live live.length next map' { file with
          header := ((file.header.addUpdating 1).setMap map').setHint (target - 1) cur } :=
      { marked with
        hints := by
          intro other bound
          rw [BlockFileHeader.hintAt_setHint _ bound]
          split
          · exact Nat.le_of_lt inside
          · exact marked.hints other bound }
    have lowered : Kept number live live.length next map' { file with
          header :=
            (((file.header.addUpdating 1).setMap map').setHint (target - 1)
              cur).addEmpty (target - 1) (-1) } :=
      { hinted with }
    have added : Kept number ((i, size) :: live) (live.length + 1) next map'
        { file with
          header :=
            ((((file.header.addUpdating 1).setMap map').setHint (target - 1)
              cur).addEmpty (target - 1) (-1)).addEntries 1 } := by
      apply lowered.add
      · exact ⟨small.2.1, by dsimp only; omega, by dsimp only; omega⟩
      · intro other mem
        apply Session.apart_of_disjoint small.2.1 (kept.placed other mem).1
        intro pos range used
        have bit := kept.bits other mem pos used
        rw [free pos range] at bit
        exact Bool.false_ne_true bit
      · intro pos range
        rw [taken, decide_eq_true range, Bool.or_true]
    have ended : ∀ left, Kept number ((i, size) :: live) (live.length + 1) next map' left ->
        Logged.Satisfies (do
            unlock
            return some i)
          left
          (fun left => ∃ map, Kept number live live.length next map left)
          fun val left =>
            let stored := (val.map fun i => (i, size)).toList ++ live
            ∃ map, Kept number stored stored.length next map left := by
      intro left kept
      refine .bind ((unlock_keeps left kept).imp ?_ ?_)
      · exact fun _ kept => ⟨map', kept.tail⟩
      · exact fun _ _ kept => .pure ⟨map', kept⟩
    dsimp only
    rw [indexIs]
    subst mapIs
    refine .bind (.persist ⟨_, { kept with }⟩ ?_)
    refine .bind (.persist ⟨_, marked⟩ ?_)
    refine .bind (.persist ⟨_, hinted⟩ ?_)
    refine .bind (.persist ⟨_, lowered⟩ ?_)
    refine .bind (.persist ⟨_, added.tail⟩ ?_)
    split
    · exact .bind (.persist ⟨_, { added.tail with }⟩ (ended _ { added with }))
    · exact ended _ added

/-- The count of a file is at least any smaller one. -/
theorem Kept.countLE (kept : Kept number live count next map file) (fewer : count' <= count) :
    Kept number live count' next map file :=
  { kept with
    counted := by
      have counted := kept.counted
      omega }

/-- Deleting a stored entry takes it from those that are held. -/
theorem deleteMapBlock_holds (kept : Kept number live live.length next map file)
    (mem : (i, size) ∈ live) :
    let rest := live.erase (i, size)
    let freed := fun left => ∃ map, Kept number rest rest.length next map left ∧
      Bitmap.bit map i = false
    Logged.Satisfies (deleteMapBlock i size) file
      (fun left => Kept number live live.length next map left ∨ freed left)
      fun _ left => freed left := by
  intro rest freed
  obtain rfl := kept.allocation_map
  obtain ⟨positive, fits, inside⟩ := kept.placed _ mem
  have shorter : rest.length + 1 = live.length := by
    have some := List.length_pos_of_mem mem
    rw [List.length_erase_of_mem mem]
    omega
  have apart := ((List.perm_cons_erase mem).pairwise_iff Apart.symm).mp kept.apart
  rw [List.pairwise_cons] at apart
  have cleared := bit_free file.header.allocation_map inside (show size < 8 by omega) (by omega)
  generalize mapIs : setByteMap file.header.allocation_map (i / 8)
      (byteMap file.header.allocation_map (i / 8) &&&
        ~~~Bitmap.mask 8 size (i % 8)) = map' at cleared
  have firstCleared : Bitmap.bit map' i = false := by
    rw [cleared, decide_eq_true ⟨Nat.le_refl _, by omega⟩, Bool.not_true, Bool.and_false]
  have locked : Kept number live live.length next file.header.allocation_map
      { file with header := file.header.addUpdating 1 } :=
    { kept with }
  have marked : Kept number rest live.length next map'
      { file with header := (file.header.addUpdating 1).setMap map' } :=
    { kept with
      placed := fun other stored => kept.placed other (List.mem_of_mem_erase stored)
      apart := apart.2
      bits := by
        intro other stored pos range
        have used := kept.bits other (List.mem_of_mem_erase stored) pos range
        have outside : ¬ InRange i size pos := by
          have distinct := apart.1 other stored
          simp only [Apart, InRange] at distinct range ⊢
          omega
        rw [BlockFileHeader.setMap_allocation_map, cleared, used,
          decide_eq_false outside, Bool.not_false, Bool.and_true]
      allocation_map := rfl }
  have freedOf : ∀ left, Kept number rest live.length next map' left -> freed left :=
    fun left kept => ⟨map', kept.countLE (by omega), firstCleared⟩
  have ended : ∀ left, Kept number rest live.length next map' left -> Logged.Satisfies (do
          put fun header => header.addEntries (-1)
          unlock)
        left
        (fun left => Kept number live live.length next file.header.allocation_map left ∨ freed left)
        fun _ left => freed left := by
    intro left kept
    have removed : Kept number rest rest.length next map'
        { left with header := left.header.addEntries (-1) } :=
      { kept with
        counted := by
          have counted := kept.counted
          rw [BlockFileHeader.addEntries_num_entries]
          omega }
    refine .bind (.persist (Or.inr ⟨map', removed, firstCleared⟩) ?_)
    apply (unlock_keeps _ removed).imp
    · exact fun _ kept => Or.inr ⟨map', kept, firstCleared⟩
    · exact fun _ _ kept => ⟨map', kept, firstCleared⟩
  have counting : ∀ i change left, Kept number rest live.length next map' left ->
      Kept number rest live.length next map'
        { left with header := left.header.addEmpty i change } :=
    fun _ _ _ kept => { kept with }
  have ok : ¬ kMaxNumBlocks < size := by
    simp only [kMaxNumBlocks]
    omega
  unfold deleteMapBlock
  rw [if_neg ok]
  refine .bind (.read ?_)
  dsimp only
  generalize getMapBlockType _ = new_type
  subst mapIs
  refine .bind (.persist (Or.inl locked) ?_)
  refine .bind (.persist (Or.inr (freedOf _ marked)) ?_)
  split
  · split
    · have lowered := counting (4 - size - i % 4 - 1) (-1) _ marked
      refine .bind (.persist (Or.inr (freedOf _ lowered)) ?_)
      have raised := counting (new_type - 1) 1 _ lowered
      exact .bind (.persist (Or.inr (freedOf _ raised)) (ended _ raised))
    · have raised := counting (new_type - 1) 1 _ marked
      exact .bind (.persist (Or.inr (freedOf _ raised)) (ended _ raised))
  · exact ended _ marked

end Entries

end

end Chromium.DiskCache
