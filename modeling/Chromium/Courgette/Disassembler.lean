import Chromium.Courgette.AssemblyProgram
import Chromium.Library.Tiling

/-!
# Disassembly of executable files

The disassembler walks over all bytes of a file, section by section, and emits
references at the locations that are listed or found.
-/

namespace Chromium.Courgette

open List

structure Section where
  name : List Byte
  virtual_size : BitVec 32
  virtual_address : RVA
  size_of_raw_data : BitVec 32
  file_offset_of_raw_data : BitVec 32
deriving DecidableEq

structure ImageDataDirectory where
  address_ : RVA
  size_ : BitVec 32
deriving DecidableEq

/-- A `PEInfo` whose header has been parsed, with the bytes in memory. -/
structure PEInfo where
  bytes : List Byte
  file_length : BitVec 32
  sections : List Section
  number_of_sections : sections.length < 2 ^ 16
  image_base : BitVec 32
  size_of_image : BitVec 32
  base_relocation_table : ImageDataDirectory

/-- `Read32LittleEndian`. There is nothing behind the bytes in memory. -/
def read32LittleEndian (bytes : List Byte) (addr : Nat) : Option (BitVec 32) :=
  match bytes.drop addr with
  | first :: second :: third :: fourth :: _ => some (fourth ++ third ++ second ++ first)
  | _ => none

namespace PEInfo

variable (pe_info : PEInfo)

def isValidRVA (rva : RVA) : Bool := rva.toNat < pe_info.size_of_image.toNat

/-- `PEInfo::FindNextSection`. -/
def findNextSection (fileOffset : BitVec 32) : Option Section :=
  pe_info.sections.foldl (fun best sec =>
      if 0 < sec.size_of_raw_data.toNat then
        if fileOffset.toNat <= sec.file_offset_of_raw_data.toNat then
          match best with
          | none => some sec
          | some other =>
            if sec.file_offset_of_raw_data.toNat < other.file_offset_of_raw_data.toNat then
              some sec
            else some other
        else best
      else best)
    none

/-- `PEInfo::FileOffsetToRVA`. -/
def fileOffsetToRVA (file_offset : BitVec 32) : RVA :=
  match pe_info.sections.find? fun sec =>
      (file_offset - sec.file_offset_of_raw_data).toNat < sec.size_of_raw_data.toNat with
  | some sec => sec.virtual_address + (file_offset - sec.file_offset_of_raw_data)
  | none => 0#32

/-- The loop over the sections in a file. Each round takes another section. -/
def forEachSection (pe_info : PEInfo)
    (visit : State -> BitVec 32 -> Section -> BitVec 32 -> Option State) :
    Nat -> BitVec 32 -> State -> Option State
  | 0, _, _ => none
  | rounds + 1, file_offset, state =>
    if file_offset.toNat < pe_info.file_length.toNat then
      match pe_info.findNextSection file_offset with
      | none => some state
      | some sec => do
          let start :=
            if file_offset.toNat < sec.file_offset_of_raw_data.toNat then
              sec.file_offset_of_raw_data
            else file_offset
          let state ← visit state file_offset sec start
          pe_info.forEachSection visit rounds (start + sec.size_of_raw_data) state
    else some state

/-- The name of a section is `.text`. -/
def isCode (sec : Section) : Bool :=
  sec.name.take 6 = [0x2e#8, 0x74#8, 0x65#8, 0x78#8, 0x74#8, 0x00#8]

/-- The operand of an instruction with a rel32 addressing mode, if the bytes
look like the start of one. -/
def rel32Candidate (bytes : List Byte) (p end_pointer : Nat) : Option Nat :=
  let call :=
    if p + 5 < end_pointer ∧ (bytes[p]? = some 0xE8#8 ∨ bytes[p]? = some 0xE9#8) then some (p + 1)
    else none
  match bytes[p + 1]? with
  | none => call
  | some second =>
    if p + 6 < end_pointer ∧ bytes[p]? = some 0x0F#8 ∧
        second &&& 0xF0#8 = 0x80#8 ∧ second ≠ 0x8A#8 ∧ second ≠ 0x8B#8 then
      some (p + 2)
    else call

/-- The loop of `ParseRel32RelocsFromSection`. Each round goes on by a byte at
least. -/
def rel32Loop (pe_info : PEInfo) (start_pointer end_pointer : Nat) (start_rva end_rva : RVA) :
    Nat -> Nat -> List RVA -> Option (List RVA)
  | 0, _, _ => none
  | rounds + 1, p, abs32_pos =>
    if p < end_pointer then
      let current_rva := start_rva + BitVec.ofNat 32 (p - start_pointer)
      let relocs := pe_info.base_relocation_table
      if current_rva = relocs.address_ ∧ relocs.size_ ≠ 0#32 then
        pe_info.rel32Loop start_pointer end_pointer start_rva end_rva rounds
          (p + relocs.size_.toNat) abs32_pos
      else
        match rel32Candidate pe_info.bytes p end_pointer with
        | none =>
          pe_info.rel32Loop start_pointer end_pointer start_rva end_rva rounds (p + 1) abs32_pos
        | some rel32 => do
            let rel32_rva := start_rva + BitVec.ofNat 32 (rel32 - start_pointer)
            let abs32_pos := abs32_pos.dropWhile fun rva => rva.toNat < (rel32_rva - 3#32).toNat
            -- Is there an abs32 reloc overlapping the candidate?
            match abs32_pos.head?.filter fun rva => rva.toNat < (rel32_rva + 4#32).toNat with
            | some rva =>
              pe_info.rel32Loop start_pointer end_pointer start_rva end_rva
                rounds (p + (rva + 4#32 - current_rva).toNat) abs32_pos
            | none =>
              let offset ← read32LittleEndian pe_info.bytes rel32
              let target_rva := rel32_rva + 4#32 + offset
              if pe_info.isValidRVA target_rva ∧ start_rva.toNat <= target_rva.toNat ∧
                  target_rva.toNat < end_rva.toNat then
                let locations ← pe_info.rel32Loop start_pointer end_pointer
                  start_rva end_rva rounds (p + 4) abs32_pos
                return rel32_rva :: locations
              else
                pe_info.rel32Loop start_pointer end_pointer start_rva
                  end_rva rounds (p + 1) abs32_pos
    else some []

/-- `ParseRel32RelocsFromSection`, with the locations that are added. -/
def parseRel32RelocsFromSection (abs32_locations : List RVA) (sec : Section) : Option (List RVA) :=
  if isCode sec then
    let start_file_offset := sec.file_offset_of_raw_data
    let end_file_offset := start_file_offset + sec.size_of_raw_data
    let start_rva := pe_info.fileOffsetToRVA start_file_offset
    pe_info.rel32Loop start_file_offset.toNat end_file_offset.toNat start_rva
      (start_rva + sec.virtual_size)
      (sec.size_of_raw_data.toNat + 1) start_file_offset.toNat
      abs32_locations
  else some []

/-- `ParseRel32RelocsFromSections`. -/
def parseRel32RelocsFromSections (abs32_locations : List RVA) : Option (List RVA) := do
  let rel32_locations ← pe_info.forEachSection (fun rel32_locations _ sec _ => do
      let locations ← pe_info.parseRel32RelocsFromSection abs32_locations sec
      return rel32_locations ++ locations)
    (pe_info.sections.length + 1) 0#32 []
  return sortRelocs rel32_locations

end PEInfo

namespace RVAToLabel

/-- `AssemblyProgram::FindLabel`, which makes a label where there is none. -/
def insertLabel (rva : RVA) : List Label -> List Label
  | [] => [⟨rva, Label.kNoIndex⟩]
  | label :: rest =>
    if rva.toNat < label.rva.toNat then ⟨rva, Label.kNoIndex⟩ :: label :: rest
    else if rva = label.rva then label :: rest
    else label :: insertLabel rva rest

theorem mem_insertLabel {labels : List Label} (mem : label ∈ insertLabel rva labels) :
    label = ⟨rva, Label.kNoIndex⟩ ∨ label ∈ labels := by
  induction labels with
  | nil => exact Or.inl (mem_singleton.mp mem)
  | cons first rest ih =>
    rw [insertLabel] at mem
    split_ifs at mem with before same
    · exact mem_cons.mp mem
    · exact Or.inr mem
    · rcases mem_cons.mp mem with rfl | later
      · exact Or.inr mem_cons_self
      · exact (ih later).imp_right (mem_cons_of_mem first)

theorem insertLabel_sorted {labels : List Label}
    (sorted : labels.Pairwise fun left right => left.rva.toNat < right.rva.toNat) :
    (insertLabel rva labels).Pairwise fun left right => left.rva.toNat < right.rva.toNat := by
  induction labels with
  | nil => exact pairwise_singleton _ _
  | cons first rest ih =>
    obtain ⟨beforeRest, sortedRest⟩ := pairwise_cons.mp sorted
    rw [insertLabel]
    split_ifs with before same
    · apply pairwise_cons.mpr
      refine ⟨fun label mem => ?_, sorted⟩
      rcases mem_cons.mp mem with rfl | later
      · exact before
      · exact Nat.lt_trans before (beforeRest label later)
    · exact sorted
    · apply pairwise_cons.mpr
      refine ⟨fun label mem => ?_, ih sortedRest⟩
      rcases mem_insertLabel mem with rfl | later
      · have ne : rva.toNat ≠ first.rva.toNat :=
          fun equal => same (BitVec.eq_of_toNat_eq equal)
        show first.rva.toNat < rva.toNat
        omega
      · exact beforeRest label later

def findOrMake (table : RVAToLabel) (rva : RVA) : RVAToLabel :=
  ⟨insertLabel rva table.labels, insertLabel_sorted table.sorted⟩

/-- `DefaultAssignIndexes`, for a set of labels. -/
def defaultAssignIndexes (table : RVAToLabel) : RVAToLabel where
  labels := table.labels.mapIdx fun index label => { label with index := (index : Int) }
  sorted := by
    rw [List.pairwise_iff_getElem]
    intro left right insideLeft insideRight less
    rw [List.length_mapIdx] at insideLeft insideRight
    rw [List.getElem_mapIdx, List.getElem_mapIdx]
    exact List.pairwise_iff_getElem.mp table.sorted left right insideLeft insideRight less

end RVAToLabel

namespace AssemblyProgram

/-- Emit an instruction, with a new label if it refers to one. -/
def emit (prog : AssemblyProgram) (inst : Instruction) : AssemblyProgram :=
  { prog with
    instructions := prog.instructions ++ [inst]
    abs32_labels :=
      match inst with
      | .abs32 rva => prog.abs32_labels.findOrMake rva
      | _ => prog.abs32_labels
    rel32_labels :=
      match inst with
      | .rel32 rva => prog.rel32_labels.findOrMake rva
      | _ => prog.rel32_labels }

def defaultAssignIndexes (prog : AssemblyProgram) : AssemblyProgram :=
  { prog with
    abs32_labels := prog.abs32_labels.defaultAssignIndexes
    rel32_labels := prog.rel32_labels.defaultAssignIndexes }

end AssemblyProgram

structure Disassembler where
  pe_info : PEInfo
  incomplete_disassembly : Bool
  abs32_locations : List RVA
  rel32_locations : List RVA

namespace Disassembler

variable (dis : Disassembler)

/-- `ParseNonSectionFileRegion`. -/
def parseNonSectionFileRegion (start_file_offset end_file_offset : BitVec 32)
    (prog : AssemblyProgram) : AssemblyProgram :=
  if dis.incomplete_disassembly then prog
  else
    ((dis.pe_info.bytes.drop start_file_offset.toNat).take
      (end_file_offset.toNat - start_file_offset.toNat)).foldl
        (fun prog byte => prog.emit (.byte byte)) prog

/-- The loop of `ParseFileRegion`. Each round goes on by a byte at least. -/
def fileRegionLoop (dis : Disassembler) (start_pointer end_pointer : Nat)
    (start_rva end_rva : RVA) :
    Nat -> Nat -> List RVA -> List RVA -> AssemblyProgram -> Option AssemblyProgram
  | 0, _, _, _, _ => none
  | rounds + 1, p, abs32_pos, rel32_pos, prog =>
    if p < end_pointer then
      let pe_info := dis.pe_info
      let relocs := pe_info.base_relocation_table
      let current_rva := start_rva + BitVec.ofNat 32 (p - start_pointer)
      let prog :=
        if current_rva = relocs.address_ then prog.emit .makeRelocs
        else prog
      if current_rva = relocs.address_ ∧ relocs.size_ ≠ 0#32 then
        dis.fileRegionLoop start_pointer end_pointer start_rva
          end_rva rounds (p + relocs.size_.toNat) abs32_pos rel32_pos prog
      else
        let abs32_pos := abs32_pos.dropWhile fun rva => rva.toNat < current_rva.toNat
        if abs32_pos.head? = some current_rva then do
          let target_address ← read32LittleEndian pe_info.bytes p
          dis.fileRegionLoop start_pointer end_pointer start_rva
            end_rva rounds (p + 4) abs32_pos rel32_pos
            (prog.emit (.abs32 (target_address - pe_info.image_base)))
        else
          let rel32_pos := rel32_pos.dropWhile fun rva => rva.toNat < current_rva.toNat
          if rel32_pos.head? = some current_rva then do
            let offset ← read32LittleEndian pe_info.bytes p
            dis.fileRegionLoop start_pointer end_pointer start_rva
              end_rva rounds (p + 4) abs32_pos rel32_pos
              (prog.emit (.rel32 (current_rva + 4#32 + offset)))
          else if dis.incomplete_disassembly ∧
              (∀ rva ∈ abs32_pos.head?, end_rva.toNat <= rva.toNat) ∧
              (∀ rva ∈ rel32_pos.head?, end_rva.toNat <= rva.toNat) ∧
              (end_rva.toNat <= relocs.address_.toNat ∨
                relocs.address_.toNat <= current_rva.toNat) then
            -- No more relocs in this section.
            some prog
          else do
            let byte ← pe_info.bytes[p]?
            dis.fileRegionLoop start_pointer end_pointer start_rva
              end_rva rounds (p + 1) abs32_pos rel32_pos
              (prog.emit (.byte byte))
    else some prog

/-- `ParseFileRegion`. -/
def parseFileRegion (sec : Section) (start_file_offset end_file_offset : BitVec 32)
    (prog : AssemblyProgram) : Option AssemblyProgram :=
  let start_rva := dis.pe_info.fileOffsetToRVA start_file_offset
  dis.fileRegionLoop start_file_offset.toNat end_file_offset.toNat
    start_rva (start_rva + sec.virtual_size)
    (sec.size_of_raw_data.toNat + 1) start_file_offset.toNat
    dis.abs32_locations dis.rel32_locations
    (prog.emit (.origin start_rva))

/-- `ParseFile`. -/
def parseFile (prog : AssemblyProgram) : Option AssemblyProgram :=
  dis.pe_info.forEachSection (fun prog file_offset sec start =>
      dis.parseFileRegion sec start (start + sec.size_of_raw_data)
        (dis.parseNonSectionFileRegion file_offset start prog))
    (dis.pe_info.sections.length + 1) 0#32 prog

/-- Disassemble a file, encode the program and assemble it again. -/
def reassemble : Option (List Byte) := do
  let prog ← dis.parseFile {
    image_base := dis.pe_info.image_base.setWidth 64
    instructions := []
    rel32_labels := .empty
    abs32_labels := .empty }
  prog.defaultAssignIndexes.encodeAndAssemble

end Disassembler

/-!
## The layout of files

The sections with data in a file, in the order of their data, are those that the
loop over the sections visits.
-/

namespace PEInfo

open Library

/-- The sections with data in the file. -/
def rawSections (pe_info : PEInfo) : List Section :=
  pe_info.sections.filter fun sec => 0 < sec.size_of_raw_data.toNat

/-- The sections with data, in the order of their data. -/
def layout (pe_info : PEInfo) : List Section :=
  pe_info.rawSections.mergeSort fun left right =>
    left.file_offset_of_raw_data.toNat <= right.file_offset_of_raw_data.toNat

/-- The place of the data of a section. -/
def rawData (sec : Section) : Nat × Nat :=
  (sec.file_offset_of_raw_data.toNat, sec.size_of_raw_data.toNat)

/-- The data of all sections lie inside the file, do not overlap and leave no
trailing bytes. -/
structure WellFormed (pe_info : PEInfo) : Prop where
  inMemory : pe_info.file_length.toNat <= pe_info.bytes.length
  inside : ∀ sec ∈ pe_info.rawSections, sec.file_offset_of_raw_data.toNat +
      sec.size_of_raw_data.toNat <= pe_info.file_length.toNat
  apart : pe_info.rawSections.Pairwise fun left right => Apart (rawData left) (rawData right)
  noTrailing : pe_info.file_length.toNat = 0 ∨ ∃ sec ∈ pe_info.rawSections,
      sec.file_offset_of_raw_data.toNat + sec.size_of_raw_data.toNat = pe_info.file_length.toNat

/-- The data of sections, one after the other. -/
def Ordered (sections : List Section) : Prop :=
  sections.Pairwise fun left right =>
    left.file_offset_of_raw_data.toNat + left.size_of_raw_data.toNat <=
      right.file_offset_of_raw_data.toNat

variable {pe_info : PEInfo} {sec : Section}

theorem mem_rawSections : sec ∈ pe_info.rawSections ↔
      sec ∈ pe_info.sections ∧ 0 < sec.size_of_raw_data.toNat := by
  rw [rawSections, mem_filter, decide_eq_true_eq]

theorem layout_perm (pe_info : PEInfo) : pe_info.layout.Perm pe_info.rawSections :=
  mergeSort_perm _ _

theorem mem_layout : sec ∈ pe_info.layout ↔ sec ∈ pe_info.rawSections :=
  pe_info.layout_perm.mem_iff

theorem layout_ordered (wf : WellFormed pe_info) : Ordered pe_info.layout := by
  have sorted := @List.pairwise_mergeSort Section
    (fun left right => decide (left.file_offset_of_raw_data.toNat <=
      right.file_offset_of_raw_data.toNat))
    (fun _ _ _ first second => by
      simp only [decide_eq_true_eq] at first second ⊢
      omega)
    (fun _ _ => by simp; omega)
    pe_info.rawSections
  have apart : pe_info.layout.Pairwise fun left right => Apart (rawData left) (rawData right) :=
    (pe_info.layout_perm.pairwise_iff Apart.symm).mpr wf.apart
  apply (sorted.and apart).imp_of_mem
  rintro left right isLeft isRight ⟨before, leftFirst | rightFirst⟩
  · exact leftFirst
  · have pos := (mem_rawSections.mp (mem_layout.mp isRight)).2
    rw [decide_eq_true_eq] at before
    simp only [rawData] at rightFirst
    omega

/-- A section with data from an offset on. -/
def Candidate (fileOffset : BitVec 32) (sec : Section) : Prop :=
  0 < sec.size_of_raw_data.toNat ∧ fileOffset.toNat <= sec.file_offset_of_raw_data.toNat

/-- A step of `FindNextSection`. -/
def nearer (fileOffset : BitVec 32) (best : Option Section) (sec : Section) : Option Section :=
  if 0 < sec.size_of_raw_data.toNat then
    if fileOffset.toNat <= sec.file_offset_of_raw_data.toNat then
      match best with
      | none => some sec
      | some other =>
        if sec.file_offset_of_raw_data.toNat < other.file_offset_of_raw_data.toNat then
          some sec
        else some other
    else best
  else best

theorem nearer_of_candidate (candidate : Candidate fileOffset sec) :
    ∃ next, nearer fileOffset best sec = some next ∧ (next = sec ∨ best = some next) ∧
      next.file_offset_of_raw_data.toNat <= sec.file_offset_of_raw_data.toNat ∧
      ∀ other ∈ best, next.file_offset_of_raw_data.toNat ≤ other.file_offset_of_raw_data.toNat := by
  unfold nearer
  rw [if_pos candidate.1, if_pos candidate.2]
  cases best with
  | none => exact ⟨sec, rfl, Or.inl rfl, Nat.le_refl _, by simp⟩
  | some other =>
    dsimp only
    split_ifs with closer
    · refine ⟨sec, rfl, Or.inl rfl, Nat.le_refl _, ?_⟩
      rintro _ ⟨⟩
      exact Nat.le_of_lt closer
    · refine ⟨other, rfl, Or.inr rfl, Nat.le_of_not_lt closer, ?_⟩
      rintro _ ⟨⟩
      exact Nat.le_refl _

theorem nearer_of_not (notCandidate : ¬ Candidate fileOffset sec) :
    nearer fileOffset best sec = best := by
  unfold nearer
  by_cases pos : 0 < sec.size_of_raw_data.toNat
  · rw [if_pos pos, if_neg fun behind => notCandidate ⟨pos, behind⟩]
  · rw [if_neg pos]

/-- A nearest section, where there is one. -/
theorem foldl_nearer (sections : List Section) (best : Option Section) :
    (sections.foldl (nearer fileOffset) best = none ->
      best = none ∧ ∀ sec ∈ sections, ¬ Candidate fileOffset sec) ∧
    ∀ nearest, sections.foldl (nearer fileOffset) best = some nearest ->
      (best = some nearest ∨ nearest ∈ sections ∧ Candidate fileOffset nearest) ∧
      (∀ other ∈ best, nearest.file_offset_of_raw_data.toNat <=
        other.file_offset_of_raw_data.toNat) ∧
      ∀ other ∈ sections, Candidate fileOffset other -> nearest.file_offset_of_raw_data.toNat <=
          other.file_offset_of_raw_data.toNat := by
  induction sections generalizing best with
  | nil =>
    refine ⟨fun isNone => ⟨isNone, by simp⟩, ?_⟩
    rintro nearest rfl
    exact ⟨Or.inl rfl, by simp, by simp⟩
  | cons sec rest ih =>
    rw [foldl_cons]
    by_cases candidate : Candidate fileOffset sec
    · obtain ⟨next, isNext, from_, closer, closerBest⟩ := nearer_of_candidate candidate
      obtain ⟨isNone, isSome⟩ := ih (some next)
      rw [isNext]
      refine ⟨fun none_ => absurd (isNone none_).1 (by simp), ?_⟩
      intro nearest isNearest
      obtain ⟨origin, closest, least⟩ := isSome nearest isNearest
      have atMost := closest next rfl
      refine ⟨?_, ?_, ?_⟩
      · rcases origin with isNext | ⟨later, isCandidate⟩
        · cases isNext
          rcases from_ with rfl | isBest
          · exact Or.inr ⟨mem_cons_self, candidate⟩
          · exact Or.inl isBest
        · exact Or.inr ⟨mem_cons_of_mem _ later, isCandidate⟩
      · intro other isOther
        exact Nat.le_trans atMost (closerBest other isOther)
      · intro other mem isCandidate
        rcases mem_cons.mp mem with rfl | later
        · exact Nat.le_trans atMost closer
        · exact least other later isCandidate
    · rw [nearer_of_not candidate]
      obtain ⟨isNone, isSome⟩ := ih best
      refine ⟨fun none_ => ⟨(isNone none_).1, ?_⟩, ?_⟩
      · exact forall_mem_cons.mpr ⟨candidate, (isNone none_).2⟩
      · intro nearest isNearest
        obtain ⟨origin, closest, least⟩ := isSome nearest isNearest
        refine ⟨origin.imp_right fun later => ⟨mem_cons_of_mem _ later.1, later.2⟩, closest, ?_⟩
        exact forall_mem_cons.mpr ⟨fun isCandidate => absurd isCandidate candidate, least⟩

/-- Sections with data at the same place are the same. -/
theorem eq_of_overlap (wf : WellFormed pe_info) (isLeft : left ∈ pe_info.rawSections)
    (isRight : right ∈ pe_info.rawSections) (overlap : ¬ Apart (rawData left) (rawData right)) :
    left = right := by
  by_contra different
  exact overlap (wf.apart.forall isLeft isRight different)

/-- The next section is the next in the layout. -/
theorem findNextSection_eq_head (wf : WellFormed pe_info) (isLayout : pe_info.layout = done ++ rest)
    (passed : ∀ sec ∈ done, sec.file_offset_of_raw_data.toNat < file_offset.toNat)
    (behind : ∀ sec ∈ rest, file_offset.toNat <= sec.file_offset_of_raw_data.toNat) :
    pe_info.findNextSection file_offset = rest.head? := by
  have candidate_iff : ∀ sec, sec ∈ pe_info.sections ∧ Candidate file_offset sec ↔ sec ∈ rest := by
    intro sec
    have mem : sec ∈ pe_info.rawSections ↔ sec ∈ done ∨ sec ∈ rest := by
      rw [← mem_layout, isLayout, mem_append]
    rw [mem_rawSections] at mem
    constructor
    · rintro ⟨isSection, pos, isBehind⟩
      rcases mem.mp ⟨isSection, pos⟩ with isDone | isRest
      · have before := passed sec isDone
        omega
      · exact isRest
    · intro isRest
      obtain ⟨isSection, pos⟩ := mem.mpr (Or.inr isRest)
      exact ⟨isSection, pos, behind sec isRest⟩
  obtain ⟨isNone, isSome⟩ := foldl_nearer pe_info.sections none
  cases found : pe_info.findNextSection file_offset with
  | none =>
    cases rest with
    | nil => rfl
    | cons first later =>
      obtain ⟨isSection, candidate⟩ := (candidate_iff first).mpr mem_cons_self
      exact absurd candidate ((isNone found).2 first isSection)
  | some nearest =>
    obtain ⟨impossible | isCandidate, _, least⟩ := isSome nearest found
    · cases impossible
    · have isRest := (candidate_iff nearest).mp isCandidate
      cases rest with
      | nil => cases isRest
      | cons first later =>
        rw [List.head?_cons, Option.some_inj]
        rcases mem_cons.mp isRest with same | isLater
        · exact same
        · have ordered := layout_ordered wf
          rw [isLayout] at ordered
          have before := (pairwise_cons.mp (pairwise_append.mp ordered).2.1).1 nearest isLater
          obtain ⟨isSection, candidate⟩ := (candidate_iff first).mpr mem_cons_self
          have atMost := least first isSection candidate
          have pos := candidate.1
          omega

/-- Visit some sections in order. -/
def visitSections (visit : State -> BitVec 32 -> Section -> BitVec 32 -> Option State) :
    BitVec 32 -> State -> List Section -> Option State
  | _, state, [] => some state
  | file_offset, state, sec :: rest => do
      let start := sec.file_offset_of_raw_data
      let state ← visit state file_offset sec start
      visitSections visit (start + sec.size_of_raw_data) state rest

section

variable (wf : WellFormed pe_info)
include wf

theorem toNat_end (mem : sec ∈ pe_info.rawSections) :
    (sec.file_offset_of_raw_data + sec.size_of_raw_data).toNat =
      sec.file_offset_of_raw_data.toNat + sec.size_of_raw_data.toNat := by
  have inside := wf.inside sec mem
  exact Nat.mod_eq_of_lt (by omega)

section

variable (visit : State -> BitVec 32 -> Section -> BitVec 32 -> Option State)

/-- The loop visits the sections of the layout. -/
theorem forEachSection_eq (isLayout : pe_info.layout = done ++ rest)
    (passed : ∀ sec ∈ done, sec.file_offset_of_raw_data.toNat < file_offset.toNat)
    (behind : ∀ sec ∈ rest, file_offset.toNat <= sec.file_offset_of_raw_data.toNat)
    (enough : rest.length < rounds) (state : State) :
    pe_info.forEachSection visit rounds file_offset state =
      visitSections visit file_offset state rest := by
  induction rest generalizing done file_offset rounds state with
  | nil =>
    obtain ⟨rounds, rfl⟩ := Nat.exists_eq_succ_of_ne_zero (Nat.ne_of_gt enough)
    rw [forEachSection, findNextSection_eq_head wf isLayout passed behind]
    split_ifs with more
    · rfl
    · rfl
  | cons sec rest ih =>
    obtain ⟨rounds, rfl⟩ := Nat.exists_eq_succ_of_ne_zero (Nat.ne_of_gt (Nat.zero_lt_of_lt enough))
    have ordered := layout_ordered wf
    rw [isLayout] at ordered
    obtain ⟨beforeRest, _⟩ := pairwise_cons.mp (pairwise_append.mp ordered).2.1
    have isRaw : sec ∈ pe_info.rawSections := by
      rw [← mem_layout, isLayout]
      exact mem_append_right _ mem_cons_self
    have pos := (mem_rawSections.mp isRaw).2
    have inside := wf.inside sec isRaw
    have starts := behind sec mem_cons_self
    have end_ := toNat_end wf isRaw
    have start : (if file_offset.toNat < sec.file_offset_of_raw_data.toNat then
        sec.file_offset_of_raw_data else file_offset) =
          sec.file_offset_of_raw_data := by
      split_ifs with before
      · rfl
      · exact BitVec.eq_of_toNat_eq (by omega)
    have next : ∀ state, pe_info.forEachSection visit rounds
        (sec.file_offset_of_raw_data + sec.size_of_raw_data)
        state = visitSections visit (sec.file_offset_of_raw_data + sec.size_of_raw_data)
          state rest := by
      intro state
      have isNext : pe_info.layout = (done ++ [sec]) ++ rest := by
        rw [isLayout, append_assoc, singleton_append]
      refine ih isNext ?_ ?_ ?_ state
      · intro other mem
        rcases mem_append.mp mem with isDone | isLast
        · have before := passed other isDone
          omega
        · rw [mem_singleton.mp isLast]
          omega
      · intro other mem
        rw [end_]
        exact beforeRest other mem
      · rw [length_cons] at enough
        omega
    rw [forEachSection, if_pos (by omega), findNextSection_eq_head wf isLayout passed behind,
      List.head?_cons]
    dsimp only
    rw [start, visitSections]
    congr 1
    funext state
    exact next state

theorem forEachSection_layout (s : State) :
    pe_info.forEachSection visit (pe_info.sections.length + 1) 0#32 s =
      visitSections visit 0#32 s pe_info.layout := by
  have len : pe_info.layout.length <= pe_info.sections.length := by
    rw [pe_info.layout_perm.length_eq]
    exact length_filter_le _ _
  exact forEachSection_eq wf visit (nil_append _).symm
    (fun _ mem => by cases mem) (fun _ _ => Nat.zero_le _)
    (Nat.lt_succ_of_le len) s

end

/-- The address of the data of a section. -/
theorem fileOffsetToRVA_start (mem : sec ∈ pe_info.rawSections) :
    pe_info.fileOffsetToRVA sec.file_offset_of_raw_data = sec.virtual_address := by
  have isSection := (mem_rawSections.mp mem).1
  have pos := (mem_rawSections.mp mem).2
  have inv : (sec.file_offset_of_raw_data - sec.file_offset_of_raw_data).toNat <
        sec.size_of_raw_data.toNat := by
    rw [BitVec.sub_self]
    exact pos
  rw [fileOffsetToRVA]
  cases hit : pe_info.sections.find? fun other =>
      (sec.file_offset_of_raw_data - other.file_offset_of_raw_data).toNat <
          other.size_of_raw_data.toNat with
  | none =>
    have fails := List.find?_eq_none.mp hit sec isSection
    exact absurd (decide_eq_true inv) fails
  | some other =>
    have inside := List.find?_some hit
    rw [decide_eq_true_eq] at inside
    have otherRaw : other ∈ pe_info.rawSections := mem_rawSections.mpr
      ⟨List.mem_of_find?_eq_some hit, by omega⟩
    have fits := wf.inside other otherRaw
    have same : other = sec := by
      apply eq_of_overlap wf otherRaw mem
      simp only [Apart, rawData]
      rw [BitVec.toNat_sub] at inside
      omega
    rw [same]
    dsimp only
    rw [BitVec.sub_self, BitVec.add_zero]

end

end PEInfo

end Chromium.Courgette
