import Chromium.Courgette.EmittedPrograms
import Chromium.Courgette.SectionWalk

/-!
# The walk over a file

The walk over a file emits the bytes in front of each section and the
instructions of its stops.
-/

namespace Chromium.Courgette

open List Option

namespace Disassembler

open Library PEInfo AssemblyProgram

section

variable (dis : Disassembler)

/-- The stops in the data of a section. -/
def stopsOf (sec : Section) : List Nat :=
  dis.sectionStops sec.virtual_address sec.size_of_raw_data.toNat

/-- A reference at an offset is not inside the data of its section. -/
def StraddlesEnd (sec : Section) (offset : Nat) : Prop :=
  dis.Straddles sec.virtual_address sec.size_of_raw_data.toNat offset

def sectionInstructions (sec : Section) : List Instruction :=
  .origin sec.virtual_address :: dis.instructionsFrom sec.virtual_address
      sec.file_offset_of_raw_data.toNat sec.size_of_raw_data.toNat 0

/-- The bytes between two file offsets. -/
def bytesBetween (first last : Nat) : List Byte :=
  (dis.pe_info.bytes.drop first).take (last - first)

end

def fileInstructions (dis : Disassembler) : BitVec 32 -> List Section -> List Instruction
  | _, [] => []
  | file_offset, sec :: rest =>
    (dis.bytesBetween file_offset.toNat sec.file_offset_of_raw_data.toNat).map .byte ++
    dis.sectionInstructions sec ++
    dis.fileInstructions (sec.file_offset_of_raw_data + sec.size_of_raw_data) rest

/-- Sections that follow a file offset, one after the other. -/
def Follow (pe_info : PEInfo) : BitVec 32 -> List Section -> Prop
  | _, [] => True
  | file_offset, sec :: rest =>
    file_offset.toNat <= sec.file_offset_of_raw_data.toNat ∧
    sec ∈ pe_info.rawSections ∧
    Follow pe_info (sec.file_offset_of_raw_data + sec.size_of_raw_data) rest

/-- The end of the last section. -/
def endOf : BitVec 32 -> List Section -> Nat
  | file_offset, [] => file_offset.toNat
  | _, sec :: rest => endOf (sec.file_offset_of_raw_data + sec.size_of_raw_data) rest

variable {sections : List Section} {pe_info : PEInfo}

section

variable (wellFormed : WellFormed pe_info)
include wellFormed

theorem follow_of_ordered (raw : ∀ sec ∈ sections, sec ∈ pe_info.rawSections)
    (ordered : Ordered sections)
    (behind : ∀ sec ∈ sections, file_offset.toNat <= sec.file_offset_of_raw_data.toNat) :
    Follow pe_info file_offset sections := by
  induction sections generalizing file_offset with
  | nil => trivial
  | cons sec rest ih =>
    obtain ⟨before, orderedRest⟩ := pairwise_cons.mp ordered
    have isRaw := raw sec mem_cons_self
    refine ⟨behind sec mem_cons_self, isRaw, ih ((forall_mem_cons.mp raw).2) orderedRest ?_⟩
    rw [toNat_end wellFormed isRaw]
    exact before

theorem follow_layout : Follow pe_info 0#32 pe_info.layout :=
  follow_of_ordered wellFormed (fun _ => mem_layout.mp)
    (layout_ordered wellFormed) (fun _ _ => Nat.zero_le _)

theorem endOf_bounds (follow : Follow pe_info file_offset sections)
    (inside : file_offset.toNat <= pe_info.file_length.toNat) :
    file_offset.toNat <= endOf file_offset sections ∧
      endOf file_offset sections <= pe_info.file_length.toNat ∧
      ∀ sec ∈ sections, sec.file_offset_of_raw_data.toNat +
        sec.size_of_raw_data.toNat <= endOf file_offset sections := by
  induction sections generalizing file_offset with
  | nil => exact ⟨Nat.le_refl _, inside, fun _ mem => by cases mem⟩
  | cons sec rest ih =>
    obtain ⟨starts, isRaw, followRest⟩ := follow
    have fits := wellFormed.inside sec isRaw
    have end_ := toNat_end wellFormed isRaw
    obtain ⟨least, most, ends⟩ := ih followRest (by omega)
    rw [endOf]
    refine ⟨by omega, most, ?_⟩
    rw [forall_mem_cons]
    exact ⟨by omega, ends⟩

/-- The last section ends at the end of the file. -/
theorem endOf_layout : endOf 0#32 pe_info.layout = pe_info.file_length.toNat := by
  obtain ⟨_, most, ends⟩ := endOf_bounds wellFormed (follow_layout wellFormed) (Nat.zero_le _)
  rcases wellFormed.noTrailing with empty | ⟨sec, isRaw, last⟩
  · omega
  · have least := ends sec (mem_layout.mpr isRaw)
    omega

end

variable {dis : Disassembler}

theorem parseNonSectionFileRegion_eq (complete : dis.incomplete_disassembly = false)
    (first last : BitVec 32) :
    dis.parseNonSectionFileRegion first last prog = ((dis.bytesBetween first.toNat last.toNat).map
        Instruction.byte).foldl emit prog := by
  rw [parseNonSectionFileRegion, complete, if_neg Bool.false_ne_true, foldl_map]
  rfl

/-- What the walk is given: all bytes are of interest, there is no base
relocation table, and the locations are sorted. -/
structure Complete (dis : Disassembler) : Prop where
  complete : dis.incomplete_disassembly = false
  noTable : dis.pe_info.base_relocation_table.size_ = 0#32
  abs32 : dis.abs32_locations.Pairwise fun left right => left.toNat <= right.toNat
  rel32 : dis.rel32_locations.Pairwise fun left right => left.toNat <= right.toNat
  wellFormed : WellFormed dis.pe_info

section

variable (complete : Complete dis)
include complete

theorem parseFileRegion_outcome (isRaw : sec ∈ dis.pe_info.rawSections) (prog : AssemblyProgram) :
    Outcome dis sec.virtual_address sec.file_offset_of_raw_data.toNat
      sec.size_of_raw_data.toNat 0 (prog.emit (.origin sec.virtual_address))
      (dis.parseFileRegion sec sec.file_offset_of_raw_data
        (sec.file_offset_of_raw_data + sec.size_of_raw_data) prog) := by
  have fits := complete.wellFormed.inside sec isRaw
  have inMemory := complete.wellFormed.inMemory
  have starts := @passed_zero dis sec.virtual_address
  have walked := fileRegionLoop_outcome complete.complete complete.noTable
    complete.abs32 complete.rel32 sec.size_of_raw_data.isLt
    (Nat.le_trans fits inMemory)
    (sec.virtual_address + sec.virtual_size)
    (Nat.lt_succ_self (sec.size_of_raw_data.toNat - 0)) starts
    (prog.emit (.origin sec.virtual_address))
  rw [pass_zero, pass_zero, Nat.add_zero] at walked
  unfold parseFileRegion
  rw [fileOffsetToRVA_start complete.wellFormed isRaw, toNat_end complete.wellFormed isRaw]
  exact walked

theorem visitSections_outcome (raw : ∀ sec ∈ sections, sec ∈ dis.pe_info.rawSections)
    (file_offset : BitVec 32) (prog : AssemblyProgram) :
    visitSections (fun prog file_offset sec start =>
          dis.parseFileRegion sec start (start + sec.size_of_raw_data)
            (dis.parseNonSectionFileRegion file_offset start prog))
        file_offset prog sections =
      some ((dis.fileInstructions file_offset sections).foldl emit prog) ∨
    visitSections (fun prog file_offset sec start =>
          dis.parseFileRegion sec start (start + sec.size_of_raw_data)
            (dis.parseNonSectionFileRegion file_offset start prog))
        file_offset prog sections = none ∧
      ∃ sec ∈ sections, ∃ stop ∈ dis.stopsOf sec, dis.StraddlesEnd sec stop := by
  induction sections generalizing file_offset prog with
  | nil => exact Or.inl rfl
  | cons sec rest ih =>
    have walked := parseFileRegion_outcome complete (raw sec mem_cons_self)
      (dis.parseNonSectionFileRegion file_offset sec.file_offset_of_raw_data prog)
    rw [visitSections]
    rcases walked with walked | ⟨walked, stop, isStop, straddles⟩
    · rw [walked]
      have later := ih ((forall_mem_cons.mp raw).2)
        (sec.file_offset_of_raw_data + sec.size_of_raw_data)
        ((dis.instructionsFrom sec.virtual_address
          sec.file_offset_of_raw_data.toNat
          sec.size_of_raw_data.toNat 0).foldl .emit
          ((dis.parseNonSectionFileRegion file_offset
            sec.file_offset_of_raw_data prog).emit (.origin sec.virtual_address)))
      rcases later with all | ⟨none_, other, mem, straddles⟩
      · left
        refine all.trans ?_
        rw [fileInstructions, foldl_append, foldl_append,
          ← parseNonSectionFileRegion_eq complete.complete,
          sectionInstructions, foldl_cons]
      · exact Or.inr ⟨none_, other, mem_cons_of_mem _ mem, straddles⟩
    · right
      rw [walked]
      exact ⟨rfl, sec, mem_cons_self, stop, isStop, straddles⟩

/-- The walk emits the instructions of the file, unless a reference is read from
behind the file. -/
theorem parseFile_outcome : dis.parseFile prog = some ((dis.fileInstructions 0#32
        dis.pe_info.layout).foldl emit prog) ∨
    dis.parseFile prog = none ∧ ∃ sec ∈ dis.pe_info.rawSections,
        ∃ stop ∈ dis.stopsOf sec, dis.StraddlesEnd sec stop := by
  have visited := visitSections_outcome complete (fun _ => mem_layout.mp) 0#32 prog
  rw [parseFile, forEachSection_layout complete.wellFormed]
  rcases visited with all | ⟨none_, sec, mem, straddles⟩
  · exact Or.inl all
  · exact Or.inr ⟨none_, sec, mem_layout.mp mem, straddles⟩

end

end Disassembler

/-!
## The search for rel32 locations

The search ends, and the locations that it finds are inside their section and
refer to addresses of the image.
-/

namespace PEInfo

open Disassembler Library

theorem rel32Candidate_spec {bytes : List Byte}
    (isCandidate : rel32Candidate bytes p end_pointer = some rel32) :
    rel32 + 4 < end_pointer ∧ (rel32 = p + 1 ∨ rel32 = p + 2) := by
  have isCall : (if p + 5 < end_pointer ∧ (bytes[p]? = some 0xE8#8 ∨ bytes[p]? = some 0xE9#8) then
        some (p + 1) else none) = some rel32 ->
      rel32 + 4 < end_pointer ∧ (rel32 = p + 1 ∨ rel32 = p + 2) := by
    intro call
    split_ifs at call with conditions
    cases call
    exact ⟨by omega, Or.inl rfl⟩
  unfold rel32Candidate at isCandidate
  cases isSecond : bytes[p + 1]? with
  | none =>
    rw [isSecond] at isCandidate
    exact isCall isCandidate
  | some second =>
    rw [isSecond] at isCandidate
    dsimp only at isCandidate
    by_cases conditions : p + 6 < end_pointer ∧ bytes[p]? = some 0x0F#8 ∧
        second &&& 0xF0#8 = 0x80#8 ∧ second ≠ 0x8A#8 ∧ second ≠ 0x8B#8
    · rw [if_pos conditions] at isCandidate
      cases isCandidate
      exact ⟨by omega, Or.inr rfl⟩
    · rw [if_neg conditions] at isCandidate
      exact isCall isCandidate

/-- The search goes on behind an overlapping abs32 location. -/
theorem overlap_pos (candidate : rel32_rva = current_rva + 1#32 ∨ rel32_rva = current_rva + 2#32)
    (low : (rel32_rva - 3#32).toNat <= rva.toNat) (high : rva.toNat < (rel32_rva + 4#32).toNat) :
    0 < (rva + 4#32 - current_rva).toNat := by
  apply Nat.pos_of_ne_zero
  intro zero
  have isZero : rva + 4#32 - current_rva = 0#32 := BitVec.eq_of_toNat_eq zero
  have same : rva = current_rva - 4#32 := by
    rw [← BitVec.add_sub_cancel rva 4#32, BitVec.sub_eq_iff_eq_add.mp isZero, BitVec.zero_add]
  subst same
  rcases candidate with rfl | rfl
  · rw [BitVec.toNat_sub, BitVec.toNat_sub, BitVec.toNat_add] at low
    rw [BitVec.toNat_sub, BitVec.toNat_add, BitVec.toNat_add] at high
    simp only [BitVec.toNat_ofNat] at low high
    omega
  · rw [BitVec.toNat_sub, BitVec.toNat_sub, BitVec.toNat_add] at low
    rw [BitVec.toNat_sub, BitVec.toNat_add, BitVec.toNat_add] at high
    simp only [BitVec.toNat_ofNat] at low high
    omega

/-- A location in a section whose four bytes refer to an address of the
image. -/
def Found (pe_info : PEInfo) (start_rva : RVA) (start_pointer size : Nat) (rva : RVA) : Prop :=
  ∃ offset word, offset + 4 < size ∧ rva = locationRVA start_rva offset ∧
    read32LittleEndian pe_info.bytes (start_pointer + offset) = some word ∧
    pe_info.isValidRVA (rva + 4#32 + word) = true

variable {pe_info : PEInfo}

theorem rel32Loop_spec (noTable : pe_info.base_relocation_table.size_ = 0#32)
    {start_pointer size : Nat} (inFile : start_pointer + size <= pe_info.bytes.length)
    (start_rva end_rva : RVA) {rounds off : Nat} (enough : size - off < rounds)
    (abs32_pos : List RVA) :
    ∃ locations, pe_info.rel32Loop start_pointer (start_pointer + size) start_rva end_rva
        rounds (start_pointer + off) abs32_pos = some locations ∧
      ∀ rva ∈ locations, Found pe_info start_rva start_pointer size rva := by
  induction rounds generalizing off abs32_pos with
  | zero => exact absurd enough (Nat.not_lt_zero _)
  | succ rounds ih =>
    rw [rel32Loop]
    by_cases inside : off < size
    · have cur : start_rva + BitVec.ofNat 32 (start_pointer + off - start_pointer) =
            locationRVA start_rva off := by
        rw [Nat.add_sub_cancel_left, locationRVA]
      rw [if_pos (by omega)]
      simp only [cur, noTable, ne_eq, not_true_eq_false, and_false, if_false]
      cases isCandidate : rel32Candidate pe_info.bytes
          (start_pointer + off) (start_pointer + size) with
      | none => exact @ih (off + 1) (by omega) abs32_pos
      | some rel32 =>
        obtain ⟨fits, isNear⟩ := rel32Candidate_spec isCandidate
        obtain ⟨width, rfl⟩ : ∃ width, rel32 = start_pointer + (off + width) :=
          ⟨rel32 - start_pointer - off, by omega⟩
        have location : start_rva + BitVec.ofNat 32
            (start_pointer + (off + width) - start_pointer) =
              locationRVA start_rva (off + width) := by
          rw [Nat.add_sub_cancel_left, locationRVA]
        have near : locationRVA start_rva (off + width) = locationRVA start_rva off + 1#32 ∨
            locationRVA start_rva (off + width) = locationRVA start_rva off + 2#32 := by
          rcases isNear with one | two
          · rw [show width = 1 by omega]
            exact Or.inl locationRVA_add.symm
          · rw [show width = 2 by omega]
            exact Or.inr locationRVA_add.symm
        dsimp only
        rw [location]
        generalize isRest : abs32_pos.dropWhile (fun rva => decide
          (rva.toNat < (locationRVA start_rva (off + width) - 3#32).toNat)) = rest
        cases isHead : rest.head?.filter fun rva => decide (rva.toNat <
            (locationRVA start_rva (off + width) + 4#32).toNat) with
        | some rva =>
          obtain ⟨isFirst, high⟩ := filter_eq_some_iff.mp isHead
          rw [← isRest, dropWhile_eq_pass] at isFirst
          have low := le_head_pass isFirst
          have forward := overlap_pos near low (of_decide_eq_true high)
          dsimp only
          rw [Nat.add_assoc]
          exact ih (by omega) rest
        | none =>
          cases isWord : read32LittleEndian pe_info.bytes (start_pointer + (off + width)) with
          | none =>
            have short := read32LittleEndian_eq_none isWord
            omega
          | some word =>
            simp only [bind_eq_bind, bind_some]
            split_ifs with ok
            · obtain ⟨locations, isFound, hit⟩ := @ih (off + 4) (by omega) rest
              refine ⟨locationRVA start_rva (off + width) :: locations, ?_, ?_⟩
              · rw [Nat.add_assoc, isFound]
                rfl
              · rw [forall_mem_cons]
                exact ⟨⟨off + width, word, by omega, rfl, isWord, ok.1⟩, hit⟩
            · exact @ih (off + 1) (by omega) rest
    · rw [if_neg (by omega)]
      exact ⟨[], rfl, fun _ mem => by cases mem⟩

/-- A location in the data of one of the sections. -/
def FoundInSection (pe_info : PEInfo) (rva : RVA) : Prop :=
  ∃ sec ∈ pe_info.rawSections, Found pe_info sec.virtual_address sec.file_offset_of_raw_data.toNat
      sec.size_of_raw_data.toNat rva

theorem parseRel32RelocsFromSection_spec (wf : WellFormed pe_info)
    (noTable : pe_info.base_relocation_table.size_ = 0#32)
    (abs32_locations : List RVA) (isRaw : sec ∈ pe_info.rawSections) :
    ∃ locations, pe_info.parseRel32RelocsFromSection abs32_locations sec = some locations ∧
      ∀ rva ∈ locations, FoundInSection pe_info rva := by
  rw [parseRel32RelocsFromSection]
  split_ifs with code
  · have fits := wf.inside sec isRaw
    have inMemory := wf.inMemory
    obtain ⟨locations, isFound, hit⟩ := @rel32Loop_spec pe_info noTable
      sec.file_offset_of_raw_data.toNat sec.size_of_raw_data.toNat
      (Nat.le_trans fits inMemory) sec.virtual_address
      (sec.virtual_address + sec.virtual_size)
      (sec.size_of_raw_data.toNat + 1) 0
      (Nat.lt_succ_self _) abs32_locations
    refine ⟨locations, ?_, fun rva mem => ⟨sec, isRaw, hit rva mem⟩⟩
    dsimp only
    rw [fileOffsetToRVA_start wf isRaw, toNat_end wf isRaw]
    exact isFound
  · exact ⟨[], rfl, fun _ mem => by cases mem⟩

theorem visitSections_search (wf : WellFormed pe_info)
    (noTable : pe_info.base_relocation_table.size_ = 0#32)
    (abs32_locations : List RVA) {sections : List Section}
    (raw : ∀ sec ∈ sections, sec ∈ pe_info.rawSections)
    (file_offset : BitVec 32)
    (foundBefore : ∀ rva ∈ before, FoundInSection pe_info rva) :
    ∃ locations, visitSections (fun rel32_locations _ sec _ => do
          let locations ← pe_info.parseRel32RelocsFromSection abs32_locations sec
          return rel32_locations ++ locations)
        file_offset before sections = some locations ∧
      ∀ rva ∈ locations, FoundInSection pe_info rva := by
  induction sections generalizing file_offset before with
  | nil => exact ⟨before, rfl, foundBefore⟩
  | cons sec rest ih =>
    obtain ⟨here, isHere, foundHere⟩ := parseRel32RelocsFromSection_spec
      wf noTable abs32_locations (raw sec mem_cons_self)
    have foundBoth : ∀ rva ∈ before ++ here, FoundInSection pe_info rva := by
      intro rva mem
      rcases mem_append.mp mem with earlier | isNew
      · exact foundBefore rva earlier
      · exact foundHere rva isNew
    rw [visitSections, isHere]
    exact ih ((forall_mem_cons.mp raw).2) _ foundBoth

/-- The search over all sections ends with sorted locations. -/
theorem parseRel32RelocsFromSections_spec (wf : WellFormed pe_info)
    (noTable : pe_info.base_relocation_table.size_ = 0#32) {abs32_locations : List RVA} :
    ∃ rel32_locations, pe_info.parseRel32RelocsFromSections abs32_locations = some rel32_locations ∧
      (rel32_locations.Pairwise fun left right => left.toNat <= right.toNat) ∧
      ∀ rva ∈ rel32_locations, FoundInSection pe_info rva := by
  obtain ⟨locations, visited, hit⟩ := visitSections_search wf noTable
    abs32_locations (fun _ => mem_layout.mp) 0#32
    (show ∀ rva ∈ ([] : List RVA), FoundInSection pe_info rva from fun _ mem => by cases mem)
  refine ⟨sortRelocs locations, ?_, sortRelocs_pairwise locations, ?_⟩
  · rw [parseRel32RelocsFromSections, forEachSection_layout wf, visited]
    rfl
  · intro rva mem
    exact hit rva ((mergeSort_perm locations _).mem_iff.mp mem)

end PEInfo

end Chromium.Courgette
