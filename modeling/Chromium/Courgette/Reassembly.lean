import Chromium.Courgette.FileWalk

/-!
# Reassembled files

When the bytes that are assembled from a disassembled file are those of the
file.
-/

namespace Chromium.Courgette.Disassembler

open List
open Library PEInfo AssemblyProgram EncodedProgram Segment Assembler

variable {dis : Disassembler}

theorem emittedLength_instructionAt :
    emittedLength (dis.instructionAt start_rva start_pointer offset) =
      1 + dis.extraBytes start_rva offset := by
  rw [instructionAt, extraBytes]
  cases dis.isAbs32 start_rva offset with
  | true => rfl
  | false =>
    cases dis.isRel32 start_rva offset with
    | true => rfl
    | false => rfl

theorem sum_emittedLength_instructionsAt :
    ((dis.instructionsAt start_rva start_pointer offset).map emittedLength).sum =
      1 + dis.extraBytes start_rva offset := by
  rw [instructionsAt, map_append, sum_append, map_singleton,
    sum_singleton, emittedLength_instructionAt]
  cases dis.atRelocs start_rva offset with
  | true => exact Nat.zero_add _
  | false => exact Nat.zero_add _

theorem sum_emittedLength_sectionInstructions :
    ((dis.sectionInstructions sec).map emittedLength).sum =
      ((dis.stopsOf sec).map fun stop =>
        1 + dis.extraBytes sec.virtual_address stop).sum := by
  rw [sectionInstructions, map_cons, sum_cons, instructionsFrom, stopsOf, sectionStops]
  generalize stops _ _ _ = all
  show 0 + _ = _
  rw [Nat.zero_add]
  induction all with
  | nil => rfl
  | cons stop rest ih =>
    rw [flatMap_cons, map_append, sum_append, sum_emittedLength_instructionsAt, ih, map_cons,
      sum_cons]

theorem length_bytesBetween {first last : Nat} (inside : last ≤ dis.pe_info.bytes.length) :
    (dis.bytesBetween first last).length = last - first := by
  rw [bytesBetween, length_take, length_drop]
  omega

theorem sum_emittedLength_bytes (bytes : List Byte) :
    ((bytes.map Instruction.byte).map emittedLength).sum = bytes.length := by
  induction bytes with
  | nil => rfl
  | cons value rest ih =>
    rw [map_cons, map_cons, sum_cons, ih, length_cons]
    exact Nat.add_comm 1 _

/-- No reference in some sections is cut off by the end of its section. -/
def Inside (dis : Disassembler) (sections : List Section) : Prop :=
  ∀ sec ∈ sections, ∀ stop ∈ dis.stopsOf sec, ¬ dis.StraddlesEnd sec stop

theorem sum_stopsOf (sec : Section) : sec.size_of_raw_data.toNat <=
        ((dis.sectionInstructions sec).map emittedLength).sum ∧
      ((dis.sectionInstructions sec).map emittedLength).sum <=
        sec.size_of_raw_data.toNat + 3 ∧
      (((dis.sectionInstructions sec).map emittedLength).sum = sec.size_of_raw_data.toNat ↔
        ∀ stop ∈ dis.stopsOf sec, ¬ dis.StraddlesEnd sec stop) := by
  rw [sum_emittedLength_sectionInstructions, stopsOf, sectionStops]
  have narrow : ∀ stop, dis.extraBytes sec.virtual_address stop <= 3 := by
    intro stop
    rw [extraBytes]
    split_ifs
    · exact Nat.le_refl 3
    · exact Nat.zero_le 3
  have least := @le_sum_stops (dis.extraBytes sec.virtual_address) sec.size_of_raw_data.toNat 0
  have most := @sum_stops_le (dis.extraBytes sec.virtual_address)
    sec.size_of_raw_data.toNat 0 3 narrow
  refine ⟨least, most, ?_⟩
  have exact_ := @sum_stops_iff (dis.extraBytes sec.virtual_address) sec.size_of_raw_data.toNat 0
  rw [Nat.sub_zero] at exact_
  rw [exact_]
  simp [StraddlesEnd, Straddles]

variable {sections : List Section}

/-- The bytes that are emitted are as many as those of the file if no reference
is cut off, and more otherwise. -/
theorem sum_fileInstructions (complete : Complete dis)
    (follow : Follow dis.pe_info file_offset sections)
    (inside : file_offset.toNat <= dis.pe_info.file_length.toNat) :
    endOf file_offset sections - file_offset.toNat <=
        ((dis.fileInstructions file_offset sections).map emittedLength).sum ∧
      ((dis.fileInstructions file_offset sections).map emittedLength).sum <=
        endOf file_offset sections - file_offset.toNat + 3 * sections.length ∧
      (((dis.fileInstructions file_offset sections).map
          emittedLength).sum = endOf file_offset sections - file_offset.toNat ↔
        Inside dis sections) := by
  induction sections generalizing file_offset with
  | nil =>
    rw [endOf, Nat.sub_self, fileInstructions, map_nil, sum_nil]
    exact ⟨Nat.le_refl 0, Nat.le_refl 0, iff_of_true rfl (fun _ mem => by cases mem)⟩
  | cons sec rest ih =>
    obtain ⟨starts, isRaw, followRest⟩ := follow
    have fits := complete.wellFormed.inside sec isRaw
    have inMemory := complete.wellFormed.inMemory
    have end_ := toNat_end complete.wellFormed isRaw
    obtain ⟨least, most, same⟩ := ih followRest (by omega)
    obtain ⟨leastHere, mostHere, sameHere⟩ := @sum_stopsOf dis sec
    have bounds := (endOf_bounds complete.wellFormed followRest (by omega)).1
    have gap := @length_bytesBetween dis file_offset.toNat
      sec.file_offset_of_raw_data.toNat (by omega)
    rw [Inside, forall_mem_cons, ← sameHere, ← Inside, ← same,
      fileInstructions, endOf, map_append, map_append,
      sum_append, sum_append, sum_emittedLength_bytes, gap,
      length_cons]
    exact ⟨by omega, by omega, by omega⟩

theorem bytesBetween_append (before : first <= middle) (behind : middle <= last) :
    dis.bytesBetween first middle ++ dis.bytesBetween middle last =
      dis.bytesBetween first last := by
  rw [bytesBetween, bytesBetween, bytesBetween,
    show last - first = (middle - first) + (last - middle) by omega,
    take_add, drop_drop, Nat.add_sub_cancel' before]

theorem getLsbD_word (first second third fourth : Byte) (i : Nat) :
    BitVec.getLsbD (fourth ++ third ++ second ++ first) i =
      if i < 8 then first.getLsbD i
      else if i - 8 < 8 then second.getLsbD (i - 8)
      else if i - 8 - 8 < 8 then third.getLsbD (i - 8 - 8)
      else fourth.getLsbD (i - 8 - 8 - 8) := by
  rw [BitVec.getLsbD_append, BitVec.getLsbD_append, BitVec.getLsbD_append]

theorem bytes32_word :
    bytes32 (fourth ++ third ++ second ++ first) = [first, second, third, fourth] := by
  have bit := getLsbD_word first second third fourth
  have shifted : ∀ (shift : Nat) (byte : Byte),
      (∀ i < 8, BitVec.getLsbD (fourth ++ third ++ second ++ first)
        (shift + i) = byte.getLsbD i) ->
      ((show BitVec 32 from fourth ++ third ++ second ++ first) >>> shift).setWidth 8 = byte := by
    intro shift byte same
    apply BitVec.eq_of_getLsbD_eq
    intro i inside
    rw [BitVec.getLsbD_setWidth, decide_eq_true inside, Bool.true_and, BitVec.getLsbD_ushiftRight]
    exact same i inside
  simp only [bytes32, List.cons.injEq, and_true]
  refine ⟨?_, shifted 8 second ?_, shifted 16 third ?_, shifted 24 fourth ?_⟩
  · have unshifted := shifted 0 first fun i inside => by
      rw [Nat.zero_add, bit, if_pos inside]
    rwa [BitVec.ushiftRight_zero] at unshifted
  · intro i inside
    rw [bit, if_neg (by omega), if_pos (by omega), show 8 + i - 8 = i by omega]
  · intro i inside
    rw [bit, if_neg (by omega), if_neg (by omega), if_pos (by omega),
      show 16 + i - 8 - 8 = i by omega]
  · intro i inside
    rw [bit, if_neg (by omega), if_neg (by omega), if_neg (by omega),
      show 24 + i - 8 - 8 - 8 = i by omega]

/-- A word that is read is written as the same bytes. -/
theorem bytes32_wordAt (inside : start_pointer + offset + 4 <= dis.pe_info.bytes.length) :
    bytes32 (dis.wordAt start_pointer offset) =
      dis.bytesBetween (start_pointer + offset) (start_pointer + offset + 4) := by
  have long : 4 <= (dis.pe_info.bytes.drop (start_pointer + offset)).length := by
    rw [length_drop]
    omega
  rw [wordAt, read32LittleEndian, bytesBetween, Nat.add_sub_cancel_left]
  rcases isBytes : dis.pe_info.bytes.drop (start_pointer + offset) with
    _ | ⟨first, _ | ⟨second, _ | ⟨third, _ | ⟨fourth, rest⟩⟩⟩⟩
  all_goals
    rw [isBytes] at long
    simp only [length_cons, length_nil] at long
  · omega
  · omega
  · omega
  · omega
  · exact bytes32_word

section

variable (inside : start_pointer + offset + 1 + dis.extraBytes start_rva offset <=
    dis.pe_info.bytes.length)
include inside

theorem interpret_instructionAt :
    interpretFrom (dis.pe_info.image_base.setWidth 64) [] (locationRVA start_rva offset)
        (dis.instructionAt start_rva start_pointer offset :: rest) =
      dis.bytesBetween (start_pointer + offset) (start_pointer + offset + 1 +
            dis.extraBytes start_rva offset) ++
        interpretFrom (dis.pe_info.image_base.setWidth 64) [] (locationRVA start_rva
            (offset + 1 + dis.extraBytes start_rva offset)) rest := by
  rw [instructionAt]
  rw [extraBytes] at inside ⊢
  cases isAbs32 : dis.isAbs32 start_rva offset with
  | true =>
    rw [isAbs32] at inside
    have word := bytes32_wordAt inside
    have sum : dis.wordAt start_pointer offset - dis.pe_info.image_base +
          (dis.pe_info.image_base.setWidth 64).setWidth 32 =
        dis.wordAt start_pointer offset := by
      rw [BitVec.setWidth_setWidth_of_le _ (by decide), BitVec.setWidth_eq, BitVec.sub_add_cancel]
    simp only [if_true, Bool.true_or, interpretFrom]
    rw [sum, word, locationRVA_add]
  | false =>
    cases isRel32 : dis.isRel32 start_rva offset with
    | true =>
      rw [isAbs32, isRel32] at inside
      have word := bytes32_wordAt inside
      have difference : locationRVA start_rva offset + 4#32 +
          dis.wordAt start_pointer offset - (locationRVA start_rva offset + 4#32) =
          dis.wordAt start_pointer offset := by
        rw [BitVec.add_comm, BitVec.add_sub_cancel]
      simp only [if_true, Bool.or_true, Bool.false_eq_true, if_false, interpretFrom]
      rw [difference, word, locationRVA_add]
    | false =>
      rw [isAbs32, isRel32] at inside
      have isByte : dis.bytesBetween (start_pointer + offset)
          (start_pointer + offset + 1) = [dis.pe_info.bytes[start_pointer + offset]?.getD 0#8] := by
        have here : start_pointer + offset < dis.pe_info.bytes.length := inside
        rw [bytesBetween, Nat.add_sub_cancel_left,
          drop_eq_getElem_cons here, List.getElem?_eq_getElem here]
        rfl
      simp only [Bool.or_self, Bool.false_eq_true, if_false, interpretFrom, Nat.add_zero]
      rw [isByte, locationRVA_add]
      rfl

theorem interpret_instructionsAt :
    interpretFrom (dis.pe_info.image_base.setWidth 64) [] (locationRVA start_rva offset)
        (dis.instructionsAt start_rva start_pointer offset ++ rest) =
      dis.bytesBetween (start_pointer + offset) (start_pointer + offset + 1 +
            dis.extraBytes start_rva offset) ++
        interpretFrom (dis.pe_info.image_base.setWidth 64) [] (locationRVA start_rva
            (offset + 1 + dis.extraBytes start_rva offset)) rest := by
  rw [← interpret_instructionAt inside, instructionsAt]
  cases dis.atRelocs start_rva offset with
  | true => rfl
  | false => rfl

end

/-- The instructions of a section yield its bytes. -/
theorem interpret_instructionsFrom (inFile : start_pointer + size <= dis.pe_info.bytes.length)
    (inside : ∀ stop ∈ stops (dis.extraBytes start_rva) size off,
      ¬ dis.Straddles start_rva size stop) :
    interpretFrom (dis.pe_info.image_base.setWidth 64) [] (locationRVA start_rva off)
        (dis.instructionsFrom start_rva start_pointer size off) =
      dis.bytesBetween (start_pointer + off) (start_pointer + size) := by
  induction off using stops.induct (dis.extraBytes start_rva) size with
  | case1 off isInside ih =>
    rw [stops_of_lt isInside, forall_mem_cons] at inside
    obtain ⟨here, later⟩ := inside
    rw [Straddles, Nat.not_lt] at here
    rw [instructionsFrom_of_lt isInside, interpret_instructionsAt (by omega), ih later,
      ← Nat.add_assoc, ← Nat.add_assoc,
      bytesBetween_append (by omega) (by omega)]
  | case2 off outside =>
    rw [instructionsFrom, stops_of_le (Nat.le_of_not_lt outside),
      bytesBetween, show start_pointer + size - (start_pointer + off) = 0 by omega]
    rfl

theorem interpret_sectionInstructions (complete : Complete dis)
    (isRaw : sec ∈ dis.pe_info.rawSections)
    (inside : ∀ stop ∈ dis.stopsOf sec, ¬ dis.StraddlesEnd sec stop)
    (current_rva : RVA) :
    interpretFrom (dis.pe_info.image_base.setWidth 64) [] current_rva
        (dis.sectionInstructions sec) =
      dis.bytesBetween sec.file_offset_of_raw_data.toNat
        (sec.file_offset_of_raw_data.toNat + sec.size_of_raw_data.toNat) := by
  have fits := complete.wellFormed.inside sec isRaw
  have inMemory := complete.wellFormed.inMemory
  have starts : sec.virtual_address = locationRVA sec.virtual_address 0 := (BitVec.add_zero _).symm
  have walked := interpret_instructionsFrom (Nat.le_trans fits inMemory) inside
  rw [← starts, Nat.add_zero] at walked
  exact walked

/-- The instructions of a file yield its bytes. -/
theorem interpret_fileInstructions (complete : Complete dis)
    (follow : Follow dis.pe_info file_offset sections)
    (fits : file_offset.toNat <= dis.pe_info.file_length.toNat)
    (inside : Inside dis sections) (current_rva : RVA) :
    interpretFrom (dis.pe_info.image_base.setWidth 64) [] current_rva
        (dis.fileInstructions file_offset sections) =
      dis.bytesBetween file_offset.toNat (endOf file_offset sections) := by
  induction sections generalizing file_offset current_rva with
  | nil =>
    rw [fileInstructions, endOf, bytesBetween, Nat.sub_self]
    rfl
  | cons sec rest ih =>
    obtain ⟨starts, isRaw, followRest⟩ := follow
    rw [Inside, forall_mem_cons] at inside
    have fitsHere := complete.wellFormed.inside sec isRaw
    have end_ := toNat_end complete.wellFormed isRaw
    have bounds := (endOf_bounds complete.wellFormed followRest (by omega)).1
    rw [fileInstructions, interpretFrom_append, interpretFrom_append, interpretFrom_bytes,
      interpret_sectionInstructions complete isRaw inside.1,
      ih followRest (by omega) inside.2, endOf, ← end_,
      bytesBetween_append starts (by omega),
      bytesBetween_append (by omega) bounds]

/-- What is emitted at the stops of some sections. -/
theorem mem_fileInstructions (notByte : isByte inst = false) (notOrigin : isOrigin inst = false) :
    inst ∈ dis.fileInstructions file_offset sections ↔ ∃ sec ∈ sections, ∃ stop ∈ dis.stopsOf sec,
        inst ∈ dis.instructionsAt sec.virtual_address sec.file_offset_of_raw_data.toNat stop := by
  induction sections generalizing file_offset with
  | nil => simp [fileInstructions]
  | cons sec rest ih =>
    have noByte : inst ∉ (dis.bytesBetween file_offset.toNat
        sec.file_offset_of_raw_data.toNat).map Instruction.byte := by
      intro mem
      obtain ⟨val, _, rfl⟩ := List.mem_map.mp mem
      cases notByte
    have noOrigin : inst ≠ .origin sec.virtual_address := by
      rintro rfl
      cases notOrigin
    rw [fileInstructions, append_assoc, mem_append, or_iff_right noByte, mem_append, ih,
      sectionInstructions, mem_cons, or_iff_right noOrigin,
      instructionsFrom, mem_flatMap]
    simp only [mem_cons, exists_eq_or_imp]
    rfl

theorem count_makeRelocs_instructionsAt :
    (dis.instructionsAt start_rva start_pointer offset).count .makeRelocs =
      if dis.atRelocs start_rva offset then 1 else 0 := by
  have single : [dis.instructionAt start_rva start_pointer offset].count .makeRelocs = 0 := by
    rw [instructionAt]
    split_ifs
    · rfl
    · rfl
    · rfl
  rw [instructionsAt, count_append, single]
  split_ifs
  · rfl
  · rfl

/-- How often the walk over some sections comes to the address of the base
relocation table. -/
def relocsCount (dis : Disassembler) (sections : List Section) : Nat :=
  (sections.map fun sec =>
    (dis.stopsOf sec).countP (dis.atRelocs sec.virtual_address)).sum

theorem count_makeRelocs_fileInstructions (sections : List Section) :
    (dis.fileInstructions file_offset sections).count .makeRelocs = dis.relocsCount sections := by
  induction sections generalizing file_offset with
  | nil => rfl
  | cons sec rest ih =>
    have noByte : ((dis.bytesBetween file_offset.toNat
        sec.file_offset_of_raw_data.toNat).map Instruction.byte).count .makeRelocs = 0 := by
      apply count_eq_zero.mpr
      intro mem
      obtain ⟨val, _, isByte⟩ := List.mem_map.mp mem
      cases isByte
    have here : (dis.sectionInstructions sec).count .makeRelocs = (dis.stopsOf sec).countP
          (dis.atRelocs sec.virtual_address) := by
      rw [sectionInstructions, count_cons_of_ne (by simp), instructionsFrom, stopsOf, sectionStops]
      generalize stops _ _ _ = all
      induction all with
      | nil => rfl
      | cons stop later inner =>
        rw [flatMap_cons, count_append, inner,
          count_makeRelocs_instructionsAt, countP_cons, Nat.add_comm]
    rw [fileInstructions, count_append, count_append, noByte, here, ih, Nat.zero_add]
    exact sum_cons.symm

theorem countP_isOrigin_fileInstructions (sections : List Section) :
    (dis.fileInstructions file_offset sections).countP isOrigin = sections.length := by
  induction sections generalizing file_offset with
  | nil => rfl
  | cons sec rest ih =>
    have noByte : ((dis.bytesBetween file_offset.toNat
        sec.file_offset_of_raw_data.toNat).map Instruction.byte).countP isOrigin = 0 := by
      apply countP_eq_zero.mpr
      intro inst mem
      obtain ⟨val, _, rfl⟩ := List.mem_map.mp mem
      exact Bool.noConfusion
    have here : (dis.sectionInstructions sec).countP isOrigin = 1 := by
      rw [sectionInstructions, countP_cons_of_pos rfl, instructionsFrom, countP_eq_zero.mpr]
      intro inst mem
      obtain ⟨stop, _, isAt⟩ := mem_flatMap.mp mem
      rw [instructionsAt, mem_append] at isAt
      rcases isAt with isMake | isSingle
      · split_ifs at isMake
        · rw [mem_singleton.mp isMake]
          exact Bool.noConfusion
        · cases isMake
      · rw [mem_singleton.mp isSingle, instructionAt]
        split_ifs
        · exact Bool.noConfusion
        · exact Bool.noConfusion
        · exact Bool.noConfusion
    rw [fileInstructions, countP_append, countP_append, noByte, here, ih, length_cons]
    omega

/-- What the walk over a file may not come across. No reference is cut off by
the end of its section, or refers to the address that stands for none. The
address of the missing base relocation table is met once at most, and only if
there are no relocations. -/
structure Lossless (dis : Disassembler) : Prop where
  inside : ∀ sec ∈ dis.pe_info.rawSections, ∀ stop ∈ dis.stopsOf sec, ¬ dis.StraddlesEnd sec stop
  assigned : ∀ sec ∈ dis.pe_info.rawSections, ∀ stop ∈ dis.stopsOf sec,
      Assigned (dis.instructionAt sec.virtual_address sec.file_offset_of_raw_data.toNat stop)
  once : dis.relocsCount dis.pe_info.rawSections <= 1
  noRelocations : 0 < dis.relocsCount dis.pe_info.rawSections ->
      ∀ sec ∈ dis.pe_info.rawSections, ∀ stop ∈ dis.stopsOf sec,
          dis.isAbs32 sec.virtual_address stop = false

/-- All instructions of a file. -/
def allInstructions (dis : Disassembler) : List Instruction :=
  dis.fileInstructions 0#32 dis.pe_info.layout

theorem count_makeRelocs_allInstructions : dis.allInstructions.count .makeRelocs =
      dis.relocsCount dis.pe_info.rawSections := by
  rw [allInstructions, count_makeRelocs_fileInstructions, relocsCount, relocsCount]
  exact (dis.pe_info.layout_perm.map _).sum_eq

theorem mem_instructionsAt (notMake : inst ≠ .makeRelocs) :
    inst ∈ dis.instructionsAt start_rva start_pointer offset ↔
      inst = dis.instructionAt start_rva start_pointer offset := by
  rw [instructionsAt, mem_append, mem_singleton]
  apply or_iff_right
  split_ifs
  · rwa [mem_singleton]
  · exact not_mem_nil

/-- A property of the references among all instructions is one of those at the
stops. -/
theorem forall_allInstructions_iff {P : Instruction -> Prop} (byte : ∀ val, P (.byte val))
    (origin : ∀ rva, P (.origin rva)) (makeRelocs : P .makeRelocs) :
    (∀ inst ∈ dis.allInstructions, P inst) ↔
      ∀ sec ∈ dis.pe_info.rawSections, ∀ stop ∈ dis.stopsOf sec,
          P (dis.instructionAt sec.virtual_address sec.file_offset_of_raw_data.toNat stop) := by
  constructor
  · intro all sec isRaw stop isStop
    have emitted : ∀ inst, inst = dis.instructionAt sec.virtual_address
          sec.file_offset_of_raw_data.toNat stop ->
        isByte inst = false -> isOrigin inst = false ->
        inst ≠ .makeRelocs -> P inst := by
      intro inst isAt notByte notOrigin notMake
      apply all
      exact (mem_fileInstructions notByte notOrigin).mpr
        ⟨sec, mem_layout.mpr isRaw, stop, isStop, (mem_instructionsAt notMake).mpr isAt⟩
    cases isAt : dis.instructionAt sec.virtual_address sec.file_offset_of_raw_data.toNat stop with
    | byte val => exact byte val
    | origin rva => exact origin rva
    | makeRelocs => exact makeRelocs
    | rel32 rva => exact emitted _ isAt.symm rfl rfl (by simp)
    | abs32 rva => exact emitted _ isAt.symm rfl rfl (by simp)
  · intro all inst mem
    have stopped : isByte inst = false ->
        isOrigin inst = false -> inst ≠ .makeRelocs -> P inst := by
      intro notByte notOrigin notMake
      obtain ⟨sec, isLayout, stop, isStop, isAt⟩ :=
        (mem_fileInstructions notByte notOrigin).mp mem
      rw [(mem_instructionsAt notMake).mp isAt]
      exact all sec (mem_layout.mp isLayout) stop isStop
    cases inst with
    | byte val => exact byte val
    | origin rva => exact origin rva
    | makeRelocs => exact makeRelocs
    | rel32 rva => exact stopped rfl rfl (by simp)
    | abs32 rva => exact stopped rfl rfl (by simp)

theorem isAbs32Reference_instructionAt :
    isAbs32Reference (dis.instructionAt start_rva start_pointer offset) =
      dis.isAbs32 start_rva offset := by
  rw [instructionAt]
  cases dis.isAbs32 start_rva offset with
  | true => rfl
  | false =>
    cases dis.isRel32 start_rva offset with
    | true => rfl
    | false => rfl

theorem noAbs32_allInstructions_iff :
    (∀ inst ∈ dis.allInstructions, isAbs32Reference inst = false) ↔
      ∀ sec ∈ dis.pe_info.rawSections, ∀ stop ∈ dis.stopsOf sec,
          dis.isAbs32 sec.virtual_address stop = false := by
  have stopped := @forall_allInstructions_iff dis (fun inst => isAbs32Reference inst = false)
    (fun _ => rfl) (fun _ => rfl) rfl
  simp only [isAbs32Reference_instructionAt] at stopped
  exact stopped

section

variable (complete : Complete dis)
include complete

/-- The emitted instructions are few enough to be encoded. -/
theorem references_bounds :
    dis.pe_info.file_length.toNat <= (dis.allInstructions.map emittedLength).sum ∧
      dis.allInstructions.countP isAbs32Reference +
        dis.allInstructions.countP isRel32Reference < 2 ^ 30 + 2 ^ 16 ∧
      ((dis.allInstructions.map emittedLength).sum = dis.pe_info.file_length.toNat ↔
        Inside dis dis.pe_info.rawSections) := by
  obtain ⟨least, most, same⟩ := sum_fileInstructions complete
    (follow_layout complete.wellFormed) (Nat.zero_le _)
  have references := countP_references_le dis.allInstructions
  have length : dis.pe_info.layout.length < 2 ^ 16 := by
    rw [dis.pe_info.layout_perm.length_eq]
    exact Nat.lt_of_le_of_lt (length_filter_le _ _) dis.pe_info.number_of_sections
  have insideLayout : Inside dis dis.pe_info.layout ↔ Inside dis dis.pe_info.rawSections := by
    simp only [Inside, mem_layout]
  rw [endOf_layout complete.wellFormed, ← allInstructions] at least most same
  rw [insideLayout] at same
  exact ⟨least, by omega, same⟩

theorem fits_emitAll (inside : Inside dis dis.pe_info.rawSections)
    (once : dis.allInstructions.count .makeRelocs <= 1)
    (pages : .makeRelocs ∈ dis.allInstructions -> relocations 0#32 dis.allInstructions = []) :
    Fits (emitAll dis.pe_info.image_base dis.allInstructions) := by
  obtain ⟨_, references, same⟩ := references_bounds complete
  have fewAbs32 : dis.allInstructions.countP isAbs32Reference < 2 ^ 31 := by omega
  have fewRel32 : dis.allInstructions.countP isRel32Reference < 2 ^ 31 := by omega
  have indexes := index_ne_emitAll fewAbs32 fewRel32 dis.pe_info.image_base
  have encodable := encodable_emitAll fewAbs32 fewRel32 dis.pe_info.image_base
  refine ⟨indexes.1, indexes.2, ?_, ?_, ?_⟩
  · have groups := length_operations_le encodable
    have origins : dis.allInstructions.countP isOrigin < 2 ^ 16 := by
      rw [allInstructions, countP_isOrigin_fileInstructions, dis.pe_info.layout_perm.length_eq]
      exact Nat.lt_of_le_of_lt (length_filter_le _ _) dis.pe_info.number_of_sections
    rw [emitAll_instructions] at groups ⊢
    rw [countP_not_isByte] at groups
    omega
  · rw [emitAll_instructions]
    have copied := length_copiedBytes_le dis.allInstructions
    have exact_ := same.mpr inside
    omega
  · rw [emitAll_instructions]
    intro makes
    rw [pages makes]
    exact fun _ => Nat.zero_le _

/-- Disassembly loses nothing exactly if the walk comes across nothing that it
cannot honour. -/
theorem reassemble_iff_of_complete : dis.reassemble = some (dis.pe_info.bytes.take
          dis.pe_info.file_length.toNat) ↔ Lossless dis := by
  rcases parseFile_outcome complete with
    parsed | ⟨failed, sec, isRaw, stop, isStop, straddles⟩
  · have reassembled : dis.reassemble = (emitAll dis.pe_info.image_base
          dis.allInstructions).encodeAndAssemble := by
      show (dis.parseFile (start dis.pe_info.image_base) >>=
        fun prog => prog.defaultAssignIndexes.encodeAndAssemble) = _
      rw [parsed]
      rfl
    obtain ⟨least, references, same⟩ := references_bounds complete
    obtain ⟨rel32_other, abs32_other, rel32_ne, abs32_ne, assembled⟩ :=
      encodeAndAssemble_of_encodable (encodable_emitAll
        (show dis.allInstructions.countP isAbs32Reference < 2 ^ 31 by omega)
        (show dis.allInstructions.countP isRel32Reference < 2 ^ 31 by omega)
        dis.pe_info.image_base)
    have inMemory := complete.wellFormed.inMemory
    have whole : Inside dis dis.pe_info.rawSections ->
        interpretFrom (dis.pe_info.image_base.setWidth 64) [] 0#32
          dis.allInstructions = dis.pe_info.bytes.take
              dis.pe_info.file_length.toNat := by
      intro inside
      have yields := interpret_fileInstructions complete
        (follow_layout complete.wellFormed) (Nat.zero_le _)
        (fun sec mem => inside sec (mem_layout.mp mem)) 0#32
      rw [endOf_layout complete.wellFormed] at yields
      exact yields
    rw [reassembled, assembled, emitAll_instructions, interpretTargets,
      emitAll_instructions, emitAll_image_base]
    constructor
    · rintro ⟨_, once, equal⟩
      have length := congrArg length equal
      rw [length_interpretFrom, map_emittedLength_retarget,
        count_map_retarget, length_take, Nat.min_eq_left inMemory] at length
      have inside := same.mp (by omega)
      have noTable : .makeRelocs ∈ dis.allInstructions ->
          relocations 0#32 dis.allInstructions = [] := by
        intro makes
        have pos := count_pos_iff.mpr makes
        have product : dis.allInstructions.count .makeRelocs *
            (relocationTable (sortRelocs (relocations 0#32 dis.allInstructions))).length = 0 := by
          omega
        rw [← relocationTable_sortRelocs_eq_nil_iff]
        apply eq_nil_of_length_eq_zero
        rcases Nat.mul_eq_zero.mp product with zero | zero
        · omega
        · exact zero
      rw [interpretFrom_no_table (fun makes => by
          rw [mem_map_retarget] at makes
          exact relocationTable_sortRelocs_eq_nil_iff.mpr (noTable makes)),
        ← whole inside] at equal
      refine ⟨inside, ?_, ?_, ?_⟩
      · rw [← forall_allInstructions_iff (fun _ => trivial) (fun _ => trivial) trivial]
        exact (interpretFrom_assignedTo_iff rel32_ne abs32_ne _ _ _).mp equal.symm
      · rwa [← count_makeRelocs_allInstructions]
      · intro pos
        rw [← count_makeRelocs_allInstructions] at pos
        rw [← noAbs32_allInstructions_iff, ← relocations_eq_nil_iff 0#32]
        exact noTable (count_pos_iff.mp pos)
    · rintro ⟨inside, assigned, once, noRelocations⟩
      rw [← count_makeRelocs_allInstructions] at once noRelocations
      have noTable : .makeRelocs ∈ dis.allInstructions ->
          relocations 0#32 dis.allInstructions = [] := by
        intro makes
        rw [relocations_eq_nil_iff, noAbs32_allInstructions_iff]
        exact noRelocations (count_pos_iff.mpr makes)
      refine ⟨fits_emitAll complete inside once noTable, once, ?_⟩
      rw [interpretFrom_no_table (fun makes => by
          rw [mem_map_retarget] at makes
          exact relocationTable_sortRelocs_eq_nil_iff.mpr (noTable makes)),
        ← whole inside]
      refine ((interpretFrom_assignedTo_iff rel32_ne abs32_ne _ _ _).mpr ?_).symm
      exact (forall_allInstructions_iff (fun _ => trivial) (fun _ => trivial) trivial).mpr assigned
  · refine iff_of_false ?_ (fun lossless => lossless.inside sec isRaw stop isStop straddles)
    show ¬ (dis.parseFile (start dis.pe_info.image_base) >>=
      fun prog => prog.defaultAssignIndexes.encodeAndAssemble) = _
    rw [failed]
    simp

end

/-- Disassembly with the rel32 locations that are found, and sorted abs32
locations. -/
theorem reassemble_iff {pe_info : PEInfo} (wellFormed : WellFormed pe_info)
    (noTable : pe_info.base_relocation_table.size_ = 0#32) {abs32_locations : List RVA}
    (sorted : abs32_locations.Pairwise fun left right => left.toNat <= right.toNat) :
    ∃ rel32_locations, pe_info.parseRel32RelocsFromSections abs32_locations = some rel32_locations ∧
      (reassemble ⟨pe_info, false, abs32_locations, rel32_locations⟩ =
          some (pe_info.bytes.take pe_info.file_length.toNat) ↔
        Lossless ⟨pe_info, false, abs32_locations, rel32_locations⟩) := by
  obtain ⟨rel32_locations, isFound, sortedRel32, _⟩ :=
    parseRel32RelocsFromSections_spec wellFormed noTable
  exact ⟨rel32_locations, isFound,
    reassemble_iff_of_complete ⟨rfl, noTable, sorted, sortedRel32, wellFormed⟩⟩

/-- A header, a section with a call, and a section with an address. -/
def twoSections : PEInfo where
  bytes := [0x4d#8, 0x5a#8, 0x00#8, 0x00#8,
    0xe8#8, 0x01#8, 0x00#8, 0x00#8, 0x00#8, 0x90#8, 0x90#8, 0xc3#8,
    0x06#8, 0x10#8, 0x40#8, 0x00#8]
  file_length := 16#32
  sections := [
    { name := [0x2e#8, 0x74#8, 0x65#8, 0x78#8, 0x74#8, 0x00#8, 0x00#8, 0x00#8]
      virtual_size := 8#32
      virtual_address := 0x1000#32
      size_of_raw_data := 8#32
      file_offset_of_raw_data := 4#32 },
    { name := []
      virtual_size := 4#32
      virtual_address := 0x2000#32
      size_of_raw_data := 4#32
      file_offset_of_raw_data := 12#32 }]
  number_of_sections := by decide
  image_base := 0x400000#32
  size_of_image := 0x3000#32
  base_relocation_table := ⟨0x3000#32, 0#32⟩

theorem wellFormed_twoSections : WellFormed twoSections where
  inMemory := by decide
  inside := by decide
  apart := by decide
  noTrailing := by decide

theorem reassemble_twoSections :
    (∃ rel32_locations, twoSections.parseRel32RelocsFromSections [0x2000#32] =
        some rel32_locations ∧ (reassemble ⟨twoSections, false, [0x2000#32], rel32_locations⟩ =
          some (twoSections.bytes.take twoSections.file_length.toNat) ↔
        Lossless ⟨twoSections, false, [0x2000#32], rel32_locations⟩)) ∧
    twoSections.parseRel32RelocsFromSections [0x2000#32] = some [0x1001#32] ∧
    reassemble ⟨twoSections, false, [0x2000#32], [0x1001#32]⟩ = some twoSections.bytes :=
  ⟨reassemble_iff wellFormed_twoSections rfl (by decide), by decide +kernel, by decide +kernel⟩

/-- Two sections at the address of a base relocation table that has no size. -/
def sameAddress : PEInfo where
  bytes := [0x01#8, 0x02#8, 0x03#8, 0x04#8]
  file_length := 4#32
  sections := [
    { name := []
      virtual_size := 2#32
      virtual_address := 0x1000#32
      size_of_raw_data := 2#32
      file_offset_of_raw_data := 0#32 },
    { name := []
      virtual_size := 2#32
      virtual_address := 0x1000#32
      size_of_raw_data := 2#32
      file_offset_of_raw_data := 2#32 }]
  number_of_sections := by decide
  image_base := 0x400000#32
  size_of_image := 0x2000#32
  base_relocation_table := ⟨0x1000#32, 0#32⟩

theorem wellFormed_sameAddress : WellFormed sameAddress where
  inMemory := by decide
  inside := by decide
  apart := by decide
  noTrailing := by decide

/-- An abs32 location in the last bytes of a section, and no abs32 locations at
all. -/
theorem not_reassemble : (twoSections.parseRel32RelocsFromSections [0x1006#32] = some [0x1001#32] ∧
      reassemble ⟨twoSections, false, [0x1006#32], [0x1001#32]⟩ ≠ some twoSections.bytes) ∧
    WellFormed sameAddress ∧ sameAddress.parseRel32RelocsFromSections [] = some [] ∧
      reassemble ⟨sameAddress, false, [], []⟩ ≠ some sameAddress.bytes :=
  ⟨⟨by decide +kernel, by decide +kernel⟩, wellFormed_sameAddress,
    by decide +kernel, by decide +kernel⟩

end Chromium.Courgette.Disassembler
