import Chromium.Courgette.Disassembler
import Chromium.Library.Framing

/-!
# The walk over a section

The stops of the walk over a section follow from the sorted locations. The walk
emits an instruction at each stop.
-/

namespace Chromium.Courgette.Disassembler

open Library

variable (dis : Disassembler) (start_rva : RVA)

section

variable (offset : Nat)

/-- There is an abs32 location at an offset of a section. -/
def isAbs32 : Bool :=
  dis.abs32_locations.any fun rva => rva.toNat = start_rva.toNat + offset

/-- The section has nothing but abs32 references up to the end of the address
space. -/
def wrapsOverAbs32 : Bool :=
  (List.range (2 ^ 32)).all fun index =>
    2 ^ 32 <= start_rva.toNat + 4 * index || dis.isAbs32 start_rva (4 * index)

/-- There is a rel32 location, and no abs32 location, at an offset of a section.
Addresses behind the end of the address space are those from zero on. -/
def isRel32 : Bool :=
  !dis.isAbs32 start_rva offset && (dis.rel32_locations.any fun rva =>
      rva.toNat = (start_rva.toNat + offset) % 2 ^ 32) &&
    (start_rva.toNat + offset < 2 ^ 32 || dis.wrapsOverAbs32 start_rva)

/-- References have three bytes more than others. -/
def extraBytes : Nat :=
  if dis.isAbs32 start_rva offset || dis.isRel32 start_rva offset then 3
  else 0

def sectionStops (size : Nat) : List Nat := stops (dis.extraBytes start_rva) size 0

/-- The address of an offset of a section. -/
def locationRVA : RVA := start_rva + BitVec.ofNat 32 offset

/-- The four bytes at an offset of a section. -/
def wordAt (start_pointer offset : Nat) : BitVec 32 :=
  (read32LittleEndian dis.pe_info.bytes (start_pointer + offset)).getD 0#32

def instructionAt (start_pointer offset : Nat) : Instruction :=
  if dis.isAbs32 start_rva offset then
    .abs32 (dis.wordAt start_pointer offset - dis.pe_info.image_base)
  else if dis.isRel32 start_rva offset then
    .rel32 (locationRVA start_rva offset + 4#32 + dis.wordAt start_pointer offset)
  else .byte (dis.pe_info.bytes[start_pointer + offset]?.getD 0#8)

/-- The offset is where the base relocation table should be. -/
def atRelocs : Bool :=
  locationRVA start_rva offset = dis.pe_info.base_relocation_table.address_

end

def instructionsAt (start_pointer offset : Nat) : List Instruction :=
  (if dis.atRelocs start_rva offset then [.makeRelocs] else []) ++
    [dis.instructionAt start_rva start_pointer offset]

variable {dis start_rva}

theorem isAbs32_iff : dis.isAbs32 start_rva offset = true ↔
      ∃ rva ∈ dis.abs32_locations, rva.toNat = start_rva.toNat + offset := by
  rw [isAbs32, List.any_eq_true]
  simp

theorem wrapsOverAbs32_iff : dis.wrapsOverAbs32 start_rva = true ↔
      ∀ i, start_rva.toNat + 4 * i < 2 ^ 32 ->
        dis.isAbs32 start_rva (4 * i) = true := by
  rw [wrapsOverAbs32, List.all_eq_true]
  simp only [List.mem_range, Bool.or_eq_true, decide_eq_true_eq]
  constructor
  · intro all i inside
    rcases all i (by omega) with outside | holds
    · omega
    · exact holds
  · intro all i _
    by_cases inside : start_rva.toNat + 4 * i < 2 ^ 32
    · exact Or.inr (all i inside)
    · exact Or.inl (Nat.le_of_not_lt inside)

theorem toNat_locationRVA :
    (locationRVA start_rva offset).toNat = (start_rva.toNat + offset) % 2 ^ 32 := by
  exact Nat.add_mod_mod _ _ _

theorem locationRVA_add : locationRVA start_rva offset + BitVec.ofNat 32 width =
      locationRVA start_rva (offset + width) := by
  rw [locationRVA, locationRVA, BitVec.add_assoc, BitVec.ofNat_add]

/-- What the cursors have passed at an offset. The rel32 cursor stays behind
while there are nothing but abs32 references. -/
structure Passed (dis : Disassembler) (start_rva : RVA)
    (offset abs32_from rel32_from : Nat) : Prop where
  abs32 : start_rva.toNat + offset < 2 ^ 32 -> abs32_from <= start_rva.toNat + offset
  abs32_start : offset ≠ 0 -> start_rva.toNat <= abs32_from
  rel32 : start_rva.toNat + offset < 2 ^ 32 -> rel32_from <= start_rva.toNat + offset
  rel32_start : (start_rva.toNat <= rel32_from ∧ dis.wrapsOverAbs32 start_rva = false) ∨
    ((start_rva.toNat + offset < 2 ^ 32 -> 4 ∣ offset) ∧
      rel32_from <= start_rva.toNat + offset - 2 ^ 32 ∧
      ∀ index, 4 * index < offset -> start_rva.toNat + 4 * index < 2 ^ 32 ->
        dis.isAbs32 start_rva (4 * index) = true)

theorem passed_zero : Passed dis start_rva 0 0 0 where
  abs32 := fun _ => Nat.zero_le _
  abs32_start := fun nonzero => absurd rfl nonzero
  rel32 := fun _ => Nat.zero_le _
  rel32_start := Or.inr ⟨fun _ => Nat.dvd_zero 4, Nat.zero_le _,
    fun _ negative => absurd negative (Nat.not_lt_zero _)⟩

/-- The address of an offset, on both sides of the end of the address space. -/
theorem toNat_locationRVA_cases (lt : offset < 2 ^ 32) : (start_rva.toNat + offset < 2 ^ 32 ∧
      (locationRVA start_rva offset).toNat = start_rva.toNat + offset) ∨
    (2 ^ 32 <= start_rva.toNat + offset ∧ (locationRVA start_rva offset).toNat =
        start_rva.toNat + offset - 2 ^ 32 ∧
      (locationRVA start_rva offset).toNat < start_rva.toNat) := by
  rw [toNat_locationRVA]
  by_cases within : start_rva.toNat + offset < 2 ^ 32
  · exact Or.inl ⟨within, Nat.mod_eq_of_lt within⟩
  · exact Or.inr ⟨by omega, by omega, by omega⟩

theorem toNat_injective : Function.Injective (BitVec.toNat : RVA -> Nat) :=
  fun _ _ same => BitVec.eq_of_toNat_eq same

/-- The abs32 cursor stops exactly at the abs32 locations. -/
theorem abs32_found_iff (sorted : dis.abs32_locations.Pairwise fun left right =>
      left.toNat <= right.toNat)
    (passed : Passed dis start_rva offset abs32_from rel32_from)
    (lt : offset < 2 ^ 32) :
    (pass BitVec.toNat (locationRVA start_rva offset).toNat
        (pass BitVec.toNat abs32_from dis.abs32_locations)).head? =
      some (locationRVA start_rva offset) ↔ dis.isAbs32 start_rva offset = true := by
  rw [isAbs32_iff]
  rcases toNat_locationRVA_cases lt with
    ⟨within, val⟩ | ⟨behind, val, low⟩
  · rw [head_pass_iff toNat_injective sorted (by rw [val]; exact passed.abs32 within)]
    constructor
    · intro mem
      exact ⟨_, mem, val⟩
    · rintro ⟨rva, mem, same⟩
      rwa [toNat_injective (val.trans same.symm)]
  · have start := passed.abs32_start (by rintro rfl; omega)
    refine iff_of_false (head_pass_ne (by omega)) ?_
    rintro ⟨rva, _, same⟩
    omega

/-- The rel32 cursor stops exactly at the rel32 locations. -/
theorem rel32_found_iff (sorted : dis.rel32_locations.Pairwise fun left right =>
      left.toNat <= right.toNat)
    (passed : Passed dis start_rva offset abs32_from rel32_from) (lt : offset < 2 ^ 32)
    (notAbs32 : dis.isAbs32 start_rva offset = false) :
    (pass BitVec.toNat (locationRVA start_rva offset).toNat
        (pass BitVec.toNat rel32_from dis.rel32_locations)).head? =
      some (locationRVA start_rva offset) ↔ dis.isRel32 start_rva offset = true := by
  have located : (∃ rva ∈ dis.rel32_locations,
      rva.toNat = (start_rva.toNat + offset) % 2 ^ 32) ↔
        locationRVA start_rva offset ∈ dis.rel32_locations := by
    rw [← toNat_locationRVA]
    constructor
    · rintro ⟨rva, mem, same⟩
      rwa [← toNat_injective same]
    · intro mem
      exact ⟨_, mem, rfl⟩
  have isRel32_iff : dis.isRel32 start_rva offset = true ↔
      locationRVA start_rva offset ∈ dis.rel32_locations ∧
        (start_rva.toNat + offset < 2 ^ 32 ∨ dis.wrapsOverAbs32 start_rva = true) := by
    rw [isRel32, notAbs32, Bool.and_eq_true, Bool.and_eq_true, List.any_eq_true, Bool.or_eq_true]
    simp only [decide_eq_true_eq, Bool.not_false, true_and, located]
  rw [isRel32_iff]
  rcases toNat_locationRVA_cases lt with
    ⟨within, val⟩ | ⟨behind, val, low⟩
  · rw [head_pass_iff toNat_injective sorted (by rw [val]; exact passed.rel32 within)]
    exact (and_iff_left (Or.inl within)).symm
  · rcases passed.rel32_start with ⟨start, wraps⟩ | ⟨_, low, all⟩
    · refine iff_of_false (head_pass_ne (by omega)) ?_
      rintro ⟨_, within | wrapped⟩
      · omega
      · rw [wraps] at wrapped
        cases wrapped
    · have wrapped : dis.wrapsOverAbs32 start_rva = true :=
        wrapsOverAbs32_iff.mpr fun i within => all i (by omega) within
      rw [head_pass_iff toNat_injective sorted (by omega), wrapped]
      exact (and_iff_left (Or.inr rfl)).symm

section

variable (passed : Passed dis start_rva offset abs32_from rel32_from)
include passed

/-- The walk goes on behind an abs32 reference. -/
theorem Passed.abs32_step (lt : offset < 2 ^ 32)
    (isAbs32 : dis.isAbs32 start_rva offset = true) :
    Passed dis start_rva (offset + 4)
      (max abs32_from (locationRVA start_rva offset).toNat) rel32_from := by
  obtain ⟨rva, _, same⟩ := isAbs32_iff.mp isAbs32
  have within : start_rva.toNat + offset < 2 ^ 32 := by omega
  have val : (locationRVA start_rva offset).toNat = start_rva.toNat + offset := by
    rw [toNat_locationRVA, Nat.mod_eq_of_lt within]
  have abs32 := passed.abs32 within
  have rel32 := passed.rel32 within
  refine ⟨fun _ => by omega, fun _ => by omega, fun _ => by omega, ?_⟩
  rcases passed.rel32_start with start | ⟨divides, low, all⟩
  · exact Or.inl start
  · have lowNext : rel32_from <= start_rva.toNat + (offset + 4) - 2 ^ 32 :=
      Nat.le_trans low (Nat.sub_le_sub_right (Nat.add_le_add_left (Nat.le_add_right offset 4) _) _)
    refine Or.inr ⟨fun _ => by omega, lowNext, ?_⟩
    intro i before indexWithin
    by_cases earlier : 4 * i < offset
    · exact all i earlier indexWithin
    · rwa [show 4 * i = offset by omega]

/-- The walk goes on behind another reference or byte. -/
theorem Passed.other_step (lt : offset < 2 ^ 32)
    (notAbs32 : dis.isAbs32 start_rva offset = false) (forward : offset < next) :
    Passed dis start_rva next (max abs32_from (locationRVA start_rva offset).toNat)
      (max rel32_from (locationRVA start_rva offset).toNat) := by
  rcases toNat_locationRVA_cases lt with
    ⟨within, val⟩ | ⟨behind, val, low⟩
  · have abs32 := passed.abs32 within
    have rel32 := passed.rel32 within
    refine ⟨fun _ => by omega, fun _ => by omega, fun _ => by omega, ?_⟩
    refine Or.inl ⟨by omega, ?_⟩
    rcases passed.rel32_start with start | ⟨divides, _, _⟩
    · exact start.2
    · obtain ⟨i, rfl⟩ := divides within
      apply Bool.eq_false_iff.mpr
      intro wraps
      have inv := wrapsOverAbs32_iff.mp wraps i within
      rw [notAbs32] at inv
      cases inv
  · have start := passed.abs32_start (by rintro rfl; omega)
    refine ⟨fun _ => by omega, fun _ => by omega, fun _ => by omega, ?_⟩
    rcases passed.rel32_start with ⟨above, wraps⟩ | ⟨_, lowFrom, all⟩
    · exact Or.inl ⟨by omega, wraps⟩
    · refine Or.inr ⟨fun _ => by omega, by omega, ?_⟩
      intro i _ indexWithin
      exact all i (by omega) indexWithin

end

/-- The instructions that are emitted from an offset on. -/
def instructionsFrom (dis : Disassembler) (start_rva : RVA)
    (start_pointer size offset : Nat) : List Instruction :=
  (stops (dis.extraBytes start_rva) size offset).flatMap
    (dis.instructionsAt start_rva start_pointer)

/-- A reference at the offset is not inside the section. -/
def Straddles (dis : Disassembler) (start_rva : RVA) (size offset : Nat) : Prop :=
  size < offset + 1 + dis.extraBytes start_rva offset

theorem read32LittleEndian_eq_none (isNone : read32LittleEndian bytes addr = none) :
    bytes.length < addr + 4 := by
  by_contra inside
  have long : 4 <= (bytes.drop addr).length := by
    rw [List.length_drop]
    omega
  rw [read32LittleEndian] at isNone
  match isDrop : bytes.drop addr with
  | first :: second :: third :: fourth :: _ =>
    rw [isDrop] at isNone
    cases isNone
  | [] | [_] | [_, _] | [_, _, _] =>
    rw [isDrop] at long
    simp at long

theorem instructionsFrom_of_lt (lt : offset < size) :
    dis.instructionsFrom start_rva start_pointer size offset =
      dis.instructionsAt start_rva start_pointer offset ++
        dis.instructionsFrom start_rva start_pointer size
          (offset + 1 + dis.extraBytes start_rva offset) := by
  rw [instructionsFrom, stops_of_lt lt, List.flatMap_cons]
  rfl

/-- The walk from an offset on emits the instructions of its stops, unless a
reference is read from behind the file. -/
def Outcome (dis : Disassembler) (start_rva : RVA)
    (start_pointer size offset : Nat) (prog : AssemblyProgram)
    (result : Option AssemblyProgram) : Prop :=
  result = some ((dis.instructionsFrom start_rva start_pointer size
    offset).foldl .emit prog) ∨
  result = none ∧ ∃ stop ∈ stops (dis.extraBytes start_rva) size offset,
      dis.Straddles start_rva size stop

theorem Outcome.step (lt : offset < size)
    (later : Outcome dis start_rva start_pointer size
      (offset + 1 + dis.extraBytes start_rva offset)
      ((dis.instructionsAt start_rva start_pointer offset).foldl .emit prog) result) :
    Outcome dis start_rva start_pointer size offset prog result := by
  rcases later with rfl | ⟨rfl, stop, mem, straddles⟩
  · left
    rw [instructionsFrom_of_lt lt, List.foldl_append]
  · right
    refine ⟨rfl, stop, ?_, straddles⟩
    rw [stops_of_lt lt]
    exact List.mem_cons_of_mem _ mem

theorem Outcome.of_straddles (lt : off < size)
    (straddles : dis.Straddles start_rva size off) :
    Outcome dis start_rva start_pointer size off prog none := by
  right
  refine ⟨rfl, off, ?_, straddles⟩
  rw [stops_of_lt lt]
  exact List.mem_cons_self

theorem dropWhile_eq_pass (bound : Nat) (rvas : List RVA) :
    rvas.dropWhile (fun rva => decide (rva.toNat < bound)) = pass BitVec.toNat bound rvas :=
  rfl

theorem foldl_emit_instructionsAt (start_pointer off : Nat) (prog : AssemblyProgram) :
    (dis.instructionsAt start_rva start_pointer off).foldl .emit prog =
      (if locationRVA start_rva off = dis.pe_info.base_relocation_table.address_ then
        prog.emit .makeRelocs
      else prog).emit (dis.instructionAt start_rva start_pointer off) := by
  rw [instructionsAt, List.foldl_append, atRelocs]
  by_cases here : locationRVA start_rva off = dis.pe_info.base_relocation_table.address_
  · simp [here]
  · simp [here]

theorem fileRegionLoop_outcome (complete : dis.incomplete_disassembly = false)
    (noTable : dis.pe_info.base_relocation_table.size_ = 0#32)
    (sortedAbs32 : dis.abs32_locations.Pairwise fun left right => left.toNat ≤ right.toNat)
    (sortedRel32 : dis.rel32_locations.Pairwise fun left right =>
      left.toNat <= right.toNat) (bound : size < 2 ^ 32)
    (inFile : start_pointer + size <= dis.pe_info.bytes.length) (end_rva : RVA)
    (enough : size - offset < rounds)
    (passed : Passed dis start_rva offset abs32_from rel32_from)
    (prog : AssemblyProgram) :
    Outcome dis start_rva start_pointer size offset prog
      (dis.fileRegionLoop start_pointer (start_pointer + size)
        start_rva end_rva rounds (start_pointer + offset)
        (pass BitVec.toNat abs32_from dis.abs32_locations)
        (pass BitVec.toNat rel32_from dis.rel32_locations) prog) := by
  induction rounds generalizing offset abs32_from rel32_from prog with
  | zero => exact absurd enough (Nat.not_lt_zero _)
  | succ rounds ih =>
    rw [fileRegionLoop]
    by_cases inside : offset < size
    · have cur : start_rva + BitVec.ofNat 32 (start_pointer + offset - start_pointer) =
            locationRVA start_rva offset := by
        rw [Nat.add_sub_cancel_left, locationRVA]
      have emitted := @foldl_emit_instructionsAt dis start_rva start_pointer offset prog
      have abs32_iff := abs32_found_iff sortedAbs32 passed (Nat.lt_trans inside bound)
      rw [pass_pass] at abs32_iff
      rw [if_pos (by omega)]
      simp only [cur, noTable, ne_eq, not_true_eq_false, and_false,
        if_false, dropWhile_eq_pass, pass_pass]
      by_cases isAbs32 : dis.isAbs32 start_rva offset = true
      · have wide : dis.extraBytes start_rva offset = 3 := by
          rw [extraBytes, isAbs32]
          rfl
        rw [if_pos (abs32_iff.mpr isAbs32)]
        cases isWord : read32LittleEndian dis.pe_info.bytes (start_pointer + offset) with
        | none =>
          apply Outcome.of_straddles inside
          have short := read32LittleEndian_eq_none isWord
          rw [Straddles, wide]
          omega
        | some word =>
          have inst : dis.instructionAt start_rva start_pointer offset =
                .abs32 (word - dis.pe_info.image_base) := by
            rw [instructionAt, if_pos isAbs32, wordAt, isWord]
            rfl
          apply Outcome.step inside
          rw [emitted, inst, wide]
          exact ih (by omega) (passed.abs32_step (Nat.lt_trans inside bound) isAbs32) _
      · have notAbs32 : dis.isAbs32 start_rva offset = false :=
          Bool.eq_false_iff.mpr isAbs32
        have rel32_iff := rel32_found_iff sortedRel32 passed (Nat.lt_trans inside bound) notAbs32
        rw [pass_pass] at rel32_iff
        rw [if_neg (fun hit => isAbs32 (abs32_iff.mp hit))]
        by_cases isRel32 : dis.isRel32 start_rva offset = true
        · have wide : dis.extraBytes start_rva offset = 3 := by
            rw [extraBytes, isRel32, Bool.or_true]
            rfl
          rw [if_pos (rel32_iff.mpr isRel32)]
          cases isWord : read32LittleEndian dis.pe_info.bytes (start_pointer + offset) with
          | none =>
            apply Outcome.of_straddles inside
            have short := read32LittleEndian_eq_none isWord
            rw [Straddles, wide]
            omega
          | some word =>
            have inst : dis.instructionAt start_rva start_pointer offset =
                  .rel32 (locationRVA start_rva offset + 4#32 + word) := by
              rw [instructionAt, if_neg isAbs32, if_pos isRel32, wordAt, isWord]
              rfl
            apply Outcome.step inside
            rw [emitted, inst, wide]
            exact ih (by omega)
              (passed.other_step (Nat.lt_trans inside bound) notAbs32 (by omega)) _
        · have notRel32 : dis.isRel32 start_rva offset = false :=
            Bool.eq_false_iff.mpr isRel32
          have narrow : dis.extraBytes start_rva offset = 0 := by
            rw [extraBytes, notAbs32, notRel32]
            rfl
          have inst : dis.instructionAt start_rva start_pointer offset =
                .byte (dis.pe_info.bytes[start_pointer + offset]?.getD 0#8) := by
            rw [instructionAt, if_neg isAbs32, if_neg isRel32]
          have isByte : dis.pe_info.bytes[start_pointer + offset]? =
              some (dis.pe_info.bytes[start_pointer + offset]?.getD 0#8) := by
            rw [List.getElem?_eq_getElem (by omega)]
            rfl
          rw [if_neg (fun hit => isRel32 (rel32_iff.mp hit)), complete,
            if_neg (fun all => Bool.noConfusion all.1), isByte]
          apply Outcome.step inside
          rw [emitted, inst, narrow]
          exact ih (by omega)
            (passed.other_step (Nat.lt_trans inside bound) notAbs32 (by omega)) _
    · left
      rw [if_neg (by omega), instructionsFrom, stops_of_le (Nat.le_of_not_lt inside)]
      rfl

end Chromium.Courgette.Disassembler
