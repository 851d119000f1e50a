import Chromium.Courgette.EncodedProgram

/-!
# Assembly of encoded programs

`AssembleTo` walks over the tables of an encoded program. The bytes behind a
base relocation table are kept until the table can be generated.
-/

namespace Chromium.Courgette

open List Option

/-- The bytes of a word, in memory. -/
def bytes32 (value : BitVec 32) : List Byte :=
  [value.setWidth 8, (value >>> 8).setWidth 8, (value >>> 16).setWidth 8, (value >>> 24).setWidth 8]

def bytes16 (value : BitVec 16) : List Byte := [value.setWidth 8, (value >>> 8).setWidth 8]

/-- The number of relocations that a block has room for. -/
def kMaxRelocs : Nat := 4096

/-- A `RelocBlock`, with the relocations instead of the size of the block. -/
structure RelocBlock where
  page_rva : BitVec 32 := BitVec.allOnes 32
  relocs : List (BitVec 16) := []
deriving DecidableEq

namespace RelocBlock

variable (block : RelocBlock)

/-- The size of the block. -/
def block_size : Nat := 8 + 2 * block.relocs.length

/-- `RelocBlock::Add`. There is nothing behind the last relocation of a full
block. -/
def add (item : BitVec 16) : Option RelocBlock :=
  if block.relocs.length < kMaxRelocs then some { block with relocs := block.relocs ++ [item] }
  else none

/-- `RelocBlock::Flush`. -/
def flush (buffer : List Byte) : Option (RelocBlock × List Byte) := do
  if block.relocs = [] then return (block, buffer)
  else
    -- Pad to make size multiple of 4 bytes.
    let block ← if block.block_size % 4 ≠ 0 then block.add 0#16 else some block
    return ({ block with relocs := [] }, SinkStream.write buffer
        (bytes32 block.page_rva ++ bytes32 (BitVec.ofNat 32 block.block_size) ++
          block.relocs.flatMap bytes16))

end RelocBlock

def pageRva (rva : RVA) : BitVec 32 := rva &&& ~~~0xfff#32

def relocItem (rva : RVA) : BitVec 16 := (0x3000#32 ||| (rva &&& 0xfff#32)).setWidth 16

/-- The loop of `GenerateBaseRelocations`. -/
def generateLoop : List RVA -> RelocBlock -> List Byte -> Option (RelocBlock × List Byte)
  | [], block, buffer => some (block, buffer)
  | rva :: rest, block, buffer => do
      let (block, buffer) ← if pageRva rva ≠ block.page_rva then do
          let (block, buffer) ← block.flush buffer
          pure ({ block with page_rva := pageRva rva }, buffer)
        else some (block, buffer)
      let block ← block.add (relocItem rva)
      generateLoop rest block buffer

/-- Relocations in increasing order. -/
def sortRelocs (abs32_relocs : List RVA) : List RVA :=
  abs32_relocs.mergeSort fun left right => left.toNat <= right.toNat

/-- `EncodedProgram::GenerateBaseRelocations`. -/
def generateBaseRelocations (abs32_relocs : List RVA) (buffer : List Byte) :
    Option (List Byte) := do
  let (block, buffer) ← generateLoop (sortRelocs abs32_relocs) {} buffer
  let (_, buffer) ← block.flush buffer
  return buffer

/-- What is left of the tables while an encoded program is assembled, and what
has been assembled. -/
structure Assembler where
  origins : List RVA
  copy_counts : List (BitVec 32)
  copy_bytes : List Byte
  abs32_ix : List (BitVec 32)
  rel32_ix : List (BitVec 32)
  current_rva : RVA := 0#32
  pending_base_relocation_table : Bool := false
  bytes_following_base_relocation_table : List Byte := []
  final_buffer : List Byte
  abs32_relocs : List RVA := []
deriving DecidableEq

namespace Assembler

/-- Write to the output. -/
def write (assembler : Assembler) (bytes : List Byte) : Assembler :=
  if assembler.pending_base_relocation_table then
    { assembler with
      bytes_following_base_relocation_table :=
        assembler.bytes_following_base_relocation_table ++ bytes }
  else { assembler with final_buffer := assembler.final_buffer ++ bytes }

/-- Copy some bytes. -/
def copy (assembler : Assembler) (count : BitVec 32) : Option Assembler :=
  if assembler.copy_bytes.length < count.toNat then none
  else
    some ({ assembler with
        copy_bytes := assembler.copy_bytes.drop count.toNat
        current_rva := assembler.current_rva + count }.write
      (assembler.copy_bytes.take count.toNat))

end Assembler

namespace EncodedProgram

variable (encoded : EncodedProgram)

/-- An operation of `EncodedProgram::AssembleTo`. -/
def assembleOp (assembler : Assembler) : OP -> Option Assembler
  | .origin =>
    match assembler.origins with
    | [] => none
    | section_rva :: origins => some { assembler with origins, current_rva := section_rva }
  | .copy =>
    match assembler.copy_counts with
    | [] => none
    | count :: copy_counts => { assembler with copy_counts }.copy count
  | .copy1 => assembler.copy 1#32
  | .rel32 =>
    match assembler.rel32_ix with
    | [] => none
    | index :: rel32_ix => do
        let rva ← encoded.rel32_rva[index.toNat]?
        return { assembler with
            rel32_ix
            current_rva := assembler.current_rva + 4#32 }.write
          (bytes32 (rva - (assembler.current_rva + 4#32)))
  | .abs32 =>
    match assembler.abs32_ix with
    | [] => none
    | index :: abs32_ix => do
        let rva ← encoded.abs32_rva[index.toNat]?
        let abs32 := (rva.setWidth 64 + encoded.image_base).setWidth 32
        return { assembler with
            abs32_ix
            abs32_relocs := assembler.abs32_relocs ++ [assembler.current_rva]
            current_rva := assembler.current_rva + 4#32 }.write
          (bytes32 abs32)
  | .makeBaseRelocationTable =>
    -- Can't have two base relocation tables.
    if assembler.pending_base_relocation_table then none
    else some { assembler with pending_base_relocation_table := true }
  | .other _ => none

/-- The final buffer behind the last operation, in
`EncodedProgram::AssembleTo`. -/
def assembleEnd (assembler : Assembler) : Option (List Byte) := do
  let final_buffer ← if assembler.pending_base_relocation_table then do
      let buffer ← generateBaseRelocations assembler.abs32_relocs assembler.final_buffer
      pure (buffer ++ assembler.bytes_following_base_relocation_table)
    else some assembler.final_buffer
  -- Final verification check: did we consume all lists?
  if assembler.copy_counts ≠ [] ∨ assembler.copy_bytes ≠ [] ∨
      assembler.abs32_ix ≠ [] ∨ assembler.rel32_ix ≠ [] then
    none
  else return final_buffer

/-- The cursors at the start of `EncodedProgram::AssembleTo`. -/
def assembler (final_buffer : List Byte) : Assembler :=
  { origins := encoded.origins
    copy_counts := encoded.copy_counts
    copy_bytes := encoded.copy_bytes
    abs32_ix := encoded.abs32_ix
    rel32_ix := encoded.rel32_ix
    final_buffer }

/-- `EncodedProgram::AssembleTo`. -/
def assembleTo (final_buffer : List Byte) : Option (List Byte) := do
  let assembler ← encoded.ops.foldlM encoded.assembleOp (encoded.assembler final_buffer)
  assembleEnd assembler

end EncodedProgram

/-!
## Assembly programs

The result of disassembling an executable file. Labels refer to addresses and
are found by them; each has the index of its address in an address table.
-/

/-- A symbolic reference to an address. -/
structure Label where
  rva : RVA
  index : Int
deriving DecidableEq

namespace Label

def kNoIndex : Int := -1

end Label

/-- An `RVAToLabel`: labels in the order of their addresses. -/
structure RVAToLabel where
  labels : List Label
  sorted : labels.Pairwise fun left right => left.rva.toNat < right.rva.toNat

namespace RVAToLabel

def empty : RVAToLabel := ⟨[], List.Pairwise.nil⟩

def find (table : RVAToLabel) (rva : RVA) : Option Label :=
  table.labels.find? fun label => label.rva = rva

end RVAToLabel

/-- The instructions of an assembly program, which refer to labels by their
addresses. -/
inductive Instruction
  | origin (rva : RVA)
  | makeRelocs
  | byte (value : Byte)
  | rel32 (label : RVA)
  | abs32 (label : RVA)
deriving DecidableEq

structure AssemblyProgram where
  image_base : BitVec 64
  instructions : List Instruction
  rel32_labels : RVAToLabel
  abs32_labels : RVAToLabel

namespace AssemblyProgram

/-- `DefineLabels`, for one of the address tables. -/
def defineLabels (labels : List Label) (rvas : List RVA) : Option (List RVA) :=
  labels.foldlM (fun rvas label => EncodedProgram.defineLabelCommon rvas label.index label.rva) rvas

variable (prog : AssemblyProgram)

/-- Add an instruction in `AssemblyProgram::Encode`. -/
def encodeInstruction (encoded : EncodedProgram) : Instruction -> Option EncodedProgram
  | .origin rva => some (encoded.addOrigin rva)
  | .byte value => some (encoded.addCopy [value])
  | .rel32 rva => do
      let label ← prog.rel32_labels.find rva
      return encoded.addRel32 label.index
  | .abs32 rva => do
      let label ← prog.abs32_labels.find rva
      return encoded.addAbs32 label.index
  | .makeRelocs => some encoded.addMakeRelocs

/-- `AssemblyProgram::Encode`. -/
def encode : Option EncodedProgram := do
  let abs32_rva ← defineLabels prog.abs32_labels.labels []
  let rel32_rva ← defineLabels prog.rel32_labels.labels []
  let encoded : EncodedProgram := { image_base := prog.image_base, abs32_rva, rel32_rva }
  prog.instructions.foldlM prog.encodeInstruction encoded.endLabels

/-- Encode a program, write it to new streams, read it back and assemble it. -/
def encodeAndAssemble : Option (List Byte) := do
  let encoded ← prog.encode
  let streams ← encoded.writeTo .fresh
  let decoded ← EncodedProgram.readFrom ⟨streams.count, streams.streams⟩
  decoded.assembleTo []

/-- The addresses of the abs32 references in instructions. -/
def relocations : RVA -> List Instruction -> List RVA
  | _, [] => []
  | _, .origin rva :: rest => relocations rva rest
  | current_rva, .makeRelocs :: rest => relocations current_rva rest
  | current_rva, .byte _ :: rest => relocations (current_rva + 1#32) rest
  | current_rva, .rel32 _ :: rest => relocations (current_rva + 4#32) rest
  | current_rva, .abs32 _ :: rest => current_rva :: relocations (current_rva + 4#32) rest

/-- The bytes of instructions, one by one, with the bytes of the base relocation
table. -/
def interpretFrom (image_base : BitVec 64) (table : List Byte) : RVA → List Instruction → List Byte
  | _, [] => []
  | _, .origin rva :: rest => interpretFrom image_base table rva rest
  | current_rva, .makeRelocs :: rest => table ++ interpretFrom image_base table current_rva rest
  | current_rva, .byte value :: rest =>
    value :: interpretFrom image_base table (current_rva + 1#32) rest
  | current_rva, .rel32 rva :: rest =>
    bytes32 (rva - (current_rva + 4#32)) ++ interpretFrom image_base table (current_rva + 4#32) rest
  | current_rva, .abs32 rva :: rest =>
    bytes32 (rva + image_base.setWidth 32) ++
      interpretFrom image_base table (current_rva + 4#32) rest

/-- A block of a base relocation table: its page, its size, and its relocations
up to a multiple of four bytes. -/
def relocBlockBytes (page : BitVec 32) (relocs : List RVA) : List Byte :=
  let items := relocs.map relocItem ++ if relocs.length % 2 = 1 then [0#16] else []
  bytes32 page ++ bytes32 (BitVec.ofNat 32 (8 + 2 * items.length)) ++ items.flatMap bytes16

/-- The relocations of a page. -/
def inPage (page : BitVec 32) (relocs : List RVA) : List RVA :=
  relocs.filter fun rva => pageRva rva = page

def otherPages (page : BitVec 32) (relocs : List RVA) : List RVA :=
  relocs.filter fun rva => pageRva rva ≠ page

/-- The relocations in blocks of one page each. -/
def relocationTable : List RVA -> List Byte
  | [] => []
  | rva :: rest =>
    relocBlockBytes (pageRva rva) (rva :: inPage (pageRva rva) rest) ++
      relocationTable (otherPages (pageRva rva) rest)
termination_by relocs => relocs.length
decreasing_by exact Nat.lt_succ_of_le (List.length_filter_le _ rest)

/-- The bytes of a program. -/
def interpret : List Byte :=
  interpretFrom prog.image_base (relocationTable (sortRelocs (relocations 0#32 prog.instructions)))
    0#32 prog.instructions

end AssemblyProgram

/-!
## Address tables

Labels that are defined with different indexes are found at their indexes in an
address table, whose other slots are filled with neighbours.
-/

section

open EncodedProgram AssemblyProgram

theorem length_finishLabelsFrom (prev : RVA) (rvas : List RVA) :
    (finishLabelsFrom prev rvas).length = rvas.length := by
  induction rvas generalizing prev with
  | nil => rfl
  | cons rva rest ih =>
    rw [finishLabelsFrom]
    split_ifs
    · rw [length_cons, length_cons, ih]
    · rw [length_cons, length_cons, ih]

variable {labels : List Label}

/-- A slot that was assigned keeps its address. -/
theorem getElem?_finishLabelsFrom {i : Nat} (assigned : rva ≠ kUnassignedRVA)
    (hit : rvas[i]? = some rva) (prev : RVA) :
    (finishLabelsFrom prev rvas)[i]? = some rva := by
  induction rvas generalizing prev i with
  | nil => cases hit
  | cons first rest ih =>
    rw [finishLabelsFrom]
    cases i with
    | zero =>
      cases some.inj hit
      rw [if_neg assigned]
      rfl
    | succ i =>
      split_ifs
      · exact ih hit _
      · exact ih hit _

/-- A label is defined unless its index is the largest number. -/
theorem defineLabelCommon_iff (small : rvas.length < 2 ^ 31) (pos : 0 <= index)
    (bound : index < 2 ^ 31) (rva : RVA) :
    (∃ defined, defineLabelCommon rvas index rva = some defined) ↔ index ≠ 2 ^ 31 - 1 := by
  unfold defineLabelCommon
  split_ifs with far fits
  · exact iff_of_true ⟨_, rfl⟩ (by omega)
  · exact iff_of_false (by simp) (by omega)
  · exact iff_of_true ⟨_, rfl⟩ (by omega)

theorem defineLabelCommon_spec (small : rvas.length < 2 ^ 31)
    (isDefined : defineLabelCommon rvas index rva = some defined) :
    defined.length < 2 ^ 31 ∧ defined[index.toNat]? = some rva ∧
      ∀ other val, other ≠ index.toNat -> rvas[other]? = some val ->
        defined[other]? = some val := by
  unfold defineLabelCommon at isDefined
  split_ifs at isDefined with far fits
  · cases isDefined
    have len : (rvas ++ replicate (index.toNat + 1 - rvas.length)
        kUnassignedRVA).length = index.toNat + 1 := by
      rw [length_append, length_replicate]
      omega
    refine ⟨?_, ?_, ?_⟩
    · rw [length_set, len]
      omega
    · rw [List.getElem?_set_self (by omega)]
    · intro other val ne hit
      rw [List.getElem?_set_ne (Ne.symm ne),
        List.getElem?_append_left (List.getElem?_eq_some_iff.mp hit).1]
      exact hit
  · cases isDefined
    refine ⟨?_, ?_, ?_⟩
    · rwa [length_set]
    · rw [List.getElem?_set_self (by omega)]
    · intro other val ne hit
      rw [List.getElem?_set_ne (Ne.symm ne)]
      exact hit

/-- The indexes of labels that can be defined together. -/
structure Indexed (labels : List Label) : Prop where
  positive : ∀ label ∈ labels, 0 <= label.index
  bounded : ∀ label ∈ labels, label.index < 2 ^ 31
  distinct : (labels.map Label.index).Nodup

/-- All labels are defined unless one has the largest index. -/
theorem defineLabels_iff (indexed : Indexed labels) (small : rvas.length < 2 ^ 31) :
    (∃ defined, defineLabels labels rvas = some defined) ↔
      ∀ label ∈ labels, label.index ≠ 2 ^ 31 - 1 := by
  induction labels generalizing rvas with
  | nil => exact iff_of_true ⟨rvas, rfl⟩ (by simp)
  | cons label rest ih =>
    have indexedRest : Indexed rest := {
      positive := (forall_mem_cons.mp indexed.positive).2
      bounded := (forall_mem_cons.mp indexed.bounded).2
      distinct := (nodup_cons.mp indexed.distinct).2
    }
    have first := defineLabelCommon_iff small (indexed.positive label mem_cons_self)
      (indexed.bounded label mem_cons_self) label.rva
    rw [forall_mem_cons, ← first, defineLabels, foldlM_cons]
    cases isDefined : defineLabelCommon rvas label.index label.rva with
    | none => exact iff_of_false (by simp) (by simp)
    | some defined =>
      have later := ih indexedRest (defineLabelCommon_spec small isDefined).1
      rw [bind_eq_bind, bind_some, ← defineLabels, later]
      exact (and_iff_right ⟨defined, rfl⟩).symm

theorem defineLabels_spec (nodup : (labels.map Label.index).Nodup)
    (pos : ∀ label ∈ labels, 0 <= label.index)
    (small : rvas.length < 2 ^ 31) (isDefined : defineLabels labels rvas = some defined) :
    defined.length < 2 ^ 31 ∧ (∀ label ∈ labels, defined[label.index.toNat]? = some label.rva) ∧
      ∀ other val, (∀ label ∈ labels, other ≠ label.index.toNat) ->
        rvas[other]? = some val -> defined[other]? = some val := by
  induction labels generalizing rvas with
  | nil =>
    cases isDefined
    exact ⟨small, by simp, fun _ _ _ hit => hit⟩
  | cons label rest ih =>
    rw [defineLabels, foldlM_cons] at isDefined
    cases isFirst : defineLabelCommon rvas label.index label.rva with
    | none =>
      rw [isFirst] at isDefined
      cases isDefined
    | some between =>
      rw [isFirst] at isDefined
      obtain ⟨smallBetween, foundFirst, kept⟩ := defineLabelCommon_spec small isFirst
      rw [map_cons, nodup_cons] at nodup
      obtain ⟨smallDefined, hit, keptRest⟩ := ih nodup.2 ((forall_mem_cons.mp pos).2)
        smallBetween isDefined
      refine ⟨smallDefined, ?_, ?_⟩
      · intro other mem
        rcases mem_cons.mp mem with rfl | later
        · apply keptRest _ _ _ foundFirst
          intro another isLater same
          have firstPositive := pos other mem_cons_self
          have laterPositive := pos another (mem_cons_of_mem _ isLater)
          apply nodup.1
          rw [show other.index = another.index by omega]
          exact List.mem_map_of_mem isLater
        · exact hit other later
      · intro other val ne isValue
        refine keptRest other val ((forall_mem_cons.mp ne).2) ?_
        exact kept other val (ne label mem_cons_self) isValue

/-- A finished table has an assigned address for each index. -/
theorem ne_unassigned_of_mem_finishLabelsFrom (assigned : previous ≠ kUnassignedRVA)
    (mem : rva ∈ finishLabelsFrom previous rvas) :
    rva ≠ kUnassignedRVA := by
  induction rvas generalizing previous with
  | nil => cases mem
  | cons first rest ih =>
    rw [finishLabelsFrom] at mem
    split_ifs at mem with isUnassigned
    · rcases mem_cons.mp mem with rfl | later
      · exact assigned
      · exact ih assigned later
    · rcases mem_cons.mp mem with rfl | later
      · exact isUnassigned
      · exact ih isUnassigned later

/-- What an address becomes in a finished table. -/
def assignedTo (other rva : RVA) : RVA := if rva = kUnassignedRVA then other else rva

/-- The address of each label is at its index, but for that of the unassigned
address. -/
theorem addressTable_spec (indexed : Indexed labels) (distinct : labels.Pairwise fun left right =>
      left.rva.toNat < right.rva.toNat) (isDefined : defineLabels labels [] = some defined) :
    (finishLabelsFrom 0#32 defined).length < 2 ^ 31 ∧
      ∃ other, other ≠ kUnassignedRVA ∧ ∀ label ∈ labels,
        (finishLabelsFrom 0#32 defined)[label.index.toNat]? =
          some (assignedTo other label.rva) := by
  have zeroAssigned : 0#32 ≠ kUnassignedRVA := by decide
  obtain ⟨small, hit, _⟩ := defineLabels_spec indexed.distinct
    indexed.positive (show ([] : List RVA).length < 2 ^ 31 by decide) isDefined
  refine ⟨by rwa [length_finishLabelsFrom], ?_⟩
  have assigned : ∀ label ∈ labels, label.rva ≠ kUnassignedRVA ->
      (finishLabelsFrom 0#32 defined)[label.index.toNat]? = some label.rva :=
    fun label mem isAssigned => getElem?_finishLabelsFrom isAssigned (hit label mem) 0#32
  have nodup : (labels.map Label.rva).Nodup := by
    apply pairwise_map.mpr
    apply distinct.imp
    intro left right less same
    rw [same] at less
    exact Nat.lt_irrefl _ less
  by_cases unassigned : ∃ label ∈ labels, label.rva = kUnassignedRVA
  · obtain ⟨last, lastMember, lastRva⟩ := unassigned
    have inside := (List.getElem?_eq_some_iff.mp (hit last lastMember)).1
    rw [← length_finishLabelsFrom 0#32 defined] at inside
    have atIndex := List.getElem?_eq_getElem inside
    refine ⟨_, ne_unassigned_of_mem_finishLabelsFrom zeroAssigned
      (getElem_mem inside), fun label mem => ?_⟩
    by_cases isUnassigned : label.rva = kUnassignedRVA
    · have same : label = last :=
        inj_on_of_nodup_map nodup mem lastMember (isUnassigned.trans lastRva.symm)
      rw [assignedTo, if_pos isUnassigned, same]
      exact atIndex
    · rw [assignedTo, if_neg isUnassigned]
      exact assigned label mem isUnassigned
  · refine ⟨0#32, zeroAssigned, fun label mem => ?_⟩
    have isAssigned : label.rva ≠ kUnassignedRVA := fun same => unassigned ⟨label, mem, same⟩
    rw [assignedTo, if_neg isAssigned]
    exact assigned label mem isAssigned

end

/-!
## Base relocation tables

Sorted relocations are written in blocks of one page each, which succeeds if no
page has more relocations than there is room for.
-/

section

open AssemblyProgram

theorem pageRva_eq_shift : pageRva rva = (rva >>> 12) <<< 12 := by
  apply BitVec.eq_of_getLsbD_eq
  intro i inside
  have mask : (~~~0xfff#32).getLsbD i = decide (12 <= i) := by
    rw [BitVec.getLsbD_not, BitVec.getLsbD_ofNat,
      show 0xfff = 2 ^ 12 - 1 from rfl, Nat.testBit_two_pow_sub_one]
    by_cases low : i < 12
    · simp [low, inside]
    · simp [inside, show 12 <= i by omega]
  rw [pageRva, BitVec.getLsbD_and, mask, BitVec.getLsbD_shiftLeft, BitVec.getLsbD_ushiftRight]
  by_cases low : i < 12
  · simp [low, show ¬12 <= i by omega]
  · simp [low, inside, show 12 <= i by omega, show 12 + (i - 12) = i by omega]

theorem toNat_pageRva (rva : RVA) : (pageRva rva).toNat = rva.toNat / 4096 * 4096 := by
  rw [pageRva_eq_shift, BitVec.toNat_shiftLeft, BitVec.toNat_ushiftRight,
    Nat.shiftRight_eq_div_pow, Nat.shiftLeft_eq]
  omega

theorem pageRva_mono (le : left.toNat <= right.toNat) :
    (pageRva left).toNat <= (pageRva right).toNat := by
  rw [toNat_pageRva, toNat_pageRva]
  exact Nat.mul_le_mul_right _ (Nat.div_le_div_right le)

theorem pageRva_ne_allOnes : pageRva rva ≠ BitVec.allOnes 32 := by
  intro same
  have val := toNat_pageRva rva
  rw [same, BitVec.toNat_allOnes] at val
  omega

/-- No page has more relocations than a block has room for. -/
def PagesFit (relocs : List RVA) : Prop := ∀ page, (inPage page relocs).length <= kMaxRelocs

theorem inPage_otherPages_self : inPage page (otherPages page relocs) = [] := by
  rw [inPage, otherPages, List.filter_filter, filter_eq_nil_iff]
  intro rva _
  simp

theorem inPage_otherPages (ne : other ≠ page) :
    inPage other (otherPages page relocs) = inPage other relocs := by
  rw [inPage, otherPages, List.filter_filter, inPage]
  apply filter_congr
  intro rva _
  by_cases same : pageRva rva = other
  · simp [same, ne]
  · simp [same]

theorem inPage_eq_nil (ne : ∀ rva ∈ relocs, pageRva rva ≠ page) :
    inPage page relocs = [] := by
  rw [inPage, filter_eq_nil_iff]
  intro rva mem
  simpa using ne rva mem

theorem otherPages_eq_self (ne : ∀ rva ∈ relocs, pageRva rva ≠ page) :
    otherPages page relocs = relocs := by
  rw [otherPages, filter_eq_self]
  intro rva mem
  simpa using ne rva mem

theorem pagesFit_cons_iff : PagesFit (rva :: rest) ↔
      (rva :: inPage (pageRva rva) rest).length <= kMaxRelocs ∧
        PagesFit (otherPages (pageRva rva) rest) := by
  have first : inPage (pageRva rva) (rva :: rest) = rva :: inPage (pageRva rva) rest :=
    filter_cons_of_pos (decide_eq_true rfl)
  have later : ∀ {page}, page ≠ pageRva rva ->
      inPage page (rva :: rest) = inPage page rest := fun ne =>
    filter_cons_of_neg (by simpa using Ne.symm ne)
  constructor
  · intro fit
    refine ⟨first ▸ fit (pageRva rva), fun page => ?_⟩
    by_cases same : page = pageRva rva
    · rw [same, inPage_otherPages_self]
      exact Nat.zero_le _
    · rw [inPage_otherPages same, ← later same]
      exact fit page
  · rintro ⟨firstFits, othersFit⟩ page
    by_cases same : page = pageRva rva
    · rw [same, first]
      exact firstFits
    · rw [later same, ← inPage_otherPages same]
      exact othersFit page

/-- A block with relocations that fit is written as a whole. -/
theorem flush_relocs (some_ : relocs ≠ []) (fits : relocs.length <= kMaxRelocs) :
    RelocBlock.flush ⟨page, relocs.map relocItem⟩ buf =
      some (⟨page, []⟩, buf ++ relocBlockBytes page relocs) := by
  have isSome : relocs.map relocItem ≠ [] := fun none_ => some_ (map_eq_nil_iff.mp none_)
  have even : kMaxRelocs % 2 = 0 := by decide
  unfold RelocBlock.flush
  rw [if_neg isSome]
  by_cases odd : relocs.length % 2 = 1
  · have padded : RelocBlock.add ⟨page, relocs.map relocItem⟩ 0#16 =
        some ⟨page, relocs.map relocItem ++ [0#16]⟩ := by
      rw [RelocBlock.add, if_pos]
      rw [length_map]
      omega
    rw [if_pos (by
      simp only [RelocBlock.block_size, length_map]
      omega), padded]
    simp only [bind_eq_bind, bind_some, relocBlockBytes, if_pos odd,
      RelocBlock.block_size, SinkStream.write]
    rfl
  · rw [if_neg (by
      simp only [RelocBlock.block_size, length_map]
      omega)]
    simp only [bind_eq_bind, bind_some, relocBlockBytes, if_neg odd,
      RelocBlock.block_size, SinkStream.write, append_nil]
    rfl

/-- What is generated from the rest of the relocations. -/
def generateRest (block : RelocBlock) (buffer : List Byte)
    (rest : List RVA) : Option (List Byte) := do
  let (block, buffer) ← generateLoop rest block buffer
  let (_, buffer) ← block.flush buffer
  return buffer

theorem generateRest_nil (some_ : relocs ≠ []) (fits : relocs.length <= kMaxRelocs) :
    generateRest ⟨page, relocs.map relocItem⟩ buffer [] =
      some (buffer ++ relocBlockBytes page relocs) := by
  rw [generateRest, generateLoop]
  simp only [bind_eq_bind, bind_some, flush_relocs some_ fits]
  rfl

/-- A relocation of the same page is added to the block. -/
theorem generateRest_same (relocs : List RVA) (buf : List Byte) (rva : RVA) :
    generateRest ⟨pageRva rva, relocs.map relocItem⟩ buf (rva :: rest) =
      if relocs.length < kMaxRelocs then
        generateRest ⟨pageRva rva, (relocs ++ [rva]).map relocItem⟩ buf rest
      else none := by
  rw [generateRest, generateLoop, if_neg (not_not_intro rfl)]
  simp only [bind_eq_bind, bind_some, RelocBlock.add, length_map, map_append, map_cons, map_nil]
  split_ifs
  · rfl
  · rfl

/-- Where another page begins, the block is written. -/
theorem generateRest_other (some_ : relocs ≠ []) (fits : relocs.length <= kMaxRelocs)
    (ne : pageRva rva ≠ page) :
    generateRest ⟨page, relocs.map relocItem⟩ buffer (rva :: rest) =
      generateRest ⟨pageRva rva, [rva].map relocItem⟩
        (buffer ++ relocBlockBytes page relocs) rest := by
  have room : ([] : List (BitVec 16)).length < kMaxRelocs := by decide
  rw [generateRest, generateLoop, if_pos ne]
  simp only [bind_eq_bind, bind_some, flush_relocs some_ fits,
    RelocBlock.add, if_pos room, Option.pure_def]
  rfl

theorem generateRest_iff (some_ : relocs ≠ []) (fits : relocs.length <= kMaxRelocs)
    (sorted : rest.Pairwise fun left right => left.toNat <= right.toNat)
    (behind : ∀ rva ∈ rest, page.toNat <= (pageRva rva).toNat) (buf out : List Byte) :
    generateRest ⟨page, relocs.map relocItem⟩ buf rest = some out ↔
      (relocs ++ inPage page rest).length <= kMaxRelocs ∧ PagesFit (otherPages page rest) ∧
        out = buf ++ relocBlockBytes page (relocs ++ inPage page rest) ++
          relocationTable (otherPages page rest) := by
  induction rest generalizing relocs page buf with
  | nil =>
    have noOthers : PagesFit [] := fun _ => Nat.zero_le _
    rw [generateRest_nil some_ fits, inPage, otherPages, filter_nil,
      filter_nil, append_nil, relocationTable, append_nil,
      and_iff_right fits, and_iff_right noOthers, some_inj, eq_comm]
  | cons rva rest ih =>
    obtain ⟨before, sortedRest⟩ := pairwise_cons.mp sorted
    have behindRest : ∀ other ∈ rest,
        (pageRva rva).toNat <= (pageRva other).toNat := fun other mem =>
      pageRva_mono (before other mem)
    by_cases same : pageRva rva = page
    · subst same
      have first : inPage (pageRva rva) (rva :: rest) = rva :: inPage (pageRva rva) rest :=
        filter_cons_of_pos (decide_eq_true rfl)
      have others : otherPages (pageRva rva) (rva :: rest) = otherPages (pageRva rva) rest :=
        filter_cons_of_neg (by simp)
      rw [generateRest_same, first, others, append_cons relocs rva (inPage (pageRva rva) rest)]
      split_ifs with room
      · have fitsMore : (relocs ++ [rva]).length <= kMaxRelocs := by
          rw [length_append, length_singleton]
          exact room
        exact ih (by simp) fitsMore sortedRest behindRest buf
      · refine iff_of_false (by simp) fun inv => room ?_
        have bound := inv.1
        simp only [length_append, length_singleton] at bound
        omega
    · have further : ∀ other ∈ rva :: rest, pageRva other ≠ page := by
        intro other mem isPage
        have firstBehind := behind rva mem_cons_self
        rcases mem_cons.mp mem with rfl | later
        · exact same isPage
        · have between := behindRest other later
          rw [isPage] at between
          exact same (BitVec.eq_of_toNat_eq (Nat.le_antisymm between firstBehind))
      have one : [rva].length <= kMaxRelocs := by
        show 1 <= kMaxRelocs
        decide
      rw [generateRest_other some_ fits same, inPage_eq_nil further,
        otherPages_eq_self further, append_nil, and_iff_right fits,
        ih (cons_ne_nil _ _) one sortedRest behindRest,
        pagesFit_cons_iff, and_assoc, relocationTable, append_assoc,
        append_assoc, append_assoc]
      rfl

theorem sortRelocs_pairwise (relocs : List RVA) :
    (sortRelocs relocs).Pairwise fun left right => left.toNat <= right.toNat := by
  have ordered := @List.pairwise_mergeSort RVA (fun left right => left.toNat <= right.toNat)
    (fun left middle right before behind => by
      rw [decide_eq_true_iff] at before behind ⊢
      exact Nat.le_trans before behind)
    (fun left right => by
      rw [Bool.or_eq_true, decide_eq_true_iff, decide_eq_true_iff]
      exact Nat.le_total _ _) relocs
  exact ordered.imp fun inv => of_decide_eq_true inv

theorem pagesFit_sortRelocs (relocs : List RVA) :
    PagesFit (sortRelocs relocs) ↔ PagesFit relocs := by
  have samePage : ∀ page, (inPage page (sortRelocs relocs)).length =
      (inPage page relocs).length := fun page =>
    ((mergeSort_perm relocs _).filter _).length_eq
  exact forall_congr' fun page => by rw [samePage]

/-- The table is generated if no page has too many relocations. -/
theorem generateBaseRelocations_iff (relocs : List RVA) (buf out : List Byte) :
    generateBaseRelocations relocs buf = some out ↔
      PagesFit relocs ∧ out = buf ++ relocationTable (sortRelocs relocs) := by
  rw [← pagesFit_sortRelocs]
  have sorted := sortRelocs_pairwise relocs
  unfold generateBaseRelocations
  generalize sortRelocs relocs = all at sorted
  cases all with
  | nil =>
    have noRelocs : PagesFit [] := fun _ => Nat.zero_le _
    rw [and_iff_right noRelocs, relocationTable, append_nil]
    exact some_inj.trans eq_comm
  | cons rva rest =>
    obtain ⟨before, sortedRest⟩ := pairwise_cons.mp sorted
    have one : [rva].length <= kMaxRelocs := by
      show 1 <= kMaxRelocs
      decide
    have room : ([] : List (BitVec 16)).length < kMaxRelocs := by decide
    have begins : generateRest {} buf (rva :: rest) =
        generateRest ⟨pageRva rva, [rva].map relocItem⟩ buf rest := by
      rw [generateRest, generateLoop, if_pos pageRva_ne_allOnes]
      rfl
    have gen := generateRest_iff (cons_ne_nil rva []) one
      sortedRest (fun other mem => pageRva_mono (before other mem))
      buf out
    rw [← begins] at gen
    rw [pagesFit_cons_iff, and_assoc, relocationTable, ← append_assoc]
    exact gen

end

end Chromium.Courgette
