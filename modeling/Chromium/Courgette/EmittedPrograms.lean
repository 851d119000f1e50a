import Chromium.Courgette.Disassembler
import Chromium.Courgette.EncodeAndAssemble

/-!
# Lengths and targets of interpretations

How many bytes instructions yield, and when other targets yield the same bytes.
-/

namespace Chromium.Courgette

open List Nat

namespace AssemblyProgram

open EncodedProgram Assembler

/-- The number of bytes of an instruction, without the base relocation
table. -/
def emittedLength : Instruction -> Nat
  | .origin _ => 0
  | .makeRelocs => 0
  | .byte _ => 1
  | .rel32 _ => 4
  | .abs32 _ => 4

theorem length_bytes32 (val : BitVec 32) : (bytes32 val).length = 4 := rfl

theorem length_interpretFrom (image_base : BitVec 64) (current_rva : RVA)
    (instructions : List Instruction) :
    (interpretFrom image_base table current_rva instructions).length =
      (instructions.map emittedLength).sum + instructions.count .makeRelocs * table.length := by
  induction instructions generalizing current_rva with
  | nil => simp [interpretFrom]
  | cons inst rest ih =>
    cases inst with
    | origin rva => simp [interpretFrom, ih, emittedLength]
    | byte value =>
      simp [interpretFrom, ih, emittedLength]
      omega
    | rel32 rva =>
      simp [interpretFrom, ih, emittedLength, length_bytes32]
      omega
    | abs32 rva =>
      simp [interpretFrom, ih, emittedLength, length_bytes32]
      omega
    | makeRelocs =>
      simp [interpretFrom, ih, emittedLength, Nat.succ_mul]
      omega

theorem map_emittedLength_retarget (rel32_target abs32_target : RVA -> RVA)
    (instructions : List Instruction) :
    (instructions.map (retarget rel32_target abs32_target)).map emittedLength =
      instructions.map emittedLength := by
  rw [List.map_map]
  apply map_congr_left
  intro inst _
  cases inst with
  | origin rva => rfl
  | byte value => rfl
  | rel32 rva => rfl
  | abs32 rva => rfl
  | makeRelocs => rfl

/-- A table that is not generated, or empty, does not matter. -/
theorem interpretFrom_no_table {instructions : List Instruction}
    (none_ : .makeRelocs ∈ instructions → table = []) (image_base : BitVec 64) (current_rva : RVA) :
    interpretFrom image_base table current_rva instructions =
      interpretFrom image_base [] current_rva instructions := by
  by_cases makes : .makeRelocs ∈ instructions
  · rw [none_ makes]
  · clear none_
    induction instructions generalizing current_rva with
    | nil => rfl
    | cons inst rest ih =>
      rw [mem_cons, not_or] at makes
      have later := fun rva => ih rva makes.2
      cases inst with
      | origin rva => exact later rva
      | byte value => exact congrArg _ (later _)
      | rel32 rva => exact congrArg _ (later _)
      | abs32 rva => exact congrArg _ (later _)
      | makeRelocs => exact absurd rfl makes.1

/-- The address behind some instructions. -/
def endRVA : RVA -> List Instruction -> RVA
  | current_rva, [] => current_rva
  | _, .origin rva :: rest => endRVA rva rest
  | current_rva, .makeRelocs :: rest => endRVA current_rva rest
  | current_rva, .byte _ :: rest => endRVA (current_rva + 1#32) rest
  | current_rva, .rel32 _ :: rest => endRVA (current_rva + 4#32) rest
  | current_rva, .abs32 _ :: rest => endRVA (current_rva + 4#32) rest

theorem interpretFrom_append (image_base : BitVec 64) (current_rva : RVA)
    (front back : List Instruction) :
    interpretFrom image_base table current_rva (front ++ back) =
      interpretFrom image_base table current_rva front ++
        interpretFrom image_base table (endRVA current_rva front) back := by
  induction front generalizing current_rva with
  | nil => rfl
  | cons inst rest ih =>
    rw [cons_append]
    cases inst with
    | origin rva => exact ih rva
    | byte value => rw [interpretFrom, interpretFrom, ih, endRVA, cons_append]
    | rel32 rva => rw [interpretFrom, interpretFrom, ih, endRVA, append_assoc]
    | abs32 rva => rw [interpretFrom, interpretFrom, ih, endRVA, append_assoc]
    | makeRelocs => rw [interpretFrom, interpretFrom, ih, endRVA, append_assoc]

theorem interpretFrom_bytes (image_base : BitVec 64) (current_rva : RVA) (bytes : List Byte) :
    interpretFrom image_base table current_rva (bytes.map .byte) = bytes := by
  induction bytes generalizing current_rva with
  | nil => rfl
  | cons val rest ih => exact congrArg (val :: ·) (ih _)

theorem bytes32_injective : Function.Injective bytes32 := by
  intro left right same
  simp only [bytes32, List.cons.injEq, and_true] at same
  obtain ⟨first, second, third, fourth⟩ := same
  apply BitVec.eq_of_getLsbD_eq
  intro i inside
  have at8 : ∀ (shift : Nat) {left right : BitVec 32},
      (left >>> shift).setWidth 8 = (right >>> shift).setWidth 8 ->
        shift <= i -> i < shift + 8 -> left.getLsbD i = right.getLsbD i := by
    intro shift left right equal low high
    have bit := congrArg (BitVec.getLsbD · (i - shift)) equal
    simpa [BitVec.getLsbD_setWidth, BitVec.getLsbD_ushiftRight,
      Nat.add_sub_cancel' low, show i - shift < 8 by omega] using bit
  rcases Nat.lt_or_ge i 8 with low | low
  · exact at8 0 (by simpa using first) (Nat.zero_le _) low
  rcases Nat.lt_or_ge i 16 with low | low
  · exact at8 8 second (by omega) low
  rcases Nat.lt_or_ge i 24 with low | low
  · exact at8 16 third (by omega) low
  · exact at8 24 fourth (by omega) (by omega)

/-- An instruction that does not refer to the unassigned address. -/
def Assigned : Instruction -> Prop
  | .rel32 rva => rva ≠ kUnassignedRVA
  | .abs32 rva => rva ≠ kUnassignedRVA
  | _ => True

theorem assignedTo_eq_iff (different : other ≠ kUnassignedRVA) :
    assignedTo other rva = rva ↔ rva ≠ kUnassignedRVA := by
  unfold assignedTo
  split_ifs with unassigned
  · rw [unassigned]
    exact iff_of_false different (fun ne => ne rfl)
  · exact iff_of_true rfl unassigned

/-- Other targets of the unassigned address yield other bytes. -/
theorem interpretFrom_assignedTo_iff (rel32_ne : rel32_other ≠ kUnassignedRVA)
    (abs32_ne : abs32_other ≠ kUnassignedRVA) (image_base : BitVec 64) (current_rva : RVA)
    (instructions : List Instruction) :
    interpretFrom image_base table current_rva (instructions.map
          (retarget (assignedTo rel32_other) (assignedTo abs32_other))) =
      interpretFrom image_base table current_rva instructions ↔
        ∀ inst ∈ instructions, Assigned inst := by
  induction instructions generalizing current_rva with
  | nil => exact iff_of_true rfl (fun _ mem => by cases mem)
  | cons inst rest ih =>
    rw [map_cons, forall_mem_cons]
    cases inst with
    | origin rva =>
      rw [retarget, interpretFrom, interpretFrom, ih]
      exact (and_iff_right trivial).symm
    | byte value =>
      rw [retarget, interpretFrom, interpretFrom, cons_inj_right, ih]
      exact (and_iff_right trivial).symm
    | makeRelocs =>
      rw [retarget, interpretFrom, interpretFrom, append_cancel_left_eq, ih]
      exact (and_iff_right trivial).symm
    | rel32 rva =>
      rw [retarget, interpretFrom, interpretFrom, ← ih (current_rva + 4#32), Assigned,
        ← assignedTo_eq_iff rel32_ne]
      constructor
      · intro same
        obtain ⟨first, later⟩ := append_inj same rfl
        exact ⟨(BitVec.sub_left_inj _).mp (bytes32_injective first), later⟩
      · rintro ⟨first, later⟩
        rw [first, later]
    | abs32 rva =>
      rw [retarget, interpretFrom, interpretFrom, ← ih (current_rva + 4#32), Assigned,
        ← assignedTo_eq_iff abs32_ne]
      constructor
      · intro same
        obtain ⟨first, later⟩ := append_inj same rfl
        exact ⟨(BitVec.add_left_inj _).mp (bytes32_injective first), later⟩
      · rintro ⟨first, later⟩
        rw [first, later]

end AssemblyProgram

/-!
## Emitted programs

Programs whose instructions have been emitted can be encoded, once the default
indexes are assigned.
-/

namespace RVAToLabel

/-- An address has a label. -/
def HasLabel (table : RVAToLabel) (rva : RVA) : Prop := ∃ label ∈ table.labels, label.rva = rva

variable {table : RVAToLabel}

theorem find_isSome (hasLabel : HasLabel table rva) : (table.find rva).isSome := by
  obtain ⟨label, mem, same⟩ := hasLabel
  rw [find, find?_isSome]
  exact ⟨label, mem, by simpa using same⟩

theorem length_insertLabel_le (labels : List Label) :
    (insertLabel rva labels).length <= labels.length + 1 := by
  induction labels with
  | nil => exact Nat.le_refl 1
  | cons first rest ih =>
    rw [insertLabel]
    split_ifs with before same
    · exact Nat.le_refl _
    · exact le_succ _
    · exact succ_le_succ ih

theorem mem_insertLabel_of_mem {labels : List Label} (mem : label ∈ labels) :
    label ∈ insertLabel rva labels := by
  induction labels with
  | nil => cases mem
  | cons first rest ih =>
    rw [insertLabel]
    split_ifs with before same
    · exact mem_cons_of_mem _ mem
    · exact mem
    · rcases mem_cons.mp mem with rfl | later
      · exact mem_cons_self
      · exact mem_cons_of_mem _ (ih later)

theorem exists_mem_insertLabel {labels : List Label} :
    ∃ label ∈ insertLabel rva labels, label.rva = rva := by
  induction labels with
  | nil => exact ⟨_, mem_cons_self, rfl⟩
  | cons first rest ih =>
    rw [insertLabel]
    split_ifs with before same
    · exact ⟨_, mem_cons_self, rfl⟩
    · exact ⟨first, mem_cons_self, same.symm⟩
    · obtain ⟨label, mem, isRva⟩ := ih
      exact ⟨label, mem_cons_of_mem _ mem, isRva⟩

theorem hasLabel_findOrMake {table : RVAToLabel} : HasLabel (table.findOrMake rva) rva :=
  exists_mem_insertLabel

theorem HasLabel.findOrMake (hasLabel : HasLabel table rva) (other : RVA) :
    HasLabel (table.findOrMake other) rva := by
  obtain ⟨label, mem, same⟩ := hasLabel
  exact ⟨label, mem_insertLabel_of_mem mem, same⟩

theorem HasLabel.defaultAssignIndexes (hasLabel : HasLabel table rva) :
    HasLabel table.defaultAssignIndexes rva := by
  obtain ⟨label, mem, same⟩ := hasLabel
  obtain ⟨index, inside, rfl⟩ := mem_iff_getElem.mp mem
  refine ⟨{ table.labels[index] with index := (index : Int) }, ?_, same⟩
  exact mem_mapIdx.mpr ⟨index, inside, rfl⟩

theorem index_defaultAssignIndexes (mem : label ∈ table.defaultAssignIndexes.labels) :
    0 <= label.index ∧ label.index < table.labels.length := by
  obtain ⟨i, inside, rfl⟩ := mem_mapIdx.mp mem
  exact ⟨Int.natCast_nonneg i, Int.ofNat_lt.mpr inside⟩

theorem indexed_defaultAssignIndexes (few : table.labels.length <= 2 ^ 31) :
    Indexed table.defaultAssignIndexes.labels where
  positive := fun _ mem => (index_defaultAssignIndexes mem).1
  bounded := fun _ mem => by
    have inside := (index_defaultAssignIndexes mem).2
    omega
  distinct := by
    rw [Nodup, pairwise_map, pairwise_iff_getElem]
    intro left right insideLeft insideRight less
    simp only [defaultAssignIndexes, getElem_mapIdx]
    omega

end RVAToLabel

namespace AssemblyProgram

open EncodedProgram Segment RVAToLabel

def isAbs32Reference : Instruction -> Bool
  | .abs32 _ => true
  | _ => false

def isRel32Reference : Instruction -> Bool
  | .rel32 _ => true
  | _ => false

section

variable (prog : AssemblyProgram)

section

variable (emitted : List Instruction)

theorem foldl_emit_instructions :
    (emitted.foldl emit prog).instructions = prog.instructions ++ emitted := by
  induction emitted generalizing prog with
  | nil => exact (append_nil _).symm
  | cons inst rest ih =>
    have emits : (prog.emit inst).instructions = prog.instructions ++ [inst] := rfl
    rw [foldl_cons, ih, emits, append_assoc, singleton_append]

theorem foldl_emit_image_base : (emitted.foldl emit prog).image_base = prog.image_base := by
  induction emitted generalizing prog with
  | nil => rfl
  | cons inst rest ih =>
    rw [foldl_cons, ih]
    rfl

/-- There are no more labels than references. -/
theorem length_labels_foldl_emit : (emitted.foldl emit prog).abs32_labels.labels.length <=
        prog.abs32_labels.labels.length + emitted.countP isAbs32Reference ∧
      (emitted.foldl emit prog).rel32_labels.labels.length <=
        prog.rel32_labels.labels.length + emitted.countP isRel32Reference := by
  induction emitted generalizing prog with
  | nil => exact ⟨Nat.le_refl _, Nat.le_refl _⟩
  | cons inst rest ih =>
    have later := ih (prog.emit inst)
    rw [foldl_cons, countP_cons, countP_cons]
    cases inst with
    | abs32 rva =>
      have added : (prog.emit (.abs32 rva)).abs32_labels.labels.length <=
          prog.abs32_labels.labels.length + 1 :=
        length_insertLabel_le _
      have same : (prog.emit (.abs32 rva)).rel32_labels = prog.rel32_labels := rfl
      rw [same] at later
      simp only [isAbs32Reference, isRel32Reference, if_true]
      exact ⟨by omega, by simpa using later.2⟩
    | rel32 rva =>
      have added : (prog.emit (.rel32 rva)).rel32_labels.labels.length <=
          prog.rel32_labels.labels.length + 1 :=
        length_insertLabel_le _
      have same : (prog.emit (.rel32 rva)).abs32_labels = prog.abs32_labels := rfl
      rw [same] at later
      simp only [isAbs32Reference, isRel32Reference, if_true]
      exact ⟨by simpa using later.1, by omega⟩
    | origin rva => exact later
    | byte value => exact later
    | makeRelocs => exact later

end

/-- An instruction whose label, if any, is in the tables of a program. -/
def HasLabelFor : Instruction -> Prop
  | .rel32 rva => HasLabel prog.rel32_labels rva
  | .abs32 rva => HasLabel prog.abs32_labels rva
  | _ => True

theorem hasLabelFor_emit : HasLabelFor (prog.emit inst) inst := by
  cases inst with
  | rel32 rva => exact hasLabel_findOrMake
  | abs32 rva => exact hasLabel_findOrMake
  | origin rva => trivial
  | byte value => trivial
  | makeRelocs => trivial

end

variable {emitted : List Instruction}

theorem HasLabelFor.emit (hasLabel : HasLabelFor prog inst) (other : Instruction) :
    HasLabelFor (prog.emit other) inst := by
  cases inst with
  | origin rva => trivial
  | byte value => trivial
  | makeRelocs => trivial
  | rel32 rva =>
    cases other with
    | rel32 otherRva => exact HasLabel.findOrMake hasLabel otherRva
    | abs32 otherRva => exact hasLabel
    | origin otherRva => exact hasLabel
    | byte value => exact hasLabel
    | makeRelocs => exact hasLabel
  | abs32 rva =>
    cases other with
    | abs32 otherRva => exact HasLabel.findOrMake hasLabel otherRva
    | rel32 otherRva => exact hasLabel
    | origin otherRva => exact hasLabel
    | byte value => exact hasLabel
    | makeRelocs => exact hasLabel

theorem HasLabelFor.foldl_emit (hasLabel : HasLabelFor prog inst) (emitted : List Instruction) :
    HasLabelFor (emitted.foldl AssemblyProgram.emit prog) inst := by
  induction emitted generalizing prog with
  | nil => exact hasLabel
  | cons other rest ih => exact ih (hasLabel.emit other)

theorem hasLabelFor_foldl_emit (mem : inst ∈ emitted) (prog : AssemblyProgram) :
    HasLabelFor (emitted.foldl emit prog) inst := by
  obtain ⟨before, behind, rfl⟩ := append_of_mem mem
  rw [foldl_append, foldl_cons]
  exact (hasLabelFor_emit _).foldl_emit behind

section

variable (image_base : BitVec 32)

/-- A program without instructions. -/
def start : AssemblyProgram where
  image_base := image_base.setWidth 64
  instructions := []
  rel32_labels := .empty
  abs32_labels := .empty

/-- The program of some instructions. -/
def emitAll (emitted : List Instruction) : AssemblyProgram :=
  (emitted.foldl emit (start image_base)).defaultAssignIndexes

theorem emitAll_instructions : (emitAll image_base emitted).instructions = emitted := by
  show (emitted.foldl emit (start image_base)).instructions = emitted
  rw [foldl_emit_instructions]
  rfl

theorem emitAll_image_base : (emitAll image_base emitted).image_base = image_base.setWidth 64 := by
  show (emitted.foldl emit (start image_base)).image_base = _
  rw [foldl_emit_image_base]
  rfl

end

theorem encodable_emitAll (fewAbs32 : emitted.countP isAbs32Reference < 2 ^ 31)
    (fewRel32 : emitted.countP isRel32Reference < 2 ^ 31) (image_base : BitVec 32) :
    Encodable (emitAll image_base emitted) := by
  have lengths := length_labels_foldl_emit (start image_base) emitted
  constructor
  · apply indexed_defaultAssignIndexes
    exact Nat.le_trans lengths.2 (by rw [start, RVAToLabel.empty, length_nil]; omega)
  · apply indexed_defaultAssignIndexes
    exact Nat.le_trans lengths.1 (by rw [start, RVAToLabel.empty, length_nil]; omega)
  · intro inst mem
    rw [emitAll_instructions] at mem
    have hasLabel := hasLabelFor_foldl_emit mem (start image_base)
    cases inst with
    | rel32 rva => exact find_isSome (HasLabel.defaultAssignIndexes hasLabel)
    | abs32 rva => exact find_isSome (HasLabel.defaultAssignIndexes hasLabel)
    | origin rva => trivial
    | byte value => trivial
    | makeRelocs => trivial
  · rw [emitAll_image_base, BitVec.toNat_setWidth_of_le (by decide)]
    exact image_base.isLt

theorem index_ne_emitAll (fewAbs32 : emitted.countP isAbs32Reference < 2 ^ 31)
    (fewRel32 : emitted.countP isRel32Reference < 2 ^ 31) (image_base : BitVec 32) :
    (∀ label ∈ (emitAll image_base emitted).rel32_labels.labels, label.index ≠ 2 ^ 31 - 1) ∧
    ∀ label ∈ (emitAll image_base emitted).abs32_labels.labels, label.index ≠ 2 ^ 31 - 1 := by
  have lengths := length_labels_foldl_emit (start image_base) emitted
  rw [start, RVAToLabel.empty, length_nil, Nat.zero_add, Nat.zero_add] at lengths
  constructor
  · intro label mem
    have inside := (index_defaultAssignIndexes mem).2
    rw [start, RVAToLabel.empty] at inside
    omega
  · intro label mem
    have inside := (index_defaultAssignIndexes mem).2
    rw [start, RVAToLabel.empty] at inside
    omega

/-- Every other of folded segments is a single instruction. -/
theorem length_le_of_folded (folded : Folded segs) :
    segs.length <= 2 * segs.countP (!·.isBytes) + 1 ∧
      ∀ first ∈ segs.head?, first.isBytes = false ->
        segs.length <= 2 * segs.countP (!·.isBytes) := by
  induction segs with
  | nil => exact ⟨Nat.zero_le _, fun _ mem => by cases mem⟩
  | cons seg rest ih =>
    obtain ⟨alone, foldedRest⟩ := isChain_cons.mp folded
    obtain ⟨oneMore, noMore⟩ := ih foldedRest
    rw [length_cons]
    cases isBytes : seg.isBytes with
    | false =>
      rw [countP_cons_of_pos (by simp [isBytes])]
      exact ⟨by omega, fun _ _ _ => by omega⟩
    | true =>
      rw [countP_cons_of_neg (by simp [isBytes])]
      constructor
      · cases rest with
        | nil => exact Nat.le_add_left 1 _
        | cons second later =>
          have single : second.isBytes = false :=
            Bool.eq_false_iff.mpr fun isSecond => alone second rfl ⟨isBytes, isSecond⟩
          exact succ_le_succ (noMore second rfl single)
      · rintro _ ⟨⟩ notBytes
        rw [isBytes] at notBytes
        cases notBytes

theorem countP_instructions (segs : List Segment) :
    (segs.flatMap Segment.instructions).countP (!isByte ·) = segs.countP (!·.isBytes) := by
  induction segs with
  | nil => rfl
  | cons seg rest ih =>
    rw [flatMap_cons, countP_append, ih, countP_cons, Nat.add_comm]
    congr 1
    cases seg with
    | bytes first later =>
      apply countP_eq_zero.mpr
      intro inst mem
      rw [isByte_of_mem mem]
      exact Bool.noConfusion
    | origin rva => rfl
    | rel32 rva index => rfl
    | abs32 rva index => rfl
    | makeRelocs => rfl

theorem length_operations_le (encodable : Encodable prog) :
    (Segment.operations prog.instructions).length <=
      2 * prog.instructions.countP (!isByte ·) + 1 := by
  obtain ⟨segs, _, ofProgram⟩ := exists_segments encodable
  rw [ofProgram.operations, length_map, ← ofProgram.same, countP_instructions]
  exact (length_le_of_folded ofProgram.folded).1

section

variable (instructions : List Instruction)

theorem length_copiedBytes_le :
    (copiedBytes instructions).length <= (instructions.map emittedLength).sum := by
  induction instructions with
  | nil => exact Nat.le_refl 0
  | cons inst rest ih =>
    rw [map_cons, sum_cons]
    cases inst with
    | byte value =>
      show (copiedBytes rest).length + 1 <= 1 + _
      omega
    | origin rva => exact le_add_left_of_le ih
    | rel32 rva => exact le_add_left_of_le ih
    | abs32 rva => exact le_add_left_of_le ih
    | makeRelocs => exact le_add_left_of_le ih

theorem countP_references_le :
    4 * (instructions.countP isAbs32Reference + instructions.countP isRel32Reference) <=
      (instructions.map emittedLength).sum := by
  induction instructions with
  | nil => exact Nat.le_refl 0
  | cons inst rest ih =>
    rw [map_cons, sum_cons, countP_cons, countP_cons]
    cases inst with
    | byte value => exact le_add_left_of_le ih
    | origin rva => exact le_add_left_of_le ih
    | makeRelocs => exact le_add_left_of_le ih
    | rel32 rva =>
      simp only [isAbs32Reference, isRel32Reference, emittedLength]
      simp only [Bool.false_eq_true, if_false, if_true]
      omega
    | abs32 rva =>
      simp only [isAbs32Reference, isRel32Reference, emittedLength]
      simp only [Bool.false_eq_true, if_false, if_true]
      omega

def isOrigin : Instruction -> Bool
  | .origin _ => true
  | _ => false

theorem countP_not_isByte : instructions.countP (!isByte ·) =
      instructions.countP isOrigin + instructions.count .makeRelocs +
        instructions.countP isAbs32Reference + instructions.countP isRel32Reference := by
  induction instructions with
  | nil => rfl
  | cons inst rest ih =>
    rw [countP_cons, countP_cons, count_cons, countP_cons, countP_cons, ih]
    cases inst with
    | byte value => simp [isByte, isOrigin, isAbs32Reference,
        isRel32Reference]
    | origin rva =>
      simp [isByte, isOrigin, isAbs32Reference, isRel32Reference]
      omega
    | makeRelocs =>
      simp [isByte, isOrigin, isAbs32Reference, isRel32Reference]
      omega
    | rel32 rva =>
      simp [isByte, isOrigin, isAbs32Reference, isRel32Reference]
      omega
    | abs32 rva =>
      simp [isByte, isOrigin, isAbs32Reference, isRel32Reference]
      omega

end

theorem relocations_eq_nil_iff (current_rva : RVA) (instructions : List Instruction) :
    relocations current_rva instructions = [] ↔
      ∀ inst ∈ instructions, isAbs32Reference inst = false := by
  induction instructions generalizing current_rva with
  | nil => exact iff_of_true rfl (fun _ mem => by cases mem)
  | cons inst rest ih =>
    rw [forall_mem_cons]
    cases inst with
    | byte value => exact (ih _).trans (and_iff_right rfl).symm
    | origin rva => exact (ih _).trans (and_iff_right rfl).symm
    | makeRelocs => exact (ih _).trans (and_iff_right rfl).symm
    | rel32 rva => exact (ih _).trans (and_iff_right rfl).symm
    | abs32 rva => exact iff_of_false (cons_ne_nil _ _) (fun both => Bool.noConfusion both.1)

theorem relocationTable_sortRelocs_eq_nil_iff :
    relocationTable (sortRelocs relocs) = [] ↔ relocs = [] := by
  have perm : (sortRelocs relocs).Perm relocs := mergeSort_perm _ _
  constructor
  · intro empty
    cases isSorted : sortRelocs relocs with
    | nil =>
      rw [isSorted] at perm
      exact perm.nil_eq.symm
    | cons first rest =>
      rw [isSorted, relocationTable] at empty
      have length := congrArg length empty
      rw [relocBlockBytes] at length
      simp [length_bytes32] at length
  · rintro rfl
    rw [sortRelocs, mergeSort_nil, relocationTable]

end AssemblyProgram

end Chromium.Courgette
