import Chromium.Courgette.Segments

/-!
# Runs of the assembler

Assembling the tables of segments has the effect of their instructions, one by
one.
-/

namespace Chromium.Courgette

open List

namespace Assembler

/-- The effect of an instruction on what has been assembled. -/
def play (image_base : BitVec 64) (asm : Assembler) : Instruction -> Assembler
  | .origin rva => { asm with current_rva := rva }
  | .byte value => { asm with current_rva := asm.current_rva + 1#32 }.write [value]
  | .rel32 rva =>
    { asm with current_rva := asm.current_rva + 4#32 }.write
      (bytes32 (rva - (asm.current_rva + 4#32)))
  | .abs32 rva =>
    { asm with
      abs32_relocs := asm.abs32_relocs ++ [asm.current_rva]
      current_rva := asm.current_rva + 4#32 }.write
      (bytes32 (rva + image_base.setWidth 32))
  | .makeRelocs => { asm with pending_base_relocation_table := true }

/-- What is left of the tables is those of segments. -/
def holding (asm : Assembler) (segs : List Segment) : Assembler :=
  { asm with
    origins := segs.flatMap Segment.origins
    copy_counts := segs.flatMap Segment.copy_counts
    copy_bytes := segs.flatMap Segment.copy_bytes
    abs32_ix := segs.flatMap Segment.abs32_ix
    rel32_ix := segs.flatMap Segment.rel32_ix }

/-- Nothing has been assembled. -/
def initial : Assembler := ⟨[], [], [], [], [], 0#32, false, [], [], []⟩

section

variable (asm : Assembler)
include asm

theorem write_holding (segs : List Segment) (bytes : List Byte) :
    (asm.holding segs).write bytes = (asm.write bytes).holding segs := by
  unfold write holding
  split_ifs with pending
  · rfl
  · rfl

variable (bytes : List Byte)

theorem write_current_rva : (asm.write bytes).current_rva = asm.current_rva := by
  unfold write
  split_ifs with pending
  · rfl
  · rfl

theorem write_pending : (asm.write bytes).pending_base_relocation_table =
      asm.pending_base_relocation_table := by
  unfold write
  split_ifs with pending
  · rfl
  · rfl

theorem write_abs32_relocs : (asm.write bytes).abs32_relocs = asm.abs32_relocs := by
  unfold write
  split_ifs with pending
  · rfl
  · rfl

end

/-- Bytes that are written one by one. -/
theorem foldl_play_bytes (asm : Assembler) (bytes : List Byte) :
    (bytes.map Instruction.byte).foldl (play image_base) asm = { asm with
        current_rva := asm.current_rva + BitVec.ofNat 32 bytes.length }.write
        bytes := by
  induction bytes generalizing asm with
  | nil =>
    unfold write
    simp
  | cons value rest ih =>
    have sum : asm.current_rva + 1#32 + BitVec.ofNat 32 rest.length =
        asm.current_rva + BitVec.ofNat 32 (rest.length + 1) := by
      rw [BitVec.add_assoc, BitVec.add_comm 1#32, Segment.ofNat_add_one]
    rw [map_cons, foldl_cons, ih, play, write_current_rva, length_cons, ← sum]
    unfold write
    by_cases pending : asm.pending_base_relocation_table = true
    · simp [pending]
    · simp [pending]

/-- An instruction that refers to the addresses in address tables. -/
def retarget (rel32_target abs32_target : RVA -> RVA) : Instruction -> Instruction
  | .origin rva => .origin rva
  | .makeRelocs => .makeRelocs
  | .byte value => .byte value
  | .rel32 rva => .rel32 (rel32_target rva)
  | .abs32 rva => .abs32 (abs32_target rva)

/-- The targets of the labels of a program are in the address tables. -/
structure Addressed (prog : AssemblyProgram) (encoded : EncodedProgram)
    (rel32_target abs32_target : RVA -> RVA) : Prop where
  rel32 : ∀ label ∈ prog.rel32_labels.labels,
    encoded.rel32_rva[(BitVec.ofInt 32 label.index).toNat]? = some (rel32_target label.rva)
  abs32 : ∀ label ∈ prog.abs32_labels.labels,
    encoded.abs32_rva[(BitVec.ofInt 32 label.index).toNat]? = some (abs32_target label.rva)

theorem copy_holding (asm : Assembler) (short : bytes.length < 2 ^ 32) :
    { asm with copy_bytes := bytes ++ later }.copy (BitVec.ofNat 32 bytes.length) =
      some ({ asm with
        copy_bytes := later
        current_rva := asm.current_rva + BitVec.ofNat 32 bytes.length }.write
        bytes) := by
  unfold copy
  rw [toNat_count short, if_neg (by rw [length_append]; omega), drop_left, take_left]

theorem map_retarget_bytes (rel32_target abs32_target : RVA -> RVA) (bytes : List Byte) :
    (bytes.map Instruction.byte).map (retarget rel32_target abs32_target) =
      bytes.map Instruction.byte := by
  rw [List.map_map]
  rfl

variable {asm : Assembler}

/-- The operation of a segment has the effect of its instructions. -/
theorem assembleOp_holding
    (addressed : Addressed prog encoded rel32_target abs32_target)
    (labelled : seg.Labelled prog) (short : seg.copy_bytes.length < 2 ^ 32)
    (once : seg = .makeRelocs -> asm.pending_base_relocation_table = false) :
    encoded.assembleOp (asm.holding (seg :: rest)) seg.op = some (((seg.instructions.map
        (retarget rel32_target abs32_target)).foldl (play encoded.image_base)
          asm).holding rest) := by
  cases seg with
  | origin rva => rfl
  | bytes first later =>
    rw [Segment.instructions, map_retarget_bytes, foldl_play_bytes, ← write_holding]
    cases later with
    | nil => exact copy_holding (asm.holding rest) short
    | cons second later => exact copy_holding (asm.holding rest) short
  | rel32 rva index =>
    have hit := addressed.rel32 _ (List.mem_of_find?_eq_some labelled)
    show (encoded.rel32_rva[(BitVec.ofInt 32 index).toNat]?).bind _ = _
    rw [hit, Segment.instructions, map_singleton, retarget,
      foldl_cons, foldl_nil, play, ← write_holding]
    rfl
  | abs32 rva index =>
    have hit := addressed.abs32 _ (List.mem_of_find?_eq_some labelled)
    have sum : ((abs32_target rva).setWidth 64 + encoded.image_base).setWidth 32 =
          abs32_target rva + encoded.image_base.setWidth 32 := by
      rw [BitVec.setWidth_add _ _ (by decide), BitVec.setWidth_setWidth_of_le _ (by decide),
        BitVec.setWidth_eq]
    show (encoded.abs32_rva[(BitVec.ofInt 32 index).toNat]?).bind _ = _
    rw [hit, Segment.instructions, map_singleton, retarget,
      foldl_cons, foldl_nil, play, ← write_holding,
      Option.bind_some, sum]
    rfl
  | makeRelocs =>
    show (if asm.pending_base_relocation_table = true then none else _) = _
    rw [once rfl]
    rfl

/-- The bytes in front of, in and behind a base relocation table. -/
def output (asm : Assembler) (table : List Byte) : List Byte :=
  if asm.pending_base_relocation_table then
    asm.final_buffer ++ table ++ asm.bytes_following_base_relocation_table
  else asm.final_buffer

/-- At most one base relocation table is made, and no bytes follow it before
that. -/
structure Ready (asm : Assembler) (instructions : List Instruction) : Prop where
  once : instructions.count .makeRelocs <= 1
  pending : asm.pending_base_relocation_table = true -> .makeRelocs ∉ instructions
  following : asm.pending_base_relocation_table = false ->
    asm.bytes_following_base_relocation_table = []

theorem output_write : (asm.write bytes).output table = asm.output table ++ bytes := by
  unfold output write
  by_cases pending : asm.pending_base_relocation_table = true
  · simp [pending]
  · simp [pending]

section

variable (image_base : BitVec 64)

/-- What an instruction emits. -/
def instructionBytes (table : List Byte) (current_rva : RVA) : Instruction -> List Byte
  | .origin _ => []
  | .makeRelocs => table
  | .byte value => [value]
  | .rel32 rva => bytes32 (rva - (current_rva + 4#32))
  | .abs32 rva => bytes32 (rva + image_base.setWidth 32)

theorem output_play (ready : Ready asm (inst :: rest)) (image_base : BitVec 64) :
    (asm.play image_base inst).output table = asm.output table ++
        instructionBytes image_base table asm.current_rva inst := by
  cases inst with
  | origin rva => exact (append_nil _).symm
  | byte value => exact output_write
  | rel32 rva => exact output_write
  | abs32 rva => exact output_write
  | makeRelocs =>
    have notPending : asm.pending_base_relocation_table = false :=
      Bool.eq_false_iff.mpr fun pending => ready.pending pending mem_cons_self
    have none_ := ready.following notPending
    unfold output play instructionBytes
    simp [notPending, none_]

theorem Ready.tail (ready : Ready asm (inst :: rest)) : Ready asm rest where
  once := Nat.le_trans List.count_le_count_cons ready.once
  pending := fun pending mem => ready.pending pending (List.mem_cons_of_mem _ mem)
  following := ready.following

theorem Ready.write (ready : Ready asm rest) (bytes : List Byte) :
    Ready (asm.write bytes) rest where
  once := ready.once
  pending := by
    rw [write_pending]
    exact ready.pending
  following := by
    rw [write_pending]
    intro notPending
    rw [Assembler.write, if_neg (by simp [notPending])]
    exact ready.following notPending

theorem Ready.play (ready : Ready asm (inst :: rest)) (image_base : BitVec 64) :
    Ready (asm.play image_base inst) rest := by
  obtain ⟨once, pending, following⟩ := ready.tail
  cases inst with
  | origin rva => exact ⟨once, pending, following⟩
  | byte value =>
    have moved : Ready { asm with
        current_rva := asm.current_rva + 1#32 } rest :=
      ⟨once, pending, following⟩
    exact moved.write _
  | rel32 rva =>
    have moved : Ready { asm with
        current_rva := asm.current_rva + 4#32 } rest :=
      ⟨once, pending, following⟩
    exact moved.write _
  | abs32 rva =>
    have moved : Ready { asm with
        abs32_relocs := asm.abs32_relocs ++ [asm.current_rva]
        current_rva := asm.current_rva + 4#32 } rest :=
      ⟨once, pending, following⟩
    exact moved.write _
  | makeRelocs =>
    have single := ready.once
    rw [count_cons_self] at single
    refine ⟨once, fun _ => ?_, fun notPending => ?_⟩
    · exact count_eq_zero.mp (by omega)
    · cases notPending

theorem interpretFrom_cons (table : List Byte) (asm : Assembler) (rest : List Instruction) :
    AssemblyProgram.interpretFrom image_base table asm.current_rva (inst :: rest) =
      instructionBytes image_base table asm.current_rva inst ++
        AssemblyProgram.interpretFrom image_base table
          (asm.play image_base inst).current_rva rest := by
  cases inst with
  | origin rva => rfl
  | byte value => rw [play, write_current_rva]; rfl
  | rel32 rva => rw [play, write_current_rva]; rfl
  | abs32 rva => rw [play, write_current_rva]; rfl
  | makeRelocs => rfl

/-- The output of instructions is that of their interpretation. -/
theorem output_foldl_play (ready : Ready asm instructions) (image_base : BitVec 64) :
    (instructions.foldl (play image_base) asm).output table = asm.output table ++
        AssemblyProgram.interpretFrom image_base table asm.current_rva instructions := by
  induction instructions generalizing asm with
  | nil => exact (append_nil _).symm
  | cons inst rest ih =>
    rw [foldl_cons, ih (ready.play image_base), output_play ready, interpretFrom_cons, append_assoc]

theorem abs32_relocs_foldl_play (instructions : List Instruction) :
    (instructions.foldl (play image_base) asm).abs32_relocs = asm.abs32_relocs ++
        AssemblyProgram.relocations asm.current_rva instructions := by
  induction instructions generalizing asm with
  | nil => exact (append_nil _).symm
  | cons inst rest ih =>
    rw [foldl_cons, ih]
    cases inst with
    | origin rva => rfl
    | byte value =>
      rw [play, write_abs32_relocs, write_current_rva]
      rfl
    | rel32 rva =>
      rw [play, write_abs32_relocs, write_current_rva]
      rfl
    | abs32 rva =>
      rw [play, write_abs32_relocs, write_current_rva, AssemblyProgram.relocations, append_assoc]
      rfl
    | makeRelocs => rfl

theorem pending_foldl_play (asm : Assembler) (instructions : List Instruction) :
    (instructions.foldl (play image_base) asm).pending_base_relocation_table = true ↔
      asm.pending_base_relocation_table = true ∨ .makeRelocs ∈ instructions := by
  induction instructions generalizing asm with
  | nil => simp
  | cons inst rest ih =>
    rw [foldl_cons, ih]
    cases inst with
    | origin rva => simp [play]
    | byte value => simp [play, write_pending]
    | rel32 rva => simp [play, write_pending]
    | abs32 rva => simp [play, write_pending]
    | makeRelocs => simp [play]

end

theorem Ready.foldl_play (ready : Ready asm (before ++ rest)) (image_base : BitVec 64) :
    Ready (before.foldl (Assembler.play image_base) asm) rest := by
  induction before generalizing asm with
  | nil => exact ready
  | cons inst before ih => exact ih (ready.play image_base)

theorem count_map_retarget (rel32_target abs32_target : RVA -> RVA)
    (instructions : List Instruction) :
    (instructions.map (retarget rel32_target abs32_target)).count .makeRelocs =
      instructions.count .makeRelocs := by
  rw [List.count, countP_map]
  apply countP_congr
  intro inst _
  cases inst with
  | origin rva => exact Iff.rfl
  | byte value => exact Iff.rfl
  | rel32 rva => exact Iff.rfl
  | abs32 rva => exact Iff.rfl
  | makeRelocs => exact Iff.rfl

theorem mem_map_retarget (rel32_target abs32_target : RVA → RVA) (instructions : List Instruction) :
    .makeRelocs ∈ instructions.map (retarget rel32_target abs32_target) ↔
      .makeRelocs ∈ instructions := by
  rw [← count_pos_iff, count_map_retarget, count_pos_iff]

theorem ready_map_iff (rel32_target abs32_target : RVA -> RVA) (asm : Assembler)
    (instructions : List Instruction) :
    Ready asm (instructions.map (retarget rel32_target abs32_target)) ↔ Ready asm instructions := by
  constructor
  · rintro ⟨once, pending, following⟩
    rw [count_map_retarget] at once
    rw [mem_map_retarget] at pending
    exact ⟨once, pending, following⟩
  · rintro ⟨once, pending, following⟩
    refine ⟨?_, ?_, following⟩
    · rwa [count_map_retarget]
    · rwa [mem_map_retarget]

theorem relocations_map (rel32_target abs32_target : RVA -> RVA) (current_rva : RVA)
    (instructions : List Instruction) :
    AssemblyProgram.relocations current_rva
        (instructions.map (retarget rel32_target abs32_target)) =
      AssemblyProgram.relocations current_rva instructions := by
  induction instructions generalizing current_rva with
  | nil => rfl
  | cons inst rest ih =>
    cases inst with
    | origin rva => exact ih rva
    | byte value => exact ih _
    | rel32 rva => exact ih _
    | abs32 rva => exact congrArg (current_rva :: ·) (ih _)
    | makeRelocs => exact ih _

/-- The operations of segments have the effect of their instructions. -/
theorem foldlM_assembleOp (addressed : Addressed prog encoded rel32_target abs32_target)
    {segs : List Segment} (labelled : ∀ seg ∈ segs, seg.Labelled prog)
    (short : (segs.flatMap Segment.copy_bytes).length < 2 ^ 32)
    (ready : Ready asm (segs.flatMap Segment.instructions)) :
    (segs.map Segment.op).foldlM encoded.assembleOp (asm.holding segs) =
      some ((((segs.flatMap Segment.instructions).map
        (retarget rel32_target abs32_target)).foldl (play encoded.image_base) asm).holding []) := by
  induction segs generalizing asm with
  | nil => rfl
  | cons seg rest ih =>
    rw [flatMap_cons, length_append] at short
    rw [flatMap_cons] at ready
    have once : seg = .makeRelocs -> asm.pending_base_relocation_table = false := by
      rintro rfl
      exact Bool.eq_false_iff.mpr fun pending => ready.pending pending mem_cons_self
    have readyRest : Ready ((seg.instructions.map
        (retarget rel32_target abs32_target)).foldl (play encoded.image_base) asm)
        (rest.flatMap Segment.instructions) := by
      rw [← ready_map_iff rel32_target abs32_target, map_append] at ready
      rw [← ready_map_iff rel32_target abs32_target]
      exact ready.foldl_play encoded.image_base
    rw [map_cons, foldlM_cons,
      assembleOp_holding addressed (labelled seg mem_cons_self) (by omega) once,
      flatMap_cons, map_append, foldl_append]
    exact ih ((forall_mem_cons.mp labelled).2) (by omega) readyRest

/-- Another base relocation table is refused. -/
theorem foldlM_assembleOp_none (addressed : Addressed prog encoded rel32_target abs32_target)
    {segs : List Segment}
    (labelled : ∀ seg ∈ segs, seg.Labelled prog)
    (short : (segs.flatMap Segment.copy_bytes).length < 2 ^ 32)
    (many : 1 < (if asm.pending_base_relocation_table then 1 else 0) +
      (segs.flatMap Segment.instructions).count .makeRelocs) :
    (segs.map Segment.op).foldlM encoded.assembleOp (asm.holding segs) = none := by
  induction segs generalizing asm with
  | nil =>
    split_ifs at many
    · exact absurd many (by decide)
    · exact absurd many (by decide)
  | cons seg rest ih =>
    rw [flatMap_cons, length_append] at short
    rw [flatMap_cons, count_append] at many
    have labelledRest : ∀ other ∈ rest, other.Labelled prog := (forall_mem_cons.mp labelled).2
    rw [map_cons, foldlM_cons]
    by_cases refused : seg = .makeRelocs ∧ asm.pending_base_relocation_table = true
    · obtain ⟨rfl, pending⟩ := refused
      show ((if asm.pending_base_relocation_table = true then none else _) >>= _) = none
      rw [if_pos pending]
      rfl
    · have once : seg = .makeRelocs -> asm.pending_base_relocation_table = false :=
        fun isMake => Bool.eq_false_iff.mpr fun pending => refused ⟨isMake, pending⟩
      rw [assembleOp_holding addressed (labelled seg mem_cons_self) (by omega) once]
      apply ih labelledRest (by omega)
      have pendingNext := pending_foldl_play encoded.image_base asm
        (seg.instructions.map (retarget rel32_target abs32_target))
      rw [mem_map_retarget] at pendingNext
      simp only [pendingNext]
      cases seg with
      | makeRelocs =>
        rw [once rfl] at many
        simpa [Segment.instructions] using many
      | bytes first later =>
        have none_ : .makeRelocs ∉ (first :: later).map Instruction.byte := by simp
        rw [Segment.instructions, count_eq_zero.mpr none_] at many
        simpa [Segment.instructions] using many
      | origin rva => simpa [Segment.instructions] using many
      | rel32 rva index => simpa [Segment.instructions] using many
      | abs32 rva index => simpa [Segment.instructions] using many

/-- The base relocation table is generated at the end. -/
theorem assembleEnd_iff (asm : Assembler) : EncodedProgram.assembleEnd (asm.holding []) = some out ↔
      (asm.pending_base_relocation_table = true -> PagesFit asm.abs32_relocs) ∧
      out = asm.output (AssemblyProgram.relocationTable (sortRelocs asm.abs32_relocs)) := by
  unfold EncodedProgram.assembleEnd output holding
  by_cases pending : asm.pending_base_relocation_table = true
  · rw [if_pos pending, if_pos pending]
    have gen := generateBaseRelocations_iff asm.abs32_relocs asm.final_buffer
    cases isTable : generateBaseRelocations asm.abs32_relocs asm.final_buffer with
    | none =>
      refine iff_of_false (by simp) ?_
      rintro ⟨fits, _⟩
      have impossible := (gen _).mpr ⟨fits pending, rfl⟩
      rw [isTable] at impossible
      cases impossible
    | some buffer =>
      obtain ⟨fits, rfl⟩ := (gen buffer).mp isTable
      simp [pending, fits, eq_comm]
  · rw [if_neg pending, if_neg pending]
    simp [pending, eq_comm]

end Assembler
end Chromium.Courgette
