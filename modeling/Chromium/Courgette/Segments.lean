import Chromium.Courgette.AssemblyProgram
import Mathlib.Data.List.ModifyLast
import Mathlib.Data.List.SplitBy

/-!
# Segments of instructions

An encoded program is the tables of a list of segments: single instructions, or
adjacent bytes that are folded into one operation.
-/

namespace Chromium.Courgette

open List Option

/-- An instruction with the index of its label, or adjacent bytes. -/
inductive Segment
  | origin (rva : RVA)
  | bytes (first : Byte) (rest : List Byte)
  | rel32 (label : RVA) (index : Int)
  | abs32 (label : RVA) (index : Int)
  | makeRelocs
deriving DecidableEq

namespace RVAToLabel

theorem rva_of_find {table : RVAToLabel} (isFound : table.find rva = some label) :
    label.rva = rva := by
  simpa using List.find?_some isFound

end RVAToLabel

namespace Segment

def instructions : Segment -> List Instruction
  | origin rva => [.origin rva]
  | bytes first rest => (first :: rest).map .byte
  | rel32 label _ => [.rel32 label]
  | abs32 label _ => [.abs32 label]
  | makeRelocs => [.makeRelocs]

def op : Segment -> OP
  | origin _ => .origin
  | bytes _ [] => .copy1
  | bytes _ (_ :: _) => .copy
  | rel32 _ _ => .rel32
  | abs32 _ _ => .abs32
  | makeRelocs => .makeBaseRelocationTable

def origins : Segment -> List RVA
  | origin rva => [rva]
  | _ => []

def copy_counts : Segment -> List (BitVec 32)
  | bytes first (second :: rest) => [BitVec.ofNat 32 (first :: second :: rest).length]
  | _ => []

def copy_bytes : Segment -> List Byte
  | bytes first rest => first :: rest
  | _ => []

def rel32_ix : Segment -> List (BitVec 32)
  | rel32 _ index => [BitVec.ofInt 32 index]
  | _ => []

def abs32_ix : Segment -> List (BitVec 32)
  | abs32 _ index => [BitVec.ofInt 32 index]
  | _ => []

/-- An encoded program whose tables are those of segments. -/
def tables (encoded : EncodedProgram) (segs : List Segment) : EncodedProgram :=
  { encoded with
    ops := segs.map op
    origins := segs.flatMap origins
    copy_counts := segs.flatMap copy_counts
    copy_bytes := segs.flatMap copy_bytes
    rel32_ix := segs.flatMap rel32_ix
    abs32_ix := segs.flatMap abs32_ix }

/-- Adjacent bytes are folded. -/
def addByte (segs : List Segment) (value : Byte) : List Segment :=
  match segs.getLast? with
  | some (bytes first rest) => segs.dropLast ++ [bytes first (rest ++ [value])]
  | _ => segs ++ [bytes value []]

section

variable (prog : AssemblyProgram)

def addInstruction (segs : List Segment) : Instruction -> Option (List Segment)
  | .origin rva => some (segs ++ [origin rva])
  | .byte value => some (addByte segs value)
  | .rel32 rva => do
      let label ← prog.rel32_labels.find rva
      return segs ++ [rel32 rva label.index]
  | .abs32 rva => do
      let label ← prog.abs32_labels.find rva
      return segs ++ [abs32 rva label.index]
  | .makeRelocs => some (segs ++ [makeRelocs])

theorem ofNat_add_one (n : Nat) : BitVec.ofNat 32 n + 1#32 = BitVec.ofNat 32 (n + 1) :=
  (BitVec.ofNat_add n 1).symm

section

variable (encoded : EncodedProgram)

theorem addCopy_tables :
    (tables encoded segs).addCopy [value] = tables encoded (addByte segs value) := by
  rcases eq_nil_or_concat' segs with rfl | ⟨before, last, rfl⟩
  · rfl
  · unfold addByte EncodedProgram.addCopy
    cases last with
    | bytes first rest =>
      cases rest with
      | nil =>
        simp [tables, op, origins, copy_counts, copy_bytes, rel32_ix,
          abs32_ix, modifyLast_concat, ofNat_add_one]
      | cons second rest =>
        simp [tables, op, origins, copy_counts, copy_bytes, rel32_ix,
          abs32_ix, modifyLast_concat, ofNat_add_one]
    | origin rva => simp [tables, op, origins, copy_counts, copy_bytes, rel32_ix, abs32_ix]
    | rel32 rva index => simp [tables, op, origins, copy_counts, copy_bytes, rel32_ix, abs32_ix]
    | abs32 rva index => simp [tables, op, origins, copy_counts, copy_bytes, rel32_ix, abs32_ix]
    | makeRelocs => simp [tables, op, origins, copy_counts, copy_bytes, rel32_ix, abs32_ix]

theorem encodeInstruction_tables (inst : Instruction) :
    prog.encodeInstruction (tables encoded segs) inst =
      (addInstruction prog segs inst).map (tables encoded) := by
  cases inst with
  | origin rva =>
    simp [AssemblyProgram.encodeInstruction, addInstruction,
      EncodedProgram.addOrigin, tables, op, origins, copy_counts, copy_bytes,
      rel32_ix, abs32_ix]
  | byte value => rw [AssemblyProgram.encodeInstruction, addInstruction, addCopy_tables, map_some]
  | rel32 rva =>
    rw [AssemblyProgram.encodeInstruction, addInstruction]
    cases prog.rel32_labels.find rva with
    | none => rfl
    | some label =>
      simp [EncodedProgram.addRel32, tables, op, origins, copy_counts,
        copy_bytes, rel32_ix, abs32_ix]
  | abs32 rva =>
    rw [AssemblyProgram.encodeInstruction, addInstruction]
    cases prog.abs32_labels.find rva with
    | none => rfl
    | some label =>
      simp [EncodedProgram.addAbs32, tables, op, origins, copy_counts,
        copy_bytes, rel32_ix, abs32_ix]
  | makeRelocs =>
    simp [AssemblyProgram.encodeInstruction, addInstruction,
      EncodedProgram.addMakeRelocs, tables, op, origins, copy_counts,
      copy_bytes, rel32_ix, abs32_ix]

/-- The instructions of a program are encoded as the tables of its segments. -/
theorem foldlM_encodeInstruction (segs : List Segment) (instructions : List Instruction) :
    instructions.foldlM prog.encodeInstruction (tables encoded segs) =
      (instructions.foldlM (addInstruction prog) segs).map (tables encoded) := by
  induction instructions generalizing segs with
  | nil => rfl
  | cons inst rest ih =>
    rw [foldlM_cons, foldlM_cons, encodeInstruction_tables]
    cases addInstruction prog segs inst with
    | none => rfl
    | some added => exact ih added

end

def isBytes : Segment -> Bool
  | bytes _ _ => true
  | _ => false

/-- No adjacent bytes are in different segments. -/
def Folded (segs : List Segment) : Prop :=
  segs.IsChain fun left right => ¬ (left.isBytes ∧ right.isBytes)

/-- The label of a segment is one of the program. -/
def Labelled : Segment -> Prop
  | rel32 rva index => prog.rel32_labels.find rva = some ⟨rva, index⟩
  | abs32 rva index => prog.abs32_labels.find rva = some ⟨rva, index⟩
  | _ => True

end

/-- Folded segments for some instructions of a program. -/
structure SegmentsOf (prog : AssemblyProgram) (instructions : List Instruction)
    (segs : List Segment) : Prop where
  same : segs.flatMap Segment.instructions = instructions
  folded : Folded segs
  labelled : ∀ seg ∈ segs, seg.Labelled prog

variable {prog : AssemblyProgram} {inst : Instruction}
  {instructions : List Instruction} {segs : List Segment}

section

variable (ofInstructions : SegmentsOf prog instructions segs)
include ofInstructions

/-- Another segment that need not be folded. -/
theorem SegmentsOf.concat (seg : Segment)
    (alone : ∀ last ∈ segs.getLast?, ¬ (last.isBytes ∧ seg.isBytes))
    (labelled : seg.Labelled prog) :
    SegmentsOf prog (instructions ++ seg.instructions) (segs ++ [seg]) where
  same := by rw [flatMap_append, ofInstructions.same, flatMap_singleton]
  folded := by
    apply isChain_append.mpr
    refine ⟨ofInstructions.folded, isChain_singleton seg, ?_⟩
    intro last isLast first isFirst
    cases isFirst
    exact alone last isLast
  labelled := by
    intro other mem
    rcases mem_append.mp mem with earlier | isSegment
    · exact ofInstructions.labelled other earlier
    · rw [mem_singleton.mp isSegment]
      exact labelled

/-- Another byte goes into the last segment if that has bytes. -/
theorem SegmentsOf.addByte (val : Byte) :
    SegmentsOf prog (instructions ++ [.byte val]) (Segment.addByte segs val) := by
  rcases eq_nil_or_concat' segs with rfl | ⟨before, last, rfl⟩
  · exact ofInstructions.concat (bytes val []) (by simp) trivial
  · unfold Segment.addByte
    rw [getLast?_concat]
    cases last with
    | bytes first rest =>
      obtain ⟨foldedBefore, _, alone⟩ := isChain_append.mp ofInstructions.folded
      rw [dropLast_concat]
      constructor
      · rw [← ofInstructions.same]
        simp [Segment.instructions]
      · apply isChain_append.mpr
        refine ⟨foldedBefore, isChain_singleton _, ?_⟩
        intro other isOther first isFirst
        cases isFirst
        exact alone other isOther (bytes first rest) rfl
      · intro seg mem
        rcases mem_append.mp mem with earlier | isLast
        · exact ofInstructions.labelled seg (mem_append_left _ earlier)
        · rw [mem_singleton.mp isLast]
          trivial
    | origin rva => exact ofInstructions.concat (bytes val []) (by simp [isBytes]) trivial
    | rel32 rva index => exact ofInstructions.concat (bytes val []) (by simp [isBytes]) trivial
    | abs32 rva index => exact ofInstructions.concat (bytes val []) (by simp [isBytes]) trivial
    | makeRelocs => exact ofInstructions.concat (bytes val []) (by simp [isBytes]) trivial

theorem SegmentsOf.addInstruction
    (isAdded : Segment.addInstruction prog segs inst = some added) :
    SegmentsOf prog (instructions ++ [inst]) added := by
  cases inst with
  | origin rva =>
    cases isAdded
    exact ofInstructions.concat (origin rva) (by simp [isBytes]) trivial
  | byte value =>
    cases isAdded
    exact ofInstructions.addByte value
  | rel32 rva =>
    rw [Segment.addInstruction] at isAdded
    cases isFound : prog.rel32_labels.find rva with
    | none =>
      rw [isFound] at isAdded
      cases isAdded
    | some label =>
      rw [isFound] at isAdded
      cases isAdded
      refine ofInstructions.concat (rel32 rva label.index) (by simp [isBytes]) ?_
      rw [Labelled, isFound, ← RVAToLabel.rva_of_find isFound]
  | abs32 rva =>
    rw [Segment.addInstruction] at isAdded
    cases isFound : prog.abs32_labels.find rva with
    | none =>
      rw [isFound] at isAdded
      cases isAdded
    | some label =>
      rw [isFound] at isAdded
      cases isAdded
      refine ofInstructions.concat (abs32 rva label.index) (by simp [isBytes]) ?_
      rw [Labelled, isFound, ← RVAToLabel.rva_of_find isFound]
  | makeRelocs =>
    cases isAdded
    exact ofInstructions.concat makeRelocs (by simp [isBytes]) trivial

end

/-- The labels that instructions refer to are in the tables of a program. -/
def Resolved (prog : AssemblyProgram) : Instruction -> Prop
  | .rel32 rva => (prog.rel32_labels.find rva).isSome
  | .abs32 rva => (prog.abs32_labels.find rva).isSome
  | _ => True

theorem exists_addInstruction (resolved : Resolved prog inst) :
    ∃ added, Segment.addInstruction prog segs inst = some added := by
  cases inst with
  | origin rva => exact ⟨_, rfl⟩
  | byte value => exact ⟨_, rfl⟩
  | rel32 rva =>
    obtain ⟨label, isFound⟩ := isSome_iff_exists.mp resolved
    rw [Segment.addInstruction, isFound]
    exact ⟨_, rfl⟩
  | abs32 rva =>
    obtain ⟨label, isFound⟩ := isSome_iff_exists.mp resolved
    rw [Segment.addInstruction, isFound]
    exact ⟨_, rfl⟩
  | makeRelocs => exact ⟨_, rfl⟩

theorem exists_segmentsOf (ofBefore : SegmentsOf prog before segs)
    (resolved : ∀ inst ∈ rest, Resolved prog inst) :
    ∃ result, rest.foldlM (addInstruction prog) segs = some result ∧
      SegmentsOf prog (before ++ rest) result := by
  induction rest generalizing before segs with
  | nil =>
    refine ⟨segs, rfl, ?_⟩
    rw [append_nil]
    exact ofBefore
  | cons inst rest ih =>
    obtain ⟨added, isAdded⟩ := exists_addInstruction (resolved inst mem_cons_self)
    obtain ⟨result, isResult, ofAll⟩ := ih (ofBefore.addInstruction isAdded)
      ((forall_mem_cons.mp resolved).2)
    refine ⟨result, ?_, ?_⟩
    · rw [foldlM_cons, isAdded]
      exact isResult
    · rwa [append_assoc, singleton_append] at ofAll

def isByte : Instruction -> Bool
  | .byte _ => true
  | _ => false

/-- Instructions in groups of adjacent bytes, and of one instruction each. -/
def operations (instructions : List Instruction) : List (List Instruction) :=
  instructions.splitBy fun left right => isByte left && isByte right

/-- The bytes among instructions. -/
def copiedBytes (instructions : List Instruction) : List Byte :=
  instructions.filterMap fun inst => match inst with
    | .byte value => some value
    | _ => none

theorem isByte_of_mem {seg : Segment} (mem : inst ∈ seg.instructions) :
    isByte inst = seg.isBytes := by
  cases seg with
  | bytes first rest =>
    obtain ⟨val, _, rfl⟩ := List.mem_map.mp mem
    rfl
  | origin rva => rw [mem_singleton.mp mem]; rfl
  | rel32 rva index => rw [mem_singleton.mp mem]; rfl
  | abs32 rva index => rw [mem_singleton.mp mem]; rfl
  | makeRelocs => rw [mem_singleton.mp mem]; rfl

theorem instructions_ne_nil {seg : Segment} : seg.instructions ≠ [] := by
  cases seg with
  | bytes first rest => exact cons_ne_nil _ _
  | origin rva => exact cons_ne_nil _ _
  | rel32 rva index => exact cons_ne_nil _ _
  | abs32 rva index => exact cons_ne_nil _ _
  | makeRelocs => exact cons_ne_nil _ _

theorem SegmentsOf.operations (ofInstructions : SegmentsOf prog instructions segs) :
    Segment.operations instructions = segs.map Segment.instructions := by
  rw [← ofInstructions.same, flatMap_def]
  apply splitBy_flatten
  · intro mem
    obtain ⟨seg, _, empty⟩ := List.mem_map.mp mem
    exact instructions_ne_nil empty
  · intro group mem
    obtain ⟨seg, _, rfl⟩ := List.mem_map.mp mem
    cases seg with
    | bytes first rest =>
      rw [Segment.instructions, isChain_map]
      exact (pairwise_of_forall fun _ _ => rfl).isChain
    | origin rva => exact isChain_singleton _
    | rel32 rva index => exact isChain_singleton _
    | abs32 rva index => exact isChain_singleton _
    | makeRelocs => exact isChain_singleton _
  · rw [isChain_map]
    apply ofInstructions.folded.imp
    intro left right alone
    refine ⟨instructions_ne_nil, instructions_ne_nil, ?_⟩
    rw [isByte_of_mem (getLast_mem _), isByte_of_mem (head_mem _)]
    simpa using alone

theorem copiedBytes_instructions {seg : Segment} :
    copiedBytes seg.instructions = seg.copy_bytes := by
  cases seg with
  | bytes first rest =>
    rw [copiedBytes, Segment.instructions, filterMap_map]
    exact filterMap_some
  | origin rva => rfl
  | rel32 rva index => rfl
  | abs32 rva index => rfl
  | makeRelocs => rfl

theorem SegmentsOf.copy_bytes (ofInstructions : SegmentsOf prog instructions segs) :
    segs.flatMap Segment.copy_bytes = copiedBytes instructions := by
  rw [← ofInstructions.same, copiedBytes, filterMap_flatMap]
  apply flatMap_congr
  intro seg _
  exact copiedBytes_instructions.symm

end Segment
end Chromium.Courgette
