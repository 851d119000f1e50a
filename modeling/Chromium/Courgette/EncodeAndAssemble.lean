import Chromium.Courgette.AssemblyRuns

/-!
# Encoding and assembling programs

When the bytes that are assembled from an encoded program are those of its
interpretation.
-/

namespace Chromium.Courgette.AssemblyProgram

open List Option
open EncodedProgram Segment Assembler

/-- Programs whose labels have indexes, and can be found. -/
structure Encodable (prog : AssemblyProgram) : Prop where
  rel32_indexed : Indexed prog.rel32_labels.labels
  abs32_indexed : Indexed prog.abs32_labels.labels
  resolved : ∀ inst ∈ prog.instructions, Resolved prog inst
  small : prog.image_base.toNat < 2 ^ 32

/-- Programs with at most one base relocation table, whose labels have
addresses. -/
structure WellFormed (prog : AssemblyProgram) : Prop extends Encodable prog where
  rel32_assigned : ∀ label ∈ prog.rel32_labels.labels, label.rva ≠ kUnassignedRVA
  abs32_assigned : ∀ label ∈ prog.abs32_labels.labels, label.rva ≠ kUnassignedRVA
  once : prog.instructions.count .makeRelocs <= 1

/-- Programs within the limits of the counts, the indexes and the blocks of
relocations. -/
structure Fits (prog : AssemblyProgram) : Prop where
  rel32_labels : ∀ label ∈ prog.rel32_labels.labels, label.index ≠ 2 ^ 31 - 1
  abs32_labels : ∀ label ∈ prog.abs32_labels.labels, label.index ≠ 2 ^ 31 - 1
  operations : (operations prog.instructions).length < 2 ^ 32
  copiedBytes : (copiedBytes prog.instructions).length < 2 ^ 32
  pages : .makeRelocs ∈ prog.instructions -> PagesFit (relocations 0#32 prog.instructions)

/-- The interpretation of a program, with other targets of its references. -/
def interpretTargets (prog : AssemblyProgram)
    (rel32_target abs32_target : RVA -> RVA) : List Byte :=
  interpretFrom prog.image_base (relocationTable (sortRelocs (relocations 0#32 prog.instructions)))
    0#32 (prog.instructions.map (retarget rel32_target abs32_target))

theorem toNat_index {label : Label} (pos : 0 <= label.index) (bound : label.index < 2 ^ 31) :
    (BitVec.ofInt 32 label.index).toNat = label.index.toNat := by
  rw [BitVec.toNat_ofInt]
  omega

/-- The encoded program, without its operations. -/
def encodedLabels (prog : AssemblyProgram) (abs32_rva rel32_rva : List RVA) : EncodedProgram :=
  EncodedProgram.endLabels { image_base := prog.image_base, abs32_rva, rel32_rva }

variable {prog : AssemblyProgram} {rel32_rva abs32_rva : List RVA}

/-- The finished address tables have the labels. -/
theorem exists_addressed (encodable : Encodable prog)
    (abs32_defined : defineLabels prog.abs32_labels.labels [] = some abs32_rva)
    (rel32_defined : defineLabels prog.rel32_labels.labels [] = some rel32_rva) :
    ∃ rel32_other abs32_other, rel32_other ≠ kUnassignedRVA ∧ abs32_other ≠ kUnassignedRVA ∧
      Addressed prog (prog.encodedLabels abs32_rva rel32_rva)
        (assignedTo rel32_other) (assignedTo abs32_other) := by
  obtain ⟨_, rel32_other, rel32_ne, rel32_found⟩ := addressTable_spec
    encodable.rel32_indexed prog.rel32_labels.sorted rel32_defined
  obtain ⟨_, abs32_other, abs32_ne, abs32_found⟩ := addressTable_spec
    encodable.abs32_indexed prog.abs32_labels.sorted abs32_defined
  refine ⟨rel32_other, abs32_other, rel32_ne, abs32_ne, ?_, ?_⟩
  · intro label mem
    have indexed := encodable.rel32_indexed
    rw [toNat_index (indexed.positive label mem) (indexed.bounded label mem)]
    exact rel32_found label mem
  · intro label mem
    have indexed := encodable.abs32_indexed
    rw [toNat_index (indexed.positive label mem) (indexed.bounded label mem)]
    exact abs32_found label mem

/-- A table with at most one item for each segment. -/
theorem length_flatMap_le {table : Segment -> List α}
    (atMostOne : ∀ seg, (table seg).length <= 1) (segs : List Segment) :
    (segs.flatMap table).length <= segs.length := by
  induction segs with
  | nil => exact Nat.le_refl 0
  | cons seg rest ih =>
    have one := atMostOne seg
    rw [flatMap_cons, length_append, length_cons]
    omega

theorem tablesFit_iff {encoded : EncodedProgram} (rel32 : encoded.rel32_rva.length < 2 ^ 31)
    (abs32 : encoded.abs32_rva.length < 2 ^ 31) (segs : List Segment) :
    TablesFit (tables encoded segs) ↔ segs.length < 2 ^ 32 ∧
        (segs.flatMap Segment.copy_bytes).length < 2 ^ 32 := by
  constructor
  · intro fit
    have ops := fit.ops
    rw [tables, length_map] at ops
    exact ⟨ops, fit.copy_bytes⟩
  · rintro ⟨ops, bytes⟩
    have within : ∀ {α : Type} {table : Segment -> List α},
        (∀ seg, (table seg).length <= 1) -> (segs.flatMap table).length < 2 ^ 32 :=
      fun atMostOne => Nat.lt_of_le_of_lt (length_flatMap_le atMostOne _) ops
    constructor
    · exact Nat.lt_trans rel32 (by decide)
    · exact Nat.lt_trans abs32 (by decide)
    · rwa [tables, length_map]
    · apply within
      rintro (_ | _ | _ | _ | _)
      all_goals simp [Segment.origins]
    · apply within
      rintro (_ | ⟨_, _ | _⟩ | _ | _ | _)
      all_goals simp [Segment.copy_counts]
    · exact bytes
    · apply within
      rintro (_ | _ | _ | _ | _)
      all_goals simp [Segment.rel32_ix]
    · apply within
      rintro (_ | _ | _ | _ | _)
      all_goals simp [Segment.abs32_ix]

theorem ne_other (seg : Segment) (val : BitVec 32) : seg.op ≠ .other val := by
  rcases seg with _ | ⟨_, _ | _⟩ | _ | _ | _
  all_goals exact OP.noConfusion

/-- What is assembled from the tables of a program. -/
theorem assembleTo_iff (addressed : Addressed prog encoded rel32_target abs32_target)
    (sameBase : encoded.image_base = prog.image_base)
    (ofProgram : SegmentsOf prog prog.instructions segs)
    (short : (copiedBytes prog.instructions).length < 2 ^ 32) (out : List Byte) :
    (tables encoded segs).assembleTo [] = some out ↔ (.makeRelocs ∈ prog.instructions ->
        PagesFit (relocations 0#32 prog.instructions)) ∧
      prog.instructions.count .makeRelocs <= 1 ∧
      out = prog.interpretTargets rel32_target abs32_target := by
  have starts : (tables encoded segs).assembler [] = initial.holding segs := rfl
  have addressedTables : Addressed prog (tables encoded segs)
      rel32_target abs32_target := ⟨addressed.rel32, addressed.abs32⟩
  rw [← ofProgram.copy_bytes] at short
  rw [EncodedProgram.assembleTo, starts]
  show ((segs.map Segment.op).foldlM _ _ >>= _) = _ ↔ _
  by_cases once : prog.instructions.count .makeRelocs <= 1
  · have ready : Ready initial prog.instructions :=
      ⟨once, fun pending => Bool.noConfusion pending, fun _ => rfl⟩
    have run := foldlM_assembleOp addressedTables ofProgram.labelled short
      (by rw [ofProgram.same]; exact ready)
    rw [ofProgram.same] at run
    rw [run, bind_eq_bind, bind_some, assembleEnd_iff, pending_foldl_play, abs32_relocs_foldl_play,
      output_foldl_play ((ready_map_iff _ _ _ _).mpr ready), relocations_map,
      mem_map_retarget]
    simp only [initial, nil_append, Bool.false_eq_true, false_or]
    rw [and_iff_right once, interpretTargets, ← sameBase]
    exact Iff.rfl
  · have many : 1 < (if initial.pending_base_relocation_table then 1 else 0) +
          (segs.flatMap Segment.instructions).count .makeRelocs := by
      rw [ofProgram.same]
      simpa [initial] using once
    rw [foldlM_assembleOp_none addressedTables ofProgram.labelled short many]
    exact iff_of_false (by simp) (fun all => once all.2.1)

theorem exists_segments (encodable : Encodable prog) :
    ∃ segs, prog.instructions.foldlM (Segment.addInstruction prog) [] = some segs ∧
      SegmentsOf prog prog.instructions segs := by
  have nothing : SegmentsOf prog [] [] := ⟨rfl, isChain_nil, fun _ mem => by cases mem⟩
  exact exists_segmentsOf nothing encodable.resolved

theorem encode_eq (abs32_defined : defineLabels prog.abs32_labels.labels [] = some abs32_rva)
    (rel32_defined : defineLabels prog.rel32_labels.labels [] = some rel32_rva)
    (areSegments : prog.instructions.foldlM (Segment.addInstruction prog) [] = some segs) :
    prog.encode = some (tables (prog.encodedLabels abs32_rva rel32_rva) segs) := by
  have encoded := foldlM_encodeInstruction prog
    (prog.encodedLabels abs32_rva rel32_rva) [] prog.instructions
  rw [areSegments, map_some] at encoded
  rw [encode, abs32_defined, rel32_defined]
  exact encoded

theorem encodeAndAssemble_of_defined (encodable : Encodable prog)
    (abs32_defined : defineLabels prog.abs32_labels.labels [] = some abs32_rva)
    (rel32_defined : defineLabels prog.rel32_labels.labels [] = some rel32_rva)
    (addressed : Addressed prog (prog.encodedLabels abs32_rva rel32_rva)
      rel32_target abs32_target) (out : List Byte) :
    prog.encodeAndAssemble = some out ↔ Fits prog ∧ prog.instructions.count .makeRelocs <= 1 ∧
        out = prog.interpretTargets rel32_target abs32_target := by
  have rel32_labels := (defineLabels_iff encodable.rel32_indexed
    (show ([] : List RVA).length < 2 ^ 31 by decide)).mp ⟨_, rel32_defined⟩
  have abs32_labels := (defineLabels_iff encodable.abs32_indexed
    (show ([] : List RVA).length < 2 ^ 31 by decide)).mp ⟨_, abs32_defined⟩
  obtain ⟨segs, areSegments, ofProgram⟩ := exists_segments encodable
  have rel32_length := (addressTable_spec encodable.rel32_indexed
    prog.rel32_labels.sorted rel32_defined).1
  have abs32_length := (addressTable_spec encodable.abs32_indexed
    prog.abs32_labels.sorted abs32_defined).1
  have tablesFit := tablesFit_iff (show (prog.encodedLabels abs32_rva rel32_rva).rel32_rva.length <
      2 ^ 31 from rel32_length) abs32_length segs
  have operations_eq := congrArg length ofProgram.operations
  rw [length_map] at operations_eq
  rw [ofProgram.copy_bytes, ← operations_eq] at tablesFit
  rw [encodeAndAssemble, encode_eq abs32_defined rel32_defined areSegments]
  simp only [bind_eq_bind, bind_some]
  by_cases fit : TablesFit (tables (prog.encodedLabels abs32_rva rel32_rva) segs)
  · rw [(writeTo_fresh_iff _ _).mpr ⟨fit, rfl⟩, bind_some]
    rw [readFrom_streamBytes fit (fun op mem val => by
        obtain ⟨seg, _, rfl⟩ := List.mem_map.mp mem
        exact ne_other seg val) encodable.small,
      bind_some, assembleTo_iff addressed rfl ofProgram (tablesFit.mp fit).2]
    apply and_congr_left
    intro _
    constructor
    · intro pages
      exact ⟨rel32_labels, abs32_labels, (tablesFit.mp fit).1, (tablesFit.mp fit).2, pages⟩
    · exact Fits.pages
  · refine iff_of_false ?_ ?_
    · cases isWritten : (tables (prog.encodedLabels abs32_rva rel32_rva)
          segs).writeTo .fresh with
      | none => simp
      | some streams => exact absurd ((writeTo_fresh_iff _ _).mp isWritten).1 fit
    · rintro ⟨fits, _⟩
      exact fit (tablesFit.mpr ⟨fits.operations, fits.copiedBytes⟩)

/-- What is assembled is the interpretation, with another target for the
unassigned address. -/
theorem encodeAndAssemble_of_encodable (encodable : Encodable prog) :
    ∃ rel32_other abs32_other, rel32_other ≠ kUnassignedRVA ∧ abs32_other ≠ kUnassignedRVA ∧
      ∀ out, prog.encodeAndAssemble = some out ↔
        Fits prog ∧ prog.instructions.count .makeRelocs <= 1 ∧
          out = prog.interpretTargets (assignedTo rel32_other) (assignedTo abs32_other) := by
  have rel32_iff := defineLabels_iff encodable.rel32_indexed
    (show ([] : List RVA).length < 2 ^ 31 by decide)
  have abs32_iff := defineLabels_iff encodable.abs32_indexed
    (show ([] : List RVA).length < 2 ^ 31 by decide)
  have zeroAssigned : 0#32 ≠ kUnassignedRVA := by decide
  cases abs32_defined : defineLabels prog.abs32_labels.labels [] with
  | none =>
    refine ⟨0#32, 0#32, zeroAssigned, zeroAssigned, fun out => ?_⟩
    refine iff_of_false (by rw [encodeAndAssemble, encode, abs32_defined]; simp) ?_
    rintro ⟨fits, _⟩
    obtain ⟨defined, isDefined⟩ := abs32_iff.mpr fits.abs32_labels
    rw [abs32_defined] at isDefined
    cases isDefined
  | some abs32_rva =>
  cases rel32_defined : defineLabels prog.rel32_labels.labels [] with
  | none =>
    refine ⟨0#32, 0#32, zeroAssigned, zeroAssigned, fun out => ?_⟩
    refine iff_of_false (by rw [encodeAndAssemble, encode, abs32_defined, rel32_defined]; simp) ?_
    rintro ⟨fits, _⟩
    obtain ⟨defined, isDefined⟩ := rel32_iff.mpr fits.rel32_labels
    rw [rel32_defined] at isDefined
    cases isDefined
  | some rel32_rva =>
    obtain ⟨rel32_other, abs32_other, rel32_ne, abs32_ne, addressed⟩ :=
      exists_addressed encodable abs32_defined rel32_defined
    exact ⟨rel32_other, abs32_other, rel32_ne, abs32_ne,
      encodeAndAssemble_of_defined encodable abs32_defined rel32_defined addressed⟩

/-- The references of a program have assigned addresses. -/
theorem map_retarget_of_assigned (wf : WellFormed prog) :
    prog.instructions.map (retarget (assignedTo rel32_other) (assignedTo abs32_other)) =
      prog.instructions := by
  have kept : ∀ {other rva : RVA}, rva ≠ kUnassignedRVA ->
      assignedTo other rva = rva := fun assigned => if_neg assigned
  conv_rhs => rw [← List.map_id prog.instructions]
  apply map_congr_left
  intro inst mem
  have isResolved := wf.resolved inst mem
  cases inst with
  | origin rva => rfl
  | byte value => rfl
  | makeRelocs => rfl
  | rel32 rva =>
    obtain ⟨label, isFound⟩ := isSome_iff_exists.mp isResolved
    have assigned := wf.rel32_assigned label (List.mem_of_find?_eq_some isFound)
    rw [RVAToLabel.rva_of_find isFound] at assigned
    rw [retarget, kept assigned, id]
  | abs32 rva =>
    obtain ⟨label, isFound⟩ := isSome_iff_exists.mp isResolved
    have assigned := wf.abs32_assigned label (List.mem_of_find?_eq_some isFound)
    rw [RVAToLabel.rva_of_find isFound] at assigned
    rw [retarget, kept assigned, id]

/-- The assembled bytes are those of the interpretation, if there are any. -/
theorem encodeAndAssemble_eq_some (wf : WellFormed prog) :
    prog.encodeAndAssemble = some out ↔ Fits prog ∧ out = prog.interpret := by
  obtain ⟨rel32_other, abs32_other, _, _, assembled⟩ :=
    encodeAndAssemble_of_encodable wf.toEncodable
  rw [assembled out, and_iff_right wf.once, interpretTargets,
    map_retarget_of_assigned wf, interpret]

/-- Encoding and assembling yields the interpretation exactly of the programs
within the limits. -/
theorem encodeAndAssemble_eq_interpret_iff {prog : AssemblyProgram} (wf : WellFormed prog) :
    prog.encodeAndAssemble = some prog.interpret ↔ Fits prog := by
  rw [encodeAndAssemble_eq_some wf]
  exact and_iff_left rfl

theorem pagesFit_of_length (few : relocs.length <= kMaxRelocs) : PagesFit relocs :=
  fun _ => Nat.le_trans (length_filter_le _ relocs) few

/-- A program with gaps between the indexes, and bytes in front of and behind
the relocations. -/
def twoTables : AssemblyProgram where
  image_base := 0x400000#64
  instructions := [.origin 0x1000#32, .byte 1#8, .byte 2#8, .rel32 0x2000#32,
    .abs32 0x3000#32, .makeRelocs, .byte 3#8, .abs32 0x1000#32]
  rel32_labels := ⟨[⟨0x2000#32, 3⟩], by decide⟩
  abs32_labels := ⟨[⟨0x1000#32, 5⟩, ⟨0x3000#32, 0⟩], by decide⟩

theorem wellFormed_twoTables : WellFormed twoTables where
  rel32_indexed := ⟨by decide, by decide, by decide⟩
  abs32_indexed := ⟨by decide, by decide, by decide⟩
  rel32_assigned := by decide
  abs32_assigned := by decide
  resolved := by simp [twoTables, Resolved, RVAToLabel.find]
  once := by decide
  small := by decide

theorem encodeAndAssemble_twoTables : twoTables.encodeAndAssemble = some twoTables.interpret := by
  apply (encodeAndAssemble_eq_interpret_iff wellFormed_twoTables).mpr
  exact ⟨by decide, by decide, by decide, by decide, fun _ => pagesFit_of_length (by decide)⟩

/-- A program within the limits is assembled from the one stream that its streams
are copied to. -/
theorem interpret_of_copied {prog : AssemblyProgram} (wf : WellFormed prog) (fits : Fits prog) :
    ∃ streams, prog.encode.bind (·.writeTo .fresh) = some streams ∧
      ((∀ i, (streams.streams i).length < 2 ^ 32) ->
        ∀ sizeLimit, (streams.copyTo []).length < sizeLimit ->
          ((SourceStreamSet.init sizeLimit (streams.copyTo [])).bind
            EncodedProgram.readFrom).bind (·.assembleTo []) = some prog.interpret) := by
  have assembled := (encodeAndAssemble_eq_some wf).mpr ⟨fits, rfl⟩
  obtain ⟨encoded, isEncoded, assembled⟩ := bind_eq_some_iff.mp assembled
  obtain ⟨streams, isWritten, assembled⟩ := bind_eq_some_iff.mp assembled
  obtain ⟨-, rfl⟩ := (EncodedProgram.writeTo_fresh_iff encoded streams).mp isWritten
  refine ⟨_, bind_eq_some_iff.mpr ⟨encoded, isEncoded, isWritten⟩, fun small sizeLimit short => ?_⟩
  rw [SourceStreamSet.init_copyTo (Nat.le_refl _) (fun i _ => small i) short]
  simp only [Fin.is_lt, if_true, bind_some]
  exact assembled

theorem interpret_of_copied_twoTables : ∃ streams,
    twoTables.encode.bind (·.writeTo .fresh) = some streams ∧
      ((SourceStreamSet.init (2 ^ 32) (streams.copyTo [])).bind
        EncodedProgram.readFrom).bind (·.assembleTo []) = some twoTables.interpret := by
  obtain ⟨streams, isWritten, assembled⟩ := interpret_of_copied wellFormed_twoTables
    ⟨by decide, by decide, by decide, by decide, fun _ => pagesFit_of_length (by decide)⟩
  refine ⟨streams, isWritten, assembled ?_ _ ?_⟩ <;> cases isWritten <;> decide +kernel

/-- A reference at the same address each time. -/
def repeated (count : Nat) : List Instruction :=
  (List.replicate count [.origin 0x1000#32, .abs32 0x2000#32]).flatten

theorem relocations_repeated (n : Nat) (current_rva : RVA) :
    relocations current_rva (repeated n) = List.replicate n 0x1000#32 := by
  induction n generalizing current_rva with
  | zero => rfl
  | succ n ih =>
    have next := ih (0x1000#32 + 4#32)
    rw [replicate_succ, ← next]
    rfl

theorem mem_repeated {n : Nat} (mem : inst ∈ repeated n) :
    inst = .origin 0x1000#32 ∨ inst = .abs32 0x2000#32 := by
  obtain ⟨both, isBoth, inBoth⟩ := mem_flatten.mp mem
  rw [eq_of_mem_replicate isBoth] at inBoth
  simpa using inBoth

/-- More relocations in a page than a block has room for. -/
def overfullPage : AssemblyProgram where
  image_base := 0x400000#64
  instructions := .makeRelocs :: repeated (kMaxRelocs + 1)
  rel32_labels := .empty
  abs32_labels := ⟨[⟨0x2000#32, 0⟩], List.pairwise_singleton _ _⟩

theorem wellFormed_overfullPage : WellFormed overfullPage where
  rel32_indexed := ⟨by decide, by decide, by decide⟩
  abs32_indexed := ⟨by decide, by decide, by decide⟩
  rel32_assigned := by decide
  abs32_assigned := by decide
  resolved := by
    intro inst mem
    rcases mem_cons.mp mem with rfl | later
    · trivial
    · rcases mem_repeated later with rfl | rfl
      · trivial
      · show (overfullPage.abs32_labels.find 0x2000#32).isSome
        decide
  once := by
    have none_ : .makeRelocs ∉ repeated (kMaxRelocs + 1) := by
      intro mem
      rcases mem_repeated mem with same | same
      · cases same
      · cases same
    show List.count _ (.makeRelocs :: repeated (kMaxRelocs + 1)) <= 1
    rw [count_cons_self, count_eq_zero.mpr none_]
  small := by decide

theorem not_encodeAndAssemble_overfullPage : WellFormed overfullPage ∧
      overfullPage.encodeAndAssemble ≠ some overfullPage.interpret := by
  refine ⟨wellFormed_overfullPage, fun assembled => ?_⟩
  have fits := ((encodeAndAssemble_eq_some wellFormed_overfullPage).mp
    assembled).1.pages mem_cons_self 0x1000#32
  have allRelocs : relocations 0#32 overfullPage.instructions =
      replicate (kMaxRelocs + 1) 0x1000#32 :=
    relocations_repeated (kMaxRelocs + 1) 0#32
  rw [allRelocs, inPage, filter_replicate,
    if_pos (show decide (pageRva 0x1000#32 = 0x1000#32) = true by decide),
    length_replicate] at fits
  exact absurd fits (by decide)

end Chromium.Courgette.AssemblyProgram
