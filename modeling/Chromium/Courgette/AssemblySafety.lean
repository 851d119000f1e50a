import Chromium.Courgette.AssemblyProgram

/-!
# Assembly of any program

What was read from a patch is assembled whatever it is. All tables are read
with `VectorAt`, but nothing bounds the relocations that a page gets.
-/

namespace Chromium.Courgette.EncodedProgram

open List Option
open AssemblyProgram (inPage)

/-- What assembly does other than to return. -/
inductive AssemblyFault
  /-- `RelocBlock::Add` writes behind `relocs`. -/
  | relocsOverrun
deriving DecidableEq

/-- `EncodedProgram::AssembleTo`, with its fault: the final buffer, if it
returns true. -/
def assembleToChecked (encoded : EncodedProgram) (final_buffer : List Byte) :
    Except AssemblyFault (Option (List Byte)) :=
  match encoded.ops.foldlM encoded.assembleOp (encoded.assembler final_buffer) with
  | none => .ok none
  | some assembler =>
    if assembler.pending_base_relocation_table ∧
        generateBaseRelocations assembler.abs32_relocs assembler.final_buffer = none then
      .error .relocsOverrun
    else .ok (assembleEnd assembler)

/-- The buffers agree with those of the assembly that does not tell faults from
failures. -/
theorem assembleTo_eq (encoded : EncodedProgram) :
    encoded.assembleTo final_buffer = (encoded.assembleToChecked final_buffer).toOption.join := by
  unfold assembleTo assembleToChecked
  cases encoded.ops.foldlM encoded.assembleOp (encoded.assembler final_buffer) with
  | none => rfl
  | some assembler =>
    dsimp only [bind_eq_bind, bind_some]
    split
    · rename_i overruns
      rw [assembleEnd, if_pos overruns.1, overruns.2]
      rfl
    · rfl

/-- The operations find their operands in the tables. -/
@[mk_iff]
structure Supplied (encoded : EncodedProgram) (assembler : Assembler) (ops : List OP) : Prop where
  known : ∀ op ∈ ops, ∀ value, op ≠ .other value
  once : ops.count .makeBaseRelocationTable <=
    if assembler.pending_base_relocation_table then 0 else 1
  origins : ops.count .origin <= assembler.origins.length
  copy_counts : ops.count .copy <= assembler.copy_counts.length
  copy_bytes : ((assembler.copy_counts.take (ops.count .copy)).map BitVec.toNat).sum +
    ops.count .copy1 <= assembler.copy_bytes.length
  rel32_ix : ops.count .rel32 <= assembler.rel32_ix.length
  rel32_rva : ∀ index ∈ assembler.rel32_ix.take (ops.count .rel32),
    index.toNat < encoded.rel32_rva.length
  abs32_ix : ops.count .abs32 <= assembler.abs32_ix.length
  abs32_rva : ∀ index ∈ assembler.abs32_ix.take (ops.count .abs32),
    index.toNat < encoded.abs32_rva.length

/-- The addresses of the ABS32 operations, from an address on. -/
def abs32AddressesFrom : List OP -> List RVA -> List (BitVec 32) -> RVA -> List RVA
  | .origin :: ops, origin :: origins, copy_counts, _ =>
    abs32AddressesFrom ops origins copy_counts origin
  | .copy :: ops, origins, count :: copy_counts, rva =>
    abs32AddressesFrom ops origins copy_counts (rva + count)
  | .copy1 :: ops, origins, copy_counts, rva =>
    abs32AddressesFrom ops origins copy_counts (rva + 1#32)
  | .rel32 :: ops, origins, copy_counts, rva =>
    abs32AddressesFrom ops origins copy_counts (rva + 4#32)
  | .abs32 :: ops, origins, copy_counts, rva =>
    rva :: abs32AddressesFrom ops origins copy_counts (rva + 4#32)
  | .makeBaseRelocationTable :: ops, origins, copy_counts, rva =>
    abs32AddressesFrom ops origins copy_counts rva
  | _, _, _, _ => []

/-- The addresses of the ABS32 operations. -/
def abs32Addresses (encoded : EncodedProgram) : List RVA :=
  abs32AddressesFrom encoded.ops encoded.origins encoded.copy_counts 0#32

/-- An operation that finds its operands leaves theirs to the others. -/
structure Leaves (encoded : EncodedProgram) (assembler : Assembler) (op : OP)
    (next : Assembler) : Prop where
  supplied : ∀ ops, encoded.Supplied assembler (op :: ops) ↔ encoded.Supplied next ops
  addresses : ∀ ops, assembler.abs32_relocs ++ abs32AddressesFrom (op :: ops)
      assembler.origins assembler.copy_counts assembler.current_rva =
    next.abs32_relocs ++ abs32AddressesFrom ops next.origins next.copy_counts next.current_rva
  pending : next.pending_base_relocation_table =
    (assembler.pending_base_relocation_table || op == .makeBaseRelocationTable)

theorem Leaves.write {encoded : EncodedProgram} {assembler next : Assembler}
    (leaves : encoded.Leaves assembler op next) (bytes : List Byte) :
    encoded.Leaves assembler op (next.write bytes) := by
  unfold Assembler.write
  split
  · exact ⟨fun ops => (leaves.supplied ops).trans (by simp only [supplied_iff]),
      leaves.addresses, leaves.pending⟩
  · exact ⟨fun ops => (leaves.supplied ops).trans (by simp only [supplied_iff]),
      leaves.addresses, leaves.pending⟩

section

variable (encoded : EncodedProgram)

/-- An operation fails if it does not find its operands. -/
theorem assembleOp_leaves (assembler : Assembler) (op : OP) :
    match encoded.assembleOp assembler op with
    | none => ∀ ops, ¬encoded.Supplied assembler (op :: ops)
    | some next => encoded.Leaves assembler op next := by
  obtain ⟨origins, copy_counts, copy_bytes, abs32_ix, rel32_ix, current_rva, pending,
    following, final_buffer, abs32_relocs⟩ := assembler
  cases op with
  | origin =>
    cases origins with
    | nil =>
      intro ops supplied
      have none := supplied.origins
      simp at none
    | cons origin origins =>
      refine ⟨fun ops => ?_, fun ops => rfl, by simp⟩
      simp [supplied_iff]
  | makeBaseRelocationTable =>
    cases pending with
    | true =>
      intro ops supplied
      have none := supplied.once
      simp at none
    | false =>
      refine ⟨fun ops => ?_, fun ops => rfl, rfl⟩
      simp [supplied_iff]
  | other value =>
    intro ops supplied
    exact supplied.known _ mem_cons_self value rfl
  | copy =>
    cases copy_counts with
    | nil =>
      intro ops supplied
      have none := supplied.copy_counts
      simp at none
    | cons count copy_counts =>
      rcases Nat.lt_or_ge copy_bytes.length count.toNat with short | enough
      · simp only [assembleOp, Assembler.copy, if_pos short]
        intro ops supplied
        have none := supplied.copy_bytes
        simp at none
        omega
      · simp only [assembleOp, Assembler.copy, if_neg (Nat.not_lt.mpr enough)]
        refine Leaves.write ⟨fun ops => ?_, fun ops => rfl, by simp⟩ _
        simp [supplied_iff]
        omega
  | copy1 =>
    rcases Nat.lt_or_ge copy_bytes.length 1 with short | enough
    · have noBytes : copy_bytes.length < (1#32).toNat := short
      simp only [assembleOp, Assembler.copy, if_pos noBytes]
      intro ops supplied
      have none := supplied.copy_bytes
      simp at none
      omega
    · have someBytes : ¬copy_bytes.length < (1#32).toNat := Nat.not_lt.mpr enough
      simp only [assembleOp, Assembler.copy, if_neg someBytes]
      refine Leaves.write ⟨fun ops => ?_, fun ops => rfl, by simp⟩ _
      simp [supplied_iff]
      omega
  | rel32 =>
    cases rel32_ix with
    | nil =>
      intro ops supplied
      have none := supplied.rel32_ix
      simp at none
    | cons index rel32_ix =>
      cases inTable : encoded.rel32_rva[index.toNat]? with
      | none =>
        simp only [assembleOp, inTable, bind_eq_bind, bind_none]
        intro ops supplied
        have inside := supplied.rel32_rva index (by simp)
        exact absurd inside (Nat.not_lt.mpr (List.getElem?_eq_none_iff.mp inTable))
      | some rva =>
        have inside := (List.getElem?_eq_some_iff.mp inTable).1
        simp only [assembleOp, inTable, bind_eq_bind, bind_some]
        refine Leaves.write ⟨fun ops => ?_, fun ops => rfl, by simp⟩ _
        simp [supplied_iff, inside]
  | abs32 =>
    cases abs32_ix with
    | nil =>
      intro ops supplied
      have none := supplied.abs32_ix
      simp at none
    | cons index abs32_ix =>
      cases inTable : encoded.abs32_rva[index.toNat]? with
      | none =>
        simp only [assembleOp, inTable, bind_eq_bind, bind_none]
        intro ops supplied
        have inside := supplied.abs32_rva index (by simp)
        exact absurd inside (Nat.not_lt.mpr (List.getElem?_eq_none_iff.mp inTable))
      | some rva =>
        have inside := (List.getElem?_eq_some_iff.mp inTable).1
        simp only [assembleOp, inTable, bind_eq_bind, bind_some]
        refine Leaves.write ⟨fun ops => ?_, fun ops => ?_, by simp⟩ _
        · simp [supplied_iff, inside]
        · simp [abs32AddressesFrom]

theorem supplied_nil (assembler : Assembler) : encoded.Supplied assembler [] := by
  simp [supplied_iff]

theorem foldlM_assembleOp (ops : List OP) :
    ∀ assembler, match ops.foldlM encoded.assembleOp assembler with
    | none => ¬encoded.Supplied assembler ops
    | some last => encoded.Supplied assembler ops ∧
        last.abs32_relocs = assembler.abs32_relocs ++ abs32AddressesFrom ops
          assembler.origins assembler.copy_counts assembler.current_rva ∧
        last.pending_base_relocation_table = (assembler.pending_base_relocation_table ||
          ops.contains .makeBaseRelocationTable) := by
  induction ops with
  | nil =>
    intro assembler
    exact ⟨encoded.supplied_nil assembler, (append_nil _).symm, (Bool.or_false _).symm⟩
  | cons op ops ih =>
    intro assembler
    rw [foldlM_cons]
    have leaves := encoded.assembleOp_leaves assembler op
    cases stepped : encoded.assembleOp assembler op with
    | none =>
      rw [stepped] at leaves
      exact leaves ops
    | some next =>
      rw [stepped] at leaves
      have rest := ih next
      rw [bind_eq_bind, bind_some]
      generalize ops.foldlM encoded.assembleOp next = result at rest
      cases result with
      | none => exact fun supplied => rest ((leaves.supplied ops).mp supplied)
      | some last =>
        obtain ⟨supplied, relocs, pending⟩ := rest
        refine ⟨(leaves.supplied ops).mpr supplied, relocs.trans (leaves.addresses ops).symm, ?_⟩
        rw [pending, leaves.pending, contains_cons, Bool.or_assoc, Bool.beq_comm]

end

theorem generateBaseRelocations_eq_none_iff (buf : List Byte) :
    generateBaseRelocations relocs buf = none ↔ ¬PagesFit relocs := by
  constructor
  · intro none fits
    have gen := (generateBaseRelocations_iff relocs buf _).mpr ⟨fits, rfl⟩
    rw [none] at gen
    cases gen
  · intro overfull
    cases gen : generateBaseRelocations relocs buf with
    | none => rfl
    | some out =>
      exact absurd ((generateBaseRelocations_iff relocs buf out).mp gen).1 overfull

/-- Assembly returns, with all accesses in range, unless it gets as far as to
generate a table with too many relocations of a page. -/
theorem assembleToChecked_ok_iff (encoded : EncodedProgram) (final_buffer : List Byte) :
    (∃ result, encoded.assembleToChecked final_buffer = .ok result) ↔
      (encoded.Supplied (encoded.assembler final_buffer) encoded.ops ->
        .makeBaseRelocationTable ∈ encoded.ops ->
        ∀ page, (inPage page encoded.abs32Addresses).length <= kMaxRelocs) := by
  have walked := encoded.foldlM_assembleOp encoded.ops (encoded.assembler final_buffer)
  unfold assembleToChecked
  generalize encoded.ops.foldlM encoded.assembleOp (encoded.assembler final_buffer) = last at walked
  cases last with
  | none => exact iff_of_true ⟨_, rfl⟩ fun supplied => absurd supplied walked
  | some last =>
    obtain ⟨supplied, relocs, pending⟩ := walked
    have isPending : last.pending_base_relocation_table = true ↔
        .makeBaseRelocationTable ∈ encoded.ops := by
      rw [pending, ← contains_iff_mem]
      rfl
    have relocsAre : last.abs32_relocs = encoded.abs32Addresses := relocs
    constructor
    · rintro ⟨result, returned⟩ - isGenerated
      by_contra tooMany
      have none := (generateBaseRelocations_eq_none_iff last.final_buffer).mpr (relocsAre ▸ tooMany)
      dsimp only at returned
      rw [if_pos ⟨isPending.mpr isGenerated, none⟩] at returned
      cases returned
    · intro fits
      refine ⟨_, if_neg ?_⟩
      rintro ⟨isGenerated, none⟩
      rw [generateBaseRelocations_eq_none_iff, relocsAre] at none
      exact none (fits supplied (isPending.mp isGenerated))

/-- Operations that add a relocation at one address over and over. -/
def repeating (count : Nat) : EncodedProgram where
  abs32_rva := [0x2000#32]
  ops := .makeBaseRelocationTable :: (List.replicate count [.origin, .abs32]).flatten
  origins := List.replicate count 0x1000#32
  abs32_ix := List.replicate count 0#32

theorem known_repeating {n : Nat} :
    ∀ op ∈ (repeating n).ops, ∀ val, op ≠ .other val := by
  intro op mem val isOther
  subst isOther
  simp [repeating] at mem

theorem readFrom_repeating {n : Nat} (small : n < 2 ^ 31 - 1) :
    readFrom ⟨kMaxStreams, (repeating n).streamBytes⟩ = some (repeating n) := by
  refine readFrom_streamBytes ⟨?_, ?_, ?_, ?_, ?_, ?_, ?_, ?_⟩ known_repeating
    (show 0 < 2 ^ 32 by decide)
  all_goals simp only [repeating, length_cons, length_nil, length_replicate,
    length_flatten, map_replicate, sum_replicate_nat]
  all_goals omega

theorem supplied_repeating (n : Nat) :
    (repeating n).Supplied ((repeating n).assembler []) (repeating n).ops := by
  rw [supplied_iff]
  refine ⟨known_repeating, ?_⟩
  simp [repeating, assembler, count_flatten]

theorem abs32Addresses_repeating (n : Nat) :
    (repeating n).abs32Addresses = List.replicate n 0x1000#32 := by
  have addresses : ∀ rva, abs32AddressesFrom (replicate n [OP.origin, .abs32]).flatten
      (replicate n 0x1000#32) [] rva = replicate n 0x1000#32 := by
    induction n with
    | zero => exact fun _ => rfl
    | succ n ih => exact fun _ => congrArg _ (ih (0x1000#32 + 4#32))
  exact addresses 0#32

theorem not_assembleToChecked_ok : ∃ streams encoded, readFrom streams = some encoded ∧
      ¬∃ result, encoded.assembleToChecked [] = .ok result := by
  refine ⟨_, repeating (kMaxRelocs + 1), readFrom_repeating (by decide), fun returns => ?_⟩
  have fits := ((repeating _).assembleToChecked_ok_iff []).mp returns (supplied_repeating _)
    mem_cons_self 0x1000#32
  rw [abs32Addresses_repeating, inPage, filter_replicate_of_pos (by decide),
    length_replicate] at fits
  exact Nat.not_succ_le_self _ fits

end Chromium.Courgette.EncodedProgram
