import Chromium.Courgette.StreamSets
import Mathlib.Data.Fin.VecNotation
import Mathlib.Tactic.FinCases

/-!
# Encoded programs

Tables that contain a simple binary assembly language, which are written to
streams, read back and assembled.
-/

namespace Chromium.Courgette

open List Option

abbrev RVA := BitVec 32

/-- Binary assembly language operations, with the values that are none of
them. -/
inductive OP
  | origin
  | copy
  | copy1
  | rel32
  | abs32
  | makeBaseRelocationTable
  | other (value : BitVec 32)
deriving DecidableEq

namespace OP

def value : OP -> BitVec 32
  | origin => 0#32
  | copy => 1#32
  | copy1 => 2#32
  | rel32 => 3#32
  | abs32 => 4#32
  | makeBaseRelocationTable => 5#32
  | other value => value

/-- The operation that a value is cast to. -/
def ofValue (value : BitVec 32) : OP :=
  match value.toNat with
  | 0 => origin
  | 1 => copy
  | 2 => copy1
  | 3 => rel32
  | 4 => abs32
  | 5 => makeBaseRelocationTable
  | _ => other value

end OP

structure EncodedProgram where
  image_base : BitVec 64 := 0#64
  rel32_rva : List RVA := []
  abs32_rva : List RVA := []
  ops : List OP := []
  origins : List RVA := []
  copy_counts : List (BitVec 32) := []
  copy_bytes : List Byte := []
  rel32_ix : List (BitVec 32) := []
  abs32_ix : List (BitVec 32) := []
deriving DecidableEq

namespace EncodedProgram

def kUnassignedRVA : RVA := BitVec.allOnes 32

/-- `EncodedProgram::DefineLabelCommon`. The sum `index + 1` is one of
`int`. -/
def defineLabelCommon (rvas : List RVA) (index : Int) (rva : RVA) : Option (List RVA) :=
  if (rvas.length : Int) <= index then
    if index + 1 < 2 ^ 31 then
      some ((rvas ++ List.replicate (index.toNat + 1 - rvas.length)
        kUnassignedRVA).set index.toNat rva)
    else none
  else if 0 <= index then some (rvas.set index.toNat rva)
  else none

/-- `EncodedProgram::FinishLabelsCommon`, from an index on. -/
def finishLabelsFrom : RVA -> List RVA -> List RVA
  | _, [] => []
  | previous, rva :: rest =>
    if rva = kUnassignedRVA then previous :: finishLabelsFrom previous rest
    else rva :: finishLabelsFrom rva rest

variable (encoded : EncodedProgram)

/-- `EncodedProgram::EndLabels`. -/
def endLabels : EncodedProgram :=
  { encoded with
    abs32_rva := finishLabelsFrom 0#32 encoded.abs32_rva
    rel32_rva := finishLabelsFrom 0#32 encoded.rel32_rva }

/-- `EncodedProgram::AddOrigin`. -/
def addOrigin (origin : RVA) : EncodedProgram :=
  { encoded with
    ops := encoded.ops ++ [.origin]
    origins := encoded.origins ++ [origin] }

/-- `EncodedProgram::AddCopy`. -/
def addCopy (bytes : List Byte) : EncodedProgram :=
  let count := BitVec.ofNat 32 bytes.length
  -- Fold adjacent COPY instructions into one.
  let encoded :=
    if encoded.ops.getLast? = some .copy1 then
      { encoded with
        ops := encoded.ops.dropLast ++ [.copy]
        copy_counts := encoded.copy_counts ++ [1#32] }
    else encoded
  if encoded.ops.getLast? = some .copy then
    { encoded with
      copy_counts := encoded.copy_counts.modifyLast (· + count)
      copy_bytes := encoded.copy_bytes ++ bytes }
  else if count = 1#32 then
    { encoded with
      ops := encoded.ops ++ [.copy1]
      copy_bytes := encoded.copy_bytes ++ bytes }
  else
    { encoded with
      ops := encoded.ops ++ [.copy]
      copy_counts := encoded.copy_counts ++ [count]
      copy_bytes := encoded.copy_bytes ++ bytes }

/-- `EncodedProgram::AddAbs32`. -/
def addAbs32 (label_index : Int) : EncodedProgram :=
  { encoded with
    ops := encoded.ops ++ [.abs32]
    abs32_ix := encoded.abs32_ix ++ [BitVec.ofInt 32 label_index] }

/-- `EncodedProgram::AddRel32`. -/
def addRel32 (label_index : Int) : EncodedProgram :=
  { encoded with
    ops := encoded.ops ++ [.rel32]
    rel32_ix := encoded.rel32_ix ++ [BitVec.ofInt 32 label_index] }

/-- `EncodedProgram::AddMakeRelocs`. -/
def addMakeRelocs : EncodedProgram :=
  { encoded with ops := encoded.ops ++ [.makeBaseRelocationTable] }

end EncodedProgram

/-- `SinkStream::WriteSizeVarint32`, which asserts that the size fits. -/
def writeCount (count : Nat) (stream : List Byte) : Option (List Byte) :=
  if count < 2 ^ 32 then some (SinkStream.writeSizeVarint32 stream count)
  else none

/-- `WriteVector`. -/
def writeVector (items : List (BitVec 32)) (buffer : List Byte) : Option (List Byte) := do
  let buffer ← writeCount items.length buffer
  return items.foldl SinkStream.writeVarint32 buffer

/-- The loop of `WriteU32Delta`. -/
def writeDeltas : BitVec 32 -> List (BitVec 32) -> List Byte -> List Byte
  | _, [], buffer => buffer
  | prev, current :: rest, buffer =>
    writeDeltas current rest (SinkStream.writeVarint32 buffer (current - prev))

/-- `WriteU32Delta`. -/
def writeU32Delta (set : List (BitVec 32)) (buffer : List Byte) : Option (List Byte) := do
  let buffer ← writeCount set.length buffer
  return writeDeltas 0#32 set buffer

/-- `WriteVectorU8`. -/
def writeVectorU8 (items buffer : List Byte) : Option (List Byte) := do
  let buffer ← writeCount items.length buffer
  return SinkStream.write buffer items

/-- The loop of `ReadVector`. -/
def readItems : Nat -> List Byte -> Option (List (BitVec 32) × List Byte)
  | 0, buffer => some ([], buffer)
  | count + 1, buffer => do
      let (item, buffer) ← SourceStream.readVarint32 buffer
      let (items, buffer) ← readItems count buffer
      return (item :: items, buffer)

/-- `ReadVector`. -/
def readVector (buffer : List Byte) : Option (List (BitVec 32) × List Byte) := do
  let (count, buffer) ← SourceStream.readVarint32 buffer
  readItems count.toNat buffer

/-- The loop of `ReadU32Delta`. -/
def readDeltas : Nat -> BitVec 32 -> List Byte -> Option (List (BitVec 32) × List Byte)
  | 0, _, buffer => some ([], buffer)
  | count + 1, prev, buffer => do
      let (delta, buffer) ← SourceStream.readVarint32 buffer
      let (items, buffer) ← readDeltas count (prev + delta) buffer
      return ((prev + delta) :: items, buffer)

/-- `ReadU32Delta`. -/
def readU32Delta (buffer : List Byte) : Option (List (BitVec 32) × List Byte) := do
  let (count, buffer) ← SourceStream.readVarint32 buffer
  readDeltas count.toNat 0#32 buffer

/-- `ReadVectorU8`. -/
def readVectorU8 (buffer : List Byte) : Option (List Byte × List Byte) := do
  let (count, buffer) ← SourceStream.readVarint32 buffer
  SourceStream.read buffer count.toNat

/-- Write to one of the streams, where that may fail. -/
def SinkStreamSet.modifyM (set : SinkStreamSet) (index : Fin kMaxStreams)
    (change : List Byte -> Option (List Byte)) : Option SinkStreamSet :=
  (change (set.streams index)).map fun stream =>
    { set with streams := Function.update set.streams index stream }

/-- Read from one of the streams. -/
def SourceStreamSet.readM (set : SourceStreamSet) (index : Fin kMaxStreams)
    (reader : List Byte -> Option (α × List Byte)) :
    Option (α × SourceStreamSet) :=
  (reader (set.streams index)).map fun (value, stream) =>
    (value, { set with streams := Function.update set.streams index stream })

def kStreamMisc : Fin kMaxStreams := 0
def kStreamOps : Fin kMaxStreams := 1
def kStreamBytes : Fin kMaxStreams := 2
def kStreamAbs32Indexes : Fin kMaxStreams := 3
def kStreamRel32Indexes : Fin kMaxStreams := 4
def kStreamAbs32Addresses : Fin kMaxStreams := 5
def kStreamRel32Addresses : Fin kMaxStreams := 6
def kStreamCopyCounts : Fin kMaxStreams := 7
def kStreamOriginAddresses : Fin kMaxStreams := kStreamMisc

def kStreamLimit : Nat := 9

namespace EncodedProgram

/-- `EncodedProgram::WriteTo`, with all fields selected. -/
def writeTo (encoded : EncodedProgram) (streams : SinkStreamSet) : Option SinkStreamSet := do
  let streams := streams.modify kStreamMisc fun stream =>
    SinkStream.writeVarint32 stream (encoded.image_base.setWidth 32)
  let streams ← streams.modifyM kStreamAbs32Addresses (writeU32Delta encoded.abs32_rva)
  let streams ← streams.modifyM kStreamRel32Addresses (writeU32Delta encoded.rel32_rva)
  let streams ← streams.modifyM kStreamOriginAddresses (writeVector encoded.origins)
  let streams ← streams.modifyM kStreamOps (writeVector (encoded.ops.map OP.value))
  let streams ← streams.modifyM kStreamCopyCounts (writeVector encoded.copy_counts)
  let streams ← streams.modifyM kStreamBytes (writeVectorU8 encoded.copy_bytes)
  let streams ← streams.modifyM kStreamAbs32Indexes (writeVector encoded.abs32_ix)
  streams.modifyM kStreamRel32Indexes (writeVector encoded.rel32_ix)

/-- `EncodedProgram::ReadFrom` of a new program. -/
def readFrom (streams : SourceStreamSet) : Option EncodedProgram := do
  let (temp, streams) ← streams.readM kStreamMisc SourceStream.readVarint32
  let (abs32_rva, streams) ← streams.readM kStreamAbs32Addresses readU32Delta
  let (rel32_rva, streams) ← streams.readM kStreamRel32Addresses readU32Delta
  let (origins, streams) ← streams.readM kStreamOriginAddresses readVector
  let (ops, streams) ← streams.readM kStreamOps readVector
  let (copy_counts, streams) ← streams.readM kStreamCopyCounts readVector
  let (copy_bytes, streams) ← streams.readM kStreamBytes readVectorU8
  let (abs32_ix, streams) ← streams.readM kStreamAbs32Indexes readVector
  let (rel32_ix, streams) ← streams.readM kStreamRel32Indexes readVector
  -- Check that streams have been completely consumed.
  if (SinkStreamSet.indices kStreamLimit).any fun index => 0 < (streams.streams index).length then
    none
  else
    return {
      image_base := temp.setWidth 64
      rel32_rva, abs32_rva
      ops := ops.map OP.ofValue
      origins, copy_counts, copy_bytes, rel32_ix, abs32_ix
    }

end EncodedProgram

/-!
## Tables read back

`ReadFrom` reads the tables of the encoded program that `WriteTo` wrote to new
streams.
-/

section

variable (items : List (BitVec 32))

/-- The bytes of a vector: its size and its items. -/
def vectorBytes : List Byte := encode32 (BitVec.ofNat 32 items.length) ++ items.flatMap encode32

def deltas : BitVec 32 -> List (BitVec 32) -> List (BitVec 32)
  | _, [] => []
  | prev, current :: rest => (current - prev) :: deltas current rest

theorem length_deltas (prev : BitVec 32) : (deltas prev items).length = items.length := by
  induction items generalizing prev with
  | nil => rfl
  | cons current rest ih => rw [deltas, length_cons, length_cons, ih]

theorem writeCount_eq (n : Nat) (buf : List Byte) : writeCount n buf =
      if n < 2 ^ 32 then some (buf ++ encode32 (BitVec.ofNat 32 n))
      else none :=
  rfl

theorem foldl_writeVarint32 :
    items.foldl SinkStream.writeVarint32 buffer = buffer ++ items.flatMap encode32 := by
  induction items generalizing buffer with
  | nil => exact (append_nil buffer).symm
  | cons item rest ih =>
    rw [foldl_cons, ih, flatMap_cons, ← append_assoc]
    rfl

theorem writeVector_eq (buf : List Byte) : writeVector items buf =
      if items.length < 2 ^ 32 then some (buf ++ vectorBytes items)
      else none := by
  rw [writeVector, writeCount_eq]
  split_ifs
  · simp only [bind_eq_bind, bind_some, foldl_writeVarint32, vectorBytes, append_assoc]
    rfl
  · rfl

theorem writeDeltas_eq (prev : BitVec 32) :
    writeDeltas prev items buffer = buffer ++ (deltas prev items).flatMap encode32 := by
  induction items generalizing prev buffer with
  | nil => exact (append_nil buffer).symm
  | cons current rest ih =>
    rw [writeDeltas, ih, deltas, flatMap_cons, ← append_assoc]
    rfl

theorem writeU32Delta_eq (buf : List Byte) :
    writeU32Delta items buf = if items.length < 2 ^ 32 then
        some (buf ++ vectorBytes (deltas 0#32 items))
      else none := by
  rw [writeU32Delta, writeCount_eq]
  split_ifs
  · simp only [bind_eq_bind, bind_some, writeDeltas_eq, vectorBytes, length_deltas, append_assoc]
    rfl
  · rfl

/-- The bytes of a vector of bytes. -/
def vectorU8Bytes (items : List Byte) : List Byte :=
  encode32 (BitVec.ofNat 32 items.length) ++ items

theorem writeVectorU8_eq (items buf : List Byte) : writeVectorU8 items buf =
      if items.length < 2 ^ 32 then some (buf ++ vectorU8Bytes items)
      else none := by
  rw [writeVectorU8, writeCount_eq]
  split_ifs
  · simp only [bind_eq_bind, bind_some, vectorU8Bytes, SinkStream.write, append_assoc]
    rfl
  · rfl

theorem toNat_count {n : Nat} (fits : n < 2 ^ 32) :
    (BitVec.ofNat 32 n).toNat = n := by
  rw [BitVec.toNat_ofNat, Nat.mod_eq_of_lt fits]

theorem readItems_append :
    readItems items.length (items.flatMap encode32 ++ rest) = some (items, rest) := by
  induction items with
  | nil => rfl
  | cons item later ih =>
    rw [length_cons, readItems, flatMap_cons, append_assoc, SourceStream.readVarint32_append]
    simp only [bind_eq_bind, bind_some, ih]
    rfl

end

theorem readVector_append {items : List (BitVec 32)} (fits : items.length < 2 ^ 32)
    (rest : List Byte) :
    readVector (vectorBytes items ++ rest) = some (items, rest) := by
  rw [readVector, vectorBytes, append_assoc, SourceStream.readVarint32_append]
  simp only [bind_eq_bind, bind_some, toNat_count fits, readItems_append]

theorem readDeltas_append (prev : BitVec 32) (items : List (BitVec 32)) :
    readDeltas items.length prev
        ((deltas prev items).flatMap encode32 ++ rest) = some (items, rest) := by
  induction items generalizing prev with
  | nil => rfl
  | cons item later ih =>
    have sum : prev + (item - prev) = item := by rw [BitVec.add_comm, BitVec.sub_add_cancel]
    rw [length_cons, readDeltas, deltas, flatMap_cons,
      append_assoc, SourceStream.readVarint32_append]
    simp only [bind_eq_bind, bind_some, sum, ih]
    rfl

theorem readU32Delta_append {items : List (BitVec 32)} (fits : items.length < 2 ^ 32)
    (rest : List Byte) :
    readU32Delta (vectorBytes (deltas 0#32 items) ++ rest) = some (items, rest) := by
  rw [readU32Delta, vectorBytes, append_assoc, SourceStream.readVarint32_append, length_deltas]
  simp only [bind_eq_bind, bind_some, toNat_count fits, readDeltas_append]

theorem readVectorU8_append {items : List Byte} (fits : items.length < 2 ^ 32) (rest : List Byte) :
    readVectorU8 (vectorU8Bytes items ++ rest) = some (items, rest) := by
  rw [readVectorU8, vectorU8Bytes, append_assoc, SourceStream.readVarint32_append]
  simp only [bind_eq_bind, bind_some, toNat_count fits, SourceStream.read_append]

theorem OP.ofValue_value (op : OP) (known : ∀ val, op ≠ .other val) :
    OP.ofValue op.value = op := by
  cases op with
  | other val => exact absurd rfl (known val)
  | origin => rfl
  | copy => rfl
  | copy1 => rfl
  | rel32 => rfl
  | abs32 => rfl
  | makeBaseRelocationTable => rfl

namespace EncodedProgram

/-- The sizes of all tables fit in a word. -/
structure TablesFit (encoded : EncodedProgram) : Prop where
  rel32_rva : encoded.rel32_rva.length < 2 ^ 32
  abs32_rva : encoded.abs32_rva.length < 2 ^ 32
  ops : encoded.ops.length < 2 ^ 32
  origins : encoded.origins.length < 2 ^ 32
  copy_counts : encoded.copy_counts.length < 2 ^ 32
  copy_bytes : encoded.copy_bytes.length < 2 ^ 32
  rel32_ix : encoded.rel32_ix.length < 2 ^ 32
  abs32_ix : encoded.abs32_ix.length < 2 ^ 32

/-- The bytes that are written to each stream. -/
def streamBytes (encoded : EncodedProgram) : StreamArray :=
  (![encode32 (encoded.image_base.setWidth 32) ++ vectorBytes encoded.origins,
    vectorBytes (encoded.ops.map OP.value),
    vectorU8Bytes encoded.copy_bytes,
    vectorBytes encoded.abs32_ix,
    vectorBytes encoded.rel32_ix,
    vectorBytes (deltas 0#32 encoded.abs32_rva),
    vectorBytes (deltas 0#32 encoded.rel32_rva),
    vectorBytes encoded.copy_counts,
    [],
    []] : Fin 10 -> List Byte)

/-- A table is written if its size fits. -/
theorem modifyM_iff [Decidable fits]
    (writes : ∀ buf, change buf = if fits then some (buf ++ bytes) else none)
    (set : SinkStreamSet) (i : Fin kMaxStreams)
    (next : SinkStreamSet -> Option SinkStreamSet)
    (out : SinkStreamSet) :
    ((set.modifyM i change).bind next = some out) ↔
      fits ∧ next (set.modify i (· ++ bytes)) = some out := by
  rw [SinkStreamSet.modifyM, writes]
  by_cases fit : fits
  · rw [if_pos fit, and_iff_right fit]
    rfl
  · rw [if_neg fit]
    exact iff_of_false (by simp) fun inv => fit inv.1

/-- Writing succeeds if and only if all sizes fit. -/
theorem writeTo_fresh_iff (encoded : EncodedProgram) (streams : SinkStreamSet) :
    encoded.writeTo .fresh = some streams ↔
      TablesFit encoded ∧ streams = ⟨kMaxStreams, encoded.streamBytes⟩ := by
  have final : ∀ set : SinkStreamSet,
      set.modifyM kStreamRel32Indexes (writeVector encoded.rel32_ix) =
        (set.modifyM kStreamRel32Indexes (writeVector encoded.rel32_ix)).bind
          some := fun set => (bind_fun_some _).symm
  unfold writeTo
  simp only [bind_eq_bind]
  rw [modifyM_iff (writeU32Delta_eq _), modifyM_iff (writeU32Delta_eq _),
    modifyM_iff (writeVector_eq _), modifyM_iff (writeVector_eq _),
    modifyM_iff (writeVector_eq _), modifyM_iff (writeVectorU8_eq _),
    modifyM_iff (writeVector_eq _), final, modifyM_iff (writeVector_eq _),
    some_inj, length_map]
  have written : ((((((((SinkStreamSet.fresh.modify kStreamMisc fun stream =>
      SinkStream.writeVarint32 stream (encoded.image_base.setWidth 32)).modify
      kStreamAbs32Addresses (· ++ vectorBytes (deltas 0#32 encoded.abs32_rva))).modify
      kStreamRel32Addresses (· ++ vectorBytes (deltas 0#32 encoded.rel32_rva))).modify
      kStreamOriginAddresses (· ++ vectorBytes encoded.origins)).modify
      kStreamOps (· ++ vectorBytes (encoded.ops.map OP.value))).modify
      kStreamCopyCounts (· ++ vectorBytes encoded.copy_counts)).modify
      kStreamBytes (· ++ vectorU8Bytes encoded.copy_bytes)).modify
      kStreamAbs32Indexes (· ++ vectorBytes encoded.abs32_ix)).modify
      kStreamRel32Indexes (· ++ vectorBytes encoded.rel32_ix) =
        ⟨kMaxStreams, encoded.streamBytes⟩ := by
    refine congrArg (SinkStreamSet.mk kMaxStreams) ?_
    funext index
    fin_cases index <;> rfl
  rw [written]
  constructor
  · rintro ⟨abs32, rel32, origins, ops, counts, bytes, absIx, relIx, rfl⟩
    exact ⟨⟨rel32, abs32, ops, origins, counts, bytes, relIx, absIx⟩, rfl⟩
  · rintro ⟨fit, rfl⟩
    exact ⟨fit.abs32_rva, fit.rel32_rva, fit.origins, fit.ops, fit.copy_counts,
      fit.copy_bytes, fit.abs32_ix, fit.rel32_ix, rfl⟩

/-- A table is read from the front of a stream. -/
theorem readM_of
    (reads : ∀ rest, reader (bytes ++ rest) = some (val, rest)) (i : Fin kMaxStreams)
    (rest : List Byte)
    (atFront : streams i = bytes ++ rest) :
    SourceStreamSet.readM ⟨kMaxStreams, streams⟩ i reader =
      some (val, ⟨kMaxStreams, Function.update streams i rest⟩) := by
  rw [SourceStreamSet.readM]
  dsimp only
  rw [atFront, reads]
  rfl

theorem readFrom_streamBytes (fit : TablesFit encoded)
    (known : ∀ op ∈ encoded.ops, ∀ val, op ≠ .other val)
    (small : encoded.image_base.toNat < 2 ^ 32) :
    readFrom ⟨kMaxStreams, encoded.streamBytes⟩ = some encoded := by
  have base : (encoded.image_base.setWidth 32).setWidth 64 = encoded.image_base := by
    apply BitVec.eq_of_toNat_eq
    rw [BitVec.toNat_setWidth, BitVec.toNat_setWidth]
    omega
  have ops : (encoded.ops.map OP.value).map OP.ofValue = encoded.ops := by
    rw [List.map_map]
    conv_rhs => rw [← List.map_id encoded.ops]
    apply map_congr_left
    intro op mem
    exact OP.ofValue_value op (known op mem)
  have opsFit : (encoded.ops.map OP.value).length < 2 ^ 32 := by
    rw [length_map]
    exact fit.ops
  unfold readFrom
  simp only [bind_eq_bind]
  rw [readM_of SourceStream.readVarint32_append kStreamMisc
      (vectorBytes encoded.origins) rfl, bind_some,
    readM_of (readU32Delta_append fit.abs32_rva) kStreamAbs32Addresses []
      (append_nil _).symm, bind_some,
    readM_of (readU32Delta_append fit.rel32_rva) kStreamRel32Addresses []
      (append_nil _).symm, bind_some,
    readM_of (readVector_append fit.origins) kStreamOriginAddresses []
      (append_nil _).symm, bind_some,
    readM_of (readVector_append opsFit) kStreamOps [] (append_nil _).symm, bind_some,
    readM_of (readVector_append fit.copy_counts) kStreamCopyCounts []
      (append_nil _).symm, bind_some,
    readM_of (readVectorU8_append fit.copy_bytes) kStreamBytes [] (append_nil _).symm, bind_some,
    readM_of (readVector_append fit.abs32_ix) kStreamAbs32Indexes [] (append_nil _).symm, bind_some,
    readM_of (readVector_append fit.rel32_ix) kStreamRel32Indexes [] (append_nil _).symm, bind_some]
  refine (if_neg Bool.false_ne_true).trans ?_
  rw [base, ops]
  rfl

end EncodedProgram

end Chromium.Courgette
