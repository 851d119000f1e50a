import Chromium.Library.Bytes
import Chromium.Library.LastWrite

/-!
# Sparse data of the memory cache

The sparse stream of `MemEntryImpl`: a parent entry cuts the offsets of its
sparse data into children, each of which keeps one window of bytes. The
ranking list, logging and eviction are left out.
-/

namespace Chromium.DiskCache

open List Option Function Int Prod

section

open Library

/-- The network errors of the sparse operations. -/
inductive NetError
  | failed
  | invalidArgument
  | cacheOperationNotSupported
  deriving DecidableEq

def kMaxSparseEntryBits : Nat := 12

def kMaxSparseEntrySize : Nat := 2 ^ kMaxSparseEntryBits

/-- `ToChildIndex`; the cast to `int` keeps the low 32 bits. -/
def toChildIndex (offset : Int) : Int := (offset / 2 ^ kMaxSparseEntryBits).bmod (2 ^ 32)

/-- `ToChildOffset`. -/
def toChildOffset (offset : Int) : Nat := (offset % 2 ^ kMaxSparseEntryBits).toNat

/-- The sparse stream of an entry: its vector, how much of it counts, and
`child_first_pos_`. -/
structure MemChild where
  data : Bytes
  dataSize : Nat
  firstPos : Nat
  deriving DecidableEq

namespace MemChild

/-- The stream of a new entry. -/
def fresh : MemChild := ⟨[], 0, 0⟩

/-- `PrepareTarget`. -/
def prepareTarget (child : MemChild) (offset bufLen : Nat) : MemChild :=
  if child.dataSize ≥ offset + bufLen then child
  else
    let grown := child.data ++ List.replicate (offset + bufLen - child.data.length) (0 : UInt8)
    if offset <= child.dataSize then { child with data := grown }
    else
      { child with
        data := overwrite grown child.dataSize (List.replicate (offset - child.dataSize) 0) }

/-- `InternalWriteData` on the sparse stream, for an offset that is not
negative. -/
def internalWriteData (maxFileSize : Int) (child : MemChild) (offset : Nat) (buf : Bytes)
    (truncate : Bool) : MemChild × Except NetError Nat :=
  if (offset : Int) > maxFileSize ∨ (buf.length : Int) > maxFileSize ∨
      ((offset + buf.length : Nat) : Int) > maxFileSize then
    (child, .error .failed)
  else
    let prepared := child.prepareTarget offset buf.length
    let dataSize :=
      if child.dataSize < offset + buf.length then offset + buf.length
      else if truncate then
        if child.dataSize > offset + buf.length then offset + buf.length
        else child.dataSize
      else child.dataSize
    let sized := { prepared with dataSize := dataSize }
    if buf.isEmpty then (sized, .ok 0)
    else ({ sized with data := overwrite sized.data offset buf }, .ok buf.length)

/-- `InternalReadData` on the sparse stream, for an offset and a length that
are not negative. The sum of the two is an `int`; `behind` is what stands in
memory behind the vector. -/
def internalReadData (behind : Nat → UInt8) (child : MemChild) (offset bufLen : Nat) : Bytes :=
  if offset ≥ child.dataSize ∨ bufLen = 0 then []
  else
    let count :=
      if ((offset + bufLen : Nat) : Int).bmod (2 ^ 32) > child.dataSize then child.dataSize - offset
      else bufLen
    (List.range count).map fun index => child.data.getD (offset + index) (behind (offset + index))

end MemChild

/-- A parent entry: its own sparse stream, and its children once it is
sparse; the parent itself is the child of index 0. -/
structure MemEntry where
  own : MemChild
  children : Option (Int -> Option MemChild)

namespace MemEntry

/-- A new entry. -/
def fresh : MemEntry := ⟨.fresh, none⟩

/-- `InitSparseInfo`; it fails on an entry that has other data in the sparse
stream. -/
def initSparseInfo (entry : MemEntry) : Option (Int -> Option MemChild) :=
  match entry.children with
  | some children => some children
  | none =>
    if entry.own.dataSize ≠ 0 then none
    else some (Function.update (fun _ => none) 0 (some entry.own))

/-- The loop of `InternalReadSparseData`, with the bytes consumed so far. -/
def readLoop (behind : Nat -> UInt8) (children : Int -> Option MemChild) (offset : Int) :
    Nat -> Nat -> Bytes -> Bytes
  | 0, _, consumed => consumed
  | rounds + 1, remaining, consumed =>
    if remaining = 0 then consumed
    else
      match children (toChildIndex (offset + consumed.length)) with
      | none => consumed
      | some child =>
        let childOffset := toChildOffset (offset + consumed.length)
        if childOffset < child.firstPos then consumed
        else
          let bytes := child.internalReadData behind childOffset remaining
          if bytes.isEmpty then consumed
          else readLoop behind children offset rounds (remaining - bytes.length) (consumed ++ bytes)

/-- `InternalReadSparseData`. -/
def internalReadSparseData (behind : Nat -> UInt8) (entry : MemEntry)
    (offset bufLen : Int) : MemEntry × Except NetError Bytes :=
  match entry.initSparseInfo with
  | none => (entry, .error .cacheOperationNotSupported)
  | some children =>
    let entry := { entry with children := some children }
    if offset < 0 ∨ bufLen < 0 then (entry, .error .invalidArgument)
    else (entry, .ok (readLoop behind children offset bufLen.toNat bufLen.toNat []))

/-- The loop of `InternalWriteSparseData`, with the number of bytes consumed
so far. -/
def writeLoop (maxFileSize : Int) (offset : Int) :
    Nat → (Int → Option MemChild) → Bytes → Nat → (Int → Option MemChild) × Except NetError Nat
  | 0, children, _, consumed => (children, .ok consumed)
  | rounds + 1, children, remaining, consumed =>
    if remaining.isEmpty then (children, .ok consumed)
    else
      let index := toChildIndex (offset + consumed)
      let child := (children index).getD .fresh
      let childOffset := toChildOffset (offset + consumed)
      let writeLen := min remaining.length (kMaxSparseEntrySize - childOffset)
      let (written, result) :=
        child.internalWriteData maxFileSize childOffset (remaining.take writeLen) true
      match result with
      | .error error => (Function.update children index (some written), .error error)
      | .ok 0 => (Function.update children index (some written), .ok consumed)
      | .ok (ret + 1) =>
        let written :=
          if child.dataSize ≠ childOffset then { written with firstPos := childOffset }
          else written
        writeLoop maxFileSize offset rounds (Function.update children index (some written))
          (remaining.drop (ret + 1)) (consumed + (ret + 1))

/-- `InternalWriteSparseData`. -/
def internalWriteSparseData (maxFileSize : Int) (entry : MemEntry) (offset : Int)
    (buf : Bytes) : MemEntry × Except NetError Nat :=
  match entry.initSparseInfo with
  | none => (entry, .error .cacheOperationNotSupported)
  | some children =>
    if offset < 0 then ({ entry with children := some children }, .error .invalidArgument)
    else
      let (children, result) := writeLoop maxFileSize offset buf.length children buf 0
      ({ entry with children := some children }, result)

end MemEntry

end

/-!
## Sparse reads return what was written

The window of every child holds the bytes last written to its cells. A cell
is shared by the positions whose child index differs by a multiple of 2^32,
which the cast of the index to `int` forgets.
-/

section

open Library

/-- The child and the offset in it that keep a position. -/
def cellOf (pos : Int) : Int × Nat := (toChildIndex pos, toChildOffset pos)

theorem toChildOffset_lt (pos : Int) : toChildOffset pos < kMaxSparseEntrySize := by
  simp only [toChildOffset, kMaxSparseEntrySize, kMaxSparseEntryBits]
  omega

/-- The positions of one child follow one another. -/
theorem cellOf_add (lt : toChildOffset pos + index < kMaxSparseEntrySize) :
    cellOf (pos + index) = (toChildIndex pos, toChildOffset pos + index) := by
  simp only [toChildOffset, kMaxSparseEntrySize, kMaxSparseEntryBits] at lt
  have sameBlock : (pos + index) / 2 ^ 12 = pos / 2 ^ 12 := by omega
  have nextOffset : ((pos + index) % 2 ^ 12).toNat = (pos % 2 ^ 12).toNat + index := by
    omega
  rw [cellOf, toChildIndex, toChildIndex, toChildOffset, toChildOffset,
    kMaxSparseEntryBits, sameBlock, nextOffset]

theorem toChildOffset_add_le (pos : Int) (len : Nat) :
    toChildOffset (pos + len) <= toChildOffset pos + len := by
  simp only [toChildOffset, kMaxSparseEntryBits]
  omega

/-- Positions share a cell when they differ by a multiple of 2^44. -/
theorem cellOf_eq_iff : cellOf pos = cellOf other ↔ pos % 2 ^ 44 = other % 2 ^ 44 := by
  simp only [cellOf, toChildIndex, toChildOffset, kMaxSparseEntryBits, Prod.mk.injEq]
  have blocks : (pos / 2 ^ 12).bmod (2 ^ 32) = (other / 2 ^ 12).bmod (2 ^ 32) ↔
        pos / 2 ^ 12 % 2 ^ 32 = other / 2 ^ 12 % 2 ^ 32 := by
    constructor
    · intro same
      have reduced := congrArg (fun val : Int => val % 2 ^ 32) same
      have back : ∀ val : Int, val.bmod (2 ^ 32) % 2 ^ 32 = val % 2 ^ 32 := by
        intro val
        exact_mod_cast bmod_emod
      simpa only [back] using reduced
    · intro same
      have reduced := congrArg (fun val : Int => val.bmod (2 ^ 32)) same
      have back : ∀ val : Int, (val % 2 ^ 32).bmod (2 ^ 32) = val.bmod (2 ^ 32) := by
        intro val
        exact_mod_cast emod_bmod val (2 ^ 32)
      simpa only [back] using reduced
  rw [blocks]
  omega

/-- The window of a stream has the bytes of its cells. -/
structure MemChild.Holds (child : MemChild) (cells : Nat -> Option UInt8) : Prop where
  vector : child.dataSize <= child.data.length
  short : child.dataSize <= kMaxSparseEntrySize
  window : ∀ offset, child.firstPos <= offset -> offset < child.dataSize ->
    cells offset = child.data[offset]?

namespace MemChild

theorem fresh_holds (cells : Nat -> Option UInt8) : fresh.Holds cells where
  vector := Nat.le_refl _
  short := Nat.zero_le _
  window _ _ none := absurd none (Nat.not_lt_zero _)

/-- `PrepareTarget` makes room and keeps the data. -/
theorem prepareTarget_spec {child : MemChild} (vector : child.dataSize <= child.data.length)
    (off bufLen : Nat) :
    let prepared := child.prepareTarget off bufLen
    off + bufLen <= prepared.data.length ∧ prepared.firstPos = child.firstPos ∧
      ∀ i < child.dataSize, prepared.data[i]? = child.data[i]? := by
  have kept : ∀ i < child.dataSize, (child.data ++
        replicate (off + bufLen - child.data.length) (0 : UInt8))[i]? = child.data[i]? :=
    fun i inside => getElem?_append_left (by omega)
  unfold prepareTarget
  split
  · exact ⟨by omega, rfl, fun _ _ => rfl⟩
  split
  · refine ⟨?_, rfl, kept⟩
    simp only [length_append, length_replicate]
    omega
  · refine ⟨?_, rfl, ?_⟩
    · rw [length_overwrite]
      · simp only [length_append, length_replicate]
        omega
      · simp only [length_append, length_replicate]
        omega
    · intro i inside
      rw [getElem?_overwrite_before _ inside]
      · exact kept i inside
      · simp only [length_append, length_replicate]
        omega

/-- A write that truncates, with the adjustment of `child_first_pos_` that
follows it, keeps the window. -/
theorem internalWriteData_holds {child written : MemChild} (inv : child.Holds cells)
    (fits : off + buf.length <= kMaxSparseEntrySize)
    (accepted : child.internalWriteData maxFileSize off buf true = (written, .ok (ret + 1)))
    (lt : ∀ i < buf.length, cells' (off + i) = buf[i]?)
    (before : ∀ other < off, cells' other = cells other) :
    ret + 1 = buf.length ∧ (if child.dataSize ≠ off then { written with firstPos := off }
      else written).Holds cells' := by
  obtain ⟨room, firstPos, kept⟩ := prepareTarget_spec inv.vector off buf.length
  generalize preparedIs : child.prepareTarget off buf.length = prepared at room firstPos kept
  have sized : (if child.dataSize < off + buf.length then off + buf.length
        else if child.dataSize > off + buf.length then off + buf.length
        else child.dataSize) = off + buf.length := by
    split
    · rfl
    · split <;> omega
  unfold internalWriteData at accepted
  rw [preparedIs] at accepted
  simp only [if_true, sized] at accepted
  split at accepted
  · exact absurd (congrArg Prod.snd accepted) nofun
  split at accepted
  · exact absurd (congrArg Prod.snd accepted) nofun
  obtain ⟨rfl, n⟩ := Prod.mk.inj accepted
  have len : buf.length = ret + 1 := Except.ok.inj n
  refine ⟨len.symm, ?_⟩
  -- What the window shows, on either side of the written bytes.
  have shown : ∀ i, i < off + buf.length ->
      (off <= i ∨ (child.firstPos <= i ∧ child.dataSize = off)) ->
      cells' i = (overwrite prepared.data off buf)[i]? := by
    intro i high low
    by_cases early : i < off
    · obtain ⟨first, continued⟩ := low.resolve_left (by omega)
      rw [getElem?_overwrite_before (by omega) early, kept i (by omega), before i early]
      exact inv.window i first (by omega)
    · obtain ⟨further, rfl⟩ := Nat.exists_eq_add_of_le (Nat.le_of_not_lt early)
      rw [getElem?_overwrite_inside (by omega) (by omega)]
      exact lt further (by omega)
  have vector : off + buf.length <= (overwrite prepared.data off buf).length := by
    rw [length_overwrite room]
    exact room
  split
  · exact ⟨vector, fits, fun i low high => shown i high (.inl low)⟩
  · rename_i continued
    refine ⟨vector, fits, fun i low high => shown i high (.inr ?_)⟩
    exact ⟨firstPos ▸ low, not_not.mp continued⟩

/-- A read returns bytes of the window. -/
theorem internalReadData_holds {child : MemChild} (behind : Nat -> UInt8)
    (inv : child.Holds cells) (first : child.firstPos <= offset)
    (fits : offset + bufLen < 2 ^ 31) :
    let bytes := child.internalReadData behind offset bufLen
    bytes.length <= bufLen ∧ (bytes ≠ [] -> offset + bytes.length <= kMaxSparseEntrySize) ∧
      ∀ i < bytes.length, cells (offset + i) = bytes[i]? := by
  have sum : ((offset + bufLen : Nat) : Int).bmod (2 ^ 32) = (offset + bufLen : Nat) := by
    apply bmod_eq_of_le <;> omega
  unfold internalReadData
  split
  · exact ⟨Nat.zero_le _, fun some => absurd rfl some,
      fun _ inside => absurd inside (Nat.not_lt_zero _)⟩
  · rename_i some
    generalize countIs : (if ((offset + bufLen : Nat) : Int).bmod (2 ^ 32) > child.dataSize then
        child.dataSize - offset
      else bufLen) = count
    have counted : count <= bufLen ∧ offset + count <= child.dataSize := by
      rw [← countIs, sum]
      split <;> omega
    have short := inv.short
    have vector := inv.vector
    dsimp only
    rw [length_map, length_range]
    refine ⟨counted.1, fun _ => by omega, ?_⟩
    intro i inside
    have within : offset + i < child.data.length := by omega
    rw [inv.window (offset + i) (by omega) (by omega),
      getElem?_map, getElem?_range inside, map_some,
      getD_eq_getElem?_getD, List.getElem?_eq_getElem within,
      getD_some]

end MemChild

/-- The children hold the bytes of their cells. -/
def Faithful (children : Int -> Option MemChild) (cells : Int × Nat -> Option UInt8) : Prop :=
  ∀ index child, children index = some child -> child.Holds fun offset => cells (index, offset)

theorem Faithful.update (faithful : Faithful children cells)
    (window : child.Holds fun off => cells' (i, off))
    (others : ∀ other off, other ≠ i -> cells' (other, off) = cells (other, off)) :
    Faithful (Function.update children i (some child)) cells' := by
  intro other present isPresent
  by_cases here : other = i
  · subst here
    rw [update_self] at isPresent
    rw [← some.inj isPresent]
    exact window
  · rw [update_of_ne here] at isPresent
    have same : (fun off => cells' (other, off)) = fun off => cells (other, off) := by
      funext off
      exact others other off here
    rw [same]
    exact faithful other present isPresent

namespace MemEntry

theorem writeLoop_faithful {children written : Int -> Option MemChild}
    (faithful : Faithful children cells)
    (accepted : writeLoop maxFileSize off rounds children remaining consumed =
        (written, .ok (consumed + remaining.length))) :
    Faithful written (writeCells cellOf cells (off + consumed) remaining) := by
  induction rounds generalizing children cells remaining consumed with
  | zero =>
    obtain ⟨rfl, n⟩ := Prod.mk.inj accepted
    have none : remaining = [] := by
      have counted := Except.ok.inj n
      exact eq_nil_of_length_eq_zero (by omega)
    rw [none]
    exact faithful
  | succ rounds ih =>
    rw [writeLoop] at accepted
    by_cases none : remaining = []
    · subst none
      obtain ⟨rfl, -⟩ := Prod.mk.inj accepted
      exact faithful
    have some : 0 < remaining.length := length_pos_iff.mpr none
    rw [if_neg (by simpa using none)] at accepted
    dsimp only at accepted
    generalize indexIs : toChildIndex (off + consumed) = i at accepted
    generalize childIs : (children i).getD .fresh = child at accepted
    generalize childOffsetIs : toChildOffset (off + consumed) = childOffset at accepted
    generalize writeLenIs : min remaining.length (kMaxSparseEntrySize - childOffset) = writeLen
      at accepted
    have within : childOffset < kMaxSparseEntrySize := childOffsetIs ▸ toChildOffset_lt _
    have chunk : (remaining.take writeLen).length = writeLen := length_take_of_le (by omega)
    have place : ∀ further < writeLen, cellOf (off + consumed + further) =
          (i, childOffset + further) := by
      intro further lt
      rw [cellOf_add (by omega), indexIs, childOffsetIs]
    have inv : child.Holds fun off => cells (i, off) := by
      cases present : children i with
      | none =>
        rw [← childIs, present]
        exact MemChild.fresh_holds _
      | some existing =>
        rw [← childIs, present]
        exact faithful i existing present
    generalize resultIs : child.internalWriteData maxFileSize childOffset
        (remaining.take writeLen) true = result at accepted
    obtain ⟨child', outcome⟩ := result
    match outcome with
    | .error error => exact absurd (congrArg snd accepted) nofun
    | .ok 0 =>
      have counted := Except.ok.inj (congrArg snd accepted)
      omega
    | .ok (ret + 1) =>
      have lt : ∀ further < (remaining.take writeLen).length,
          writeCells cellOf cells (off + consumed)
            (remaining.take writeLen) (i, childOffset + further) =
              (remaining.take writeLen)[further]? := by
        intro further lt
        rw [← place further (by omega), writeCells_inside lt]
        intro later laterInside behind
        rw [place later (by omega), place further (by omega)]
        simp only [ne_eq, Prod.mk.injEq]
        omega
      have before : ∀ other < childOffset, writeCells cellOf cells (off + consumed)
            (remaining.take writeLen) (i, other) = cells (i, other) := by
        intro other before
        apply writeCells_other
        intro further lt
        rw [place further (by omega)]
        simp only [ne_eq, Prod.mk.injEq]
        omega
      obtain ⟨n, window⟩ :=
        MemChild.internalWriteData_holds inv (by omega) resultIs lt before
      rw [chunk] at n
      have chunkFaithful := faithful.update window (by
        intro other offset' otherIndex
        apply writeCells_other
        intro further lt shared
        rw [place further (by omega)] at shared
        exact otherIndex (congrArg fst shared).symm)
      have shorter : consumed + remaining.length = consumed + (ret + 1) +
              (remaining.drop (ret + 1)).length := by
        rw [length_drop]
        omega
      rw [shorter] at accepted
      have rest := ih chunkFaithful accepted
      rw [← take_append_drop writeLen remaining, writeCells_append, chunk, ← n]
      rw [← n] at rest
      convert rest using 2
      omega

theorem readLoop_faithful {children : Int -> Option MemChild}
    {consumed : Bytes} (behind : Nat -> UInt8)
    (faithful : Faithful children cells)
    (fits : toChildOffset (offset + consumed.length) + remaining < 2 ^ 31)
    (soFar : ∀ i < consumed.length, cells (cellOf (offset + i)) = consumed[i]?) :
    let bytes := readLoop behind children offset rounds remaining consumed
    bytes.length <= consumed.length + remaining ∧ ∀ i < bytes.length,
        cells (cellOf (offset + i)) = bytes[i]? := by
  induction rounds generalizing remaining consumed with
  | zero => exact ⟨Nat.le_add_right _ _, soFar⟩
  | succ rounds ih =>
    have done : consumed.length <= consumed.length + remaining ∧ ∀ i < consumed.length,
            cells (cellOf (offset + i)) = consumed[i]? :=
      ⟨Nat.le_add_right _ _, soFar⟩
    rw [readLoop]
    split
    · exact done
    generalize childOffsetIs : toChildOffset (offset + consumed.length) = childOffset at fits
    generalize indexIs : toChildIndex (offset + consumed.length) = i
    cases present : children i with
    | none => exact done
    | some child =>
      dsimp only
      split
      · exact done
      have first : child.firstPos <= childOffset := by omega
      obtain ⟨short, within, right⟩ :=
        child.internalReadData_holds behind (faithful i child present) first fits
      generalize child.internalReadData behind childOffset remaining = bytes at short within right
      by_cases none : bytes = []
      · rw [if_pos (by simp [none])]
        exact done
      rw [if_neg (by simpa using none)]
      have room := within none
      have nextPosition : offset + ((consumed ++ bytes).length : Nat) =
            offset + consumed.length + bytes.length := by
        rw [length_append]
        omega
      have nextFits : toChildOffset (offset + ((consumed ++ bytes).length : Nat)) +
            (remaining - bytes.length) < 2 ^ 31 := by
        have step := toChildOffset_add_le (offset + consumed.length) bytes.length
        rw [nextPosition]
        omega
      have nextSoFar : ∀ further < (consumed ++ bytes).length,
          cells (cellOf (offset + further)) = (consumed ++ bytes)[further]? := by
        intro further inside
        by_cases early : further < consumed.length
        · rw [List.getElem?_append_left early]
          exact soFar further early
        · obtain ⟨beyond, rfl⟩ := Nat.exists_eq_add_of_le (Nat.le_of_not_lt early)
          rw [List.getElem?_append_right (Nat.le_add_right _ _),
            Nat.add_sub_cancel_left, ← right beyond (by omega),
            Int.natCast_add, ← Int.add_assoc, cellOf_add (by omega), indexIs,
            childOffsetIs]
      obtain ⟨len, bytesRight⟩ := ih nextFits nextSoFar
      exact ⟨by omega, bytesRight⟩

end MemEntry

end

/-!
## Runs of sparse calls

After any sequence of sparse writes and reads, a sparse read of the memory
cache returns the bytes last written at its positions, where no write to
another position of the same cell came in between.
-/

section

open Library

/-- A call of `WriteSparseData` or `ReadSparseData`. -/
inductive SparseCall
  | write (offset : Int) (buf : Bytes)
  | read (offset bufLen : Int)
  deriving DecidableEq

namespace SparseCall

/-- The positions a call writes. -/
def Writes (call : SparseCall) (pos : Int) : Prop :=
  match call with
  | write offset buf => ∃ index < buf.length, pos = offset + (index : Nat)
  | read _ _ => False

/-- What a call leaves in cells that keep the bytes of the positions placed
there. -/
def record {κ : Type} [DecidableEq κ] (place : Int -> κ)
    (cells : κ -> Option UInt8) : SparseCall -> κ -> Option UInt8
  | write offset buf => writeCells place cells offset buf
  | read _ _ => cells

end SparseCall

/-- The byte last placed in a cell by a sequence of calls. -/
def lastPlaced {κ : Type} [DecidableEq κ] (place : Int -> κ)
    (calls : List SparseCall) : κ -> Option UInt8 :=
  calls.foldl (SparseCall.record place) fun _ => none

/-- The byte most recently written at a position. -/
def lastWritten (calls : List SparseCall) : Int -> Option UInt8 := lastPlaced id calls

theorem foldl_record_alone {calls : List SparseCall} {cells : Int × Nat -> Option UInt8}
    {exact : Int -> Option UInt8} (same : cells (cellOf target) = exact target)
    (alone : ∀ call ∈ calls, ∀ pos, call.Writes pos -> cellOf pos = cellOf target -> pos = target) :
    calls.foldl (SparseCall.record cellOf) cells (cellOf target) =
      calls.foldl (SparseCall.record id) exact target := by
  induction calls generalizing cells exact with
  | nil => exact same
  | cons call rest ih =>
    apply ih
    · cases call with
      | read offset bufLen => exact same
      | write offset buf =>
        apply writeCells_alone same
        intro i inside
        exact alone _ mem_cons_self _ ⟨i, inside, rfl⟩
    · intro other later
      exact alone other (mem_cons_of_mem _ later)

/-- A cell has the byte last written at a position that no call shares it
with. -/
theorem lastPlaced_alone (alone : ∀ call ∈ calls, ∀ pos, call.Writes pos ->
      cellOf pos = cellOf target -> pos = target) :
    lastPlaced cellOf calls (cellOf target) = lastWritten calls target := by
  exact @foldl_record_alone target calls (fun _ => none) (fun _ => none) rfl alone

namespace MemEntry

/-- One call on a parent entry; a write has to be accepted as a whole. -/
def perform (behind : Nat -> UInt8) (maxFileSize : Int)
    (entry : MemEntry) : SparseCall -> Option MemEntry
  | .write offset buf =>
    let (entry, result) := entry.internalWriteSparseData maxFileSize offset buf
    match result with
    | .ok count => if count = buf.length then some entry else none
    | .error _ => none
  | .read offset bufLen => some (entry.internalReadSparseData behind offset bufLen).1

/-- The calls of a run, in order. -/
def performAll (behind : Nat -> UInt8) (maxFileSize : Int) (entry : MemEntry)
    (calls : List SparseCall) : Option MemEntry :=
  calls.foldlM (perform behind maxFileSize) entry

/-- An entry is sparse, or becomes so, with children that hold the bytes of
their cells. -/
def Keeps (entry : MemEntry) (cells : Int × Nat -> Option UInt8) : Prop :=
  ∃ children, entry.initSparseInfo = some children ∧ Faithful children cells

theorem fresh_keeps (cells : Int × Nat -> Option UInt8) : fresh.Keeps cells := by
  refine ⟨_, rfl, ?_⟩
  have none : Faithful (fun _ => none) cells := nofun
  apply none.update
  · exact MemChild.fresh_holds _
  · exact fun _ _ _ => rfl

theorem perform_keeps {entry after : MemEntry}
    (keeps : entry.Keeps cells) (performed : entry.perform behind maxFileSize call = some after) :
    after.Keeps (call.record cellOf cells) := by
  obtain ⟨children, sparse, faithful⟩ := keeps
  cases call with
  | read offset bufLen =>
    rw [perform, internalReadSparseData, sparse] at performed
    dsimp only at performed
    refine ⟨children, ?_, faithful⟩
    rw [← some.inj performed]
    split <;> rfl
  | write offset buf =>
    rw [perform, internalWriteSparseData, sparse] at performed
    dsimp only at performed
    by_cases negative : offset < 0
    · rw [if_pos negative] at performed
      exact absurd performed nofun
    rw [if_neg negative] at performed
    generalize written : writeLoop maxFileSize offset buf.length children buf 0 = outcome
      at performed
    obtain ⟨children', result⟩ := outcome
    cases result with
    | error error => exact absurd performed nofun
    | ok count =>
      simp only [ite_none_right_eq_some] at performed
      obtain ⟨whole, same⟩ := performed
      rw [← some.inj same]
      refine ⟨children', rfl, ?_⟩
      have kept := writeLoop_faithful faithful (by rw [written, whole, Nat.zero_add])
      rw [Int.natCast_zero, Int.add_zero] at kept
      exact kept

theorem performAll_keeps {entry after : MemEntry} (keeps : entry.Keeps cells)
    (performed : entry.performAll behind maxFileSize calls = some after) :
    after.Keeps (calls.foldl (SparseCall.record cellOf) cells) := by
  induction calls generalizing entry cells with
  | nil => exact some.inj performed ▸ keeps
  | cons call rest ih =>
    obtain ⟨middle, first, further⟩ := bind_eq_some_iff.mp performed
    exact ih (perform_keeps keeps first) further

/-- A sparse read returns the bytes most recently written at exactly its
positions, if no call wrote another position of their cells and the `int` sum
of offset and length does not overflow. -/
theorem memEntry_sparse_reads {behind : Nat -> UInt8} {maxFileSize : Int} {calls : List SparseCall}
    {entry : MemEntry} {offset bufLen : Int} {bytes : Bytes}
    (performed : fresh.performAll behind maxFileSize calls = some entry)
    (read : (entry.internalReadSparseData behind offset bufLen).2 = .ok bytes)
    (apart : ∀ call ∈ calls, ∀ pos, call.Writes pos ->
      ∀ index : Nat, index < bufLen -> pos % 2 ^ 44 = (offset + index) % 2 ^ 44 ->
          pos = offset + index) (fits : offset % 2 ^ 12 + bufLen < 2 ^ 31) :
    ∀ index < bytes.length, bytes[index]? = lastWritten calls (offset + index) := by
  obtain ⟨children, sparse, faithful⟩ := performAll_keeps (fresh_keeps fun _ => none) performed
  rw [internalReadSparseData, sparse] at read
  dsimp only at read
  split at read
  · exact absurd read nofun
  · rename_i valid
    have start : toChildOffset (offset + ([] : Bytes).length) + bufLen.toNat < 2 ^ 31 := by
      simp only [toChildOffset, kMaxSparseEntryBits, length_nil]
      omega
    obtain ⟨length, right⟩ :=
      readLoop_faithful behind faithful start (fun _ none => absurd none (Nat.not_lt_zero _))
    rw [Except.ok.inj read] at length right
    intro index inside
    have within : (index : Int) < bufLen := by
      rw [length_nil] at length
      omega
    rw [← right index inside, ← lastPlaced_alone]
    · rfl
    · intro call performedCall pos writes shared
      exact apart call performedCall pos writes index within (cellOf_eq_iff.mp shared)

/-- Two writes that overlap across a boundary of children. -/
theorem memEntry_sparse_reads_overlapping : ∃ entry, fresh.performAll (fun _ => 0) 10000
          [.write 4094 [1, 2, 3, 4], .read 0 9, .write 4095 [5, 6]] = some entry ∧
      (entry.internalReadSparseData (fun _ => 0) 4095 3).2 = .ok [5, 6] ∧
      ∀ index < 2, ([5, 6] : Bytes)[index]? = lastWritten
            [.write 4094 [1, 2, 3, 4], .read 0 9, .write 4095 [5, 6]] (4095 + (index : Nat)) := by
  have ran : ((fresh.performAll (fun _ => 0) 10000
          [.write 4094 [1, 2, 3, 4], .read 0 9, .write 4095 [5, 6]]).map
        fun entry => (entry.internalReadSparseData (fun _ => 0) 4095 3).2) = some (.ok [5, 6]) := by
    decide +kernel
  obtain ⟨entry, performed, read⟩ := map_eq_some_iff.mp ran
  refine ⟨entry, performed, read, ?_⟩
  apply memEntry_sparse_reads performed read
  · intro call member pos writes index inside shared
    simp only [mem_cons, not_mem_nil, or_false] at member
    obtain rfl | rfl | rfl := member
    · obtain ⟨written, short, rfl⟩ := writes
      simp only [length_cons, length_nil] at short
      omega
    · exact absurd writes id
    · obtain ⟨written, short, rfl⟩ := writes
      simp only [length_cons, length_nil] at short
      omega
  · decide

/-- The byte written at 2^44 is returned for position 0, where nothing was
written. -/
theorem sparseRead_returns_foreign :
    ((fresh.performAll (fun _ => 0) 10000 [.write (2 ^ 44) [7]]).map
      fun entry => (entry.internalReadSparseData (fun _ => 0) 0 1).2) = some (.ok [7]) ∧
      lastWritten [.write (2 ^ 44) [7]] 0 = none := by
  constructor
  · decide +kernel
  · decide +kernel

end MemEntry

end

end Chromium.DiskCache
