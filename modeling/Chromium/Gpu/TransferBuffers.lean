import Chromium.Library.Lists
import Chromium.Library.Run
import Mathlib.Data.Finset.Max
import Mathlib.Data.Int.Interval

/-!
# The transfer buffer registry of the command buffer service

The service keeps a vector of registered buffers, indexed by handle, together
with the set of vacant handles. Registration pads the vector up to a requested
handle, fills a requested hole, or falls back to the lowest hole and then to
the end of the vector. Destruction opens a hole and trims the vector.

Handles are 32-bit signed integers. The conversion from the size of the vector
is written out, since the range check of the source admits sizes that do not
fit.
-/

namespace Chromium.Gpu

open List
open Library

/-- Conversion of an integer to a 32-bit signed integer. -/
def toInt32 (value : Int) : Int := Int.bmod value (2 ^ 32)

theorem toInt32_of_nat_lt {val : Nat} (small : val < 2 ^ 31) : toInt32 val = val := by
  unfold toInt32
  rw [Int.bmod_eq_of_le] <;> omega

/-- Address and size of a buffer and optionally a shared memory object. -/
structure Buffer where
  ptr : Nat
  size : Nat
  sharedMemory : Option Nat
  deriving DecidableEq

/-- The default-constructed buffer. -/
def Buffer.null : Buffer where
  ptr := 0
  size := 0
  sharedMemory := none

@[simp] theorem Buffer.null_sharedMemory : Buffer.null.sharedMemory = none := rfl

/-- A shared memory object as the service meets it: the address it is mapped
at, its duplicated handle, and whether duplicating and mapping it succeed. -/
structure SharedMemory where
  memory : Nat
  handle : Nat
  shareToProcess : Bool
  map : Nat -> Bool

/-- The registered buffers and the vacant handles of the service. -/
structure Registry where
  registeredObjects : List Buffer
  unusedElements : Finset Int

namespace Registry

/-- The constructor: element zero is always NULL. -/
def init : Registry where
  registeredObjects := [Buffer.null]
  unusedElements := ∅

section

variable (reg : Registry)

/-- The buffer stored under an index of the vector. -/
def objectAt (index : Nat) : Buffer := reg.registeredObjects.getD index Buffer.null

/-- Use the lowest vacant handle, or the next one if none is vacant. -/
def registerAnywhere (buffer : Buffer) : Int × Registry :=
  if vacant : reg.unusedElements.Nonempty then
    let handle := reg.unusedElements.min' vacant
    (handle,
      { registeredObjects := reg.registeredObjects.set handle.toNat buffer
        unusedElements := reg.unusedElements.erase handle })
  else
    (toInt32 reg.registeredObjects.length,
      { reg with
        registeredObjects := reg.registeredObjects ++ [buffer] })

/-- Assign a handle to a mapped buffer, trying the requested one first. -/
def assignHandle (buffer : Buffer) (idRequest : Int) : Int × Registry :=
  if idRequest ≠ -1 then
    let curSize := toInt32 reg.registeredObjects.length
    if curSize <= idRequest then
      (idRequest,
        { registeredObjects :=
            (resize reg.registeredObjects (idRequest + 1).toNat
              Buffer.null).set idRequest.toNat buffer
          unusedElements :=
            reg.unusedElements ∪
              @Finset.Ico Int Int.instLinearOrder.toPreorder _ curSize idRequest })
    else if (reg.objectAt idRequest.toNat).sharedMemory = none then
      (idRequest,
        { registeredObjects := reg.registeredObjects.set idRequest.toNat buffer
          unusedElements := reg.unusedElements.erase idRequest })
    else reg.registerAnywhere buffer
  else reg.registerAnywhere buffer

/-- `CommandBufferService::RegisterTransferBuffer`. -/
def registerTransferBuffer (sharedMemory : SharedMemory) (size : Nat)
    (idRequest : Int) : Int × Registry :=
  if reg.unusedElements = ∅ ∧ reg.registeredObjects.length > 2 ^ 32 - 1 then
    (-1, reg)
  else if idRequest ≠ -1 ∧ (idRequest > 100 ∨ idRequest < -1) then (-1, reg)
  else if sharedMemory.shareToProcess = false then (-1, reg)
  else if sharedMemory.map size = false then (-1, reg)
  else
    reg.assignHandle
      { ptr := sharedMemory.memory
        size := size
        sharedMemory := some sharedMemory.handle }
      idRequest

/-- Remove all NULL buffers from the end of the vector, except element zero. -/
def removeTrailing (reg : Registry) : Registry :=
  if reg.registeredObjects.length > 1 ∧
      (reg.registeredObjects.getLast?.getD Buffer.null).sharedMemory = none then
    removeTrailing
      { registeredObjects := reg.registeredObjects.dropLast
        unusedElements := reg.unusedElements.erase
          (toInt32 (reg.registeredObjects.length - 1 : Nat)) }
  else reg
termination_by reg.registeredObjects.length
decreasing_by
  simp only [List.length_dropLast]
  omega

/-- `CommandBufferService::DestroyTransferBuffer`. -/
def destroyTransferBuffer (handle : Int) : Registry :=
  if handle <= 0 then reg
  else if reg.registeredObjects.length <= handle.toNat then reg
  else
    removeTrailing
      { registeredObjects := reg.registeredObjects.set handle.toNat Buffer.null
        unusedElements := insert handle reg.unusedElements }

/-- `CommandBufferService::GetTransferBuffer`. -/
def getTransferBuffer (handle : Int) : Buffer :=
  if handle < 0 then Buffer.null
  else if reg.registeredObjects.length <= handle.toNat then Buffer.null
  else reg.objectAt handle.toNat

/-- Out of range handles read as NULL, as unset elements do. -/
theorem getTransferBuffer_eq : reg.getTransferBuffer handle =
      if handle < 0 then Buffer.null else reg.objectAt handle.toNat := by
  unfold getTransferBuffer
  split
  · rfl
  · split
    · rename_i outside
      simp [objectAt, getD_eq_getElem?_getD, List.getElem?_eq_none outside]
    · rfl

end

section

variable (objects : List Buffer)
include objects

theorem objectAt_set (lt : target < objects.length) :
    objectAt ⟨objects.set target buf, unused⟩ index =
      if index = target then buf else objects.getD index Buffer.null := by
  simp only [objectAt, getD_eq_getElem?_getD, List.getElem?_set]
  grind

theorem objectAt_append :
    objectAt ⟨objects ++ [buffer], unused⟩ index = if index = objects.length then buffer
      else objects.getD index Buffer.null := by
  simp only [objectAt, getD_eq_getElem?_getD, List.getElem?_append]
  grind

theorem getD_dropLast :
    objects.dropLast.getD index Buffer.null = if index = objects.length - 1 then Buffer.null
      else objects.getD index Buffer.null := by
  grind

theorem getLast?_getD :
    objects.getLast?.getD Buffer.null = objects.getD (objects.length - 1) Buffer.null := by
  simp [getLast?_eq_getElem?, getD_eq_getElem?_getD]

end

/-- The vacant handles are exactly the positive indices holding no buffer, and
element zero is the NULL buffer. -/
structure Indexed (reg : Registry) : Prop where
  nonempty : 0 < reg.registeredObjects.length
  zeroNull : reg.objectAt 0 = Buffer.null
  vacantNull : ∀ index, (reg.objectAt index).sharedMemory = none -> reg.objectAt index = Buffer.null
  unused_iff : ∀ handle : Int, handle ∈ reg.unusedElements ↔
      1 <= handle ∧ handle < reg.registeredObjects.length ∧
        (reg.objectAt handle.toNat).sharedMemory = none

/-- An indexed registry whose last element is in use, unless only element zero
is left. -/
structure WellFormed (reg : Registry) : Prop extends Indexed reg where
  lastLive : 1 < reg.registeredObjects.length -> (reg.objectAt
      (reg.registeredObjects.length - 1)).sharedMemory ≠ none

/-- A handle under which a buffer is registered. -/
def Live (reg : Registry) (handle : Int) : Prop :=
  (reg.getTransferBuffer handle).sharedMemory ≠ none

theorem init_wellFormed : init.WellFormed where
  nonempty := by simp [init]
  zeroNull := rfl
  vacantNull := by
    intro i _
    cases i <;> simp [objectAt, init]
  unused_iff := by
    intro handle
    simp only [init, Finset.notMem_empty, length_singleton, Nat.cast_one, false_iff]
    omega
  lastLive := by simp [init]

variable {buffer : Buffer} {handle : Int} {reg : Registry}

/-- Filling a vacant handle keeps the registry well formed. -/
theorem fill_wellFormed (wf : reg.WellFormed) (live : buf.sharedMemory ≠ none)
    (vacant : handle ∈ reg.unusedElements) :
    WellFormed ⟨reg.registeredObjects.set handle.toNat buf,
      reg.unusedElements.erase handle⟩ := by
  obtain ⟨⟨ne, zeroNull, vacantNull, unused_iff⟩, lastLive⟩ := wf
  obtain ⟨pos, inside, free⟩ := (unused_iff handle).mp vacant
  have target : handle.toNat < reg.registeredObjects.length := by omega
  refine ⟨⟨?_, ?_, ?_, ?_⟩, ?_⟩
  · simpa using ne
  · rw [objectAt_set _ target, if_neg (by omega)]
    exact zeroNull
  · intro i
    rw [objectAt_set _ target]
    split
    · exact fun vacated => absurd vacated live
    · exact vacantNull i
  · intro other
    rw [Finset.mem_erase, unused_iff, objectAt_set _ target, length_set]
    by_cases same : other = handle
    · subst other
      simp [live]
    · have apart : 1 <= other -> other.toNat ≠ handle.toNat := by omega
      grind [objectAt]
  · intro several
    rw [length_set] at several ⊢
    rw [objectAt_set _ target]
    split
    · exact live
    · exact lastLive several

/-- Appending a buffer keeps a registry without vacant handles well formed. -/
theorem append_wellFormed (wf : reg.WellFormed) (live : buffer.sharedMemory ≠ none)
    (full : reg.unusedElements = ∅) :
    WellFormed ⟨reg.registeredObjects ++ [buffer], reg.unusedElements⟩ := by
  obtain ⟨⟨ne, zeroNull, vacantNull, unused_iff⟩, _⟩ := wf
  refine ⟨⟨?_, ?_, ?_, ?_⟩, ?_⟩
  · simp
  · rw [objectAt_append, if_neg (by omega)]
    exact zeroNull
  · intro i
    rw [objectAt_append]
    split
    · exact fun vacated => absurd vacated live
    · exact vacantNull i
  · intro other
    rw [unused_iff, objectAt_append]
    by_cases last : other = reg.registeredObjects.length
    · subst other
      simp [live]
    · have apart : 1 <= other -> other.toNat ≠ reg.registeredObjects.length := by omega
      grind [objectAt]
  · intro _
    simp only [length_append, length_singleton, Nat.add_sub_cancel]
    rw [objectAt_append, if_pos rfl]
    exact live

/-- Padding the vector up to a requested handle keeps the registry well
formed. -/
theorem pad_wellFormed (wf : reg.WellFormed) (live : buf.sharedMemory ≠ none)
    (beyond : (reg.registeredObjects.length : Int) <= handle) :
    WellFormed ⟨(resize reg.registeredObjects (handle + 1).toNat
          Buffer.null).set handle.toNat buf,
        reg.unusedElements ∪ @Finset.Ico Int Int.instLinearOrder.toPreorder _
            (reg.registeredObjects.length : Int) handle⟩ := by
  obtain ⟨⟨ne, zeroNull, vacantNull, unused_iff⟩, _⟩ := wf
  have target : handle.toNat < (resize reg.registeredObjects (handle + 1).toNat
        Buffer.null).length := by
    rw [length_resize]
    omega
  have grows : reg.registeredObjects.length <= (handle + 1).toNat := by omega
  refine ⟨⟨?_, ?_, ?_, ?_⟩, ?_⟩
  · simp only [length_set, length_resize]
    omega
  · rw [objectAt_set _ target, if_neg (by omega), getD_resize grows]
    exact zeroNull
  · intro i
    rw [objectAt_set _ target, getD_resize grows]
    split
    · exact fun vacated => absurd vacated live
    · exact vacantNull i
  · intro other
    rw [objectAt_set _ target, getD_resize grows]
    simp only [Finset.mem_union, Finset.mem_Ico, unused_iff, length_set, length_resize]
    grind [objectAt, Buffer.null_sharedMemory]
  · intro _
    simp only [length_set, length_resize]
    rw [objectAt_set _ target, if_pos (by omega)]
    exact live

/-- Removing a trailing NULL element changes no handle's buffer. -/
theorem objectAt_dropLast (indexed : reg.Indexed) (unused : Finset Int)
    (lastNull : (reg.registeredObjects.getLast?.getD Buffer.null).sharedMemory = none)
    (i : Nat) :
    objectAt ⟨reg.registeredObjects.dropLast, unused⟩ i = reg.objectAt i := by
  rw [getLast?_getD] at lastNull
  have trailing := indexed.vacantNull _ lastNull
  simp only [objectAt, getD_dropLast] at trailing ⊢
  split
  · rename_i last
    rw [last, trailing]
  · rfl

/-- Removing a trailing NULL element keeps the registry indexed. -/
theorem dropLast_indexed (indexed : reg.Indexed) (several : reg.registeredObjects.length > 1)
    (lastNull : (reg.registeredObjects.getLast?.getD Buffer.null).sharedMemory = none) :
    Indexed ⟨reg.registeredObjects.dropLast, reg.unusedElements.erase
        (reg.registeredObjects.length - 1 : Nat)⟩ := by
  have unchanged := objectAt_dropLast indexed (reg.unusedElements.erase
      (reg.registeredObjects.length - 1 : Nat)) lastNull
  refine ⟨?_, ?_, ?_, ?_⟩
  · simp only [length_dropLast]
    omega
  · rw [unchanged]
    exact indexed.zeroNull
  · intro i
    rw [unchanged]
    exact indexed.vacantNull i
  · intro handle
    rw [unchanged, Finset.mem_erase, indexed.unused_iff]
    grind

/-- Trimming restores the invariant and changes no handle's buffer. -/
theorem removeTrailing_spec (reg : Registry) (indexed : reg.Indexed)
    (short : reg.registeredObjects.length <= 2 ^ 31) :
    reg.removeTrailing.WellFormed ∧ reg.removeTrailing.registeredObjects.length ≤ 2 ^ 31 ∧
      ∀ i, reg.removeTrailing.objectAt i = reg.objectAt i := by
  induction reg using removeTrailing.induct with
  | case1 reg trailing ih =>
    have lastIndex : toInt32 (reg.registeredObjects.length - 1 : Nat) =
        (reg.registeredObjects.length - 1 : Nat) :=
      toInt32_of_nat_lt (by omega)
    rw [lastIndex] at ih
    obtain ⟨wf, stillShort, unchanged⟩ := ih (dropLast_indexed indexed trailing.1 trailing.2)
      (by rw [length_dropLast]; omega)
    rw [removeTrailing, if_pos trailing, lastIndex]
    refine ⟨wf, stillShort, fun i => ?_⟩
    rw [unchanged, objectAt_dropLast indexed _ trailing.2]
  | case2 reg settled =>
    rw [removeTrailing, if_neg settled]
    refine ⟨⟨indexed, ?_⟩, short, fun _ => rfl⟩
    intro several lastNull
    exact settled ⟨several, by rwa [getLast?_getD]⟩

/-- What a successful assignment of a handle means: the handle is positive, was
not in use, now names the buffer, and no other handle is affected. -/
structure Assigned (reg : Registry) (buffer : Buffer) (handle : Int) (next : Registry) : Prop where
  positive : 0 < handle
  notInUse : ¬reg.Live handle
  stored : next.getTransferBuffer handle = buffer
  others : ∀ other, other ≠ handle → next.getTransferBuffer other = reg.getTransferBuffer other

/-- Storing a buffer under a vacant positive index is an assignment. -/
theorem assigned_of_objectAt {next : Registry} (positive : 0 < handle)
    (vacant : (reg.objectAt handle.toNat).sharedMemory = none)
    (stored : ∀ i, next.objectAt i =
      if i = handle.toNat then buffer else reg.objectAt i) :
    Assigned reg buffer handle next where
  positive := positive
  notInUse := by
    rw [Live, getTransferBuffer_eq, if_neg (by omega)]
    exact fun inUse => inUse vacant
  stored := by rw [getTransferBuffer_eq, if_neg (by omega), stored, if_pos rfl]
  others := by
    intro other ne
    simp only [getTransferBuffer_eq, stored]
    grind

/-- A registration avoids handle zero and finds room for its handle among the
32-bit signed integers: it reuses a vacant handle, or the vector is short. -/
def RegisterFits (reg : Registry) (idRequest : Int) : Prop :=
  idRequest ≠ 0 ∧ (reg.registeredObjects.length < 2 ^ 31 ∨
      (idRequest = -1 ∧ reg.unusedElements.Nonempty))

/-- The registered handles that fit a 32-bit signed integer. -/
def Short (reg : Registry) : Prop := reg.registeredObjects.length <= 2 ^ 31

theorem registerAnywhere_spec (wf : reg.WellFormed) (short : reg.Short)
    (live : buffer.sharedMemory ≠ none)
    (room : reg.registeredObjects.length < 2 ^ 31 ∨ reg.unusedElements.Nonempty) :
    (reg.registerAnywhere buffer).2.WellFormed ∧ (reg.registerAnywhere buffer).2.Short ∧
      Assigned reg buffer (reg.registerAnywhere buffer).1 (reg.registerAnywhere buffer).2 := by
  unfold registerAnywhere
  split
  · rename_i vacant
    have mem := Finset.min'_mem _ vacant
    generalize reg.unusedElements.min' vacant = handle at mem
    obtain ⟨pos, inside, free⟩ := (wf.unused_iff handle).mp mem
    refine ⟨fill_wellFormed wf live mem, ?_, ?_⟩
    · simpa [Short] using short
    · exact assigned_of_objectAt pos free fun i => objectAt_set _ (by omega)
  · rename_i vacant
    have full := Finset.not_nonempty_iff_eq_empty.mp vacant
    have small : reg.registeredObjects.length < 2 ^ 31 := room.resolve_right vacant
    rw [toInt32_of_nat_lt small]
    have pos := wf.nonempty
    refine ⟨append_wellFormed wf live full, ?_, ?_⟩
    · simp only [Short, length_append, length_singleton]
      omega
    · refine assigned_of_objectAt (by omega) ?_ fun i => ?_
      · simp [objectAt, getD_eq_getElem?_getD]
      · exact objectAt_append _

theorem assignHandle_spec (buf : Buffer) {idRequest : Int} (wf : reg.WellFormed)
    (short : reg.Short) (live : buf.sharedMemory ≠ none)
    (fits : reg.RegisterFits idRequest)
    (ok : idRequest = -1 ∨ (0 <= idRequest ∧ idRequest <= 100)) :
    (reg.assignHandle buf idRequest).2.WellFormed ∧ (reg.assignHandle buf idRequest).2.Short ∧
      Assigned reg buf (reg.assignHandle buf idRequest).1
        (reg.assignHandle buf idRequest).2 := by
  obtain ⟨nonzero, room⟩ := fits
  unfold assignHandle
  split
  · rename_i asked
    have pos : 0 < idRequest := by omega
    have small : reg.registeredObjects.length < 2 ^ 31 :=
      room.resolve_right fun unrequested => asked unrequested.1
    simp only [toInt32_of_nat_lt small]
    split
    · rename_i beyond
      have grows : reg.registeredObjects.length <= (idRequest + 1).toNat := by omega
      refine ⟨pad_wellFormed wf live beyond, ?_, ?_⟩
      · simp only [Short, length_set, length_resize]
        omega
      · refine assigned_of_objectAt pos ?_ fun i => ?_
        · have outside : reg.registeredObjects.length <= idRequest.toNat := by omega
          simp [objectAt, getD_eq_getElem?_getD, List.getElem?_eq_none outside]
        · rw [objectAt_set _ (by rw [length_resize]; omega), getD_resize grows]
          rfl
    · rename_i within
      split
      · rename_i free
        have vacant : idRequest ∈ reg.unusedElements :=
          (wf.unused_iff _).mpr ⟨pos, by omega, free⟩
        refine ⟨fill_wellFormed wf live vacant, ?_, ?_⟩
        · simpa [Short] using short
        · exact assigned_of_objectAt pos free fun i => objectAt_set _ (by omega)
      · exact registerAnywhere_spec wf short live (Or.inl small)
  · exact registerAnywhere_spec wf short live (room.imp_right And.right)

/-- The destroyed handle becomes vacant and no other handle is affected. -/
theorem destroyTransferBuffer_spec (wf : reg.WellFormed) (short : reg.Short) :
    (reg.destroyTransferBuffer handle).WellFormed ∧ (reg.destroyTransferBuffer handle).Short ∧
      ∀ i, (reg.destroyTransferBuffer handle).objectAt i =
        if i = handle.toNat then Buffer.null
        else reg.objectAt i := by
  unfold destroyTransferBuffer
  split
  · rename_i nonpositive
    refine ⟨wf, short, fun i => ?_⟩
    split
    · rename_i zero
      rw [zero, show handle.toNat = 0 by omega]
      exact wf.zeroNull
    · rfl
  · rename_i positive
    split
    · rename_i outside
      refine ⟨wf, short, fun i => ?_⟩
      split
      · rename_i same
        subst same
        simp [objectAt, getD_eq_getElem?_getD, List.getElem?_eq_none outside]
      · rfl
    · rename_i inside
      have target : handle.toNat < reg.registeredObjects.length := by omega
      have stored : ∀ unused i, objectAt
          ⟨reg.registeredObjects.set handle.toNat Buffer.null, unused⟩ i =
          if i = handle.toNat then Buffer.null
          else reg.objectAt i := fun unused i =>
        objectAt_set _ target
      obtain ⟨trimmed, stillShort, unchanged⟩ := removeTrailing_spec
        ⟨reg.registeredObjects.set handle.toNat Buffer.null, insert handle reg.unusedElements⟩
        { nonempty := by simpa using wf.nonempty
          zeroNull := by
            rw [stored, if_neg (by omega)]
            exact wf.zeroNull
          vacantNull := by
            intro i
            rw [stored]
            split
            · exact fun _ => rfl
            · exact wf.vacantNull i
          unused_iff := by
            intro other
            rw [stored, Finset.mem_insert, wf.unused_iff, length_set]
            grind [Buffer.null_sharedMemory] }
        (by simpa [Short] using short)
      refine ⟨trimmed, stillShort, fun i => ?_⟩
      rw [unchanged, stored]

/-- The operations of the registry. -/
inductive Operation
  | register (sharedMemory : SharedMemory) (size : Nat) (idRequest : Int)
  | destroy (handle : Int)

namespace Operation

/-- The registry after an operation. -/
def apply (op : Operation) (reg : Registry) : Registry :=
  match op with
  | register sharedMemory size idRequest =>
    (reg.registerTransferBuffer sharedMemory size idRequest).2
  | destroy handle => reg.destroyTransferBuffer handle

/-- A registration whose requested id the service accepts and whose memory can
be duplicated and mapped. Every destruction is accepted. -/
def Accepted : Operation -> Prop
  | register sharedMemory size idRequest =>
    (idRequest = -1 ∨ (0 <= idRequest ∧ idRequest <= 100)) ∧
      sharedMemory.shareToProcess = true ∧ sharedMemory.map size = true
  | destroy _ => True

/-- A registration avoids handle zero and its handle fits. -/
def Fits (reg : Registry) : Operation -> Prop
  | register _ _ idRequest => reg.RegisterFits idRequest
  | destroy _ => True

/-- A registration assigns a fresh positive handle to the mapped buffer, and a
destruction frees its handle, leaving every other handle alone. -/
def KeepsHandles (reg : Registry) : Operation -> Prop
  | register sharedMemory size idRequest =>
    Assigned reg ⟨sharedMemory.memory, size, some sharedMemory.handle⟩
      (reg.registerTransferBuffer sharedMemory size idRequest).1
      (reg.registerTransferBuffer sharedMemory size idRequest).2
  | destroy handle =>
    ¬(reg.destroyTransferBuffer handle).Live handle ∧
      ∀ other, other ≠ handle -> (reg.destroyTransferBuffer handle).getTransferBuffer other =
          reg.getTransferBuffer other

/-- The step relation of the registry on accepted operations. -/
def Performed (reg : Registry) (op : Operation) (next : Registry) : Prop :=
  op.Accepted ∧ next = op.apply reg

end Operation

/-- Accepted registrations reach the assignment of a handle. -/
theorem registerTransferBuffer_of_accepted (fits : reg.RegisterFits idRequest)
    (ok : (Operation.register sharedMemory size idRequest).Accepted) :
    reg.registerTransferBuffer sharedMemory size idRequest = reg.assignHandle
        ⟨sharedMemory.memory, size, some sharedMemory.handle⟩ idRequest := by
  obtain ⟨inRange, shared, mapped⟩ := ok
  have room : ¬(reg.unusedElements = ∅ ∧ reg.registeredObjects.length > 2 ^ 32 - 1) := by
    rintro ⟨full, long⟩
    rcases fits.2 with small | ⟨_, vacant⟩
    · omega
    · exact vacant.ne_empty full
  rw [registerTransferBuffer, if_neg room, if_neg (by omega),
    if_neg (by simp [shared]), if_neg (by simp [mapped])]

/-- One accepted operation that fits keeps the registry well formed and every
handle meaningful. -/
theorem operation_spec {op : Operation} (wf : reg.WellFormed)
    (short : reg.Short) (ok : op.Accepted) (fits : op.Fits reg) :
    (op.apply reg).WellFormed ∧ (op.apply reg).Short ∧ op.KeepsHandles reg := by
  cases op with
  | register sharedMemory size idRequest =>
    have assigned := assignHandle_spec ⟨sharedMemory.memory, size, some sharedMemory.handle⟩
      wf short (by simp) fits ok.1
    simpa only [Operation.apply, Operation.KeepsHandles,
      registerTransferBuffer_of_accepted fits ok] using assigned
  | destroy handle =>
    obtain ⟨kept, stillShort, stored⟩ := destroyTransferBuffer_spec wf short
    refine ⟨kept, stillShort, ?_, ?_⟩
    · simp only [Live, getTransferBuffer_eq, stored]
      split <;> simp
    · intro other ne
      simp only [getTransferBuffer_eq, stored]
      by_cases negative : other < 0
      · simp [negative]
      · by_cases same : other.toNat = handle.toNat
        · have zero : other.toNat = 0 := by omega
          simp [negative, ← same, zero, wf.zeroNull]
        · simp [negative, same]

/-- In every run whose registrations avoid handle zero and fit, the registry
stays well formed, and each further such operation keeps every handle
meaningful. -/
theorem registry_run_wellFormed {ops : List Operation} {reg : Registry}
    (run : Library.Run (Library.Guarded (fun source op => op.Fits source)
        Operation.Performed) init ops reg) :
    reg.WellFormed ∧ ∀ op : Operation, op.Accepted -> op.Fits reg -> op.KeepsHandles reg := by
  have kept : reg.WellFormed ∧ reg.Short := by
    refine run.invariant (fun reg => reg.WellFormed ∧ reg.Short) ?_ ⟨init_wellFormed, ?_⟩
    · rintro first op last ⟨wf, short⟩ ⟨fits, accepted, rfl⟩
      obtain ⟨keptFormed, keptShort, _⟩ := operation_spec wf short accepted fits
      exact ⟨keptFormed, keptShort⟩
    · simp [Short, init]
  exact ⟨kept.1, fun op accepted fits => (operation_spec kept.1 kept.2 accepted fits).2.2⟩

/-- A shared memory object that can always be duplicated and mapped. -/
def mappable : SharedMemory where
  memory := 4096
  handle := 7
  shareToProcess := true
  map := fun _ => true

/-- Registering, destroying and reusing a handle is such a run. -/
theorem registry_run_wellFormed_reuse : let reg := (Operation.register mappable 16 2).apply init
    reg.WellFormed ∧ ∀ op : Operation, op.Accepted -> op.Fits reg -> op.KeepsHandles reg :=
  registry_run_wellFormed <| Library.Run.cons (show Library.Guarded _ Operation.Performed init
          (.register mappable 16 2) _ from
        ⟨⟨by decide, Or.inl (by decide)⟩, ⟨Or.inr (by decide), rfl, rfl⟩, rfl⟩)
      (.nil _)

/-- Requesting handle zero of a fresh registry is accepted, but stores the
buffer in element zero and returns the handle zero. -/
theorem register_zero_overwrites_null : (Operation.register mappable 16 0).Accepted ∧
      (init.registerTransferBuffer mappable 16 0).1 = 0 ∧
      ¬((Operation.register mappable 16 0).apply init).WellFormed ∧
      ¬(Operation.register mappable 16 0).KeepsHandles init := by
  have registered : init.registerTransferBuffer mappable 16 0 = (0, ⟨[⟨4096, 16, some 7⟩], ∅⟩) := by
    simp [registerTransferBuffer, assignHandle, init, mappable, objectAt, toInt32]
  refine ⟨⟨Or.inr (by decide), rfl, rfl⟩, ?_, ?_, ?_⟩
  · rw [registered]
  · intro wf
    have zeroNull := wf.zeroNull
    simp [Operation.apply, registered, objectAt, Buffer.null] at zeroNull
  · intro kept
    have positive := kept.positive
    simp [registered] at positive

end Registry

end Chromium.Gpu
