import Chromium.Gpu.FencedAllocatorSizes
import Chromium.Gpu.TransferBuffers

/-!
# Mapped memory

`MappedMemoryManager` hands out memory of shared memory buffers. A buffer is a
chunk with an allocator of its own, and a new one is created when no chunk has
room.
-/

namespace Chromium.Gpu

open List

section

open FencedAllocator (Block kInvalidOffset allocSize getLargestFreeSize)

/-- A buffer of shared memory with the blocks of its allocator. -/
structure MemoryChunk where
  shm_id_ : Int
  shm_ : Buffer
  blocks_ : List Block
deriving DecidableEq

/-- What an allocation returns, what it writes to `shm_id` and `shm_offset`, the
tokens that it waited for, and the chunks. -/
structure MappedAllocation where
  pointer : Nat
  written : Option (Int × Nat)
  waited : List Int
  chunks : List MemoryChunk
deriving DecidableEq

namespace MemoryChunk

/-- The constructor. -/
def create (shm_id : Int) (shm : Buffer) : MemoryChunk where
  shm_id_ := shm_id
  shm_ := shm
  blocks_ := FencedAllocator.init shm.size

variable (chunk : MemoryChunk)

/-- `FencedAllocatorWrapper::GetPointer`. -/
def getPointer (offset : Nat) : Nat :=
  if offset = kInvalidOffset then 0 else chunk.shm_.ptr + offset

/-- `FencedAllocatorWrapper::GetOffset`. -/
def getOffset (pointer : Nat) : Nat :=
  if pointer ≠ 0 then pointer - chunk.shm_.ptr else kInvalidOffset

def freeUnused (lastTokenRead : Int) : MemoryChunk :=
  { chunk with
    blocks_ := FencedAllocator.freeUnusedFrom lastTokenRead chunk.blocks_ 0 }

def getLargestFreeSizeWithoutWaiting : Nat := getLargestFreeSize chunk.blocks_

def isInChunk (pointer : Nat) : Bool :=
  chunk.shm_.ptr <= pointer ∧ pointer < chunk.shm_.ptr + chunk.shm_.size

def free (pointer : Nat) (chunk : MemoryChunk) : MemoryChunk :=
  { chunk with
    blocks_ := FencedAllocator.free chunk.blocks_ (chunk.getOffset pointer) }

def freePendingToken (pointer : Nat) (token : Int) (chunk : MemoryChunk) : MemoryChunk :=
  { chunk with
    blocks_ := FencedAllocator.freePendingToken chunk.blocks_ (chunk.getOffset pointer) token }

/-- Allocate in a chunk, which is what `MappedMemoryManager::Alloc` does with the
chunk that it has found or made. -/
def allocate (size : Nat) : MappedAllocation :=
  let allocation := FencedAllocator.alloc chunk.blocks_ size
  let mem := chunk.getPointer allocation.offset
  { pointer := mem
    written := some (chunk.shm_id_, chunk.getOffset mem)
    waited := allocation.waited
    chunks := [{ chunk with blocks_ := allocation.blocks }] }

end MemoryChunk

namespace MappedMemoryManager

/-- The result with chunks around those of the allocation. -/
def around (front back : List MemoryChunk) (allocation : MappedAllocation) : MappedAllocation :=
  { allocation with chunks := front ++ allocation.chunks ++ back }

/-- `MappedMemoryManager::Alloc`. The last token that was read is known to the
helper, and the command buffer creates a transfer buffer with an id, if it
can. -/
def alloc (lastTokenRead : Int) (created : Option (Int × Buffer))
    (size : Nat) : List MemoryChunk -> MappedAllocation
  | [] =>
    match created with
    | none => { pointer := 0, written := none, waited := [], chunks := [] }
    | some (id, shm) => (MemoryChunk.create id shm).allocate size
  | chunk :: chunks =>
    let chunk := chunk.freeUnused lastTokenRead
    if size <= chunk.getLargestFreeSizeWithoutWaiting then around [] chunks (chunk.allocate size)
    else around [chunk] [] (alloc lastTokenRead created size chunks)

/-- Change the chunk that a pointer is in. -/
def changeChunk (pointer : Nat) (change : MemoryChunk -> MemoryChunk) :
    List MemoryChunk -> List MemoryChunk
  | [] => []
  | chunk :: chunks =>
    if chunk.isInChunk pointer then change chunk :: chunks
    else chunk :: changeChunk pointer change chunks

/-- `MappedMemoryManager::Free`. -/
def free (pointer : Nat) : List MemoryChunk -> List MemoryChunk :=
  changeChunk pointer (MemoryChunk.free pointer)

/-- `MappedMemoryManager::FreePendingToken`. -/
def freePendingToken (pointer : Nat) (token : Int) : List MemoryChunk -> List MemoryChunk :=
  changeChunk pointer (MemoryChunk.freePendingToken pointer token)

end MappedMemoryManager

namespace FencedAllocator

open Library

/-- The offset and size of a block in use. -/
def InUse (blocks : List Block) (range : Nat × Nat) : Prop :=
  ∃ block ∈ blocks, block.state = .inUse ∧ (block.offset, block.size) = range

/-- A session that starts with some blocks, of which those in use are
outstanding. -/
def sessionOf (blocks : List Block) : Session where
  blocks := blocks
  outstanding := (blocks.filter (·.state = .inUse)).map fun block => (block.offset, block.size)
  fence := .clear

variable {range : Nat × Nat}

theorem mem_outstanding_sessionOf :
    range ∈ (sessionOf blocks).outstanding ↔ InUse blocks range := by
  simp [sessionOf, InUse, and_assoc]

theorem sessionOf_consistent (wellFormed : WellFormed total blocks) :
    (sessionOf blocks).Consistent total where
  wellFormed := wellFormed
  outstanding_iff _ := mem_outstanding_sessionOf
  apart := by
    rw [sessionOf, pairwise_map]
    refine (wellFormed.tiles.pairwise.filter _).imp fun ordered => ?_
    exact .inl ordered
  fenced _ _ isFenced := by simp [sessionOf] at isFenced

/-- An allocation puts its range in use, if it succeeds, and no other. -/
theorem inUse_alloc (unsigned : total < 2 ^ 32) (wf : WellFormed total blocks) :
    InUse (alloc blocks asked).blocks range ↔ InUse blocks range ∨
        ((alloc blocks asked).offset ≠ kInvalidOffset ∧
          range = ((alloc blocks asked).offset, allocSize asked)) := by
  have inv := sessionOf_consistent wf
  have next := (inv.perform_alloc unsigned asked).1
  refine (next.outstanding_iff range).symm.trans ?_
  rw [← mem_outstanding_sessionOf]
  show (range ∈ if (alloc blocks asked).offset = kInvalidOffset then
      (sessionOf blocks).outstanding
    else
      ((alloc blocks asked).offset, allocSize asked) :: (sessionOf blocks).outstanding) ↔ _
  by_cases failed : (alloc blocks asked).offset = kInvalidOffset
  · rw [if_pos failed]
    simp [failed]
  · rw [if_neg failed, mem_cons]
    simp only [ne_eq, failed, not_false_eq_true, true_and]
    exact or_comm

/-- The range of an allocation was not in use. -/
theorem apart_alloc (unsigned : total < 2 ^ 32) (wf : WellFormed total blocks)
    (succeeded : (alloc blocks asked).offset ≠ kInvalidOffset) (used : InUse blocks range) :
    Apart ((alloc blocks asked).offset, allocSize asked) range := by
  have next := ((sessionOf_consistent wf).perform_alloc unsigned asked).1
  have isNext : ((sessionOf blocks).perform (.alloc asked)).outstanding =
      ((alloc blocks asked).offset, allocSize asked) :: (sessionOf blocks).outstanding :=
    if_neg succeeded
  have apart := next.apart
  rw [isNext, pairwise_cons] at apart
  exact apart.1 range (mem_outstanding_sessionOf.mpr used)

section

variable (wf : WellFormed total blocks)
include wf

/-- Freeing the block at an offset takes its range out of use, and no other. -/
theorem inUse_free (used : InUse blocks (off, size)) :
    WellFormed total (free blocks off) ∧ ∀ range, InUse (free blocks off) range ↔
        InUse blocks range ∧ range.1 ≠ off := by
  have inv := sessionOf_consistent wf
  obtain ⟨block, mem, isUsed, same⟩ := used
  have next := inv.perform_free ⟨block, mem, isUsed, congrArg Prod.fst same⟩
  refine ⟨next.wellFormed, fun range => ?_⟩
  refine (next.outstanding_iff range).symm.trans ?_
  rw [← mem_outstanding_sessionOf, Session.perform, mem_filter, decide_eq_true_eq]

/-- So does freeing it pending a token. -/
theorem inUse_freePendingToken (used : InUse blocks (off, size)) :
    WellFormed total (freePendingToken blocks off token) ∧
      ∀ range, InUse (freePendingToken blocks off token) range ↔
        InUse blocks range ∧ range.1 ≠ off := by
  have inv := sessionOf_consistent wf
  obtain ⟨block, mem, isUsed, same⟩ := used
  have next : ((sessionOf blocks).perform (.freePendingToken off token)).Consistent total :=
    inv.perform_freePendingToken ⟨block, mem, isUsed, congrArg Prod.fst same⟩
  refine ⟨next.wellFormed, fun range => ?_⟩
  refine (next.outstanding_iff range).symm.trans ?_
  rw [← mem_outstanding_sessionOf, Session.perform, mem_filter, decide_eq_true_eq]

theorem inUse_freeUnused :
    InUse (freeUnusedFrom lastTokenRead blocks 0) range ↔ InUse blocks range := by
  have next := (sessionOf_consistent wf).perform_freeUnused lastTokenRead
  refine (next.outstanding_iff range).symm.trans ?_
  rw [← mem_outstanding_sessionOf, Session.perform]

theorem inUse_bounds (used : InUse blocks range) : 0 < range.2 ∧ range.1 + range.2 <= total :=
  (sessionOf_consistent wf).outstanding_bounds range (mem_outstanding_sessionOf.mpr used)

end

end FencedAllocator

end

/-!
## Runs of the mapped memory manager

A session pairs the chunks of the manager with the allocations that are handed
out and not yet freed. These are the blocks in use of the chunks, at their
addresses.
-/

section

open Library
open FencedAllocator (Block InUse WellFormed Unused kInvalidOffset allocSize
  getLargestFreeSize)

namespace MemoryChunk

/-- What tells a chunk from the others. -/
abbrev identity (chunk : MemoryChunk) : Int × Buffer := (chunk.shm_id_, chunk.shm_)

/-- The chunk hands out a range of its memory. -/
def Holds (chunk : MemoryChunk) (range : Nat × Nat) : Prop :=
  ∃ offset, InUse chunk.blocks_ (offset, range.2) ∧ range.1 = chunk.shm_.ptr + offset

/-- The memory of the chunk is mapped, and its blocks are well formed. -/
structure Sound (chunk : MemoryChunk) : Prop where
  mapped : 0 < chunk.shm_.ptr
  unsigned : chunk.shm_.size < 2 ^ 32
  wellFormed : WellFormed chunk.shm_.size chunk.blocks_

end MemoryChunk

/-- Buffers have ids and memory of their own. -/
def Distinct (left right : Int × Buffer) : Prop :=
  left.1 ≠ right.1 ∧ Apart (left.2.ptr, left.2.size) (right.2.ptr, right.2.size)

theorem Distinct.symm (nodup : Distinct left right) : Distinct right left :=
  ⟨nodup.1.symm, nodup.2.symm⟩

namespace MappedMemoryManager

/-- A new buffer that is large enough for a request, and has an id and memory
of its own. -/
structure Supplied (chunks : List MemoryChunk) (size : Nat) (new : Int × Buffer) : Prop where
  large : allocSize size <= new.2.size
  mapped : 0 < new.2.ptr
  unsigned : new.2.size < 2 ^ 32
  distinct : ∀ chunk ∈ chunks, Distinct chunk.identity new

/-- The chunks with the addresses and sizes of the allocations handed out. -/
structure Client where
  chunks : List MemoryChunk := []
  outstanding : List (Nat × Nat) := []

/-- The calls of a client, with the last token read and the buffer that the
command buffer creates. -/
inductive Call where
  | alloc (size : Nat) (lastTokenRead : Int) (created : Option (Int × Buffer))
  | free (pointer : Nat)
  | freePendingToken (pointer : Nat) (token : Int)

namespace Client

/-- The client after a call. -/
def perform (client : Client) : Call -> Client
  | .alloc size lastTokenRead created =>
    let allocation := alloc lastTokenRead created size client.chunks
    { chunks := allocation.chunks
      outstanding :=
        if allocation.pointer = 0 then client.outstanding
        else (allocation.pointer, allocSize size) :: client.outstanding }
  | .free pointer =>
    { chunks := MappedMemoryManager.free pointer client.chunks
      outstanding := client.outstanding.filter (·.1 ≠ pointer) }
  | .freePendingToken pointer token =>
    { chunks := MappedMemoryManager.freePendingToken pointer token client.chunks
      outstanding := client.outstanding.filter (·.1 ≠ pointer) }

/-- The command buffer creates no unfit buffer, and only what is handed out is
freed. -/
def Permitted (client : Client) : Call -> Prop
  | .alloc size _ created => ∀ new ∈ created, Supplied client.chunks size new
  | .free pointer | .freePendingToken pointer _ => ∃ size, (pointer, size) ∈ client.outstanding

/-- The step relation of a client on permitted calls. -/
abbrev Performed : Client -> Call -> Client -> Prop :=
  Guarded Permitted fun client call next => next = client.perform call

/-- The chunks are sound and apart, and hold what is handed out. -/
structure Consistent (client : Client) : Prop where
  sound : ∀ chunk ∈ client.chunks, chunk.Sound
  distinct : (client.chunks.map MemoryChunk.identity).Pairwise Distinct
  outstanding_iff : ∀ range, range ∈ client.outstanding ↔ ∃ chunk ∈ client.chunks, chunk.Holds range

theorem start_consistent : ({} : Client).Consistent where
  sound _ member := absurd member List.not_mem_nil
  distinct := .nil
  outstanding_iff := by simp

end Client

section Chunks

variable {chunk other : MemoryChunk} {front back chunks : List MemoryChunk}
  {outstanding later : List (Nat × Nat)} {range : Nat × Nat}

/-- What a chunk holds lies in its memory. -/
theorem bounds_of_holds (sound : chunk.Sound) (inv : chunk.Holds range) :
    0 < range.2 ∧ chunk.shm_.ptr <= range.1 ∧
      range.1 + range.2 <= chunk.shm_.ptr + chunk.shm_.size := by
  obtain ⟨off, used, isAddress⟩ := inv
  have bounds := FencedAllocator.inUse_bounds sound.wellFormed used
  omega

/-- The chunks around one are distinct from it. -/
theorem distinct_around
    (nodup : ((front ++ chunk :: back).map MemoryChunk.identity).Pairwise Distinct)
    (mem : other ∈ front ++ back) :
    Distinct chunk.identity other.identity := by
  rw [map_append, map_cons, pairwise_append, pairwise_cons] at nodup
  obtain ⟨-, ⟨after, -⟩, before⟩ := nodup
  rcases mem_append.mp mem with inFront | inBack
  · exact (before _ (List.mem_map_of_mem inFront) _ mem_cons_self).symm
  · exact after _ (List.mem_map_of_mem inBack)

/-- Changing blocks of the chunks in front, but for those in use. -/
theorem Client.Consistent.map_front (identity : ∀ chunk, (change chunk).identity = chunk.identity)
    (sound : ∀ chunk : MemoryChunk, chunk.Sound -> (change chunk).Sound)
    (inv : ∀ (chunk : MemoryChunk) (range : Nat × Nat), chunk.Sound ->
      ((change chunk).Holds range ↔ chunk.Holds range))
    (consistent : Client.Consistent ⟨front ++ back, outstanding⟩) :
    Client.Consistent ⟨front.map change ++ back, outstanding⟩ where
  sound := by
    intro chunk mem
    rcases mem_append.mp mem with inFront | inBack
    · obtain ⟨before, wasThere, rfl⟩ := List.mem_map.mp inFront
      exact sound before (consistent.sound before (mem_append_left _ wasThere))
    · exact consistent.sound chunk (mem_append_right _ inBack)
  distinct := by
    have same : (front.map change ++ back).map MemoryChunk.identity =
        (front ++ back).map MemoryChunk.identity := by
      rw [map_append, map_append, List.map_map]
      congr 2
      exact funext identity
    rw [same]
    exact consistent.distinct
  outstanding_iff := by
    intro range
    rw [consistent.outstanding_iff]
    simp only [mem_append, or_and_right, exists_or, List.mem_map, exists_exists_and_eq_and]
    refine or_congr_left (exists_congr fun chunk => and_congr_right ?_)
    intro mem
    exact (inv chunk range (consistent.sound chunk (mem_append_left _ mem))).symm

section

variable (consistent : Client.Consistent ⟨front ++ chunk :: back, outstanding⟩)
include consistent

theorem Client.Consistent.replace (identity : other.identity = chunk.identity) (sound : other.Sound)
    (outstanding_iff : ∀ range, range ∈ later ↔
      (∃ chunk ∈ front ++ back, chunk.Holds range) ∨ other.Holds range) :
    Client.Consistent ⟨front ++ other :: back, later⟩ where
  sound := by
    have sounds := consistent.sound
    rw [forall_mem_append, forall_mem_cons] at sounds ⊢
    exact ⟨sounds.1, sound, sounds.2.2⟩
  distinct := by
    have same : (front ++ other :: back).map MemoryChunk.identity =
        (front ++ chunk :: back).map MemoryChunk.identity := by
      rw [map_append, map_append, map_cons, map_cons, identity]
    rw [same]
    exact consistent.distinct
  outstanding_iff := by
    intro range
    rw [outstanding_iff]
    exact exists_mem_append_cons.symm

/-- What is handed out is held by a chunk, or by one of those around it. -/
theorem Client.Consistent.outstanding_around :
    range ∈ outstanding ↔ (∃ chunk ∈ front ++ back, chunk.Holds range) ∨ chunk.Holds range :=
  (consistent.outstanding_iff range).trans exists_mem_append_cons

theorem Client.Consistent.chunk_sound : chunk.Sound := consistent.sound chunk (by simp)

end

end Chunks

section Allocate

variable {chunk : MemoryChunk} {outstanding : List (Nat × Nat)} {size : Nat}

/-- The allocation fails, or gives the address of its offset. -/
theorem allocate_cases (sound : chunk.Sound) (size : Nat) :
    ((FencedAllocator.alloc chunk.blocks_ size).offset = kInvalidOffset ∧
        (chunk.allocate size).pointer = 0) ∨
      ((FencedAllocator.alloc chunk.blocks_ size).offset ≠ kInvalidOffset ∧
        (chunk.allocate size).pointer = chunk.shm_.ptr +
          (FencedAllocator.alloc chunk.blocks_ size).offset ∧
        (chunk.allocate size).written = some (chunk.shm_id_,
          (FencedAllocator.alloc chunk.blocks_ size).offset)) := by
  have mapped := sound.mapped
  rw [MemoryChunk.allocate]
  rw [MemoryChunk.getPointer]
  by_cases failed : (FencedAllocator.alloc chunk.blocks_ size).offset = kInvalidOffset
  · exact .inl ⟨failed, if_pos failed⟩
  · refine .inr ⟨failed, if_neg failed, ?_⟩
    rw [if_neg failed, MemoryChunk.getOffset, if_pos (by omega), Nat.add_sub_cancel_left]

/-- The chunk holds what it held, and what the allocation gives. -/
theorem holds_allocate (sound : chunk.Sound) (size : Nat) (range : Nat × Nat) :
    MemoryChunk.Holds { chunk with
        blocks_ := (FencedAllocator.alloc chunk.blocks_ size).blocks } range ↔
      chunk.Holds range ∨ ((chunk.allocate size).pointer ≠ 0 ∧
        range = ((chunk.allocate size).pointer, allocSize size)) := by
  have mapped := sound.mapped
  have used : ∀ off, InUse
      (FencedAllocator.alloc chunk.blocks_ size).blocks (off, range.2) ↔ _ :=
    fun off => FencedAllocator.inUse_alloc sound.unsigned sound.wellFormed
  rw [MemoryChunk.Holds, MemoryChunk.Holds]
  simp only [used, or_and_right, exists_or]
  refine or_congr_right ?_
  rcases allocate_cases sound size with
    ⟨failed, isNull⟩ | ⟨succeeded, isPointer, -⟩
  · simp [failed, isNull]
  · rw [isPointer]
    constructor
    · rintro ⟨off, ⟨-, same⟩, isAddress⟩
      obtain ⟨rfl, sized⟩ := Prod.mk.inj same
      exact ⟨by omega, Prod.ext isAddress sized⟩
    · rintro ⟨-, rfl⟩
      exact ⟨_, ⟨succeeded, rfl⟩, rfl⟩

/-- Allocating in a chunk keeps the client consistent. -/
theorem Client.Consistent.allocate
    (inv : Client.Consistent ⟨front ++ chunk :: back, outstanding⟩)
    (size : Nat) :
    Client.Consistent ⟨(around front back (chunk.allocate size)).chunks,
        if (chunk.allocate size).pointer = 0 then outstanding
        else ((chunk.allocate size).pointer, allocSize size) :: outstanding⟩ := by
  have sound := inv.chunk_sound
  have isAround : (around front back (chunk.allocate size)).chunks =
      front ++ { chunk with
        blocks_ := (FencedAllocator.alloc chunk.blocks_ size).blocks } :: back := by
    simp [around, MemoryChunk.allocate]
  have formed := (FencedAllocator.alloc_spec size sound.wellFormed).1
  rw [isAround]
  refine inv.replace rfl ⟨sound.mapped, sound.unsigned, formed⟩ ?_
  intro range
  rw [holds_allocate sound, ← or_assoc, ← inv.outstanding_around]
  split
  · rename_i isNull
    simp [isNull]
  · rename_i notNull
    rw [mem_cons]
    simp only [ne_eq, notNull, not_false_eq_true, true_and]
    exact or_comm

/-- What an allocation is to give: a pointer that is not null, without a wait,
in the chunk that is written and at the offset that is written, and apart from
what is handed out. -/
structure Allocated (outstanding : List (Nat × Nat)) (size : Nat)
    (allocation : MappedAllocation) : Prop where
  nonNull : allocation.pointer ≠ 0
  unwaited : allocation.waited = []
  inside : ∃ chunk ∈ allocation.chunks, ∃ shm_offset,
    allocation.written = some (chunk.shm_id_, shm_offset) ∧
      (∀ other ∈ allocation.chunks, other.shm_id_ = chunk.shm_id_ -> other = chunk) ∧
      allocation.pointer = chunk.shm_.ptr + shm_offset ∧
      shm_offset + allocSize size <= chunk.shm_.size
  apart : ∀ range ∈ outstanding, Apart (allocation.pointer, allocSize size) range

/-- A chunk with a free block that is large enough gives an allocation. -/
theorem allocated_allocate (consistent : Client.Consistent ⟨front ++ chunk :: back, outstanding⟩)
    (fits : allocSize size <= getLargestFreeSize chunk.blocks_) :
    Allocated outstanding size (around front back (chunk.allocate size)) := by
  have sound := consistent.chunk_sound
  obtain ⟨succeeded, unwaited⟩ := FencedAllocator.alloc_of_le_getLargestFreeSize
    sound.unsigned (FencedAllocator.allocSize_pos size) sound.wellFormed fits
  rw [FencedAllocator.alloc_allocSize] at succeeded unwaited
  rcases allocate_cases sound size with
    ⟨failed, -⟩ | ⟨-, isPointer, isWritten⟩
  · exact (succeeded failed).elim
  · have mapped := sound.mapped
    have formed := (FencedAllocator.alloc_spec size sound.wellFormed).1
    have used := (FencedAllocator.inUse_alloc sound.unsigned sound.wellFormed).mpr
      (.inr ⟨succeeded, rfl⟩)
    have bounds := FencedAllocator.inUse_bounds formed used
    refine ⟨?_, unwaited, ?_, ?_⟩
    · show (chunk.allocate size).pointer ≠ 0
      omega
    · refine ⟨{ chunk with
          blocks_ := (FencedAllocator.alloc chunk.blocks_ size).blocks },
        by simp [around, MemoryChunk.allocate], _, isWritten, ?_, isPointer,
        bounds.2⟩
      intro other mem sameId
      have isAround : (around front back (chunk.allocate size)).chunks =
          front ++ { chunk with
            blocks_ := (FencedAllocator.alloc chunk.blocks_ size).blocks } :: back := by
        simp [around, MemoryChunk.allocate]
      rw [isAround] at mem
      by_contra ne
      have around_ : other ∈ front ++ back := by
        simp only [mem_append, mem_cons, ne, false_or] at mem
        exact mem_append.mpr mem
      exact (distinct_around consistent.distinct around_).1 sameId.symm
    · intro range mem
      show Apart ((chunk.allocate size).pointer, allocSize size) range
      rcases consistent.outstanding_around.mp mem with
        ⟨other, around_, inv⟩ | ⟨off, wasUsed, isAddress⟩
      · have nodup := (distinct_around consistent.distinct around_).2
        have otherBounds := bounds_of_holds (consistent.sound other (by
            simp only [mem_append, mem_cons] at around_ ⊢
            exact around_.imp_right .inr)) inv
        dsimp only [Apart] at nodup ⊢
        omega
      · have apart := FencedAllocator.apart_alloc sound.unsigned sound.wellFormed succeeded wasUsed
        dsimp only [Apart] at apart ⊢
        omega

end Allocate

section Search

variable {created : Option (Int × Buffer)} {size : Nat}
  {chunks back : List MemoryChunk} {outstanding : List (Nat × Nat)}

/-- The chunk has no room for a request, also after freeing what is unused. -/
def Lacks (lastTokenRead : Int) (size : Nat) (chunk : MemoryChunk) : Prop :=
  (chunk.freeUnused lastTokenRead).getLargestFreeSizeWithoutWaiting < size

/-- The first chunk with room is found, or a new one is to be made. -/
theorem alloc_cases (lastTokenRead : Int) (created : Option (Int × Buffer)) (size : Nat)
    (chunks : List MemoryChunk) :
    (∃ front chunk back, chunks = front ++ chunk :: back ∧
        (∀ other ∈ front, Lacks lastTokenRead size other) ∧ ¬ Lacks lastTokenRead size chunk ∧
        alloc lastTokenRead created size chunks =
          around (front.map (·.freeUnused lastTokenRead)) back
            ((chunk.freeUnused lastTokenRead).allocate size)) ∨
      ((∀ other ∈ chunks, Lacks lastTokenRead size other) ∧
        alloc lastTokenRead created size chunks =
          around (chunks.map (·.freeUnused lastTokenRead)) []
            (alloc lastTokenRead created size [])) := by
  induction chunks with
  | nil => exact .inr ⟨forall_mem_nil _,
      by simp [around]⟩
  | cons chunk chunks ih =>
    rw [alloc]
    split
    · rename_i fits
      exact .inl ⟨[], chunk, chunks, rfl, forall_mem_nil _, Nat.not_lt_of_le fits, rfl⟩
    · rename_i lacks
      have chunkLacks : Lacks lastTokenRead size chunk := Nat.lt_of_not_le lacks
      rcases ih with
        ⟨front, hit, back, rfl, frontLacks, fits, isAlloc⟩ |
        ⟨allLack, isAlloc⟩
      · refine .inl ⟨chunk :: front, hit, back, rfl,
          forall_mem_cons.mpr ⟨chunkLacks, frontLacks⟩, fits, ?_⟩
        rw [isAlloc]
        simp [around]
      · refine .inr ⟨forall_mem_cons.mpr ⟨chunkLacks, allLack⟩, ?_⟩
        rw [isAlloc]
        simp [around]

/-- Freeing what is unused in chunks keeps the client consistent. -/
theorem Client.Consistent.freeUnused (lastTokenRead : Int)
    (inv : Client.Consistent ⟨chunks ++ back, outstanding⟩) :
    Client.Consistent ⟨chunks.map (·.freeUnused lastTokenRead) ++ back, outstanding⟩ := by
  refine inv.map_front (fun _ => rfl) (fun chunk sound => ?_) ?_
  · exact ⟨sound.mapped, sound.unsigned,
      (FencedAllocator.freeUnusedFrom_spec _ 0 sound.wellFormed).1⟩
  · intro chunk range sound
    exact exists_congr fun off => and_congr_left fun _ =>
      FencedAllocator.inUse_freeUnused sound.wellFormed

/-- So does it in the chunk that is found, too. -/
theorem Client.Consistent.freeUnused_found {front : List MemoryChunk} (lastTokenRead : Int)
    (inv : Client.Consistent ⟨front ++ chunk :: back, outstanding⟩) :
    Client.Consistent ⟨front.map (·.freeUnused lastTokenRead) ++
        chunk.freeUnused lastTokenRead :: back, outstanding⟩ := by
  rw [append_cons] at inv
  have freed := inv.freeUnused lastTokenRead
  rwa [map_append, map_singleton, ← append_cons] at freed

theorem Client.Consistent.create {id : Int} (inv : Client.Consistent ⟨chunks, outstanding⟩)
    (supplied : Supplied chunks size (id, shm)) :
    Client.Consistent ⟨chunks ++ [MemoryChunk.create id shm], outstanding⟩ where
  sound := by
    have pos : 0 < shm.size :=
      Nat.lt_of_lt_of_le (FencedAllocator.allocSize_pos size) supplied.large
    rw [forall_mem_append, forall_mem_singleton]
    exact ⟨inv.sound, supplied.mapped, supplied.unsigned,
      (FencedAllocator.Session.start_consistent pos).wellFormed⟩
  distinct := by
    rw [map_append, map_singleton, pairwise_append]
    refine ⟨inv.distinct, pairwise_singleton _ _, ?_⟩
    intro identity mem new isNew
    obtain ⟨chunk, wasThere, rfl⟩ := List.mem_map.mp mem
    obtain rfl := mem_singleton.mp isNew
    exact supplied.distinct chunk wasThere
  outstanding_iff := by
    intro range
    have empty : ¬ (MemoryChunk.create id shm).Holds range := by
      rintro ⟨off, ⟨block, mem, used, -⟩, -⟩
      rw [mem_singleton.mp mem] at used
      cases used
    rw [inv.outstanding_iff]
    simp [or_and_right, exists_or, empty]

theorem Supplied.freeUnused (supplied : Supplied chunks size new) :
    Supplied (chunks.map (·.freeUnused lastTokenRead)) size new where
  large := supplied.large
  mapped := supplied.mapped
  unsigned := supplied.unsigned
  distinct chunk member := by
    obtain ⟨before, wasThere, rfl⟩ := List.mem_map.mp member
    exact supplied.distinct before wasThere

/-- An allocation keeps the client consistent. -/
theorem Client.Consistent.perform_alloc (inv : Client.Consistent ⟨chunks, outstanding⟩)
    (supplied : ∀ new ∈ created, Supplied chunks size new) :
    (Client.perform ⟨chunks, outstanding⟩ (.alloc size lastTokenRead created)).Consistent := by
  rw [Client.perform]
  rcases alloc_cases lastTokenRead created size chunks with
    ⟨front, chunk, back, rfl, -, -, isAlloc⟩ | ⟨-, isAlloc⟩
  · rw [isAlloc]
    exact (inv.freeUnused_found lastTokenRead).allocate size
  · rw [← append_nil chunks] at inv
    have freed := inv.freeUnused lastTokenRead
    rw [isAlloc]
    cases created with
    | none => simpa [alloc, around] using freed
    | some new =>
      rw [append_nil] at freed
      exact (freed.create (supplied new rfl).freeUnused).allocate size

end Search

section Free

variable {pointer size : Nat} {chunks front back : List MemoryChunk} {chunk : MemoryChunk}
  {outstanding : List (Nat × Nat)} {change : MemoryChunk -> MemoryChunk}

theorem changeChunk_eq (before : ∀ other ∈ front, other.isInChunk pointer = false)
    (hit : chunk.isInChunk pointer) :
    changeChunk pointer change (front ++ chunk :: back) = front ++ change chunk :: back := by
  induction front with
  | nil => exact if_pos hit
  | cons other front ih =>
    rw [forall_mem_cons] at before
    rw [cons_append, changeChunk, if_neg (by simp [before.1]), ih before.2]
    rfl

/-- A pointer that is handed out is in the chunk that holds it only. -/
theorem isInChunk_iff (sound : chunk.Sound) (inv : chunk.Holds (pointer, size))
    (nodup : ∀ other ∈ front ++ back, Distinct chunk.identity other.identity) :
    chunk.isInChunk pointer ∧ ∀ other ∈ front ++ back, other.isInChunk pointer = false := by
  have bounds := bounds_of_holds sound inv
  refine ⟨decide_eq_true ⟨bounds.2.1, by omega⟩, fun other mem => ?_⟩
  have apart := (nodup other mem).2
  dsimp only [Apart] at apart
  refine decide_eq_false ?_
  omega

/-- Taking a pointer out of the chunk that holds it. -/
theorem Client.Consistent.changeChunk (consistent : Client.Consistent ⟨chunks, outstanding⟩)
    (listed : (pointer, size) ∈ outstanding)
    (identity : ∀ chunk, (change chunk).identity = chunk.identity)
    (changed : ∀ chunk : MemoryChunk, chunk.Sound -> chunk.Holds (pointer, size) ->
      (change chunk).Sound ∧ ∀ range, (change chunk).Holds range ↔
        chunk.Holds range ∧ range.1 ≠ pointer) :
    Client.Consistent ⟨changeChunk pointer change chunks, outstanding.filter (·.1 ≠ pointer)⟩ := by
  obtain ⟨chunk, mem, inv⟩ := (consistent.outstanding_iff (pointer, size)).mp listed
  obtain ⟨front, back, rfl⟩ := append_of_mem mem
  have sound := consistent.chunk_sound
  obtain ⟨changedSound, changedHolds⟩ := changed chunk sound inv
  obtain ⟨hit, others⟩ := isInChunk_iff sound inv fun other around_ =>
    distinct_around consistent.distinct around_
  rw [changeChunk_eq (fun other inFront => others other (mem_append_left _ inFront)) hit]
  refine consistent.replace (identity chunk) changedSound fun range => ?_
  rw [mem_filter, decide_eq_true_eq, consistent.outstanding_around, changedHolds, or_and_right]
  refine or_congr_left (and_iff_left_of_imp ?_)
  rintro ⟨other, around_, otherHolds⟩ rfl
  -- The other chunk would have the pointer in its memory.
  have otherSound : other.Sound := consistent.sound other (by
    simp only [mem_append, mem_cons] at around_ ⊢
    exact around_.imp_right .inr)
  have bounds := bounds_of_holds otherSound otherHolds
  have outside := of_decide_eq_false (others other around_)
  omega

/-- The chunk after its allocator has freed a block. -/
theorem holds_freed (sound : chunk.Sound)
    (freed : WellFormed chunk.shm_.size blocks ∧ ∀ range, InUse blocks range ↔
        InUse chunk.blocks_ range ∧ range.1 ≠ offset)
    (isAddress : pointer = chunk.shm_.ptr + offset) :
    MemoryChunk.Sound { chunk with blocks_ := blocks } ∧
      ∀ range, MemoryChunk.Holds { chunk with blocks_ := blocks } range ↔
        chunk.Holds range ∧ range.1 ≠ pointer := by
  refine ⟨⟨sound.mapped, sound.unsigned, freed.1⟩, fun range => ?_⟩
  rw [MemoryChunk.Holds, MemoryChunk.Holds]
  simp only [freed.2]
  constructor
  · rintro ⟨other, ⟨used, ne⟩, isOther⟩
    exact ⟨⟨other, used, isOther⟩, by omega⟩
  · rintro ⟨⟨other, used, isOther⟩, ne⟩
    exact ⟨other, ⟨used, by omega⟩, isOther⟩

/-- The offset of a pointer into the memory of a chunk. -/
theorem getOffset_eq (sound : chunk.Sound) (isAddress : pointer = chunk.shm_.ptr + offset) :
    chunk.getOffset pointer = offset := by
  have mapped := sound.mapped
  rw [MemoryChunk.getOffset, if_pos (by omega)]
  omega

/-- Freeing at once keeps the client consistent. -/
theorem Client.Consistent.perform_free (inv : Client.Consistent ⟨chunks, outstanding⟩)
    (listed : (pointer, size) ∈ outstanding) :
    (Client.perform ⟨chunks, outstanding⟩ (.free pointer)).Consistent := by
  refine inv.changeChunk listed (fun _ => rfl) ?_
  rintro chunk sound ⟨off, used, isAddress⟩
  rw [MemoryChunk.free, getOffset_eq sound isAddress]
  exact holds_freed sound (FencedAllocator.inUse_free sound.wellFormed used) isAddress

theorem Client.Consistent.perform_freePendingToken
    (inv : Client.Consistent ⟨chunks, outstanding⟩) (listed : (pointer, size) ∈ outstanding)
    (token : Int) :
    (Client.perform ⟨chunks, outstanding⟩ (.freePendingToken pointer token)).Consistent := by
  refine inv.changeChunk listed (fun _ => rfl) ?_
  rintro chunk sound ⟨off, used, isAddress⟩
  rw [MemoryChunk.freePendingToken, getOffset_eq sound isAddress]
  exact holds_freed sound (FencedAllocator.inUse_freePendingToken sound.wellFormed used) isAddress

end Free

/-- Every permitted call keeps the client consistent. -/
theorem Client.Consistent.performed {client next : Client} (inv : client.Consistent)
    (performed : client.Performed call next) :
    next.Consistent := by
  obtain ⟨ok, rfl⟩ := performed
  cases call with
  | alloc size lastTokenRead created => exact inv.perform_alloc ok
  | free pointer =>
    obtain ⟨size, listed⟩ := ok
    exact inv.perform_free listed
  | freePendingToken pointer token =>
    obtain ⟨size, listed⟩ := ok
    exact inv.perform_freePendingToken listed token

/-- The first chunk has a block that is free, or is pending a token that was
read. -/
def FirstUnused (lastTokenRead : Int) (chunks : List MemoryChunk) : Prop :=
  ∀ chunk ∈ chunks.head?, ∃ block ∈ chunk.blocks_, Unused lastTokenRead block

/-- A chunk has room for one byte if it has a block that is unused. -/
theorem one_le_getLargestFreeSize_iff {chunk : MemoryChunk} (sound : chunk.Sound) :
    1 <= getLargestFreeSize (chunk.freeUnused lastTokenRead).blocks_ ↔
      ∃ block ∈ chunk.blocks_, Unused lastTokenRead block := by
  have formed := (FencedAllocator.freeUnusedFrom_spec lastTokenRead 0 sound.wellFormed).1
  rw [FencedAllocator.le_getLargestFreeSize_iff Nat.one_pos,
    ← FencedAllocator.exists_free_freeUnused_iff sound.wellFormed]
  refine exists_congr fun block => and_congr_right fun mem => ?_
  exact and_iff_left (formed.tiles.mem_bounds mem).2.1

/-- A request of zero bytes that is allocated has found room for one. -/
theorem one_le_of_allocated {chunk : MemoryChunk} (sound : chunk.Sound)
    (allocated : Allocated outstanding 0 (around front back (chunk.allocate 0))) :
    1 <= getLargestFreeSize chunk.blocks_ := by
  by_contra lacks
  have waits := FencedAllocator.alloc_of_getLargestFreeSize_lt Nat.one_pos (Nat.lt_of_not_le lacks)
  rcases allocate_cases sound 0 with ⟨-, isNull⟩ | ⟨succeeded, -⟩
  · exact allocated.nonNull isNull
  · exact succeeded (waits allocated.unwaited)

/-- In every reachable state, an allocation for which the command buffer can
supply a buffer gives what it is to give, except for a request of zero bytes
where the first chunk has no block that is unused. -/
theorem mappedMemory_run_alloc_iff
    {calls : List Call} {client : Client} {lastTokenRead : Int} {size : Nat}
    {new : Int × Buffer} (run : Run Client.Performed {} calls client)
    (supplied : Supplied client.chunks size new) :
    Allocated client.outstanding size (alloc lastTokenRead (some new) size client.chunks) ↔
      (size = 0 -> FirstUnused lastTokenRead client.chunks) := by
  have consistent : client.Consistent :=
    run.invariant Client.Consistent (fun consistent performed => consistent.performed performed)
      Client.start_consistent
  obtain ⟨chunks, outstanding⟩ := client
  rcases alloc_cases lastTokenRead (some new) size chunks with
    ⟨front, chunk, back, rfl, lacking, room, isAlloc⟩ | ⟨lacking, isAlloc⟩
  · rw [isAlloc]
    have freed := consistent.freeUnused_found lastTokenRead
    rcases Nat.eq_zero_or_pos size with rfl | positive
    · -- No chunk lacks room for no bytes, so the first one is taken.
      have isFirst : front = [] :=
        eq_nil_iff_forall_not_mem.mpr fun other member => Nat.not_lt_zero _ (lacking other member)
      subst isFirst
      have firstUnused : FirstUnused lastTokenRead ([] ++ chunk :: back) ↔
          1 <= getLargestFreeSize (chunk.freeUnused lastTokenRead).blocks_ := by
        rw [one_le_getLargestFreeSize_iff consistent.chunk_sound]
        simp [FirstUnused]
      rw [firstUnused]
      refine ⟨fun allocated _ => ?_, fun fits => allocated_allocate freed (fits rfl)⟩
      exact one_le_of_allocated freed.chunk_sound allocated
    · have isSize : allocSize size = size := if_neg positive.ne'
      refine iff_of_true (allocated_allocate freed ?_) fun isZero => ?_
      · rw [isSize]
        exact Nat.le_of_not_lt room
      · omega
  · rw [isAlloc]
    rw [← append_nil chunks] at consistent
    have freed := consistent.freeUnused lastTokenRead
    rw [append_nil] at freed
    refine iff_of_true (allocated_allocate (freed.create supplied.freeUnused) ?_) ?_
    · refine (FencedAllocator.le_getLargestFreeSize_iff (FencedAllocator.allocSize_pos size)).mpr ?_
      exact ⟨_, mem_singleton.mpr rfl, rfl, supplied.large⟩
    · rintro rfl chunk isFirst
      exact absurd (lacking chunk (List.mem_of_mem_head? isFirst)) (Nat.not_lt_zero _)

/-- A client with one allocation of 16 bytes in a buffer. -/
def oneAllocation (size : Nat) : Client :=
  ({} : Client).perform (.alloc 16 0 (some (1, ⟨4096, size, none⟩)))

theorem oneAllocation_performed (large : 16 <= size) (unsigned : size < 2 ^ 32) :
    Run Client.Performed {} [.alloc 16 0 (some (1, ⟨4096, size, none⟩))] (oneAllocation size) := by
  refine .single ⟨?_, rfl⟩
  rintro new ⟨⟩
  have mapped : 0 < 4096 := by decide
  exact ⟨large, mapped, unsigned, forall_mem_nil _⟩

theorem mappedMemory_run_alloc_iff_rest : Allocated (oneAllocation 32).outstanding 0
      (alloc 0 (some (2, ⟨8192, 8, none⟩)) 0 (oneAllocation 32).chunks) := by
  have supplied : Supplied (oneAllocation 32).chunks 0 (2, ⟨8192, 8, none⟩) := by
    refine ⟨by decide, by decide, by decide, fun chunk member => ?_⟩
    rw [mem_singleton.mp member, Distinct]
    decide
  refine (mappedMemory_run_alloc_iff
    (oneAllocation_performed (by decide) (by decide)) supplied).mpr ?_
  rintro - chunk ⟨⟩
  exact ⟨⟨.free, 16, 16, 0⟩, by decide, .inl rfl⟩

/-- A chunk that is full is taken for a request of zero bytes. -/
theorem null_for_zero_bytes : ∃ client calls new, Run Client.Performed {} calls client ∧
      Supplied client.chunks 0 new ∧ (alloc 0 (some new) 0 client.chunks).pointer = 0 := by
  refine ⟨oneAllocation 16, _, (2, ⟨8192, 8, none⟩),
    oneAllocation_performed (by decide) (by decide), ?_, ?_⟩
  · refine ⟨by decide, by decide, by decide, fun chunk member => ?_⟩
    rw [mem_singleton.mp member, Distinct]
    decide
  · have isChunks : (oneAllocation 16).chunks =
        [⟨1, ⟨4096, 16, none⟩, [⟨.inUse, 0, 16, 0⟩]⟩] := by decide
    have isFreed : FencedAllocator.freeUnusedFrom 0 [⟨.inUse, 0, 16, 0⟩] 0 =
        [⟨.inUse, 0, 16, 0⟩] := by
      simp [FencedAllocator.freeUnusedFrom]
    have fails : FencedAllocator.alloc [⟨.inUse, 0, 16, 0⟩] 0 =
        ⟨kInvalidOffset, [⟨.inUse, 0, 16, 0⟩], []⟩ := by
      simp [FencedAllocator.alloc, FencedAllocator.allocAfterWaiting, findIdx?_cons]
    rw [isChunks, alloc, MemoryChunk.freeUnused]
    rw [isFreed, if_pos (Nat.zero_le _)]
    show MemoryChunk.getPointer _ (FencedAllocator.alloc _ 0).offset = 0
    rw [fails]
    rfl

end MappedMemoryManager

end

end Chromium.Gpu
