import Chromium.Library.Bytes
import Chromium.Library.Fence
import Chromium.Library.Run
import Chromium.Library.Tiling

/-!
# The ring buffer

`RingBuffer` manages a fixed range of memory as a queue of blocks. Blocks are
added at the free offset and freed in the same order at the in-use offset. A
block that would not fit before the end of the range is preceded by a block of
padding.

Offsets and sizes are unsigned 32-bit integers, and the source adds and
subtracts them without a check, so the arithmetic is kept modulo the word size.
A failed `GPU_DCHECK` is a fault.
-/

namespace Chromium.Gpu

open List

namespace RingBuffer

open Library

/-- Status of a block of memory. -/
inductive State
  | inUse
  | padding
  | freePendingToken
  deriving DecidableEq

/-- Book-keeping structure that describes a block of memory. -/
structure Block where
  offset : Nat
  size : Nat
  token : Nat
  state : State
  deriving DecidableEq

/-- The members of the class, with the blocks from the oldest to the newest. -/
structure Ring where
  baseOffset : Nat
  size : Nat
  freeOffset : Nat
  inUseOffset : Nat
  blocks : List Block
  deriving DecidableEq

/-- The checks of the source that can fail. -/
inductive Fault
  | noFreeBlocks
  | moreThanMaximumMemory
  | previousNotFreed
  | freeOffsetNotReset
  | noAllocations
  | alreadyFreed
  | nonExistentBlock
  deriving DecidableEq

/-- The constructor: nothing is allocated. -/
def init (baseOffset size : Nat) : Ring := ⟨baseOffset, size, 0, 0, []⟩

section

variable (ring : Ring)

/-- `RingBuffer::FreeOldestBlock`. Returns the tokens it waited for. -/
def freeOldestBlock : Except Fault (Ring × List Nat) :=
  match ring.blocks with
  | [] => .error .noFreeBlocks
  | block :: rest =>
    if block.state = .inUse then .error .moreThanMaximumMemory
    else
      let waited := if block.state = .freePendingToken then [block.token] else []
      let advanced := Unsigned.add 32 ring.inUseOffset block.size
      let inUseOffset := if advanced = ring.size then 0 else advanced
      if inUseOffset = ring.freeOffset then
        .ok ({ ring with
          inUseOffset := 0, freeOffset := 0, blocks := rest }, waited)
      else .ok ({ ring with inUseOffset := inUseOffset, blocks := rest }, waited)

/-- `RingBuffer::GetLargestFreeSizeNoWaiting`. -/
def getLargestFreeSizeNoWaiting : Except Fault Nat :=
  if ring.freeOffset = ring.inUseOffset then
    if ring.blocks = [] then
      if ring.freeOffset = 0 then .ok ring.size
      else .error .freeOffsetNotReset
    else .ok 0
  else if ring.inUseOffset < ring.freeOffset then
    .ok (max (Unsigned.sub 32 ring.size ring.freeOffset) ring.inUseOffset)
  else .ok (Unsigned.sub 32 ring.inUseOffset ring.freeOffset)

/-- `RingBuffer::GetLargestFreeOrPendingSize`. -/
def getLargestFreeOrPendingSize : Nat := ring.size

/-- Freeing the oldest block leaves one block less. -/
theorem length_freeOldestBlock {ring next : Ring}
    (freed : freeOldestBlock ring = .ok (next, waited)) :
    next.blocks.length < ring.blocks.length := by
  unfold freeOldestBlock at freed
  split at freed
  · cases freed
  · rename_i block rest equality
    rw [equality]
    split at freed
    · cases freed
    · dsimp only at freed
      generalize (if Unsigned.add 32 ring.inUseOffset block.size = ring.size
        then 0 else Unsigned.add 32 ring.inUseOffset block.size) = offset
        at freed
      split at freed <;> cases freed <;> simp

/-- The loop of `RingBuffer::Alloc` that waits until there is enough room. -/
def waitForRoom (size : Nat) (ring : Ring) : Except Fault (Ring × List Nat) :=
  match getLargestFreeSizeNoWaiting ring with
  | .error fault => .error fault
  | .ok largest =>
    if largest < size then
      match _freed : freeOldestBlock ring with
      | .error fault => .error fault
      | .ok (next, waited) =>
        match waitForRoom size next with
        | .error fault => .error fault
        | .ok (last, others) => .ok (last, waited ++ others)
    else .ok (ring, [])
termination_by ring.blocks.length
decreasing_by exact length_freeOldestBlock _freed

/-- Fill the space before the end of the range before wrapping around. -/
def pad : Ring :=
  { ring with
    blocks := ring.blocks ++ [⟨ring.freeOffset,
      Unsigned.sub 32 ring.size ring.freeOffset, 0, .padding⟩]
    freeOffset := 0 }

/-- Add a block in use at the free offset. -/
def place (size : Nat) : Ring :=
  let advanced := Unsigned.add 32 ring.freeOffset size
  { ring with
    blocks := ring.blocks ++ [⟨ring.freeOffset, size, 0, .inUse⟩]
    freeOffset := if advanced = ring.size then 0 else advanced }

/-- The size a request takes: an allocation of zero bytes takes one. -/
def allocSize (asked : Nat) : Nat := if asked = 0 then 1 else asked

/-- The ring into which a block is placed, padded if the block does not fit
before the end of the range. -/
def padFor (size : Nat) : Ring :=
  if ring.size < Unsigned.add 32 size ring.freeOffset then pad ring else ring

end

/-- What an allocation returns: the offset, the ring and the tokens it waited
for. -/
structure Allocation where
  offset : Nat
  ring : Ring
  waited : List Nat
  deriving DecidableEq

/-- `RingBuffer::Alloc`. -/
def alloc (ring : Ring) (asked : Nat) : Except Fault Allocation :=
  if ring.size < asked then .error .moreThanMaximumMemory
  else if ring.blocks.getLast?.any (·.state = .inUse) then .error .previousNotFreed
  else
    match waitForRoom (allocSize asked) ring with
    | .error fault => .error fault
    | .ok (ready, waited) =>
      let padded := padFor ready (allocSize asked)
      .ok ⟨Unsigned.add 32 padded.freeOffset ring.baseOffset,
        place padded (allocSize asked), waited⟩

/-- The loop of `RingBuffer::FreePendingToken`, on the blocks from the newest
to the oldest. -/
def freeNewest (offset token : Nat) : List Block -> Except Fault (List Block)
  | [] => .error .nonExistentBlock
  | block :: older =>
    if block.offset = offset then
      if block.state = .inUse then
        .ok ({ block with token := token, state := .freePendingToken } :: older)
      else .error .alreadyFreed
    else
      match freeNewest offset token older with
      | .error fault => .error fault
      | .ok freed => .ok (block :: freed)

/-- `RingBuffer::FreePendingToken`. -/
def freePendingToken (ring : Ring) (offset token : Nat) : Except Fault Ring :=
  if ring.blocks = [] then .error .noAllocations
  else
    match freeNewest (Unsigned.sub 32 offset ring.baseOffset) token ring.blocks.reverse with
    | .error fault => .error fault
    | .ok freed => .ok { ring with blocks := freed.reverse }

end RingBuffer

/-!
## Safety of the ring buffer

The blocks of the ring are laid out cyclically from the in-use offset to the
free offset. Freeing the oldest block keeps the layout, and so does placing a
block where the largest free fragment has room for it, as long as the sum that
decides about the padding does not wrap around.
-/

namespace RingBuffer

open Library

/-- The blocks are laid out cyclically from the in-use offset to the free
offset of a ring of a given size. -/
inductive Layout (size : Nat) : Nat -> Nat -> List Block -> Prop
  | empty : Layout size 0 0 []
  | linear {inUse free : Nat} {blocks : List Block} :
      Tiles Block.offset Block.size inUse blocks free ->
      inUse < free ->
      free < size ->
      Layout size inUse free blocks
  | wrapped {inUse free : Nat} {high low : List Block} :
      Tiles Block.offset Block.size inUse high size ->
      Tiles Block.offset Block.size 0 low free ->
      free <= inUse ->
      inUse < size ->
      Layout size inUse free (high ++ low)

/-- The layout of the blocks of a ring. -/
def Ring.LaidOut (ring : Ring) : Prop :=
  Layout ring.size ring.inUseOffset ring.freeOffset ring.blocks

/-- The bytes of a block relative to the start of the ring. -/
def Block.range (block : Block) : Nat × Nat := (block.offset, block.size)

variable {blocks : List Block} {ring : Ring}

/-- A tiling up to the end of the ring is laid out with free offset zero. -/
theorem Layout.full (tiles : Tiles Block.offset Block.size inUse blocks size)
    (lt : inUse < size) :
    Layout size inUse 0 blocks := by
  have layout : Layout size inUse 0 (blocks ++ []) :=
    .wrapped tiles (Tiles.nil_iff.mpr rfl) (Nat.zero_le inUse) lt
  rwa [append_nil] at layout

/-- Every block of a ring is nonempty and lies inside it. -/
theorem Layout.mem_bounds (layout : Layout size inUse free blocks) (mem : block ∈ blocks) :
    0 < block.size ∧ block.offset + block.size <= size := by
  cases layout with
  | empty => simp at mem
  | linear tiles nonempty inside =>
    have := tiles.mem_bounds mem
    omega
  | wrapped high low ordered inside =>
    rcases mem_append.mp mem with inHigh | inLow
    · exact (high.mem_bounds inHigh).2
    · have := low.mem_bounds inLow
      omega

/-- The blocks of a ring do not overlap. -/
theorem Layout.pairwise (layout : Layout size inUse free blocks) :
    blocks.Pairwise fun left right => Apart left.range right.range := by
  cases layout with
  | empty => exact .nil
  | linear tiles nonempty inside => exact tiles.pairwise.imp Or.inl
  | wrapped high low ordered inside =>
    rw [pairwise_append]
    refine ⟨high.pairwise.imp Or.inl, low.pairwise.imp Or.inl, ?_⟩
    intro left inHigh right inLow
    have := high.mem_bounds inHigh
    have := low.mem_bounds inLow
    exact Or.inr (by simp only [Block.range]; omega)

/-- Freeing the oldest block keeps the layout. -/
theorem freeOldestBlock_spec (unsigned : ring.size < 2 ^ 32)
    (laidOut : ring.LaidOut) (oldest : ring.blocks = block :: rest)
    (settled : block.state ≠ .inUse) :
    ∃ next waited, freeOldestBlock ring = .ok (next, waited) ∧ next.LaidOut ∧
      next.baseOffset = ring.baseOffset ∧ next.size = ring.size ∧ next.blocks = rest ∧
      (next.freeOffset = ring.freeOffset ∨ rest = []) ∧
      (block.state = .freePendingToken -> block.token ∈ waited) := by
  obtain ⟨baseOffset, size, freeOffset, inUseOffset, blocks⟩ := ring
  simp only [Ring.LaidOut] at laidOut oldest unsigned
  subst oldest
  have passed : block.state = .freePendingToken -> block.token ∈
      (if block.state = .freePendingToken then [block.token] else []) := by
    intro pending
    simp [pending]
  simp only [freeOldestBlock, if_neg settled]
  generalize equality : block :: rest = blocks at laidOut
  cases laidOut with
  | empty => cases equality
  | linear tiles nonempty inside =>
    subst equality
    obtain ⟨starts, pos, restTiles⟩ := tiles
    have bound := restTiles.le
    have notEnd : inUseOffset + block.size ≠ size := by omega
    rw [Unsigned.add_of_lt (by omega), if_neg notEnd]
    split
    · rename_i equal
      rw [equal] at restTiles
      have finished := restTiles.eq_nil
      subst finished
      exact ⟨_, _, rfl, .empty, rfl, rfl, rfl, Or.inr rfl, passed⟩
    · refine ⟨_, _, rfl, ?_, rfl, rfl, rfl, Or.inl rfl, passed⟩
      exact .linear restTiles (by dsimp only; omega) inside
  | @wrapped _ _ high low highTiles lowTiles ordered inside =>
    cases high with
    | nil =>
      have := Tiles.nil_iff.mp highTiles
      omega
    | cons head later =>
      obtain ⟨rfl, rfl⟩ := equality
      obtain ⟨starts, pos, laterTiles⟩ := highTiles
      have bound := laterTiles.le
      rw [Unsigned.add_of_lt (by omega)]
      by_cases reachesEnd : inUseOffset + block.size = size
      · rw [reachesEnd] at laterTiles
        have finished := laterTiles.eq_nil
        subst finished
        rw [if_pos reachesEnd]
        split
        · rename_i emptied
          rw [← emptied] at lowTiles
          have lowFinished := lowTiles.eq_nil
          subst lowFinished
          exact ⟨_, _, rfl, .empty, rfl, rfl, rfl, Or.inr rfl, passed⟩
        · refine ⟨_, _, rfl, ?_, rfl, rfl, rfl, Or.inl rfl, passed⟩
          exact .linear lowTiles (by dsimp only; omega) (by dsimp only; omega)
      · rw [if_neg reachesEnd, if_neg (by omega)]
        refine ⟨_, _, rfl, ?_, rfl, rfl, rfl, Or.inl rfl, passed⟩
        exact .wrapped laterTiles lowTiles (by dsimp only; omega) (by dsimp only; omega)

/-- The size of the largest fragment that is free without waiting. -/
def Ring.room (ring : Ring) : Nat :=
  if ring.blocks = [] then ring.size
  else if ring.inUseOffset < ring.freeOffset then max (ring.size - ring.freeOffset) ring.inUseOffset
  else ring.inUseOffset - ring.freeOffset

/-- The space query returns the size of the largest free fragment. -/
theorem getLargestFreeSizeNoWaiting_eq (unsigned : ring.size < 2 ^ 32) (laidOut : ring.LaidOut) :
    getLargestFreeSizeNoWaiting ring = .ok ring.room := by
  obtain ⟨baseOffset, size, freeOffset, inUseOffset, blocks⟩ := ring
  simp only [Ring.LaidOut] at laidOut unsigned
  unfold getLargestFreeSizeNoWaiting Ring.room
  cases laidOut with
  | empty => simp
  | linear tiles nonempty inside =>
    have occupied : blocks ≠ [] := by
      rintro rfl
      have := Tiles.nil_iff.mp tiles
      omega
    simp only [if_neg occupied, if_pos nonempty]
    rw [if_neg (by omega), Unsigned.sub_of_le (by omega) unsigned]
  | @wrapped _ _ high low highTiles lowTiles ordered inside =>
    have occupied : high ++ low ≠ [] := by
      intro vacant
      rw [(append_eq_nil_iff.mp vacant).1] at highTiles
      have := Tiles.nil_iff.mp highTiles
      omega
    simp only [if_neg occupied]
    rw [if_neg (Nat.not_lt.mpr ordered), if_neg (Nat.not_lt.mpr ordered)]
    by_cases full : freeOffset = inUseOffset
    · rw [if_pos full, full, Nat.sub_self]
    · rw [if_neg full, Unsigned.sub_of_le ordered (by omega)]

/-- The loop stops at once when there is room. -/
theorem waitForRoom_eq_self (query : getLargestFreeSizeNoWaiting ring = .ok largest)
    (roomy : request <= largest) :
    waitForRoom request ring = .ok (ring, []) := by
  rw [waitForRoom, query]
  exact if_neg (Nat.not_lt.mpr roomy)

/-- The loop frees the oldest block when there is no room. -/
theorem waitForRoom_eq_append {next : Ring} (query : getLargestFreeSizeNoWaiting ring = .ok largest)
    (lacking : largest < request) (freedOldest : freeOldestBlock ring = .ok (next, waited))
    (finished : waitForRoom request next = .ok (last, others)) :
    waitForRoom request ring = .ok (last, waited ++ others) := by
  rw [waitForRoom, query]
  simp only [if_pos lacking]
  split
  · rename_i failed
    rw [freedOldest] at failed
    cases failed
  · rename_i first tokens freed
    rw [freedOldest] at freed
    cases freed
    rw [finished]

/-- Waiting for a size that fits ends with enough room, frees only settled
blocks from the front, and waits for each pending block that it frees. -/
theorem waitForRoom_spec (unsigned : ring.size < 2 ^ 32) (fits : request <= ring.size)
    (laidOut : ring.LaidOut) (settled : ∀ block ∈ ring.blocks, block.state ≠ .inUse) :
    ∃ next waited freed, waitForRoom request ring = .ok (next, waited) ∧ next.LaidOut ∧
      next.baseOffset = ring.baseOffset ∧ next.size = ring.size ∧
      ring.blocks = freed ++ next.blocks ∧ (next.freeOffset = ring.freeOffset ∨ next.blocks = []) ∧
      (∀ block ∈ freed, block.state = .freePendingToken -> block.token ∈ waited) ∧
      request <= next.room := by
  have query := getLargestFreeSizeNoWaiting_eq unsigned laidOut
  generalize equality : ring.blocks = blocks at settled
  induction blocks generalizing ring with
  | nil =>
    have roomy : request <= ring.room := by
      rw [Ring.room, if_pos equality]
      exact fits
    exact ⟨ring, [], [], waitForRoom_eq_self query roomy, laidOut, rfl, rfl,
      equality.symm, Or.inl rfl, by simp, roomy⟩
  | cons block rest ih =>
    by_cases roomy : request <= ring.room
    · exact ⟨ring, [], [], waitForRoom_eq_self query roomy, laidOut, rfl, rfl,
        equality.symm, Or.inl rfl, by simp, roomy⟩
    · obtain ⟨next, waited, freedOldest, nextLaidOut, sameBase, sameSize,
        remaining, sameFree, passed⟩ :=
        freeOldestBlock_spec unsigned laidOut equality (settled block mem_cons_self)
      have nextUnsigned : next.size < 2 ^ 32 := sameSize ▸ unsigned
      obtain ⟨last, others, gone, finished, lastLaidOut, lastBase, lastSize,
        split, lastFree, lastPassed, lastRoomy⟩ :=
        ih nextUnsigned (sameSize ▸ fits) nextLaidOut
          (getLargestFreeSizeNoWaiting_eq nextUnsigned nextLaidOut)
          remaining ((forall_mem_cons.mp settled).2)
      refine ⟨last, waited ++ others, block :: gone,
        waitForRoom_eq_append query (Nat.lt_of_not_le roomy) freedOldest
          finished, lastLaidOut, lastBase.trans sameBase,
        lastSize.trans sameSize, ?_, ?_, ?_, lastRoomy⟩
      · rw [split, cons_append]
      · rcases sameFree with kept | emptied
        · rcases lastFree with keptAgain | emptied
          · exact Or.inl (keptAgain.trans kept)
          · exact Or.inr emptied
        · rw [emptied] at split
          exact Or.inr (append_eq_nil_iff.mp split.symm).2
      · intro other mem pending
        rcases mem_cons.mp mem with rfl | later
        · exact mem_append_left _ (passed pending)
        · exact mem_append_right _ (lastPassed other later pending)

theorem allocSize_pos (asked : Nat) : 0 < allocSize asked := by
  unfold allocSize
  split <;> omega

/-- The sum that decides about the padding for a block of a given size is
exact, or no block of the ring starts where the block would have to end. -/
def Ring.SumFits (ring : Ring) (size : Nat) : Prop :=
  size + ring.freeOffset < 2 ^ 32 ∨ ∀ block ∈ ring.blocks, ¬(size <= block.offset ∧
      block.offset < ring.freeOffset)

/-- No padding precedes a block that fits before the end of the range. -/
theorem padFor_eq_self (unsigned : ring.size < 2 ^ 32) (fits : size + ring.freeOffset ≤ ring.size) :
    padFor ring size = ring := by
  rw [padFor, Unsigned.add_of_lt (by omega), if_neg (by omega)]

/-- Padding precedes a block that does not fit, when the sum does not wrap. -/
theorem padFor_eq_pad (exceeds : ring.size < size + ring.freeOffset)
    (exact : size + ring.freeOffset < 2 ^ 32) :
    padFor ring size = pad ring := by
  rw [padFor, Unsigned.add_of_lt exact, if_pos exceeds]

/-- A block placed behind the free offset keeps the layout. -/
theorem place_laidOut_of_fits (unsigned : ring.size < 2 ^ 32) (laidOut : ring.LaidOut)
    (pos : 0 < size) (fits : size + ring.freeOffset <= ring.size) (roomy : size <= ring.room) :
    (place ring size).LaidOut := by
  obtain ⟨baseOffset, total, freeOffset, inUseOffset, blocks⟩ := ring
  simp only [Ring.LaidOut, Ring.room] at laidOut unsigned fits roomy
  simp only [Ring.LaidOut, place]
  rw [Unsigned.add_of_lt (by omega)]
  cases laidOut with
  | empty =>
    have single : Tiles Block.offset Block.size 0 ([] ++ [⟨0, size, 0, .inUse⟩]) (0 + size) :=
      Tiles.concat (Tiles.nil_iff.mpr rfl) rfl pos
    split
    · rename_i full
      rw [full] at single
      exact .full single (by omega)
    · exact .linear single (by omega) (by omega)
  | linear tiles nonempty inside =>
    have extended : Tiles Block.offset Block.size inUseOffset
        (blocks ++ [⟨freeOffset, size, 0, .inUse⟩]) (freeOffset + size) :=
      Tiles.concat tiles rfl pos
    split
    · rename_i full
      rw [full] at extended
      exact .full extended (by omega)
    · exact .linear extended (by omega) (by omega)
  | @wrapped _ _ high low highTiles lowTiles ordered inside =>
    have occupied : high ++ low ≠ [] := by
      intro vacant
      rw [(append_eq_nil_iff.mp vacant).1] at highTiles
      have := Tiles.nil_iff.mp highTiles
      omega
    rw [if_neg occupied, if_neg (Nat.not_lt.mpr ordered)] at roomy
    rw [if_neg (by omega), append_assoc]
    have extended : Tiles Block.offset Block.size 0
        (low ++ [⟨freeOffset, size, 0, .inUse⟩]) (freeOffset + size) :=
      Tiles.concat lowTiles rfl pos
    exact .wrapped highTiles extended (by omega) inside

/-- A block that does not fit behind the free offset is placed at the start,
behind the padding. -/
theorem place_pad_laidOut (unsigned : ring.size < 2 ^ 32)
    (tiles : Tiles Block.offset Block.size ring.inUseOffset ring.blocks ring.freeOffset)
    (ne : ring.inUseOffset < ring.freeOffset)
    (lt : ring.freeOffset < ring.size) (pos : 0 < size) (roomy : size ≤ ring.inUseOffset) :
    (place (pad ring) size).LaidOut := by
  have padded : Tiles Block.offset Block.size ring.inUseOffset (ring.blocks ++
        [⟨ring.freeOffset, ring.size - ring.freeOffset, 0, .padding⟩])
      (ring.freeOffset + (ring.size - ring.freeOffset)) :=
    Tiles.concat tiles rfl (by dsimp only; omega)
  rw [Nat.add_sub_cancel' (Nat.le_of_lt lt)] at padded
  have placed : Tiles Block.offset Block.size 0 ([] ++ [⟨0, size, 0, .inUse⟩]) (0 + size) :=
    Tiles.concat (Tiles.nil_iff.mpr rfl) rfl pos
  have rest : Unsigned.sub 32 ring.size ring.freeOffset = ring.size - ring.freeOffset :=
    Unsigned.sub_of_le (Nat.le_of_lt lt) unsigned
  have advanced : Unsigned.add 32 0 size = 0 + size := Unsigned.add_of_lt (by omega)
  have notEnd : 0 + size ≠ ring.size := by omega
  simp only [Ring.LaidOut, place, pad, rest, advanced, if_neg notEnd]
  exact .wrapped padded placed (by omega) (by omega)

/-- Only a linear ring has room in front of its blocks that it lacks behind
them. -/
theorem linear_of_exceeds (laidOut : ring.LaidOut) (roomy : size <= ring.room)
    (exceeds : ring.size < size + ring.freeOffset) :
    Tiles Block.offset Block.size ring.inUseOffset ring.blocks ring.freeOffset ∧
      ring.inUseOffset < ring.freeOffset ∧
      ring.freeOffset < ring.size ∧ size <= ring.inUseOffset := by
  obtain ⟨baseOffset, total, freeOffset, inUseOffset, blocks⟩ := ring
  simp only [Ring.LaidOut, Ring.room] at laidOut roomy exceeds ⊢
  cases laidOut with
  | empty =>
    rw [if_pos rfl] at roomy
    omega
  | linear tiles ne inside =>
    have occupied : blocks ≠ [] := by
      rintro rfl
      have := Tiles.nil_iff.mp tiles
      omega
    rw [if_neg occupied, if_pos ne] at roomy
    exact ⟨tiles, ne, inside, by omega⟩
  | wrapped highTiles lowTiles ordered inside =>
    split at roomy
    · rename_i vacant
      rw [(append_eq_nil_iff.mp vacant).1] at highTiles
      have := Tiles.nil_iff.mp highTiles
      omega
    · rw [if_neg (Nat.not_lt.mpr ordered)] at roomy
      omega

/-- Placing a block of a size for which there is room, behind padding if need
be, adds the padding and the block to the layout. -/
theorem place_padFor_spec (unsigned : ring.size < 2 ^ 32) (laidOut : ring.LaidOut)
    (pos : 0 < size) (roomy : size <= ring.room) (sumFits : ring.SumFits size) :
    (place (padFor ring size) size).LaidOut ∧ (padFor ring size).baseOffset = ring.baseOffset ∧
      (padFor ring size).size = ring.size ∧
      ∃ padding, (padFor ring size).blocks = ring.blocks ++ padding ∧
        ∀ block ∈ padding, block.state = .padding := by
  by_cases fits : size + ring.freeOffset <= ring.size
  · rw [padFor_eq_self unsigned fits]
    refine ⟨place_laidOut_of_fits unsigned laidOut pos fits roomy, rfl,
      rfl, [], (append_nil _).symm, ?_⟩
    intro block mem
    cases mem
  · have exceeds : ring.size < size + ring.freeOffset := Nat.lt_of_not_le fits
    obtain ⟨tiles, ne, inside, before⟩ :
        Tiles Block.offset Block.size ring.inUseOffset ring.blocks ring.freeOffset ∧
          ring.inUseOffset < ring.freeOffset ∧
          ring.freeOffset < ring.size ∧ size <= ring.inUseOffset :=
      linear_of_exceeds laidOut roomy exceeds
    have exact : size + ring.freeOffset < 2 ^ 32 := by
      rcases sumFits with exact | noneBetween
      · exact exact
      · cases equality : ring.blocks with
        | nil =>
          rw [equality] at tiles
          have := Tiles.nil_iff.mp tiles
          omega
        | cons oldest rest =>
          rw [equality] at tiles noneBetween
          have starts := tiles.1
          exact absurd ⟨by omega, by omega⟩ (noneBetween oldest mem_cons_self)
    rw [padFor_eq_pad exceeds exact]
    refine ⟨place_pad_laidOut unsigned tiles ne inside pos before, rfl, rfl, _, rfl, ?_⟩
    intro block mem
    rw [mem_singleton.mp mem]

/-- An allocation places its block in the ring that the loop leaves. -/
theorem alloc_eq (fits : asked <= ring.size)
    (settled : ring.blocks.getLast?.any (·.state = .inUse) = false)
    (finished : waitForRoom (allocSize asked) ring = .ok (ready, waited)) :
    alloc ring asked =
      .ok ⟨Unsigned.add 32 (padFor ready (allocSize asked)).freeOffset ring.baseOffset,
        place (padFor ready (allocSize asked)) (allocSize asked), waited⟩ := by
  rw [alloc, if_neg (Nat.not_lt.mpr fits), settled, if_neg (by simp), finished]

/-- An allocation within the size of a ring with settled blocks succeeds. It
waits for the blocks it frees and adds its block behind the remaining ones. -/
theorem alloc_spec (unsigned : ring.size < 2 ^ 32) (ne : 0 < ring.size)
    (laidOut : ring.LaidOut) (settled : ∀ block ∈ ring.blocks, block.state ≠ .inUse)
    (fits : asked <= ring.size) (sumFits : ring.SumFits (allocSize asked)) :
    ∃ off next waited freed kept padding, alloc ring asked =
        .ok ⟨Unsigned.add 32 off ring.baseOffset, next, waited⟩ ∧ next.LaidOut ∧
      next.baseOffset = ring.baseOffset ∧ next.size = ring.size ∧ ring.blocks = freed ++ kept ∧
      next.blocks = kept ++ padding ++ [⟨off, allocSize asked, 0, .inUse⟩] ∧
      (∀ block ∈ padding, block.state = .padding) ∧
      ∀ block ∈ freed, block.state = .freePendingToken -> block.token ∈ waited := by
  have sizeFits : allocSize asked <= ring.size := by
    unfold allocSize
    split <;> omega
  obtain ⟨ready, waited, freed, finished, readyLaidOut, sameBase, sameSize,
    split, sameFree, passed, roomy⟩ :=
    waitForRoom_spec unsigned sizeFits laidOut settled
  have readyFits : ready.SumFits (allocSize asked) := by
    rcases sameFree with sameFree | emptied
    · rcases sumFits with exact | noneBetween
      · exact Or.inl (sameFree ▸ exact)
      · refine Or.inr fun block mem => ?_
        rw [sameFree]
        exact noneBetween block (split ▸ mem_append_right _ mem)
    · exact Or.inr (by simp [emptied])
  obtain ⟨nextLaidOut, paddedBase, paddedSize, padding, paddedBlocks,
    isPadding⟩ := place_padFor_spec (sameSize ▸ unsigned) readyLaidOut
      (allocSize_pos asked) roomy readyFits
  have notInUse : ring.blocks.getLast?.any (·.state = .inUse) = false := by
    cases newest : ring.blocks.getLast? with
    | none => rfl
    | some block => simpa using settled block (List.mem_of_getLast? newest)
  refine ⟨(padFor ready (allocSize asked)).freeOffset,
    place (padFor ready (allocSize asked)) (allocSize asked), waited,
    freed, ready.blocks, padding, alloc_eq fits notInUse finished,
    nextLaidOut, paddedBase.trans sameBase, paddedSize.trans sameSize, split,
    ?_, isPadding, passed⟩
  simp only [place, paddedBlocks]

/-- Freeing the newest block pending a token only changes its state and
token. -/
theorem freePendingToken_spec (offsetFits : newest.offset < 2 ^ 32)
    (baseFits : ring.baseOffset < 2 ^ 32)
    (split : ring.blocks = older ++ [newest]) (used : newest.state = .inUse)
    (token : Nat) :
    freePendingToken ring (Unsigned.add 32 newest.offset ring.baseOffset) token =
      .ok { ring with
        blocks := older ++ [{ newest with token := token, state := .freePendingToken }] } := by
  have occupied : ring.blocks ≠ [] := by simp [split]
  rw [freePendingToken, if_neg occupied,
    Unsigned.sub_add_cancel offsetFits baseFits, split, reverse_append,
    reverse_singleton, singleton_append, freeNewest, if_pos rfl,
    if_pos used]
  simp

/-- The layout only depends on the ranges of the blocks. -/
theorem Layout.of_map_eq (layout : Layout size inUse free blocks)
    (same : others.map Block.range = blocks.map Block.range) :
    Layout size inUse free others := by
  cases layout with
  | empty =>
    rw [map_nil, map_eq_nil_iff] at same
    rw [same]
    exact .empty
  | linear tiles nonempty inside => exact .linear (tiles.of_map_eq same) nonempty inside
  | wrapped highTiles lowTiles ordered inside =>
    rw [map_append, map_eq_append_iff] at same
    obtain ⟨high, low, rfl, highSame, lowSame⟩ := same
    exact .wrapped (highTiles.of_map_eq highSame) (lowTiles.of_map_eq lowSame) ordered inside

end RingBuffer

end Chromium.Gpu
