import Chromium.Library.Fence
import Chromium.Library.Lists
import Chromium.Library.Run
import Chromium.Library.Tiling
import Mathlib.Data.List.Chain

/-!
# The fenced allocator

`FencedAllocator` manages a fixed range of memory as a vector of blocks. A
block can be freed at once or pending a token of the command stream. The
second kind is reused only after waiting for its token.

The functions follow the source on the vector and its indices. Waiting for a
token is the only effect on the helper, so the functions that wait return the
tokens they waited for. Offsets and sizes never exceed the size of the managed
range, so natural numbers model the unsigned arithmetic.
-/

namespace Chromium.Gpu

open List Option

namespace FencedAllocator

open Library

/-- Returned by `alloc` in case of failure. -/
def kInvalidOffset : Nat := 0xffffffff

/-- The token of a block that waits for none. -/
def kUnusedToken : Int := 0

/-- Status of a block of memory, for book-keeping. -/
inductive State
  | inUse
  | free
  | freePendingToken
  deriving DecidableEq

/-- Book-keeping structure that describes a block of memory. -/
structure Block where
  state : State
  offset : Nat
  size : Nat
  token : Int
  deriving DecidableEq

/-- The constructor: one free block spanning the managed range. -/
def init (size : Nat) : List Block := [⟨.free, 0, size, kUnusedToken⟩]

section

variable (blocks : List Block)

variable (index : Nat)

/-- Collapse a block with the next one, if that is free. -/
def collapseNext : List Block :=
  match blocks[index + 1]? with
  | some next =>
    if next.state = .free then
      (blocks.modify index fun block =>
        { block with size := block.size + next.size }).eraseIdx (index + 1)
    else blocks
  | none => blocks

/-- Collapse a block with the previous one, if that is free. Returns the index
of the collapsed block. -/
def collapsePrevious : List Block × Nat :=
  if 0 < index then
    match blocks[index - 1]?, blocks[index]? with
    | some prev, some block =>
      if prev.state = .free then
        ((blocks.modify (index - 1) fun prev =>
          { prev with size := prev.size + block.size }).eraseIdx index,
          index - 1)
      else (blocks, index)
    | _, _ => (blocks, index)
  else (blocks, index)

/-- `FencedAllocator::CollapseFreeBlock`: collapse the block to the next one,
then to the previous one. -/
def collapseFreeBlock : List Block × Nat := collapsePrevious (collapseNext blocks index) index

/-- Mark a block free. -/
def markFree : List Block := blocks.modify index fun block => { block with state := .free }

/-- `FencedAllocator::WaitForTokenAndFreeBlock`, after the wait for the token
of the block. -/
def waitForTokenAndFreeBlock : List Block × Nat := collapseFreeBlock (markFree blocks index) index

/-- `FencedAllocator::AllocInBlock`: mark the block in use, splitting it unless
it has exactly the requested size. -/
def allocInBlock (index size : Nat) : Nat × List Block :=
  match blocks[index]? with
  | some block =>
    if block.size = size then (block.offset, blocks.set index { block with state := .inUse })
    else
      (block.offset, (blocks.set index { block with state := .inUse, size := size }).insertIdx
          (index + 1)
          ⟨.free, block.offset + size, block.size - size, kUnusedToken⟩)
  | none => (kInvalidOffset, blocks)

/-- The number of blocks that wait for a token. -/
def pendingCount : Nat := blocks.countP fun block => block.state = .freePendingToken

/-- Changing a block but not its state keeps the number of pending blocks. -/
theorem pendingCount_modify (change : Block -> Block)
    (sameState : ∀ block, (change block).state = block.state) :
    pendingCount (blocks.modify index change) = pendingCount blocks := by
  induction blocks generalizing index with
  | nil => simp [pendingCount]
  | cons block rest ih =>
    cases index with
    | zero => simp [pendingCount, countP_cons, sameState]
    | succ index =>
      have := ih index
      simp only [pendingCount, modify_succ_cons, countP_cons] at this ⊢
      omega

theorem pendingCount_eraseIdx_le : pendingCount (blocks.eraseIdx index) <= pendingCount blocks :=
  (eraseIdx_sublist blocks index).countP_le

theorem pendingCount_collapseFreeBlock_le :
    pendingCount (collapseFreeBlock blocks index).1 <= pendingCount blocks := by
  have next : pendingCount (collapseNext blocks index) <= pendingCount blocks := by
    unfold collapseNext
    split
    · split
      · refine Nat.le_trans (pendingCount_eraseIdx_le _ _) (Nat.le_of_eq ?_)
        exact pendingCount_modify _ _ _ fun _ => rfl
      · exact Nat.le_refl _
    · exact Nat.le_refl _
  refine Nat.le_trans ?_ next
  unfold collapseFreeBlock collapsePrevious
  split
  · split
    · split
      · refine Nat.le_trans (pendingCount_eraseIdx_le _ _) (Nat.le_of_eq ?_)
        exact pendingCount_modify _ _ _ fun _ => rfl
      · exact Nat.le_refl _
    · exact Nat.le_refl _
  · exact Nat.le_refl _

/-- Marking a pending block free leaves one pending block less. -/
theorem pendingCount_markFree (lt : index < blocks.length)
    (pending : blocks[index].state = .freePendingToken) :
    pendingCount (markFree blocks index) + 1 = pendingCount blocks := by
  induction blocks generalizing index with
  | nil => simp at lt
  | cons block rest ih =>
    cases index with
    | zero =>
      have atHead : block.state = .freePendingToken := pending
      simp [pendingCount, markFree, atHead]
    | succ index =>
      have := ih index (by simpa using lt) pending
      simp only [pendingCount, markFree, modify_succ_cons, countP_cons] at this ⊢
      omega

end

/-- What an allocation returns: the offset, the blocks and the tokens it waited
for. -/
structure Allocation where
  offset : Nat
  blocks : List Block
  waited : List Int
  deriving DecidableEq

section

variable (blocks : List Block)

theorem length_collapseNext_le (i : Nat) :
    (collapseNext blocks i).length <= blocks.length := by
  unfold collapseNext
  split
  · split
    · simp only [length_eraseIdx, length_modify]
      split <;> omega
    · exact Nat.le_refl _
  · exact Nat.le_refl _

theorem length_collapsePrevious_le (i : Nat) :
    (collapsePrevious blocks i).1.length + i <=
      blocks.length + (collapsePrevious blocks i).2 := by
  unfold collapsePrevious
  split
  · split
    · rename_i present
      split
      · have inside := (List.getElem?_eq_some_iff.mp present).1
        simp only [length_eraseIdx, length_modify, inside, if_true]
        omega
      · exact Nat.le_refl _
    · exact Nat.le_refl _
  · exact Nat.le_refl _

/-- Freeing a block brings no block past its index back in front of it. -/
theorem length_waitForTokenAndFreeBlock_le (i : Nat) :
    (waitForTokenAndFreeBlock blocks i).1.length + i <=
      blocks.length + (waitForTokenAndFreeBlock blocks i).2 := by
  have next := length_collapseNext_le (markFree blocks i) i
  have prev := length_collapsePrevious_le (collapseNext (markFree blocks i) i) i
  have marked : (markFree blocks i).length = blocks.length := by simp [markFree]
  simp only [waitForTokenAndFreeBlock, collapseFreeBlock]
  omega

/-- The second loop of `FencedAllocator::Alloc`: wait for the pending blocks in
order, until one of them is large enough. -/
def allocAfterWaiting (size : Nat) (blocks : List Block) (index : Nat) : Allocation :=
  if inside : index < blocks.length then
    if blocks[index].state ≠ .freePendingToken then allocAfterWaiting size blocks (index + 1)
    else
      let token := blocks[index].token
      let freed := waitForTokenAndFreeBlock blocks index
      if freed.1[freed.2]?.any (size <= ·.size) then
        let allocated := allocInBlock freed.1 freed.2 size
        ⟨allocated.1, allocated.2, [token]⟩
      else
        let later := allocAfterWaiting size freed.1 (freed.2 + 1)
        { later with waited := token :: later.waited }
  else ⟨kInvalidOffset, blocks, []⟩
termination_by blocks.length - index
decreasing_by
  · omega
  · have := length_waitForTokenAndFreeBlock_le blocks index
    omega

/-- The size a request takes: an allocation of zero bytes takes one. -/
def allocSize (asked : Nat) : Nat := if asked = 0 then 1 else asked

/-- `FencedAllocator::Alloc`: first fit among the free blocks, then among the
pending ones. -/
def alloc (asked : Nat) : Allocation :=
  match blocks.findIdx? fun block => block.state = .free ∧ allocSize asked <= block.size with
  | some index =>
    let allocated := allocInBlock blocks index (allocSize asked)
    ⟨allocated.1, allocated.2, []⟩
  | none => allocAfterWaiting (allocSize asked) blocks 0

/-- `FencedAllocator::GetBlockByOffset`: `std::lower_bound` on the offsets. -/
def getBlockByOffset (offset : Nat) : Nat := blocks.findIdx fun block => ¬block.offset < offset

/-- `FencedAllocator::Free`. -/
def free (offset : Nat) : List Block :=
  let index := getBlockByOffset blocks offset
  (collapseFreeBlock (markFree blocks index) index).1

end

/-- `FencedAllocator::FreePendingToken`. -/
def freePendingToken (blocks : List Block) (offset : Nat) (token : Int) : List Block :=
  blocks.modify (getBlockByOffset blocks offset) fun block =>
    { block with state := .freePendingToken, token := token }

/-- The loop of `FencedAllocator::FreeUnused` from an index on. -/
def freeUnusedFrom (lastTokenRead : Int) (blocks : List Block) (index : Nat) : List Block :=
  if inside : index < blocks.length then
    if blocks[index].state = .freePendingToken ∧ blocks[index].token <= lastTokenRead then
      let freed := collapseFreeBlock (markFree blocks index) index
      freeUnusedFrom lastTokenRead freed.1 freed.2
    else freeUnusedFrom lastTokenRead blocks (index + 1)
  else blocks
termination_by (pendingCount blocks, blocks.length - index)
decreasing_by
  · rename_i pending
    have marked := pendingCount_markFree blocks index inside pending.1
    have := pendingCount_collapseFreeBlock_le (markFree blocks index) index
    exact .left _ _ (by omega)
  · exact .right _ (by omega)

/-- `FencedAllocator::CheckConsistency`. -/
def checkConsistency (blocks : List Block) : Bool :=
  match blocks with
  | [] => false
  | [_] => true
  | current :: next :: rest =>
    if next.offset <= current.offset then false
    else if next.offset ≠ current.offset + current.size then false
    else if current.state = .free ∧ next.state = .free then false
    else checkConsistency (next :: rest)

end FencedAllocator

/-!
## Safety of the fenced allocator

The blocks of the allocator always tile the managed range, and no two adjacent
blocks are free. Collapsing and splitting only rearrange free memory: the
blocks in use are kept, and a pending block disappears only after the wait for
its token.
-/

namespace FencedAllocator

open Library

/-- No two adjacent blocks are both free. -/
def Separated (blocks : List Block) : Prop :=
  blocks.IsChain fun left right => ¬(left.state = .free ∧ right.state = .free)

/-- The blocks tile the managed range and free blocks are collapsed. -/
structure WellFormed (size : Nat) (blocks : List Block) : Prop where
  tiles : Tiles Block.offset Block.size 0 blocks size
  separated : Separated blocks

/-- The blocks that are in use or pending a token. -/
def busy (blocks : List Block) : List Block := blocks.filter fun block => block.state ≠ .free

theorem mem_busy_iff : block ∈ busy blocks ↔ block ∈ blocks ∧ block.state ≠ .free := by
  simp [busy]

@[simp] theorem busy_append (front back : List Block) :
    busy (front ++ back) = busy front ++ busy back :=
  filter_append ..

variable {block : Block} {front back blocks : List Block}

@[simp] theorem busy_cons_free (isFree : block.state = .free) :
    busy (block :: rest) = busy rest := by
  simp [busy, isFree]

@[simp] theorem busy_cons (isBusy : block.state ≠ .free) :
    busy (block :: rest) = block :: busy rest := by
  simp [busy, isBusy]

/-- Separation of a list around one of its blocks. -/
theorem separated_middle_iff : Separated (front ++ block :: back) ↔
      Separated front ∧ Separated back ∧ (block.state = .free ->
          (∀ prev ∈ front.getLast?, prev.state ≠ .free) ∧
            ∀ next ∈ back.head?, next.state ≠ .free) := by
  simp only [Separated, isChain_append, isChain_cons, List.head?_cons, mem_def, some.injEq]
  grind

/-- `CheckConsistency` accepts every well formed list of blocks. -/
theorem checkConsistency_of_tiles (ne : blocks ≠ [])
    (tiles : Tiles Block.offset Block.size first blocks last) (separated : Separated blocks) :
    checkConsistency blocks = true := by
  induction blocks generalizing first with
  | nil => exact absurd rfl ne
  | cons current rest ih =>
    cases rest with
    | nil => rfl
    | cons next rest =>
      obtain ⟨starts, pos, restTiles⟩ := tiles
      have nextStarts := restTiles.1
      rw [Separated, isChain_cons_cons] at separated
      rw [checkConsistency, if_neg (by omega), if_neg (by omega), if_neg separated.1]
      exact ih (by simp) restTiles separated.2

/-- Collapsing with the next block separates the block from its successor. -/
theorem collapseNext_spec (isFree : block.state = .free)
    (tiles : Tiles Block.offset Block.size first (front ++ block :: back) last)
    (separated : Separated back) :
    ∃ collapsed rest, collapseNext (front ++ block :: back) front.length =
        front ++ collapsed :: rest ∧ collapsed.state = .free ∧ busy rest = busy back ∧
      Tiles Block.offset Block.size first (front ++ collapsed :: rest) last ∧ Separated rest ∧
      ∀ next ∈ rest.head?, next.state ≠ .free := by
  unfold collapseNext
  cases back with
  | nil =>
    refine ⟨block, [], ?_, isFree, rfl, tiles, separated, by simp⟩
    simp
  | cons next rest =>
    have hit : (front ++ block :: next :: rest)[front.length + 1]? = some next := by simp
    simp only [hit]
    split
    · rename_i nextFree
      refine ⟨{ block with size := block.size + next.size }, rest, ?_, isFree, ?_, ?_, ?_, ?_⟩
      · have erased := eraseIdx_append_cons
          (front ++ [{ block with size := block.size + next.size }]) rest next
        simp only [append_assoc, singleton_append, length_append, length_singleton] at erased
        rw [modify_append_cons, erased]
      · rw [busy_cons_free nextFree]
      · obtain ⟨middle, frontTiles, starts, pos, nextStarts,
          nextPositive, restTiles⟩ := Tiles.append_iff.mp tiles
        refine Tiles.append_iff.mpr ⟨middle, frontTiles, starts, ?_, ?_⟩
        · simp only
          omega
        · rwa [Nat.add_assoc] at restTiles
      · exact (isChain_cons.mp separated).2
      · intro after isNext afterFree
        exact (isChain_cons.mp separated).1 after isNext ⟨nextFree, afterFree⟩
    · rename_i nextBusy
      exact ⟨block, next :: rest, rfl, isFree, rfl, tiles, separated, by simpa using nextBusy⟩

/-- Collapsing with the previous block separates the block from its
predecessor. -/
theorem collapsePrevious_spec (isFree : block.state = .free)
    (tiles : Tiles Block.offset Block.size first (front ++ block :: back) last)
    (separatedFront : Separated front) (separatedBack : Separated back)
    (nextBusy : ∀ next ∈ back.head?, next.state ≠ .free) :
    ∃ before collapsed, collapsePrevious (front ++ block :: back) front.length =
        (before ++ collapsed :: back, before.length) ∧ collapsed.state = .free ∧
      busy before = busy front ∧
      Tiles Block.offset Block.size first (before ++ collapsed :: back) last ∧
      Separated (before ++ collapsed :: back) := by
  unfold collapsePrevious
  rcases eq_nil_or_concat' front with rfl | ⟨before, previous, rfl⟩
  · refine ⟨[], block, rfl, isFree, rfl, tiles, ?_⟩
    exact separated_middle_iff.mpr ⟨separatedFront, separatedBack, fun _ => ⟨by simp, nextBusy⟩⟩
  · have hit : (before ++ [previous] ++ block :: back)[
        (before ++ [previous]).length - 1]? = some previous := by
      simp
    have self : (before ++ [previous] ++ block :: back)[
        (before ++ [previous]).length]? = some block :=
      getElem?_append_cons _ _ _
    simp only [hit, self]
    rw [if_pos (by simp)]
    have separatedBefore : Separated before := (isChain_append.mp separatedFront).1
    split
    · rename_i previousFree
      refine ⟨before, { previous with size := previous.size + block.size }, ?_,
        previousFree, ?_, ?_, ?_⟩
      · have merged := modify_append_cons before (block :: back) previous
          fun prev => { prev with size := prev.size + block.size }
        have erased := eraseIdx_append_cons
          (before ++ [{ previous with size := previous.size + block.size }])
          back block
        simp only [append_assoc, singleton_append, length_append, length_singleton,
          Nat.add_sub_cancel] at merged erased ⊢
        rw [merged, erased]
      · rw [busy_append, busy_cons_free previousFree]
        simp [busy]
      · rw [append_assoc] at tiles
        obtain ⟨middle, frontTiles, starts, pos, blockStarts,
          blockPositive, restTiles⟩ := Tiles.append_iff.mp tiles
        refine Tiles.append_iff.mpr ⟨middle, frontTiles, starts, ?_, ?_⟩
        · simp only
          omega
        · rwa [Nat.add_assoc] at restTiles
      · refine separated_middle_iff.mpr ⟨separatedBefore, separatedBack, fun _ => ⟨?_, nextBusy⟩⟩
        exact ((separated_middle_iff.mp separatedFront).2.2 previousFree).1
    · rename_i previousBusy
      refine ⟨before ++ [previous], block, rfl, isFree, rfl, tiles, ?_⟩
      refine separated_middle_iff.mpr ⟨separatedFront, separatedBack, fun _ => ⟨?_, nextBusy⟩⟩
      simpa using previousBusy

/-- Freeing a block of a well formed list, then collapsing it: the list stays
well formed, the freed block leaves the busy blocks and no other does. -/
theorem collapseFreeBlock_markFree_spec (wf : WellFormed size (front ++ block :: back)) :
    ∃ before collapsed after,
      collapseFreeBlock (markFree (front ++ block :: back) front.length) front.length =
        (before ++ collapsed :: after, before.length) ∧ collapsed.state = .free ∧
      busy before = busy front ∧ busy after = busy back ∧
      WellFormed size (before ++ collapsed :: after) := by
  obtain ⟨tiles, separated⟩ := wf
  obtain ⟨separatedFront, separatedBack, _⟩ := separated_middle_iff.mp separated
  have marked : markFree (front ++ block :: back) front.length =
      front ++ { block with state := .free } :: back :=
    modify_append_cons _ _ _ _
  have freeTiles : Tiles Block.offset Block.size 0
      (front ++ { block with state := .free } :: back) size := by
    obtain ⟨middle, frontTiles, blockTiles⟩ := Tiles.append_iff.mp tiles
    exact Tiles.append_iff.mpr ⟨middle, frontTiles, blockTiles⟩
  obtain ⟨collapsed, after, nextEquality, collapsedFree, afterBusy, nextTiles,
    separatedAfter, successorBusy⟩ :=
    collapseNext_spec rfl freeTiles separatedBack
  obtain ⟨before, whole, previousEquality, wholeFree, beforeBusy, wholeTiles, wholeSeparated⟩ :=
    collapsePrevious_spec collapsedFree nextTiles separatedFront separatedAfter successorBusy
  refine ⟨before, whole, after, ?_, wholeFree, beforeBusy, afterBusy, ⟨wholeTiles, wholeSeparated⟩⟩
  rw [collapseFreeBlock, marked, nextEquality, previousEquality]

/-- Allocating inside a free block puts a block of the requested size in use
and leaves the others alone. -/
theorem allocInBlock_spec (wf : WellFormed total (front ++ block :: back))
    (isFree : block.state = .free) (pos : 0 < size)
    (fits : size <= block.size) :
    ∃ rest, allocInBlock (front ++ block :: back) front.length size = (block.offset,
          front ++ { block with state := .inUse, size := size } :: rest) ∧
      busy rest = busy back ∧
      WellFormed total (front ++ { block with state := .inUse, size := size } :: rest) := by
  obtain ⟨tiles, separated⟩ := wf
  obtain ⟨separatedFront, separatedBack, apart⟩ := separated_middle_iff.mp separated
  obtain ⟨middle, frontTiles, starts, blockPositive, backTiles⟩ := Tiles.append_iff.mp tiles
  unfold allocInBlock
  simp only [getElem?_append_cons, set_append_cons]
  split
  · rename_i exact
    subst exact
    refine ⟨back, rfl, rfl, ?_, ?_⟩
    · exact Tiles.append_iff.mpr ⟨middle, frontTiles, starts, blockPositive, backTiles⟩
    · exact separated_middle_iff.mpr ⟨separatedFront, separatedBack, by simp⟩
  · rename_i larger
    have inserted := insertIdx_append (front ++ [{ block with state := .inUse, size := size }]) back
      ⟨.free, block.offset + size, block.size - size, kUnusedToken⟩
    simp only [append_assoc, singleton_append, length_append, length_singleton] at inserted
    refine ⟨⟨.free, block.offset + size, block.size - size, kUnusedToken⟩ :: back, ?_, ?_, ?_, ?_⟩
    · rw [inserted]
    · exact busy_cons_free rfl
    · refine Tiles.append_iff.mpr ⟨middle, frontTiles, starts, pos, ?_, ?_, ?_⟩
      · simp only
        omega
      · simp only
        omega
      · have sizes : middle + size + (block.size - size) = middle + block.size := by omega
        simpa only [sizes] using backTiles
    · refine separated_middle_iff.mpr ⟨separatedFront, ?_, by simp⟩
      refine isChain_cons.mpr ⟨?_, separatedBack⟩
      intro next isNext bothFree
      exact (apart isFree).2 next isNext bothFree.2

/-- The busy blocks that remain were busy before, and the pending blocks that
are gone were waited for. -/
structure Kept (blocks remaining : List Block) (waited : List Int) : Prop where
  wereBusy : ∀ block ∈ busy remaining, block ∈ busy blocks
  stillBusy : ∀ block ∈ busy blocks, block ∈ busy remaining ∨
    (block.state = .freePendingToken ∧ block.token ∈ waited)

theorem Kept.refl (blocks : List Block) : Kept blocks blocks [] where
  wereBusy := fun _ mem => mem
  stillBusy := fun _ mem => Or.inl mem

theorem Kept.of_busy_eq (equal : busy remaining = busy blocks) : Kept blocks remaining [] where
  wereBusy := fun _ mem => equal ▸ mem
  stillBusy := fun _ mem => Or.inl (equal ▸ mem)

theorem Kept.trans (first : Kept blocks middle waited) (second : Kept middle remaining others) :
    Kept blocks remaining (waited ++ others) where
  wereBusy := fun block mem => first.wereBusy block (second.wereBusy block mem)
  stillBusy := by
    intro block mem
    rcases first.stillBusy block mem with stays | ⟨pending, passed⟩
    · rcases second.stillBusy block stays with stays | ⟨pending, passed⟩
      · exact Or.inl stays
      · exact Or.inr ⟨pending, mem_append_right _ passed⟩
    · exact Or.inr ⟨pending, mem_append_left _ passed⟩

/-- Blocks in use are kept through every wait. -/
theorem Kept.inUse_iff (kept : Kept blocks remaining waited) (block : Block) :
    (block ∈ remaining ∧ block.state = .inUse) ↔ (block ∈ blocks ∧ block.state = .inUse) := by
  constructor
  · rintro ⟨mem, used⟩
    have wasBusy := kept.wereBusy block (mem_busy_iff.mpr ⟨mem, by simp [used]⟩)
    exact ⟨(mem_busy_iff.mp wasBusy).1, used⟩
  · rintro ⟨mem, used⟩
    rcases kept.stillBusy block
        (mem_busy_iff.mpr ⟨mem, by simp [used]⟩) with stays | ⟨pending, _⟩
    · exact ⟨(mem_busy_iff.mp stays).1, used⟩
    · simp [used] at pending

/-- An allocation fails, or places a block of the requested size among the
blocks that remain after its waits. -/
inductive Placed (blocks : List Block) (size : Nat) : Allocation -> Prop
  | failed {remaining : List Block} {waited : List Int} : Kept blocks remaining waited ->
      Placed blocks size ⟨kInvalidOffset, remaining, waited⟩
  | placed {front back : List Block} {fresh : Block} {offset : Nat} {waited : List Int} :
      fresh.state = .inUse ->
      fresh.offset = offset ->
      fresh.size = size ->
      Kept blocks (front ++ back) waited ->
      Placed blocks size ⟨offset, front ++ fresh :: back, waited⟩

/-- Waits before an allocation count as waits of the allocation. -/
theorem Placed.after (kept : Kept blocks middle waited) (placed : Placed middle size allocation) :
    Placed blocks size { allocation with waited := waited ++ allocation.waited } := by
  cases placed with
  | failed keptRest => exact .failed (kept.trans keptRest)
  | placed used starts sized keptRest => exact .placed used starts sized (kept.trans keptRest)

/-- Allocating in a free block that is large enough succeeds. -/
theorem placed_allocInBlock (wf : WellFormed total blocks)
    (hit : blocks[index]? = some block) (isFree : block.state = .free) (pos : 0 < size)
    (fits : size <= block.size) :
    WellFormed total (allocInBlock blocks index size).2 ∧ Placed blocks size
        ⟨(allocInBlock blocks index size).1, (allocInBlock blocks index size).2, []⟩ := by
  obtain ⟨front, back, rfl, rfl⟩ := exists_append_of_getElem? hit
  obtain ⟨rest, equality, restBusy, allocated⟩ := allocInBlock_spec wf isFree pos fits
  rw [equality]
  refine ⟨allocated, .placed rfl rfl rfl ?_⟩
  apply Kept.of_busy_eq
  rw [busy_append, busy_append, busy_cons_free isFree, restBusy]

/-- Waiting for a pending block and freeing it loses that block only. -/
theorem waitForTokenAndFreeBlock_spec (wf : WellFormed total blocks)
    (lt : index < blocks.length) (pending : blocks[index].state = .freePendingToken) :
    WellFormed total (waitForTokenAndFreeBlock blocks index).1 ∧
      Kept blocks (waitForTokenAndFreeBlock blocks index).1 [blocks[index].token] ∧
      ∃ freed, (waitForTokenAndFreeBlock blocks index).1[
          (waitForTokenAndFreeBlock blocks index).2]? = some freed ∧ freed.state = .free := by
  generalize elem : blocks[index] = block at pending
  obtain ⟨front, back, rfl, rfl⟩ := exists_append_of_getElem?
    (List.getElem?_eq_some_iff.mpr ⟨lt, elem⟩)
  obtain ⟨before, collapsed, after, equality, collapsedFree, beforeBusy,
    afterBusy, collapsedFormed⟩ := collapseFreeBlock_markFree_spec wf
  rw [waitForTokenAndFreeBlock, equality]
  have remaining : busy (before ++ collapsed :: after) = busy front ++ busy back := by
    rw [busy_append, busy_cons_free collapsedFree, beforeBusy, afterBusy]
  have original : busy (front ++ block :: back) = busy front ++ block :: busy back := by
    rw [busy_append, busy_cons (by simp [pending])]
  refine ⟨collapsedFormed, ⟨?_, ?_⟩, collapsed, getElem?_append_cons _ _ _, collapsedFree⟩
  · intro other mem
    rw [remaining] at mem
    rw [original]
    simp only [mem_append, mem_cons] at mem ⊢
    tauto
  · intro other mem
    rw [original] at mem
    rw [remaining]
    simp only [mem_append, mem_cons] at mem ⊢
    rcases mem with inFront | rfl | inBack
    · exact Or.inl (Or.inl inFront)
    · exact Or.inr ⟨pending, Or.inl rfl⟩
    · exact Or.inl (Or.inr inBack)

/-- The second loop of `Alloc` keeps the blocks well formed and places the
allocation after its waits. -/
theorem allocAfterWaiting_spec (size : Nat) (pos : 0 < size) (wf : WellFormed total blocks) :
    WellFormed total (allocAfterWaiting size blocks i).blocks ∧
      Placed blocks size (allocAfterWaiting size blocks i) := by
  induction blocks, i using allocAfterWaiting.induct size with
  | case1 blocks i inside notPending ih =>
    rw [allocAfterWaiting, dif_pos inside, if_pos notPending]
    exact ih wf
  | case2 blocks i inside pending freed fits =>
    obtain ⟨freedFormed, kept, collapsed, hit, isFree⟩ :=
      waitForTokenAndFreeBlock_spec wf inside (not_not.mp pending)
    have large : size <= collapsed.size := by
      simpa only [freed, hit, any_some, decide_eq_true_eq] using fits
    obtain ⟨formed, placed⟩ := placed_allocInBlock freedFormed hit isFree pos large
    rw [allocAfterWaiting, dif_pos inside, if_neg pending, if_pos fits]
    exact ⟨formed, placed.after kept⟩
  | case3 blocks i inside pending freed small ih =>
    obtain ⟨freedFormed, kept, _⟩ :=
      waitForTokenAndFreeBlock_spec wf inside (not_not.mp pending)
    obtain ⟨formed, placed⟩ := ih freedFormed
    rw [allocAfterWaiting, dif_pos inside, if_neg pending, if_neg small]
    exact ⟨formed, placed.after kept⟩
  | case4 blocks i outside =>
    rw [allocAfterWaiting, dif_neg outside]
    exact ⟨wf, .failed (.refl blocks)⟩

theorem allocSize_pos (asked : Nat) : 0 < allocSize asked := by
  unfold allocSize
  split <;> omega

/-- An allocation keeps the blocks well formed and places its block after its
waits, or fails. -/
theorem alloc_spec (asked : Nat) (wf : WellFormed total blocks) :
    WellFormed total (alloc blocks asked).blocks ∧
      Placed blocks (allocSize asked) (alloc blocks asked) := by
  have pos := allocSize_pos asked
  unfold alloc
  split
  · rename_i index search
    obtain ⟨inside, suitable, _⟩ := findIdx?_eq_some_iff_getElem.mp search
    simp only [decide_eq_true_eq] at suitable
    exact placed_allocInBlock wf (List.getElem?_eq_some_iff.mpr ⟨inside, rfl⟩) suitable.1 pos
      suitable.2
  · exact allocAfterWaiting_spec _ pos wf

/-- The binary search finds the block with a given offset. -/
theorem getBlockByOffset_eq (tiles : Tiles Block.offset Block.size first (front ++ block :: back)
      last) :
    getBlockByOffset (front ++ block :: back) block.offset = front.length := by
  have ordered := tiles.pairwise
  rw [pairwise_append] at ordered
  have before : ∀ other ∈ front, other.offset < block.offset := by
    intro other mem
    have bounds := tiles.mem_bounds (mem_append_left (block :: back) mem)
    have := ordered.2.2 other mem block mem_cons_self
    omega
  have absent : front.findIdx (fun other => ¬other.offset < block.offset) = front.length := by
    simpa using before
  rw [getBlockByOffset, findIdx_append, absent, if_neg (by omega)]
  simp [findIdx_cons]

/-- Freeing a block at once removes it from the busy blocks. -/
theorem free_spec (wf : WellFormed total (front ++ block :: back)) :
    WellFormed total (free (front ++ block :: back) block.offset) ∧
      busy (free (front ++ block :: back) block.offset) = busy front ++ busy back := by
  obtain ⟨before, collapsed, after, equality, collapsedFree, beforeBusy,
    afterBusy, collapsedFormed⟩ := collapseFreeBlock_markFree_spec wf
  simp only [free, getBlockByOffset_eq wf.tiles, equality]
  refine ⟨collapsedFormed, ?_⟩
  rw [busy_append, busy_cons_free collapsedFree, beforeBusy, afterBusy]

/-- Freeing a block pending a token only changes its state and token. -/
theorem freePendingToken_spec (wf : WellFormed total (front ++ block :: back)) (token : Int) :
    freePendingToken (front ++ block :: back) block.offset token =
        front ++ { block with state := .freePendingToken, token := token } :: back ∧
      WellFormed total (front ++ { block with state := .freePendingToken, token := token } ::
          back) := by
  obtain ⟨tiles, separated⟩ := wf
  refine ⟨?_, ?_, ?_⟩
  · rw [freePendingToken, getBlockByOffset_eq tiles, modify_append_cons]
  · obtain ⟨middle, frontTiles, blockTiles⟩ := Tiles.append_iff.mp tiles
    exact Tiles.append_iff.mpr ⟨middle, frontTiles, blockTiles⟩
  · obtain ⟨separatedFront, separatedBack, _⟩ := separated_middle_iff.mp separated
    exact separated_middle_iff.mpr ⟨separatedFront, separatedBack, by simp⟩

/-- Freeing the blocks whose token was read loses no other busy block. -/
theorem freeUnusedFrom_spec (lastTokenRead : Int) (i : Nat) (wf : WellFormed total blocks) :
    WellFormed total (freeUnusedFrom lastTokenRead blocks i) ∧
      (∀ block ∈ busy (freeUnusedFrom lastTokenRead blocks i), block ∈ busy blocks) ∧
      ∀ block ∈ busy blocks, block ∈ busy (freeUnusedFrom lastTokenRead blocks i) ∨
          (block.state = .freePendingToken ∧ block.token <= lastTokenRead) := by
  induction blocks, i using freeUnusedFrom.induct lastTokenRead with
  | case1 blocks i inside passed freed ih =>
    obtain ⟨freedFormed, kept, _⟩ := waitForTokenAndFreeBlock_spec wf inside passed.1
    obtain ⟨formed, wereBusy, stillBusy⟩ := ih freedFormed
    rw [freeUnusedFrom, dif_pos inside, if_pos passed]
    refine ⟨formed, fun block mem => kept.wereBusy block (wereBusy block mem), ?_⟩
    intro block mem
    rcases kept.stillBusy block mem with stays | ⟨pending, waited⟩
    · exact stillBusy block stays
    · rw [mem_singleton] at waited
      exact Or.inr ⟨pending, waited ▸ passed.2⟩
  | case2 blocks i inside notPassed ih =>
    rw [freeUnusedFrom, dif_pos inside, if_neg notPassed]
    exact ih wf
  | case3 blocks i outside =>
    rw [freeUnusedFrom, dif_neg outside]
    exact ⟨wf, fun _ mem => mem, fun _ mem => Or.inl mem⟩

end FencedAllocator

end Chromium.Gpu
