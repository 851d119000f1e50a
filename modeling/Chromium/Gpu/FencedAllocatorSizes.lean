import Chromium.Gpu.FencedAllocatorRuns
import Mathlib.Order.MinMax

/-!
# Sizes that the fenced allocator promises

`GetLargestFreeSize` and `GetLargestFreeOrPendingSize` tell which allocations
succeed, the first of them without a wait. Freeing a pending block and
collapsing it keeps the sizes of the runs of blocks that are not in use, and
when no block is pending any more, each of these runs is one free block.
-/

namespace Chromium.Gpu.FencedAllocator

open List
open Library

/-- `FencedAllocator::GetLargestFreeSize`. -/
def getLargestFreeSize (blocks : List Block) : Nat :=
  blocks.foldl (fun max_size block =>
    if block.state = .free then max max_size block.size else max_size) 0

/-- The variables of `FencedAllocator::GetLargestFreeOrPendingSize`. -/
structure RunSizes where
  max_size : Nat := 0
  current_size : Nat := 0

/-- One round of its loop. -/
def RunSizes.pass (sizes : RunSizes) (block : Block) : RunSizes :=
  if block.state = .inUse then { max_size := max sizes.max_size sizes.current_size }
  else { sizes with current_size := sizes.current_size + block.size }

/-- What the loop returns in the end. -/
def RunSizes.largest (sizes : RunSizes) : Nat := max sizes.max_size sizes.current_size

/-- `FencedAllocator::GetLargestFreeOrPendingSize`. -/
def getLargestFreeOrPendingSize (blocks : List Block) : Nat :=
  (blocks.foldl RunSizes.pass {}).largest

theorem le_foldl_free_iff {blocks : List Block} : size <= blocks.foldl (fun max_size block =>
        if block.state = .free then max max_size block.size
        else max_size) start ↔
      size <= start ∨ ∃ block ∈ blocks, block.state = .free ∧ size <= block.size := by
  induction blocks generalizing start with
  | nil => simp
  | cons block blocks ih =>
    rw [foldl_cons, ih]
    simp only [mem_cons, exists_eq_or_imp]
    split
    · rename_i isFree
      simp only [isFree, true_and, le_max_iff, or_assoc]
    · rename_i notFree
      simp [notFree]

/-- The largest free size is that of a free block. -/
theorem le_getLargestFreeSize_iff {size : Nat} (pos : 0 < size) :
    size <= getLargestFreeSize blocks ↔
      ∃ block ∈ blocks, block.state = .free ∧ size <= block.size := by
  rw [getLargestFreeSize, le_foldl_free_iff, Nat.le_zero]
  exact or_iff_right pos.ne'

namespace RunSizes

variable {sizes : RunSizes} {blocks : List Block}

theorem pass_of_inUse (used : block.state = .inUse) : sizes.pass block =
      { max_size := max sizes.max_size sizes.current_size } :=
  if_pos used

theorem pass_of_not_inUse (unused : block.state ≠ .inUse) : sizes.pass block =
      { sizes with current_size := sizes.current_size + block.size } :=
  if_neg unused

/-- Adjacent blocks that are not in use count as one. -/
theorem pass_pass (unused : block.state ≠ .inUse) (otherUnused : other.state ≠ .inUse)
    (mergedUnused : merged.state ≠ .inUse) (sized : merged.size = block.size + other.size) :
    (sizes.pass block).pass other = sizes.pass merged := by
  rw [pass_of_not_inUse unused, pass_of_not_inUse otherUnused,
    pass_of_not_inUse mergedUnused, sized, Nat.add_assoc]

theorem largest_le_pass : sizes.largest <= (sizes.pass block).largest := by
  rw [pass]
  split
  · exact le_max_left _ _
  · exact max_le_max le_rfl (Nat.le_add_right _ _)

theorem largest_le_foldl : sizes.largest <= (blocks.foldl pass sizes).largest := by
  induction blocks generalizing sizes with
  | nil => exact le_rfl
  | cons block blocks ih => exact largest_le_pass.trans ih

/-- A block that is not in use is part of a run. -/
theorem size_le_largest (mem : block ∈ blocks) (unused : block.state ≠ .inUse) :
    block.size <= (blocks.foldl pass sizes).largest := by
  obtain ⟨front, back, rfl⟩ := append_of_mem mem
  rw [foldl_append, foldl_cons]
  refine le_trans ?_ largest_le_foldl
  rw [pass_of_not_inUse unused]
  exact (Nat.le_add_left _ _).trans (le_max_right _ _)

/-- Without pending blocks, a run is a single free block. -/
theorem largest_foldl_lt {size : Nat} (separated : Separated blocks)
    (waited : ∀ block ∈ blocks, block.state ≠ .freePendingToken)
    (small : ∀ block ∈ blocks, block.state = .free -> block.size < size)
    (runs : sizes.largest < size)
    (fresh : sizes.current_size = 0 ∨ ∀ block ∈ blocks.head?, block.state ≠ .free) :
    (blocks.foldl pass sizes).largest < size := by
  induction blocks generalizing sizes with
  | nil => exact runs
  | cons block blocks ih =>
    rw [forall_mem_cons] at waited small
    rw [Separated, isChain_cons] at separated
    rw [foldl_cons]
    rw [largest, max_lt_iff] at runs
    cases isState : block.state with
    | inUse =>
      rw [pass_of_inUse isState]
      refine ih separated.2 waited.2 small.2 ?_ (.inl rfl)
      exact max_lt (max_lt runs.1 runs.2) (Nat.zero_lt_of_lt runs.1)
    | free =>
      rw [pass_of_not_inUse (by simp [isState])]
      have isFresh : sizes.current_size = 0 :=
        fresh.resolve_right fun others => others block rfl isState
      refine ih separated.2 waited.2 small.2 ?_ (.inr ?_)
      · refine max_lt runs.1 ?_
        rw [isFresh, Nat.zero_add]
        exact small.1 isState
      · intro next isNext nextFree
        exact separated.1 next isNext ⟨isState, nextFree⟩
    | freePendingToken => exact (waited.1 isState).elim

end RunSizes

section Collapse

variable {front back : List Block} {block : Block}

/-- Collapsing with the next block takes blocks from the front of those behind. -/
theorem collapseNext_runs (isFree : block.state = .free) : ∃ merged rest,
      collapseNext (front ++ block :: back) front.length = front ++ merged :: rest ∧
      merged.state = .free ∧ rest <:+ back ∧
      ∀ sizes : RunSizes, (merged :: rest).foldl RunSizes.pass sizes =
        (block :: back).foldl RunSizes.pass sizes := by
  cases back with
  | nil =>
    refine ⟨block, [], ?_, isFree, suffix_rfl, fun _ => rfl⟩
    simp [collapseNext]
  | cons next rest =>
    have hit : (front ++ block :: next :: rest)[front.length + 1]? = some next := by simp
    rw [collapseNext, hit]
    dsimp only
    split
    · rename_i nextFree
      have erased := eraseIdx_append_cons
        (front ++ [{ block with size := block.size + next.size }]) rest next
      simp only [append_assoc, singleton_append, length_append, length_singleton] at erased
      refine ⟨{ block with size := block.size + next.size }, rest, ?_, isFree,
        suffix_cons next rest, fun sizes => ?_⟩
      · rw [modify_append_cons, erased]
      · rw [foldl_cons, foldl_cons, foldl_cons]
        congr 1
        exact (RunSizes.pass_pass (by simp [isFree]) (by simp [nextFree])
          (by simp [isFree]) rfl).symm
    · exact ⟨block, next :: rest, rfl, isFree, suffix_rfl, fun _ => rfl⟩

/-- Collapsing with the previous block takes it from those in front. -/
theorem collapsePrevious_runs (isFree : block.state = .free) : ∃ before merged,
      collapsePrevious (front ++ block :: back) front.length =
        (before ++ merged :: back, before.length) ∧ merged.state = .free ∧ before <+: front ∧
      ∀ sizes : RunSizes, (before ++ [merged]).foldl RunSizes.pass sizes =
        (front ++ [block]).foldl RunSizes.pass sizes := by
  rcases eq_nil_or_concat' front with rfl | ⟨before, previous, rfl⟩
  · exact ⟨[], block, rfl, isFree, prefix_rfl, fun _ => rfl⟩
  · have hit : (before ++ [previous] ++ block :: back)[
        (before ++ [previous]).length - 1]? = some previous := by
      simp
    have self : (before ++ [previous] ++ block :: back)[
        (before ++ [previous]).length]? = some block :=
      getElem?_append_cons _ _ _
    rw [collapsePrevious, if_pos (by simp), hit, self]
    dsimp only
    split
    · rename_i previousFree
      have merged := modify_append_cons before (block :: back) previous
        fun prev => { prev with size := prev.size + block.size }
      have erased := eraseIdx_append_cons
        (before ++ [{ previous with size := previous.size + block.size }])
        back block
      simp only [append_assoc, singleton_append, length_append, length_singleton,
        Nat.add_sub_cancel] at merged erased ⊢
      refine ⟨before, { previous with size := previous.size + block.size }, ?_,
        previousFree, prefix_append _ _, fun sizes => ?_⟩
      · rw [merged, erased]
      · simp only [foldl_append, foldl_cons, foldl_nil]
        exact (RunSizes.pass_pass (by simp [previousFree]) (by simp [isFree])
          (by simp [previousFree]) rfl).symm
    · exact ⟨before ++ [previous], block, rfl, isFree, prefix_rfl, fun _ => rfl⟩

/-- Freeing a pending block keeps the other blocks, but for those that it is
collapsed with, and the sizes of the runs. -/
theorem waitForTokenAndFreeBlock_runs (pending : block.state = .freePendingToken) :
    ∃ before merged after, waitForTokenAndFreeBlock (front ++ block :: back) front.length =
        (before ++ merged :: after, before.length) ∧
      merged.state = .free ∧ before <+: front ∧ after <:+ back ∧
      getLargestFreeOrPendingSize (before ++ merged :: after) =
        getLargestFreeOrPendingSize (front ++ block :: back) := by
  have marked : markFree (front ++ block :: back) front.length =
      front ++ { block with state := .free } :: back :=
    modify_append_cons _ _ _ _
  obtain ⟨next, after, isNext, nextFree, isSuffix, sameNext⟩ :=
    @collapseNext_runs front back { block with state := .free } rfl
  obtain ⟨before, merged, isPrevious, mergedFree, isPrefix, samePrevious⟩ :=
    @collapsePrevious_runs front after next nextFree
  refine ⟨before, merged, after, ?_, mergedFree, isPrefix, isSuffix, ?_⟩
  · rw [waitForTokenAndFreeBlock, collapseFreeBlock, marked, isNext, isPrevious]
  · have front_ : ∀ sizes : RunSizes, (before ++ merged :: after).foldl RunSizes.pass sizes =
          (front ++ next :: after).foldl RunSizes.pass sizes := by
      intro sizes
      rw [append_cons before, append_cons front,
        foldl_append (l := before ++ [merged]), samePrevious,
        ← foldl_append]
    have passes : ∀ sizes : RunSizes,
        sizes.pass { block with state := .free } = sizes.pass block := by
      intro sizes
      rw [RunSizes.pass_of_not_inUse (by simp), RunSizes.pass_of_not_inUse (by simp [pending])]
    rw [getLargestFreeOrPendingSize, front_, foldl_append, sameNext,
      foldl_cons, passes, ← foldl_cons, ← foldl_append]
    rfl

/-- The blocks after freeing one at an index: all but the collapsed block were
there, and those up to it are not pending if those in front were not. -/
theorem mem_waitForTokenAndFreeBlock (lt : index < blocks.length)
    (pending : blocks[index].state = .freePendingToken) :
    let freed := waitForTokenAndFreeBlock blocks index
    (∀ block ∈ freed.1, block ∈ blocks ∨ freed.1[freed.2]? = some block) ∧
      (∀ block ∈ freed.1.take (freed.2 + 1),
        block.state = .freePendingToken -> block ∈ blocks.take index) ∧
      getLargestFreeOrPendingSize freed.1 = getLargestFreeOrPendingSize blocks := by
  generalize elem : blocks[index] = block at pending
  obtain ⟨front, back, rfl, rfl⟩ := exists_append_of_getElem?
    (List.getElem?_eq_some_iff.mpr ⟨lt, elem⟩)
  obtain ⟨before, merged, after, isFreed, isFree, isPrefix, isSuffix,
    same⟩ := @waitForTokenAndFreeBlock_runs front back block pending
  rw [isFreed]
  refine ⟨fun other mem => ?_, fun other mem otherPending => ?_, same⟩
  · rcases mem_append.mp mem with inFront | inBack
    · exact .inl (mem_append_left _ (isPrefix.subset inFront))
    · rcases mem_cons.mp inBack with rfl | inBack
      · exact .inr (getElem?_append_cons _ _ _)
      · exact .inl (mem_append_right _ (mem_cons_of_mem _ (isSuffix.subset inBack)))
  · rw [append_cons, take_left' (by simp), mem_append, mem_singleton] at mem
    rw [take_left]
    rcases mem with inFront | rfl
    · exact isPrefix.subset inFront
    · rw [isFree] at otherPending
      cases otherPending

end Collapse

section Alloc

/-- Allocating in a free block that is large enough gives a valid offset. -/
theorem valid_allocInBlock (unsigned : total < 2 ^ 32)
    (wf : WellFormed total blocks) (hit : blocks[index]? = some block) :
    (allocInBlock blocks index size).1 ≠ kInvalidOffset := by
  have bounds := wf.tiles.mem_bounds (mem_of_getElem? hit)
  have isOffset : (allocInBlock blocks index size).1 = block.offset := by
    rw [allocInBlock, hit]
    dsimp only
    split <;> rfl
  rw [isOffset, kInvalidOffset]
  omega

/-- The second loop finds a block in every run that is large enough. -/
theorem allocAfterWaiting_succeeds_iff
    (unsigned : total < 2 ^ 32) (pos : 0 < size) (wf : WellFormed total blocks)
    (small : ∀ block ∈ blocks, block.state = .free -> block.size < size)
    (waited : ∀ block ∈ blocks.take i, block.state ≠ .freePendingToken) :
    (allocAfterWaiting size blocks i).offset ≠ kInvalidOffset ↔
      size <= getLargestFreeOrPendingSize blocks := by
  induction blocks, i using allocAfterWaiting.induct size with
  | case1 blocks i inside notPending ih =>
    rw [allocAfterWaiting, dif_pos inside, if_pos notPending]
    refine ih wf small ?_
    rw [take_succ_eq_append_getElem inside, forall_mem_append]
    exact ⟨waited, forall_mem_singleton.mpr notPending⟩
  | case2 blocks i inside pending freed fits =>
    obtain ⟨freedFormed, -, collapsed, hit, isFree⟩ :=
      waitForTokenAndFreeBlock_spec wf inside (not_not.mp pending)
    have same := (mem_waitForTokenAndFreeBlock inside (not_not.mp pending)).2.2
    have large : size <= collapsed.size := by
      simpa only [freed, hit, Option.any_some, decide_eq_true_eq] using fits
    rw [allocAfterWaiting, dif_pos inside, if_neg pending, if_pos fits]
    refine iff_of_true (valid_allocInBlock unsigned freedFormed hit) ?_
    rw [← same]
    exact large.trans (RunSizes.size_le_largest (mem_of_getElem? hit) (by simp [isFree]))
  | case3 blocks i inside pending freed isSmall ih =>
    obtain ⟨freedFormed, -, -⟩ :=
      waitForTokenAndFreeBlock_spec wf inside (not_not.mp pending)
    obtain ⟨known, notPending, same⟩ := mem_waitForTokenAndFreeBlock inside (not_not.mp pending)
    rw [allocAfterWaiting, dif_pos inside, if_neg pending, if_neg isSmall]
    rw [← same]
    refine ih freedFormed ?_ ?_
    · intro block mem isFree
      rcases known block mem with wasThere | hit
      · exact small block wasThere isFree
      · simpa [freed, hit] using isSmall
    · intro block mem isPending
      exact waited block (notPending block mem isPending) isPending
  | case4 blocks i outside =>
    rw [allocAfterWaiting, dif_neg outside]
    refine iff_of_false (fun ok => ok rfl) (Nat.not_le_of_lt ?_)
    rw [take_of_length_le (Nat.le_of_not_lt outside)] at waited
    exact RunSizes.largest_foldl_lt wf.separated waited small pos (.inl rfl)

/-- An allocation succeeds if it is not larger than the largest run of blocks
that are not in use. -/
theorem alloc_succeeds_iff (unsigned : total < 2 ^ 32) (pos : 0 < size)
    (wf : WellFormed total blocks) :
    (alloc blocks size).offset ≠ kInvalidOffset ↔ size <= getLargestFreeOrPendingSize blocks := by
  have isSize : allocSize size = size := if_neg pos.ne'
  rw [alloc, isSize]
  split
  · rename_i index search
    obtain ⟨inside, suitable, -⟩ := findIdx?_eq_some_iff_getElem.mp search
    rw [decide_eq_true_eq] at suitable
    refine iff_of_true (valid_allocInBlock unsigned wf
      (List.getElem?_eq_some_iff.mpr ⟨inside, rfl⟩)) ?_
    exact suitable.2.trans (RunSizes.size_le_largest (getElem_mem inside) (by simp [suitable.1]))
  · rename_i search
    refine allocAfterWaiting_succeeds_iff unsigned pos wf ?_ (by simp)
    intro block mem isFree
    have unsuitable := findIdx?_eq_none_iff.mp search block mem
    simpa [isFree] using unsuitable

/-- A request of zero bytes is one of one byte. -/
theorem alloc_allocSize (asked : Nat) :
    alloc blocks (allocSize asked) = alloc blocks asked := by
  have same : allocSize (allocSize asked) = allocSize asked :=
    if_neg (allocSize_pos asked).ne'
  rw [alloc, alloc, same]

/-- It does so without a wait if it is not larger than the largest free block. -/
theorem alloc_of_le_getLargestFreeSize (unsigned : total < 2 ^ 32) (pos : 0 < size)
    (wf : WellFormed total blocks) (fits : size <= getLargestFreeSize blocks) :
    (alloc blocks size).offset ≠ kInvalidOffset ∧ (alloc blocks size).waited = [] := by
  obtain ⟨block, mem, isFree, large⟩ := (le_getLargestFreeSize_iff pos).mp fits
  have isSize : allocSize size = size := if_neg pos.ne'
  rw [alloc, isSize]
  split
  · rename_i index search
    obtain ⟨inside, -, -⟩ := findIdx?_eq_some_iff_getElem.mp search
    exact ⟨valid_allocInBlock unsigned wf
      (List.getElem?_eq_some_iff.mpr ⟨inside, rfl⟩), rfl⟩
  · rename_i search
    have unsuitable := findIdx?_eq_none_iff.mp search block mem
    simp [isFree] at unsuitable
    omega

/-- The second loop waits for a token, or fails. -/
theorem allocAfterWaiting_of_waited_nil (size : Nat)
    (silent : (allocAfterWaiting size blocks i).waited = []) :
    (allocAfterWaiting size blocks i).offset = kInvalidOffset := by
  induction blocks, i using allocAfterWaiting.induct size with
  | case1 blocks i inside notPending ih =>
    rw [allocAfterWaiting, dif_pos inside, if_pos notPending] at silent ⊢
    exact ih silent
  | case2 blocks i inside pending freed fits =>
    rw [allocAfterWaiting, dif_pos inside, if_neg pending, if_pos fits] at silent
    cases silent
  | case3 blocks i inside pending freed isSmall =>
    rw [allocAfterWaiting, dif_pos inside, if_neg pending, if_neg isSmall] at silent
    cases silent
  | case4 blocks i outside => rw [allocAfterWaiting, dif_neg outside]

/-- Without a free block that is large enough, an allocation waits or fails. -/
theorem alloc_of_getLargestFreeSize_lt (pos : 0 < size) (small : getLargestFreeSize blocks < size)
    (silent : (alloc blocks size).waited = []) :
    (alloc blocks size).offset = kInvalidOffset := by
  have isSize : allocSize size = size := if_neg pos.ne'
  rw [alloc, isSize] at silent ⊢
  split at silent
  · rename_i index search
    obtain ⟨inside, suitable, -⟩ := findIdx?_eq_some_iff_getElem.mp search
    rw [decide_eq_true_eq] at suitable
    have fits := (le_getLargestFreeSize_iff pos).mpr ⟨_, getElem_mem inside, suitable⟩
    omega
  · exact allocAfterWaiting_of_waited_nil _ silent

end Alloc

section FreeUnused

variable {lastTokenRead : Int}

/-- A block that is free, or is made free by `FencedAllocator::FreeUnused`. -/
def Unused (lastTokenRead : Int) (block : Block) : Prop :=
  block.state = .free ∨ (block.state = .freePendingToken ∧ block.token <= lastTokenRead)

instance (block : Block) : Decidable (Unused lastTokenRead block) :=
  inferInstanceAs (Decidable (_ ∨ _))

/-- No block whose token was read stays pending. -/
theorem unread_freeUnusedFrom (blocks : List Block) (i : Nat)
    (unread : ∀ block ∈ blocks.take i,
      block.state = .freePendingToken -> ¬ block.token <= lastTokenRead) :
    ∀ block ∈ freeUnusedFrom lastTokenRead blocks i,
      block.state = .freePendingToken -> ¬ block.token <= lastTokenRead := by
  induction blocks, i using freeUnusedFrom.induct lastTokenRead with
  | case1 blocks i inside passed freed ih =>
    rw [freeUnusedFrom, dif_pos inside, if_pos passed]
    refine ih fun block mem pending => ?_
    obtain ⟨-, wasPending, -⟩ := mem_waitForTokenAndFreeBlock inside passed.1
    have more : block ∈ freed.1.take (freed.2 + 1) :=
      (take_prefix_take_left (Nat.le_succ _)).subset mem
    exact unread block (wasPending block more pending) pending
  | case2 blocks i inside notPassed ih =>
    rw [freeUnusedFrom, dif_pos inside, if_neg notPassed]
    refine ih ?_
    rw [take_succ_eq_append_getElem inside, forall_mem_append]
    refine ⟨unread, forall_mem_singleton.mpr fun pending read => ?_⟩
    exact notPassed ⟨pending, read⟩
  | case3 blocks i outside =>
    rw [freeUnusedFrom, dif_neg outside]
    rwa [take_of_length_le (Nat.le_of_not_lt outside)] at unread

/-- There is a free block afterwards where there was one that is unused. -/
theorem exists_free_freeUnused_iff (wf : WellFormed total blocks) :
    (∃ block ∈ freeUnusedFrom lastTokenRead blocks 0, block.state = .free) ↔
      ∃ block ∈ blocks, Unused lastTokenRead block := by
  obtain ⟨formed, wereBusy, stillBusy⟩ := freeUnusedFrom_spec lastTokenRead 0 wf
  have unread := @unread_freeUnusedFrom lastTokenRead blocks 0 (by simp)
  constructor
  · rintro ⟨block, mem, isFree⟩
    -- The block that was there before is not still busy.
    obtain ⟨lower, pos, upper⟩ := formed.tiles.mem_bounds mem
    obtain ⟨other, wasThere, covers⟩ := wf.tiles.exists_cover lower (by omega)
    refine ⟨other, wasThere, ?_⟩
    by_cases otherFree : other.state = .free
    · exact .inl otherFree
    · rcases stillBusy other (mem_busy_iff.mpr ⟨wasThere, otherFree⟩) with
        stays | passed
      · have same := formed.tiles.eq_of_overlap mem
          (mem_busy_iff.mp stays).1 ⟨le_rfl, by omega⟩ covers
        exact (otherFree (same ▸ isFree)).elim
      · exact .inr passed
  · rintro ⟨block, mem, unused⟩
    obtain ⟨lower, pos, upper⟩ := wf.tiles.mem_bounds mem
    obtain ⟨other, isThere, covers⟩ := formed.tiles.exists_cover lower (by omega)
    refine ⟨other, isThere, ?_⟩
    by_contra otherBusy
    have was := wereBusy other (mem_busy_iff.mpr ⟨isThere, otherBusy⟩)
    have same := wf.tiles.eq_of_overlap mem (mem_busy_iff.mp was).1
      ⟨le_rfl, by omega⟩ covers
    rw [same] at unused
    rcases unused with isFree | ⟨pending, read⟩
    · exact otherBusy isFree
    · exact unread other isThere pending read

end FreeUnused

namespace Session

/-- What the source checks of a call: an offset is that of a block, and a block
that is freed at once is not free. -/
def Checked (s : Session) : Call -> Prop
  | .free offset => ∃ block ∈ s.blocks, block.offset = offset ∧ block.state ≠ .free
  | .freePendingToken offset _ => ∃ block ∈ s.blocks, block.offset = offset
  | _ => True

/-- The step relation of a session on calls that pass their checks. -/
abbrev PerformedChecked : Session -> Call -> Session -> Prop :=
  Guarded Checked fun s call next => next = s.perform call

/-- Every such call keeps the blocks well formed. -/
theorem wellFormed_performedChecked {s next : Session} (wf : WellFormed total s.blocks)
    (ran : s.PerformedChecked call next) :
    WellFormed total next.blocks := by
  obtain ⟨checked, rfl⟩ := ran
  cases call with
  | alloc asked => exact (alloc_spec asked wf).1
  | free offset =>
    obtain ⟨block, mem, rfl, -⟩ := checked
    obtain ⟨front, back, split⟩ := append_of_mem mem
    rw [split] at wf
    rw [perform, split]
    exact (free_spec wf).1
  | freePendingToken offset token =>
    obtain ⟨block, mem, rfl⟩ := checked
    obtain ⟨front, back, split⟩ := append_of_mem mem
    rw [split] at wf
    obtain ⟨isFreed, formed⟩ := freePendingToken_spec wf token
    rw [perform, split, isFreed]
    exact formed
  | freeUnused lastTokenRead =>
    exact (freeUnusedFrom_spec lastTokenRead 0 wf).1

/-- After every run, an allocation succeeds if and only if it is not larger than
the largest run of free and pending blocks, and it waits for no token if it is
not larger than the largest free block. -/
theorem fencedAllocator_run_sizes {size : Nat} {calls : List Call} {s : Session} (pos : 0 < size)
    (unsigned : size < 2 ^ 32)
    (run : Run PerformedChecked (start size) calls s) (asked : Nat)
    (nonzero : 1 <= asked) :
    ((FencedAllocator.alloc s.blocks asked).offset ≠ kInvalidOffset ↔
      asked <= getLargestFreeOrPendingSize s.blocks) ∧
    (asked <= getLargestFreeSize s.blocks ->
      (FencedAllocator.alloc s.blocks asked).offset ≠ kInvalidOffset ∧
        (FencedAllocator.alloc s.blocks asked).waited = []) := by
  have wellFormed : WellFormed size s.blocks :=
    run.invariant (fun s => WellFormed size s.blocks)
      wellFormed_performedChecked (start_consistent pos).wellFormed
  exact ⟨alloc_succeeds_iff unsigned nonzero wellFormed,
    alloc_of_le_getLargestFreeSize unsigned nonzero wellFormed⟩

/-- A pending and a free block are taken together. -/
theorem fencedAllocator_run_sizes_pending :
    let s := ((start 16).perform (.alloc 10)).perform (.freePendingToken 0 1)
    ((FencedAllocator.alloc s.blocks 12).offset ≠ kInvalidOffset ↔
        12 <= getLargestFreeOrPendingSize s.blocks) ∧
      (FencedAllocator.alloc s.blocks 6).offset ≠ kInvalidOffset ∧
      (FencedAllocator.alloc s.blocks 6).waited = [] := by
  have run : Run PerformedChecked (start 16) [.alloc 10, .freePendingToken 0 1]
      (((start 16).perform (.alloc 10)).perform (.freePendingToken 0 1)) :=
    .cons ⟨trivial, rfl⟩ (.cons ⟨⟨⟨.inUse, 0, 10, kUnusedToken⟩, by decide, rfl⟩, rfl⟩ (.nil _))
  have pos : 0 < 16 := by decide
  have unsigned : 16 < 2 ^ 32 := by decide
  exact ⟨(fencedAllocator_run_sizes pos unsigned run 12 (by decide)).1,
    (fencedAllocator_run_sizes pos unsigned run 6 (by decide)).2 (by decide)⟩

/-- After every run, `FreeUnused` leaves the one free block of the start exactly when nothing is
outstanding and the token of every pending block was read. -/
theorem fencedAllocator_run_reclaims {s : Session} (pos : 0 < size) (unsigned : size < 2 ^ 32)
    (run : Run Performed (start size) calls s) (lastTokenRead : Int) :
    (∃ token, freeUnusedFrom lastTokenRead s.blocks 0 = [⟨.free, 0, size, token⟩]) ↔
      s.outstanding = [] ∧ ∀ block ∈ s.blocks, block.state = .freePendingToken ->
        block.token <= lastTokenRead := by
  have inv : s.Consistent size :=
    run.invariant (Consistent size) (fun inv ran => inv.performed unsigned ran)
      (start_consistent pos)
  obtain ⟨formed, wereBusy, stillBusy⟩ := freeUnusedFrom_spec lastTokenRead 0 inv.wellFormed
  constructor
  · rintro ⟨token, isFree⟩
    have gone : ∀ block ∈ s.blocks, block.state ≠ .free ->
        block.state = .freePendingToken ∧ block.token <= lastTokenRead := by
      intro block mem busy
      rcases stillBusy block (mem_busy_iff.mpr ⟨mem, busy⟩) with stays | passed
      · rw [isFree] at stays
        cases stays
      · exact passed
    refine ⟨eq_nil_iff_forall_not_mem.mpr fun range listed => ?_, fun block mem pending =>
      (gone block mem (by simp [pending])).2⟩
    obtain ⟨block, mem, used, -⟩ := (inv.outstanding_iff range).mp listed
    have pending := (gone block mem (by simp [used])).1
    simp [used] at pending
  · rintro ⟨nothing, wereRead⟩
    have isFree : ∀ block ∈ freeUnusedFrom lastTokenRead s.blocks 0, block.state = .free := by
      intro block mem
      by_contra busy
      have was := (mem_busy_iff.mp (wereBusy block (mem_busy_iff.mpr ⟨mem, busy⟩))).1
      cases isState : block.state with
      | free => exact busy isState
      | inUse =>
        have listed := (inv.outstanding_iff _).mpr ⟨block, was, isState, rfl⟩
        simp [nothing] at listed
      | freePendingToken =>
        exact unread_freeUnusedFrom s.blocks 0 (by simp) block mem isState
          (wereRead block was isState)
    have tiles := formed.tiles
    have separated := formed.separated
    match left : freeUnusedFrom lastTokenRead s.blocks 0 with
    | [] =>
      rw [left] at tiles
      exact absurd tiles (Nat.ne_of_lt pos)
    | [block] =>
      rw [left] at tiles isFree
      obtain ⟨isFirst, -, isLast⟩ := tiles
      have state := isFree block mem_cons_self
      rw [Tiles.nil_iff, Nat.zero_add] at isLast
      exact ⟨block.token, by rw [← state, ← isFirst, ← isLast]⟩
    | first :: second :: rest =>
      rw [left] at separated isFree
      exact absurd ⟨isFree first (by simp), isFree second (by simp)⟩
        (isChain_cons_cons.mp separated).1

/-- A block pending its token in front of a free one. -/
theorem fencedAllocator_run_reclaims_pending : ∃ token, freeUnusedFrom 1
    (((start 16).perform (.alloc 10)).perform (.freePendingToken 0 1)).blocks 0 =
      [⟨.free, 0, 16, token⟩] := by
  have run : Run Performed (start 16) [.alloc 10, .freePendingToken 0 1] _ :=
    .cons ⟨trivial, rfl⟩ (.cons ⟨⟨⟨.inUse, 0, 10, kUnusedToken⟩, by decide, rfl, rfl⟩, rfl⟩ (.nil _))
  exact (fencedAllocator_run_reclaims (by decide) (by decide) run 1).mpr ⟨by decide, by decide⟩

end Session

end Chromium.Gpu.FencedAllocator
