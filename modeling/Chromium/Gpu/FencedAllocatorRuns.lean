import Chromium.Gpu.FencedAllocator

/-!
# Runs of the fenced allocator

A session pairs the blocks of the allocator with what its client knows: the
allocations handed out and not yet freed, and the fence that the pending frees
put on the bytes of the managed range. A token lifts its fences when a wait
for it returned, or when a later token was read.
-/

namespace Chromium.Gpu.FencedAllocator

open List
open Library

/-- The allocator together with the history its client observes. -/
structure Session where
  blocks : List Block
  outstanding : List (Nat × Nat)
  fence : Fence Int

/-- The calls of a client. -/
inductive Call
  | alloc (asked : Nat)
  | free (offset : Nat)
  | freePendingToken (offset : Nat) (token : Int)
  | freeUnused (lastTokenRead : Int)

namespace Session

/-- A fresh allocator: nothing is handed out and nothing is fenced. -/
def start (size : Nat) : Session where
  blocks := FencedAllocator.init size
  outstanding := []
  fence := .clear

/-- The session after a call. -/
def perform (s : Session) : Call -> Session
  | .alloc asked =>
    let allocation := FencedAllocator.alloc s.blocks asked
    { blocks := allocation.blocks
      outstanding :=
        if allocation.offset = kInvalidOffset then s.outstanding
        else (allocation.offset, allocSize asked) :: s.outstanding
      fence := s.fence.lift (· ∈ allocation.waited) }
  | .free offset =>
    { s with
      blocks := FencedAllocator.free s.blocks offset
      outstanding := s.outstanding.filter (·.1 ≠ offset) }
  | .freePendingToken offset token =>
    { blocks := FencedAllocator.freePendingToken s.blocks offset token
      outstanding := s.outstanding.filter (·.1 ≠ offset)
      fence :=
        match s.outstanding.lookup offset with
        | some size => s.fence.close offset size token
        | none => s.fence }
  | .freeUnused lastTokenRead =>
    { s with
      blocks := freeUnusedFrom lastTokenRead s.blocks 0
      fence := s.fence.lift (· <= lastTokenRead) }

/-- Only offsets of blocks in use are freed. -/
def Permitted (s : Session) : Call -> Prop
  | .free offset | .freePendingToken offset _ =>
    ∃ block ∈ s.blocks, block.state = .inUse ∧ block.offset = offset
  | _ => True

/-- The step relation of a session on permitted calls. -/
def Performed (s : Session) (call : Call) (next : Session) : Prop :=
  s.Permitted call ∧ next = s.perform call

/-- The blocks are well formed, the outstanding allocations are the blocks in
use, and every fenced byte lies in a block pending its token. -/
structure Consistent (size : Nat) (s : Session) : Prop where
  wellFormed : WellFormed size s.blocks
  outstanding_iff : ∀ range, range ∈ s.outstanding ↔
    ∃ block ∈ s.blocks, block.state = .inUse ∧ (block.offset, block.size) = range
  apart : s.outstanding.Pairwise Apart
  fenced : ∀ byte token, s.fence byte = some token ->
    ∃ block ∈ s.blocks, block.state = .freePendingToken ∧ block.token = token ∧
      block.offset <= byte ∧ byte < block.offset + block.size

theorem start_consistent (pos : 0 < size) : (start size).Consistent size where
  wellFormed :=
    { tiles := by simp [start, FencedAllocator.init, pos]
      separated := isChain_singleton _ }
  outstanding_iff := by simp [start, FencedAllocator.init]
  apart := .nil
  fenced := by
    intro byte token isFenced
    simp [start] at isFenced

variable {s : Session}

section

variable (holds : s.Consistent total)
include holds

/-- The size of an outstanding allocation is found by its offset. -/
theorem Consistent.lookup_eq (mem : block ∈ s.blocks) (used : block.state = .inUse) :
    s.outstanding.lookup block.offset = some block.size := by
  have listed : (block.offset, block.size) ∈ s.outstanding :=
    (holds.outstanding_iff _).mpr ⟨block, mem, used, rfl⟩
  cases search : s.outstanding.lookup block.offset with
  | none =>
    rw [lookup_eq_none_iff] at search
    simpa using search _ listed
  | some size =>
    obtain ⟨front, back, split, _⟩ := lookup_eq_some_iff.mp search
    obtain ⟨other, otherMember, _, same⟩ :=
      (holds.outstanding_iff (block.offset, size)).mp (by
        rw [split]
        simp)
    have pos := (holds.wellFormed.tiles.mem_bounds mem).2.1
    have otherPositive := (holds.wellFormed.tiles.mem_bounds otherMember).2.1
    obtain ⟨sameOffset, sameSize⟩ := Prod.mk.injEq .. ▸ same
    have equal := holds.wellFormed.tiles.eq_of_overlap mem
      otherMember ⟨Nat.le_refl _, by omega⟩ ⟨by omega, by omega⟩
    rw [equal, sameSize]

/-- The fences that the waits of a call leave standing are still backed by
pending blocks. -/
theorem Consistent.fenced_of_stillBusy
    (stillBusy : ∀ block ∈ busy s.blocks, block ∈ busy remaining ∨
      (block.state = .freePendingToken ∧ passed block.token = true)) (byte : Nat) (token : Int)
    (isFenced : s.fence.lift passed byte = some token) :
    ∃ block ∈ remaining, block.state = .freePendingToken ∧ block.token = token ∧
      block.offset <= byte ∧ byte < block.offset + block.size := by
  obtain ⟨wasFenced, notPassed⟩ := Fence.lift_eq_some_iff.mp isFenced
  obtain ⟨block, mem, pending, sameToken, bounds⟩ := holds.fenced byte token wasFenced
  rcases stillBusy block (mem_busy_iff.mpr ⟨mem, by simp [pending]⟩) with
    stays | ⟨_, hasPassed⟩
  · exact ⟨block, (mem_busy_iff.mp stays).1, pending, sameToken, bounds⟩
  · rw [sameToken, notPassed] at hasPassed
    simp at hasPassed

/-- The block that an allocation adds is apart from the outstanding ones. -/
theorem Consistent.fresh_apart (formed : WellFormed total (front ++ fresh :: back))
    (kept : Kept s.blocks (front ++ back) waited) (range : Nat × Nat)
    (listed : range ∈ s.outstanding) :
    Apart (fresh.offset, fresh.size) range := by
  obtain ⟨block, mem, used, rfl⟩ := (holds.outstanding_iff range).mp listed
  have remains := ((kept.inUse_iff block).mpr ⟨mem, used⟩).1
  have ordered := formed.tiles.pairwise
  rw [pairwise_append, pairwise_cons] at ordered
  obtain ⟨_, ⟨after, _⟩, before⟩ := ordered
  rcases mem_append.mp remains with inFront | inBack
  · exact Or.inr (before block inFront fresh mem_cons_self)
  · exact Or.inl (after block inBack)

/-- An allocation keeps the session consistent and hands out no fenced
byte. -/
theorem Consistent.perform_alloc (unsigned : total < 2 ^ 32) (asked : Nat) :
    (s.perform (.alloc asked)).Consistent total ∧
      ((FencedAllocator.alloc s.blocks asked).offset ≠ kInvalidOffset ->
        ∀ byte, (FencedAllocator.alloc s.blocks asked).offset <= byte ->
          byte < (FencedAllocator.alloc s.blocks asked).offset + allocSize asked ->
          (s.perform (.alloc asked)).fence byte = none) := by
  obtain ⟨formed, placed⟩ := alloc_spec asked holds.wellFormed
  simp only [perform]
  generalize FencedAllocator.alloc s.blocks asked = allocation at *
  cases placed with
  | @failed remaining waited kept =>
    refine ⟨⟨formed, ?_, ?_, ?_⟩, fun succeeded => absurd rfl succeeded⟩
    · intro range
      simp only [if_true, holds.outstanding_iff]
      apply exists_congr
      intro block
      rw [← and_assoc, ← and_assoc, kept.inUse_iff]
    · simpa only [if_true] using holds.apart
    · intro byte token isFenced
      exact holds.fenced_of_stillBusy (by simpa using kept.stillBusy) byte token isFenced
  | @placed front back fresh offset waited used starts sized kept =>
    subst starts
    have freshMember : fresh ∈ front ++ fresh :: back := by simp
    have bounds := formed.tiles.mem_bounds freshMember
    have ok : fresh.offset ≠ kInvalidOffset := by
      unfold kInvalidOffset
      omega
    have stillListed : ∀ block, block ∈ front ++ back -> block ∈ front ++ fresh :: back := by
      intro block mem
      rcases mem_append.mp mem with inFront | inBack
      · exact mem_append_left _ inFront
      · exact mem_append_right _ (mem_cons_of_mem _ inBack)
    have fenced : ∀ byte token, s.fence.lift (· ∈ waited) byte = some token ->
        ∃ block ∈ front ++ back, block.state = .freePendingToken ∧ block.token = token ∧
          block.offset <= byte ∧ byte < block.offset + block.size :=
      holds.fenced_of_stillBusy (by simpa only [decide_eq_true_eq] using kept.stillBusy)
    simp only [if_neg ok, ← sized]
    refine ⟨⟨formed, ?_, ?_, ?_⟩, ?_⟩
    · intro range
      rw [mem_cons, holds.outstanding_iff]
      constructor
      · rintro (rfl | ⟨block, mem, inUse, same⟩)
        · exact ⟨fresh, freshMember, used, rfl⟩
        · have remains := (kept.inUse_iff block).mpr ⟨mem, inUse⟩
          exact ⟨block, stillListed block remains.1, inUse, same⟩
      · rintro ⟨block, mem, inUse, rfl⟩
        rw [mem_append, mem_cons] at mem
        have split : block = fresh ∨ block ∈ front ++ back := by
          rw [mem_append]
          tauto
        rcases split with rfl | remains
        · exact Or.inl rfl
        · have was := (kept.inUse_iff block).mp ⟨remains, inUse⟩
          exact Or.inr ⟨block, was.1, inUse, rfl⟩
    · exact .cons (holds.fresh_apart formed kept) holds.apart
    · intro byte token isFenced
      obtain ⟨block, mem, backed⟩ := fenced byte token isFenced
      exact ⟨block, stillListed block mem, backed⟩
    · intro _ byte starts inside
      by_contra isFenced
      obtain ⟨token, equal⟩ := Option.ne_none_iff_exists'.mp isFenced
      obtain ⟨block, mem, pending, _, covers⟩ := fenced byte token equal
      have same := formed.tiles.eq_of_overlap freshMember
        (stillListed block mem) ⟨starts, inside⟩ covers
      rw [← same, used] at pending
      simp at pending

/-- The outstanding allocations other than a freed one. -/
theorem Consistent.mem_filter_iff (split : s.blocks = front ++ freed :: back) (range : Nat × Nat) :
    range ∈ s.outstanding.filter (·.1 ≠ freed.offset) ↔
      ∃ block ∈ front ++ back, block.state = .inUse ∧ (block.offset, block.size) = range := by
  have tiles := holds.wellFormed.tiles
  rw [split] at tiles
  have freedMember : freed ∈ front ++ freed :: back := by simp
  have ordered := tiles.pairwise
  have pos := (tiles.mem_bounds freedMember).2.1
  rw [pairwise_append, pairwise_cons] at ordered
  obtain ⟨_, ⟨after, _⟩, before⟩ := ordered
  rw [mem_filter, holds.outstanding_iff, split]
  constructor
  · rintro ⟨⟨block, mem, used, rfl⟩, ne⟩
    refine ⟨block, ?_, used, rfl⟩
    rw [mem_append, mem_cons] at mem
    rw [mem_append]
    rcases mem with inFront | rfl | inBack
    · exact Or.inl inFront
    · simp at ne
    · exact Or.inr inBack
  · rintro ⟨block, mem, used, rfl⟩
    rcases mem_append.mp mem with inFront | inBack
    · have := before block inFront freed mem_cons_self
      have bounds := tiles.mem_bounds (mem_append_left _ inFront)
      refine ⟨⟨block, mem_append_left _ inFront, used, rfl⟩, ?_⟩
      simp only [ne_eq, decide_not, Bool.not_eq_true', decide_eq_false_iff_not]
      omega
    · have := after block inBack
      refine ⟨⟨block, mem_append_right _ (mem_cons_of_mem _ inBack), used, rfl⟩, ?_⟩
      simp only [ne_eq, decide_not, Bool.not_eq_true', decide_eq_false_iff_not]
      omega

/-- Freeing an allocation keeps the session consistent. -/
theorem Consistent.perform_free (ok : s.Permitted (.free offset)) :
    (s.perform (.free offset)).Consistent total := by
  obtain ⟨freed, mem, used, rfl⟩ := ok
  obtain ⟨front, back, split⟩ := append_of_mem mem
  have wf := holds.wellFormed
  rw [split] at wf
  obtain ⟨formed, remaining⟩ := free_spec wf
  simp only [perform, split]
  refine ⟨formed, ?_, holds.apart.filter _, ?_⟩
  · intro range
    rw [holds.mem_filter_iff split]
    apply exists_congr
    intro block
    rw [← and_assoc, ← and_assoc, and_congr_left_iff]
    rintro -
    apply and_congr_left
    intro inUse
    have isBusy : block.state ≠ .free := by simp [inUse]
    have same : block ∈ busy (FencedAllocator.free (front ++ freed :: back)
        freed.offset) ↔ block ∈ busy (front ++ back) := by
      rw [remaining, busy_append]
    simpa only [mem_busy_iff, isBusy, ne_eq, not_false_eq_true, and_true] using same.symm
  · intro byte token isFenced
    obtain ⟨block, mem, pending, backed⟩ := holds.fenced byte token isFenced
    have isBusy : block.state ≠ .free := by simp [pending]
    refine ⟨block, ?_, pending, backed⟩
    have other : block ∈ busy front ++ busy back := by
      rw [← busy_append, mem_busy_iff]
      refine ⟨?_, isBusy⟩
      rw [split, mem_append, mem_cons] at mem
      rw [mem_append]
      rcases mem with inFront | rfl | inBack
      · exact Or.inl inFront
      · simp [used] at pending
      · exact Or.inr inBack
    rw [← remaining] at other
    exact (mem_busy_iff.mp other).1

/-- Freeing an allocation pending a token keeps the session consistent. -/
theorem Consistent.perform_freePendingToken
    (ok : s.Permitted (.freePendingToken offset token)) :
    (s.perform (.freePendingToken offset token)).Consistent total := by
  obtain ⟨freed, mem, used, rfl⟩ := ok
  have search := holds.lookup_eq mem used
  obtain ⟨front, back, split⟩ := append_of_mem mem
  have wf := holds.wellFormed
  rw [split] at wf
  obtain ⟨equality, formed⟩ := freePendingToken_spec wf token
  simp only [perform, search, split, equality]
  refine ⟨formed, ?_, holds.apart.filter _, ?_⟩
  · intro range
    rw [holds.mem_filter_iff split]
    constructor
    · rintro ⟨block, mem, rest⟩
      refine ⟨block, ?_, rest⟩
      rw [mem_append] at mem
      rw [mem_append, mem_cons]
      tauto
    · rintro ⟨block, mem, inUse, same⟩
      refine ⟨block, ?_, inUse, same⟩
      rw [mem_append, mem_cons] at mem
      rw [mem_append]
      rcases mem with inFront | rfl | inBack
      · exact Or.inl inFront
      · simp at inUse
      · exact Or.inr inBack
  · intro byte other isFenced
    rcases Fence.close_eq_some_iff.mp isFenced with
      ⟨starts, inside, same⟩ | ⟨outside, wasFenced⟩
    · exact ⟨{ freed with state := .freePendingToken, token := token },
        by simp, rfl, same, starts, inside⟩
    · obtain ⟨block, mem, pending, backed⟩ := holds.fenced byte other wasFenced
      refine ⟨block, ?_, pending, backed⟩
      rw [split, mem_append, mem_cons] at mem
      rw [mem_append, mem_cons]
      rcases mem with inFront | rfl | inBack
      · exact Or.inl inFront
      · simp [used] at pending
      · exact Or.inr (Or.inr inBack)

/-- Freeing the blocks whose token was read keeps the session consistent. -/
theorem Consistent.perform_freeUnused (lastTokenRead : Int) :
    (s.perform (.freeUnused lastTokenRead)).Consistent total := by
  obtain ⟨formed, wereBusy, stillBusy⟩ := freeUnusedFrom_spec lastTokenRead 0 holds.wellFormed
  simp only [perform]
  refine ⟨formed, ?_, holds.apart, ?_⟩
  · intro range
    simp only [holds.outstanding_iff]
    apply exists_congr
    intro block
    rw [← and_assoc, ← and_assoc, and_congr_left_iff]
    rintro -
    constructor
    · rintro ⟨mem, used⟩
      refine ⟨?_, used⟩
      rcases stillBusy block (mem_busy_iff.mpr ⟨mem, by simp [used]⟩) with
        stays | ⟨pending, _⟩
      · exact (mem_busy_iff.mp stays).1
      · simp [used] at pending
    · rintro ⟨mem, used⟩
      have was := wereBusy block (mem_busy_iff.mpr ⟨mem, by simp [used]⟩)
      exact ⟨(mem_busy_iff.mp was).1, used⟩
  · intro byte token isFenced
    exact holds.fenced_of_stillBusy
      (by simpa only [decide_eq_true_eq] using stillBusy) byte token isFenced

end

/-- Every permitted call keeps the session consistent. -/
theorem Consistent.performed {next : Session}
    (unsigned : total < 2 ^ 32) (holds : s.Consistent total)
    (performed : s.Performed call next) : next.Consistent total := by
  obtain ⟨ok, rfl⟩ := performed
  cases call with
  | alloc asked => exact (holds.perform_alloc unsigned asked).1
  | free offset => exact holds.perform_free ok
  | freePendingToken offset token => exact holds.perform_freePendingToken ok
  | freeUnused lastTokenRead => exact holds.perform_freeUnused _

/-- Outstanding allocations are nonempty ranges of the managed memory. -/
theorem Consistent.outstanding_bounds (holds : s.Consistent total) (range : Nat × Nat)
    (listed : range ∈ s.outstanding) :
    0 < range.2 ∧ range.1 + range.2 <= total := by
  obtain ⟨block, mem, _, rfl⟩ := (holds.outstanding_iff range).mp listed
  exact (holds.wellFormed.tiles.mem_bounds mem).2

/-- The blocks of a consistent session pass `CheckConsistency`. -/
theorem Consistent.checkConsistency (pos : 0 < total) (holds : s.Consistent total) :
    FencedAllocator.checkConsistency s.blocks = true := by
  have tiles := holds.wellFormed.tiles
  refine checkConsistency_of_tiles ?_ tiles holds.wellFormed.separated
  intro isNil
  rw [isNil, Tiles.nil_iff] at tiles
  omega

/-- After every run, the blocks partition the managed range with no two
adjacent free blocks, the outstanding allocations are disjoint ranges inside
it, and an allocation hands out no byte whose token has not passed. -/
theorem fencedAllocator_run_safe {s : Session} (pos : 0 < size) (unsigned : size < 2 ^ 32)
    (run : Run Performed (start size) calls s) :
    (Tiles Block.offset Block.size 0 s.blocks size ∧ Separated s.blocks ∧
        FencedAllocator.checkConsistency s.blocks = true) ∧
      (s.outstanding.Pairwise Apart ∧ ∀ range ∈ s.outstanding,
          0 < range.2 ∧ range.1 + range.2 <= size) ∧
      ∀ asked, (FencedAllocator.alloc s.blocks asked).offset ≠ kInvalidOffset ->
        ∀ byte, (FencedAllocator.alloc s.blocks asked).offset <= byte ->
          byte < (FencedAllocator.alloc s.blocks asked).offset + allocSize asked ->
          (s.perform (.alloc asked)).fence byte = none := by
  have holds : s.Consistent size :=
    run.invariant (Consistent size) (fun holds performed => holds.performed unsigned performed)
      (start_consistent pos)
  refine ⟨⟨holds.wellFormed.tiles, holds.wellFormed.separated, holds.checkConsistency pos⟩,
    ⟨holds.apart, holds.outstanding_bounds⟩, ?_⟩
  intro asked
  exact (holds.perform_alloc unsigned asked).2

/-- A run that splits the range and frees its first block pending a token. -/
theorem fencedAllocator_run_safe_pending :
    let s := (((start 16).perform (.alloc 8)).perform (.alloc 0)).perform (.freePendingToken 0 1)
    s.fence 3 = some 1 ∧ FencedAllocator.checkConsistency s.blocks = true ∧
      s.outstanding.Pairwise Apart := by
  have run : Run Performed (start 16) [.alloc 8, .alloc 0, .freePendingToken 0 1]
      ((((start 16).perform (.alloc 8)).perform (.alloc 0)).perform (.freePendingToken 0 1)) :=
    .cons ⟨trivial, rfl⟩ (.cons ⟨trivial, rfl⟩ (.cons
      ⟨⟨⟨.inUse, 0, 8, kUnusedToken⟩, by decide, rfl, rfl⟩, rfl⟩ (.nil _)))
  have safe := fencedAllocator_run_safe (by decide) (by decide) run
  exact ⟨by decide, safe.1.2.2, safe.2.1.1⟩

end Session

end Chromium.Gpu.FencedAllocator
