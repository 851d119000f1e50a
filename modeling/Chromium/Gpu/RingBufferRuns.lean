import Chromium.Gpu.RingBuffer

/-!
# Runs of the ring buffer

A session pairs the ring with what its client knows: the allocation that it
holds, and the fence that the pending frees put on the bytes of the ring. The
client frees each allocation pending a token before the next one.
-/

namespace Chromium.Gpu.RingBuffer

open List hiding range
open Library

/-- The ring together with the history its client observes. -/
structure Session where
  ring : Ring
  handed : Option (Nat × Nat)
  fence : Fence Nat

/-- The calls of a client. -/
inductive Call
  | alloc (asked : Nat)
  | freePendingToken (offset token : Nat)

namespace Session

/-- A fresh ring: nothing is handed out and nothing is fenced. -/
def start (baseOffset size : Nat) : Session where
  ring := init baseOffset size
  handed := none
  fence := .clear

/-- The session after a call, unless a check of the source fails. -/
def perform (s : Session) : Call -> Except Fault Session
  | .alloc asked =>
    match RingBuffer.alloc s.ring asked with
    | .error fault => .error fault
    | .ok allocation =>
      .ok {
        ring := allocation.ring
        handed := some (allocation.offset, allocSize asked)
        fence := s.fence.lift (· ∈ allocation.waited) }
  | .freePendingToken offset token =>
    match RingBuffer.freePendingToken s.ring offset token with
    | .error fault => .error fault
    | .ok ring =>
      .ok {
        ring := ring
        handed := none
        fence :=
          match s.handed with
          | some range => s.fence.close range.1 range.2 token
          | none => s.fence }

/-- The discipline of the class: each allocation fits in the ring, and is freed
pending a token before the next one. -/
def Permitted (s : Session) : Call -> Prop
  | .alloc asked => asked <= s.ring.size ∧ s.handed = none
  | .freePendingToken offset _ => ∃ size, s.handed = some (offset, size)

/-- The step relation of a session on permitted calls. -/
def Performed (s : Session) (call : Call) (next : Session) : Prop :=
  s.Permitted call ∧ s.perform call = .ok next

/-- An allocation computes the end of its block without wrapping around, or
never places a block that ends behind the range. -/
def SumFits (s : Session) : Call -> Prop
  | .alloc asked => s.ring.SumFits (allocSize asked)
  | .freePendingToken _ _ => True

/-- The range of addresses of a block. -/
def address (baseOffset : Nat) (block : Block) : Nat × Nat :=
  (baseOffset + block.offset, block.size)

/-- The only block in use is the newest, and it is the allocation that the
client holds. -/
def Holds (baseOffset : Nat) (blocks : List Block) : Option (Nat × Nat) -> Prop
  | none => ∀ block ∈ blocks, block.state ≠ .inUse
  | some range =>
    ∃ older newest, blocks = older ++ [newest] ∧ (∀ block ∈ older, block.state ≠ .inUse) ∧
      newest.state = .inUse ∧ address baseOffset newest = range

/-- The blocks are laid out in the ring, the allocation held is the newest
block, and every fenced byte lies in a block pending its token. -/
structure Consistent (baseOffset size : Nat) (s : Session) : Prop where
  sameBase : s.ring.baseOffset = baseOffset
  sameSize : s.ring.size = size
  laidOut : s.ring.LaidOut
  holds : Holds baseOffset s.ring.blocks s.handed
  fenced : ∀ byte token, s.fence byte = some token ->
    ∃ block ∈ s.ring.blocks, block.state = .freePendingToken ∧
      block.token = token ∧ baseOffset + block.offset <= byte ∧
      byte < baseOffset + block.offset + block.size

theorem start_consistent (baseOffset size : Nat) :
    (start baseOffset size).Consistent baseOffset size where
  sameBase := rfl
  sameSize := rfl
  laidOut := .empty
  holds := by simp [start, init, Holds]
  fenced := by
    intro byte token isFenced
    simp [start] at isFenced

variable {s : Session}

/-- The session after an allocation that succeeds. -/
theorem perform_alloc_eq (allocated : RingBuffer.alloc s.ring asked = .ok allocation) :
    s.perform (.alloc asked) = .ok {
      ring := allocation.ring
      handed := some (allocation.offset, allocSize asked)
      fence := s.fence.lift (· ∈ allocation.waited) } := by
  rw [perform, allocated]

/-- The session after freeing the allocation that the client holds. -/
theorem perform_freePendingToken_eq {ring : Ring} (handed : s.handed = some range)
    (freed : RingBuffer.freePendingToken s.ring offset token = .ok ring) :
    s.perform (.freePendingToken offset token) = .ok {
      ring := ring
      handed := none
      fence := s.fence.close range.1 range.2 token } := by
  simp only [perform, freed, handed]

/-- A permitted allocation succeeds, keeps the session consistent, and hands
out a range of the ring that carries no fence. -/
theorem Consistent.perform_alloc (consistent : s.Consistent baseOffset size) (pos : 0 < size)
    (unsigned : size < 2 ^ 32) (addressable : baseOffset + size <= 2 ^ 32)
    (ok : s.Permitted (.alloc asked))
    (sumFits : s.SumFits (.alloc asked)) :
    ∃ next off, s.perform (.alloc asked) = .ok next ∧ next.Consistent baseOffset size ∧
      next.handed = some (off, allocSize asked) ∧ baseOffset <= off ∧
      off + allocSize asked <= baseOffset + size ∧
      ∀ byte, off <= byte -> byte < off + allocSize asked -> next.fence byte = none := by
  obtain ⟨rfl, rfl, laidOut, inv, fenced⟩ := consistent
  obtain ⟨fits, free⟩ := ok
  rw [free] at inv
  have settled : ∀ block ∈ s.ring.blocks, block.state ≠ .inUse := inv
  obtain ⟨off, ring, waited, freed, kept, padding, allocated, ringLaidOut,
    sameBase, sameSize, split, blocks, isPadding, passed⟩ :=
    alloc_spec unsigned pos laidOut settled fits sumFits
  have placed : (⟨off, allocSize asked, 0, .inUse⟩ : Block) ∈ ring.blocks := by
    rw [blocks]
    exact mem_append_right _ mem_cons_self
  have bounds := ringLaidOut.mem_bounds placed
  simp only at bounds
  have start : Unsigned.add 32 off s.ring.baseOffset = s.ring.baseOffset + off := by
    rw [Unsigned.add_of_lt (by omega), Nat.add_comm]
  rw [start] at allocated
  have stillFenced : ∀ byte token, s.fence.lift (· ∈ waited) byte = some token ->
      ∃ block ∈ kept, block.state = .freePendingToken ∧
        block.token = token ∧ s.ring.baseOffset + block.offset <= byte ∧
        byte < s.ring.baseOffset + block.offset + block.size := by
    intro byte token isFenced
    obtain ⟨wasFenced, notPassed⟩ := Fence.lift_eq_some_iff.mp isFenced
    obtain ⟨block, mem, pending, rfl, covers⟩ := fenced byte token wasFenced
    rw [split, mem_append] at mem
    rcases mem with gone | stays
    · have := passed block gone pending
      simp [this] at notPassed
    · exact ⟨block, stays, pending, rfl, covers⟩
  refine ⟨_, s.ring.baseOffset + off, perform_alloc_eq allocated,
    ⟨sameBase, sameSize, ringLaidOut, ?_, ?_⟩, rfl,
    Nat.le_add_right _ _, by omega, ?_⟩
  · refine ⟨kept ++ padding, _, blocks, ?_, rfl, rfl⟩
    intro block mem
    rcases mem_append.mp mem with inKept | inPadding
    · exact settled block (split ▸ mem_append_right _ inKept)
    · simp [isPadding block inPadding]
  · intro byte token isFenced
    obtain ⟨block, mem, backed⟩ := stillFenced byte token isFenced
    refine ⟨block, ?_, backed⟩
    rw [blocks, append_assoc]
    exact mem_append_left _ mem
  · intro byte starts inside
    by_contra isFenced
    obtain ⟨token, equal⟩ := Option.ne_none_iff_exists'.mp isFenced
    obtain ⟨block, mem, _, _, covers⟩ := stillFenced byte token equal
    have separate := ringLaidOut.pairwise
    rw [blocks, append_assoc, pairwise_append] at separate
    have apart := separate.2.2 block mem ⟨off, allocSize asked, 0, .inUse⟩
      (mem_append_right _ mem_cons_self)
    simp only [Apart, Block.range] at apart
    omega

/-- A permitted free succeeds and keeps the session consistent. -/
theorem Consistent.perform_freePendingToken
    (consistent : s.Consistent baseOffset size) (pos : 0 < size)
    (addressable : baseOffset + size <= 2 ^ 32)
    (ok : s.Permitted (.freePendingToken offset token)) :
    ∃ next, s.perform (.freePendingToken offset token) = .ok next ∧
      next.Consistent baseOffset size := by
  obtain ⟨rfl, rfl, laidOut, inv, fenced⟩ := consistent
  obtain ⟨held, equality⟩ := ok
  rw [equality] at inv
  obtain ⟨older, newest, split, settled, used, same⟩ := inv
  obtain ⟨rfl, rfl⟩ := Prod.mk.injEq .. ▸ same
  have bounds := laidOut.mem_bounds (split ▸ mem_append_right older mem_cons_self)
  have offsetFits : newest.offset < 2 ^ 32 := by omega
  have baseFits : s.ring.baseOffset < 2 ^ 32 := by omega
  have freed := freePendingToken_spec offsetFits baseFits split used token
  rw [Unsigned.add_of_lt (by omega), Nat.add_comm newest.offset] at freed
  refine ⟨_, perform_freePendingToken_eq equality freed, rfl, rfl, ?_, ?_, ?_⟩
  · refine Layout.of_map_eq laidOut ?_
    simp only [split, map_append, map_singleton, Block.range]
  · intro block mem
    rcases mem_append.mp mem with inOlder | isNewest
    · exact settled block inOlder
    · simp [mem_singleton.mp isNewest]
  · intro byte other isFenced
    rcases Fence.close_eq_some_iff.mp isFenced with
      ⟨starts, inside, same⟩ | ⟨_, wasFenced⟩
    · exact ⟨_, mem_append_right _ mem_cons_self, rfl, same, starts, inside⟩
    · obtain ⟨block, mem, pending, backed⟩ := fenced byte other wasFenced
      rw [split] at mem
      rcases mem_append.mp mem with inOlder | isNewest
      · exact ⟨block, mem_append_left _ inOlder, pending, backed⟩
      · rw [mem_singleton.mp isNewest, used] at pending
        cases pending

/-- Every permitted call whose sum fits keeps the session consistent. -/
theorem Consistent.performed {next : Session} (pos : 0 < size)
    (unsigned : size < 2 ^ 32) (addressable : baseOffset + size <= 2 ^ 32)
    (inv : s.Consistent baseOffset size)
    (performed : Guarded SumFits Performed s call next) :
    next.Consistent baseOffset size := by
  obtain ⟨sumFits, ok, performed⟩ := performed
  cases call with
  | alloc asked =>
    obtain ⟨other, off, equality, formed, _⟩ :=
      inv.perform_alloc pos unsigned addressable ok sumFits
    rw [performed] at equality
    cases equality
    exact formed
  | freePendingToken off token =>
    obtain ⟨other, equality, formed⟩ :=
      inv.perform_freePendingToken pos addressable ok
    rw [performed] at equality
    cases equality
    exact formed

/-- After every run whose sums fit, the blocks are laid out cyclically without
overlap, a permitted allocation whose sum fits succeeds inside the ring on
bytes that carry no fence, a permitted free succeeds, and the size returned by
`GetLargestFreeOrPendingSize` can be allocated. -/
theorem ringBuffer_run_safe {s : Session} (pos : 0 < size) (unsigned : size < 2 ^ 32)
    (addressable : baseOffset + size <= 2 ^ 32)
    (run : Run (Guarded SumFits Performed) (start baseOffset size) calls s) :
    (s.ring.baseOffset = baseOffset ∧ s.ring.size = size) ∧ s.ring.LaidOut ∧
      s.ring.blocks.Pairwise (fun left right => Apart left.range right.range) ∧
      (∀ asked, s.Permitted (.alloc asked) -> s.SumFits (.alloc asked) ->
        ∃ next offset, s.perform (.alloc asked) = .ok next ∧
          next.handed = some (offset, allocSize asked) ∧ baseOffset <= offset ∧
          offset + allocSize asked <= baseOffset + size ∧
          ∀ byte, offset <= byte -> byte < offset + allocSize asked -> next.fence byte = none) ∧
      (∀ offset token, s.Permitted (.freePendingToken offset token) ->
        ∃ next, s.perform (.freePendingToken offset token) = .ok next) ∧
      (s.handed = none -> ∃ next, s.perform
        (.alloc (getLargestFreeOrPendingSize s.ring)) = .ok next) := by
  have consistent : s.Consistent baseOffset size :=
    run.invariant (Consistent baseOffset size) (fun consistent performed =>
        consistent.performed pos unsigned addressable performed)
      (start_consistent baseOffset size)
  refine ⟨⟨consistent.sameBase, consistent.sameSize⟩, consistent.laidOut,
    consistent.laidOut.pairwise, ?_, ?_, ?_⟩
  · intro asked ok sumFits
    obtain ⟨next, offset, performed, _, handed⟩ :=
      consistent.perform_alloc pos unsigned addressable ok sumFits
    exact ⟨next, offset, performed, handed⟩
  · intro offset token ok
    obtain ⟨next, performed, _⟩ :=
      consistent.perform_freePendingToken pos addressable ok
    exact ⟨next, performed⟩
  · intro free
    have sumFits : s.ring.SumFits (allocSize s.ring.size) := by
      refine Or.inr fun block member between => ?_
      have bounds := consistent.laidOut.mem_bounds member
      unfold allocSize at between
      split at between <;> omega
    have ok : s.Permitted (.alloc s.ring.size) := ⟨Nat.le_refl _, free⟩
    obtain ⟨next, offset, performed, _⟩ := consistent.perform_alloc pos
      unsigned addressable ok sumFits
    exact ⟨next, performed⟩

/-- A run that wraps around behind padding and waits for its first token. -/
theorem ringBuffer_run_safe_wrapping : ∃ s, Run (Guarded SumFits Performed) (start 16 8)
        [.alloc 5, .freePendingToken 16 1, .alloc 0, .freePendingToken 21 2, .alloc 4] s ∧
      s.ring.LaidOut ∧ s.ring.blocks.map Block.range = [(5, 1), (6, 2), (0, 4)] := by
  have first : RingBuffer.alloc (init 16 8) 5 = .ok ⟨16, ⟨16, 8, 5, 0, [⟨0, 5, 0, .inUse⟩]⟩, []⟩ :=
    alloc_eq (by decide) rfl (waitForRoom_eq_self rfl (by decide))
  have second : RingBuffer.alloc ⟨16, 8, 5, 0, [⟨0, 5, 1, .freePendingToken⟩]⟩ 0 =
      .ok ⟨21, ⟨16, 8, 6, 0, [⟨0, 5, 1, .freePendingToken⟩, ⟨5, 1, 0, .inUse⟩]⟩, []⟩ :=
    alloc_eq (by decide) rfl (waitForRoom_eq_self rfl (by decide))
  have waits : waitForRoom (allocSize 4) ⟨16, 8, 6, 0,
        [⟨0, 5, 1, .freePendingToken⟩, ⟨5, 1, 2, .freePendingToken⟩]⟩ =
      .ok (⟨16, 8, 6, 5, [⟨5, 1, 2, .freePendingToken⟩]⟩, [1] ++ []) :=
    waitForRoom_eq_append rfl (by decide) rfl (waitForRoom_eq_self rfl (by decide))
  have third : RingBuffer.alloc ⟨16, 8, 6, 0,
        [⟨0, 5, 1, .freePendingToken⟩, ⟨5, 1, 2, .freePendingToken⟩]⟩ 4 =
      .ok ⟨16, ⟨16, 8, 4, 5, [⟨5, 1, 2, .freePendingToken⟩,
        ⟨6, 2, 0, .padding⟩, ⟨0, 4, 0, .inUse⟩]⟩, [1]⟩ :=
    alloc_eq (by decide) rfl waits
  have run : Run (Guarded SumFits Performed) (start 16 8)
      [.alloc 5, .freePendingToken 16 1, .alloc 0, .freePendingToken 21 2, .alloc 4] _ :=
    .cons ⟨Or.inl (by decide), ⟨by decide, rfl⟩, perform_alloc_eq first⟩
      (.cons ⟨trivial, ⟨_, rfl⟩, perform_freePendingToken_eq rfl rfl⟩
      (.cons ⟨Or.inl (by decide), ⟨by decide, rfl⟩, perform_alloc_eq second⟩
      (.cons ⟨trivial, ⟨_, rfl⟩, perform_freePendingToken_eq rfl rfl⟩
      (.cons ⟨Or.inl (by decide), ⟨by decide, rfl⟩, perform_alloc_eq third⟩ (.nil _)))))
  have safe := ringBuffer_run_safe (by decide) (by decide) (by decide) run
  exact ⟨_, run, safe.2.1, rfl⟩

/-- A run on a ring of three gigabytes after which a permitted allocation
returns a range that ends behind the ring. -/
theorem ringBuffer_alloc_escapes : ∃ s next offset, Run Performed (start 0 0xc0000000)
        [.alloc 0xa0000000, .freePendingToken 0 1, .alloc 0x10000000,
          .freePendingToken 0xa0000000 2] s ∧ s.Permitted (.alloc 0x90000000) ∧
      s.perform (.alloc 0x90000000) = .ok next ∧ next.handed = some (offset, 0x90000000) ∧
      0 + 0xc0000000 < offset + 0x90000000 := by
  have first : RingBuffer.alloc (init 0 0xc0000000) 0xa0000000 =
      .ok ⟨0, ⟨0, 0xc0000000, 0xa0000000, 0, [⟨0, 0xa0000000, 0, .inUse⟩]⟩, []⟩ :=
    (alloc_eq (by decide) rfl (waitForRoom_eq_self rfl (by decide))).trans
      (congrArg _ (by decide +kernel))
  have second : RingBuffer.alloc ⟨0, 0xc0000000, 0xa0000000, 0,
        [⟨0, 0xa0000000, 1, .freePendingToken⟩]⟩ 0x10000000 =
      .ok ⟨0xa0000000, ⟨0, 0xc0000000, 0xb0000000, 0, [⟨0, 0xa0000000, 1, .freePendingToken⟩,
          ⟨0xa0000000, 0x10000000, 0, .inUse⟩]⟩, []⟩ :=
    (alloc_eq (by decide) rfl (waitForRoom_eq_self rfl (by decide))).trans
      (congrArg _ (by decide +kernel))
  have waits : waitForRoom (allocSize 0x90000000) ⟨0, 0xc0000000, 0xb0000000,
        0, [⟨0, 0xa0000000, 1, .freePendingToken⟩,
          ⟨0xa0000000, 0x10000000, 2, .freePendingToken⟩]⟩ =
      .ok (⟨0, 0xc0000000, 0xb0000000, 0xa0000000,
        [⟨0xa0000000, 0x10000000, 2, .freePendingToken⟩]⟩, [1] ++ []) :=
    waitForRoom_eq_append rfl (by decide) rfl (waitForRoom_eq_self rfl (by decide))
  have third := alloc_eq (by decide) rfl waits
  have run : Run Performed (start 0 0xc0000000)
      [.alloc 0xa0000000, .freePendingToken 0 1, .alloc 0x10000000,
        .freePendingToken 0xa0000000 2] _ :=
    .cons ⟨⟨by decide, rfl⟩, perform_alloc_eq first⟩
      (.cons ⟨⟨_, rfl⟩, perform_freePendingToken_eq rfl rfl⟩
      (.cons ⟨⟨by decide, rfl⟩, perform_alloc_eq second⟩
      (.cons ⟨⟨_, rfl⟩, perform_freePendingToken_eq rfl rfl⟩ (.nil _))))
  exact ⟨_, _, _, run, ⟨by decide, rfl⟩, perform_alloc_eq third, rfl, by decide⟩

end Session

end Chromium.Gpu.RingBuffer
