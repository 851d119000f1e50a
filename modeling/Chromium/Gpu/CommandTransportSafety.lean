import Chromium.Gpu.CommandTransport
import Chromium.Library.WrappingQueue

/-!
# Safety of the command transport

The entries between the get offset that the client knows and its put offset
form a queue of items: commands, jumps, and at most one space that the client
has not filled yet. The offsets of the service cut the queue into the items
that were consumed, those that were sent and those that were not. Every step
moves a cut, or adds an item at the end where there is room.
-/

namespace Chromium.Gpu.Transport

open List hiding after count get range
open Library

/-- What the client puts into the ring buffer. -/
inductive Item
  | command (entries : List Nat)
  | hole (count : Nat)
  | jump

namespace Item

/-- The number of entries of an item. -/
def size : Item -> Nat
  | command entries => entries.length
  | hole count => count
  | jump => kJumpEntries

/-- Only a jump wraps around. -/
def wraps : Item -> Bool
  | jump => true
  | _ => false

/-- The entries of an item that is filled. -/
def content : Item -> Option (List Nat)
  | command entries => some entries
  | hole _ => none
  | jump => some (Transport.jump 0)

/-- The command of an item. -/
def command? : Item -> Option (List Nat)
  | command entries => some entries
  | _ => none

/-- Commands are nonempty and well formed. -/
def WellFormed : Item -> Prop
  | command entries => 0 < entries.length ∧ WellFormedCommand entries.length entries
  | _ => True

end Item

/-- The layout of items in the ring buffer. -/
def items : Layouter Item := ⟨Item.size, Item.wraps⟩

/-- The commands among items. -/
def commands (queue : List Item) : List (List Nat) := queue.filterMap Item.command?

/-- Every item is filled. -/
def Filled (queue : List Item) : Prop := ∀ item ∈ queue, item.content.isSome

/-- The memory holds the content of the items that are filled. -/
def Stored (memory : Nat -> Nat) : Nat -> List Item -> Prop
  | _, [] => True
  | first, item :: rest =>
    (∀ entries ∈ item.content, Cells.read memory first item.size = entries) ∧
      Stored memory (items.advance first item) rest

theorem stored_append_iff : Stored memory first (front ++ back) ↔ Stored memory first front ∧
        Stored memory (items.walk first front) back := by
  induction front generalizing first with
  | nil => simp [Stored]
  | cons item rest ih => simp [Stored, ih, Layouter.walk_cons, and_assoc]

/-- Writing apart from the items keeps them stored. -/
theorem Stored.write (stored : Stored memory first queue) (entries : List Nat)
    (apart : ∀ range ∈ items.ranges first queue, Apart (cell, entries.length) range) :
    Stored (Cells.write memory cell entries) first queue := by
  induction queue generalizing first with
  | nil => trivial
  | cons item rest ih =>
    obtain ⟨here, later⟩ := stored
    refine ⟨?_, ih later (forall_mem_cons.mp apart).2⟩
    intro content filled
    rw [Cells.read_write_of_apart _ _ (apart (first, item.size) mem_cons_self)]
    exact here content filled

theorem commands_append (front back : List Item) :
    commands (front ++ back) = commands front ++ commands back :=
  filterMap_append

/-- What the progress of the client says about its offsets and about the items
it has not sent. -/
def ProgressFits (config : Config) (client : Client) (parserPut : Nat)
    (unsent : List Item) : Prop :=
  match client.progress with
  | .idle | .flushingSync | .finishing => Filled unsent
  | .wrapping count | .wrappingSync count =>
    Filled unsent ∧ 0 < count ∧ count < config.usableEntryCount ∧
      config.usableEntryCount < client.put + count
  | .waiting count | .waitingSync count =>
    Filled unsent ∧ 0 < count ∧ client.put + count <= config.usableEntryCount
  | .taking count =>
    Filled unsent ∧ 0 < count ∧ client.put + count <= config.usableEntryCount ∧
      (count : Int) <= availableEntries config client
  | .filling space count =>
    ∃ front back, unsent = front ++ .hole count :: back ∧ Filled front ∧
      Filled back ∧ commands back = [] ∧ 0 < count ∧
      space = items.walk parserPut front

/-- The offsets cut the queue into consumed, sent and unsent items, which are
stored in memory, and which account for the commands that were issued and not
executed. -/
structure Flowing (config : Config) (state : State) (consumed sent unsent : List Item) : Prop where
  queued : items.Queued config.usableEntryCount state.client.get
    (consumed ++ (sent ++ unsent)) state.client.put
  parserGet : state.service.parserGet = items.walk state.client.get consumed
  getOffset : state.service.getOffset = state.service.parserGet
  parserPut : state.service.parserPut = items.walk state.service.parserGet sent
  stored : Stored state.memory state.service.parserGet (sent ++ unsent)
  wellFormed : ∀ item ∈ sent ++ unsent, item.WellFormed
  filled : Filled sent
  issued : state.issued = state.executed ++ commands (sent ++ unsent)
  unconsumed : state.unconsumed = items.ranges state.service.parserGet (sent ++ unsent)
  progress : ProgressFits config state.client state.service.parserPut unsent

/-- As long as no error is reported, the transport flows. -/
def Safe (config : Config) (state : State) : Prop :=
  state.service.error = none -> ∃ consumed sent unsent, Flowing config state consumed sent unsent

theorem start_safe (memory : Nat -> Nat) : Safe config (start memory) := by
  intro _
  exact ⟨[], [], [], {
    queued := .straight (.nil 0) (Nat.zero_le _)
    parserGet := rfl
    getOffset := rfl
    parserPut := rfl
    stored := trivial
    wellFormed := by simp
    filled := by simp [Filled]
    issued := rfl
    unconsumed := rfl
    progress := by simp [start, ProgressFits, Filled] }⟩

namespace Flowing

variable {config : Config} {state : State}
variable {consumed sent unsent : List Item}

section

variable (flowing : Flowing config state consumed sent unsent)
include flowing

/-- The items that are not consumed form a queue of their own. -/
theorem remaining : items.Queued config.usableEntryCount state.service.parserGet
      (sent ++ unsent) state.client.put := by
  rw [flowing.parserGet]
  exact flowing.queued.drop

/-- The items that were not sent lie between the put offsets of the parser and
of the client. -/
theorem put_eq : items.walk state.service.parserPut unsent = state.client.put := by
  rw [flowing.parserPut, ← Layouter.walk_append]
  exact flowing.remaining.walk_eq

/-- A range at the put offset that does not reach the get offset of the client
from below is apart from everything that is not consumed. -/
theorem apart
    (room : state.client.get <= state.client.put ∨ state.client.put + n <= state.client.get)
    (range : Nat × Nat) (pending : range ∈ state.unconsumed) :
    Apart (state.client.put, n) range := by
  apply flowing.queued.apart room
  rw [Layouter.ranges_append, ← flowing.parserGet, ← flowing.unconsumed]
  exact mem_append_right _ pending

/-- The client sends the items it has filled. -/
theorem send (healthy : state.service.error = none) (filled : Filled unsent) (progress : Progress)
    (fits : ProgressFits config { state.client with
        lastPutSent := state.client.put, progress := progress }
      state.client.put []) :
    (Transport.send config state progress).service.error = none ∧
      Flowing config (Transport.send config state progress) consumed (sent ++ unsent) [] := by
  have below := flowing.queued.last_le
  have ok : ¬config.numEntries < state.client.put := by
    have := config.fits
    unfold Config.usableEntryCount at below
    omega
  have flushed : state.service.flush config state.client.put = { state.service with
        putOffset := state.client.put, parserPut := state.client.put } :=
    if_neg ok
  unfold Transport.send
  rw [flushed]
  refine ⟨healthy, ?_⟩
  exact {
    queued := by
      rw [append_nil]
      exact flowing.queued
    parserGet := flowing.parserGet
    getOffset := flowing.getOffset
    parserPut := flowing.remaining.walk_eq.symm
    stored := by
      rw [append_nil]
      exact flowing.stored
    wellFormed := by
      rw [append_nil]
      exact flowing.wellFormed
    filled := by
      intro item mem
      rcases mem_append.mp mem with inSent | inUnsent
      · exact flowing.filled item inSent
      · exact filled item inUnsent
    issued := by
      rw [append_nil]
      exact flowing.issued
    unconsumed := by
      rw [append_nil]
      exact flowing.unconsumed
    progress := fits }

/-- The client learns how far the service is. -/
theorem synchronize (progress : Progress)
    (fits : ProgressFits config { state.client with
        get := state.service.getOffset, progress := progress }
      state.service.parserPut unsent) :
    Flowing config (Transport.synchronize state progress) [] sent unsent :=
  { queued := by
      simp only [Transport.synchronize, nil_append, flowing.getOffset]
      exact flowing.remaining
    parserGet := flowing.getOffset.symm
    getOffset := flowing.getOffset
    parserPut := flowing.parserPut
    stored := flowing.stored
    wellFormed := flowing.wellFormed
    filled := flowing.filled
    issued := flowing.issued
    unconsumed := flowing.unconsumed
    progress := fits }

/-- The client adds items at its put offset. -/
theorem extend {next : State} (sameService : next.service = state.service)
    (sameGet : next.client.get = state.client.get) (sameIssued : next.issued = state.issued)
    (sameExecuted : next.executed = state.executed)
    (queued : items.Queued config.usableEntryCount state.client.get
      ((consumed ++ (sent ++ unsent)) ++ fresh) next.client.put)
    (kept : Stored next.memory state.service.parserGet (sent ++ unsent))
    (added : Stored next.memory state.client.put fresh)
    (wellFormed : ∀ item ∈ fresh, item.WellFormed) (noCommand : commands fresh = [])
    (unconsumed : next.unconsumed = state.unconsumed ++ items.ranges state.client.put fresh)
    (fits : ProgressFits config next.client state.service.parserPut (unsent ++ fresh)) :
    Flowing config next consumed sent (unsent ++ fresh) := by
  have ends := flowing.remaining.walk_eq
  exact {
    queued := by
      rw [sameGet, ← append_assoc sent, ← append_assoc consumed]
      exact queued
    parserGet := by
      rw [sameService, sameGet]
      exact flowing.parserGet
    getOffset := by
      rw [sameService]
      exact flowing.getOffset
    parserPut := by
      rw [sameService]
      exact flowing.parserPut
    stored := by
      rw [sameService, ← append_assoc, stored_append_iff, ends]
      exact ⟨kept, added⟩
    wellFormed := by
      intro item mem
      rw [← append_assoc] at mem
      rcases mem_append.mp mem with old | new
      · exact flowing.wellFormed item old
      · exact wellFormed item new
    filled := flowing.filled
    issued := by
      rw [sameIssued, sameExecuted, flowing.issued, ← append_assoc sent,
        commands_append (sent ++ unsent), noCommand, append_nil]
    unconsumed := by
      rw [unconsumed, sameService, flowing.unconsumed,
        ← append_assoc sent, Layouter.ranges_append (sent ++ unsent),
        ends]
    progress := by
      rw [sameService]
      exact fits }

end

theorem filled_append (frontFilled : Filled front) (backFilled : Filled back) :
    Filled (front ++ back) := by
  intro item mem
  rcases mem_append.mp mem with inFront | inBack
  · exact frontFilled item inFront
  · exact backFilled item inBack

/-- A jump that was written is stored. -/
theorem stored_jump (memory : Nat -> Nat) :
    Stored (Cells.write memory cell (jump 0)) cell [.jump] := by
  refine ⟨?_, trivial⟩
  intro entries filled
  cases filled
  exact Cells.read_write memory

section

variable (flowing : Flowing config state consumed sent unsent)
include flowing

/-- The client jumps back to the beginning. -/
theorem insertJump (wrapping : state.client.progress = .wrapping count)
    (mayWrap : blocksWrap state.client = false) :
    Flowing config (Transport.insertJump config state count) consumed sent (unsent ++ [.jump]) := by
  have fits := flowing.progress
  rw [ProgressFits, wrapping] at fits
  obtain ⟨filled, pos, small, exceeds⟩ := fits
  have bounds : state.client.get <= state.client.put ∧ 0 < state.client.get := by
    simp only [blocksWrap, decide_eq_false_iff_not] at mayWrap
    omega
  obtain ⟨straight, below⟩ := flowing.queued.straight_of_le bounds.1
  have took : taken config state.client = [(state.client.put, kJumpEntries)] := by
    rw [taken, wrapping]
    simp only [mayWrap]
    rfl
  refine flowing.extend rfl rfl rfl rfl ?_ ?_ ?_ ?_ rfl ?_ ?_
  · exact Layouter.Queued.turn straight rfl (by omega) bounds.2
  · apply flowing.stored.write
    intro range mem
    rw [← flowing.unconsumed] at mem
    exact flowing.apart (Or.inl bounds.1) range mem
  · exact stored_jump _
  · intro item mem
    rw [mem_singleton.mp mem]
    trivial
  · rw [Transport.insertJump, took]
    rfl
  · refine ⟨filled_append filled (by simp [Filled, Item.content]), pos, ?_⟩
    simp only [Transport.insertJump]
    omega

/-- The get offset that the client knows never lies behind the last jump. -/
theorem get_le : state.client.get <= config.usableEntryCount := by
  have queued := flowing.queued
  generalize consumed ++ (sent ++ unsent) = queue at queued
  cases queued with
  | straight straight below =>
    have := straight.le
    omega
  | wrapped high fits turns low before =>
    have := high.le
    omega

/-- The available entries leave one entry free in front of the get offset. -/
theorem room (pos : 0 < n) (fits : state.client.put + n <= config.usableEntryCount)
    (available : (n : Int) <= availableEntries config state.client) :
    (state.client.get <= state.client.put ∧
        (state.client.put + n = config.usableEntryCount -> 0 < state.client.get)) ∨
      state.client.put + n < state.client.get := by
  have below := flowing.get_le
  unfold availableEntries at available
  rcases Nat.lt_or_ge state.client.put state.client.get with
    behind | ahead
  · have gap : ((state.client.get : Int) - state.client.put - 1 +
        config.usableEntryCount).tmod config.usableEntryCount =
          (state.client.get : Int) - state.client.put - 1 := by
      rw [Int.tmod_eq_emod_of_nonneg (by omega), Int.add_emod_right,
        Int.emod_eq_of_lt (by omega) (by omega)]
    exact Or.inr (by omega)
  · have gap : ((state.client.get : Int) - state.client.put - 1 +
        config.usableEntryCount).tmod config.usableEntryCount =
          (state.client.get : Int) - state.client.put - 1 + config.usableEntryCount := by
      rw [Int.tmod_eq_emod_of_nonneg (by omega), Int.emod_eq_of_lt (by omega) (by omega)]
    exact Or.inl ⟨ahead, by omega⟩

/-- What the client takes over is apart from everything that is not
consumed. -/
theorem taken_apart (range : Nat × Nat)
    (takes : range ∈ taken config state.client) (pending : Nat × Nat)
    (notConsumed : pending ∈ state.unconsumed) :
    Apart range pending := by
  have fits := flowing.progress
  unfold taken at takes
  unfold ProgressFits at fits
  split at takes
  · rename_i count wrapping
    split at takes
    · cases takes
    · rename_i mayWrap
      rw [mem_singleton.mp takes]
      apply flowing.apart (Or.inl ?_) pending notConsumed
      simp only [blocksWrap, decide_eq_true_eq] at mayWrap
      omega
  · rename_i count taking
    rw [taking] at fits
    obtain ⟨filled, pos, bound, available⟩ := fits
    have room := flowing.room pos bound available
    rcases mem_cons.mp takes with rfl | turn
    · apply flowing.apart ?_ pending notConsumed
      omega
    · split at turn
      · rename_i full
        rw [mem_singleton.mp turn]
        have ahead : state.client.get <= state.client.put := by
          have := flowing.get_le
          omega
        obtain ⟨straight, _⟩ := flowing.queued.straight_of_le ahead
        rw [flowing.unconsumed] at notConsumed
        have inQueue : pending ∈ items.ranges state.client.get (consumed ++ (sent ++ unsent)) := by
          rw [Layouter.ranges_append, ← flowing.parserGet]
          exact mem_append_right _ notConsumed
        have := (straight.mem_ranges inQueue).2
        exact Or.inr (by dsimp only; omega)
      · cases turn
  · cases takes

/-- The client takes the space it waited for. -/
theorem takeSpace (taking : state.client.progress = .taking n) :
    ∃ unsent, Flowing config (Transport.takeSpace config state n) consumed sent unsent := by
  have fits := flowing.progress
  rw [ProgressFits, taking] at fits
  obtain ⟨filled, pos, bound, available⟩ := fits
  have room := flowing.room pos bound available
  by_cases full : state.client.put + n = config.usableEntryCount
  · have took : taken config state.client = [(state.client.put, n),
        (state.client.put + n, kJumpEntries)] := by
      simp only [taken, taking, if_pos full]
    have ahead : state.client.get <= state.client.put ∧ 0 < state.client.get := by
      have := flowing.get_le
      omega
    obtain ⟨straight, _⟩ := flowing.queued.straight_of_le ahead.1
    have extended : items.Straight state.client.get (consumed ++ (sent ++ unsent) ++ [.hole n])
        (state.client.put + n) := straight.concat rfl
    have turned : items.Queued config.usableEntryCount state.client.get
        (consumed ++ (sent ++ unsent) ++ [.hole n] ++ [.jump]) 0 :=
      Layouter.Queued.turn extended rfl bound ahead.2
    rw [append_assoc (consumed ++ (sent ++ unsent))] at turned
    refine ⟨unsent ++ [.hole n, .jump], ?_⟩
    refine flowing.extend rfl rfl rfl rfl ?_ ?_ ?_ ?_ rfl ?_ ?_
    · simp only [Transport.takeSpace, if_pos full]
      exact turned
    · simp only [Transport.takeSpace, if_pos full]
      apply flowing.stored.write
      intro range mem
      rw [← flowing.unconsumed] at mem
      apply flowing.taken_apart _ _ range mem
      rw [took]
      exact mem_cons_of_mem _ mem_cons_self
    · simp only [Transport.takeSpace, if_pos full]
      exact ⟨by simp [Item.content], stored_jump _⟩
    · intro item mem
      rcases mem_pair.mp mem with rfl | rfl <;> trivial
    · rw [Transport.takeSpace, took]
      rfl
    · exact ⟨unsent, [.jump], rfl, filled, by simp [Filled, Item.content], rfl,
        pos, flowing.put_eq.symm⟩
  · have took : taken config state.client = [(state.client.put, n)] := by
      simp only [taken, taking, if_neg full]
    have added : (state.client.get <= state.client.put ∧
        state.client.put + items.size (.hole n) < config.usableEntryCount) ∨
        state.client.put + items.size (.hole n) < state.client.get := by
      change (_ ∧ state.client.put + n < _) ∨ state.client.put + n < _
      omega
    refine ⟨unsent ++ [.hole n], ?_⟩
    refine flowing.extend rfl rfl rfl rfl ?_ ?_ ?_ ?_ rfl ?_ ?_
    · simp only [Transport.takeSpace, if_neg full]
      exact flowing.queued.push rfl added
    · simp only [Transport.takeSpace, if_neg full]
      exact flowing.stored
    · exact ⟨by simp [Item.content], trivial⟩
    · intro item mem
      rw [mem_singleton.mp mem]
      trivial
    · rw [Transport.takeSpace, took]
      rfl
    · exact ⟨unsent, [], rfl, filled, by simp [Filled], rfl, pos, flowing.put_eq.symm⟩

/-- The client fills the space it got with a command. -/
theorem fill (filling : state.client.progress = .filling space n)
    (wellFormed : WellFormedCommand n entries) :
    ∃ unsent, Flowing config { state with
      client := { state.client with progress := .idle }
      memory := Cells.write state.memory space entries
      issued := state.issued ++ [entries] } consumed sent unsent := by
  have fits := flowing.progress
  rw [ProgressFits, filling] at fits
  obtain ⟨front, back, rfl, frontFilled, backFilled, noCommand, pos, atSpace⟩ := fits
  have len := wellFormed.1
  have similar : ∀ before : List Item, items.Similar
      (before ++ .command entries :: back) (before ++ .hole n :: back) :=
    fun before => Layouter.Similar.replace before back len rfl
  have ends : items.walk state.service.parserGet (sent ++ front) = space := by
    rw [Layouter.walk_append, ← flowing.parserPut, atSpace]
  have behind : items.advance space (.command entries) = items.advance space (.hole n) := by
    change space + entries.length = space + n
    rw [len]
  have separate := flowing.remaining.pairwise
  have stored := flowing.stored
  rw [← append_assoc, Layouter.ranges_append, ends, pairwise_append] at separate
  rw [← append_assoc, stored_append_iff, ends] at stored
  obtain ⟨_, afterSpace, beforeSpace⟩ := separate
  rw [Layouter.ranges, pairwise_cons] at afterSpace
  refine ⟨front ++ .command entries :: back, ?_⟩
  exact {
    queued := by
      have moved := similar (consumed ++ (sent ++ front))
      simp only [append_assoc] at moved
      exact flowing.queued.of_similar moved
    parserGet := flowing.parserGet
    getOffset := flowing.getOffset
    parserPut := flowing.parserPut
    stored := by
      rw [← append_assoc, stored_append_iff, ends]
      refine ⟨stored.1.write _ ?_, ?_, ?_⟩
      · intro range mem
        rw [len]
        exact (beforeSpace range mem (space, n) mem_cons_self).symm
      · intro content filled
        cases filled
        exact Cells.read_write _
      · rw [behind]
        apply stored.2.2.write
        intro range mem
        rw [len]
        exact afterSpace.1 range mem
    wellFormed := by
      intro item mem
      rw [← append_assoc, mem_append, mem_cons] at mem
      have old := flowing.wellFormed item
      rw [← append_assoc, mem_append, mem_cons] at old
      rcases mem with before | rfl | after
      · exact old (Or.inl before)
      · exact ⟨len ▸ pos, len ▸ wellFormed⟩
      · exact old (Or.inr (Or.inr after))
    filled := flowing.filled
    issued := by
      have issued := flowing.issued
      simp only [commands_append] at issued ⊢
      have holeCommands : commands (.hole n :: back) = [] := noCommand
      have filledCommands : commands (.command entries :: back) =
          [entries] := congrArg (entries :: ·) noCommand
      rw [holeCommands, append_nil] at issued
      rw [issued, filledCommands]
      simp
    unconsumed := by
      have moved := similar (sent ++ front)
      simp only [append_assoc] at moved
      rw [moved.ranges_eq]
      exact flowing.unconsumed
    progress := by
      apply filled_append frontFilled
      intro item mem
      rcases mem_cons.mp mem with rfl | after
      · rfl
      · exact backFilled item after }

end

/-- The service consumes the first item that was sent. -/
theorem consume (flowing : Flowing config state consumed (item :: sent) unsent)
    (accounts : executed = state.executed ++ commands [item]) :
    Flowing config { state with
      service := state.service.setGet (items.advance state.service.parserGet item)
      executed := executed
      unconsumed := state.unconsumed.erase (state.service.parserGet, item.size) }
      (consumed ++ [item]) sent unsent := by
  exact {
    queued := by
      rw [append_assoc]
      exact flowing.queued
    parserGet := by
      rw [Layouter.walk_append, ← flowing.parserGet]
      rfl
    getOffset := rfl
    parserPut := flowing.parserPut
    stored := flowing.stored.2
    wellFormed := (forall_mem_cons.mp flowing.wellFormed).2
    filled := (forall_mem_cons.mp flowing.filled).2
    issued := by
      rw [flowing.issued, accounts, cons_append, ← singleton_append, commands_append, append_assoc]
    unconsumed := by
      rw [flowing.unconsumed, cons_append, Layouter.ranges]
      exact erase_cons_head _ _
    progress := flowing.progress }

/-- The parser follows a jump to the beginning. -/
theorem processCommand_jump
    (read : Cells.read state.memory state.service.parserGet kJumpEntries = jump 0)
    (behindStart : 0 < state.service.parserGet)
    (inside : kJumpEntries + state.service.parserGet <= config.numEntries) :
    Transport.processCommand config state outcome = { state with
      service := state.service.setGet 0
      unconsumed := state.unconsumed.erase (state.service.parserGet, kJumpEntries) } := by
  rw [kJumpEntries, Cells.read_succ, Cells.read_succ, jump, List.cons.injEq,
    List.cons.injEq] at read
  obtain ⟨header, off, _⟩ := read
  have size : headerSize (kJump * 2 ^ 21 + kJumpEntries) = kJumpEntries := rfl
  have command : headerCommand (kJump * 2 ^ 21 + kJumpEntries) = kJump := rfl
  have nonzero : kJumpEntries ≠ 0 := by decide
  have moved : getBehind config state.service.parserGet kJumpEntries 0 = 0 :=
    if_neg (Nat.ne_of_gt behindStart)
  have ok : ¬(kJumpEntries ≠ kJumpEntries ∨ ¬0 < config.numEntries) := by omega
  simp only [Transport.processCommand, header, off, size, command,
    if_neg nonzero, if_neg (Nat.not_lt.mpr inside), if_true,
    if_neg ok, moved]

/-- The parser leaves a command that does not jump to the handler. -/
theorem processCommand_command {size : Nat}
    (header : headerSize (state.memory state.service.parserGet) = size)
    (command : ¬SetsGet (headerCommand (state.memory state.service.parserGet)))
    (pos : 0 < size)
    (lt : state.service.parserGet + size < config.numEntries) :
    Transport.processCommand config state .waiting = state ∧
      Transport.processCommand config state (.done none) = { state with
        service := state.service.setGet (state.service.parserGet + size)
        executed := state.executed ++ [Cells.read state.memory state.service.parserGet size]
        unconsumed := state.unconsumed.erase (state.service.parserGet, size) } ∧
      (Transport.processCommand config state .failed).service.error = some .handler := by
  have nonzero : size ≠ 0 := Nat.ne_of_gt pos
  have fits : ¬config.numEntries < size + state.service.parserGet := by omega
  have notJump : headerCommand (state.memory state.service.parserGet) ≠
      kJump := fun isJump => command (Or.inl isJump)
  have moved : getBehind config state.service.parserGet size
      state.service.parserGet = state.service.parserGet + size := by
    rw [getBehind, if_pos rfl, Nat.mod_eq_of_lt lt]
  refine ⟨?_, ?_, ?_⟩
  · simp only [Transport.processCommand, header, if_neg nonzero, if_neg fits, if_neg notJump]
  · simp only [Transport.processCommand, header, if_neg nonzero, if_neg fits,
      if_neg notJump, Option.getD_none, moved]
  · simp only [Transport.processCommand, header, if_neg nonzero, if_neg fits, if_neg notJump]

/-- The service processes a command that it was sent. -/
theorem processCommand (flowing : Flowing config state consumed sent unsent)
    (healthy : state.service.error = none)
    (notEmpty : state.service.parserGet ≠ state.service.parserPut)
    (restricted : ∀ get, outcome = .done (some get) ->
      SetsGet (headerCommand (state.memory state.service.parserGet))) :
    ((Transport.processCommand config state outcome).service.error = none ∧
      ∃ consumed sent, Flowing config
        (Transport.processCommand config state outcome) consumed sent unsent) ∨ (outcome = .failed ∧
        (Transport.processCommand config state outcome).service.error ≠ none) := by
  cases sent with
  | nil => exact absurd flowing.parserPut.symm notEmpty
  | cons item rest =>
    have head := flowing.remaining.head
    have here := flowing.stored.1
    have wf := flowing.wellFormed item mem_cons_self
    have inside := config.fits
    unfold Config.usableEntryCount at head
    cases item with
    | hole n =>
      have filled := flowing.filled (.hole n) mem_cons_self
      cases filled
    | jump =>
      obtain ⟨noWrap, _⟩ | ⟨_, behindStart, bound⟩ := head
      · cases noWrap
      · left
        rw [processCommand_jump (here _ rfl) behindStart (by omega)]
        refine ⟨healthy, consumed ++ [.jump], rest, ?_⟩
        exact flowing.consume (append_nil _).symm
    | command entries =>
      obtain ⟨_, bound⟩ | ⟨turns, _⟩ := head
      · obtain ⟨pos, _, header, command⟩ := wf
        have stored : Cells.read state.memory state.service.parserGet
            entries.length = entries := here _ rfl
        have first : entries.getD 0 0 = state.memory state.service.parserGet := by
          obtain ⟨n, len⟩ := Nat.exists_eq_succ_of_ne_zero (Nat.ne_of_gt pos)
          rw [len, Cells.read_succ] at stored
          rw [← stored]
          rfl
        rw [first] at header command
        have room : state.service.parserGet + entries.length < config.numEntries := by
          change state.service.parserGet + entries.length <= _ at bound
          unfold kJumpEntries at bound
          omega
        obtain ⟨whenWaiting, whenDone, whenFailed⟩ :=
          processCommand_command header command pos room
        cases outcome with
        | waiting =>
          rw [whenWaiting]
          exact Or.inl ⟨healthy, consumed, _, flowing⟩
        | done getSet =>
          cases getSet with
          | some get => exact absurd (restricted get rfl) command
          | none =>
            rw [whenDone, stored]
            refine Or.inl ⟨healthy, consumed ++ [Item.command entries], rest, ?_⟩
            exact flowing.consume rfl
        | failed => exact Or.inr ⟨rfl, by rw [whenFailed]; simp⟩
      · cases turns

/-- The next step of the client inside a call. -/
theorem continueCall {next : State} (flowing : Flowing config state consumed sent unsent)
    (healthy : state.service.error = none)
    (continued : Transport.continueCall config state = some next) :
    next.service.error = none ∧
      ∃ consumed sent unsent, Flowing config next consumed sent unsent := by
  have fits := flowing.progress
  unfold ProgressFits at fits
  unfold Transport.continueCall at continued
  split at continued
  · cases continued
  · cases continued
  · rename_i count wrapping
    rw [wrapping] at fits
    split at continued
    · cases continued
      obtain ⟨stillHealthy, sentAll⟩ := flowing.send healthy fits.1
        (.wrappingSync count) ⟨by simp [Filled], fits.2⟩
      exact ⟨stillHealthy, _, _, _, sentAll⟩
    · rename_i mayWrap
      cases continued
      exact ⟨healthy, _, _, _, flowing.insertJump wrapping (by simpa using mayWrap)⟩
  · rename_i count wrapping
    rw [wrapping] at fits
    rw [if_pos healthy] at continued
    cases continued
    exact ⟨healthy, _, _, _, flowing.synchronize (.wrapping count) fits⟩
  · rename_i count waiting
    rw [waiting] at fits
    split at continued
    · cases continued
      obtain ⟨stillHealthy, sentAll⟩ := flowing.send healthy fits.1
        (.waitingSync count) ⟨by simp [Filled], fits.2⟩
      exact ⟨stillHealthy, _, _, _, sentAll⟩
    · rename_i enough
      have available := Int.not_lt.mp enough
      split at continued
      · cases continued
        obtain ⟨stillHealthy, sentAll⟩ := flowing.send healthy fits.1
          (.taking count) ⟨by simp [Filled], fits.2.1, fits.2.2, available⟩
        exact ⟨stillHealthy, _, _, _, sentAll⟩
      · cases continued
        exact ⟨healthy, consumed, sent, unsent, { flowing with
          progress := ⟨fits.1, fits.2.1, fits.2.2, available⟩ }⟩
  · rename_i count waiting
    rw [waiting] at fits
    rw [if_pos healthy] at continued
    cases continued
    exact ⟨healthy, _, _, _, flowing.synchronize (.waiting count) fits⟩
  · rename_i count taking
    cases continued
    obtain ⟨taken, takenFlows⟩ := flowing.takeSpace taking
    exact ⟨healthy, _, _, _, takenFlows⟩
  · rename_i flushing
    rw [flushing] at fits
    cases continued
    exact ⟨healthy, _, _, _, flowing.synchronize .idle fits⟩
  · rename_i finishing
    rw [finishing] at fits
    have synchronized := flowing.synchronize .idle fits
    dsimp only at continued
    split at continued
    · cases continued
      obtain ⟨stillHealthy, sentAll⟩ := synchronized.send healthy fits
        .finishing (by simp [ProgressFits, Filled])
      exact ⟨stillHealthy, _, _, _, sentAll⟩
    · cases continued
      exact ⟨healthy, _, _, _, synchronized⟩

end Flowing

variable {config : Config} {label : Label} {state next : State}

/-- A step from a state without error keeps the transport flowing, unless the
handler fails. -/
theorem Flowing.step {consumed sent unsent : List Item}
    (flowing : Flowing config state consumed sent unsent) (healthy : state.service.error = none)
    (step : Step config state label next) :
    (next.service.error = none ∧ ∃ consumed sent unsent, Flowing config next consumed sent unsent) ∨
      (label = .process .failed ∧ next.service.error ≠ none) := by
  have fits := flowing.progress
  unfold ProgressFits at fits
  cases step with
  | @getSpace count idle pos small =>
    rw [idle] at fits
    refine Or.inl ⟨healthy, consumed, sent, unsent, { flowing with
      progress := ?_ }⟩
    split
    · rename_i exceeds
      exact ⟨fits, pos, small, exceeds⟩
    · rename_i room
      exact ⟨fits, pos, Nat.not_lt.mp room⟩
  | flush idle =>
    rw [idle] at fits
    obtain ⟨stillHealthy, sentAll⟩ := flowing.send healthy fits .idle
      (by simp [ProgressFits, Filled])
    exact Or.inl ⟨stillHealthy, _, _, _, sentAll⟩
  | flushSync idle =>
    rw [idle] at fits
    obtain ⟨stillHealthy, sentAll⟩ := flowing.send healthy fits .flushingSync
      (by simp [ProgressFits, Filled])
    exact Or.inl ⟨stillHealthy, _, _, _, sentAll⟩
  | finish idle =>
    rw [idle] at fits
    obtain ⟨stillHealthy, sentAll⟩ := flowing.send healthy fits .finishing
      (by simp [ProgressFits, Filled])
    exact Or.inl ⟨stillHealthy, _, _, _, sentAll⟩
  | continueCall continued => exact Or.inl (flowing.continueCall healthy continued)
  | fill filling wellFormed =>
    obtain ⟨filled, filledFlows⟩ := flowing.fill filling wellFormed
    exact Or.inl ⟨healthy, _, _, _, filledFlows⟩
  | process _ notEmpty restricted =>
    rcases flowing.processCommand healthy notEmpty restricted with
      ⟨stillHealthy, processed, rest, processedFlows⟩ | ⟨rfl, failed⟩
    · exact Or.inl ⟨stillHealthy, _, _, _, processedFlows⟩
    · exact Or.inr ⟨rfl, failed⟩

/-- Sending never takes an error back. -/
theorem send_error (failed : state.service.error ≠ none) :
    (send config state progress).service.error ≠ none := by
  simp only [send, Service.flush]
  split
  · simp
  · exact failed

theorem Step.error_persists (step : Step config state label next)
    (failed : state.service.error ≠ none) :
    next.service.error ≠ none := by
  cases step with
  | getSpace => exact failed
  | flush => exact send_error failed
  | flushSync => exact send_error failed
  | finish => exact send_error failed
  | continueCall continued =>
    unfold Transport.continueCall at continued
    split at continued
    · cases continued
    · cases continued
    · split at continued
      · cases continued
        exact send_error failed
      · cases continued
        exact failed
    · cases continued
      exact failed
    · split at continued
      · cases continued
        exact send_error failed
      · split at continued
        · cases continued
          exact send_error failed
        · cases continued
          exact failed
    · cases continued
      exact failed
    · cases continued
      exact failed
    · cases continued
      exact failed
    · dsimp only at continued
      rw [if_neg fun healthy => failed healthy.1] at continued
      cases continued
      exact failed
  | fill => exact failed
  | process healthy => exact absurd healthy failed

/-- Every step keeps the transport safe. -/
theorem Safe.step (safe : Safe config state) (step : Step config state label next) :
    Safe config next := by
  intro stillHealthy
  have healthy : state.service.error = none := by
    by_contra failed
    exact step.error_persists failed stillHealthy
  obtain ⟨consumed, sent, unsent, flowing⟩ := safe healthy
  rcases flowing.step healthy step with ⟨_, flows⟩ | ⟨_, failed⟩
  · exact flows
  · exact absurd stillHealthy failed

/-- In every run, as long as no error is reported: the commands executed are a
prefix of the commands issued; the put offset of the client stays among the
usable entries; what the client takes over is apart from everything that the
service has not consumed; and only a failing handler reports an error. -/
theorem transport_run_safe
    {config : Config} {memory : Nat -> Nat} {labels : List Label} {state : State}
    (run : Run (Step config) (start memory) labels state) (healthy : state.service.error = none) :
    state.executed <+: state.issued ∧ (0 < config.usableEntryCount ->
        state.client.put < config.usableEntryCount) ∧
      (∀ range ∈ taken config state.client, ∀ pending ∈ state.unconsumed, Apart range pending) ∧
      ∀ label next, Step config state label next ->
        next.service.error ≠ none -> label = .process .failed := by
  have safe : Safe config state :=
    run.invariant (Safe config) (fun safe step => safe.step step) (start_safe memory)
  obtain ⟨consumed, sent, unsent, flowing⟩ := safe healthy
  refine ⟨⟨_, flowing.issued.symm⟩, ?_, flowing.taken_apart, ?_⟩
  · intro pos
    have := flowing.queued.last_le
    omega
  · intro label next step failed
    rcases flowing.step healthy step with ⟨stillHealthy, _⟩ | ⟨isFailed, _⟩
    · exact absurd stillHealthy failed
    · exact isFailed

/-- A run on six entries in which the client wraps around behind a command that
the service has executed. -/
theorem transport_run_safe_wrapping : ∃ state, Run (Step ⟨8, 6, by decide⟩) (start fun _ => 0)
        [.getSpace 3, .continueCall, .continueCall,
          .fill [300 * 2 ^ 21 + 3, 7, 8], .flush, .process (.done none),
          .getSpace 3, .continueCall, .continueCall, .continueCall,
          .continueCall, .process .waiting, .continueCall, .continueCall,
          .continueCall, .fill [301 * 2 ^ 21 + 3, 9, 10]] state ∧
      state.executed = [[300 * 2 ^ 21 + 3, 7, 8]] ∧
      state.executed <+: state.issued ∧ state.client.put < 4 := by
  have command : WellFormedCommand 3 [300 * 2 ^ 21 + 3, 7, 8] := by refine ⟨rfl, rfl, by decide⟩
  have other : WellFormedCommand 3 [301 * 2 ^ 21 + 3, 9, 10] := by refine ⟨rfl, rfl, by decide⟩
  have run : Run (Step ⟨8, 6, by decide⟩) (start fun _ => 0)
      [.getSpace 3, .continueCall, .continueCall,
        .fill [300 * 2 ^ 21 + 3, 7, 8], .flush, .process (.done none),
        .getSpace 3, .continueCall, .continueCall, .continueCall,
        .continueCall, .process .waiting, .continueCall, .continueCall,
        .continueCall, .fill [301 * 2 ^ 21 + 3, 9, 10]] _ :=
    .cons (.getSpace rfl (by decide) (by decide)) <|
    .cons (.continueCall rfl) <| .cons (.continueCall rfl) <|
    .cons (.fill rfl command) <| .cons (.flush rfl) <|
    .cons (.process rfl (by decide) (by simp)) <|
    .cons (.getSpace rfl (by decide) (by decide)) <|
    .cons (.continueCall rfl) <| .cons (.continueCall rfl) <|
    .cons (.continueCall rfl) <| .cons (.continueCall rfl) <|
    .cons (.process rfl (by decide) (by simp)) <|
    .cons (.continueCall rfl) <| .cons (.continueCall rfl) <|
    .cons (.continueCall rfl) <| .cons (.fill rfl other) (.nil _)
  have safe := transport_run_safe run rfl
  exact ⟨_, run, rfl, safe.1, safe.2.1 (by decide)⟩

/-- When `Finish` returns without an error, every command was executed, and every entry is free. -/
theorem transport_run_finishes {memory : Nat -> Nat} {labels : List Label}
    (run : Run (Step config) (start memory) labels state) (healthy : state.service.error = none)
    (finishing : state.client.progress = .finishing)
    (continued : continueCall config state = some next) (returns : next.client.progress = .idle) :
    next.executed = next.issued ∧ next.unconsumed = [] := by
  have safe : Safe config state :=
    run.invariant (Safe config) (fun safe step => safe.step step) (start_safe memory)
  obtain ⟨consumed, sent, unsent, flowing⟩ := safe healthy
  have filled := flowing.progress
  rw [ProgressFits, finishing] at filled
  simp only [continueCall, finishing, healthy, true_and] at continued
  split at continued
  · cases continued
    cases returns
  · rename_i caughtUp
    cases continued
    have same : state.client.put = state.service.parserGet := by
      rw [← flowing.getOffset]
      exact not_not.mp caughtUp
    obtain ⟨straight, -⟩ := flowing.remaining.straight_of_le (Nat.le_of_eq same.symm)
    have isFilled := Flowing.filled_append flowing.filled filled
    have nothing : sent ++ unsent = [] := by
      match queue : sent ++ unsent with
      | [] => rfl
      | item :: rest =>
        have wf := flowing.wellFormed
        rw [queue] at straight isFilled wf
        obtain ⟨noWrap, later⟩ := Layouter.Straight.cons_iff.mp straight
        have bound := later.le
        cases item with
        | hole count => cases isFilled _ mem_cons_self
        | jump => cases noWrap
        | command entries =>
          have pos := (wf _ mem_cons_self).1
          change _ + entries.length <= _ at bound
          omega
    have issued := flowing.issued
    have unconsumed := flowing.unconsumed
    rw [nothing] at issued unconsumed
    exact ⟨(issued.trans (append_nil _)).symm, unconsumed⟩

theorem transport_run_finishes_one : ∃ s next, Run (Step ⟨8, 6, by decide⟩) (start fun _ => 0)
      [.getSpace 2, .continueCall, .continueCall, .fill [300 * 2 ^ 21 + 2, 7], .finish,
        .process (.done none)] s ∧
      continueCall ⟨8, 6, by decide⟩ s = some next ∧ next.executed = next.issued := by
  have run : Run (Step ⟨8, 6, by decide⟩) (start fun _ => 0) [.getSpace 2, .continueCall,
      .continueCall, .fill [300 * 2 ^ 21 + 2, 7], .finish, .process (.done none)] _ :=
    .cons (.getSpace rfl (by decide) (by decide)) <| .cons (.continueCall rfl) <|
    .cons (.continueCall rfl) <| .cons (.fill rfl ⟨rfl, rfl, by decide⟩) <|
    .cons (.finish rfl) <| .cons (.process rfl (by decide) (by simp)) (.nil _)
  exact ⟨_, _, run, rfl, (transport_run_finishes run rfl rfl rfl rfl).1⟩

end Chromium.Gpu.Transport
