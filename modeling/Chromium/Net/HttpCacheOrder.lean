import Chromium.Net.HttpCache

/-!
# The order in which a cache entry is granted

A transaction that comes while others wait is let in before them only as a
reader that finds a writer waiting for other readers.
-/

namespace Chromium.Net.HttpCache

open List Option Library
open Transaction (Mode)

namespace EntryLock

variable {τ : Type} {lock : EntryLock τ} {trans_ : τ} {mode : Mode}

@[simp] theorem pending_queue_processPendingQueue :
    lock.processPendingQueue.entry.pending_queue = lock.entry.pending_queue := by
  unfold processPendingQueue
  split <;> rfl

/-- The reasons for which a transaction has to wait. -/
def Busy (lock : EntryLock τ) (mode : Mode) : Prop :=
  lock.entry.writer.isSome = true ∨ lock.entry.will_process_pending_queue = true ∨
    mode.writes = true ∧ lock.entry.readers ≠ []

theorem addTransactionToEntry_of_busy (busy : lock.Busy mode) :
    (addTransactionToEntry trans_ mode lock).1.entry.pending_queue =
      lock.entry.pending_queue ++ [trans_] := by
  unfold addTransactionToEntry
  by_cases taken : (lock.entry.writer.isSome || lock.entry.will_process_pending_queue) = true
  · simp only [if_pos taken]
  · simp only [if_neg taken]
    rw [Bool.or_eq_true, not_or] at taken
    obtain ⟨writes, reads⟩ := (busy.resolve_left taken.1).resolve_left taken.2
    rw [if_pos writes, if_neg (mt List.isEmpty_iff.mp reads)]

/-- A transaction that has no reason to wait is let in. -/
theorem addTransactionToEntry_of_not_busy (free : ¬ lock.Busy mode) :
    (addTransactionToEntry trans_ mode lock).1.entry.pending_queue = lock.entry.pending_queue ∧
      trans_ ∈ (addTransactionToEntry trans_ mode lock).1.entry.writer.toList ++
        (addTransactionToEntry trans_ mode lock).1.entry.readers := by
  simp only [Busy, not_or, not_and, not_not, Bool.not_eq_true] at free
  obtain ⟨unwritten, unposted, reads⟩ := free
  unfold addTransactionToEntry
  simp only [unwritten, unposted, Bool.or_self, Bool.false_eq_true, if_false]
  split
  next writes =>
    rw [reads writes, if_pos List.isEmpty_nil]
    simp
  · split
    · simp [processPendingQueue]
    · simp

theorem pending_queue_doomEntry :
    lock.doomEntry.entry.pending_queue = lock.entry.pending_queue := by
  unfold doomEntry
  split <;> rfl

theorem pending_queue_doneWritingToEntry (success : Bool) :
    (doneWritingToEntry success lock).entry.pending_queue = lock.entry.pending_queue ∨
      (doneWritingToEntry success lock).entry.pending_queue = [] := by
  cases success with
  | true => exact .inl pending_queue_processPendingQueue
  | false => exact .inr rfl

theorem pending_queue_doneWithEntry [DecidableEq τ] :
    (doneWithEntry trans_ cancel lock).entry.pending_queue = lock.entry.pending_queue ∨
      (doneWithEntry trans_ cancel lock).entry.pending_queue = [] := by
  unfold doneWithEntry
  split
  · exact .inl rfl
  · split
    · cases cancel with
      | none => exact .inr rfl
      | some cancellation =>
        dsimp only
        split
        · rcases @pending_queue_doneWritingToEntry _ (lock.doneWritingToEntry false)
            cancellation.addTruncatedFlag.1 with same | none_
          · exact .inr same
          · exact .inr none_
        · exact pending_queue_doneWritingToEntry _
    · exact .inl pending_queue_processPendingQueue

/-- A posted task lets in the next transaction of the queue, if it can. -/
theorem pending_queue_onProcessPendingQueue (modes : τ -> Mode)
    (unwritten : lock.entry.writer = none) :
    (onProcessPendingQueue modes lock).entry.pending_queue = lock.entry.pending_queue ∨
      ∃ next, lock.entry.pending_queue =
        next :: (onProcessPendingQueue modes lock).entry.pending_queue := by
  unfold onProcessPendingQueue
  dsimp only
  cases waiting : lock.entry.pending_queue with
  | nil =>
    refine .inl ?_
    dsimp only
    split
    · rfl
    · rfl
  | cons next rest =>
    dsimp only
    split
    · exact .inl rfl
    next held =>
      have free : ¬ Busy { lock with
          posted := lock.posted - 1
          entry := { lock.entry with
            will_process_pending_queue := false
            pending_queue := rest } } (modes next) := by
        simpa [Busy, unwritten] using held
      have popped := (@addTransactionToEntry_of_not_busy _ _ next _ free).1
      refine .inr ⟨next, congrArg (next :: ·) ?_⟩
      split
      · exact popped.symm
      · exact popped.symm

end EntryLock

/-- A session with the transactions that wait, each with those that came while
it did. A pair is given up when the first does not wait any more, or the second
goes away. -/
structure Queueing (τ : Type) where
  session : Session τ := {}
  behind : List (τ × τ) := []

namespace Queueing

variable {τ : Type} [DecidableEq τ]

/-- The pairs of a transaction that comes. -/
def arrivals (session : Session τ) : Event τ -> List (τ × τ)
  | .addTransactionToEntry trans_ => session.lock.entry.pending_queue.map (·, trans_)
  | _ => []

def perform (queueing : Queueing τ) (event : Event τ) : Queueing τ where
  session := queueing.session.perform event
  behind := (arrivals queueing.session event ++ queueing.behind).filter fun pair =>
    pair.1 ∈ (queueing.session.perform event).lock.entry.pending_queue ∧
      pair.2 ∈ (queueing.session.perform event).attached

def step (queueing : Queueing τ) (event : Event τ) : Option (Queueing τ) :=
  some (queueing.perform event)

def Permitted (queueing : Queueing τ) (event : Event τ) : Prop := queueing.session.Permitted event

/-- Nobody has the entry before one that waited for it already. -/
def InOrder (queueing : Queueing τ) : Prop :=
  ∀ pair ∈ queueing.behind, pair.2 ∉ queueing.session.lock.entry.writer.toList ++
    queueing.session.lock.entry.readers

/-- A transaction that comes while others wait has to wait itself. -/
def WaitsTurn (queueing : Queueing τ) : Event τ -> Prop
  | .addTransactionToEntry trans_ => queueing.session.lock.entry.pending_queue ≠ [] ->
    queueing.session.lock.Busy (queueing.session.modes trans_)
  | _ => True

variable {queueing : Queueing τ} {session : Session τ} {event : Event τ}

/-- The invariant: who came later is behind in the queue. -/
structure Kept (queueing : Queueing τ) : Prop where
  session : queueing.session.lock.tracked = .deleted ∧
      queueing.session.lock.entry.pending_queue = [] ∨ queueing.session.Kept
  ordered : ∀ pair ∈ queueing.behind, [pair.1, pair.2] <+ queueing.session.lock.entry.pending_queue

omit [DecidableEq τ] in
theorem Kept.inOrder (kept : Kept queueing) : InOrder queueing := by
  intro pair mem inv
  have ordered := kept.ordered pair mem
  rcases kept.session with ⟨-, none_⟩ | sessionKept
  · rw [none_] at ordered
    cases ordered
  · have nodup := sessionKept.holds.placed.nodup_iff.mpr sessionKept.distinct
    rw [ActiveEntry.holders, nodup_append] at nodup
    exact nodup.2.2 _ inv _ (ordered.subset (by simp)) rfl

/-- A pair that goes on waiting keeps its order. -/
theorem sublist_perform (kept : session.Kept) (ok : session.Permitted event)
    (ordered : [first, second] <+ session.lock.entry.pending_queue)
    (waits : first ∈ (session.perform event).lock.entry.pending_queue)
    (attached : second ∈ (session.perform event).attached) :
    [first, second] <+ (session.perform event).lock.entry.pending_queue := by
  have nodup := kept.holds.placed.nodup_iff.mpr kept.distinct
  rw [ActiveEntry.holders, nodup_append] at nodup
  have unchanged : ∀ queue : List τ, queue = session.lock.entry.pending_queue ∨ queue = [] ->
      first ∈ queue -> [first, second] <+ queue := by
    rintro queue (rfl | rfl) member
    · exact ordered
    · cases member
  cases event with
  | setMode _ _ => exact ordered
  | addTransactionToEntry trans_ =>
    refine ordered.trans ?_
    by_cases busy : EntryLock.Busy { session.lock with called := [] } (session.modes trans_)
    · exact EntryLock.addTransactionToEntry_of_busy busy ▸ sublist_append_left _ _
    · exact (EntryLock.addTransactionToEntry_of_not_busy busy).1 ▸ Sublist.refl _
  | doneWithEntry trans_ cancel =>
    exact unchanged _ EntryLock.pending_queue_doneWithEntry waits
  | doneWritingToEntry _ success =>
    exact unchanged _ (EntryLock.pending_queue_doneWritingToEntry success) waits
  | doneReadingFromEntry _ =>
    exact unchanged _ (.inl EntryLock.pending_queue_processPendingQueue) waits
  | convertWriterToReader =>
    exact unchanged _ (.inl EntryLock.pending_queue_processPendingQueue) waits
  | removePendingTransaction trans_ =>
    have isFirst := (nodup.2.1.mem_erase_iff.mp waits).1
    have isSecond := (kept.distinct.mem_erase_iff.mp (mem_filter.mp attached).1).1
    have erased := ordered.erase trans_
    rwa [erase_of_not_mem (by simp [isFirst.symm, isSecond.symm])] at erased
  | doomEntry => exact unchanged _ (.inl EntryLock.pending_queue_doomEntry) waits
  | onProcessPendingQueue =>
    obtain ⟨unwritten, -⟩ := EntryLock.places_turn kept.holds.toPlaces ok.1 ok.2
    rcases @EntryLock.pending_queue_onProcessPendingQueue _ { session.lock with called := [] }
      session.modes unwritten with same | ⟨next, popped⟩
    · exact unchanged _ (.inl same) waits
    · dsimp only at popped
      rw [popped] at ordered nodup
      cases ordered with
      | cons _ behind => exact behind
      | cons_cons _ _ => exact absurd waits (nodup_cons.mp nodup.2.1).1

theorem kept_perform (kept : Kept queueing) (ok : Permitted queueing event)
    (waitsTurn : WaitsTurn queueing event) :
    Kept (queueing.perform event) := by
  rcases kept.session with ⟨deleted, none_⟩ | sessionKept
  · cases event with
    | setMode _ _ =>
      refine ⟨.inl ⟨deleted, none_⟩, fun pair mem => ?_⟩
      have waits := (of_decide_eq_true (mem_filter.mp mem).2).1
      exact absurd waits (none_ ▸ not_mem_nil)
    | doomEntry => exact absurd (deleted.symm.trans ok) Tracked.noConfusion
    | _ => exact absurd deleted ok.1
  · refine ⟨?_, fun pair mem => ?_⟩
    · by_cases stored : queueing.session.Stored event
      · exact .inr (Session.kept_perform sessionKept ok stored)
      · obtain ⟨deleted, none_, -⟩ := Session.deleted_of_not_stored sessionKept stored
        exact .inl ⟨deleted, none_⟩
    · obtain ⟨source, still⟩ := mem_filter.mp mem
      obtain ⟨waits, attached⟩ := of_decide_eq_true still
      rcases mem_append.mp source with isNew | isOld
      · cases event with
        | addTransactionToEntry trans_ =>
          obtain ⟨first, waiting, rfl⟩ := List.mem_map.mp isNew
          have pushed := @EntryLock.addTransactionToEntry_of_busy _
            { queueing.session.lock with called := [] } trans_ _
            (waitsTurn (ne_nil_of_mem waiting))
          exact pushed ▸ (singleton_sublist.mpr waiting).append (Sublist.refl [trans_])
        | _ => cases isNew
      · exact sublist_perform sessionKept ok (kept.ordered pair isOld) waits attached

/-- A transaction that is let in at once while others wait is before them. -/
theorem not_inOrder_perform (hurries : ¬ WaitsTurn queueing event) :
    ¬ InOrder (queueing.perform event) := by
  cases event with
  | addTransactionToEntry trans_ =>
    simp only [WaitsTurn, Classical.not_imp] at hurries
    obtain ⟨waiting, free⟩ := hurries
    obtain ⟨first, mem⟩ := exists_mem_of_ne_nil _ waiting
    obtain ⟨queue, letIn⟩ := @EntryLock.addTransactionToEntry_of_not_busy _
      { queueing.session.lock with called := [] } trans_ _ free
    intro inOrder
    refine inOrder (first, trans_) (mem_filter.mpr ⟨?_, ?_⟩) letIn
    · exact mem_append_left _ (List.mem_map_of_mem mem)
    · refine decide_eq_true ⟨queue ▸ mem, mem_filter.mpr ⟨mem_cons_self, ?_⟩⟩
      simp [Session.operate]
  | _ => exact absurd trivial hurries

/-- The entry is granted in the order of arrival in every state of a run if and
only if nobody comes who is let in at once while others wait. -/
theorem inOrder_iff_waitsTurn (modes : τ -> Mode) (events : List (Event τ))
    (ok : Throughout step Permitted { session := { modes } } events) :
    Always step InOrder { session := { modes } } events ↔
      Throughout step WaitsTurn { session := { modes } } events := by
  refine always_iff_throughout Kept.inOrder ?_ ?_ ?_ ok
  · intro queueing event kept permits waitsTurn
    exact ⟨_, rfl, kept_perform kept permits waitsTurn⟩
  · intro queueing event next _ _ hurries runs
    cases runs
    exact not_inOrder_perform hurries
  · exact ⟨.inr ⟨EntryLock.start_holds, nodup_nil⟩, forall_mem_nil _⟩

/-- A reader, a writer that waits for it, and another transaction. -/
def threeRun (mode : Mode) : List (Event Nat) :=
  [.setMode 1 .READ, .setMode 2 .WRITE, .setMode 3 mode, .addTransactionToEntry 1,
    .addTransactionToEntry 2, .addTransactionToEntry 3]

theorem permitted_threeRun (mode : Mode) :
    Throughout step Permitted ({} : Queueing Nat) (threeRun mode) := by
  simp only [threeRun, Throughout, step, some.injEq, forall_eq']
  cases mode <;> exact ⟨trivial, trivial, trivial, ⟨Tracked.noConfusion, by decide⟩,
    ⟨Tracked.noConfusion, by decide⟩, ⟨Tracked.noConfusion, by decide⟩, trivial⟩

theorem inOrder_iff_waitsTurn_threeRun :
    Throughout step Permitted ({} : Queueing Nat) (threeRun .WRITE) ∧
      (Always step InOrder ({} : Queueing Nat) (threeRun .WRITE) ↔
        Throughout step WaitsTurn ({} : Queueing Nat) (threeRun .WRITE)) :=
  ⟨permitted_threeRun _, inOrder_iff_waitsTurn _ _ (permitted_threeRun _)⟩

/-- The second reader has the entry while the writer waits. -/
theorem not_always_inOrder : ¬ ∀ events : List (Event Nat),
    Throughout step Permitted ({} : Queueing Nat) events ->
      Always step InOrder ({} : Queueing Nat) events := by
  intro always
  obtain ⟨last, reaches, inOrder⟩ := (always _ (permitted_threeRun .READ)).last
  obtain rfl := some.inj reaches
  exact inOrder (2, 3) (by decide) (by decide)

end Queueing
end Chromium.Net.HttpCache
