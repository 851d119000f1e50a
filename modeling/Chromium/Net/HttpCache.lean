import Chromium.Library.Run
import Mathlib.Data.List.Basic

/-!
# The lock of an HTTP cache entry

The transactions of an active entry are its writer, its readers, or wait in its
queue. The next one that waits is let in by a posted task.
-/

namespace Chromium.Net

open List Option

namespace HttpCache

namespace Transaction

inductive Mode
  | NONE
  | READ_META
  | READ_DATA
  | READ
  | WRITE
  | READ_WRITE
  | UPDATE
deriving DecidableEq

def Mode.bits : Mode -> Nat
  | .NONE => 0
  | .READ_META => 1
  | .READ_DATA => 2
  | .READ => 1 ||| 2
  | .WRITE => 4
  | .READ_WRITE => 1 ||| 2 ||| 4
  | .UPDATE => 1 ||| 4

/-- The test `mode() & Transaction::WRITE`. -/
def Mode.writes (mode : Mode) : Bool := mode.bits &&& Mode.WRITE.bits != 0

end Transaction

open Transaction (Mode)

def ERR_IO_PENDING : Int := -1

/-- What a cancelled transaction reads to mark its entry as truncated. -/
structure Cancellation where
  /-- Whether the request is partial. -/
  partial_ : Bool
  truncated_ : Bool
  done_reading_ : Bool
  /-- `GetDataSize(kResponseContentIndex)` of the disk entry. -/
  data_size : Int
  method : String
  content_length : Int
  /-- Whether the response has the value `none` for `Accept-Ranges`. -/
  accept_ranges_none : Bool
  has_strong_validators : Bool
  /-- Whether the mode of the cache is `RECORD`. -/
  record : Bool
  /-- Whether the response has the value `no-store` for `cache-control`. -/
  no_store : Bool
  is_cert_status_error : Bool
  /-- The size of the response info. -/
  io_buf_len_ : Int
  /-- What the `WriteData` of the disk entry answers. -/
  write_data : Int
deriving DecidableEq

namespace Cancellation

section

variable (cancellation : Cancellation)

def canResume (has_data : Bool) : Bool :=
  if has_data && cancellation.data_size == 0 then false
  else if cancellation.method ≠ "GET" then false
  else if cancellation.content_length <= 0 || cancellation.accept_ranges_none ||
      !cancellation.has_strong_validators then false
  else true

/-- `WriteResponseInfoToEntry` either calls `DoneWritingToEntry(false)`, or
answers what the disk entry does. -/
def writeResponseInfoToEntry : Option Int :=
  if (!cancellation.record && cancellation.no_store) || cancellation.is_cert_status_error then none
  else some cancellation.write_data

/-- Whether `DoLoop` calls `DoneWritingToEntry(false)`, starting from
`STATE_CACHE_WRITE_TRUNCATED_RESPONSE`. -/
def doLoop : Bool :=
  match cancellation.writeResponseInfoToEntry with
  | none => true
  | some result =>
    -- `DoCacheWriteResponseComplete` is not reached while the write is
    -- pending.
    result != ERR_IO_PENDING && result != cancellation.io_buf_len_

/-- The answer of `AddTruncatedFlag`, and whether it has called
`DoneWritingToEntry(false)` itself. -/
def addTruncatedFlag : Bool × Bool :=
  if cancellation.partial_ && !cancellation.truncated_ then (true, false)
  else if !cancellation.canResume true then (false, false)
  else if cancellation.done_reading_ then (true, false)
  else (true, cancellation.doLoop)

/-- The response info of a resumable transaction must not be stored, or the
disk entry refuses it at once. -/
def Rejected : Prop :=
  (cancellation.partial_ = true -> cancellation.truncated_ = true) ∧
    cancellation.canResume true = true ∧
    cancellation.done_reading_ = false ∧
    ((cancellation.record = false ∧ cancellation.no_store = true) ∨
      cancellation.is_cert_status_error = true ∨
      (cancellation.write_data ≠ ERR_IO_PENDING ∧
        cancellation.write_data ≠ cancellation.io_buf_len_))

end

instance (cancellation : Cancellation) : Decidable cancellation.Rejected :=
  inferInstanceAs (Decidable (_ ∧ _))

theorem doLoop_iff {cancellation : Cancellation} : cancellation.doLoop = true ↔
      (cancellation.record = false ∧ cancellation.no_store = true) ∨
        cancellation.is_cert_status_error = true ∨ (cancellation.write_data ≠ ERR_IO_PENDING ∧
          cancellation.write_data ≠ cancellation.io_buf_len_) := by
  unfold doLoop writeResponseInfoToEntry
  by_cases unstored : ((!cancellation.record && cancellation.no_store) ||
      cancellation.is_cert_status_error) = true
  · rw [if_pos unstored]
    simp only [Bool.or_eq_true, Bool.and_eq_true, Bool.not_eq_true'] at unstored
    refine iff_of_true rfl ?_
    rcases unstored with noStore | certificate
    · exact .inl noStore
    · exact .inr (.inl certificate)
  · rw [if_neg unstored]
    simp only [Bool.or_eq_true, Bool.and_eq_true, Bool.not_eq_true', not_or] at unstored
    simp [unstored]

/-- `AddTruncatedFlag` fails the writing of a rejected response itself, and
answers that it has succeeded. -/
theorem addTruncatedFlag_of_rejected {cancellation : Cancellation}
    (rejected : cancellation.Rejected) :
    cancellation.addTruncatedFlag = (true, true) := by
  obtain ⟨resumed, resumes, unread, fails⟩ := rejected
  unfold addTruncatedFlag
  rw [if_neg (by simpa using resumed), if_neg (by simp [resumes]),
    if_neg (by simp [unread]), doLoop_iff.mpr fails]

theorem addTruncatedFlag_of_not_rejected {cancellation : Cancellation}
    (ok : ¬ cancellation.Rejected) :
    cancellation.addTruncatedFlag.2 = false := by
  unfold addTruncatedFlag
  split
  · rfl
  next resumed =>
    split
    · rfl
    next resumes =>
      split
      · rfl
      next unread =>
        apply Bool.eq_false_iff.mpr
        intro fails
        exact ok ⟨by simpa using resumed, by simpa using resumes,
          by simpa using unread, doLoop_iff.mp fails⟩

end Cancellation

structure ActiveEntry (τ : Type) where
  writer : Option τ := none
  readers : List τ := []
  pending_queue : List τ := []
  will_process_pending_queue : Bool := false
  doomed : Bool := false
deriving DecidableEq

/-- The set of the cache that an entry is in. -/
inductive Tracked
  | active_entries_
  | doomed_entries_
  | deleted
deriving DecidableEq

inductive Result
  | OK
  | ERR_IO_PENDING
  | ERR_CACHE_RACE
deriving DecidableEq

/-- An entry with what the cache does about it. -/
structure EntryLock (τ : Type) where
  entry : ActiveEntry τ := {}
  tracked : Tracked := .active_entries_
  /-- The number of posted tasks of `OnProcessPendingQueue`. -/
  posted : Nat := 0
  /-- The transactions called back, with what they are told. -/
  called : List (τ × Result) := []
deriving DecidableEq

namespace EntryLock

variable {τ : Type}

section

variable (lock : EntryLock τ)

def processPendingQueue : EntryLock τ :=
  if lock.entry.will_process_pending_queue then lock
  else
    { lock with
      entry := { lock.entry with will_process_pending_queue := true }
      posted := lock.posted + 1 }

/-- `FinalizeDoomedEntry` or `DeactivateEntry`. -/
def destroyEntry : EntryLock τ := { lock with tracked := .deleted }

/-- Dooming an entry in use; there is nothing to do here for one that is not
active. -/
def doomEntry : EntryLock τ :=
  if lock.tracked = .active_entries_ then
    { lock with
      tracked := .doomed_entries_
      entry := { lock.entry with doomed := true } }
  else lock

def addTransactionToEntry (trans_ : τ) (mode : Mode) (lock : EntryLock τ) : EntryLock τ × Result :=
  let pushed : EntryLock τ :=
    { lock with
      entry.pending_queue := lock.entry.pending_queue ++ [trans_] }
  -- The next transaction is asked for before this one runs, which keeps the
  -- order of the queue.
  let next (lock : EntryLock τ) : EntryLock τ :=
    if lock.entry.writer.isNone && !lock.entry.pending_queue.isEmpty then lock.processPendingQueue
    else lock
  if lock.entry.writer.isSome || lock.entry.will_process_pending_queue then
    (pushed, .ERR_IO_PENDING)
  else if mode.writes then
    if lock.entry.readers.isEmpty then (next { lock with entry.writer := some trans_ }, .OK)
    else (pushed, .ERR_IO_PENDING)
  else (next { lock with entry.readers := lock.entry.readers ++ [trans_] }, .OK)

def doneWritingToEntry (success : Bool) (lock : EntryLock τ) : EntryLock τ :=
  let lock : EntryLock τ := { lock with entry.writer := none }
  if success then lock.processPendingQueue
  else
    let pending_queue := lock.entry.pending_queue
    let lock := destroyEntry { lock with entry.pending_queue := [] }
    { lock with
      called := lock.called ++ pending_queue.map (·, .ERR_CACHE_RACE) }

def doneReadingFromEntry [DecidableEq τ] (trans_ : τ) (lock : EntryLock τ) : EntryLock τ :=
  processPendingQueue { lock with entry.readers := lock.entry.readers.erase trans_ }

def doneWithEntry [DecidableEq τ] (trans_ : τ) (cancel : Option Cancellation)
    (lock : EntryLock τ) : EntryLock τ :=
  -- The writer has been let go already.
  if lock.entry.will_process_pending_queue && lock.entry.readers.isEmpty then lock
  else if lock.entry.writer.isSome then
    match cancel with
    | none => lock.doneWritingToEntry false
    | some cancellation =>
      let (success, failed) := cancellation.addTruncatedFlag
      let lock := if failed then lock.doneWritingToEntry false else lock
      lock.doneWritingToEntry success
  else lock.doneReadingFromEntry trans_

def convertWriterToReader : EntryLock τ :=
  processPendingQueue
    { lock with
      entry.writer := none
      entry.readers := lock.entry.readers ++ lock.entry.writer.toList }

end

def removePendingTransactionFromEntry [DecidableEq τ] (trans_ : τ)
    (lock : EntryLock τ) : EntryLock τ :=
  { lock with entry.pending_queue := lock.entry.pending_queue.erase trans_ }

/-- A posted task runs. -/
def onProcessPendingQueue (modes : τ -> Mode) (lock : EntryLock τ) : EntryLock τ :=
  let lock : EntryLock τ :=
    { lock with
      posted := lock.posted - 1
      entry.will_process_pending_queue := false }
  match lock.entry.pending_queue with
  | [] => if lock.entry.readers.isEmpty then lock.destroyEntry else lock
  | next :: rest =>
    if (modes next).writes && !lock.entry.readers.isEmpty then lock
    else
      let (lock, result) := addTransactionToEntry next (modes next)
        { lock with entry.pending_queue := rest }
      if result ≠ .ERR_IO_PENDING then { lock with called := lock.called ++ [(next, result)] }
      else lock

end EntryLock

end HttpCache

/-!
## Runs of an HTTP cache entry

A session pairs the lock of an entry with the transactions that are attached to
it, as they see it themselves. The lock excludes and wakes as it should, unless
a cancelled writer fails the writing of its entry while the entry is marked as
truncated.
-/

namespace HttpCache

open Library
open Transaction (Mode)

inductive Event (τ : Type)
  | setMode (trans_ : τ) (mode : Mode)
  | addTransactionToEntry (trans_ : τ)
  /-- What the transaction reads is given if the request is cancelled. -/
  | doneWithEntry (trans_ : τ) (cancel : Option Cancellation)
  | doneWritingToEntry (trans_ : τ) (success : Bool)
  | doneReadingFromEntry (trans_ : τ)
  | convertWriterToReader
  | removePendingTransaction (trans_ : τ)
  | doomEntry
  /-- A posted task is executed. -/
  | onProcessPendingQueue
deriving DecidableEq

/-- An entry with the transactions attached to it, and their modes. -/
structure Session (τ : Type) where
  lock : EntryLock τ := {}
  attached : List τ := []
  modes : τ -> Mode := fun _ => .NONE

/-- The transactions that wait, and those that were let in. -/
def ActiveEntry.holders {τ : Type} (entry : ActiveEntry τ) : List τ :=
  entry.writer.toList ++ entry.readers ++ entry.pending_queue

namespace Session

variable {τ : Type} [DecidableEq τ]

section

variable (s : Session τ)

/-- The lock after an event, with the transactions called back in it. -/
def operate : Event τ -> EntryLock τ
  | .setMode _ _ => { s.lock with called := [] }
  | .addTransactionToEntry trans_ =>
    (EntryLock.addTransactionToEntry trans_ (s.modes trans_) { s.lock with called := [] }).1
  | .doneWithEntry trans_ cancel =>
    EntryLock.doneWithEntry trans_ cancel { s.lock with called := [] }
  | .doneWritingToEntry _ success =>
    EntryLock.doneWritingToEntry success { s.lock with called := [] }
  | .doneReadingFromEntry trans_ =>
    EntryLock.doneReadingFromEntry trans_ { s.lock with called := [] }
  | .convertWriterToReader => EntryLock.convertWriterToReader { s.lock with called := [] }
  | .removePendingTransaction trans_ =>
    EntryLock.removePendingTransactionFromEntry trans_ { s.lock with called := [] }
  | .doomEntry => EntryLock.doomEntry { s.lock with called := [] }
  | .onProcessPendingQueue =>
    EntryLock.onProcessPendingQueue s.modes { s.lock with called := [] }

/-- The transactions that come and go on their own. -/
def attend (attached : List τ) : Event τ -> List τ
  | .addTransactionToEntry trans_ => trans_ :: attached
  | .doneWithEntry trans_ _ | .doneWritingToEntry trans_ _
  | .doneReadingFromEntry trans_ | .removePendingTransaction trans_ => attached.erase trans_
  | .setMode _ _ | .convertWriterToReader | .doomEntry
  | .onProcessPendingQueue => attached

def changeModes (modes : τ -> Mode) : Event τ -> τ -> Mode
  | .setMode trans_ mode => Function.update modes trans_ mode
  | _ => modes

/-- A transaction that is told of a race starts over with another entry. -/
def perform (event : Event τ) : Session τ where
  lock := s.operate event
  attached := (attend s.attached event).filter fun trans_ =>
    (trans_, .ERR_CACHE_RACE) ∉ (s.operate event).called
  modes := changeModes s.modes event

/-- A transaction calls for an entry that it is attached to, as what it calls
for, until the entry is deleted. -/
def Permitted : Event τ -> Prop
  | .setMode _ _ => True
  | .addTransactionToEntry trans_ => s.lock.tracked ≠ .deleted ∧ trans_ ∉ s.attached
  | .doneWithEntry trans_ _ =>
    s.lock.tracked ≠ .deleted ∧ (s.lock.entry.writer = some trans_ ∨ trans_ ∈ s.lock.entry.readers)
  | .doneWritingToEntry trans_ _ =>
    s.lock.tracked ≠ .deleted ∧ s.lock.entry.writer = some trans_
  | .doneReadingFromEntry trans_ =>
    s.lock.tracked ≠ .deleted ∧ trans_ ∈ s.lock.entry.readers
  | .convertWriterToReader =>
    s.lock.tracked ≠ .deleted ∧ s.lock.entry.writer.isSome = true
  | .removePendingTransaction trans_ =>
    s.lock.tracked ≠ .deleted ∧ trans_ ∈ s.lock.entry.pending_queue
  | .doomEntry => s.lock.tracked = .active_entries_
  | .onProcessPendingQueue => s.lock.tracked ≠ .deleted ∧ 0 < s.lock.posted

/-- The writer is not cancelled with a response that it may not store. -/
def Stored : Event τ -> Prop
  | .doneWithEntry trans_ (some cancellation) =>
    s.lock.entry.writer = some trans_ -> ¬ cancellation.Rejected
  | _ => True

end

/-- The lock excludes, loses no transaction and forgets none that waits, and is
deleted when nobody needs it. -/
structure Sound (s : Session τ) : Prop where
  exclusive : s.lock.entry.writer.isSome = true -> s.lock.entry.readers = []
  placed : ∀ trans_, s.lock.entry.holders.count trans_ = if trans_ ∈ s.attached then 1 else 0
  awaited : s.lock.entry.pending_queue ≠ [] -> s.lock.entry.writer.isSome = true ∨
      s.lock.entry.readers ≠ [] ∨ 0 < s.lock.posted
  deleted : s.lock.tracked = .deleted -> s.attached = [] ∧ s.lock.posted = 0

end Session

/-- The lock has the attached transactions, but may have to wake one. -/
structure Places {τ : Type} (lock : EntryLock τ) (attached : List τ) : Prop where
  exclusive : lock.entry.writer.isSome = true -> lock.entry.readers = []
  unwritten : lock.entry.will_process_pending_queue = true -> lock.entry.writer = none
  posted : lock.posted = if lock.entry.will_process_pending_queue then 1 else 0
  placed : lock.entry.holders.Perm attached
  deleted : lock.tracked = .deleted -> attached = [] ∧ lock.entry.will_process_pending_queue = false
  /-- `DestroyEntry` looks for the entry in the set that has it. -/
  doomed : lock.tracked ≠ .deleted -> (lock.entry.doomed = true ↔ lock.tracked = .doomed_entries_)

/-- The lock has the attached transactions, and somebody will wake those that
wait. -/
structure Holds {τ : Type} (lock : EntryLock τ) (attached : List τ) : Prop
    extends Places lock attached where
  awaited : lock.entry.pending_queue ≠ [] ->
    lock.entry.writer.isSome = true ∨ lock.entry.readers ≠ [] ∨
      lock.entry.will_process_pending_queue = true

theorem Places.perm {τ : Type} {lock : EntryLock τ} {attached others : List τ}
    (places : Places lock attached) (same : attached.Perm others) :
    Places lock others :=
  { places with
    placed := places.placed.trans same
    deleted := fun isDeleted =>
      ⟨nil_perm.mp ((places.deleted isDeleted).1 ▸ same), (places.deleted isDeleted).2⟩ }

namespace EntryLock

variable {τ : Type} {lock : EntryLock τ} {attached : List τ}

/-- A lock without a writer that posts a task only lacks the task. -/
theorem holds_processPendingQueue
    (places : Places lock attached) (tracked : lock.tracked ≠ .deleted)
    (unwritten : lock.entry.writer = none) :
    Holds lock.processPendingQueue attached := by
  unfold processPendingQueue
  by_cases posts : lock.entry.will_process_pending_queue = true
  · rw [if_pos posts]
    exact { places with awaited := fun _ => .inr (.inr posts) }
  · have posted := places.posted
    rw [if_neg posts] at posted ⊢
    exact {
      exclusive := places.exclusive
      unwritten := fun _ => unwritten
      posted := congrArg (· + 1) posted
      placed := places.placed
      deleted := fun isDeleted => absurd isDeleted tracked
      doomed := places.doomed
      awaited := fun _ => .inr (.inr rfl) }

theorem holders_push {entry : ActiveEntry τ} :
    ({ entry with
      pending_queue := entry.pending_queue ++ [trans_] } :
        ActiveEntry τ).holders.Perm (trans_ :: entry.holders) := by
  unfold ActiveEntry.holders
  rw [← append_assoc]
  exact perm_append_singleton trans_ _

variable {trans_ : τ}

/-- A transaction that cannot run is put at the end of the queue. -/
theorem holds_push (places : Places lock attached) (tracked : lock.tracked ≠ .deleted)
    (taken : lock.entry.writer.isSome = true ∨ lock.entry.readers ≠ [] ∨
      lock.entry.will_process_pending_queue = true) :
    Holds
      { lock with
        entry.pending_queue := lock.entry.pending_queue ++ [trans_] }
      (trans_ :: attached) where
  exclusive := places.exclusive
  unwritten := places.unwritten
  posted := places.posted
  placed := holders_push.trans (places.placed.cons trans_)
  deleted isDeleted := absurd isDeleted tracked
  doomed := places.doomed
  awaited _ := taken

theorem holds_write (places : Places lock attached)
    (tracked : lock.tracked ≠ .deleted) (unwritten : lock.entry.writer = none)
    (unread : lock.entry.readers = [])
    (unposted : lock.entry.will_process_pending_queue = false) :
    Holds { lock with entry.writer := some trans_ } (trans_ :: attached) where
  exclusive _ := unread
  unwritten posts := absurd posts (Bool.eq_false_iff.mp unposted)
  posted := places.posted
  placed := by
    refine List.Perm.trans ?_ (places.placed.cons trans_)
    simp [ActiveEntry.holders, unwritten]
  deleted isDeleted := absurd isDeleted tracked
  doomed := places.doomed
  awaited _ := .inl rfl

/-- A reader is let in, and may have to wake the next one. -/
theorem places_read (trans_ : τ) (places : Places lock attached) (tracked : lock.tracked ≠ .deleted)
    (unwritten : lock.entry.writer = none) :
    Places { lock with entry.readers := lock.entry.readers ++ [trans_] } (trans_ :: attached) where
  exclusive isWritten := by
    rw [show lock.entry.writer = none from unwritten] at isWritten
    cases isWritten
  unwritten _ := unwritten
  posted := places.posted
  placed := by
    refine List.Perm.trans ?_ (places.placed.cons trans_)
    simp only [ActiveEntry.holders, unwritten, toList_none, nil_append, append_assoc]
    exact perm_middle
  deleted isDeleted := absurd isDeleted tracked
  doomed := places.doomed

theorem holds_addTransactionToEntry (trans_ : τ) (mode : Mode) (places : Places lock attached)
    (tracked : lock.tracked ≠ .deleted) :
    Holds (addTransactionToEntry trans_ mode lock).1 (trans_ :: attached) := by
  unfold addTransactionToEntry
  by_cases busy : (lock.entry.writer.isSome || lock.entry.will_process_pending_queue) = true
  · simp only [if_pos busy]
    rw [Bool.or_eq_true] at busy
    exact holds_push places tracked (busy.imp_right .inr)
  · simp only [if_neg busy]
    simp only [Bool.or_eq_true, not_or, Bool.not_eq_true,
      isSome_eq_false_iff, isNone_iff_eq_none] at busy
    obtain ⟨unwritten, unposted⟩ := busy
    by_cases writes : mode.writes = true
    · simp only [if_pos writes]
      by_cases unread : lock.entry.readers.isEmpty = true
      · rw [if_pos unread]
        exact holds_write places tracked unwritten (List.isEmpty_iff.mp unread) unposted
      · rw [if_neg unread]
        rw [List.isEmpty_iff] at unread
        exact holds_push places tracked (.inr (.inl unread))
    · simp only [if_neg writes]
      have reads := places_read trans_ places tracked unwritten
      by_cases waits : lock.entry.pending_queue.isEmpty = true
      · simp only [waits, Bool.not_true, Bool.and_false, Bool.false_eq_true, if_false]
        exact { reads with
          awaited := fun waiting => absurd (List.isEmpty_iff.mp waits) waiting }
      · have free : lock.entry.writer.isNone = true := isNone_iff_eq_none.mpr unwritten
        simp only [free, waits, Bool.not_false, Bool.and_true, if_true]
        exact holds_processPendingQueue reads tracked unwritten

section

variable (places : Places lock attached)
include places

/-- What is left of the holders when the writer goes. -/
theorem holders_erase_writer [DecidableEq τ] (writes : lock.entry.writer = some trans_) :
    lock.entry.readers = [] ∧ lock.entry.pending_queue.Perm (attached.erase trans_) := by
  have unread : lock.entry.readers = [] := places.exclusive (by simp [writes])
  have placed := places.placed.erase trans_
  simp only [ActiveEntry.holders, writes, unread, toList_some,
    append_nil, singleton_append, erase_cons_head] at placed
  exact ⟨unread, placed⟩

theorem holds_doneWritingToEntry_true [DecidableEq τ] (tracked : lock.tracked ≠ .deleted)
    (writes : lock.entry.writer = some trans_) :
    Holds (doneWritingToEntry true lock) (attached.erase trans_) := by
  obtain ⟨unread, placed⟩ := holders_erase_writer places writes
  refine holds_processPendingQueue ?_ tracked rfl
  exact { places with
    exclusive := fun _ => unread
    unwritten := fun _ => rfl
    placed := by simpa [ActiveEntry.holders, unread] using placed
    deleted := fun isDeleted => absurd isDeleted tracked }

/-- A failed writer leaves an entry that is deleted and holds nobody. -/
theorem holds_doneWritingToEntry_false (writes : lock.entry.writer.isSome = true) :
    Holds (doneWritingToEntry false lock) [] where
  exclusive _ := places.exclusive writes
  unwritten _ := rfl
  posted := places.posted
  placed := by simp [doneWritingToEntry, destroyEntry, ActiveEntry.holders, places.exclusive writes]
  deleted _ := by
    refine ⟨rfl, Bool.eq_false_iff.mpr ?_⟩
    intro posts
    have unwritten : lock.entry.writer = none := places.unwritten posts
    rw [unwritten] at writes
    cases writes
  doomed isTracked := absurd rfl isTracked
  awaited waits := absurd rfl waits

theorem holds_doneReadingFromEntry [DecidableEq τ] (tracked : lock.tracked ≠ .deleted)
    (reads : trans_ ∈ lock.entry.readers) :
    Holds (doneReadingFromEntry trans_ lock) (attached.erase trans_) := by
  have unwritten : lock.entry.writer = none := by
    apply eq_none_iff_forall_ne_some.mpr
    intro writer writes
    have unread := places.exclusive (by simp [writes])
    simp [unread] at reads
  have placed := places.placed.erase trans_
  rw [ActiveEntry.holders, unwritten, toList_none, nil_append, erase_append_left _ reads] at placed
  refine holds_processPendingQueue ?_ tracked unwritten
  exact { places with
    exclusive := fun isWritten => absurd isWritten (by simp [unwritten])
    placed := by simpa [ActiveEntry.holders, unwritten] using placed
    deleted := fun isDeleted => absurd isDeleted tracked }

theorem holds_convertWriterToReader (tracked : lock.tracked ≠ .deleted)
    (writes : lock.entry.writer.isSome = true) :
    Holds (convertWriterToReader lock) attached := by
  have unread := places.exclusive writes
  refine holds_processPendingQueue ?_ tracked rfl
  exact { places with
    exclusive := by simp
    unwritten := fun _ => rfl
    placed := by simpa [ActiveEntry.holders, unread] using places.placed }

end

theorem holds_removePendingTransaction [DecidableEq τ]
    (inv : Holds lock attached) (tracked : lock.tracked ≠ .deleted) (nodup : attached.Nodup)
    (waits : trans_ ∈ lock.entry.pending_queue) :
    Holds (removePendingTransactionFromEntry trans_ lock) (attached.erase trans_) :=
  { inv with
    placed := by
      have placed := inv.placed.erase trans_
      have apart := inv.placed.nodup_iff.mpr nodup
      rw [ActiveEntry.holders, nodup_append] at apart
      have isNew : trans_ ∉ lock.entry.writer.toList ++ lock.entry.readers :=
        fun mem => apart.2.2 trans_ mem trans_ waits rfl
      rw [ActiveEntry.holders, erase_append_right _ isNew] at placed
      exact placed
    deleted := fun isDeleted => absurd isDeleted tracked
    awaited := fun _ => inv.awaited (ne_nil_of_mem waits) }

theorem holds_doomEntry (inv : Holds lock attached) (active : lock.tracked = .active_entries_) :
    Holds (doomEntry lock) attached := by
  unfold doomEntry
  rw [if_pos active]
  exact { inv with
    deleted := by simp
    doomed := fun _ => iff_of_true rfl rfl }

/-- The posted task takes its flag back. -/
theorem places_turn (places : Places lock attached) (tracked : lock.tracked ≠ .deleted)
    (posted : 0 < lock.posted) :
    lock.entry.writer = none ∧ Places
        { lock with
          posted := lock.posted - 1
          entry.will_process_pending_queue := false }
        attached := by
  have posts : lock.entry.will_process_pending_queue = true := by
    have isPosted := places.posted
    by_contra unposted
    rw [if_neg unposted] at isPosted
    omega
  have isPosted : lock.posted = 1 := by rw [places.posted, if_pos posts]
  refine ⟨places.unwritten posts, ?_⟩
  exact { places with
    unwritten := by simp
    posted := by simp [isPosted]
    deleted := fun isDeleted => absurd isDeleted tracked }

theorem holds_onProcessPendingQueue (modes : τ -> Mode) (places : Places lock attached)
    (tracked : lock.tracked ≠ .deleted) (posted : 0 < lock.posted) :
    Holds (onProcessPendingQueue modes lock) attached := by
  obtain ⟨unwritten, turned⟩ := places_turn places tracked posted
  unfold onProcessPendingQueue
  dsimp only
  split
  next waiting =>
    by_cases unread : lock.entry.readers.isEmpty = true
    · rw [if_pos unread]
      rw [List.isEmpty_iff] at unread
      have nobody : attached = [] := by
        have placed := places.placed
        rw [ActiveEntry.holders, unwritten, unread, waiting] at placed
        exact placed.nil_eq.symm
      exact { turned with
        deleted := fun _ => ⟨nobody, rfl⟩
        doomed := fun isTracked => absurd rfl isTracked
        awaited := fun waits => absurd waiting waits }
    · rw [if_neg unread]
      exact { turned with awaited := fun waits => absurd waiting waits }
  next next_ rest waiting =>
    by_cases held : ((modes next_).writes && !lock.entry.readers.isEmpty) = true
    · rw [if_pos held]
      simp only [Bool.and_eq_true, Bool.not_eq_true', isEmpty_eq_false_iff] at held
      exact { turned with awaited := fun _ => .inr (.inl held.2) }
    · rw [if_neg held]
      have popped : Places
          { lock with
            posted := lock.posted - 1
            entry.will_process_pending_queue := false
            entry.pending_queue := rest }
          (lock.entry.writer.toList ++ lock.entry.readers ++ rest) :=
        { turned with
          placed := .rfl
          deleted := fun isDeleted => absurd isDeleted tracked }
      have added := holds_addTransactionToEntry next_ (modes next_) popped tracked
      have same : (next_ :: (lock.entry.writer.toList ++ lock.entry.readers ++
          rest)).Perm attached := by
        refine List.Perm.trans ?_ places.placed
        rw [ActiveEntry.holders, waiting]
        exact perm_middle.symm
      have kept := added.toPlaces.perm same
      split
      · exact { kept with awaited := added.awaited }
      · exact { kept with awaited := added.awaited }

/-- Nobody is attached to a new entry. -/
theorem start_holds : Holds ({} : EntryLock τ) [] where
  exclusive := by simp
  unwritten := by simp
  posted := rfl
  placed := .nil
  deleted := by simp
  doomed := by simp
  awaited waits := absurd rfl waits

@[simp] theorem called_processPendingQueue : lock.processPendingQueue.called = lock.called := by
  unfold processPendingQueue
  split <;> rfl

@[simp] theorem called_addTransactionToEntry :
    (addTransactionToEntry trans_ mode lock).1.called = lock.called := by
  unfold addTransactionToEntry
  dsimp only
  split
  · rfl
  · split
    · split
      · split <;> simp
      · rfl
    · split <;> simp

@[simp] theorem called_doneReadingFromEntry [DecidableEq τ] :
    (doneReadingFromEntry trans_ lock).called = lock.called :=
  called_processPendingQueue

@[simp] theorem called_convertWriterToReader : (convertWriterToReader lock).called = lock.called :=
  called_processPendingQueue

@[simp] theorem called_doneWritingToEntry_true :
    (doneWritingToEntry true lock).called = lock.called :=
  called_processPendingQueue

@[simp] theorem called_doomEntry : (doomEntry lock).called = lock.called := by
  unfold doomEntry
  split <;> rfl

theorem not_raced_onProcessPendingQueue (modes : τ → Mode) (quiet : lock.called = []) (trans_ : τ) :
    (trans_, Result.ERR_CACHE_RACE) ∉ (onProcessPendingQueue modes lock).called := by
  have let_in (next : τ) (mode : Mode) (lock : EntryLock τ) :
      (addTransactionToEntry next mode lock).2 ≠ .ERR_CACHE_RACE := by
    unfold addTransactionToEntry
    split
    · simp
    · split
      · split <;> simp
      · simp
  unfold onProcessPendingQueue
  dsimp only
  split
  · split <;> simp [destroyEntry, quiet]
  · split
    · simp [quiet]
    · split
      · simp only [called_addTransactionToEntry, quiet, nil_append,
          mem_singleton, Prod.mk.injEq, not_and]
        intro _ raced
        exact let_in _ _ _ raced.symm
      · simp [quiet]

end EntryLock

namespace Session

variable {τ : Type} [DecidableEq τ] {s : Session τ} {event : Event τ}

/-- The invariant of the sessions. -/
structure Kept (s : Session τ) : Prop where
  holds : Holds s.lock s.attached
  distinct : s.attached.Nodup

theorem Kept.sound (kept : Kept s) : Sound s where
  exclusive := kept.holds.exclusive
  placed trans_ := (kept.holds.placed.count_eq trans_).trans kept.distinct.count
  awaited waits := by
    rcases kept.holds.awaited waits with writes | reads | posts
    · exact .inl writes
    · exact .inr (.inl reads)
    · refine .inr (.inr ?_)
      rw [kept.holds.posted, if_pos posts]
      exact Nat.one_pos
  deleted isDeleted := by
    obtain ⟨nobody, unposted⟩ := kept.holds.deleted isDeleted
    refine ⟨nobody, ?_⟩
    rw [kept.holds.posted, unposted]
    rfl

/-- An operation after which nobody starts over. -/
theorem kept_of_quiet (inv : Holds (s.operate event) (attend s.attached event))
    (nodup : (attend s.attached event).Nodup)
    (quiet : ∀ trans_, (trans_, Result.ERR_CACHE_RACE) ∉ (s.operate event).called) :
    Kept (s.perform event) := by
  have all : (s.perform event).attached = attend s.attached event :=
    filter_eq_self.mpr fun trans_ _ => decide_eq_true (quiet trans_)
  constructor
  · rw [all]
    exact inv
  · rw [all]
    exact nodup

section

variable (kept : Kept s)
include kept

/-- Everybody who waits for a failed writer starts over. -/
theorem kept_of_failed (writes : s.lock.entry.writer = some trans_) (isFailed : s.operate event =
      EntryLock.doneWritingToEntry false { s.lock with called := [] })
    (leaves : attend s.attached event = s.attached.erase trans_) :
    Kept (s.perform event) := by
  have waiting := (EntryLock.holders_erase_writer kept.holds.toPlaces writes).2
  have nobody : (s.perform event).attached = [] := by
    apply filter_eq_nil_iff.mpr
    intro other mem
    rw [leaves] at mem
    have waits := waiting.mem_iff.mpr mem
    rw [decide_eq_true_iff, not_not, isFailed]
    simpa [EntryLock.doneWritingToEntry, EntryLock.destroyEntry] using waits
  have places : Places { s.lock with called := [] } s.attached :=
    { kept.holds.toPlaces with }
  have inv := EntryLock.holds_doneWritingToEntry_false places (by simp [writes])
  constructor
  · rw [nobody, show (s.perform event).lock = _ from isFailed]
    exact inv
  · rw [nobody]
    exact nodup_nil

theorem kept_doneWithEntry (ok : Permitted s (.doneWithEntry trans_ cancel))
    (stored : Stored s (.doneWithEntry trans_ cancel)) :
    Kept (s.perform (.doneWithEntry trans_ cancel)) := by
  have places : Places { s.lock with called := [] } s.attached :=
    { kept.holds.toPlaces with }
  obtain ⟨tracked, uses⟩ := ok
  have nodup : (s.attached.erase trans_).Nodup := kept.distinct.erase _
  rcases uses with writes | reads
  · have unposted : s.lock.entry.will_process_pending_queue = false := by
      apply Bool.eq_false_iff.mpr
      intro posts
      rw [kept.holds.unwritten posts] at writes
      cases writes
    cases cancel with
    | none =>
      have isDone : s.operate (.doneWithEntry trans_ none) =
          EntryLock.doneWritingToEntry false { s.lock with called := [] } := by
        simp [operate, EntryLock.doneWithEntry, unposted, writes]
      exact kept_of_failed kept writes isDone rfl
    | some cancellation =>
      have isDone : s.operate (.doneWithEntry trans_ (some cancellation)) =
            EntryLock.doneWritingToEntry cancellation.addTruncatedFlag.1
              { s.lock with called := [] } := by
        simp [operate, EntryLock.doneWithEntry, unposted, writes,
          Cancellation.addTruncatedFlag_of_not_rejected (stored writes)]
      cases succeeds : cancellation.addTruncatedFlag.1 with
      | false =>
        rw [succeeds] at isDone
        exact kept_of_failed kept writes isDone rfl
      | true =>
        rw [succeeds] at isDone
        refine kept_of_quiet ?_ nodup ?_
        · rw [isDone]
          exact EntryLock.holds_doneWritingToEntry_true places tracked writes
        · simp [isDone]
  · have unread : s.lock.entry.readers.isEmpty = false :=
      isEmpty_eq_false_iff.mpr (ne_nil_of_mem reads)
    have unwritten : s.lock.entry.writer.isSome = false := by
      apply Bool.eq_false_iff.mpr
      intro writes
      rw [kept.holds.exclusive writes] at reads
      cases reads
    have isDone : s.operate (.doneWithEntry trans_ cancel) =
        EntryLock.doneReadingFromEntry trans_ { s.lock with called := [] } := by
      simp [operate, EntryLock.doneWithEntry, unread, unwritten]
    refine kept_of_quiet ?_ nodup ?_
    · rw [isDone]
      exact EntryLock.holds_doneReadingFromEntry places tracked reads
    · simp [isDone]

theorem kept_perform (ok : Permitted s event) (stored : Stored s event) :
    Kept (s.perform event) := by
  have places : Places { s.lock with called := [] } s.attached :=
    { kept.holds.toPlaces with }
  have inv : Holds { s.lock with called := [] } s.attached := { kept.holds with }
  have nodup := kept.distinct
  cases event with
  | setMode trans_ mode => exact kept_of_quiet inv nodup fun _ => not_mem_nil
  | addTransactionToEntry trans_ =>
    refine @kept_of_quiet τ _ s (.addTransactionToEntry trans_)
      (EntryLock.holds_addTransactionToEntry trans_ _ places ok.1)
      (nodup_cons.mpr ⟨ok.2, nodup⟩) ?_
    simp [operate]
  | doneWithEntry trans_ cancel => exact kept_doneWithEntry kept ok stored
  | doneWritingToEntry trans_ success =>
    cases success with
    | true =>
      refine @kept_of_quiet τ _ s (.doneWritingToEntry trans_ true)
        (EntryLock.holds_doneWritingToEntry_true places ok.1 ok.2)
        (nodup.erase _) ?_
      simp [operate]
    | false => exact kept_of_failed kept ok.2 rfl rfl
  | doneReadingFromEntry trans_ =>
    refine @kept_of_quiet τ _ s (.doneReadingFromEntry trans_)
      (EntryLock.holds_doneReadingFromEntry places ok.1 ok.2)
      (nodup.erase _) ?_
    simp [operate]
  | convertWriterToReader =>
    refine @kept_of_quiet τ _ s .convertWriterToReader
      (EntryLock.holds_convertWriterToReader places ok.1 ok.2)
      nodup ?_
    simp [operate]
  | removePendingTransaction trans_ =>
    exact @kept_of_quiet τ _ s (.removePendingTransaction trans_)
      (EntryLock.holds_removePendingTransaction inv ok.1 nodup ok.2)
      (nodup.erase _) fun _ => not_mem_nil
  | doomEntry =>
    refine @kept_of_quiet τ _ s .doomEntry (EntryLock.holds_doomEntry inv ok) nodup ?_
    simp [operate]
  | onProcessPendingQueue =>
    exact @kept_of_quiet τ _ s .onProcessPendingQueue
      (EntryLock.holds_onProcessPendingQueue s.modes places ok.1 ok.2)
      nodup (EntryLock.not_raced_onProcessPendingQueue _ rfl)

/-- A writer that is cancelled with a response it may not store deletes the
entry, and posts a task for it. -/
theorem deleted_of_not_stored (rejected : ¬ Stored s event) :
    (s.perform event).lock.tracked = .deleted ∧ (s.perform event).lock.entry.pending_queue = [] ∧
        (s.perform event).lock.posted ≠ 0 := by
  cases event with
  | doneWithEntry trans_ cancel =>
    cases cancel with
    | none => exact absurd trivial rejected
    | some cancellation =>
      simp only [Stored, Classical.not_imp, not_not] at rejected
      obtain ⟨writes, rejects⟩ := rejected
      have unposted : s.lock.entry.will_process_pending_queue = false := by
        apply Bool.eq_false_iff.mpr
        intro posts
        rw [kept.holds.unwritten posts] at writes
        cases writes
      have isLock : s.operate (.doneWithEntry trans_ (some cancellation)) =
            EntryLock.doneWritingToEntry true (EntryLock.doneWritingToEntry false
                { s.lock with called := [] }) := by
        simp [operate, EntryLock.doneWithEntry, unposted, writes,
          Cancellation.addTruncatedFlag_of_rejected rejects]
      simp [perform, isLock, EntryLock.doneWritingToEntry,
        EntryLock.processPendingQueue, EntryLock.destroyEntry, unposted]
  | _ => exact absurd trivial rejected

theorem not_sound_perform (rejected : ¬ Stored s event) : ¬ Sound (s.perform event) := by
  obtain ⟨deleted, -, posted⟩ := deleted_of_not_stored kept rejected
  exact fun sound => posted (sound.deleted deleted).2

end

/-- An event of a session. -/
def step (s : Session τ) (event : Event τ) : Option (Session τ) :=
  some (s.perform event)

/-- The lock of an entry is sound in every state of a run if and only if no
writer is cancelled with a response that it may not store. -/
theorem sound_iff_stored (modes : τ -> Mode) (events : List (Event τ))
    (ok : Throughout step Permitted { modes } events) :
    Always step Sound { modes } events ↔ Throughout step Stored { modes } events := by
  refine always_iff_throughout Kept.sound ?_ ?_ ?_ ok
  · intro s event kept permits stored
    exact ⟨_, rfl, kept_perform kept permits stored⟩
  · intro s event next kept _ rejected runs
    cases runs
    exact not_sound_perform kept rejected
  · exact ⟨EntryLock.start_holds, nodup_nil⟩

/-- A resumable transaction that has read a part of its response, whose server
forbids to store it. -/
def rejectedCancellation : Cancellation where
  partial_ := true
  truncated_ := true
  done_reading_ := false
  data_size := 50
  method := "GET"
  content_length := 100
  accept_ranges_none := false
  has_strong_validators := true
  record := false
  no_store := true
  is_cert_status_error := false
  io_buf_len_ := 200
  write_data := ERR_IO_PENDING

/-- The entry of a writer, which is doomed, and then cancelled. -/
def cancelledRun (cancellation : Cancellation) : List (Event Nat) :=
  [.setMode 1 .READ_WRITE, .addTransactionToEntry 1, .doomEntry,
    .doneWithEntry 1 (some cancellation)]

theorem permitted_cancelledRun (cancellation : Cancellation) :
    Throughout step Permitted ({} : Session Nat) (cancelledRun cancellation) := by
  simp only [cancelledRun, Throughout, step, some.injEq, forall_eq']
  refine ⟨trivial, ⟨?_, not_mem_nil⟩, rfl, ⟨?_, .inl rfl⟩, trivial⟩
  · exact Tracked.noConfusion
  · exact Tracked.noConfusion

/-- A response that may be stored keeps the lock of the run sound. -/
theorem sound_iff_stored_cancelledRun : Throughout step Permitted ({} : Session Nat)
        (cancelledRun { rejectedCancellation with no_store := false }) ∧
      (Always step Sound ({} : Session Nat)
          (cancelledRun { rejectedCancellation with no_store := false }) ↔
        Throughout step Stored ({} : Session Nat)
          (cancelledRun { rejectedCancellation with no_store := false })) :=
  ⟨permitted_cancelledRun _, sound_iff_stored _ _ (permitted_cancelledRun _)⟩

/-- The entry is deleted while a task is posted for it. -/
theorem not_always_sound : ¬ ∀ events : List (Event Nat),
      Throughout step Permitted ({} : Session Nat) events ->
        Always step Sound ({} : Session Nat) events := by
  intro always
  obtain ⟨last, reaches, sound⟩ := (always _ (permitted_cancelledRun rejectedCancellation)).last
  simp only [cancelledRun, foldlM_cons, foldlM_nil, step, bind_eq_bind, bind_some, Option.pure_def,
    some.injEq] at reaches
  subst reaches
  exact absurd (sound.deleted rfl).2 Nat.one_ne_zero

/-- The first that waits is served next when nobody has the entry. -/
def ServesFirst (s : Session τ) : Prop :=
  ∀ first rest, s.lock.entry.pending_queue = first :: rest -> s.lock.entry.writer = none ->
    s.lock.entry.readers = [] -> s.lock.posted = 1 ∧
      let lock := (s.perform .onProcessPendingQueue).lock
      lock.entry.pending_queue = rest ∧ lock.called = [(first, .OK)] ∧
        lock.entry.writer.toList ++ lock.entry.readers = [first]

theorem Kept.servesFirst (kept : Kept s) : ServesFirst s := by
  intro first rest waits unwritten unread
  have posts : s.lock.entry.will_process_pending_queue = true := by
    simpa [waits, unwritten, unread] using kept.holds.awaited
  refine ⟨kept.holds.posted.trans (if_pos posts), ?_⟩
  cases isMode : (s.modes first).writes <;> cases rest <;>
    simp [perform, operate, EntryLock.onProcessPendingQueue, EntryLock.addTransactionToEntry,
      EntryLock.processPendingQueue, waits, unwritten, unread, isMode]

/-- No transaction waits for nothing: unless a writer is cancelled with a response
that it may not store, a task is posted whenever somebody waits for an entry
that nobody has, and it gives the entry to the first. -/
theorem servesFirst_of_stored (modes : τ -> Mode) (events : List (Event τ))
    (ok : Throughout step (fun s event => Permitted s event ∧ Stored s event) { modes } events) :
    Holding step ServesFirst { modes } events := by
  refine holding_of_throughout Kept.servesFirst ?_ ⟨EntryLock.start_holds, nodup_nil⟩ ok
  rintro s event next kept ⟨permits, stored⟩ ⟨⟩
  exact kept_perform kept permits stored

/-- A second transaction waits for the first to have written. -/
theorem servesFirst_of_stored_two : Holding step ServesFirst ({} : Session Nat) [.setMode 1 .WRITE,
    .addTransactionToEntry 1, .addTransactionToEntry 2, .doneWritingToEntry 1 true] := by
  apply servesFirst_of_stored
  simp only [Throughout, step, some.injEq, forall_eq']
  exact ⟨⟨trivial, trivial⟩, ⟨⟨nofun, not_mem_nil⟩, trivial⟩,
    ⟨⟨nofun, by decide⟩, trivial⟩, ⟨⟨nofun, rfl⟩, trivial⟩, trivial⟩

end Session

end HttpCache

end Chromium.Net
