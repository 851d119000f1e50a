import Chromium.Gpu.CommandTransport
import Chromium.Gpu.TransferBuffers
import Chromium.Library.Bytes
import Chromium.Library.Loop

/-!
# The command parser and the common commands

The client shares the ring buffer and the transfer buffers with the service and
may write to them at any time, so that every command is processed over memory
of its own. A handler gives, with its result, the bytes that it reads or
writes.
-/

namespace Chromium.Gpu.Decoder

open List
open Library
open Transport (headerSize headerCommand SetsGet)

/-- `error::Error`. -/
inductive Error
  | kNoError
  | kInvalidSize
  | kOutOfBounds
  | kUnknownCommand
  | kInvalidArguments
  | kLostContext
  | kGenericError
  | kWaiting
  | kYield
  deriving DecidableEq

/-- Some bytes of a block of memory of a length. -/
structure Access where
  offset : Int
  size : Int
  length : Int

def Access.Inside (access : Access) : Prop :=
  0 <= access.offset ∧ access.offset + access.size <= access.length

/-- The entries of the ring buffer and the transfer buffers, at one time. -/
structure Memory where
  buffer : Int -> UInt32
  transferBuffer : Int -> Option Bytes

/-- The members of `CommandBufferService`, `CommandParser` and `CommonDecoder`
that take part in processing commands. -/
structure Service where
  numEntries : Int
  putOffset : Int
  error : Error
  entryCount : Int
  get : Int
  put : Int
  token : Int
  callStack : List Nat
  buckets : Nat -> Option Bytes

def kMaxCommandBufferSize : Int := 4 * 1024 * 1024

def kMaxStackDepth : Nat := 32

/-- `CommandBufferService::Initialize`, and the parser for its ring buffer. -/
def initialize? (size : Int) : Option Service :=
  if size <= 0 ∨ kMaxCommandBufferSize < size then none
  else some ⟨size / 4, 0, .kNoError, size / 4, 0, 0, 0, [], fun _ => none⟩

/-- `Flush` and `FlushSync`, with the callback that sets the put offset of the
parser. -/
def flush (service : Service) (put_offset : Int) : Service :=
  if put_offset < 0 ∨ service.numEntries < put_offset then { service with error := .kOutOfBounds }
  else { service with putOffset := put_offset, put := put_offset }

/-- What a handler leaves. -/
structure Result where
  error : Error
  service : Service
  accesses : List Access

def done (service : Service) (accesses : List Access) : Result := ⟨.kNoError, service, accesses⟩

def invalid (service : Service) (accesses : List Access) : Result :=
  ⟨.kInvalidArguments, service, accesses⟩

section

variable (memory : Memory)

/-- An argument of the command at the get offset. -/
def arg (service : Service) (index : Int) : Nat := (memory.buffer (service.get + index)).toNat

/-- `SetGetOffset`. -/
def setGetOffset (service : Service) (offset : Int) : Option Service :=
  let get := toInt32 offset
  if 0 <= get ∧ get < service.entryCount then some { service with get }
  else none

/-- `PushAddress`. -/
def pushAddress (service : Service) (offset : Int) : Option Service :=
  if service.callStack.length < kMaxStackDepth then
    (setGetOffset service offset).map fun next =>
      { next with
        callStack := (service.get % 2 ^ 32).toNat :: service.callStack }
  else none

/-- The result of a handler that only moves the get offset. -/
def moved (service : Service) : Option Service -> Result
  | none => invalid service []
  | some next => done next []

/-- `GetAddressAndCheckSize`: the buffer, if the bytes are inside. -/
def getAddressAndCheckSize (shm_id offset size : Nat) : Option Bytes :=
  match memory.transferBuffer (toInt32 shm_id) with
  | none => none
  | some bytes =>
    let end_ := (offset + size) % 2 ^ 32
    if bytes.length < end_ ∨ end_ < offset then none else some bytes

/-- `Bucket::OffsetSizeValid`, where `size_t` has 64 bits. -/
def offsetSizeValid (bucket : Bytes) (offset size : Nat) : Bool :=
  let temp := (offset + size) % 2 ^ 64
  temp <= bucket.length ∧ offset <= temp

/-- `Bucket::SetSize`. -/
def setSize (bucket : Bytes) (size : Nat) : Bytes :=
  if size ≠ bucket.length then List.replicate size 0 else bucket

def setBucket (service : Service) (bucket_id : Nat) (bucket : Bytes) : Service :=
  { service with
    buckets := fun id => if id = bucket_id then some bucket else service.buckets id }

/-- `GetBucket` and `Bucket::SetData`, with bytes that have been read. -/
def setData (service : Service) (bucket_id offset : Nat) (data : Bytes)
    (size : Nat) (read : Access) : Result :=
  match service.buckets bucket_id with
  | none => invalid service []
  | some bucket =>
    if offsetSizeValid bucket offset size then
      done (setBucket service bucket_id (bucket.take offset ++ data ++ bucket.drop (offset + size)))
        [read, ⟨offset, size, bucket.length⟩]
    else invalid service []

def handleSetToken (service : Service) : Result :=
  done { service with token := toInt32 (arg memory service 1) } []

def handleJump (service : Service) : Result :=
  moved service (setGetOffset service (arg memory service 1))

def handleJumpRelative (service : Service) : Result :=
  moved service (setGetOffset service (service.get + toInt32 (arg memory service 1)))

def handleCall (service : Service) : Result :=
  moved service (pushAddress service (arg memory service 1))

def handleCallRelative (service : Service) : Result :=
  moved service (pushAddress service (service.get + toInt32 (arg memory service 1)))

def handleReturn (service : Service) : Result :=
  match service.callStack with
  | [] => invalid service []
  | return_address :: callStack =>
    let popped := { service with callStack }
    moved popped (setGetOffset popped return_address)

def handleSetBucketSize (service : Service) : Result :=
  let bucket_id := arg memory service 1
  let bucket := (service.buckets bucket_id).getD []
  done (setBucket service bucket_id (setSize bucket (arg memory service 2))) []

def handleSetBucketData (service : Service) : Result :=
  let size := arg memory service 3
  let offset := arg memory service 5
  match getAddressAndCheckSize memory (arg memory service 4) offset size with
  | none => invalid service []
  | some bytes =>
    setData service (arg memory service 1) (arg memory service 2)
      ((bytes.drop offset).take size) size ⟨offset, size, bytes.length⟩

/-- The bytes of the entries of the ring buffer from a place on. -/
def immediateData (first : Int) (size : Nat) : Bytes :=
  (List.range size).map fun index =>
    ((memory.buffer (first + (index / 4 : Nat))).toNat / 2 ^ (8 * (index % 4)) ).toUInt8

def handleSetBucketDataImmediate (service : Service) (immediate_data_size : Nat) : Result :=
  let size := arg memory service 3
  if immediate_data_size < size then invalid service []
  else
    setData service (arg memory service 1) (arg memory service 2)
      (immediateData memory (service.get + 4) size) size
      ⟨4 * (service.get + 4), size, 4 * service.entryCount⟩

def handleGetBucketSize (service : Service) : Result :=
  let offset := arg memory service 3
  match getAddressAndCheckSize memory (arg memory service 2) offset 4 with
  | none => invalid service []
  | some bytes =>
    let accesses := [⟨offset, 4, bytes.length⟩]
    if ((bytes.drop offset).take 4).any (· != 0) then invalid service accesses
    else
      match service.buckets (arg memory service 1) with
      | none => invalid service accesses
      | some _ => done service accesses

def handleGetBucketData (service : Service) : Result :=
  let offset := arg memory service 2
  let size := arg memory service 3
  let shared_memory_offset := arg memory service 5
  match getAddressAndCheckSize memory (arg memory service 4) shared_memory_offset size with
  | none => invalid service []
  | some bytes =>
    match service.buckets (arg memory service 1) with
    | none => invalid service []
    | some bucket =>
      if offsetSizeValid bucket offset size then
        done service [⟨offset, size, bucket.length⟩, ⟨shared_memory_offset, size, bytes.length⟩]
      else invalid service []

/-- `g_command_info`: whether more arguments are allowed, and their number. -/
def commandInfo : List (Bool × Nat) :=
  [(true, 0), (false, 1), (false, 1), (false, 1), (false, 1), (false, 1),
    (false, 0), (false, 2), (false, 5), (true, 3), (false, 3), (false, 5),
    (false, 0)]

/-- The handler of a common command. -/
def handle (service : Service) (immediate_data_size : Nat) : Nat -> Result
  | 0 => done service []
  | 1 => handleSetToken memory service
  | 2 => handleJump memory service
  | 3 => handleJumpRelative memory service
  | 4 => handleCall memory service
  | 5 => handleCallRelative memory service
  | 6 => handleReturn service
  | 7 => handleSetBucketSize memory service
  | 8 => handleSetBucketData memory service
  | 9 => handleSetBucketDataImmediate memory service immediate_data_size
  | 10 => handleGetBucketSize memory service
  | 11 => handleGetBucketData memory service
  | _ => ⟨.kYield, service, []⟩

/-- `DoCommonCommand`, which for a command that it does not know calls itself
and never returns. -/
def doCommonCommand (service : Service) (command arg_count : Nat) : Option Result :=
  match commandInfo[command]? with
  | none => none
  | some (atLeastN, info_arg_count) =>
    if arg_count = info_arg_count ∨ atLeastN ∧ info_arg_count <= arg_count then
      let result := handle memory service ((arg_count - info_arg_count) * 4) command
      some { result with
        accesses := ⟨4 * (service.get + 1), 4 * info_arg_count,
          4 * service.entryCount⟩ :: result.accesses }
    else some (invalid service [])

/-- `ProcessCommand`. -/
def processCommand (service : Service) : Option Result :=
  let get := service.get
  if get = service.put then some (done service [])
  else
    let header := (memory.buffer get).toNat
    let size := headerSize header
    let read : Access := ⟨4 * get, 4, 4 * service.entryCount⟩
    if size = 0 then some ⟨.kInvalidSize, service, [read]⟩
    else if service.entryCount < size + get then some ⟨.kOutOfBounds, service, [read]⟩
    else
      (doCommonCommand memory service (headerCommand header) (size - 1)).map fun result =>
          ⟨result.error, if result.error ≠ .kWaiting ∧ get = result.service.get then
              { result.service with get := (get + size) % service.entryCount }
            else result.service,
            read :: ⟨4 * get, 4 * size, 4 * service.entryCount⟩ :: result.accesses⟩

/-- A turn of `ProcessAllCommands`. -/
def processAllTurn (service : Service) : Service ⊕ Option (Error × Service) :=
  if service.get = service.put then .inr (some (.kNoError, service))
  else
    match processCommand memory service with
    | none => .inr none
    | some result =>
      if result.error = .kNoError then .inl result.service
      else .inr (some (result.error, result.service))

end

/-- What the client makes the service do. -/
inductive Event
  | flush (put_offset : Int)
  | process (memory : Memory)

def step (service : Service) : Event -> Option Service
  | .flush put_offset => some (flush service put_offset)
  | .process memory => (processCommand memory service).map (·.service)

/-- Commands from the get offset to the put offset, none of which is an error
or sets the get offset itself. The end of the buffer may be followed by its
start. -/
inductive StraightLine (memory : Memory) : Service -> Prop
  | done {service : Service} (ended : service.get = service.put) : StraightLine memory service
  | command {service : Service} {size : Nat} {result : Result} {next : Int}
      (isSize : headerSize (memory.buffer service.get).toNat = size)
      (pos : 0 < size)
      (fits : service.get + size <= service.entryCount)
      (straight : ¬SetsGet (headerCommand (memory.buffer service.get).toNat))
      (does : doCommonCommand memory service
        (headerCommand (memory.buffer service.get).toNat) (size - 1) = some result)
      (noError : result.error = .kNoError)
      (behind : next = service.get + size ∨ service.get + size = service.entryCount ∧ next = 0)
      (rest : StraightLine memory { result.service with get := next }) :
      StraightLine memory service

/-- Processing a straight line of commands ends at the put offset. -/
def ConsumesStraightLines (service : Service) : Prop :=
  ∀ memory, StraightLine memory service ->
    ∃ last, Ends (processAllTurn memory) service (some (.kNoError, last)) ∧ last.get = service.put

/-- The state of the service is inside its bounds. -/
structure Confined (service : Service) : Prop where
  nonneg : 0 <= service.get
  inside : service.get < service.entryCount
  depth : service.callStack.length <= kMaxStackDepth

/-- What is wanted of an event: a put offset that is accepted can be reached,
and commands are processed inside the bounds. -/
def Meets (service : Service) : Event -> Prop
  | .flush put_offset =>
    0 <= put_offset ∧ put_offset <= service.numEntries -> put_offset < service.entryCount ∧
        ConsumesStraightLines (flush service put_offset)
  | .process memory =>
    ∀ result, processCommand memory service = some result ->
      ∀ access ∈ result.accesses, access.Inside

section Handlers

variable {memory : Memory} {service : Service} {result : Result}

theorem arg_lt (i : Int) : arg memory service i < 2 ^ 32 := UInt32.toNat_lt _

theorem getAddressAndCheckSize_inside
    (hit : getAddressAndCheckSize memory shm_id offset size = some bytes)
    (offsetSmall : offset < 2 ^ 32) (sizeSmall : size < 2 ^ 32) :
    offset + size <= bytes.length := by
  unfold getAddressAndCheckSize at hit
  split at hit
  · cases hit
  · dsimp only at hit
    split_ifs at hit with outside
    cases hit
    omega

/-- Nothing but the token and the buckets has changed, and all accesses are
inside. -/
def Stays (service : Service) (result : Result) : Prop :=
  (∃ token buckets, result.service = { service with token, buckets }) ∧
    ∀ access ∈ result.accesses, access.Inside

theorem stays_invalid : Stays service (invalid service []) :=
  ⟨⟨service.token, service.buckets, rfl⟩, by simp [invalid]⟩

theorem stays_setData {read : Access} (small : offset + size < 2 ^ 64) (inside : read.Inside) :
    Stays service (setData service bucket_id offset data size read) := by
  unfold setData
  split
  · exact stays_invalid
  · split_ifs with valid
    · refine ⟨⟨_, _, rfl⟩, ?_⟩
      simp only [offsetSizeValid, Nat.mod_eq_of_lt small, decide_eq_true_eq] at valid
      simp only [done, forall_mem_cons, not_mem_nil, false_implies, implies_true, and_true]
      exact ⟨inside, by simp [Access.Inside]; omega⟩
    · exact stays_invalid

theorem stays_handle {command immediate_data_size info_arg_count : Nat} {atLeastN : Bool}
    (info : commandInfo[command]? = some (atLeastN, info_arg_count))
    (straight : ¬SetsGet command) (start : 0 <= service.get)
    (fits : 4 * (service.get + 1 + info_arg_count) + immediate_data_size ≤ 4 * service.entryCount) :
    Stays service (handle memory service immediate_data_size command) := by
  have same : ∃ token buckets, service = { service with token, buckets } :=
    ⟨service.token, service.buckets, rfl⟩
  have bound := fun i => @arg_lt memory service i
  unfold handle
  split
  · exact ⟨same, by simp [done]⟩
  · exact ⟨⟨_, service.buckets, rfl⟩, by simp [handleSetToken, done]⟩
  · exact absurd (by decide) straight
  · exact absurd (by decide) straight
  · exact absurd (by decide) straight
  · exact absurd (by decide) straight
  · exact absurd (by decide) straight
  · exact ⟨⟨service.token, _, rfl⟩, by simp [handleSetBucketSize, done]⟩
  · unfold handleSetBucketData
    dsimp only
    split
    · exact stays_invalid
    · rename_i found
      apply stays_setData
      · have := bound 2
        have := bound 3
        omega
      · have inside := getAddressAndCheckSize_inside found (bound _) (bound _)
        simp only [Access.Inside]
        omega
  · unfold handleSetBucketDataImmediate
    dsimp only
    split_ifs with short
    · exact stays_invalid
    · cases info
      apply stays_setData
      · have := bound 2
        have := bound 3
        omega
      · simp only [Access.Inside]
        omega
  · unfold handleGetBucketSize
    dsimp only
    split
    · exact stays_invalid
    · rename_i found
      have inside := getAddressAndCheckSize_inside found (bound _) (by decide)
      split_ifs
      · exact ⟨same, by simp [invalid, Access.Inside]; omega⟩
      · split
        · exact ⟨same, by simp [invalid, Access.Inside]; omega⟩
        · exact ⟨same, by simp [done, Access.Inside]; omega⟩
  · unfold handleGetBucketData
    dsimp only
    split
    · exact stays_invalid
    · rename_i found
      have inside := getAddressAndCheckSize_inside found (bound _) (bound _)
      split
      · exact stays_invalid
      · split_ifs with ok
        · have := bound 2
          have := bound 3
          simp only [offsetSizeValid, decide_eq_true_eq] at ok
          exact ⟨same, by simp [done, Access.Inside]; omega⟩
        · exact stays_invalid
  · exact ⟨same, by simp⟩

/-- The state stays confined, and all accesses are inside. -/
structure Respects (service : Service) (result : Result) : Prop where
  numEntries : result.service.numEntries = service.numEntries
  entryCount : result.service.entryCount = service.entryCount
  put : result.service.put = service.put
  confined : Confined result.service
  inside : ∀ access ∈ result.accesses, access.Inside

theorem Stays.respects (stays : Stays service result) (confined : Confined service) :
    Respects service result := by
  obtain ⟨⟨token, buckets, same⟩, inside⟩ := stays
  refine ⟨?_, ?_, ?_, ?_, inside⟩
  · rw [same]
  · rw [same]
  · rw [same]
  · rw [same]
    exact ⟨confined.nonneg, confined.inside, confined.depth⟩

theorem respects_setGetOffset (confined : Confined service) (off : Int) :
    Respects service (moved service (setGetOffset service off)) := by
  unfold setGetOffset
  dsimp only
  split_ifs with inside
  · exact ⟨rfl, rfl, rfl, ⟨inside.1, inside.2, confined.depth⟩, by simp [moved, done]⟩
  · exact stays_invalid.respects confined

theorem respects_pushAddress (confined : Confined service) :
    Respects service (moved service (pushAddress service offset)) := by
  unfold pushAddress setGetOffset
  dsimp only
  split_ifs with shallow inside
  · exact ⟨rfl, rfl, rfl, ⟨inside.1, inside.2, shallow⟩, by simp [moved, done]⟩
  · exact stays_invalid.respects confined
  · exact stays_invalid.respects confined

theorem Respects.of_pop (respects : Respects { service with callStack } result) :
    Respects service result :=
  ⟨respects.numEntries, respects.entryCount, respects.put, respects.confined, respects.inside⟩

theorem respects_handleReturn (confined : Confined service) :
    Respects service (handleReturn service) := by
  unfold handleReturn
  split
  · exact stays_invalid.respects confined
  · rename_i return_address callStack isStack
    have shallow := confined.depth
    rw [isStack, length_cons] at shallow
    have popped := @respects_setGetOffset { service with callStack }
      ⟨confined.nonneg, confined.inside, Nat.le_of_succ_le shallow⟩ return_address
    exact popped.of_pop

theorem respects_handle (confined : Confined service)
    {immediate_data_size command : Nat} (sets : SetsGet command) :
    Respects service (handle memory service immediate_data_size command) := by
  unfold handle
  split
  · exact absurd sets (by decide)
  · exact absurd sets (by decide)
  · exact respects_setGetOffset confined _
  · exact respects_setGetOffset confined _
  · exact respects_pushAddress confined
  · exact respects_pushAddress confined
  · exact respects_handleReturn confined
  · exact absurd sets (by decide)
  · exact absurd sets (by decide)
  · exact absurd sets (by decide)
  · exact absurd sets (by decide)
  · exact absurd sets (by decide)
  · unfold SetsGet Transport.kJump Transport.kJumpRelative Transport.kCall
      Transport.kCallRelative Transport.kReturn at sets
    rcases sets with is | is | is | is | is <;> contradiction

theorem doCommonCommand_respects
    (does : doCommonCommand memory service command arg_count = some result)
    (confined : Confined service) (fits : service.get + 1 + arg_count <= service.entryCount) :
    Respects service result ∧ (¬SetsGet command -> result.service.get = service.get) := by
  unfold doCommonCommand at does
  split at does
  · cases does
  · rename_i atLeastN info_arg_count info
    split_ifs at does with counts
    · cases does
      have start := confined.nonneg
      have arguments : (⟨4 * (service.get + 1), 4 * info_arg_count,
          4 * service.entryCount⟩ : Access).Inside := by
        simp only [Access.Inside]
        omega
      by_cases sets : SetsGet command
      · have respects := @respects_handle memory service confined
          ((arg_count - info_arg_count) * 4) _ sets
        exact ⟨⟨respects.numEntries, respects.entryCount, respects.put,
          respects.confined, forall_mem_cons.mpr
            ⟨arguments, respects.inside⟩⟩, fun straight => absurd sets straight⟩
      · have stays := @stays_handle memory service command
          ((arg_count - info_arg_count) * 4) _ _ info sets start (by omega)
        have respects := stays.respects confined
        refine ⟨⟨respects.numEntries, respects.entryCount, respects.put,
          respects.confined, forall_mem_cons.mpr ⟨arguments, respects.inside⟩⟩, fun _ => ?_⟩
        obtain ⟨⟨token, buckets, same⟩, -⟩ := stays
        exact (congrArg Service.get same).trans rfl
    · cases does
      exact ⟨stays_invalid.respects confined, fun _ => rfl⟩

theorem processCommand_respects (processes : processCommand memory service = some result)
    (confined : Confined service) :
    Respects service result := by
  have start := confined.nonneg
  have stop := confined.inside
  have read : (⟨4 * service.get, 4, 4 * service.entryCount⟩ : Access).Inside := by
    simp only [Access.Inside]
    omega
  unfold processCommand at processes
  dsimp only at processes
  split_ifs at processes with empty zero outside
  · cases processes
    exact ⟨rfl, rfl, rfl, confined, by simp [done]⟩
  · cases processes
    exact ⟨rfl, rfl, rfl, confined, by simpa using read⟩
  · cases processes
    exact ⟨rfl, rfl, rfl, confined, by simpa using read⟩
  · obtain ⟨handled, does, rfl⟩ := Option.map_eq_some_iff.mp processes
    have respects := (doCommonCommand_respects does confined (by omega)).1
    have command : (⟨4 * service.get, 4 * headerSize (memory.buffer
        service.get).toNat, 4 * service.entryCount⟩ : Access).Inside := by
      simp only [Access.Inside]
      omega
    have inside := forall_mem_cons.mpr ⟨read, forall_mem_cons.mpr ⟨command, respects.inside⟩⟩
    split_ifs with advances
    · have behind : (service.get + headerSize (memory.buffer service.get).toNat) %
          service.entryCount < handled.service.entryCount := by
        rw [respects.entryCount]
        exact Int.emod_lt_of_pos _ (by omega)
      exact ⟨respects.numEntries, respects.entryCount, respects.put,
        ⟨Int.emod_nonneg _ (by omega), behind, respects.confined.depth⟩, inside⟩
    · exact ⟨respects.numEntries, respects.entryCount, respects.put, respects.confined, inside⟩

theorem consumesStraightLines (confined : Confined service)
    (reachable : service.put < service.entryCount) :
    ConsumesStraightLines service := by
  intro memory straightLine
  induction straightLine with
  | done ended => exact ⟨_, .stop (if_pos ended), ended⟩
  | @command service size result next isSize pos fits straight does noError behind rest ih =>
    by_cases ended : service.get = service.put
    · exact ⟨_, .stop (if_pos ended), ended⟩
    have start := confined.nonneg
    obtain ⟨respects, sameGet⟩ := doCommonCommand_respects does confined (by omega)
    have sameCount := respects.entryCount
    have samePut := respects.put
    by_cases last : next = service.entryCount
    · -- a line that goes on behind the last entry cannot end
      exfalso
      cases rest with
      | done stopped =>
        dsimp only at stopped
        omega
      | command _ pos fits _ _ _ _ _ =>
        dsimp only at fits
        omega
    · have advanced : (service.get + size) % service.entryCount = next := by
        rcases behind with ahead | ⟨full, atStart⟩
        · rw [← ahead, Int.emod_eq_of_lt (by omega) (by omega)]
        · rw [full, Int.emod_self, atStart]
      have turned : processAllTurn memory service = .inl { result.service with get := next } := by
        simp only [processAllTurn, processCommand]
        rw [if_neg ended, if_neg ended, isSize, if_neg pos.ne', if_neg (by omega), does]
        simp [noError, sameGet straight, advanced]
      obtain ⟨final, ends, atPut⟩ := ih
        ⟨by dsimp only; omega, by dsimp only; omega, respects.confined.depth⟩
        (by dsimp only; omega)
      exact ⟨final, .next turned ends, atPut.trans samePut⟩

end Handlers

/-- A confined service whose two views of the buffer agree. -/
def Kept (service : Service) : Prop := Confined service ∧ service.numEntries = service.entryCount

theorem Kept.flush (kept : Kept service) (put_offset : Int) : Kept (flush service put_offset) := by
  obtain ⟨⟨nonneg, inside, depth⟩, same⟩ := kept
  unfold Decoder.flush
  split_ifs
  · exact ⟨⟨nonneg, inside, depth⟩, same⟩
  · exact ⟨⟨nonneg, inside, depth⟩, same⟩

theorem Kept.step {service next : Service} (kept : Kept service)
    (runs : step service event = some next) :
    Kept next := by
  cases event with
  | flush put_offset =>
    cases runs
    exact kept.flush put_offset
  | process memory =>
    obtain ⟨result, processes, rfl⟩ := Option.map_eq_some_iff.mp runs
    have respects := processCommand_respects processes kept.1
    exact ⟨respects.confined, by
      rw [respects.numEntries, respects.entryCount]
      exact kept.2⟩

theorem Kept.meets_iff (kept : Kept service) :
    Meets service event ↔ event ≠ .flush service.numEntries := by
  have start := kept.1.nonneg
  have stop := kept.1.inside
  have same := kept.2
  cases event with
  | flush put_offset =>
    constructor
    · rintro meets ⟨⟩
      have reachable := (meets ⟨by omega, le_refl _⟩).1
      omega
    · rintro other ⟨nonneg, ok⟩
      have reachable : put_offset < service.entryCount := by
        have ne : put_offset ≠ service.numEntries :=
          fun equal => other (congrArg Event.flush equal)
        omega
      refine ⟨reachable, consumesStraightLines (kept.flush put_offset).1 ?_⟩
      rw [Decoder.flush, if_neg (by omega)]
      exact reachable
  | process memory =>
    refine iff_of_true (fun result processes => ?_) (by simp)
    exact (processCommand_respects processes kept.1).inside

end Chromium.Gpu.Decoder
