import Chromium.Library.Tiling
import Chromium.Library.Run

/-!
# The command transport

The client writes commands into a ring buffer of entries in shared memory and
tells the service its put offset by flushing. The parser of the service
executes the commands between its get and put offsets, and the client learns
the get offset when a synchronous flush returns.

A step of the client takes the helper from one point at which it looks at the
service, or writes to the memory, to the next. A step of the service processes
one command. The steps of the two interleave freely. The handler of the
service decides the result of every command but a jump.

Entries are natural numbers below `2 ^ 32`. The offsets of the client are
small enough for exact arithmetic.
-/

namespace Chromium.Gpu.Transport

open Library

def kJump : Nat := 2
def kJumpRelative : Nat := 3
def kCall : Nat := 4
def kCallRelative : Nat := 5
def kReturn : Nat := 6

/-- The number of entries of a jump. -/
def kJumpEntries : Nat := 2

/-- `CommandHeader::size`, the low 21 bits of an entry. -/
def headerSize (entry : Nat) : Nat := entry % 2 ^ 21

/-- `CommandHeader::command`, the high 11 bits of an entry. -/
def headerCommand (entry : Nat) : Nat := entry / 2 ^ 21 % 2 ^ 11

/-- `cmd::Jump::Set`: the entries of a jump to an offset. -/
def jump (offset : Nat) : List Nat := [kJump * 2 ^ 21 + kJumpEntries, offset]

/-- Whether a command may set the get offset of the parser itself. -/
def SetsGet (command : Nat) : Prop :=
  command = kJump ∨ command = kJumpRelative ∨ command = kCall ∨
    command = kCallRelative ∨ command = kReturn

instance (command : Nat) : Decidable (SetsGet command) := inferInstanceAs (Decidable (_ ∨ _))

/-- A command of a number of entries whose header says so, and that does not
jump. -/
def WellFormedCommand (count : Nat) (entries : List Nat) : Prop :=
  entries.length = count ∧ headerSize (entries.getD 0 0) = count ∧
    ¬SetsGet (headerCommand (entries.getD 0 0))

/-- The sizes of the ring buffer that the service and the client see. The
client refuses a size that exceeds that of the service. -/
structure Config where
  numEntries : Nat
  totalEntryCount : Nat
  fits : totalEntryCount <= numEntries

section

variable (config : Config)

/-- The entries that hold commands, without the last jump. -/
def Config.usableEntryCount : Nat := config.totalEntryCount - kJumpEntries

/-- Where the client is inside a call of the helper. -/
inductive Progress
  | idle
  | wrapping (count : Nat)
  | wrappingSync (count : Nat)
  | waiting (count : Nat)
  | waitingSync (count : Nat)
  | taking (count : Nat)
  | filling (space count : Nat)
  | flushingSync
  | finishing
  deriving DecidableEq

/-- The members of `CommandBufferHelper`, and its progress. -/
structure Client where
  get : Nat
  put : Nat
  lastPutSent : Nat
  progress : Progress

/-- The errors that the service reports. -/
inductive Error
  | invalidSize
  | outOfBounds
  | invalidArguments
  | handler
  deriving DecidableEq

/-- The members of `CommandBufferService` and `CommandParser`. -/
structure Service where
  putOffset : Nat
  getOffset : Nat
  parserGet : Nat
  parserPut : Nat
  error : Option Error

/-- Both parties and the memory they share, with the commands that the client
issued, those that the service executed, and the ranges of entries that the
client took and the service has not consumed yet. -/
structure State where
  client : Client
  service : Service
  memory : Nat -> Nat
  issued : List (List Nat)
  executed : List (List Nat)
  unconsumed : List (Nat × Nat)

/-- Client and service right after their initialization. -/
def start (memory : Nat -> Nat) : State where
  client := ⟨0, 0, 0, .idle⟩
  service := ⟨0, 0, 0, 0, none⟩
  memory := memory
  issued := []
  executed := []
  unconsumed := []

/-- `CommandBufferService::Flush` and `FlushSync`, with the callback that sets
the put offset of the parser. -/
def Service.flush (service : Service) (put : Nat) : Service :=
  if config.numEntries < put then { service with error := some .outOfBounds }
  else { service with putOffset := put, parserPut := put }

/-- What the handler does with a command. A command that is done may have set
the get offset of the parser. -/
inductive Outcome
  | waiting
  | done (getSet : Option Nat)
  | failed

/-- Set the get offsets of the parser and of the service. -/
def Service.setGet (service : Service) (get : Nat) : Service :=
  { service with parserGet := get, getOffset := get }

/-- The get offset behind a command, if nothing else has set it. -/
def getBehind (get size : Nat) (now : Nat) : Nat :=
  if get = now then (get + size) % config.numEntries else now

variable (state : State)

/-- `CommandParser::ProcessCommand` on a parser that is not empty, and what the
scheduler does with its result. -/
def processCommand (outcome : Outcome) : State :=
  let get := state.service.parserGet
  let header := state.memory get
  let size := headerSize header
  let fail (service : Service) (error : Error) : State :=
    { state with service := { service with error := some error } }
  if size = 0 then fail state.service .invalidSize
  else if config.numEntries < size + get then fail state.service .outOfBounds
  else if headerCommand header = kJump then
    let offset := state.memory (get + 1)
    if size ≠ kJumpEntries ∨ ¬offset < config.numEntries then
      fail (state.service.setGet (getBehind config get size get)) .invalidArguments
    else
      { state with
        service := state.service.setGet (getBehind config get size offset)
        unconsumed := state.unconsumed.erase (get, size) }
  else
    match outcome with
    | .waiting => state
    | .done getSet =>
      { state with
        service := state.service.setGet (getBehind config get size (getSet.getD get))
        executed := state.executed ++ [Cells.read state.memory get size]
        unconsumed := state.unconsumed.erase (get, size) }
    | .failed => fail (state.service.setGet (getBehind config get size get)) .handler

/-- `CommandBufferHelper::AvailableEntries`. -/
def availableEntries (client : Client) : Int :=
  ((client.get : Int) - client.put - 1 + config.usableEntryCount).tmod config.usableEntryCount

/-- Whether `WaitForAvailableEntries` forces a flush at its end. -/
def forcesFlush (client : Client) : Bool :=
  config.usableEntryCount / (if client.get = client.lastPutSent then 16 else 2) <
    (client.put + config.usableEntryCount - client.lastPutSent) % config.usableEntryCount

/-- Whether the put offset may not yet wrap around. -/
def blocksWrap (client : Client) : Bool := client.put < client.get ∨ client.get = 0

/-- `CommandBufferHelper::Flush`, and the first half of `FlushSync`. -/
def send (progress : Progress) : State :=
  { state with
    client := { state.client with
      lastPutSent := state.client.put, progress := progress }
    service := state.service.flush config state.client.put }

/-- The second half of `FlushSync`: the client learns the get offset. -/
def synchronize (progress : Progress) : State :=
  { state with
    client := { state.client with
      get := state.service.getOffset, progress := progress } }

/-- The ranges of entries that the next step of the client takes over. -/
def taken (client : Client) : List (Nat × Nat) :=
  match client.progress with
  | .wrapping _ => if blocksWrap client then [] else [(client.put, kJumpEntries)]
  | .taking count =>
    (client.put, count) :: if client.put + count = config.usableEntryCount then
        [(client.put + count, kJumpEntries)]
      else []
  | _ => []

/-- Insert a jump back to the beginning. -/
def insertJump (count : Nat) : State :=
  { state with
    client := { state.client with put := 0, progress := .waiting count }
    memory := Cells.write state.memory state.client.put (jump 0)
    unconsumed := state.unconsumed ++ taken config state.client }

/-- The end of `CommandBufferHelper::GetSpace`. -/
def takeSpace (count : Nat) : State :=
  let put := state.client.put + count
  let wraps := put = config.usableEntryCount
  { state with
    client := { state.client with
      put := if wraps then 0 else put
      progress := .filling state.client.put count }
    memory := if wraps then Cells.write state.memory put (jump 0) else state.memory
    unconsumed := state.unconsumed ++ taken config state.client }

/-- The next step of the client inside a call, unless it is in none. -/
def continueCall : Option State :=
  match state.client.progress with
  | .idle | .filling _ _ => none
  | .wrapping count =>
    if blocksWrap state.client then some (send config state (.wrappingSync count))
    else some (insertJump config state count)
  | .wrappingSync count =>
    some (synchronize state (if state.service.error = none then .wrapping count else .taking count))
  | .waiting count =>
    if availableEntries config state.client < count then
      some (send config state (.waitingSync count))
    else if forcesFlush config state.client then some (send config state (.taking count))
    else
      some { state with
        client := { state.client with progress := .taking count } }
  | .waitingSync count =>
    some (synchronize state (if state.service.error = none then .waiting count else .taking count))
  | .taking count => some (takeSpace config state count)
  | .flushingSync => some (synchronize state .idle)
  | .finishing =>
    let synchronized := synchronize state .idle
    if state.service.error = none ∧ synchronized.client.put ≠ synchronized.client.get then
      some (send config synchronized .finishing)
    else some synchronized

end

/-- A call of the client, its next step inside the call, the writing of a
command into the space it got, or a step of the service. -/
inductive Label
  | getSpace (count : Nat)
  | flush
  | flushSync
  | finish
  | continueCall
  | fill (entries : List Nat)
  | process (outcome : Outcome)

/-- The step relation of the system. -/
inductive Step (config : Config) : State -> Label -> State -> Prop
  | getSpace {state : State} {count : Nat} : state.client.progress = .idle -> 0 < count ->
      count < config.usableEntryCount ->
      Step config state (.getSpace count) { state with
          client := { state.client with
            progress :=
              if config.usableEntryCount < state.client.put + count then .wrapping count
              else .waiting count } }
  | flush {state : State} : state.client.progress = .idle ->
      Step config state .flush (send config state .idle)
  | flushSync {state : State} : state.client.progress = .idle ->
      Step config state .flushSync (send config state .flushingSync)
  | finish {state : State} : state.client.progress = .idle ->
      Step config state .finish (send config state .finishing)
  | continueCall {state next : State} : continueCall config state = some next ->
      Step config state .continueCall next
  | fill {state : State} {space count : Nat} {entries : List Nat} :
      state.client.progress = .filling space count ->
      WellFormedCommand count entries ->
      Step config state (.fill entries) { state with
          client := { state.client with progress := .idle }
          memory := Cells.write state.memory space entries
          issued := state.issued ++ [entries] }
  | process {state : State} {outcome : Outcome} : state.service.error = none ->
      state.service.parserGet ≠ state.service.parserPut ->
      (∀ get, outcome = .done (some get) ->
        SetsGet (headerCommand (state.memory state.service.parserGet))) ->
      Step config state (.process outcome) (processCommand config state outcome)

end Chromium.Gpu.Transport
