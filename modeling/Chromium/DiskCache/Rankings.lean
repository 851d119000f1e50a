import Mathlib.Data.BitVec
import Mathlib.Data.List.Chain

/-!
# Self check of the rankings

The lists of `Rankings` are linked by the addresses that the nodes keep on
disk. `CheckList` walks one of them without a set of visited nodes; that it
stops rests on the back links.
-/

namespace Chromium.DiskCache

open List

/-- The value of an `Addr`. -/
abbrev CacheAddr := BitVec 32

namespace CacheAddr

/-- `Addr::is_initialized`, by `kInitializedMask`. -/
def isInitialized (value : CacheAddr) : Bool := value &&& 0x80000000#32 != 0

/-- `Addr::is_separate_file`, by `kFileTypeMask`. -/
def isSeparateFile (value : CacheAddr) : Bool := value &&& 0x70000000#32 == 0

end CacheAddr

/-- What `CheckList` reads of a `RankingsNode`. -/
structure RankingsNode where
  next : CacheAddr
  prev : CacheAddr
  dirty : Int
  dummy : Int

/-- The lists of `Rankings`, in the order of the source. -/
inductive RankingsList
  | noUse
  | lowUse
  | highUse
  | reserved
  | deleted
  deriving DecidableEq

/-- What the lists are made of: their ends, the node that a load gives at each
address, and `GetCurrentEntryId` of the backend. -/
structure Rankings where
  heads : RankingsList -> CacheAddr
  tails : RankingsList -> CacheAddr
  node : CacheAddr -> RankingsNode
  currentEntryId : Int

namespace Rankings

def errInvalidTail : Int := -2

def errInvalidHead : Int := -3

def errInvalidPrev : Int := -4

def errInvalidNext : Int := -5

def errInvalidEntry : Int := -6

variable (self : Rankings)

/-- `CheckEntry`. -/
def checkEntry (rankings : RankingsNode) : Bool :=
  rankings.dummy == 0 || self.currentEntryId != rankings.dirty

/-- The loop of `CheckList`, for at most `fuel` turns. -/
def checkListLoop : Nat -> Int -> CacheAddr -> CacheAddr -> Option Int
  | 0, _, _, _ => none
  | fuel + 1, numItems, addr, prev =>
    if (self.node addr).prev ≠ prev then some errInvalidPrev
    else if ¬self.checkEntry (self.node addr) then some errInvalidEntry
    else if ¬(self.node addr).next.isInitialized ∨ (self.node addr).next.isSeparateFile then
      some errInvalidNext
    else if addr ≠ (self.node addr).next then
      checkListLoop fuel (numItems + 1) (self.node addr).next addr
    else some (numItems + 1)

/-- `CheckList`; nothing when the loop has not stopped after `fuel` turns. -/
def checkList (fuel : Nat) (list : RankingsList) : Option Int :=
  if ¬(self.heads list).isInitialized then
    if ¬(self.tails list).isInitialized then some 0
    else some errInvalidTail
  else if ¬(self.tails list).isInitialized then some errInvalidHead
  else if (self.tails list).isSeparateFile then some errInvalidTail
  else if (self.heads list).isSeparateFile then some errInvalidHead
  else self.checkListLoop fuel 0 (self.heads list) (self.heads list)

/-- `SelfCheck` over the lists that are left. -/
def selfCheckFrom (fuel : Nat) : List RankingsList -> Int -> Option Int
  | [], total => some total
  | list :: lists, total =>
    match self.checkList fuel list with
    | none => none
    | some partialCount =>
      if partialCount < 0 then some partialCount
      else selfCheckFrom fuel lists (total + partialCount)

/-- `SelfCheck`. -/
def selfCheck (fuel : Nat) : Option Int :=
  self.selfCheckFrom fuel [.noUse, .lowUse, .highUse, .reserved, .deleted] 0

/-- The nodes a walk has left behind, the last one first: each points back to
the one before it, and the first to itself. -/
inductive Walked : List CacheAddr -> Prop
  | start {head : CacheAddr} (back : (self.node head).prev = head) : Walked [head]
  | step {addr prev : CacheAddr} {nodes : List CacheAddr} (back : (self.node addr).prev = prev)
      (forth : (self.node prev).next = addr)
      (moved : addr ≠ prev)
      (before : Walked (prev :: nodes)) :
      Walked (addr :: prev :: nodes)

variable {self}

variable {addr head : CacheAddr} {nodes : List CacheAddr}

/-- The back link of a node that was followed stays in the walk. -/
theorem Walked.prev_mem (walked : self.Walked (addr :: nodes))
    {node : CacheAddr} (mem : node ∈ nodes) :
    (self.node node).prev ∈ nodes := by
  generalize equation : addr :: nodes = walk at walked
  induction walked generalizing addr nodes with
  | start back =>
    cases equation
    cases mem
  | @step address' prev' nodes' back forth moved before ih =>
    cases equation
    rcases mem_cons.mp mem with rfl | inner
    · cases before with
      | start back' => simp [back']
      | step back' => simp [back']
    · exact mem_cons_of_mem _ (ih inner rfl)

/-- The back links make the walk injective: a node met again would have the
node just left as its predecessor, which stands before it already. -/
theorem Walked.nodup (walked : self.Walked nodes) : nodes.Nodup := by
  induction walked with
  | start back => simp
  | @step addr prev nodes back forth moved before ih =>
    refine nodup_cons.mpr ⟨?_, ih⟩
    intro mem
    rcases mem_cons.mp mem with same | inner
    · exact moved same
    · have again : prev ∈ nodes := back ▸ before.prev_mem inner
      exact (nodup_cons.mp ih).1 again

theorem Walked.isChain (walked : self.Walked nodes) : nodes.reverse.IsChain fun left right =>
      (self.node left).next = right ∧ (self.node right).prev = left := by
  rw [isChain_reverse]
  induction walked with
  | start back => simp
  | step back forth moved before ih => exact isChain_cons_cons.mpr ⟨⟨forth, back⟩, ih⟩

/-- Where the walk is about to load the next node. -/
inductive Arrived (self : Rankings) (head : CacheAddr) :
    List CacheAddr -> CacheAddr -> CacheAddr -> Prop
  | start : Arrived self head [] head head
  | step {addr prev : CacheAddr} {nodes : List CacheAddr}
      (first : (prev :: nodes).getLast? = some head)
      (walked : self.Walked (prev :: nodes))
      (forth : (self.node prev).next = addr)
      (moved : addr ≠ prev) :
      Arrived self head (prev :: nodes) addr prev

theorem Arrived.walked {prev : CacheAddr} (arrived : Arrived self head nodes addr prev)
    (back : (self.node addr).prev = prev) :
    self.Walked (addr :: nodes) ∧ (addr :: nodes).getLast? = some head := by
  cases arrived with
  | start => exact ⟨.start back, rfl⟩
  | step first walked forth moved => exact ⟨.step back forth moved walked, by simpa using first⟩

theorem Arrived.nodup {prev : CacheAddr} (arrived : Arrived self head nodes addr prev) :
    nodes.Nodup := by
  cases arrived with
  | start => exact nodup_nil
  | step first walked forth moved => exact walked.nodup

/-- What a list is when a check of it succeeds: its nodes in the order of the
walk. -/
structure ListOf (rankings : Rankings) (head : CacheAddr) (nodes : List CacheAddr) : Prop where
  head_eq : nodes.head? = if head.isInitialized then some head else none
  nodup : nodes.Nodup
  linked : nodes.IsChain fun left right =>
    (rankings.node left).next = right ∧ (rankings.node right).prev = left
  last_self : ∀ last ∈ nodes.getLast?, (rankings.node last).next = last

variable (self) in
/-- Addresses that the walk does not leave. -/
def Closed (addresses : Finset CacheAddr) : Prop :=
  ∀ addr ∈ addresses, (self.node addr).next.isInitialized ->
      ¬(self.node addr).next.isSeparateFile -> (self.node addr).next ∈ addresses

/-- Each turn of the loop but the last adds an address to the walk. -/
theorem checkListLoop_of_arrived (closed : self.Closed addresses) (initialized : head.isInitialized)
    (fuel : Nat) :
    ∀ {nodes : List CacheAddr} {addr prev : CacheAddr}, Arrived self head nodes addr prev ->
      (∀ node ∈ nodes, node ∈ addresses) -> addr ∈ addresses ->
      addresses.card + 1 <= fuel + nodes.length -> ∃ result : Int,
          self.checkListLoop fuel nodes.length addr prev = some result ∧
            (0 <= result -> ∃ walk, self.ListOf head walk ∧ (∀ node ∈ walk, node ∈ addresses) ∧
                result = walk.length) := by
  induction fuel with
  | zero =>
    intro nodes addr prev arrived within _ bound
    have few : nodes.length <= addresses.card := by
      rw [← toFinset_card_of_nodup arrived.nodup]
      apply Finset.card_le_card
      intro node mem
      exact within node (List.mem_toFinset.mp mem)
    omega
  | succ fuel ih =>
    intro nodes addr prev arrived within mem bound
    have within' : ∀ node ∈ addr :: nodes, node ∈ addresses := by simpa using ⟨mem, within⟩
    unfold checkListLoop
    split_ifs with back entry next moved
    · exact ⟨errInvalidPrev, rfl, fun success => absurd success (by decide)⟩
    · exact ⟨errInvalidNext, rfl, fun success => absurd success (by decide)⟩
    · obtain ⟨walked, first⟩ := arrived.walked (not_not.mp back)
      have ok := not_or.mp next
      have onward : Arrived self head (addr :: nodes) (self.node addr).next addr :=
        .step first walked rfl (Ne.symm moved)
      have goOn := ih onward within' (closed addr mem (not_not.mp ok.1) ok.2)
        (by simp only [length_cons]; omega)
      simpa using goOn
    · obtain ⟨walked, first⟩ := arrived.walked (not_not.mp back)
      refine ⟨_, rfl, fun _ => ⟨(addr :: nodes).reverse, ⟨?_, ?_, ?_, ?_⟩, ?_, ?_⟩⟩
      · rw [List.head?_reverse, first, if_pos initialized]
      · exact nodup_reverse.mpr walked.nodup
      · exact walked.isChain
      · intro last isLast
        rw [getLast?_reverse] at isLast
        cases isLast
        exact (not_not.mp moved).symm
      · intro node inside
        exact within' node (mem_reverse.mp inside)
      · simp
    · exact ⟨errInvalidEntry, rfl, fun success => absurd success (by decide)⟩

/-- A check of one list stops on whatever its nodes hold. -/
theorem checkList_of_closed (closed : self.Closed addresses)
    (mem : (self.heads list).isInitialized → self.heads list ∈ addresses) :
    ∃ result : Int, self.checkList (addresses.card + 1) list = some result ∧
        (0 <= result -> ∃ nodes, self.ListOf (self.heads list) nodes ∧
            (∀ node ∈ nodes, node ∈ addresses) ∧ result = nodes.length) := by
  unfold checkList
  split_ifs with head tail tail' separate separate'
  · exact ⟨errInvalidTail, rfl, fun success => absurd success (by decide)⟩
  · exact ⟨errInvalidHead, rfl, fun success => absurd success (by decide)⟩
  · exact checkListLoop_of_arrived closed head (addresses.card + 1)
      .start (by simp) (mem head) (by simp)
  · exact ⟨errInvalidHead, rfl, fun success => absurd success (by decide)⟩
  · exact ⟨errInvalidTail, rfl, fun success => absurd success (by decide)⟩
  · refine ⟨0, rfl, fun _ => ⟨[], ⟨?_, nodup_nil, .nil, by simp⟩, by simp, rfl⟩⟩
    exact (if_neg head).symm

theorem selfCheckFrom_eq {n : RankingsList -> Int}
    (checked : ∀ list, self.checkList fuel list = some (n list)) :
    ∀ total : Int, ∃ result, self.selfCheckFrom fuel lists total = some result ∧
        (0 <= result -> (∀ list ∈ lists, 0 <= n list) ∧
          result = total + (lists.map n).sum) := by
  induction lists with
  | nil => exact fun total => ⟨total, rfl, by simp⟩
  | cons list lists ih =>
    intro total
    by_cases failed : n list < 0
    · refine ⟨n list, ?_, fun success => absurd success (by omega)⟩
      simp [selfCheckFrom, checked, failed]
    · obtain ⟨result, equation, success⟩ := ih (total + n list)
      refine ⟨result, ?_, fun pos => ?_⟩
      · simpa [selfCheckFrom, checked, failed] using equation
      · obtain ⟨counts, sum⟩ := success pos
        refine ⟨?_, ?_⟩
        · simpa using ⟨not_lt.mp failed, counts⟩
        · simp only [map_cons, sum_cons]
          omega

/-- The self check stops on every content of the rankings: each walk takes at
most one turn more than there are addresses, and a list it counts has that
many nodes, linked both ways. -/
theorem selfCheck_stops (self : Rankings) (addresses : Finset CacheAddr)
    (closed : self.Closed addresses)
    (heads : ∀ list, (self.heads list).isInitialized -> self.heads list ∈ addresses) :
    (∀ list, ∃ result : Int, self.checkList (addresses.card + 1) list = some result ∧
        (0 <= result -> result <= addresses.card ∧ ∃ nodes,
          self.ListOf (self.heads list) nodes ∧ result = nodes.length)) ∧
    ∃ total, self.selfCheck (addresses.card + 1) = some total ∧ (0 <= total -> ∀ list, ∃ result,
        self.checkList (addresses.card + 1) list = some result ∧ 0 <= result) := by
  have one : ∀ list, ∃ result : Int, self.checkList (addresses.card + 1) list = some result ∧
        (0 <= result -> result <= addresses.card ∧ ∃ nodes,
          self.ListOf (self.heads list) nodes ∧ result = nodes.length) := by
    intro list
    obtain ⟨result, equation, success⟩ := checkList_of_closed closed (heads list)
    refine ⟨result, equation, fun pos => ?_⟩
    obtain ⟨nodes, listed, within, count⟩ := success pos
    refine ⟨?_, nodes, listed, count⟩
    have few : nodes.toFinset.card <= addresses.card := by
      apply Finset.card_le_card
      intro node mem
      exact within node (List.mem_toFinset.mp mem)
    rw [toFinset_card_of_nodup listed.nodup] at few
    omega
  refine ⟨one, ?_⟩
  choose count checked _ using one
  obtain ⟨total, equation, success⟩ := selfCheckFrom_eq checked 0
  refine ⟨total, equation, fun pos list => ⟨count list, checked list, ?_⟩⟩
  apply (success pos).1
  cases list <;> decide

/-- Two nodes that follow each other; both name the first as the one before. -/
def twoNodeCycle : Rankings where
  heads _ := 0x90000000#32
  tails _ := 0x90000000#32
  node addr :=
    if addr = 0x90000000#32 then ⟨0x90000001#32, 0x90000000#32, 0, 0⟩
    else ⟨0x90000000#32, 0x90000000#32, 0, 0⟩
  currentEntryId := 1

theorem closed_twoNodeCycle : twoNodeCycle.Closed {0x90000000#32, 0x90000001#32} := by
  intro addr mem _ _
  rcases Finset.mem_insert.mp mem with rfl | mem
  · decide
  · rw [Finset.mem_singleton.mp mem]
    decide

theorem selfCheck_stops_twoNodeCycle : twoNodeCycle.Closed {0x90000000#32, 0x90000001#32} ∧
      ∃ total, twoNodeCycle.selfCheck 3 = some total :=
  ⟨closed_twoNodeCycle, (selfCheck_stops twoNodeCycle {0x90000000#32, 0x90000001#32}
      closed_twoNodeCycle fun _ _ => Finset.mem_insert_self _ _).2.imp fun _ found => found.1⟩

/-- The walk of two nodes that go round takes a third turn, in which the back
link fails. -/
theorem not_checkList_within_addresses :
    ¬∀ (self : Rankings) (addresses : Finset CacheAddr), self.Closed addresses ->
      (∀ list, self.heads list ∈ addresses) ->
        ∀ list, (self.checkList addresses.card list).isSome := by
  intro claim
  have stops := claim twoNodeCycle {0x90000000#32, 0x90000001#32}
    closed_twoNodeCycle (fun _ => Finset.mem_insert_self _ _) .noUse
  revert stops
  decide

end Rankings
end Chromium.DiskCache
