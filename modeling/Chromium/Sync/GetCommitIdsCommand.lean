import Mathlib.Data.Finset.Lattice.Lemmas
import Mathlib.Data.Finset.SDiff

/-!
# Ordered commit sets

An `OrderedCommitSet` has items to be committed in their order, and for each
group of model types the indices of the items that belong to it.
-/

namespace Chromium.Sync

open List

/-- An `Id` of an item: of the root, opaque to all but the client, or provided
by the server. -/
inductive Id
  | root
  | client (opaque_id : String)
  | server (opaque_id : String)
deriving DecidableEq

namespace Id

def isRoot : Id -> Bool
  | .root => true
  | _ => false

/-- Whether the server knows about the object. -/
def serverKnows : Id -> Bool
  | .client _ => false
  | _ => true

end Id

inductive ModelType
  | unspecified
  | topLevelFolder
  | bookmarks
  | preferences
  | passwords
  | autofillProfile
  | autofill
  | themes
  | typedUrls
  | extensions
  | nigori
  | sessions
  | apps
deriving DecidableEq

inductive ModelSafeGroup
  | passive
  | ui
  | db
  | history
  | password
deriving DecidableEq

abbrev ModelSafeRoutingInfo := ModelType -> Option ModelSafeGroup

def getGroupForModelType (type : ModelType) (routes : ModelSafeRoutingInfo) : ModelSafeGroup :=
  (routes type).getD .passive

/-- A `CommitItem`. -/
structure CommitItem where
  metahandle : Int
  id : Id
  group : ModelType
deriving DecidableEq

structure OrderedCommitSet where
  routes : ModelSafeRoutingInfo
  inserted_metahandles : Finset Int := ∅
  commit_ids : List Id := []
  metahandle_order : List Int := []
  projections : ModelSafeGroup -> List Nat := fun _ => []
  types : List ModelType := []

namespace OrderedCommitSet

section

variable (set_ : OrderedCommitSet)

def haveCommitItem (metahandle : Int) : Bool := decide (metahandle ∈ set_.inserted_metahandles)

def size : Nat := set_.commit_ids.length

def addCommitItem (metahandle : Int) (commit_id : Id) (type : ModelType) : OrderedCommitSet :=
  if set_.haveCommitItem metahandle then set_
  else
    let group := getGroupForModelType type set_.routes
    { set_ with
      inserted_metahandles := insert metahandle set_.inserted_metahandles
      metahandle_order := set_.metahandle_order ++ [metahandle]
      commit_ids := set_.commit_ids ++ [commit_id]
      projections := Function.update set_.projections group (set_.projections group ++ [set_.size])
      types := set_.types ++ [type] }

/-- `GetCommitItemAt` for every position. -/
def commitItems : List CommitItem :=
  (set_.metahandle_order.zip (set_.commit_ids.zip set_.types)).map
    fun (metahandle, id, group) => { metahandle, id, group }

def appendReverse (set_ other : OrderedCommitSet) : OrderedCommitSet :=
  other.commitItems.reverse.foldl
    (fun set_ item => set_.addCommitItem item.metahandle item.id item.group)
    set_

/-- `Truncate`. The projections are in increasing order, so that the indices
of items that are chopped are at their ends. -/
def truncate (max_size : Nat) : OrderedCommitSet :=
  if max_size < set_.metahandle_order.length then
    { set_ with
      inserted_metahandles := set_.inserted_metahandles \
        (set_.metahandle_order.drop max_size).toFinset
      projections := fun group => (set_.projections group).takeWhile (· < max_size)
      commit_ids := set_.commit_ids.take max_size
      metahandle_order := set_.metahandle_order.take max_size
      types := set_.types.take max_size }
  else set_

end

/-- The set has the given items: its views are views of the same list. -/
structure Holds (set_ : OrderedCommitSet) (items : List CommitItem) : Prop where
  inserted_metahandles : set_.inserted_metahandles = (items.map CommitItem.metahandle).toFinset
  metahandle_order : set_.metahandle_order = items.map CommitItem.metahandle
  commit_ids : set_.commit_ids = items.map CommitItem.id
  types : set_.types = items.map CommitItem.group
  projections : ∀ group, set_.projections group = (List.range items.length).filter fun index =>
      (items[index]?).any fun item => getGroupForModelType item.group set_.routes = group
  nodup : (items.map CommitItem.metahandle).Nodup

variable {set_ other : OrderedCommitSet} {items : List CommitItem}

theorem holds_nil {routes : ModelSafeRoutingInfo} : Holds { routes } [] :=
  ⟨rfl, rfl, rfl, rfl, fun _ => rfl, nodup_nil⟩

theorem toFinset_sdiff_drop {handles : List Int} (nodup : handles.Nodup) :
    handles.toFinset \ (handles.drop number).toFinset = (handles.take number).toFinset := by
  have disjoint := disjoint_take_drop nodup (le_refl number)
  ext handle
  rw [Finset.mem_sdiff, List.mem_toFinset, List.mem_toFinset, List.mem_toFinset]
  constructor
  · rintro ⟨mem, notDropped⟩
    rw [← take_append_drop number handles, mem_append] at mem
    exact mem.resolve_right notDropped
  · intro taken
    exact ⟨mem_of_mem_take taken, disjoint taken⟩

theorem takeWhile_filter_range (P : Nat -> Bool) (less : fewer <= number) :
    ((List.range number).filter P).takeWhile (· < fewer) =
      (List.range fewer).filter P := by
  obtain ⟨more, rfl⟩ := Nat.exists_eq_add_of_le less
  rw [range_add, filter_append, takeWhile_append_of_pos]
  · have none_ : (((List.range more).map (fewer + ·)).filter P).takeWhile (· < fewer) = [] := by
      cases rest : ((List.range more).map (fewer + ·)).filter P with
      | nil => rfl
      | cons i later =>
        have mem : i ∈ ((List.range more).map (fewer + ·)).filter P := by
          rw [rest]
          exact mem_cons_self
        obtain ⟨off, -, rfl⟩ := List.mem_map.mp (mem_filter.mp mem).1
        apply takeWhile_cons_of_neg
        rw [decide_eq_true_eq]
        omega
    rw [none_, append_nil]
  · intro i mem
    exact decide_eq_true (mem_range.mp (mem_filter.mp mem).1)

namespace Holds

section

variable (holds : Holds set_ items)
include holds

theorem haveCommitItem_iff (metahandle : Int) :
    set_.haveCommitItem metahandle = true ↔ metahandle ∈ items.map CommitItem.metahandle := by
  rw [haveCommitItem, decide_eq_true_eq, holds.inserted_metahandles, List.mem_toFinset]

theorem size_eq : set_.size = items.length := by
  rw [size, holds.commit_ids, length_map]

theorem commitItems_eq : set_.commitItems = items := by
  rw [commitItems, holds.metahandle_order, holds.commit_ids, holds.types,
    zip_map', zip_map', List.map_map]
  exact List.map_id' items

theorem addCommitItem {item : CommitItem}
    (new_ : item.metahandle ∉ items.map CommitItem.metahandle) :
    Holds (set_.addCommitItem item.metahandle item.id item.group) (items ++ [item]) := by
  have absent : ¬ set_.haveCommitItem item.metahandle = true :=
    mt (holds.haveCommitItem_iff _).mp new_
  rw [OrderedCommitSet.addCommitItem, if_neg absent]
  refine ⟨?_, ?_, ?_, ?_, ?_, ?_⟩
  · dsimp only
    rw [holds.inserted_metahandles, map_append, toFinset_append, Finset.union_comm]
    rfl
  · rw [map_append, ← holds.metahandle_order]
    rfl
  · rw [map_append, ← holds.commit_ids]
    rfl
  · rw [map_append, ← holds.types]
    rfl
  · intro group
    have front : ∀ i ∈ List.range items.length, ((items ++ [item])[i]?).any (fun item =>
          getGroupForModelType item.group set_.routes = group) =
        (items[i]?).any fun item => getGroupForModelType item.group set_.routes = group := by
      intro i inside
      rw [List.getElem?_append_left (mem_range.mp inside)]
    rw [length_append, length_singleton, range_succ,
      filter_append, filter_congr front, ← holds.projections group]
    dsimp only
    rw [filter_cons, List.getElem?_concat_length, Option.any_some, filter_nil]
    by_cases isGroup : getGroupForModelType item.group set_.routes = group
    · subst isGroup
      rw [Function.update_self, holds.size_eq, if_pos (decide_eq_true rfl)]
    · rw [Function.update_of_ne (Ne.symm isGroup), if_neg (by
        rw [decide_eq_true_eq]
        exact isGroup), append_nil]
  · rw [map_append]
    refine holds.nodup.append (nodup_singleton _) ?_
    rw [map_singleton, disjoint_singleton]
    exact new_

theorem foldl_addCommitItem (nodup : (added.map CommitItem.metahandle).Nodup)
    (disjoint : ∀ item ∈ added, item.metahandle ∉ items.map CommitItem.metahandle) :
    Holds (added.foldl (fun set_ item =>
        set_.addCommitItem item.metahandle item.id item.group) set_) (items ++ added) := by
  induction added generalizing set_ items with
  | nil =>
    rw [append_nil]
    exact holds
  | cons item added ih =>
    rw [map_cons, nodup_cons] at nodup
    rw [foldl_cons, append_cons]
    apply ih (holds.addCommitItem (disjoint item mem_cons_self)) nodup.2
    intro later isLater
    rw [map_append, mem_append, map_singleton, mem_singleton, not_or]
    refine ⟨disjoint later (mem_cons_of_mem _ isLater), ?_⟩
    intro same
    apply nodup.1
    rw [← same]
    exact List.mem_map_of_mem isLater

theorem appendReverse (otherHolds : Holds other pending)
    (disjoint : ∀ item ∈ pending, item.metahandle ∉ items.map CommitItem.metahandle) :
    Holds (set_.appendReverse other) (items ++ pending.reverse) := by
  rw [OrderedCommitSet.appendReverse, otherHolds.commitItems_eq]
  apply holds.foldl_addCommitItem
  · rw [map_reverse, nodup_reverse]
    exact otherHolds.nodup
  · intro item mem
    exact disjoint item (mem_reverse.mp mem)

theorem truncate (max_size : Nat) : Holds (set_.truncate max_size) (items.take max_size) := by
  have len : set_.metahandle_order.length = items.length := by
    rw [holds.metahandle_order, length_map]
  rw [OrderedCommitSet.truncate]
  split_ifs with longer
  · refine ⟨?_, ?_, ?_, ?_, ?_, ?_⟩
    · dsimp only
      rw [holds.inserted_metahandles, holds.metahandle_order, map_take]
      exact toFinset_sdiff_drop holds.nodup
    · rw [map_take, ← holds.metahandle_order]
    · rw [map_take, ← holds.commit_ids]
    · rw [map_take, ← holds.types]
    · intro group
      have front : ∀ i ∈ List.range max_size, ((items.take max_size)[i]?).any (fun item =>
            getGroupForModelType item.group set_.routes = group) =
          (items[i]?).any fun item => getGroupForModelType item.group set_.routes = group := by
        intro i inside
        rw [List.getElem?_take_of_lt (mem_range.mp inside)]
      rw [length_take_of_le (by omega), filter_congr front]
      dsimp only
      rw [holds.projections group]
      exact takeWhile_filter_range _ (by omega)
    · rw [map_take]
      exact holds.nodup.sublist (take_sublist _ _)
  · rw [take_of_length_le (by omega)]
    exact holds

end

end Holds

/-- The commit sets that calls of the operations make, each over its routes. -/
inductive Reachable : OrderedCommitSet -> Prop
  | new_ (routes : ModelSafeRoutingInfo) : Reachable { routes }
  | addCommitItem (reachable : Reachable commits) (metahandle : Int) (commit_id : Id)
      (type : ModelType) : Reachable (commits.addCommitItem metahandle commit_id type)
  | appendReverse (reachable : Reachable commits) (otherReachable : Reachable appended) :
      Reachable (commits.appendReverse appended)
  | truncate (reachable : Reachable commits) (max_size : Nat) :
      Reachable (commits.truncate max_size)

/-- The views agree: the projections cut the positions up, by the groups of the
types there, and the metahandles are those of the items in the set. -/
structure Consistent (set_ : OrderedCommitSet) : Prop where
  increasing : ∀ group, (set_.projections group).Pairwise (· < ·)
  partition : ∀ group index, index ∈ set_.projections group ↔ index < set_.size ∧
    (set_.types[index]?).map (getGroupForModelType · set_.routes) = some group
  metahandle_length : set_.metahandle_order.length = set_.size
  types_length : set_.types.length = set_.size
  nodup : set_.metahandle_order.Nodup
  haveCommitItem : ∀ metahandle,
    set_.haveCommitItem metahandle = true ↔ metahandle ∈ set_.metahandle_order

theorem Holds.consistent (holds : Holds set_ items) : Consistent set_ where
  increasing group := by
    rw [holds.projections]
    exact pairwise_lt_range.filter _
  partition group index := by
    rw [holds.projections, mem_filter, mem_range, holds.size_eq, holds.types]
    cases found : items[index]? <;> simp [found]
  metahandle_length := by rw [holds.metahandle_order, length_map, holds.size_eq]
  types_length := by rw [holds.types, length_map, holds.size_eq]
  nodup := holds.metahandle_order ▸ holds.nodup
  haveCommitItem metahandle := by rw [holds.haveCommitItem_iff, holds.metahandle_order]

/-- An item whose metahandle is in the set is left out. -/
theorem Holds.exists_addCommitItem (holds : Holds set_ items) (item : CommitItem) :
    ∃ items, Holds (set_.addCommitItem item.metahandle item.id item.group) items := by
  by_cases mem : item.metahandle ∈ items.map CommitItem.metahandle
  · refine ⟨items, ?_⟩
    rw [OrderedCommitSet.addCommitItem, if_pos ((holds.haveCommitItem_iff _).mpr mem)]
    exact holds
  · exact ⟨_, holds.addCommitItem mem⟩

theorem Holds.exists_foldl (holds : Holds set_ items) (added : List CommitItem) :
    ∃ items, Holds (added.foldl (fun set_ item =>
      set_.addCommitItem item.metahandle item.id item.group) set_) items := by
  induction added generalizing set_ items with
  | nil => exact ⟨items, holds⟩
  | cons item added ih =>
    obtain ⟨items, holds⟩ := holds.exists_addCommitItem item
    exact ih holds

theorem Reachable.holds (reachable : Reachable set_) : ∃ items, Holds set_ items := by
  induction reachable with
  | new_ routes => exact ⟨[], holds_nil⟩
  | addCommitItem _ metahandle commit_id type ih =>
    obtain ⟨items, holds⟩ := ih
    exact holds.exists_addCommitItem ⟨metahandle, commit_id, type⟩
  | @appendReverse _ appended _ _ ih _ =>
    obtain ⟨items, holds⟩ := ih
    exact holds.exists_foldl appended.commitItems.reverse
  | truncate _ max_size ih =>
    obtain ⟨items, holds⟩ := ih
    exact ⟨_, holds.truncate max_size⟩

/-- Whatever calls have made a set, its views agree. -/
theorem views_consistent (reachable : Reachable set_) : Consistent set_ := by
  obtain ⟨items, holds⟩ := reachable.holds
  exact holds.consistent

theorem views_consistent_truncated : Consistent ((({ routes := fun _ => none } :
    OrderedCommitSet).addCommitItem 1 .root .apps).truncate 0) :=
  views_consistent (((Reachable.new_ _).addCommitItem 1 .root .apps).truncate 0)

end OrderedCommitSet

/-!
## The items of a commit

`BuildCommitIds` orders the unsynced items of a directory for a commit: moves
and creations first, behind the folders and siblings they need, then deletes.
-/

structure EntryKernel where
  metahandle : Int
  id : Id
  parent_id : Id
  server_parent_id : Id
  prev_id : Id
  is_unsynced : Bool
  is_del : Bool
  model_type : ModelType
deriving DecidableEq

namespace EntryKernel

def commitItem (entry : EntryKernel) : CommitItem where
  metahandle := entry.metahandle
  id := entry.id
  group := entry.model_type

end EntryKernel

structure Directory where
  entries : List EntryKernel
deriving DecidableEq

namespace Directory

def getByHandle (dir : Directory) (metahandle : Int) : Option EntryKernel :=
  dir.entries.find? (·.metahandle = metahandle)

def getById (dir : Directory) (id : Id) : Option EntryKernel := dir.entries.find? (·.id = id)

/-- `Put(IS_UNSYNCED, false)`. -/
def putSynced (dir : Directory) (metahandle : Int) : Directory where
  entries := dir.entries.map fun entry =>
    if entry.metahandle = metahandle then { entry with is_unsynced := false }
    else entry

end Directory

inductive VerifyCommitResult
  | unsyncable
  | ok
deriving DecidableEq

/-- `ValidateCommitEntry`; it is an error if an item other than the root is its
own parent. -/
def validateCommitEntry (entry : EntryKernel) : Option VerifyCommitResult :=
  if entry.id = entry.parent_id then if entry.id.isRoot then some .unsyncable else none
  else if entry.id.isRoot then some .unsyncable
  else if entry.is_del && !entry.id.serverKnows then some .unsyncable
  else some .ok

section

variable (dir : Directory)

/-- `ValidateMetahandleForCommit`, which drops unsyncable entries. -/
def validateMetahandleForCommit (set_ : OrderedCommitSet)
    (metahandle : Int) : Option (Bool × Directory) :=
  if set_.haveCommitItem metahandle then some (false, dir)
  else do
    let entry ← dir.getByHandle metahandle
    match ← validateCommitEntry entry with
    | .unsyncable => return (false, dir.putSynced metahandle)
    | .ok => return (true, dir)

/-- `AddItem`: nothing if the item is already in one of the sets. -/
def addItem (ordered : OrderedCommitSet) (item : EntryKernel)
    (result : OrderedCommitSet) : Option OrderedCommitSet :=
  if result.haveCommitItem item.metahandle || ordered.haveCommitItem item.metahandle then none
  else some (result.addCommitItem item.metahandle item.id item.model_type)

/-- The loop of `AddItemThenPredecessors` over the unsynced predecessors. -/
def addPredecessors (dir : Directory) (ordered : OrderedCommitSet) :
    Nat -> Id -> OrderedCommitSet -> Option OrderedCommitSet
  | 0, _, _ => none
  | fuel + 1, prev_id, result =>
    if prev_id.isRoot then some result
    else do
      let prev ← dir.getById prev_id
      if !prev.is_unsynced then return result
      else
        match addItem ordered prev result with
        | none => return result
        | some result => addPredecessors dir ordered fuel prev.prev_id result

/-- `AddItemThenPredecessors`, and whether the item was added. -/
def addItemThenPredecessors (ordered : OrderedCommitSet)
    (item : EntryKernel) (result : OrderedCommitSet) :
    Option (Bool × OrderedCommitSet) :=
  match addItem ordered item result with
  | none => some (false, result)
  | some result =>
    if item.is_del then some (true, result)
    else do
      let result ← addPredecessors dir ordered (dir.entries.length + 1) item.prev_id result
      return (true, result)

/-- The loop of `AddUncommittedParentsAndTheirPredecessors` that climbs the
tree; it is an error if a parent is not there. -/
def climbParents (dir : Directory) (ordered : OrderedCommitSet) :
    Nat -> Id -> OrderedCommitSet -> Option OrderedCommitSet
  | 0, _, _ => none
  | fuel + 1, parent_id, item_dependencies =>
    if parent_id.serverKnows then some item_dependencies
    else do
      let parent ← dir.getById parent_id
      if ordered.haveCommitItem parent.metahandle ||
          item_dependencies.haveCommitItem parent.metahandle then
        return item_dependencies
      else
        let (added, item_dependencies) ←
          addItemThenPredecessors dir ordered parent item_dependencies
        if !added then return item_dependencies
        else climbParents dir ordered fuel parent.parent_id item_dependencies

def addUncommittedParentsAndTheirPredecessors (parent_id : Id) (routes : ModelSafeRoutingInfo)
    (ordered : OrderedCommitSet) : Option OrderedCommitSet := do
  let item_dependencies ← climbParents dir ordered (dir.entries.length + 1) parent_id { routes }
  return ordered.appendReverse item_dependencies

def addPredecessorsThenItem (item : EntryKernel)
    (routes : ModelSafeRoutingInfo) (ordered : OrderedCommitSet) :
    Option OrderedCommitSet := do
  let (_, item_dependencies) ← addItemThenPredecessors dir ordered item { routes }
  return ordered.appendReverse item_dependencies

end

/-- A directory and the commit set that is built from it. -/
structure CommitState where
  dir : Directory
  ordered : OrderedCommitSet

/-- The loop of `AddCreatesAndMoves` over the handles that are valid. -/
def addCreatesAndMovesLoop (commit_batch_size : Nat) (routes : ModelSafeRoutingInfo) :
    List Int -> CommitState -> Option CommitState
  | [], state => some state
  | metahandle :: handles, state => do
      let (valid, dir) ← validateMetahandleForCommit state.dir state.ordered metahandle
      if !valid then addCreatesAndMovesLoop commit_batch_size routes handles { state with dir }
      else if state.ordered.size ≥ commit_batch_size then return { state with dir }
      else
        let entry ← dir.getByHandle metahandle
        let ordered ← (if !entry.is_del then do
            let ordered ← addUncommittedParentsAndTheirPredecessors dir
              entry.parent_id routes state.ordered
            addPredecessorsThenItem dir entry routes ordered
          else some state.ordered)
        addCreatesAndMovesLoop commit_batch_size routes handles { dir, ordered }

variable (commit_batch_size : Nat)

def addCreatesAndMoves (routes : ModelSafeRoutingInfo) (unsynced_handles : List Int)
    (state : CommitState) : Option CommitState := do
  let state ← addCreatesAndMovesLoop commit_batch_size routes unsynced_handles state
  return { state with ordered := state.ordered.truncate commit_batch_size }

/-- Whether a deleted entry is under a parent that is going to be deleted. -/
def parentIsDeleted (dir : Directory) (entry : EntryKernel) : Bool :=
  match dir.getById entry.parent_id with
  | none => false
  | some parent => parent.is_del && parent.is_unsynced

/-- Whether an entry was moved from another parent on the server. -/
def wasMoved (entry : EntryKernel) : Bool :=
  entry.id.serverKnows && decide (entry.parent_id ≠ entry.server_parent_id)

/-- The first loop of `AddDeletes`, with the parents whose children are
deleted. -/
def legalDeleteParentsLoop (commit_batch_size : Nat) :
    List Int -> List Id -> CommitState -> Option (List Id × CommitState)
  | [], legal_delete_parents, state => some (legal_delete_parents, state)
  | metahandle :: handles, legal_delete_parents, state => do
      let (valid, dir) ← validateMetahandleForCommit state.dir state.ordered metahandle
      if !valid then
        legalDeleteParentsLoop commit_batch_size handles legal_delete_parents { state with dir }
      else if state.ordered.size ≥ commit_batch_size then
        return (legal_delete_parents, { state with dir })
      else
        let entry ← dir.getByHandle metahandle
        if entry.is_del then
          if parentIsDeleted dir entry then
            let ordered :=
              if wasMoved entry then
                state.ordered.addCommitItem metahandle entry.id entry.model_type
              else state.ordered
            legalDeleteParentsLoop commit_batch_size handles legal_delete_parents { dir, ordered }
          else
            legalDeleteParentsLoop commit_batch_size handles
              (entry.parent_id :: legal_delete_parents) { state with dir }
        else
          legalDeleteParentsLoop commit_batch_size handles legal_delete_parents { state with dir }

/-- The second loop of `AddDeletes`. -/
def addDeletesLoop (commit_batch_size : Nat) (legal_delete_parents : List Id) :
    List Int -> CommitState -> Option CommitState
  | [], state => some state
  | metahandle :: handles, state => do
      let (valid, dir) ← validateMetahandleForCommit state.dir state.ordered metahandle
      if !valid then
        addDeletesLoop commit_batch_size legal_delete_parents handles { state with dir }
      else if state.ordered.size ≥ commit_batch_size then return { state with dir }
      else
        let entry ← dir.getByHandle metahandle
        let ordered :=
          if entry.is_del && legal_delete_parents.contains entry.parent_id then
            state.ordered.addCommitItem metahandle entry.id entry.model_type
          else state.ordered
        addDeletesLoop commit_batch_size legal_delete_parents handles { dir, ordered }

def addDeletes (unsynced_handles : List Int) (state : CommitState) : Option CommitState := do
  let (legal_delete_parents, state) ←
    legalDeleteParentsLoop commit_batch_size unsynced_handles [] state
  addDeletesLoop commit_batch_size legal_delete_parents unsynced_handles state

/-- `BuildCommitIds`, with the directory it leaves. -/
def buildCommitIds (unsynced_handles : List Int)
    (dir : Directory) (routes : ModelSafeRoutingInfo) : Option CommitState := do
  let state ← addCreatesAndMoves commit_batch_size routes unsynced_handles
    { dir, ordered := { routes } }
  addDeletes commit_batch_size unsynced_handles state

end Chromium.Sync
