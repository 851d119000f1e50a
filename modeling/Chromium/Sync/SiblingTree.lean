import Chromium.Sync.CommitDependencies
import Mathlib.Data.List.Sort

/-!
# Changes in the order of the tree

`ChangeReorderBuffer` puts the changes that were recorded for items in an order:
deletions first, and parents in front of their children.
-/

namespace Chromium.Sync

open List Option Bool Nat

def kInvalidId : Int := 0

/-- An item with a link to the sibling behind it. -/
structure LinkedEntry extends EntryKernel where
  next_id : Id
deriving DecidableEq

namespace LinkedEntry

def shouldMaintainPosition (entry : LinkedEntry) : Bool := entry.model_type == .bookmarks

/-- `ParentIdAndHandleIndexer::ShouldInclude`. -/
def shouldInclude (entry : LinkedEntry) : Bool := !entry.is_del && !entry.id.isRoot

end LinkedEntry

/-- The entries of a directory. Those with the same parent are in the order of
the index of children. -/
structure LinkedDirectory where
  entries : List LinkedEntry
deriving DecidableEq

namespace LinkedDirectory

variable (dir : LinkedDirectory)

def getByHandle (metahandle : Int) : Option LinkedEntry :=
  dir.entries.find? (·.metahandle = metahandle)

def getById (id : Id) : Option LinkedEntry := dir.entries.find? (·.id = id)

/-- The loop of `GetFirstChildId` that walks to the front of the list. -/
def walkToFront (dir : LinkedDirectory) : Nat -> LinkedEntry -> Option Id
  | 0, _ => none
  | fuel + 1, entry =>
    if entry.prev_id.isRoot then some entry.id
    else do
      let prev ← dir.getById entry.prev_id
      dir.walkToFront fuel prev

/-- `GetFirstChildId`; the root stands for no child. -/
def getFirstChildId (parent_id : Id) : Option Id :=
  -- Self-looped items are temporarily not in the order of the children.
  match dir.entries.find? fun entry =>
      entry.shouldInclude && entry.parent_id = parent_id &&
        (entry.prev_id.isRoot || entry.prev_id ≠ entry.next_id) with
  | none => some .root
  | some entry => dir.walkToFront dir.entries.length entry

/-- `ReadNode::InitByIdLookup`, of an item that need not be decrypted. -/
def readNode (id : Int) : Option LinkedEntry := do
  let entry ← dir.getByHandle id
  if entry.is_del then none else some entry

/-- `BaseNode::GetParentId`. -/
def getParentId (node : LinkedEntry) : Int :=
  match dir.getById node.parent_id with
  | none => kInvalidId
  | some parent => parent.metahandle

end LinkedDirectory

/-- A `Traversal`, with the links from parents to children in their order. -/
structure Traversal where
  top : Int
  links : List (Int × Int)
deriving DecidableEq

namespace Traversal

def create : Traversal := ⟨kInvalidId, []⟩

/-- The order of a `LinkSet`. -/
def LinkLe (link other : Int × Int) : Prop := link.1 < other.1 ∨ link.1 = other.1 ∧ link.2 ≤ other.2

instance : DecidableRel LinkLe := fun _ _ => inferInstanceAs (Decidable (_ ∨ _))

/-- The loop of `ExpandToInclude`. -/
def expandLoop (dir : LinkedDirectory) : Nat -> Int -> Traversal -> Option Traversal
  | 0, _, _ => none
  | fuel + 1, node_to_include, traversal =>
    if node_to_include = kInvalidId ∨ node_to_include = traversal.top then some traversal
    else do
      let node ← dir.getByHandle node_to_include
      if node.id.isRoot then
        -- Unite the traversal with the path from the child to the root.
        expandLoop dir fuel traversal.top { traversal with top := node.metahandle }
      else
        let parent ← dir.getById node.parent_id
        let link := (parent.metahandle, node_to_include)
        if link ∈ traversal.links then some traversal
        else
          expandLoop dir fuel parent.metahandle
            { traversal with
              links := traversal.links.orderedInsert LinkLe link }

/-- `ExpandToInclude`. -/
def expandToInclude (dir : LinkedDirectory) (child_handle : Int) (traversal : Traversal) :
    Option Traversal :=
  if traversal.top = kInvalidId then some { traversal with top := child_handle }
  else expandLoop dir (2 * dir.entries.length + 1) child_handle traversal

/-- The children from `begin_children` to `end_children`. -/
def childrenOf (traversal : Traversal) (parent_id : Int) : List Int :=
  (traversal.links.filter (·.1 = parent_id)).map (·.2)

end Traversal

/-- `ChangeReorderBuffer::Operation`. -/
inductive ReorderOperation
  | add
  | delete
  | updatePropertiesOnly
  | updatePositionAndProperties
deriving DecidableEq

/-- `ChangeRecord::Action`. -/
inductive ChangeAction
  | add
  | delete
  | update
deriving DecidableEq

/-- A `ChangeRecord`. -/
structure ChangeRecord (Specifics Extra : Type) where
  id : Int
  action : ChangeAction
  specifics : Option Specifics
  extra : Option Extra
deriving DecidableEq

/-- An `OperationMap`, in the order of its handles. -/
abbrev OperationMap := List (Int × ReorderOperation)

structure ChangeReorderBuffer (Specifics Extra : Type) where
  operations : OperationMap
  specifics : Int -> Option Specifics
  extra_data : Int -> Option Extra

section Reordering

variable {Specifics Extra : Type}

/-- The record of a change of an item. -/
def ChangeReorderBuffer.record (buffer : ChangeReorderBuffer Specifics Extra) (id : Int)
    (action : ChangeAction) :
    ChangeRecord Specifics Extra where
  id := id
  action := action
  specifics := buffer.specifics id
  extra := buffer.extra_data id

/-- What the first step collects. -/
structure Collected (Specifics Extra : Type) where
  changelist : List (ChangeRecord Specifics Extra)
  traversal : Traversal
  parents_of_position_changes : Finset Int

/-- The first step, for an operation. -/
def collect (dir : LinkedDirectory) (buffer : ChangeReorderBuffer Specifics Extra)
    (collected : Collected Specifics Extra) (i : Int × ReorderOperation) :
    Option (Collected Specifics Extra) :=
  if i.2 = .delete then
    some { collected with
      changelist := collected.changelist ++ [buffer.record i.1 .delete] }
  else do
    let traversal ← collected.traversal.expandToInclude dir i.1
    if i.2 = .add ∨ i.2 = .updatePositionAndProperties then
      let node ← dir.readNode i.1
      -- Only parents with models that are sensitive to positions matter.
      if node.shouldMaintainPosition then
        some { collected with
          traversal := traversal
          parents_of_position_changes :=
            insert (dir.getParentId node) collected.parents_of_position_changes }
      else some { collected with traversal := traversal }
    else some { collected with traversal := traversal }

/-- The handles of the siblings from an item on. -/
def siblingHandles (dir : LinkedDirectory) : Nat -> Id -> Option (List Int)
  | 0, _ => none
  | fuel + 1, id =>
    if id.isRoot then some []
    else do
      let child ← dir.getById id
      let rest ← siblingHandles dir fuel child.next_id
      some (child.metahandle :: rest)

/-- A sibling without an operation is recorded as an update. -/
def noteSibling (operations : OperationMap) (handle : Int) : OperationMap :=
  match operations.lookup handle with
  | some _ => operations
  | none =>
    operations.orderedInsert (fun entry other => entry.1 <= other.1)
      (handle, .updatePositionAndProperties)

/-- The action of the record of an item that is not deleted. -/
def visitAction (op : ReorderOperation) : ChangeAction :=
  if op = .add then .add else .update

/-- The second step: visit the items of the traversal. -/
def visitLoop (dir : LinkedDirectory) (buffer : ChangeReorderBuffer Specifics Extra)
    (traversal : Traversal) (parents_of_position_changes : Finset Int) :
    Nat -> List Int -> OperationMap -> List (ChangeRecord Specifics Extra) ->
      Option (List (ChangeRecord Specifics Extra) × OperationMap)
  | 0, _, _, _ => none
  | _ + 1, [], operations, changelist => some (changelist, operations)
  | fuel + 1, next :: to_visit, operations, changelist => do
      let changelist := match operations.lookup next with
        | none => changelist
        | some op => changelist ++ [buffer.record next (visitAction op)]
      if next ∉ parents_of_position_changes then
        visitLoop dir buffer traversal parents_of_position_changes fuel
          (to_visit ++ traversal.childrenOf next) operations changelist
      else
        let parent ← dir.getByHandle next
        let first ← dir.getFirstChildId parent.id
        let handles ← siblingHandles dir (dir.entries.length + 1) first
        visitLoop dir buffer traversal parents_of_position_changes fuel
          (to_visit ++ handles) (handles.foldl noteSibling operations) changelist

/-- `GetAllChangesInTreeOrder`: the list of the changes, and the buffer with the
updates of siblings. -/
def getAllChangesInTreeOrder (dir : LinkedDirectory)
    (buffer : ChangeReorderBuffer Specifics Extra) :
    Option (List (ChangeRecord Specifics Extra) × ChangeReorderBuffer Specifics Extra) := do
  let collected ← buffer.operations.foldlM (collect dir buffer) ⟨[], .create, ∅⟩
  let (changelist, operations) ← visitLoop dir buffer collected.traversal
    collected.parents_of_position_changes (dir.entries.length + 2)
    [collected.traversal.top] buffer.operations collected.changelist
  some (changelist, { buffer with operations := operations })

end Reordering

/-!
## Trees of items

The items of a directory that are not deleted are a tree, in which the children
of each item are linked to their siblings.
-/

section

/-- Siblings that are linked both ways, behind the one with an id. -/
def Linked (prev : Id) : List LinkedEntry -> Prop
  | [] => True
  | entry :: rest =>
    entry.prev_id = prev ∧ entry.next_id = (rest.head?.map (·.id)).getD .root ∧ Linked entry.id rest

/-- The items that are not deleted are a tree, with lists of siblings. -/
structure IsTree (dir : LinkedDirectory) (level : Int -> Nat) (siblings : Id -> List LinkedEntry) :
    Prop where
  ids : (dir.entries.map (·.id)).Nodup
  handles : (dir.entries.map (·.metahandle)).Nodup
  valid : ∀ entry ∈ dir.entries, entry.metahandle ≠ kInvalidId
  root : ∃ entry ∈ dir.entries, entry.is_del = false ∧ entry.id = .root ∧
    entry.parent_id = .root ∧ level entry.metahandle = 0
  parent : ∀ entry ∈ dir.entries, entry.shouldInclude = true ->
    ∃ parent ∈ dir.entries, parent.is_del = false ∧ parent.id = entry.parent_id ∧
      level entry.metahandle = level parent.metahandle + 1
  nodup : ∀ parent ∈ dir.entries, parent.is_del = false -> (siblings parent.id).Nodup
  mem_siblings : ∀ parent ∈ dir.entries, parent.is_del = false -> ∀ entry,
    entry ∈ siblings parent.id ↔ entry ∈ dir.entries ∧
      entry.shouldInclude = true ∧ entry.parent_id = parent.id
  linked : ∀ parent ∈ dir.entries, parent.is_del = false -> Linked .root (siblings parent.id)

/-- A handle is that of an item that is not deleted. -/
def LinkedDirectory.Live (dir : LinkedDirectory) (handle : Int) : Prop :=
  ∃ entry ∈ dir.entries, entry.is_del = false ∧ entry.metahandle = handle

/-- An item is a child of another; both are given by their handles. -/
def LinkedDirectory.ChildOf (dir : LinkedDirectory) (child parent : Int) : Prop :=
  ∃ entry ∈ dir.entries, entry.shouldInclude = true ∧ entry.metahandle = child ∧
    ∃ above ∈ dir.entries, above.is_del = false ∧ above.id = entry.parent_id ∧
      above.metahandle = parent

theorem LinkedEntry.shouldInclude_iff {entry : LinkedEntry} :
    entry.shouldInclude = true ↔ entry.is_del = false ∧ entry.id ≠ .root := by
  rw [shouldInclude, and_eq_true, not_eq_true', not_eq_true']
  apply and_congr_right'
  cases entry.id <;> simp [Id.isRoot]

theorem isRoot_eq_false {id : Id} (ne : id ≠ .root) : id.isRoot = false := by
  cases id with
  | root => exact absurd rfl ne
  | client => rfl
  | server => rfl

namespace IsTree

variable (tree : IsTree dir level siblings)

include tree

variable {entry parent : LinkedEntry}

section

variable (member : entry ∈ dir.entries)
include member

theorem getByHandle_eq : dir.getByHandle entry.metahandle = some entry :=
  find?_eq_of_nodup tree.handles member

theorem getById_eq : dir.getById entry.id = some entry := find?_eq_of_nodup tree.ids member

theorem eq_of_handle (isOther : other ∈ dir.entries) (same : entry.metahandle = other.metahandle) :
    entry = other :=
  eq_of_map_eq tree.handles member isOther same

theorem eq_of_id (isOther : other ∈ dir.entries) (same : entry.id = other.id) : entry = other :=
  eq_of_map_eq tree.ids member isOther same

end

theorem parent_unique {parent other : Int} (isChild : dir.ChildOf child parent)
    (isOther : dir.ChildOf child other) :
    parent = other := by
  obtain ⟨entry, mem, -, rfl, above, isAbove, -, isParent, rfl⟩ := isChild
  obtain ⟨again, inEntries, -, same, above', isAbove', -, isParent', rfl⟩ := isOther
  obtain rfl := tree.eq_of_handle inEntries mem same
  rw [tree.eq_of_id isAbove isAbove' (isParent.trans isParent'.symm)]

theorem level_child {parent : Int} (isChild : dir.ChildOf child parent) :
    level child = level parent + 1 := by
  obtain ⟨entry, mem, included, rfl, above, isAbove, -, isParent, rfl⟩ := isChild
  obtain ⟨other, isOther, -, isSame, isLevel⟩ := tree.parent entry mem included
  rw [isLevel, tree.eq_of_id isOther isAbove (isSame.trans isParent.symm)]

/-- An item that is not the root has a parent. -/
theorem exists_parent (mem : entry ∈ dir.entries) (live : entry.is_del = false)
    (notRoot : entry.id ≠ .root) :
    ∃ parent ∈ dir.entries, parent.is_del = false ∧ parent.id = entry.parent_id ∧
      dir.ChildOf entry.metahandle parent.metahandle := by
  have included := LinkedEntry.shouldInclude_iff.mpr ⟨live, notRoot⟩
  obtain ⟨parent, isParent, liveParent, isId, -⟩ := tree.parent entry mem included
  exact ⟨parent, isParent, liveParent, isId,
    entry, mem, included, rfl, parent, isParent, liveParent, isId, rfl⟩

/-- An item and those above it are as many as its level says. -/
theorem exists_chain (depth : Nat) (mem : entry ∈ dir.entries) (live : entry.is_del = false)
    (isLevel : level entry.metahandle = depth) :
    ∃ chain : List LinkedEntry, chain.Nodup ∧ chain.length = depth + 1 ∧
      ∀ above ∈ chain, above ∈ dir.entries ∧ level above.metahandle <= depth := by
  induction depth generalizing entry with
  | zero =>
    refine ⟨[entry], nodup_singleton _, rfl, fun above isAbove => ?_⟩
    rw [mem_singleton.mp isAbove, isLevel]
    exact ⟨mem, Nat.le_refl _⟩
  | succ depth ih =>
    have notRoot : entry.id ≠ .root := by
      intro isRoot
      obtain ⟨root, isMem, -, isId, -, atTop⟩ := tree.root
      rw [tree.eq_of_id mem isMem (isRoot.trans isId.symm), atTop] at isLevel
      cases isLevel
    obtain ⟨parent, isParent, liveParent, -, isChild⟩ := tree.exists_parent mem live notRoot
    have isAbove := tree.level_child isChild
    rw [isLevel] at isAbove
    obtain ⟨chain, nodup, len, inside⟩ := ih isParent liveParent (Nat.succ.inj isAbove.symm)
    refine ⟨entry :: chain, nodup_cons.mpr ⟨fun inChain => ?_, nodup⟩,
      by rw [length_cons, len], ?_⟩
    · have below := (inside entry inChain).2
      rw [isLevel] at below
      exact not_succ_le_self _ below
    · intro above inChain
      rcases mem_cons.mp inChain with rfl | later
      · exact ⟨mem, Nat.le_of_eq isLevel⟩
      · exact ⟨(inside above later).1, le_succ_of_le (inside above later).2⟩

/-- There are more items than levels. -/
theorem level_lt (live : dir.Live handle) : level handle < dir.entries.length := by
  obtain ⟨entry, mem, notDeleted, rfl⟩ := live
  obtain ⟨chain, nodup, len, inside⟩ := tree.exists_chain _ mem notDeleted rfl
  have fewer := (nodup.subperm fun above inChain => (inside above inChain).1).length_le
  rw [len] at fewer
  exact fewer

/-- The handles of the children of an item, in the order of the siblings. -/
theorem childOf_iff_mem_siblings (mem : parent ∈ dir.entries) (live : parent.is_del = false) :
    dir.ChildOf child parent.metahandle ↔ child ∈ (siblings parent.id).map (·.metahandle) := by
  rw [List.mem_map]
  constructor
  · rintro ⟨entry, inEntries, included, rfl, above, isAbove, -, isParent, same⟩
    obtain rfl := tree.eq_of_handle isAbove mem same
    exact ⟨entry, (tree.mem_siblings above mem live entry).mpr
      ⟨inEntries, included, isParent.symm⟩, rfl⟩
  · rintro ⟨entry, isSibling, rfl⟩
    obtain ⟨inEntries, included, isParent⟩ :=
      (tree.mem_siblings parent mem live entry).mp isSibling
    exact ⟨entry, inEntries, included, rfl, parent, mem, live, isParent.symm, rfl⟩

theorem nodup_siblings (mem : parent ∈ dir.entries) (live : parent.is_del = false) :
    ((siblings parent.id).map (·.metahandle)).Nodup := by
  refine (tree.nodup parent mem live).map_on ?_
  intro entry isSibling other isOther same
  exact tree.eq_of_handle ((tree.mem_siblings parent mem live entry).mp isSibling).1
    ((tree.mem_siblings parent mem live other).mp isOther).1 same

theorem length_siblings (mem : parent ∈ dir.entries) (live : parent.is_del = false) :
    (siblings parent.id).length <= dir.entries.length :=
  ((tree.nodup parent mem live).subperm fun entry isSibling =>
    ((tree.mem_siblings parent mem live entry).mp isSibling).1).length_le

end IsTree

/-- The sibling in front of one is the one that it is linked to. -/
theorem Linked.prev {prev : Id} (linked : Linked prev (front ++ entry :: back)) :
    entry.prev_id = (front.getLast?.map (·.id)).getD prev := by
  induction front generalizing prev with
  | nil => exact linked.1
  | cons first front ih =>
    rw [ih linked.2.2]
    cases front with
    | nil => rfl
    | cons second front => rfl

namespace IsTree

variable (tree : IsTree dir level siblings)

include tree

theorem walkToFront_eq {front back : List LinkedEntry}
    (linked : Linked .root (front ++ entry :: back))
    (inside : ∀ sibling ∈ front ++ entry :: back, sibling ∈ dir.entries ∧ sibling.id ≠ .root)
    (enough : front.length < fuel) :
    dir.walkToFront fuel entry = ((front ++ entry :: back).head?).map (·.id) := by
  induction front using reverseRecOn generalizing entry back fuel with
  | nil =>
    cases fuel with
    | zero => cases enough
    | succ fuel =>
      rw [LinkedDirectory.walkToFront, linked.prev]
      rfl
  | append_singleton front last ih =>
    cases fuel with
    | zero => cases enough
    | succ fuel =>
      have isPrev := linked.prev
      rw [getLast?_concat, map_some, getD_some] at isPrev
      rw [append_assoc, singleton_append] at linked inside ⊢
      obtain ⟨inEntries, notRoot⟩ := inside last (mem_append_right _ mem_cons_self)
      rw [LinkedDirectory.walkToFront, isPrev, isRoot_eq_false notRoot,
        if_neg Bool.false_ne_true, tree.getById_eq inEntries]
      rw [length_append, length_singleton] at enough
      exact ih linked inside (lt_of_succ_lt_succ enough)

/-- The first child is at the front of the list of siblings. -/
theorem getFirstChildId_eq {parent : LinkedEntry} (mem : parent ∈ dir.entries)
    (live : parent.is_del = false) :
    dir.getFirstChildId parent.id = some (((siblings parent.id).head?.map (·.id)).getD .root) := by
  have isSibling := tree.mem_siblings parent mem live
  have linked := tree.linked parent mem live
  have len := tree.length_siblings mem live
  rw [LinkedDirectory.getFirstChildId]
  cases found : dir.entries.find? fun entry =>
      entry.shouldInclude && entry.parent_id = parent.id &&
        (entry.prev_id.isRoot || entry.prev_id ≠ entry.next_id) with
  | none =>
    rcases isList : siblings parent.id with _ | ⟨first, rest⟩
    · rfl
    · rw [isList] at linked
      obtain ⟨inEntries, included, isParent⟩ := (isSibling first).mp (by
        rw [isList]
        exact mem_cons_self)
      have fails := List.find?_eq_none.mp found first inEntries
      rw [included, isParent, linked.1] at fails
      exact absurd (by simp [Id.isRoot]) fails
  | some entry =>
    have inEntries := mem_of_find?_eq_some found
    have inv := find?_some found
    simp only [and_eq_true, decide_eq_true_eq] at inv
    obtain ⟨front, back, isList⟩ := append_of_mem ((isSibling entry).mpr ⟨inEntries, inv.1⟩)
    rw [isList] at linked len
    rw [length_append, length_cons] at len
    have inside : ∀ sibling ∈ front ++ entry :: back,
        sibling ∈ dir.entries ∧ sibling.id ≠ .root := by
      intro sibling isMem
      rw [← isList] at isMem
      obtain ⟨isEntry, included, -⟩ := (isSibling sibling).mp isMem
      exact ⟨isEntry, (LinkedEntry.shouldInclude_iff.mp included).2⟩
    dsimp only
    rw [tree.walkToFront_eq linked inside (by omega), isList]
    cases front with
    | nil => rfl
    | cons first front => rfl

/-- The siblings are found from the first on. -/
theorem siblingHandles_eq {prev : Id} (linked : Linked prev list)
    (inside : ∀ sibling ∈ list, sibling ∈ dir.entries ∧ sibling.id ≠ .root)
    (enough : list.length < fuel) :
    siblingHandles dir fuel ((list.head?.map (·.id)).getD .root) =
      some (list.map (·.metahandle)) := by
  induction list generalizing prev fuel with
  | nil =>
    cases fuel with
    | zero => cases enough
    | succ fuel => rfl
  | cons entry list ih =>
    cases fuel with
    | zero => cases enough
    | succ fuel =>
      obtain ⟨inEntries, notRoot⟩ := inside entry mem_cons_self
      rw [head?_cons, map_some, getD_some, siblingHandles,
        isRoot_eq_false notRoot, if_neg Bool.false_ne_true,
        tree.getById_eq inEntries]
      simp only [bind_eq_bind, bind_some]
      rw [linked.2.1, ih linked.2.2 ((forall_mem_cons.mp inside).2) (lt_of_succ_lt_succ enough)]
      rfl

/-- The children of an item are enumerated in the order of the siblings. -/
theorem enumerates {parent : LinkedEntry} (mem : parent ∈ dir.entries)
    (live : parent.is_del = false) :
    ∃ first, dir.getFirstChildId parent.id = some first ∧
      siblingHandles dir (dir.entries.length + 1) first =
        some ((siblings parent.id).map (·.metahandle)) := by
  refine ⟨_, tree.getFirstChildId_eq mem live,
    tree.siblingHandles_eq (tree.linked parent mem live) ?_
      (lt_succ_of_le (tree.length_siblings mem live))⟩
  intro sibling isSibling
  obtain ⟨inEntries, included, -⟩ := (tree.mem_siblings parent mem live sibling).mp isSibling
  exact ⟨inEntries, (LinkedEntry.shouldInclude_iff.mp included).2⟩

end IsTree

end

end Chromium.Sync
