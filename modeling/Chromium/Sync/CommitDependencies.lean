import Chromium.Library.DependencyOrder
import Chromium.Sync.GetCommitIdsCommand

/-!
# What an item needs to be committed

An item that is created or moved needs its parent, if the server does not know
it, and the sibling in front of it, if that is unsynced. Climbing the tree
gathers what is needed from the leaf to the root.
-/

namespace Chromium.Sync

open Library Bool List Option

namespace Directory

/-- Parent links lead from every item that is not deleted, through items that
are not deleted, to the root. -/
def TreeBy (dir : Directory) (depth : Id -> Nat) : Prop :=
  ∀ entry ∈ dir.entries, entry.is_del = false -> entry.id ≠ .root ->
    depth entry.parent_id < depth entry.id ∧ (entry.parent_id = .root ∨ ∃ parent ∈ dir.entries,
        parent.id = entry.parent_id ∧ parent.is_del = false)

/-- Sibling links lead through the items of one parent to the first. -/
def ListsBy (dir : Directory) (place : Id -> Nat) : Prop :=
  ∀ entry ∈ dir.entries, entry.is_del = false -> entry.id ≠ .root ->
    entry.prev_id ≠ .root -> ∃ sibling ∈ dir.entries,
      sibling.id = entry.prev_id ∧ sibling.is_del = false ∧ sibling.parent_id = entry.parent_id ∧
        place sibling.id < place entry.id

/-- The parent links of a directory form a tree and its sibling links a list for
every parent. -/
structure WellFormed (dir : Directory) : Prop where
  handles : (dir.entries.map EntryKernel.metahandle).Nodup
  ids : (dir.entries.map EntryKernel.id).Nodup
  root_live : ∀ entry ∈ dir.entries, entry.id = .root -> entry.is_del = false
  not_own_parent : ∀ entry ∈ dir.entries, entry.id = entry.parent_id -> entry.id = .root
  tree : ∃ depth, dir.TreeBy depth
  lists : ∃ place, dir.ListsBy place

end Directory

open Directory

/-- An item that is to be committed as a move or a creation. -/
structure Live (dir : Directory) (entry : EntryKernel) : Prop where
  mem : entry ∈ dir.entries
  is_del : entry.is_del = false
  id : entry.id ≠ .root

/-- An item needs its parent if the server does not know it. -/
structure NeedsParent (dir : Directory) (entry parent : EntryKernel) : Prop where
  mem : parent ∈ dir.entries
  id : parent.id = entry.parent_id
  unknown : entry.parent_id.serverKnows = false

/-- An item needs the sibling in front of it if that is unsynced. -/
structure NeedsSibling (dir : Directory) (entry sibling : EntryKernel) : Prop where
  mem : sibling ∈ dir.entries
  id : sibling.id = entry.prev_id
  notRoot : entry.prev_id ≠ .root
  is_unsynced : sibling.is_unsynced = true

def Needs (dir : Directory) (entry other : EntryKernel) : Prop :=
  NeedsParent dir entry other ∨ NeedsSibling dir entry other

variable {dir : Directory} {entry other : EntryKernel}

theorem eq_of_map_eq {α β : Type} {list : List α} {read : α -> β} (nodup : (list.map read).Nodup)
    {first second : α} (firstMem : first ∈ list) (secondMem : second ∈ list)
    (same : read first = read second) :
    first = second :=
  inj_on_of_nodup_map nodup firstMem secondMem same

theorem find?_eq_of_nodup {α β : Type} [DecidableEq β] {list : List α} {read : α -> β}
    (nodup : (list.map read).Nodup) {mem : α} (isMem : mem ∈ list) :
    list.find? (fun other => read other = read mem) = some mem := by
  cases found : list.find? (fun other => read other = read mem) with
  | none =>
    have fails := List.find?_eq_none.mp found mem isMem
    exact absurd (decide_eq_true rfl) fails
  | some other =>
    have same : read other = read mem := by simpa using find?_some found
    rw [eq_of_map_eq nodup (mem_of_find?_eq_some found) isMem same]

theorem Directory.WellFormed.getById_eq (wf : dir.WellFormed) (isEntry : entry ∈ dir.entries) :
    dir.getById entry.id = some entry :=
  find?_eq_of_nodup wf.ids isEntry

theorem Directory.WellFormed.getByHandle_eq (wf : dir.WellFormed) (isEntry : entry ∈ dir.entries) :
    dir.getByHandle entry.metahandle = some entry :=
  find?_eq_of_nodup wf.handles isEntry

theorem isRoot_iff {id : Id} : id.isRoot = true ↔ id = .root := by
  cases id <;> simp [Id.isRoot]

theorem serverKnows_root : Id.root.serverKnows = true := rfl

/-- Two disjoint sets of items that are moved or created, of which the second
is gathered for the first. -/
structure Gathered (dir : Directory) (ordered result : OrderedCommitSet)
    (order pending : List EntryKernel) : Prop where
  ordered : ordered.Holds (order.map EntryKernel.commitItem)
  result : result.Holds (pending.map EntryKernel.commitItem)
  orderLive : ∀ entry ∈ order, Live dir entry
  pendingLive : ∀ entry ∈ pending, Live dir entry
  disjoint : ∀ entry ∈ pending, entry ∉ order

theorem mem_handles_iff (wf : dir.WellFormed) {list : List EntryKernel}
    (live : ∀ entry ∈ list, entry ∈ dir.entries) (isEntry : entry ∈ dir.entries) :
    entry.metahandle ∈ (list.map EntryKernel.commitItem).map CommitItem.metahandle ↔
      entry ∈ list := by
  rw [List.map_map, List.mem_map]
  constructor
  · rintro ⟨other, mem, same⟩
    rwa [← eq_of_map_eq wf.handles (live other mem) isEntry same]
  · intro mem
    exact ⟨entry, mem, rfl⟩

theorem nodup_of_holds {set_ : OrderedCommitSet} {list : List EntryKernel}
    (inv : set_.Holds (list.map EntryKernel.commitItem)) :
    list.Nodup := by
  have nodup := inv.nodup
  rw [List.map_map] at nodup
  exact nodup.of_map _

namespace Gathered

variable {ordered result : OrderedCommitSet}

section

variable (gathered : Gathered dir ordered result order pending)
include gathered

/-- An item that is in one of the sets is not added. -/
theorem addItem_eq_none (wf : dir.WellFormed) (isEntry : entry ∈ dir.entries)
    (present : entry ∈ pending ∨ entry ∈ order) :
    addItem ordered entry result = none := by
  have isPresent : (result.haveCommitItem entry.metahandle ||
      ordered.haveCommitItem entry.metahandle) = true := by
    rw [or_eq_true, gathered.result.haveCommitItem_iff, gathered.ordered.haveCommitItem_iff,
      mem_handles_iff wf (fun other member => (gathered.pendingLive other member).mem) isEntry,
      mem_handles_iff wf (fun other member => (gathered.orderLive other member).mem) isEntry]
    exact present
  rw [addItem, if_pos isPresent]

theorem not_haveCommitItem (wf : dir.WellFormed)
    (live : Live dir entry) (notPending : entry ∉ pending) (notOrdered : entry ∉ order) :
    ¬ (result.haveCommitItem entry.metahandle ||
      ordered.haveCommitItem entry.metahandle) = true := by
  rw [or_eq_true, gathered.result.haveCommitItem_iff, gathered.ordered.haveCommitItem_iff,
    mem_handles_iff wf (fun other member => (gathered.pendingLive other member).mem) live.mem,
    mem_handles_iff wf (fun other member => (gathered.orderLive other member).mem) live.mem]
  exact not_or.mpr ⟨notPending, notOrdered⟩

theorem addItem_eq_some (wf : dir.WellFormed) (live : Live dir entry) (notPending : entry ∉ pending)
    (notOrdered : entry ∉ order) :
    ∃ added, addItem ordered entry result = some added ∧
      Gathered dir ordered added order (pending ++ [entry]) := by
  refine ⟨_, if_neg (gathered.not_haveCommitItem wf live notPending
    notOrdered), gathered.ordered, ?_, gathered.orderLive, ?_, ?_⟩
  · rw [map_append]
    apply @OrderedCommitSet.Holds.addCommitItem result _ gathered.result entry.commitItem
    change entry.metahandle ∉ _
    rw [mem_handles_iff wf (fun other member => (gathered.pendingLive other member).mem) live.mem]
    exact notPending
  · intro other member
    rcases List.mem_append.mp member with isPending | isNew
    · exact gathered.pendingLive other isPending
    · rw [List.mem_singleton.mp isNew]
      exact live
  · intro other member
    rcases List.mem_append.mp member with isPending | isNew
    · exact gathered.disjoint other isPending
    · rw [List.mem_singleton.mp isNew]
      exact notOrdered

/-- There are at most as many items gathered as entries. -/
theorem length_le : pending.length <= dir.entries.length :=
  (subperm_of_subset (nodup_of_holds gathered.result)
    fun _ member => (gathered.pendingLive _ member).mem).length_le

end

end Gathered

/-- What is still waited for: a parent, and the sibling in front of the item
that was added last. -/
def WaitsFor (dir : Directory) (parent_id prev_id : Id) (entry other : EntryKernel) : Prop :=
  NeedsParent dir entry other ∧ other.id = parent_id ∨
    NeedsSibling dir entry other ∧ other.id = prev_id

/-- What is waited for when all siblings are gathered: a parent. -/
def WaitsForParent (dir : Directory) (parent_id : Id) (entry other : EntryKernel) : Prop :=
  NeedsParent dir entry other ∧ other.id = parent_id

/-- The items that are gathered are below a parent. -/
def Below (depth : Id -> Nat) (parent_id : Id) (pending : List EntryKernel) : Prop :=
  ∀ entry ∈ pending, depth parent_id < depth entry.parent_id ∨ entry.parent_id = parent_id

/-- The loop over the predecessors gathers all that are needed. -/
theorem addPredecessors_gathers
    (wf : dir.WellFormed) {place depth : Id -> Nat} (lists : dir.ListsBy place)
    {ordered : OrderedCommitSet} {order : List EntryKernel} (fuel : Nat)
    (gathered : Gathered dir ordered result order pending)
    (lastLive : Live dir last)
    (behind : ∀ entry ∈ pending, depth last.parent_id < depth entry.parent_id ∨
        entry.parent_id = last.parent_id ∧ place last.id <= place entry.id)
    (waits : Waits (Needs dir) order (WaitsFor dir last.parent_id last.prev_id) pending)
    (enough : dir.entries.length < fuel + pending.length) :
    ∃ added gatheredThen, addPredecessors dir ordered fuel last.prev_id result = some added ∧
        Gathered dir ordered added order gatheredThen ∧
        Waits (Needs dir) order (WaitsForParent dir last.parent_id) gatheredThen ∧
        Below depth last.parent_id gatheredThen ∧ pending.length <= gatheredThen.length ∧
        pending ⊆ gatheredThen := by
  have below : Below depth last.parent_id pending :=
    fun entry mem => (behind entry mem).imp_right And.left
  induction fuel generalizing result pending last with
  | zero =>
    have := gathered.length_le
    omega
  | succ fuel ih =>
    rw [addPredecessors]
    by_cases isFirst : last.prev_id = .root
    · rw [if_pos (isRoot_iff.mpr isFirst)]
      refine ⟨result, pending, rfl, gathered, waits.imp ?_, below, le_rfl, List.Subset.refl _⟩
      rintro entry - other - (parent | ⟨sibling, isPrev⟩)
      · exact .inr parent
      · rw [isFirst] at isPrev
        exact absurd (sibling.id.symm.trans isPrev) sibling.notRoot
    · rw [if_neg (mt isRoot_iff.mp isFirst)]
      obtain ⟨prev, isEntry, isPrev, prevLive, sameParent, before⟩ :=
        lists last lastLive.mem lastLive.is_del lastLive.id isFirst
      have hit := wf.getById_eq isEntry
      rw [isPrev] at hit
      rw [hit, bind_eq_bind, bind_some]
      have isSame : ∀ {entry other}, NeedsSibling dir entry other ->
          other.id = last.prev_id -> other = prev := by
        intro entry other sibling isOther
        exact eq_of_map_eq wf.ids sibling.mem isEntry (isOther.trans isPrev.symm)
      by_cases unsynced : prev.is_unsynced = true
      · rw [unsynced, Bool.not_true, if_neg Bool.false_ne_true]
        have notPending : prev ∉ pending := by
          intro mem
          rcases behind prev mem with deeper | ⟨_, atLeast⟩
          · rw [sameParent] at deeper
            exact lt_irrefl _ deeper
          · exact absurd before (Nat.not_lt.mpr atLeast)
        by_cases isOrdered : prev ∈ order
        · rw [gathered.addItem_eq_none wf isEntry (.inr isOrdered)]
          refine ⟨result, pending, rfl, gathered, waits.imp ?_, below, le_rfl, List.Subset.refl _⟩
          rintro entry - other - (parent | ⟨sibling, isOther⟩)
          · exact .inr parent
          · left
            rw [isSame sibling isOther]
            exact isOrdered
        · have live : Live dir prev := by
            refine ⟨isEntry, prevLive, ?_⟩
            rw [isPrev]
            exact isFirst
          obtain ⟨added, adds, gatheredThen⟩ :=
            gathered.addItem_eq_some wf live notPending isOrdered
          rw [adds]
          have behindThen : ∀ entry ∈ pending ++ [prev],
              depth prev.parent_id < depth entry.parent_id ∨ entry.parent_id = prev.parent_id ∧
                  place prev.id <= place entry.id := by
            intro entry mem
            rw [sameParent]
            rcases List.mem_append.mp mem with isPending | isNew
            · refine (behind entry isPending).imp_right ?_
              exact fun both => ⟨both.1, before.le.trans both.2⟩
            · rw [List.mem_singleton.mp isNew]
              exact .inr ⟨sameParent, le_rfl⟩
          have waitsThen : Waits (Needs dir) order (WaitsFor dir prev.parent_id prev.prev_id)
              (pending ++ [prev]) := by
            rw [sameParent]
            apply waits.concat
            · rintro entry - other - (parent | ⟨sibling, isOther⟩)
              · exact .inr (.inl parent)
              · exact .inl (isSame sibling isOther)
            · rintro other (parent | sibling)
              · refine .inr (.inl ⟨parent, ?_⟩)
                rw [parent.id, sameParent]
              · exact .inr (.inr ⟨sibling, sibling.id⟩)
          have result := ih gatheredThen live behindThen waitsThen (by
            rw [length_append, length_singleton]
            omega) (fun entry mem => (behindThen entry mem).imp_right And.left)
          rw [sameParent, length_append, length_singleton] at result
          obtain ⟨addedThen, all, loops, gatheredAll, waitsAll, belowAll, more, subset⟩ := result
          exact ⟨addedThen, all, loops, gatheredAll, waitsAll, belowAll, by omega, fun _ mem =>
              subset (mem_append_left _ mem)⟩
      · rw [not_eq_true] at unsynced
        rw [unsynced, Bool.not_false, if_pos rfl]
        refine ⟨result, pending, rfl, gathered, waits.imp ?_, below, le_rfl,
        List.Subset.refl _⟩
        rintro entry - other - (parent | ⟨sibling, isOther⟩)
        · exact .inr parent
        · have := sibling.is_unsynced
          rw [isSame sibling isOther, unsynced] at this
          cases this

/-- An item is added with the unsynced siblings in front of it. -/
theorem addItemThenPredecessors_gathers
    (wf : dir.WellFormed) {place depth : Id -> Nat} (lists : dir.ListsBy place)
    {ordered result : OrderedCommitSet} {order pending : List EntryKernel}
    (gathered : Gathered dir ordered result order pending)
    (live : Live dir entry) (notPending : entry ∉ pending) (notOrdered : entry ∉ order)
    (above : ∀ other ∈ pending, depth entry.parent_id < depth other.parent_id)
    (waits : Waits (Needs dir) order (WaitsForParent dir entry.id) pending) :
    ∃ added all, addItemThenPredecessors dir ordered entry result = some (true, added) ∧
        Gathered dir ordered added order all ∧
        Waits (Needs dir) order (WaitsForParent dir entry.parent_id) all ∧
        Below depth entry.parent_id all ∧ pending.length < all.length ∧
        pending ++ [entry] ⊆ all := by
  obtain ⟨first, adds, gatheredFirst⟩ := gathered.addItem_eq_some wf live notPending notOrdered
  have waitsFirst : Waits (Needs dir) order
      (WaitsFor dir entry.parent_id entry.prev_id) (pending ++ [entry]) := by
    apply waits.concat
    · rintro mem - other - ⟨parent, isEntry⟩
      exact .inl (eq_of_map_eq wf.ids parent.mem live.mem isEntry)
    · rintro other (parent | sibling)
      · exact .inr (.inl ⟨parent, parent.id⟩)
      · exact .inr (.inr ⟨sibling, sibling.id⟩)
  have behind : ∀ other ∈ pending ++ [entry], depth entry.parent_id < depth other.parent_id ∨
        other.parent_id = entry.parent_id ∧ place entry.id <= place other.id := by
    intro other mem
    rcases List.mem_append.mp mem with isPending | isNew
    · exact .inl (above other isPending)
    · rw [List.mem_singleton.mp isNew]
      exact .inr ⟨rfl, le_rfl⟩
  obtain ⟨added, all, loops, gatheredAll, waitsAll, below, more, subset⟩ :=
    addPredecessors_gathers wf lists (dir.entries.length + 1) gatheredFirst live
      behind waitsFirst (by omega)
  rw [length_append, length_singleton] at more
  refine ⟨added, all, ?_, gatheredAll, waitsAll, below, more, subset⟩
  rw [addItemThenPredecessors, adds]
  dsimp only
  rw [live.is_del, if_neg Bool.false_ne_true, loops]
  rfl

/-- The climb gathers all that is needed up to a parent the server knows. -/
theorem climbParents_gathers
    (wf : dir.WellFormed) {place depth : Id -> Nat} (tree : dir.TreeBy depth)
    (lists : dir.ListsBy place) {ordered : OrderedCommitSet}
    {order : List EntryKernel} (fuel : Nat)
    (gathered : Gathered dir ordered result order pending) (below : Below depth parent_id pending)
    (waits : Waits (Needs dir) order (WaitsForParent dir parent_id) pending)
    (exists_ : parent_id = .root ∨ ∃ parent ∈ dir.entries,
      parent.id = parent_id ∧ parent.is_del = false)
    (enough : dir.entries.length < fuel + pending.length) :
    ∃ added all, climbParents dir ordered fuel parent_id result = some added ∧
        Gathered dir ordered added order all ∧ Waits (Needs dir) order (fun _ _ => False) all ∧
        pending ⊆ all ∧ (parent_id.serverKnows = false -> ∀ parent ∈ dir.entries,
          parent.id = parent_id -> parent ∈ order ∨ parent ∈ all) := by
  induction fuel generalizing result pending parent_id with
  | zero =>
    have := gathered.length_le
    omega
  | succ fuel ih =>
    rw [climbParents]
    by_cases known : parent_id.serverKnows = true
    · rw [if_pos known]
      refine ⟨result, pending, rfl, gathered, waits.imp ?_, List.Subset.refl _, fun unknown => ?_⟩
      · rintro member - other - ⟨parent, isParent⟩
        have unknown := parent.unknown
        rw [← parent.id, isParent, known] at unknown
        cases unknown
      · rw [known] at unknown
        cases unknown
    rw [if_neg known]
    have notRoot : parent_id ≠ .root := by
      rintro rfl
      exact known serverKnows_root
    obtain ⟨parent, isEntry, isParent, parentLive⟩ := exists_.resolve_left notRoot
    subst isParent
    have live : Live dir parent := ⟨isEntry, parentLive, notRoot⟩
    obtain ⟨shallower, exists_⟩ := tree parent isEntry parentLive notRoot
    have notPending : parent ∉ pending := by
      intro member
      rcases below parent member with deeper | same
      · exact absurd shallower (Nat.not_lt.mpr deeper.le)
      · rw [same] at shallower
        exact lt_irrefl _ shallower
    rw [wf.getById_eq isEntry, bind_eq_bind, bind_some]
    by_cases isOrdered : parent ∈ order
    · have present : ordered.haveCommitItem parent.metahandle = true := by
        rw [gathered.ordered.haveCommitItem_iff, mem_handles_iff wf
          (fun other member => (gathered.orderLive other member).mem) isEntry]
        exact isOrdered
      rw [present, Bool.true_or, if_pos rfl]
      refine ⟨result, pending, rfl, gathered, waits.imp ?_,
        List.Subset.refl _, fun _ other isOther same => ?_⟩
      · rintro member - other - ⟨isNeeded, same⟩
        left
        rw [eq_of_map_eq wf.ids isNeeded.mem isEntry same]
        exact isOrdered
      · rw [eq_of_map_eq wf.ids isOther isEntry same]
        exact .inl isOrdered
    · have absent := gathered.not_haveCommitItem wf live notPending isOrdered
      rw [Bool.or_comm] at absent
      rw [if_neg absent]
      have above : ∀ other ∈ pending, depth parent.parent_id < depth other.parent_id := by
        intro other member
        rcases below other member with deeper | same
        · exact shallower.trans deeper
        · rw [same]
          exact shallower
      obtain ⟨added, all, adds, gatheredAll, waitsAll, belowAll, more, subset⟩ :=
        addItemThenPredecessors_gathers wf lists gathered live notPending isOrdered above waits
      obtain ⟨addedThen, allThen, climbs, gatheredThen, waitsThen, subsetThen, -⟩ :=
        ih gatheredAll belowAll waitsAll exists_ (by omega)
      rw [adds, bind_eq_bind, bind_some]
      dsimp only
      refine ⟨addedThen, allThen, climbs, gatheredThen, waitsThen, ?_, ?_⟩
      · exact fun _ member => subsetThen (subset (mem_append_left _ member))
      · intro _ other isOther same
        rw [eq_of_map_eq wf.ids isOther isEntry same]
        exact .inr (subsetThen (subset (mem_append_right _ (List.mem_singleton_self _))))

/-- The items of the set in their order: all are moved or created, and what
they need is in front of them. -/
structure Creates (dir : Directory) (ordered : OrderedCommitSet)
    (order : List EntryKernel) : Prop where
  holds : ordered.Holds (order.map EntryKernel.commitItem)
  live : ∀ entry ∈ order, Live dir entry
  inOrder : InOrder (Needs dir) order

theorem Creates.gathered (creates : Creates dir ordered order) (routes : ModelSafeRoutingInfo) :
    Gathered dir ordered { routes } order [] where
  ordered := creates.holds
  result := OrderedCommitSet.holds_nil
  orderLive := creates.live
  pendingLive := fun _ mem => absurd mem not_mem_nil
  disjoint := fun _ mem => absurd mem not_mem_nil

/-- What was gathered is appended in reverse. -/
theorem Gathered.appendReverse
    {ordered result : OrderedCommitSet} {order pending : List EntryKernel}
    (gathered : Gathered dir ordered result order pending) (wf : dir.WellFormed)
    (inOrder : InOrder (Needs dir) order)
    (waits : Waits (Needs dir) order (fun _ _ => False) pending) :
    Creates dir (ordered.appendReverse result) (order ++ pending.reverse) where
  holds := by
    rw [map_append, map_reverse]
    apply gathered.ordered.appendReverse gathered.result
    intro item member
    obtain ⟨entry, isPending, rfl⟩ := List.mem_map.mp member
    change entry.metahandle ∉ _
    rw [mem_handles_iff wf (fun other isOther => (gathered.orderLive other isOther).mem)
      (gathered.pendingLive entry isPending).mem]
    exact gathered.disjoint entry isPending
  live := by
    intro entry member
    rcases List.mem_append.mp member with isOrdered | isPending
    · exact gathered.orderLive entry isOrdered
    · exact gathered.pendingLive entry (List.mem_reverse.mp isPending)
  inOrder := inOrder.append_reverse waits

/-- A moved or created item is appended behind what it needs. -/
theorem Creates.addEntry (wf : dir.WellFormed) (creates : Creates dir ordered order)
    (routes : ModelSafeRoutingInfo)
    (live : Live dir entry) :
    ∃ middle next orderThen, addUncommittedParentsAndTheirPredecessors dir entry.parent_id routes
          ordered = some middle ∧ addPredecessorsThenItem dir entry routes middle = some next ∧
        Creates dir next orderThen := by
  obtain ⟨depth, tree⟩ := wf.tree
  obtain ⟨place, lists⟩ := wf.lists
  obtain ⟨-, exists_⟩ := tree entry live.mem live.is_del live.id
  obtain ⟨added, all, climbs, gathered, waits, -, parents⟩ :=
    climbParents_gathers wf tree lists (dir.entries.length + 1) (creates.gathered routes)
      (show Below depth entry.parent_id [] from fun _ mem => absurd mem not_mem_nil)
      waits_nil exists_ (by omega)
  have middle := gathered.appendReverse wf creates.inOrder waits
  have hasParent : entry.parent_id.serverKnows = false ->
      ∀ parent ∈ dir.entries, parent.id = entry.parent_id -> parent ∈ order ++ all.reverse := by
    intro unknown parent isEntry isParent
    rw [mem_append, mem_reverse]
    exact parents unknown parent isEntry isParent
  generalize order ++ all.reverse = middleOrder at middle hasParent
  rw [addUncommittedParentsAndTheirPredecessors, climbs]
  by_cases isOrdered : entry ∈ middleOrder
  · have skips : addItemThenPredecessors dir (ordered.appendReverse added) entry
        { routes } = some (false, { routes }) := by
      rw [addItemThenPredecessors, (middle.gathered routes).addItem_eq_none wf
        live.mem (.inr isOrdered)]
    have rest := (middle.gathered routes).appendReverse wf middle.inOrder waits_nil
    refine ⟨_, _, _, rfl, ?_, rest⟩
    rw [addPredecessorsThenItem, skips]
    rfl
  · obtain ⟨addedThen, allThen, adds, gatheredThen, waitsThen, -, -, -⟩ :=
      @addItemThenPredecessors_gathers dir entry wf place depth lists
        (ordered.appendReverse added) { routes } middleOrder []
        (middle.gathered routes) live not_mem_nil isOrdered
        (fun _ mem => absurd mem not_mem_nil) waits_nil
    refine ⟨_, _, _, rfl, ?_, gatheredThen.appendReverse wf middle.inOrder (waitsThen.imp ?_)⟩
    · rw [addPredecessorsThenItem, adds]
      rfl
    · rintro mem - other - ⟨parent, isParent⟩
      refine .inl (hasParent ?_ other parent.mem isParent)
      rw [← isParent, parent.id]
      exact parent.unknown

end Chromium.Sync
