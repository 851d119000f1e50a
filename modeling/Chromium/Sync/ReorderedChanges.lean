import Chromium.Sync.VisitedChanges

/-!
# Changes in tree order

All deletions come first. Every other change comes behind those of the items
above it, and all children of an item with a child that was placed come one
directly behind the other.
-/

namespace Chromium.Sync

open List Option

section

open Library

variable {Specifics Extra : Type} {dir : LinkedDirectory} {level : Int -> Nat}
  {siblings : Id -> List LinkedEntry}
  {buffer : ChangeReorderBuffer Specifics Extra}
  {collected : Collected Specifics Extra}

/-- Operations that were recorded for a tree. An item whose deletion was recorded
is no sibling, and is not above an item with another operation. -/
structure Reorderable (dir : LinkedDirectory) (siblings : Id -> List LinkedEntry)
    (operations : OperationMap) :
    Prop where
  sorted : operations.Pairwise fun i j => i.1 < j.1
  valid : ∀ i ∈ operations, i.1 ≠ kInvalidId
  live : ∀ i ∈ operations, i.2 ≠ .delete -> dir.Live i.1
  notSibling : ∀ i ∈ operations, i.2 = .delete -> ∀ parent ∈ dir.entries,
    parent.is_del = false -> i.1 ∉ (siblings parent.id).map (·.metahandle)
  notAbove : ∀ i ∈ operations, i.2 = .delete -> ∀ j ∈ operations, j.2 ≠ .delete ->
    ¬ Relation.ReflTransGen dir.ChildOf j.1 i.1

/-- The action of the record of an item with an operation. -/
def ReorderOperation.action (op : ReorderOperation) : ChangeAction :=
  if op = .delete then .delete else visitAction op

/-- A list of changes is in the order of a tree. -/
structure InTreeOrder (dir : LinkedDirectory) (siblings : Id -> List LinkedEntry)
    (buffer : ChangeReorderBuffer Specifics Extra)
    (changelist : List (ChangeRecord Specifics Extra)) :
    Prop where
  once : (changelist.map (·.id)).Nodup
  recorded : ∀ i ∈ buffer.operations, buffer.record i.1 i.2.action ∈ changelist
  deletionsFirst : ∃ front back, changelist = front ++ back ∧
    (∀ change ∈ front, change.action = .delete) ∧
    ∀ change ∈ back, change.action ≠ .delete
  behindAncestors : ∀ change ∈ changelist, change.action ≠ .delete ->
    ∀ above ∈ changelist, Relation.TransGen dir.ChildOf change.id above.id ->
      Before (changelist.map (·.id)) above.id change.id
  siblings : ∀ i ∈ buffer.operations, ∀ node parent, PlacesChild dir i node parent ->
    (∃ j ∈ buffer.operations, j.2 ≠ .delete ∧ ¬ Relation.ReflTransGen dir.ChildOf j.1 i.1) ->
    (siblings parent.id).map (·.metahandle) <:+: changelist.map (·.id)

theorem visitAction_ne_delete : visitAction op ≠ .delete := by
  rw [visitAction]
  split <;> decide

theorem lookup_eq_of_mem {operations : OperationMap}
    (sorted : operations.Pairwise fun i j => i.1 < j.1) (mem : i ∈ operations) :
    operations.lookup i.1 = some i.2 := by
  induction sorted with
  | nil => cases mem
  | @cons first rest before _ ih =>
    rw [lookup_cons]
    rcases mem_cons.mp mem with rfl | later
    · simp
    · rw [beq_false_of_ne (Int.ne_of_gt (before i later))]
      exact ih later

theorem mem_of_lookup {operations : OperationMap} (hit : operations.lookup handle = some op) :
    (handle, op) ∈ operations := by
  obtain ⟨front, back, rfl, -⟩ := lookup_eq_some_iff.mp hit
  exact mem_append_right _ mem_cons_self

theorem visitedChanges_concat (next : Int) :
    visitedChanges dir siblings buffer collected (visited ++ [next]) =
      visitedChanges dir siblings buffer collected visited ++
        ((operationOf dir siblings buffer.operations collected next).map
          fun op => buffer.record next (visitAction op)).toList := by
  rw [visitedChanges, visitedChanges, filterMap_append, filterMap_cons]
  cases operationOf dir siblings buffer.operations collected next with
  | none => rfl
  | some op => rfl

/-- A visit of an item, which is recorded if it has an operation. -/
theorem visitLoop_cons (positions : Finset Int) (next : Int) :
    visitLoop dir buffer traversal positions (fuel + 1) (next :: to_visit) operations changelist =
      if next ∉ positions then
        visitLoop dir buffer traversal positions fuel
          (to_visit ++ traversal.childrenOf next) operations
          (changelist ++ ((operations.lookup next).map fun op =>
            buffer.record next (visitAction op)).toList)
      else
        (dir.getByHandle next).bind fun parent =>
          (dir.getFirstChildId parent.id).bind fun begin_ =>
            (siblingHandles dir (dir.entries.length + 1) begin_).bind fun handles =>
              visitLoop dir buffer traversal positions fuel (to_visit ++ handles)
                (handles.foldl noteSibling operations)
                (changelist ++ ((operations.lookup next).map fun op =>
                  buffer.record next (visitAction op)).toList) := by
  rw [visitLoop.eq_def]
  dsimp only
  cases operations.lookup next with
  | none => simp
  | some op => simp

namespace IsTree

variable (tree : IsTree dir level siblings)
  (soFar : CollectedFor dir buffer buffer.operations collected)
  {visited waiting : List Int} {operations : OperationMap}
  {changelist : List (ChangeRecord Specifics Extra)}

include tree soFar

/-- No more items are visited than there are. -/
theorem length_visited_le (underway : Underway (visitedChildren dir siblings collected)
      collected.traversal.top visited waiting) :
    visited.length <= dir.entries.length + 1 := by
  have nodup := underway.nodup (tree.forest_visitedChildren soFar)
  have inside : visited ++ waiting ⊆ collected.traversal.top :: dir.entries.map (·.metahandle) := by
    intro handle mem
    rcases underway.mem_cases mem with rfl | ⟨parent, -, isChild⟩
    · exact mem_cons_self
    · obtain ⟨entry, inEntries, -, rfl, -⟩ := tree.childOf_of_visited soFar isChild
      exact mem_cons_of_mem _ (List.mem_map.mpr ⟨entry, inEntries, rfl⟩)
  have fewer := (nodup.subperm inside).length_le
  rw [length_append, length_cons, length_map] at fewer
  omega

/-- The operation that a visit finds. -/
theorem lookup_next {next : Int}
    (visits : Visits dir siblings buffer collected visited (next :: to_visit)
      operations changelist) :
    operations.lookup next = operationOf dir siblings buffer.operations collected next := by
  rw [visits.lookup, operationOf]
  cases absent : buffer.operations.lookup next with
  | some op => rfl
  | none =>
    apply if_congr _ rfl rfl
    constructor
    · rintro ⟨parent, -, pos, isChild⟩
      exact ⟨parent, pos, isChild⟩
    · rintro ⟨parent, pos, isChild⟩
      rcases visits.underway.mem_cases (mem_append_right _ mem_cons_self) with
        rfl | ⟨other, isVisited, isNext⟩
      · obtain ⟨op, mem⟩ := tree.top_recorded soFar pos isChild
        rw [lookup_eq_none_iff] at absent
        simpa using absent _ mem
      · obtain ⟨entry, mem, live, rfl⟩ := soFar.exists_of_position pos
        have same := tree.parent_unique (tree.childOf_of_visited soFar isNext)
          ((tree.mem_siblingsOf mem live).mp isChild)
        rw [same] at isVisited
        exact ⟨_, isVisited, pos, isChild⟩

theorem visits_next {next : Int} {to_visit handles : List Int}
    (visits : Visits dir siblings buffer collected visited (next :: to_visit) operations changelist)
    (isChildren : handles = visitedChildren dir siblings collected next) :
    Visits dir siblings buffer collected (visited ++ [next]) (to_visit ++ handles)
      (if next ∈ collected.parents_of_position_changes then
        handles.foldl noteSibling operations else operations)
      (changelist ++ ((operations.lookup next).map fun op =>
        buffer.record next (visitAction op)).toList) where
  underway := by
    rw [isChildren]
    exact visits.underway.visit
  lookup := by
    intro handle
    by_cases pos : next ∈ collected.parents_of_position_changes
    · rw [visitedChildren, if_pos pos] at isChildren
      rw [if_pos pos, lookup_foldl_noteSibling, visits.lookup, Option.or_assoc]
      apply congrArg
      by_cases before : ∃ parent ∈ visited, parent ∈ collected.parents_of_position_changes ∧
            handle ∈ siblingsOf dir siblings parent
      · rw [if_pos before, some_or, if_pos]
        obtain ⟨parent, isVisited, rest⟩ := before
        exact ⟨parent, mem_append_left _ isVisited, rest⟩
      · rw [if_neg before, none_or, isChildren]
        apply if_congr _ rfl rfl
        constructor
        · intro isChild
          exact ⟨next, mem_append_right _ mem_cons_self, pos, isChild⟩
        · rintro ⟨parent, isVisited, rest⟩
          rcases mem_append.mp isVisited with earlier | isNext
          · exact absurd ⟨parent, earlier, rest⟩ before
          · rw [mem_singleton.mp isNext] at rest
            exact rest.2
    · rw [if_neg pos, visits.lookup]
      apply congrArg
      apply if_congr _ rfl rfl
      constructor
      · rintro ⟨parent, isVisited, rest⟩
        exact ⟨parent, mem_append_left _ isVisited, rest⟩
      · rintro ⟨parent, isVisited, rest⟩
        rcases mem_append.mp isVisited with earlier | isNext
        · exact ⟨parent, earlier, rest⟩
        · rw [mem_singleton.mp isNext] at rest
          exact absurd rest.1 pos
  changelist := by
    rw [visits.changelist, visitedChanges_concat, append_assoc, tree.lookup_next soFar visits]

/-- The loop visits a whole traversal. -/
theorem visitLoop_eq (fuel : Nat)
    (visits : Visits dir siblings buffer collected visited waiting operations changelist)
    (enough : dir.entries.length + 2 <= visited.length + fuel) :
    ∃ order operations',
      visitLoop dir buffer collected.traversal collected.parents_of_position_changes
          fuel waiting operations changelist = some (collected.changelist ++
          visitedChanges dir siblings buffer collected order, operations') ∧
      Traversed (visitedChildren dir siblings collected) collected.traversal.top order := by
  induction fuel generalizing visited waiting operations changelist with
  | zero =>
    have few := tree.length_visited_le soFar visits.underway
    omega
  | succ fuel ih =>
    cases waiting with
    | nil =>
      refine ⟨visited, operations, ?_, visits.underway⟩
      rw [visitLoop, visits.changelist]
    | cons next to_visit =>
      have enoughNext : dir.entries.length + 2 <= (visited ++ [next]).length + fuel := by
        rw [length_append, length_singleton]
        omega
      rw [visitLoop_cons]
      by_cases pos : next ∈ collected.parents_of_position_changes
      · obtain ⟨parent, mem, live, isNext⟩ := soFar.exists_of_position pos
        obtain ⟨first, isFirst, isHandles⟩ := tree.enumerates mem live
        have isChildren := tree.siblingsOf_eq mem
        rw [isNext] at isChildren
        have visitsNext := tree.visits_next soFar visits
          (show _ = visitedChildren dir siblings collected next by
            rw [visitedChildren, if_pos pos, isChildren])
        rw [if_pos pos] at visitsNext
        rw [if_neg (not_not_intro pos), ← isNext, tree.getByHandle_eq mem]
        simp only [bind_some, isFirst, isHandles]
        rw [isNext]
        exact ih visitsNext enoughNext
      · have visitsNext := tree.visits_next soFar visits
          (show _ = visitedChildren dir siblings collected next by
            rw [visitedChildren, if_neg pos])
        rw [if_neg pos] at visitsNext
        rw [if_pos pos]
        exact ih visitsNext enoughNext

end IsTree

end

/-!
## What is reordered

Every operation that was recorded has one change, and the changes are in the
order of the tree.
-/

section

open Library

variable {Specifics Extra : Type} {dir : LinkedDirectory} {level : Int -> Nat}
  {siblings : Id -> List LinkedEntry}
  {buffer : ChangeReorderBuffer Specifics Extra}
  {collected : Collected Specifics Extra} {order : List Int}

theorem ids_deletions : (deletions buffer operations).map (·.id) =
      (operations.filter (·.2 = .delete)).map Prod.fst := by
  rw [deletions, List.map_map]
  rfl

theorem ids_visitedChanges :
    (visitedChanges dir siblings buffer collected visited).map (·.id) = visited.filter fun handle =>
        (operationOf dir siblings buffer.operations collected handle).isSome := by
  induction visited using reverseRecOn with
  | nil => rfl
  | append_singleton visited next ih =>
    rw [visitedChanges_concat, map_append, ih, filter_append, filter_singleton]
    cases operationOf dir siblings buffer.operations collected next with
    | none => rfl
    | some op => rfl

theorem mem_visitedChanges :
    change ∈ visitedChanges dir siblings buffer collected visited ↔ ∃ handle ∈ visited, ∃ op,
        operationOf dir siblings buffer.operations collected handle = some op ∧
          buffer.record handle (visitAction op) = change := by
  simp only [visitedChanges, mem_filterMap, map_eq_some_iff]

theorem mem_deletions : change ∈ deletions buffer operations ↔
      ∃ i ∈ operations, i.2 = .delete ∧ buffer.record i.1 .delete = change := by
  simp [deletions, and_assoc]

theorem operationOf_of_mem (sorted : buffer.operations.Pairwise fun i j => i.1 < j.1)
    (mem : i ∈ buffer.operations) :
    operationOf dir siblings buffer.operations collected i.1 = some i.2 := by
  rw [operationOf, lookup_eq_of_mem sorted mem, some_or]

theorem ReorderOperation.action_of_ne (ne : op ≠ .delete) : op.action = visitAction op :=
  if_neg ne

theorem ReorderOperation.Places.ne_delete {op : ReorderOperation} (places : op.Places) :
    op ≠ .delete := by
  rintro rfl
  rcases places with isAdd | isMove
  · cases isAdd
  · cases isMove

/-- A member of a list that is kept is behind the same members. -/
theorem before_filter (before : Before order first second) (keepsFirst : keeps first = true)
    (keepsSecond : keeps second = true) :
    Before (order.filter keeps) first second := by
  obtain ⟨front, back, rfl, inFront⟩ := before
  refine ⟨front.filter keeps, back.filter keeps, ?_, mem_filter.mpr ⟨inFront, keepsFirst⟩⟩
  rw [filter_append, filter_cons_of_pos keepsSecond]

theorem reorderedBefore_append (before : Before order first second) (front : List Int) :
    Before (front ++ order) first second := by
  obtain ⟨start, back, rfl, inStart⟩ := before
  exact ⟨front ++ start, back, (append_assoc _ _ _).symm, mem_append_right _ inStart⟩

theorem before_of_mem (isFirst : first ∈ front) (isSecond : second ∈ order) :
    Before (front ++ order) first second := by
  obtain ⟨start, back, rfl⟩ := append_of_mem isSecond
  exact ⟨front ++ start, back, (append_assoc _ _ _).symm, mem_append_left _ isFirst⟩

namespace IsTree

variable (tree : IsTree dir level siblings)
  (soFar : CollectedFor dir buffer buffer.operations collected)
  (traversed : Traversed (visitedChildren dir siblings collected) collected.traversal.top order)

include tree soFar traversed

/-- A child that was linked is visited behind its parent. -/
theorem mem_order_of_link {parent child : Int} (spans : Traversal.Spans dir collected.traversal)
    (isLink : (parent, child) ∈ collected.traversal.links) (isVisited : parent ∈ order) :
    child ∈ order := by
  apply traversed.child_mem isVisited
  rw [visitedChildren]
  by_cases pos : parent ∈ collected.parents_of_position_changes
  · rw [if_pos pos]
    obtain ⟨entry, mem, live, rfl⟩ := soFar.exists_of_position pos
    exact (tree.mem_siblingsOf mem live).mpr (spans.child _ _ isLink)
  · rw [if_neg pos, mem_childrenOf]
    exact isLink

/-- Every item of the traversal is visited. -/
theorem mem_order_of_includes (spans : Traversal.Spans dir collected.traversal)
    (included : collected.traversal.Includes handle) :
    handle ∈ order := by
  generalize depth : level handle = n
  induction n using Nat.strong_induction_on generalizing handle with
  | h n ih =>
    rcases included with rfl | ⟨parent, isLink⟩
    · exact traversed.top_mem
    · have isLevel := tree.level_child (spans.child parent handle isLink)
      exact tree.mem_order_of_link soFar traversed spans isLink
        (ih (level parent) (by omega) (spans.connected parent handle isLink) rfl)

/-- What is recorded and not deleted is visited. -/
theorem mem_order_of_recorded (mem : i ∈ buffer.operations) (ne : i.2 ≠ .delete) :
    i.1 ∈ order := by
  rcases soFar.traversal with spans | ⟨-, onlyDeletions⟩
  · exact tree.mem_order_of_includes soFar traversed spans (soFar.includes i mem ne)
  · exact absurd (onlyDeletions i mem) ne

/-- An item above one that is visited is reached through its children. -/
theorem transGen_children (isVisited : handle ∈ order) (isAbove : above ∈ order)
    (below : Relation.TransGen dir.ChildOf handle above) :
    Relation.TransGen (fun child parent => child ≠ collected.traversal.top ∧
      child ∈ visitedChildren dir siblings collected parent) handle above := by
  have forest := tree.forest_visitedChildren soFar
  have lower : ∀ {one other}, Relation.TransGen dir.ChildOf one other ->
      level other < level one := by
    intro one other chain
    induction chain with
    | single isChild =>
      rw [tree.level_child isChild]
      exact Nat.lt_succ_self _
    | tail _ isChild isLower =>
      rw [tree.level_child isChild] at isLower
      exact Nat.lt_of_succ_lt isLower
  have topLevel := traversed.level_le forest above (by rwa [append_nil])
  induction below using Relation.TransGen.head_induction_on with
  | single isChild =>
    rename_i child
    rcases traversed.mem_cases (by rwa [append_nil]) with
      isTop | ⟨parent, -, isNext⟩
    · have := lower (.single isChild)
      rw [isTop] at this
      omega
    · refine .single ⟨fun isTop => ?_, ?_⟩
      · have := lower (.single isChild)
        rw [isTop] at this
        omega
      · rwa [tree.parent_unique isChild (tree.childOf_of_visited soFar isNext)]
  | head isChild rest ih =>
    rename_i child next
    have notTop : child ≠ collected.traversal.top := by
      rintro rfl
      have := lower (.head isChild rest)
      omega
    rcases traversed.mem_cases (by rwa [append_nil]) with
      isTop | ⟨parent, parentVisited, isNext⟩
    · exact absurd isTop notTop
    · have same := tree.parent_unique isChild (tree.childOf_of_visited soFar isNext)
      rw [← same] at isNext parentVisited
      exact .head ⟨notTop, isNext⟩ (ih parentVisited)

/-- No item that is visited was recorded as deleted. -/
theorem operationOf_ne_delete (recorded : Reorderable dir siblings buffer.operations)
    (isVisited : handle ∈ order)
    (isOperation : operationOf dir siblings buffer.operations collected handle = some op) :
    op ≠ .delete := by
  rintro rfl
  have mem : (handle, .delete) ∈ buffer.operations := by
    apply mem_of_lookup
    cases hit : buffer.operations.lookup handle with
    | some op =>
      rw [operationOf, hit, some_or] at isOperation
      exact isOperation
    | none =>
      rw [operationOf, hit, none_or] at isOperation
      split at isOperation
      · cases isOperation
      · cases isOperation
  rcases traversed.mem_cases (by rwa [append_nil]) with
    isTop | ⟨parent, -, isNext⟩
  · have ok := recorded.valid _ mem
    rw [isTop] at ok
    obtain ⟨j, isRecorded, ne, above⟩ := soFar.above ok
    rw [← isTop] at above
    exact recorded.notAbove _ mem rfl j isRecorded ne above
  · obtain ⟨entry, inEntries, included, rfl, above, isAbove, live, isParent, rfl⟩ :=
      tree.childOf_of_visited soFar isNext
    apply recorded.notSibling _ mem rfl above isAbove live
    exact (tree.childOf_iff_mem_siblings isAbove live).mp
      ⟨entry, inEntries, included, rfl, above, isAbove, live, isParent, rfl⟩

theorem once_changes (recorded : Reorderable dir siblings buffer.operations) :
    ((deletions buffer buffer.operations ++
      visitedChanges dir siblings buffer collected order).map (·.id)).Nodup := by
  rw [map_append, ids_deletions, ids_visitedChanges, nodup_append']
  refine ⟨?_, (traversed.nodup (tree.forest_visitedChildren soFar)).filter _, ?_⟩
  · rw [Nodup, pairwise_map]
    exact (recorded.sorted.filter _).imp fun below => Int.ne_of_lt below
  · intro handle isDeletion isVisited
    obtain ⟨i, mem, rfl⟩ := List.mem_map.mp isDeletion
    rw [mem_filter, decide_eq_true_eq] at mem
    rw [mem_filter] at isVisited
    exact tree.operationOf_ne_delete soFar traversed recorded isVisited.1
      (operationOf_of_mem recorded.sorted mem.1) mem.2

/-- All children of an item are changed, one directly behind the other, if one of
them was placed. -/
theorem siblings_changes (mem : i ∈ buffer.operations)
    {node parent : LinkedEntry} (placed : PlacesChild dir i node parent)
    (apart : ∃ j ∈ buffer.operations, j.2 ≠ .delete ∧ ¬ Relation.ReflTransGen dir.ChildOf j.1 i.1) :
    (siblings parent.id).map (·.metahandle) <:+:
      (visitedChanges dir siblings buffer collected order).map (·.id) := by
  have ne := placed.places.ne_delete
  have pos : parent.metahandle ∈ collected.parents_of_position_changes :=
    (soFar.positions _).mpr ⟨i, mem, node, parent, placed, rfl⟩
  have notTop : i.1 ≠ collected.traversal.top := by
    intro isTop
    obtain ⟨j, isRecorded, notDeleted, notBelow⟩ := apart
    rcases soFar.traversal with spans | ⟨-, onlyDeletions⟩
    · rw [isTop] at notBelow
      exact notBelow (tree.reaches_top spans (soFar.includes j isRecorded notDeleted))
    · exact ne (onlyDeletions i mem)
  have isVisited := tree.mem_order_of_recorded soFar traversed mem ne
  obtain isTop | ⟨above, aboveVisited, isNext⟩ := traversed.mem_cases (by rwa [append_nil])
  · exact absurd isTop notTop
  have isChild := tree.childOf_of_visited soFar isNext
  obtain ⟨entry, inEntries, included, sameHandle, other, isOther, liveOther, isId, rfl⟩ := isChild
  obtain rfl := tree.eq_of_handle inEntries placed.nodeMem (sameHandle.trans placed.handle.symm)
  obtain rfl := tree.eq_of_id isOther placed.parentMem (isId.trans placed.isParent.symm)
  have isInfix := traversed.children_infix aboveVisited
  rw [visitedChildren, if_pos pos, tree.siblingsOf_eq isOther] at isInfix
  have kept := isInfix.filter fun handle =>
    (operationOf dir siblings buffer.operations collected handle).isSome
  rw [ids_visitedChanges]
  rwa [filter_eq_self.mpr] at kept
  intro handle isSibling
  rw [← tree.siblingsOf_eq isOther] at isSibling
  rw [operationOf, if_pos ⟨_, pos, isSibling⟩]
  cases buffer.operations.lookup handle with
  | none => rfl
  | some op => rfl

theorem behindAncestors_changes
    (isChange : change ∈ visitedChanges dir siblings buffer collected order)
    (isAbove : above ∈ deletions buffer buffer.operations ++
      visitedChanges dir siblings buffer collected order)
    (below : Relation.TransGen dir.ChildOf change.id above.id) :
    Before ((deletions buffer buffer.operations ++
      visitedChanges dir siblings buffer collected order).map (·.id)) above.id change.id := by
  rw [map_append]
  rcases mem_append.mp isAbove with isDeletion | isVisited
  · exact before_of_mem (List.mem_map_of_mem isDeletion) (List.mem_map_of_mem isChange)
  · have keeps := List.mem_map_of_mem (f := (·.id)) isChange
    have keepsAbove := List.mem_map_of_mem (f := (·.id)) isVisited
    rw [ids_visitedChanges, mem_filter] at keeps keepsAbove
    apply reorderedBefore_append
    rw [ids_visitedChanges]
    apply before_filter _ keepsAbove.2 keeps.2
    have inOrder := traversed.inOrder (tree.forest_visitedChildren soFar)
    exact inOrder.before_of_transGen keeps.1
      (tree.transGen_children soFar traversed keeps.1 keepsAbove.1 below)

end IsTree

/-- The changes that were recorded for a tree are put in its order. -/
theorem getAllChangesInTreeOrder_inTreeOrder (tree : IsTree dir level siblings)
    (recorded : Reorderable dir siblings buffer.operations) :
    ∃ changelist reordered, getAllChangesInTreeOrder dir buffer = some (changelist, reordered) ∧
        InTreeOrder dir siblings buffer changelist := by
  obtain ⟨collected, isCollected, soFar⟩ :
      ∃ collected, buffer.operations.foldlM (collect dir buffer) ⟨[], .create, ∅⟩ = some collected ∧
        CollectedFor dir buffer buffer.operations collected :=
    tree.foldlM_collect buffer.operations recorded.live
  have start : Visits dir siblings buffer collected [] [collected.traversal.top]
      buffer.operations collected.changelist := {
    underway := .start
    lookup := by simp
    changelist := by simp [visitedChanges] }
  obtain ⟨order, operations, isVisited, traversed⟩ :=
    tree.visitLoop_eq soFar (dir.entries.length + 2) start (by simp)
  refine ⟨collected.changelist ++ visitedChanges dir siblings buffer collected order,
    { buffer with operations := operations }, ?_, ?_⟩
  · rw [getAllChangesInTreeOrder, isCollected]
    simp only [bind_eq_bind, bind_some, isVisited]
  rw [soFar.changelist]
  have notDelete : ∀ change ∈ visitedChanges dir siblings buffer collected order,
      change.action ≠ .delete := by
    intro change isChange
    obtain ⟨handle, -, op, -, rfl⟩ := mem_visitedChanges.mp isChange
    exact visitAction_ne_delete
  have isDelete : ∀ change ∈ deletions buffer buffer.operations, change.action = .delete := by
    intro change isDeletion
    obtain ⟨i, -, -, rfl⟩ := mem_deletions.mp isDeletion
    rfl
  refine ⟨tree.once_changes soFar traversed recorded, ?_, ⟨_, _, rfl, isDelete, notDelete⟩, ?_, ?_⟩
  · intro i member
    rw [mem_append, mem_deletions, mem_visitedChanges]
    by_cases deleted : i.2 = .delete
    · exact .inl ⟨i, member, deleted, by rw [deleted]; rfl⟩
    · refine .inr ⟨i.1, tree.mem_order_of_recorded soFar traversed member deleted,
        i.2, operationOf_of_mem recorded.sorted member, ?_⟩
      rw [ReorderOperation.action_of_ne deleted]
  · intro change isChange differs above isAbove below
    apply tree.behindAncestors_changes soFar traversed _ isAbove below
    exact (mem_append.mp isChange).resolve_left
      fun isDeletion => differs (isDelete change isDeletion)
  · intro i member node parent placed apart
    have isInfix := tree.siblings_changes soFar traversed member placed apart
    rw [map_append]
    exact isInfix.trans (suffix_append _ _).isInfix

section

variable (model_type : ModelType)

/-- A folder and its two children, which are items of one model. -/
def folderOfTwo : LinkedDirectory where
  entries := [
    { metahandle := 1, id := .root, parent_id := .root, server_parent_id := .root,
      prev_id := .root, next_id := .root, is_unsynced := false, is_del := false,
      model_type := .topLevelFolder },
    { metahandle := 2, id := .server "folder", parent_id := .root,
      server_parent_id := .root, prev_id := .root, next_id := .root,
      is_unsynced := false, is_del := false, model_type := model_type },
    { metahandle := 3, id := .server "first", parent_id := .server "folder",
      server_parent_id := .server "folder", prev_id := .root,
      next_id := .server "second", is_unsynced := false, is_del := false,
      model_type := model_type },
    { metahandle := 4, id := .server "second", parent_id := .server "folder",
      server_parent_id := .server "folder", prev_id := .server "first",
      next_id := .root, is_unsynced := false, is_del := false,
      model_type := model_type }]

/-- The children of the items of the folder. -/
def siblingsInFolder (parent_id : Id) : List LinkedEntry :=
  (folderOfTwo model_type).entries.filter fun entry =>
    entry.shouldInclude && entry.parent_id = parent_id

def levelInFolder (handle : Int) : Nat := if handle = 1 then 0 else if handle = 2 then 1 else 2

/-- The folder changed, and one of its children was added. -/
def changedFolder : ChangeReorderBuffer Unit Unit where
  operations := [(2, .updatePropertiesOnly), (4, .add)]
  specifics _ := none
  extra_data _ := none

theorem isTree_folderOfTwo :
    IsTree (folderOfTwo model_type) levelInFolder (siblingsInFolder model_type) where
  ids := by simp [folderOfTwo]
  handles := by simp [folderOfTwo]
  valid := by simp [folderOfTwo, kInvalidId]
  root := by simp [folderOfTwo, levelInFolder]
  parent := by simp [folderOfTwo, levelInFolder, LinkedEntry.shouldInclude, Id.isRoot]
  nodup := by
    intro parent _ _
    apply Nodup.filter
    simp [folderOfTwo]
  mem_siblings := by
    intro parent _ _ entry
    simp [siblingsInFolder]
  linked := by simp [folderOfTwo, siblingsInFolder, LinkedEntry.shouldInclude, Id.isRoot, Linked]

theorem reorderable_changedFolder :
    Reorderable (folderOfTwo model_type) (siblingsInFolder model_type)
      changedFolder.operations where
  sorted := by simp [changedFolder]
  valid := by simp [changedFolder, kInvalidId]
  live := by simp [changedFolder, LinkedDirectory.Live, folderOfTwo]
  notSibling := by simp [changedFolder]
  notAbove := by simp [changedFolder]

end

theorem getAllChangesInTreeOrder_folderOfTwo : ∃ changelist reordered,
      getAllChangesInTreeOrder (folderOfTwo .bookmarks) changedFolder =
          some (changelist, reordered) ∧
        InTreeOrder (folderOfTwo .bookmarks) (siblingsInFolder .bookmarks)
          changedFolder changelist :=
  getAllChangesInTreeOrder_inTreeOrder (isTree_folderOfTwo .bookmarks)
    (reorderable_changedFolder .bookmarks)

/-- The siblings of an item that was added are not all changed if the model does
not maintain positions. -/
theorem not_all_siblings_changed :
    ¬ ∀ (dir : LinkedDirectory) (level : Int -> Nat) (siblings : Id -> List LinkedEntry)
        (buffer : ChangeReorderBuffer Unit Unit), IsTree dir level siblings ->
      Reorderable dir siblings buffer.operations ->
      (∀ parent ∈ dir.entries, ∀ child ∈ siblings parent.id, ∀ other ∈ siblings parent.id,
          child.shouldMaintainPosition = other.shouldMaintainPosition) ->
      ∃ changelist reordered, getAllChangesInTreeOrder dir buffer = some (changelist, reordered) ∧
          ∀ i ∈ buffer.operations, i.2.Places ->
            ∀ parent ∈ dir.entries, dir.ChildOf i.1 parent.metahandle ->
              ∀ child ∈ siblings parent.id, child.metahandle ∈ changelist.map (·.id) := by
  intro claimed
  obtain ⟨changelist, reordered, isReordered, all⟩ := claimed _ _ _ changedFolder
    (isTree_folderOfTwo .preferences) (reorderable_changedFolder .preferences)
    (by decide)
  obtain rfl : changelist = [changedFolder.record 2 .update, changedFolder.record 4 .add] := by
    have isList : (getAllChangesInTreeOrder (folderOfTwo .preferences) changedFolder).map (·.1) =
          some [changedFolder.record 2 .update, changedFolder.record 4 .add] := by
      rfl
    rw [isReordered] at isList
    exact some.inj isList
  have isChild : (folderOfTwo .preferences).ChildOf 4 2 := by
    simp [LinkedDirectory.ChildOf, folderOfTwo, LinkedEntry.shouldInclude, Id.isRoot]
  have changed := all (4, .add) (by decide) (by decide) _
    (mem_cons_of_mem _ mem_cons_self) isChild _
    (show (folderOfTwo .preferences).entries[2] ∈ _ by decide)
  revert changed
  decide

end

end Chromium.Sync
