import Chromium.Sync.SiblingTree

/-!
# Traversals of a tree

A traversal that is expanded stays connected: each item in it is reached from
the top by its links.
-/

namespace Chromium.Sync

open List Option

section

variable {dir : LinkedDirectory} {level : Int -> Nat} {siblings : Id -> List LinkedEntry}
  {traversal : Traversal} {handle : Int}

namespace Traversal

/-- An item is in a traversal: it is the top, or a child in a link. -/
def Includes (traversal : Traversal) (handle : Int) : Prop :=
  handle = traversal.top ∨ ∃ parent, (parent, handle) ∈ traversal.links

/-- A traversal is being connected at an item, from which it is climbed to the
top. -/
structure Climbing (dir : LinkedDirectory) (node_to_include : Int) (traversal : Traversal) :
    Prop where
  nodup : traversal.links.Nodup
  child : ∀ parent child, (parent, child) ∈ traversal.links -> dir.ChildOf child parent
  connected : ∀ parent child, (parent, child) ∈ traversal.links ->
    parent = node_to_include ∨ traversal.Includes parent
  live : dir.Live traversal.top
  liveNode : dir.Live node_to_include

/-- Every item in a traversal is connected to the top. -/
structure Spans (dir : LinkedDirectory) (traversal : Traversal) : Prop where
  nodup : traversal.links.Nodup
  child : ∀ parent child, (parent, child) ∈ traversal.links -> dir.ChildOf child parent
  connected : ∀ parent child, (parent, child) ∈ traversal.links -> traversal.Includes parent
  live : dir.Live traversal.top

/-- A climb that ends at an item in the traversal has connected it. -/
theorem Climbing.spans (climbing : Climbing dir handle traversal)
    (reached : traversal.Includes handle) :
    Spans dir traversal where
  nodup := climbing.nodup
  child := climbing.child
  connected := by
    intro parent child isLink
    rcases climbing.connected parent child isLink with rfl | included
    · exact reached
    · exact included
  live := climbing.live

/-- The links of a traversal with one more. -/
abbrev withLink (traversal : Traversal) (link : Int × Int) : Traversal :=
  { traversal with links := traversal.links.orderedInsert LinkLe link }

theorem mem_withLink : other ∈ (traversal.withLink link).links ↔
      other = link ∨ other ∈ traversal.links :=
  mem_orderedInsert LinkLe

theorem Includes.withLink (included : traversal.Includes handle) (link : Int × Int) :
    (traversal.withLink link).Includes handle :=
  included.imp_right fun ⟨parent, isLink⟩ => ⟨parent, mem_withLink.mpr (.inr isLink)⟩

theorem Climbing.withLink (climbing : Climbing dir handle traversal)
    (isChild : dir.ChildOf handle parent) (liveParent : dir.Live parent)
    (fresh : (parent, handle) ∉ traversal.links) :
    Climbing dir parent (traversal.withLink (parent, handle)) where
  nodup := (List.perm_orderedInsert LinkLe _ _).nodup_iff.mpr
    (List.nodup_cons.mpr ⟨fresh, climbing.nodup⟩)
  child := by
    intro above below isLink
    rcases mem_withLink.mp isLink with same | before
    · cases same
      exact isChild
    · exact climbing.child above below before
  connected := by
    intro above below isLink
    rcases mem_withLink.mp isLink with same | before
    · cases same
      exact .inl rfl
    · rcases climbing.connected above below before with rfl | included
      · exact .inr (.inr ⟨parent, mem_withLink.mpr (.inl rfl)⟩)
      · exact .inr (included.withLink _)
  live := climbing.live
  liveNode := liveParent

/-- A climb that missed the top goes on at the top, below the root. -/
theorem Climbing.withTop (climbing : Climbing dir handle traversal) :
    Climbing dir traversal.top { traversal with top := handle } where
  nodup := climbing.nodup
  child := climbing.child
  connected := by
    intro parent child isLink
    rcases climbing.connected parent child isLink with rfl | rfl | linked
    · exact .inr (.inl rfl)
    · exact .inl rfl
    · exact .inr (.inr linked)
  live := climbing.liveNode
  liveNode := climbing.live

end Traversal

open Traversal

theorem expandToInclude_create (live : dir.Live handle) :
    ∃ expanded, Traversal.create.expandToInclude dir handle = some expanded ∧
      Spans dir expanded ∧ expanded.Includes handle := by
  refine ⟨⟨handle, []⟩, rfl, ?_, .inl rfl⟩
  exact {
    nodup := nodup_nil
    child := fun _ _ isLink => absurd isLink not_mem_nil
    connected := fun _ _ isLink => absurd isLink not_mem_nil
    live := live }

namespace IsTree

variable (tree : IsTree dir level siblings)

include tree

theorem valid_of_live (live : dir.Live handle) : handle ≠ kInvalidId := by
  obtain ⟨entry, mem, -, rfl⟩ := live
  exact tree.valid entry mem

/-- The root is the only item at the first level. -/
theorem level_eq_zero_iff (mem : entry ∈ dir.entries) (live : entry.is_del = false) :
    level entry.metahandle = 0 ↔ entry.id = .root := by
  constructor
  · intro atTop
    by_contra notRoot
    obtain ⟨parent, -, -, -, isChild⟩ := tree.exists_parent mem live notRoot
    rw [tree.level_child isChild] at atTop
    cases atTop
  · intro isRoot
    obtain ⟨root, isMem, -, isId, -, atTop⟩ := tree.root
    rw [tree.eq_of_id mem isMem (isRoot.trans isId.symm)]
    exact atTop

/-- The loop of `ExpandToInclude` connects the item, and keeps the others. -/
theorem expandLoop_spans (climbing : Climbing dir handle traversal) (enough : level handle +
      (if level traversal.top = 0 then 0 else level traversal.top + 1) < fuel) :
    ∃ expanded, expandLoop dir fuel handle traversal = some expanded ∧
      Spans dir expanded ∧ ∀ other, other = handle ∨ traversal.Includes other ->
        expanded.Includes other := by
  induction fuel generalizing handle traversal with
  | zero => exact absurd enough (Nat.not_lt_zero _)
  | succ fuel ih =>
    have ok := tree.valid_of_live climbing.liveNode
    rw [expandLoop]
    by_cases atTop : handle = traversal.top
    · refine ⟨traversal, if_pos (.inr atTop), climbing.spans (.inl atTop), ?_⟩
      rintro other (rfl | included)
      · exact .inl atTop
      · exact included
    obtain ⟨node, mem, live, rfl⟩ := climbing.liveNode
    rw [if_neg (by tauto), tree.getByHandle_eq mem]
    simp only [bind_eq_bind, bind_some]
    by_cases isRoot : node.id = .root
    · -- The top is below the root.
      have atRoot := (tree.level_eq_zero_iff mem live).mpr isRoot
      have below : level traversal.top ≠ 0 := by
        obtain ⟨top, isMem, liveTop, isTop⟩ := climbing.live
        rw [← isTop, ne_eq, tree.level_eq_zero_iff isMem liveTop]
        intro isId
        rw [tree.eq_of_id mem isMem (isRoot.trans isId.symm)] at atTop
        exact atTop isTop
      rw [if_neg below] at enough
      obtain ⟨expanded, isExpanded, spans, includes⟩ :=
        ih climbing.withTop (by
          rw [if_pos atRoot]
          omega)
      refine ⟨expanded, ?_, spans, ?_⟩
      · rw [isRoot, if_pos (show Id.root.isRoot = true from rfl)]
        exact isExpanded
      · rintro other (rfl | rfl | linked)
        · exact includes _ (.inr (.inl rfl))
        · exact includes _ (.inl rfl)
        · exact includes other (.inr (.inr linked))
    · obtain ⟨parent, isParent, liveParent, isId, isChild⟩ := tree.exists_parent mem live isRoot
      rw [isRoot_eq_false isRoot, if_neg Bool.false_ne_true, ← isId, tree.getById_eq isParent]
      simp only [bind_some]
      by_cases linked : (parent.metahandle, node.metahandle) ∈ traversal.links
      · have reached : traversal.Includes node.metahandle := .inr ⟨_, linked⟩
        refine ⟨traversal, if_pos linked, climbing.spans reached, ?_⟩
        rintro other (rfl | included)
        · exact reached
        · exact included
      · have isLevel := tree.level_child isChild
        obtain ⟨expanded, isExpanded, spans, includes⟩ :=
          ih (climbing.withLink isChild ⟨parent, isParent, liveParent, rfl⟩ linked) (by
              dsimp only
              omega)
        refine ⟨expanded, ?_, spans, ?_⟩
        · rw [if_neg linked]
          exact isExpanded
        · rintro other (rfl | included)
          · exact includes _ (.inr (.inr ⟨_, mem_withLink.mpr (.inl rfl)⟩))
          · exact includes other (.inr (included.withLink _))

section

variable (spans : Spans dir traversal)
include spans

/-- An expanded traversal includes the item, and those that it included. -/
theorem expandToInclude_spans (live : dir.Live handle) :
    ∃ expanded, traversal.expandToInclude dir handle = some expanded ∧
      Spans dir expanded ∧ expanded.Includes handle ∧
      ∀ other, traversal.Includes other -> expanded.Includes other := by
  have climbing : Climbing dir handle traversal := {
    nodup := spans.nodup
    child := spans.child
    connected := fun parent child isLink => .inr (spans.connected parent child isLink)
    live := spans.live
    liveNode := live }
  have few := tree.level_lt live
  have fewTop := tree.level_lt spans.live
  obtain ⟨expanded, isExpanded, spansExpanded, includes⟩ :=
    @expandLoop_spans _ _ _ _ _ tree (2 * dir.entries.length + 1) climbing (by split_ifs <;> omega)
  refine ⟨expanded, ?_, spansExpanded, includes handle (.inl rfl),
    fun other included => includes other (.inr included)⟩
  rw [expandToInclude, if_neg (tree.valid_of_live spans.live)]
  exact isExpanded

/-- Every item of a traversal but the top is below the top. -/
theorem level_lt_of_link {parent child : Int} (isLink : (parent, child) ∈ traversal.links) :
    level traversal.top < level child := by
  have isLevel := tree.level_child (spans.child parent child isLink)
  generalize depth : level child = n at isLevel ⊢
  induction n using Nat.strong_induction_on generalizing parent child with
  | h n ih =>
    rcases spans.connected parent child isLink with rfl | ⟨above, linked⟩
    · omega
    · have isAbove := tree.level_child (spans.child above parent linked)
      have := ih (level parent) (by omega) linked rfl isAbove
      omega

theorem level_le_of_includes (included : traversal.Includes handle) :
    level traversal.top <= level handle := by
  rcases included with rfl | ⟨parent, isLink⟩
  · exact Nat.le_refl _
  · exact Nat.le_of_lt (tree.level_lt_of_link spans isLink)

/-- Every item of a traversal is the top or below the top. -/
theorem reaches_top (included : traversal.Includes handle) :
    Relation.ReflTransGen dir.ChildOf handle traversal.top := by
  generalize depth : level handle = n
  induction n using Nat.strong_induction_on generalizing handle with
  | h n ih =>
    rcases included with rfl | ⟨parent, isLink⟩
    · exact .refl
    · have isChild := spans.child parent handle isLink
      have isLevel := tree.level_child isChild
      exact .head isChild (ih (level parent) (by omega) (spans.connected parent handle isLink) rfl)

end

end IsTree

end

/-!
## Collecting changes

The first step puts the deletions in the list of changes, and all other items
in the traversal. It notes the parents of the items that changed position.
-/

section

variable {Specifics Extra : Type} {dir : LinkedDirectory} {level : Int -> Nat}
  {siblings : Id -> List LinkedEntry}
  {buffer : ChangeReorderBuffer Specifics Extra} {done : OperationMap}
  {collected : Collected Specifics Extra}

/-- An operation that adds or moves an item. -/
def ReorderOperation.Places (op : ReorderOperation) : Prop :=
  op = .add ∨ op = .updatePositionAndProperties

instance (op : ReorderOperation) : Decidable op.Places :=
  inferInstanceAs (Decidable (_ ∨ _))

/-- An operation places a child of an item at a position that matters. -/
structure PlacesChild (dir : LinkedDirectory) (i : Int × ReorderOperation)
    (node parent : LinkedEntry) :
    Prop where
  places : i.2.Places
  nodeMem : node ∈ dir.entries
  live : node.is_del = false
  handle : node.metahandle = i.1
  position : node.shouldMaintainPosition = true
  parentMem : parent ∈ dir.entries
  liveParent : parent.is_del = false
  isParent : parent.id = node.parent_id

/-- The record of a deletion. -/
def deletions (buffer : ChangeReorderBuffer Specifics Extra) (operations : OperationMap) :
    List (ChangeRecord Specifics Extra) :=
  (operations.filter (·.2 = .delete)).map fun i => buffer.record i.1 .delete

/-- What was collected for some operations. -/
structure CollectedFor (dir : LinkedDirectory) (buffer : ChangeReorderBuffer Specifics Extra)
    (done : OperationMap)
    (collected : Collected Specifics Extra) :
    Prop where
  changelist : collected.changelist = deletions buffer done
  traversal : Traversal.Spans dir collected.traversal ∨
    collected.traversal = .create ∧ ∀ i ∈ done, i.2 = .delete
  includes : ∀ i ∈ done, i.2 ≠ .delete -> collected.traversal.Includes i.1
  above : collected.traversal.top ≠ kInvalidId -> ∃ i ∈ done, i.2 ≠ .delete ∧
      Relation.ReflTransGen dir.ChildOf i.1 collected.traversal.top
  positions : ∀ handle, handle ∈ collected.parents_of_position_changes ↔
    ∃ i ∈ done, ∃ node parent, PlacesChild dir i node parent ∧ parent.metahandle = handle

theorem collectedFor_nil : CollectedFor dir buffer [] ⟨[], .create, ∅⟩ where
  changelist := rfl
  traversal := .inr ⟨rfl, forall_mem_nil _⟩
  includes := forall_mem_nil _
  above := fun ne => absurd rfl ne
  positions := by simp

theorem deletions_concat_delete : deletions buffer (done ++ [(handle, .delete)]) =
      deletions buffer done ++ [buffer.record handle .delete] := by
  simp [deletions]

theorem deletions_concat_of_ne (ne : i.2 ≠ .delete) :
    deletions buffer (done ++ [i]) = deletions buffer done := by
  simp [deletions, ne]

namespace IsTree

variable (tree : IsTree dir level siblings)

include tree

theorem readNode_eq (mem : node ∈ dir.entries) (live : node.is_del = false) :
    dir.readNode node.metahandle = some node := by
  rw [LinkedDirectory.readNode, tree.getByHandle_eq mem]
  simp [live]

/-- The item itself or another is above each item. -/
theorem exists_above (mem : node ∈ dir.entries) (live : node.is_del = false) :
    ∃ parent ∈ dir.entries, parent.is_del = false ∧ parent.id = node.parent_id := by
  by_cases isRoot : node.id = .root
  · obtain ⟨root, isMem, liveRoot, isId, isParent, -⟩ := tree.root
    rw [tree.eq_of_id mem isMem (isRoot.trans isId.symm)]
    exact ⟨root, isMem, liveRoot, isId.trans isParent.symm⟩
  · obtain ⟨parent, isParent, liveParent, isId, -⟩ := tree.exists_parent mem live isRoot
    exact ⟨parent, isParent, liveParent, isId⟩

theorem getParentId_eq {node parent : LinkedEntry} (isParent : parent ∈ dir.entries)
    (isId : parent.id = node.parent_id) :
    dir.getParentId node = parent.metahandle := by
  rw [LinkedDirectory.getParentId, ← isId, tree.getById_eq isParent]

/-- The traversal is expanded to an item. -/
theorem expand_collected (soFar : CollectedFor dir buffer done collected) (live : dir.Live handle) :
    ∃ expanded, collected.traversal.expandToInclude dir handle = some expanded ∧
      Traversal.Spans dir expanded ∧ expanded.Includes handle ∧
      ∀ i ∈ done, i.2 ≠ .delete -> expanded.Includes i.1 := by
  rcases soFar.traversal with spans | ⟨isCreate, onlyDeletions⟩
  · obtain ⟨expanded, isExpanded, spansExpanded, included, includes⟩ :=
      tree.expandToInclude_spans spans live
    exact ⟨expanded, isExpanded, spansExpanded, included,
      fun i mem ne => includes i.1 (soFar.includes i mem ne)⟩
  · obtain ⟨expanded, isExpanded, spansExpanded, included⟩ := expandToInclude_create live
    refine ⟨expanded, ?_, spansExpanded, included, ?_⟩
    · rw [isCreate]
      exact isExpanded
    · intro i mem ne
      exact absurd (onlyDeletions i mem) ne

theorem collect_collectedFor (soFar : CollectedFor dir buffer done collected)
    {i : Int × ReorderOperation} (live : i.2 ≠ .delete -> dir.Live i.1) :
    ∃ next, collect dir buffer collected i = some next ∧
      CollectedFor dir buffer (done ++ [i]) next := by
  have memConcat : ∀ {other}, other ∈ done ++ [i] ↔ other ∈ done ∨ other = i := by
    intro other
    rw [mem_append, mem_singleton]
  by_cases isDelete : i.2 = .delete
  · refine ⟨_, if_pos isDelete, ?_, ?_, ?_, ?_, ?_⟩
    · obtain ⟨handle, op⟩ := i
      obtain rfl : op = .delete := isDelete
      rw [deletions_concat_delete, ← soFar.changelist]
    · refine soFar.traversal.imp_right fun ⟨isCreate, onlyDeletions⟩ =>
        ⟨isCreate, fun other mem => ?_⟩
      rcases memConcat.mp mem with before | rfl
      · exact onlyDeletions other before
      · exact isDelete
    · intro other mem ne
      rcases memConcat.mp mem with before | rfl
      · exact soFar.includes other before ne
      · exact absurd isDelete ne
    · intro ok
      obtain ⟨other, mem, rest⟩ := soFar.above ok
      exact ⟨other, memConcat.mpr (.inl mem), rest⟩
    · intro handle
      refine (soFar.positions handle).trans ⟨?_, ?_⟩
      · rintro ⟨other, mem, rest⟩
        exact ⟨other, memConcat.mpr (.inl mem), rest⟩
      · rintro ⟨other, mem, node, parent, placed, rest⟩
        rcases memConcat.mp mem with before | rfl
        · exact ⟨other, before, node, parent, placed, rest⟩
        · rcases placed.places with isAdd | isMove
          · rw [isDelete] at isAdd
            cases isAdd
          · rw [isDelete] at isMove
            cases isMove
  have isLive := live isDelete
  obtain ⟨expanded, isExpanded, spans, included, includes⟩ := tree.expand_collected soFar isLive
  -- Which positions are noted does not matter to the rest.
  have collects : ∀ positions : Finset Int, (∀ handle, handle ∈ positions ↔
        handle ∈ collected.parents_of_position_changes ∨
          ∃ node parent, PlacesChild dir i node parent ∧ parent.metahandle = handle) ->
      CollectedFor dir buffer (done ++ [i])
        { collected with
          traversal := expanded
          parents_of_position_changes := positions } := by
    intro positions isPositions
    have includesAll : ∀ other ∈ done ++ [i], other.2 ≠ .delete -> expanded.Includes other.1 := by
      intro other mem ne
      rcases memConcat.mp mem with before | rfl
      · exact includes other before ne
      · exact included
    refine ⟨?_, .inl spans, includesAll, ?_, ?_⟩
    · rw [deletions_concat_of_ne isDelete]
      exact soFar.changelist
    · intro _
      exact ⟨i, memConcat.mpr (.inr rfl), isDelete, tree.reaches_top spans included⟩
    · intro handle
      rw [isPositions handle, soFar.positions handle]
      constructor
      · rintro (⟨other, mem, rest⟩ | rest)
        · exact ⟨other, memConcat.mpr (.inl mem), rest⟩
        · exact ⟨i, memConcat.mpr (.inr rfl), rest⟩
      · rintro ⟨other, mem, rest⟩
        rcases memConcat.mp mem with before | rfl
        · exact .inl ⟨other, before, rest⟩
        · exact .inr rest
  obtain ⟨node, mem, notDeleted, isHandle⟩ := isLive
  rw [collect, if_neg isDelete, isExpanded]
  simp only [bind_eq_bind, bind_some]
  by_cases places : i.2 = .add ∨ i.2 = .updatePositionAndProperties
  · rw [if_pos places, ← isHandle, tree.readNode_eq mem notDeleted]
    simp only [bind_some]
    by_cases pos : node.shouldMaintainPosition = true
    · obtain ⟨parent, isParent, liveParent, isId⟩ := tree.exists_above mem notDeleted
      rw [if_pos pos, tree.getParentId_eq isParent isId]
      refine ⟨_, rfl, collects _ fun handle => ?_⟩
      rw [Finset.mem_insert, or_comm]
      apply or_congr_right
      constructor
      · rintro rfl
        exact ⟨node, parent, ⟨places, mem, notDeleted, isHandle, pos,
          isParent, liveParent, isId⟩, rfl⟩
      · rintro ⟨other, above, placed, rfl⟩
        obtain rfl := tree.eq_of_handle placed.nodeMem mem (placed.handle.trans isHandle.symm)
        rw [tree.eq_of_id placed.parentMem isParent (placed.isParent.trans isId.symm)]
    · rw [if_neg pos]
      refine ⟨_, rfl, collects _ fun handle => ?_⟩
      refine ⟨.inl, fun hit => hit.resolve_right ?_⟩
      rintro ⟨other, above, placed, rfl⟩
      obtain rfl := tree.eq_of_handle placed.nodeMem mem (placed.handle.trans isHandle.symm)
      exact pos placed.position
  · rw [if_neg places]
    refine ⟨_, rfl, collects _ fun handle => ?_⟩
    refine ⟨.inl, fun hit => hit.resolve_right ?_⟩
    rintro ⟨other, above, placed, rfl⟩
    exact places placed.places

theorem foldlM_collect (operations : OperationMap)
    (live : ∀ i ∈ operations, i.2 ≠ .delete -> dir.Live i.1) :
    ∃ collected, operations.foldlM (collect dir buffer) ⟨[], .create, ∅⟩ = some collected ∧
      CollectedFor dir buffer operations collected := by
  induction operations using reverseRecOn with
  | nil => exact ⟨_, rfl, collectedFor_nil⟩
  | append_singleton front i ih =>
    obtain ⟨collected, isCollected, soFar⟩ := ih
      fun other mem => live other (mem_append_left _ mem)
    obtain ⟨next, isNext, collectedNext⟩ := tree.collect_collectedFor soFar
      (live i (mem_append_right _ mem_cons_self))
    refine ⟨next, ?_, collectedNext⟩
    rw [foldlM_append, isCollected]
    simpa using isNext

end IsTree

end

/-!
## Visiting the traversal

The second step visits the items of the traversal, with all siblings of the
items that changed position, and records those that have an operation.
-/

section

open Library

variable {Specifics Extra : Type} {dir : LinkedDirectory} {siblings : Id -> List LinkedEntry}
  {buffer : ChangeReorderBuffer Specifics Extra}

theorem lookup_orderedInsert {operations : OperationMap}
    (absent : operations.lookup handle = none) :
    (operations.orderedInsert (fun entry other => entry.1 <= other.1) (handle, op)).lookup other =
      if other = handle then some op else operations.lookup other := by
  induction operations with
  | nil =>
    by_cases same : other = handle
    · simp [same]
    · simp [same]
  | cons first rest ih =>
    obtain ⟨key, val⟩ := first
    rw [lookup_cons] at absent
    by_cases isKey : handle = key
    · simp [isKey] at absent
    rw [beq_false_of_ne isKey] at absent
    rw [orderedInsert_cons]
    by_cases inFront : handle <= key
    · rw [if_pos inFront, lookup_cons]
      by_cases same : other = handle
      · simp [same]
      · simp [same, beq_false_of_ne same]
    · rw [if_neg inFront, lookup_cons, lookup_cons, ih absent]
      by_cases same : other = key
      · subst same
        simp [Ne.symm isKey]
      · simp [beq_false_of_ne same]

/-- A sibling keeps the operation that it has. -/
theorem lookup_noteSibling :
    (noteSibling operations handle).lookup other = (operations.lookup other).or
        (if other = handle then some .updatePositionAndProperties else none) := by
  cases present : operations.lookup handle with
  | some op =>
    rw [noteSibling, present]
    by_cases same : other = handle
    · rw [same, present, some_or]
    · rw [if_neg same, or_none]
  | none =>
    rw [noteSibling, present]
    rw [lookup_orderedInsert present]
    by_cases same : other = handle
    · rw [if_pos same, if_pos same, same, present, none_or]
    · rw [if_neg same, if_neg same, or_none]

theorem lookup_foldl_noteSibling (handles : List Int) :
    (handles.foldl noteSibling operations).lookup other = (operations.lookup other).or
        (if other ∈ handles then some .updatePositionAndProperties else none) := by
  induction handles generalizing operations with
  | nil => simp
  | cons handle handles ih =>
    rw [foldl_cons, ih, lookup_noteSibling, Option.or_assoc]
    apply congrArg
    by_cases same : other = handle
    · simp [same]
    · simp [same]

/-- The handles of the children of the item with a handle. -/
def siblingsOf (dir : LinkedDirectory) (siblings : Id -> List LinkedEntry) (handle : Int) :
    List Int :=
  match dir.getByHandle handle with
  | none => []
  | some parent => (siblings parent.id).map (·.metahandle)

/-- The items that are visited behind an item. -/
def visitedChildren (dir : LinkedDirectory) (siblings : Id -> List LinkedEntry)
    (collected : Collected Specifics Extra) (handle : Int) :
    List Int :=
  if handle ∈ collected.parents_of_position_changes then siblingsOf dir siblings handle
  else collected.traversal.childrenOf handle

/-- The operation of an item: its own, or the update of a sibling. -/
def operationOf (dir : LinkedDirectory) (siblings : Id -> List LinkedEntry)
    (operations : OperationMap) (collected : Collected Specifics Extra) (handle : Int) :
    Option ReorderOperation :=
  (operations.lookup handle).or (if ∃ parent ∈ collected.parents_of_position_changes,
        handle ∈ siblingsOf dir siblings parent
      then some .updatePositionAndProperties else none)

/-- The records of the items that were visited. -/
def visitedChanges (dir : LinkedDirectory) (siblings : Id -> List LinkedEntry)
    (buffer : ChangeReorderBuffer Specifics Extra) (collected : Collected Specifics Extra)
    (visited : List Int) :
    List (ChangeRecord Specifics Extra) :=
  visited.filterMap fun handle =>
    (operationOf dir siblings buffer.operations collected handle).map fun op =>
      buffer.record handle (visitAction op)

variable {collected : Collected Specifics Extra}

theorem mem_childrenOf {traversal : Traversal} :
    child ∈ traversal.childrenOf parent ↔ (parent, child) ∈ traversal.links := by
  rw [Traversal.childrenOf, List.mem_map]
  constructor
  · rintro ⟨⟨above, below⟩, mem, rfl⟩
    rw [mem_filter, decide_eq_true_eq] at mem
    obtain ⟨isLink, rfl⟩ := mem
    exact isLink
  · intro isLink
    exact ⟨(parent, child), mem_filter.mpr ⟨isLink, by simp⟩, rfl⟩

theorem nodup_childrenOf {traversal : Traversal} (nodup : traversal.links.Nodup) :
    (traversal.childrenOf parent).Nodup := by
  refine (nodup.filter _).map_on ?_
  rintro ⟨above, below⟩ member ⟨above', below'⟩ member' same
  rw [mem_filter, decide_eq_true_eq] at member member'
  obtain ⟨-, rfl⟩ := member
  obtain ⟨-, rfl⟩ := member'
  exact congrArg _ same

/-- What is visited is a traversal of the tree. -/
structure Visits (dir : LinkedDirectory) (siblings : Id -> List LinkedEntry)
    (buffer : ChangeReorderBuffer Specifics Extra)
    (collected : Collected Specifics Extra) (visited waiting : List Int)
    (operations : OperationMap)
    (changelist : List (ChangeRecord Specifics Extra)) :
    Prop where
  underway : Underway (visitedChildren dir siblings collected)
    collected.traversal.top visited waiting
  lookup : ∀ handle, operations.lookup handle = (buffer.operations.lookup handle).or
      (if ∃ parent ∈ visited, parent ∈ collected.parents_of_position_changes ∧
          handle ∈ siblingsOf dir siblings parent
        then some .updatePositionAndProperties else none)
  changelist : changelist =
    collected.changelist ++ visitedChanges dir siblings buffer collected visited

/-- A parent of a position change is an item. -/
theorem CollectedFor.exists_of_position
    (soFar : CollectedFor dir buffer buffer.operations collected)
    (pos : handle ∈ collected.parents_of_position_changes) :
    ∃ parent ∈ dir.entries, parent.is_del = false ∧ parent.metahandle = handle := by
  obtain ⟨i, -, node, parent, placed, isHandle⟩ := (soFar.positions handle).mp pos
  exact ⟨parent, placed.parentMem, placed.liveParent, isHandle⟩

namespace IsTree

variable (tree : IsTree dir level siblings)

include tree

theorem siblingsOf_eq {parent : LinkedEntry} (mem : parent ∈ dir.entries) :
    siblingsOf dir siblings parent.metahandle = (siblings parent.id).map (·.metahandle) := by
  rw [siblingsOf, tree.getByHandle_eq mem]

theorem mem_siblingsOf {parent : LinkedEntry} (mem : parent ∈ dir.entries)
    (live : parent.is_del = false) :
    child ∈ siblingsOf dir siblings parent.metahandle ↔ dir.ChildOf child parent.metahandle := by
  rw [tree.siblingsOf_eq mem, tree.childOf_iff_mem_siblings mem live]

variable (soFar : CollectedFor dir buffer buffer.operations collected)

include soFar

theorem childOf_of_visited {parent child : Int}
    (isChild : child ∈ visitedChildren dir siblings collected parent) :
    dir.ChildOf child parent := by
  rw [visitedChildren] at isChild
  by_cases pos : parent ∈ collected.parents_of_position_changes
  · rw [if_pos pos] at isChild
    obtain ⟨entry, mem, live, rfl⟩ := soFar.exists_of_position pos
    exact (tree.mem_siblingsOf mem live).mp isChild
  · rw [if_neg pos, mem_childrenOf] at isChild
    rcases soFar.traversal with spans | ⟨isCreate, -⟩
    · exact spans.child _ _ isChild
    · rw [isCreate] at isChild
      cases isChild

theorem forest_visitedChildren : Forest (visitedChildren dir siblings collected) level where
  below node child isChild := tree.level_child (tree.childOf_of_visited soFar isChild)
  nodup node := by
    rw [visitedChildren]
    split
    next position =>
      obtain ⟨entry, mem, live, rfl⟩ := soFar.exists_of_position position
      rw [tree.siblingsOf_eq mem]
      exact tree.nodup_siblings mem live
    · rcases soFar.traversal with spans | ⟨isCreate, -⟩
      · exact nodup_childrenOf spans.nodup
      · rw [isCreate]
        exact nodup_nil
  apart node other child isChild isOther :=
    tree.parent_unique (tree.childOf_of_visited soFar isChild)
      (tree.childOf_of_visited soFar isOther)

/-- All siblings of an item that changed position are at the level of the item,
so the top is among them only if it changed position itself. -/
theorem top_recorded {parent : Int} (pos : parent ∈ collected.parents_of_position_changes)
    (isTop : collected.traversal.top ∈ siblingsOf dir siblings parent) :
    ∃ op, (collected.traversal.top, op) ∈ buffer.operations := by
  obtain ⟨i, mem, node, above, placed, rfl⟩ := (soFar.positions parent).mp pos
  have topLevel := tree.level_child
    ((tree.mem_siblingsOf placed.parentMem placed.liveParent).mp isTop)
  have ne : i.2 ≠ .delete := by
    intro isDelete
    rcases placed.places with isAdd | isMove
    · rw [isDelete] at isAdd
      cases isAdd
    · rw [isDelete] at isMove
      cases isMove
  rcases soFar.traversal with spans | ⟨-, onlyDeletions⟩
  · have included := soFar.includes i mem ne
    have notRoot : node.id ≠ .root := by
      intro isRoot
      have below := tree.level_le_of_includes spans included
      have atTop := (tree.level_eq_zero_iff placed.nodeMem placed.live).mpr isRoot
      rw [placed.handle] at atTop
      omega
    obtain ⟨other, isOther, liveOther, isId, isChild⟩ :=
      tree.exists_parent placed.nodeMem placed.live notRoot
    rw [tree.eq_of_id isOther placed.parentMem (isId.trans placed.isParent.symm),
      placed.handle] at isChild
    have nodeLevel := tree.level_child isChild
    rcases included with same | ⟨link, isLink⟩
    · exact ⟨i.2, by rw [← same]; exact mem⟩
    · have below := tree.level_lt_of_link spans isLink
      omega
  · exact absurd (onlyDeletions i mem) ne

end IsTree

end

end Chromium.Sync
