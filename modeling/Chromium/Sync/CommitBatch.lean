import Chromium.Library.Lists
import Chromium.Sync.CommitDependencies

/-!
# The order of a commit

The commit set fits into its batch, has moves and creations in front of deletes,
and every item behind the folders and siblings it needs. A deleted item under a
parent that is going to be deleted is in it only if it was moved there.
-/

namespace Chromium.Sync

open List Option

section

open Library Directory

/-- The root and uncommitted deleted items cannot be synced. -/
def Unsyncable (entry : EntryKernel) : Prop :=
  entry.id = .root ∨ entry.is_del = true ∧ entry.id.serverKnows = false

/-- An entry stays, or it is dropped from the unsynced ones. -/
def DropsTo (before after : EntryKernel) : Prop :=
  after = before ∨ Unsyncable before ∧ after = { before with is_unsynced := false }

/-- Some entries of a directory have been dropped. -/
def Drops (before after : Directory) : Prop := List.Forall₂ DropsTo before.entries after.entries

variable {dir before after : Directory} {entry other : EntryKernel}

theorem drops_refl : Drops dir dir := forall₂_same.mpr fun _ _ => .inl rfl

theorem DropsTo.trans (front : DropsTo first second) (back : DropsTo second third) :
    DropsTo first third := by
  rcases front with rfl | ⟨unsyncable, rfl⟩
  · exact back
  · right
    refine ⟨unsyncable, ?_⟩
    rcases back with rfl | ⟨-, rfl⟩
    · rfl
    · rfl

theorem Drops.trans (front : Drops first second) (back : Drops second third) : Drops first third :=
  forall₂_trans front back DropsTo.trans

theorem Drops.map_eq (drops : Drops before after) {read : EntryKernel -> β}
    (same : ∀ entry : EntryKernel, read { entry with is_unsynced := false } = read entry) :
    after.entries.map read = before.entries.map read := by
  apply map_eq_of_forall₂ drops
  rintro entry other (rfl | ⟨-, rfl⟩)
  · rfl
  · exact same entry

theorem Drops.mem_before (drops : Drops before after) (mem : entry ∈ after.entries) :
    ∃ original ∈ before.entries, DropsTo original entry :=
  mem_left_of_forall₂ drops mem

theorem Drops.mem_after (drops : Drops before after) (mem : entry ∈ before.entries) :
    ∃ changed ∈ after.entries, DropsTo entry changed :=
  mem_right_of_forall₂ drops mem

theorem Live.not_unsyncable (live : Live dir entry) : ¬ Unsyncable entry := by
  rintro (isRoot | ⟨deleted, -⟩)
  · exact live.id isRoot
  · rw [live.is_del] at deleted
    cases deleted

theorem Drops.live_after (drops : Drops before after) (live : Live before entry) :
    Live after entry := by
  obtain ⟨changed, isChanged, rfl | ⟨unsyncable, -⟩⟩ := drops.mem_after live.mem
  · exact ⟨isChanged, live.is_del, live.id⟩
  · exact absurd unsyncable live.not_unsyncable

/-- What is the same of an entry that may have been dropped. -/
theorem DropsTo.fields (drops : DropsTo entry other) :
    other.id = entry.id ∧ other.parent_id = entry.parent_id ∧
      other.prev_id = entry.prev_id ∧ other.is_del = entry.is_del ∧
      other.metahandle = entry.metahandle := by
  rcases drops with rfl | ⟨-, rfl⟩
  · exact ⟨rfl, rfl, rfl, rfl, rfl⟩
  · exact ⟨rfl, rfl, rfl, rfl, rfl⟩

theorem Drops.live_before (drops : Drops before after) (live : Live after entry) :
    Live before entry := by
  obtain ⟨original, isOriginal, dropsTo⟩ := drops.mem_before live.mem
  obtain ⟨id, -, -, is_del, -⟩ := dropsTo.fields
  rcases dropsTo with rfl | ⟨unsyncable, -⟩
  · exact ⟨isOriginal, live.is_del, live.id⟩
  · exact absurd unsyncable (Live.not_unsyncable
      ⟨isOriginal, is_del.symm.trans live.is_del, fun isRoot => live.id (id.trans isRoot)⟩)

theorem Drops.wellFormed (drops : Drops before after) (wf : before.WellFormed) :
    after.WellFormed where
  handles := by
    rw [drops.map_eq fun _ => rfl]
    exact wf.handles
  ids := by
    rw [drops.map_eq fun _ => rfl]
    exact wf.ids
  root_live := by
    intro entry mem isRoot
    obtain ⟨original, isOriginal, dropsTo⟩ := drops.mem_before mem
    obtain ⟨id, -, -, is_del, -⟩ := dropsTo.fields
    rw [is_del]
    exact wf.root_live original isOriginal (id.symm.trans isRoot)
  not_own_parent := by
    intro entry mem own
    obtain ⟨original, isOriginal, dropsTo⟩ := drops.mem_before mem
    obtain ⟨id, parent_id, -, -, -⟩ := dropsTo.fields
    rw [id, parent_id] at own
    rw [id]
    exact wf.not_own_parent original isOriginal own
  tree := by
    obtain ⟨depth, tree⟩ := wf.tree
    refine ⟨depth, ?_⟩
    intro entry mem is_del notRoot
    have live := drops.live_before ⟨mem, is_del, notRoot⟩
    obtain ⟨deeper, exists_⟩ := tree entry live.mem is_del notRoot
    refine ⟨deeper, exists_.imp_right ?_⟩
    rintro ⟨parent, isParent, isId, parentLive⟩
    obtain ⟨changed, isChanged, dropsTo⟩ := drops.mem_after isParent
    obtain ⟨id, -, -, is_del, -⟩ := dropsTo.fields
    exact ⟨changed, isChanged, id.trans isId, is_del.trans parentLive⟩
  lists := by
    obtain ⟨place, lists⟩ := wf.lists
    refine ⟨place, ?_⟩
    intro entry mem is_del notRoot notFirst
    have live := drops.live_before ⟨mem, is_del, notRoot⟩
    obtain ⟨sibling, isSibling, isId, siblingLive, sameParent, before⟩ :=
      lists entry live.mem is_del notRoot notFirst
    obtain ⟨changed, isChanged, dropsTo⟩ := drops.mem_after isSibling
    obtain ⟨id, parent_id, -, is_del, -⟩ := dropsTo.fields
    refine ⟨changed, isChanged, id.trans isId, is_del.trans siblingLive,
      parent_id.trans sameParent, ?_⟩
    rw [id]
    exact before

theorem Live.of_needs (wf : dir.WellFormed) (live : Live dir entry)
    (needs : Needs dir entry other) :
    Live dir other := by
  rcases needs with parent | sibling
  · have notRoot : entry.parent_id ≠ .root := by
      intro isRoot
      have unknown := parent.unknown
      rw [isRoot] at unknown
      cases unknown
    obtain ⟨depth, tree⟩ := wf.tree
    obtain ⟨same, isEntry, isId, is_del⟩ :=
      (tree entry live.mem live.is_del live.id).2.resolve_left notRoot
    rw [eq_of_map_eq wf.ids isEntry parent.mem (isId.trans parent.id.symm)] at is_del
    exact ⟨parent.mem, is_del, parent.id ▸ notRoot⟩
  · obtain ⟨place, lists⟩ := wf.lists
    obtain ⟨same, isEntry, isId, is_del, -⟩ :=
      lists entry live.mem live.is_del live.id sibling.notRoot
    rw [eq_of_map_eq wf.ids isEntry sibling.mem (isId.trans sibling.id.symm)] at is_del
    exact ⟨sibling.mem, is_del, sibling.id ▸ sibling.notRoot⟩

/-- Live items need the same items in directories with the same live items. -/
theorem Needs.transfer (wf : before.WellFormed)
    (same : ∀ {entry}, Live before entry -> Live after entry) (live : Live before entry)
    (needs : Needs before entry other) :
    Needs after entry other := by
  have isLive := same (live.of_needs wf needs)
  rcases needs with parent | sibling
  · exact .inl ⟨isLive.mem, parent.id, parent.unknown⟩
  · exact .inr ⟨isLive.mem, sibling.id, sibling.notRoot, sibling.is_unsynced⟩

theorem Creates.drops
    (creates : Creates before ordered order) (wf : before.WellFormed) (drops : Drops before after) :
    Creates after ordered order where
  holds := creates.holds
  live := fun entry mem => drops.live_after (creates.live entry mem)
  inOrder := by
    intro front mem back split_ other needs
    have isMem : mem ∈ order := by
      rw [split_]
      exact mem_append_right _ mem_cons_self
    apply creates.inOrder front mem back split_
    exact needs.transfer (drops.wellFormed wf) drops.live_before
      (drops.live_after (creates.live mem isMem))

theorem drops_putSynced (wf : dir.WellFormed) (isEntry : entry ∈ dir.entries)
    (unsyncable : Unsyncable entry) :
    Drops dir (dir.putSynced entry.metahandle) := by
  rw [Drops, putSynced, forall₂_map_right_iff, forall₂_same]
  intro other isOther
  split_ifs with same
  · rw [eq_of_map_eq wf.handles isOther isEntry same]
    exact .inr ⟨unsyncable, rfl⟩
  · exact .inl rfl

theorem validateCommitEntry_of_wellFormed (wf : dir.WellFormed) (isEntry : entry ∈ dir.entries) :
    validateCommitEntry entry = some .unsyncable ∧ Unsyncable entry ∨
      validateCommitEntry entry = some .ok ∧ ¬ Unsyncable entry := by
  rw [validateCommitEntry]
  by_cases own : entry.id = entry.parent_id
  · have isRoot := wf.not_own_parent entry isEntry own
    rw [if_pos own, if_pos (isRoot_iff.mpr isRoot)]
    exact .inl ⟨rfl, .inl isRoot⟩
  rw [if_neg own]
  by_cases isRoot : entry.id = .root
  · rw [if_pos (isRoot_iff.mpr isRoot)]
    exact .inl ⟨rfl, .inl isRoot⟩
  rw [if_neg (mt isRoot_iff.mp isRoot)]
  by_cases dropped : entry.is_del = true ∧ entry.id.serverKnows = false
  · rw [dropped.1, dropped.2]
    exact .inl ⟨rfl, .inr dropped⟩
  · rw [if_neg (by
      rw [Bool.and_eq_true, Bool.not_eq_true']
      exact dropped)]
    exact .inr ⟨rfl, not_or.mpr ⟨isRoot, dropped⟩⟩

/-- The handles are those of entries. -/
def Handles (dir : Directory) (handles : List Int) : Prop :=
  ∀ metahandle ∈ handles, ∃ entry ∈ dir.entries, entry.metahandle = metahandle

theorem Handles.drops (isHandles : Handles before handles) (drops : Drops before after) :
    Handles after handles := by
  intro metahandle mem
  obtain ⟨entry, isEntry, same⟩ := isHandles metahandle mem
  obtain ⟨changed, isChanged, dropsTo⟩ := drops.mem_after isEntry
  obtain ⟨-, -, -, -, metahandle⟩ := dropsTo.fields
  exact ⟨changed, isChanged, metahandle.trans same⟩

theorem Handles.tail (isHandles : Handles dir (metahandle :: handles)) : Handles dir handles :=
  (forall_mem_cons.mp isHandles).2

/-- A handle is valid, or it is skipped and its entry may be dropped. -/
theorem validateMetahandleForCommit_of_wellFormed
    (wf : dir.WellFormed) (isEntry : entry ∈ dir.entries) :
    (∃ next, validateMetahandleForCommit dir set_ entry.metahandle =
        some (false, next) ∧ Drops dir next) ∨
      validateMetahandleForCommit dir set_ entry.metahandle = some (true, dir) ∧
        set_.haveCommitItem entry.metahandle = false ∧ ¬ Unsyncable entry := by
  rw [validateMetahandleForCommit]
  cases present : set_.haveCommitItem entry.metahandle with
  | true => exact .inl ⟨dir, rfl, drops_refl⟩
  | false =>
    rw [if_neg Bool.false_ne_true, wf.getByHandle_eq isEntry, bind_eq_bind, bind_some]
    rcases validateCommitEntry_of_wellFormed wf isEntry with
      ⟨validates, unsyncable⟩ | ⟨validates, syncable⟩
    · rw [validates]
      exact .inl ⟨_, rfl, drops_putSynced wf isEntry unsyncable⟩
    · rw [validates]
      exact .inr ⟨rfl, rfl, syncable⟩

theorem addCreatesAndMovesLoop_creates (commit_batch_size : Nat) (routes : ModelSafeRoutingInfo)
    (handles : List Int) {s : CommitState} {order : List EntryKernel}
    (wf : s.dir.WellFormed) (isHandles : Handles s.dir handles)
    (creates : Creates s.dir s.ordered order) :
    ∃ next orderThen, addCreatesAndMovesLoop commit_batch_size routes handles s = some next ∧
        Drops s.dir next.dir ∧ Creates next.dir next.ordered orderThen := by
  induction handles generalizing s order with
  | nil => exact ⟨s, order, rfl, drops_refl, creates⟩
  | cons metahandle handles ih =>
    obtain ⟨entry, isEntry, rfl⟩ := isHandles _ mem_cons_self
    rw [addCreatesAndMovesLoop]
    rcases validateMetahandleForCommit_of_wellFormed wf isEntry with
      ⟨dir, validates, drops⟩ | ⟨validates, -, syncable⟩
    · rw [validates, bind_eq_bind, bind_some]
      obtain ⟨next, orderThen, loops, dropsThen, createsThen⟩ :=
        @ih { s with dir } order (drops.wellFormed wf)
          (isHandles.tail.drops drops) (creates.drops wf drops)
      exact ⟨next, orderThen, loops, drops.trans dropsThen, createsThen⟩
    · rw [validates, bind_eq_bind, bind_some]
      dsimp only
      rw [Bool.not_true, if_neg Bool.false_ne_true]
      split_ifs with full
      · exact ⟨s, order, rfl, drops_refl, creates⟩
      · rw [wf.getByHandle_eq isEntry, bind_eq_bind, bind_some]
        cases is_del : entry.is_del with
        | true => exact @ih s order wf isHandles.tail creates
        | false =>
          have live : Live s.dir entry :=
            ⟨isEntry, is_del, fun isRoot => syncable (.inl isRoot)⟩
          obtain ⟨middle, ordered, orderThen, parents, adds, createsThen⟩ :=
            creates.addEntry wf routes live
          rw [parents, Bool.not_false, if_pos rfl, bind_eq_bind,
            bind_eq_bind, bind_some, adds, bind_some]
          exact @ih { s with ordered } orderThen wf isHandles.tail createsThen

theorem addCreatesAndMoves_creates (wf : dir.WellFormed) (isHandles : Handles dir handles) :
    ∃ next order, addCreatesAndMoves commit_batch_size routes handles
          { dir, ordered := { routes } } = some next ∧
        Drops dir next.dir ∧ Creates next.dir next.ordered order ∧
        order.length <= commit_batch_size := by
  have nothing : Creates dir { routes } [] :=
    ⟨OrderedCommitSet.holds_nil, forall_mem_nil _, inOrder_nil⟩
  obtain ⟨next, order, loops, drops, creates⟩ :=
    @addCreatesAndMovesLoop_creates commit_batch_size routes handles
      { dir, ordered := { routes } } [] wf isHandles nothing
  rw [addCreatesAndMoves, loops]
  refine ⟨_, order.take commit_batch_size, rfl, drops, ⟨?_, ?_, ?_⟩, ?_⟩
  · rw [map_take]
    exact creates.holds.truncate commit_batch_size
  · exact fun entry mem => creates.live entry (mem_of_mem_take mem)
  · exact creates.inOrder.take commit_batch_size
  · exact length_take_le _ _

end

/-!
## The batch of a commit

Deletes are appended to the moves and creations as long as the batch has room.
The whole commit set is in order then.
-/

section

open Library Directory

/-- On the server the item has another parent: another one is known to be its
parent there, or the server does not know its parent. -/
def MovedThere (entry : EntryKernel) : Prop :=
  entry.id.serverKnows = true ∧ (entry.parent_id ≠ entry.server_parent_id ∨
      entry.parent_id.serverKnows = false)

/-- A deleted item is moved to its parent, if that is deleted and unsynced. -/
def AllowedDelete (dir : Directory) (entry : EntryKernel) : Prop :=
  ∀ parent ∈ dir.entries, parent.id = entry.parent_id ->
    parent.is_del = true -> parent.is_unsynced = true -> MovedThere entry

/-- Deleted items behind the moves and creations. -/
structure Deletes (dir : Directory) (commit_batch_size : Nat)
    (order : List EntryKernel) (ordered : OrderedCommitSet)
    (deleted : List EntryKernel) : Prop where
  holds : ordered.Holds ((order ++ deleted).map EntryKernel.commitItem)
  mem : ∀ entry ∈ deleted, entry ∈ dir.entries
  is_del : ∀ entry ∈ deleted, entry.is_del = true
  allowed : ∀ entry ∈ deleted, AllowedDelete dir entry
  size : (order ++ deleted).length <= commit_batch_size

/-- A parent whose children may be deleted is not going to be deleted itself,
unless the server does not know it. -/
def LegalParents (dir : Directory) (parents : List Id) : Prop :=
  ∀ parent ∈ dir.entries, parent.id ∈ parents -> parent.is_del = true ->
    parent.is_unsynced = true -> parent.id.serverKnows = false

variable {dir : Directory} {commit_batch_size : Nat} {order deleted : List EntryKernel}
  {ordered : OrderedCommitSet} {entry : EntryKernel}

theorem Deletes.add (deletes : Deletes dir commit_batch_size order ordered deleted)
    (isEntry : entry ∈ dir.entries) (is_del : entry.is_del = true)
    (allowed : AllowedDelete dir entry) (absent : ordered.haveCommitItem entry.metahandle = false)
    (room : ¬ ordered.size ≥ commit_batch_size) :
    Deletes dir commit_batch_size order
      (ordered.addCommitItem entry.metahandle entry.id entry.model_type) (deleted ++ [entry]) where
  holds := by
    rw [← append_assoc, map_append]
    apply @OrderedCommitSet.Holds.addCommitItem ordered _ deletes.holds entry.commitItem
    rw [← deletes.holds.haveCommitItem_iff]
    exact Bool.eq_false_iff.mp absent
  mem := by
    intro other member
    rcases mem_append.mp member with inDeleted | isNew
    · exact deletes.mem other inDeleted
    · rw [mem_singleton.mp isNew]
      exact isEntry
  is_del := by
    intro other member
    rcases mem_append.mp member with inDeleted | isNew
    · exact deletes.is_del other inDeleted
    · rw [mem_singleton.mp isNew]
      exact is_del
  allowed := by
    intro other member
    rcases mem_append.mp member with inDeleted | isNew
    · exact deletes.allowed other inDeleted
    · rw [mem_singleton.mp isNew]
      exact allowed
  size := by
    rw [deletes.holds.size_eq, length_map] at room
    rw [← append_assoc, length_append, length_singleton]
    omega

/-- An item that can be synced is the same in both directories. -/
theorem Drops.mem_of_syncable {before after : Directory} (drops : Drops before after)
    (mem : entry ∈ after.entries) (syncable : ¬ Unsyncable entry) :
    entry ∈ before.entries := by
  obtain ⟨original, isOriginal, dropsTo⟩ := drops.mem_before mem
  obtain ⟨id, -, -, is_del, -⟩ := dropsTo.fields
  rcases dropsTo with rfl | ⟨unsyncable, -⟩
  · exact isOriginal
  · rw [Unsyncable, ← id, ← is_del] at unsyncable
    exact absurd unsyncable syncable

theorem serverKnows_of_syncable (syncable : ¬ Unsyncable entry) (is_del : entry.is_del = true) :
    entry.id.serverKnows = true := by
  apply Bool.of_not_eq_false
  intro unknown
  exact syncable (.inr ⟨is_del, unknown⟩)

theorem allowedDelete_of_wasMoved (moved : wasMoved entry = true) : AllowedDelete dir entry := by
  intro parent _ _ _ _
  rw [wasMoved, Bool.and_eq_true, decide_eq_true_eq] at moved
  exact ⟨moved.1, .inl moved.2⟩

theorem LegalParents.allowedDelete (legal : LegalParents dir parents)
    (syncable : ¬ Unsyncable entry) (is_del : entry.is_del = true)
    (isLegal : entry.parent_id ∈ parents) :
    AllowedDelete dir entry := by
  intro parent isParent same parentDeleted unsynced
  refine ⟨serverKnows_of_syncable syncable is_del, .inr ?_⟩
  rw [← same] at isLegal ⊢
  exact legal parent isParent isLegal parentDeleted unsynced

/-- The parent of an entry is legal if it is not going to be deleted. -/
theorem LegalParents.cons
    {cur : Directory} {parents : List Id} (legal : LegalParents dir parents)
    (wf : dir.WellFormed) (drops : Drops dir cur)
    (stays : parentIsDeleted cur entry = false) :
    LegalParents dir (entry.parent_id :: parents) := by
  intro parent isParent isLegal parentDeleted unsynced
  rcases mem_cons.mp isLegal with isOwn | inParents
  · obtain ⟨changed, isChanged, dropsTo⟩ := drops.mem_after isParent
    have hit := (drops.wellFormed wf).getById_eq isChanged
    obtain ⟨id, -, -, is_del, -⟩ := dropsTo.fields
    rw [id, isOwn] at hit
    rw [parentIsDeleted, hit] at stays
    dsimp only at stays
    rw [is_del, parentDeleted, Bool.true_and] at stays
    rcases dropsTo with rfl | ⟨isRoot | ⟨-, unknown⟩, -⟩
    · rw [stays] at unsynced
      cases unsynced
    · rw [wf.root_live parent isParent isRoot] at parentDeleted
      cases parentDeleted
    · exact unknown
  · exact legal parent isParent inParents parentDeleted unsynced

theorem legalDeleteParentsLoop_deletes (wf : dir.WellFormed)
    {parents : List Id} (drops : Drops dir s.dir)
    (isHandles : Handles s.dir handles) (legal : LegalParents dir parents)
    (deletes : Deletes dir commit_batch_size order s.ordered deleted) :
    ∃ legalThen next deletedThen, legalDeleteParentsLoop commit_batch_size handles parents s =
          some (legalThen, next) ∧ Drops dir next.dir ∧ Drops s.dir next.dir ∧
        LegalParents dir legalThen ∧
        Deletes dir commit_batch_size order next.ordered deletedThen := by
  induction handles generalizing s parents deleted with
  | nil => exact ⟨parents, s, deleted, rfl, drops, drops_refl, legal,
      deletes⟩
  | cons metahandle handles ih =>
    have currentWf := drops.wellFormed wf
    obtain ⟨entry, isEntry, rfl⟩ := isHandles _ mem_cons_self
    rw [legalDeleteParentsLoop]
    rcases validateMetahandleForCommit_of_wellFormed currentWf isEntry with
      ⟨cur, validates, more⟩ | ⟨validates, absent, syncable⟩
    · rw [validates, bind_eq_bind, bind_some]
      obtain ⟨legalThen, next, deletedThen, loops, dropsThen, moreThen, legalNext, deletesThen⟩ :=
        @ih deleted { s with dir := cur } parents (drops.trans more)
          (isHandles.tail.drops more) legal deletes
      exact ⟨legalThen, next, deletedThen, loops, dropsThen,
        more.trans moreThen, legalNext, deletesThen⟩
    rw [validates, bind_eq_bind, bind_some]
    dsimp only
    by_cases full : s.ordered.size ≥ commit_batch_size
    · rw [if_pos full]
      exact ⟨parents, s, deleted, rfl, drops, drops_refl, legal, deletes⟩
    rw [if_neg full, currentWf.getByHandle_eq isEntry, bind_eq_bind, bind_some]
    cases is_del : entry.is_del with
    | false => exact @ih deleted s parents drops isHandles.tail legal deletes
    | true =>
      have inDir := drops.mem_of_syncable isEntry syncable
      cases stays : parentIsDeleted s.dir entry with
      | false =>
        exact @ih deleted s (entry.parent_id :: parents) drops
          isHandles.tail (legal.cons wf drops stays) deletes
      | true =>
        cases moved : wasMoved entry with
        | false => exact @ih deleted s parents drops isHandles.tail legal deletes
        | true =>
          exact @ih (deleted ++ [entry])
            { s with
              ordered := s.ordered.addCommitItem entry.metahandle entry.id entry.model_type }
            parents drops isHandles.tail legal
            (deletes.add inDir is_del (allowedDelete_of_wasMoved moved) absent full)

theorem addDeletesLoop_deletes (wf : dir.WellFormed) {s : CommitState}
    (drops : Drops dir s.dir)
    (isHandles : Handles s.dir handles) (legal : LegalParents dir parents)
    (deletes : Deletes dir commit_batch_size order s.ordered deleted) :
    ∃ next deletedThen, addDeletesLoop commit_batch_size parents handles s = some next ∧
        Deletes dir commit_batch_size order next.ordered deletedThen := by
  induction handles generalizing s deleted with
  | nil => exact ⟨s, deleted, rfl, deletes⟩
  | cons metahandle handles ih =>
    have currentWf := drops.wellFormed wf
    obtain ⟨entry, isEntry, rfl⟩ := isHandles _ mem_cons_self
    rw [addDeletesLoop]
    rcases validateMetahandleForCommit_of_wellFormed currentWf isEntry with
      ⟨cur, validates, more⟩ | ⟨validates, absent, syncable⟩
    · rw [validates, bind_eq_bind, bind_some]
      exact @ih deleted { s with dir := cur } (drops.trans more)
        (isHandles.tail.drops more) deletes
    rw [validates, bind_eq_bind, bind_some]
    dsimp only
    by_cases full : s.ordered.size ≥ commit_batch_size
    · rw [if_pos full]
      exact ⟨s, deleted, rfl, deletes⟩
    rw [if_neg full, currentWf.getByHandle_eq isEntry, bind_eq_bind, bind_some]
    by_cases adds : (entry.is_del && parents.contains entry.parent_id) = true
    · have both := Bool.and_eq_true_iff.mp adds
      rw [if_pos adds]
      exact @ih (deleted ++ [entry])
        { s with
          ordered := s.ordered.addCommitItem entry.metahandle entry.id entry.model_type }
        drops isHandles.tail
        (deletes.add (drops.mem_of_syncable isEntry syncable) both.1
          (legal.allowedDelete syncable both.1 (contains_iff_mem.mp both.2)) absent full)
    · rw [if_neg adds]
      exact @ih deleted s drops isHandles.tail deletes

/-- A commit set in order: it fits into the batch, has every item once, has moves
and creations in front of deletes, and has in front of each of them the
ancestors that the server does not know, up to the first that it knows, and the
unsynced sibling in front of it. -/
structure CommitOrder (dir : Directory) (commit_batch_size : Nat)
    (entries : List EntryKernel) : Prop where
  mem : ∀ entry ∈ entries, entry ∈ dir.entries
  size : entries.length <= commit_batch_size
  nodup : entries.Nodup
  deletes_last : Leading (fun entry => !entry.is_del) entries
  ancestors : ∀ entry ∈ entries, entry.is_del = false ->
    ∀ ancestor, Relation.TransGen (NeedsParent dir) entry ancestor -> Before entries ancestor entry
  siblings : ∀ entry ∈ entries, entry.is_del = false ->
    ∀ sibling, NeedsSibling dir entry sibling -> Before entries sibling entry
  deletes : ∀ entry ∈ entries, entry.is_del = true -> AllowedDelete dir entry

theorem before_append (before : Before order first second) :
    Before (order ++ deleted) first second := by
  obtain ⟨front, back, rfl, inFront⟩ := before
  refine ⟨front, back ++ deleted, ?_, inFront⟩
  rw [append_assoc, cons_append]

/-- Moves and creations in order with deletes behind them are a commit set in
order. -/
theorem commitOrder_append (inOrder : InOrder (Needs dir) order)
    (live : ∀ entry ∈ order, Live dir entry)
    (deletes : Deletes dir commit_batch_size order ordered deleted) :
    CommitOrder dir commit_batch_size (order ++ deleted) := by
  have isOrdered : ∀ entry ∈ order ++ deleted, entry.is_del = false -> entry ∈ order := by
    intro entry member is_del
    refine (mem_append.mp member).resolve_right ?_
    intro inDeleted
    rw [deletes.is_del entry inDeleted] at is_del
    cases is_del
  refine ⟨?_, deletes.size, nodup_of_holds deletes.holds, ?_, ?_, ?_, ?_⟩
  · intro entry member
    rcases mem_append.mp member with inOrder | inDeleted
    · exact (live entry inOrder).mem
    · exact deletes.mem entry inDeleted
  · rw [Leading, pairwise_append]
    refine ⟨?_, ?_, ?_⟩
    · apply pairwise_of_forall_mem_list
      intro before isBefore _ _ _
      rw [(live before isBefore).is_del]
      rfl
    · apply pairwise_of_forall_mem_list
      intro _ _ behind isBehind fails
      rw [deletes.is_del behind isBehind] at fails
      cases fails
    · intro before isBefore _ _ _
      rw [(live before isBefore).is_del]
      rfl
  · intro entry member is_del ancestor above
    apply before_append
    apply inOrder.before_of_transGen (isOrdered entry member is_del)
    exact Relation.TransGen.mono (show NeedsParent dir ≤ Needs dir from fun _ _ => Or.inl) _ _ above
  · intro entry member is_del sibling needs
    apply before_append
    apply inOrder.before_of_transGen (isOrdered entry member is_del)
    exact .single (.inr needs)
  · intro entry member is_del
    rcases mem_append.mp member with inOrder | inDeleted
    · rw [(live entry inOrder).is_del] at is_del
      cases is_del
    · exact deletes.allowed entry inDeleted

/-- `BuildCommitIds` builds a commit set in order. -/
theorem buildCommitIds_commitOrder (commit_batch_size : Nat) (routes : ModelSafeRoutingInfo)
    {handles : List Int} (wf : dir.WellFormed) (isHandles : Handles dir handles) :
    ∃ state entries, buildCommitIds commit_batch_size handles dir routes = some state ∧
        state.ordered.Holds (entries.map EntryKernel.commitItem) ∧
        CommitOrder dir commit_batch_size entries := by
  obtain ⟨middle, order, creates, drops, isCreates, size⟩ := addCreatesAndMoves_creates wf isHandles
  have nothing : Deletes dir commit_batch_size order middle.ordered [] := by
    refine ⟨?_, forall_mem_nil _, forall_mem_nil _, forall_mem_nil _, ?_⟩
    · rw [append_nil]
      exact isCreates.holds
    · rw [append_nil]
      exact size
  obtain ⟨parents, state, first, legalLoops, stateDrops, more, legal, firstDeletes⟩ :=
    legalDeleteParentsLoop_deletes wf drops (isHandles.drops drops) (show LegalParents dir [] from
        fun _ _ member => absurd member not_mem_nil) nothing
  obtain ⟨next, all, loops, deletes⟩ :=
    addDeletesLoop_deletes wf stateDrops (isHandles.drops stateDrops) legal firstDeletes
  have live : ∀ entry ∈ order, Live dir entry :=
    fun entry member => drops.live_before (isCreates.live entry member)
  have inOrder : InOrder (Needs dir) order := by
    intro front member back split_ other needs
    have isMember : member ∈ order := by
      rw [split_]
      exact mem_append_right _ mem_cons_self
    apply isCreates.inOrder front member back split_
    exact needs.transfer wf drops.live_after (live member isMember)
  refine ⟨next, order ++ all, ?_, deletes.holds, commitOrder_append inOrder live deletes⟩
  rw [buildCommitIds, creates, bind_eq_bind, bind_some, addDeletes, legalLoops]
  exact loops

/-- An entry of the parent of an item, or of the parent of such an entry. -/
def Ancestor (dir : Directory) : EntryKernel -> EntryKernel -> Prop :=
  Relation.TransGen fun entry parent => parent ∈ dir.entries ∧ parent.id = entry.parent_id

/-- A folder the server does not know. -/
def newFolder : EntryKernel where
  metahandle := 1
  id := .client "new folder"
  parent_id := .root
  server_parent_id := .root
  prev_id := .root
  is_unsynced := true
  is_del := false
  model_type := .bookmarks

/-- A folder the server knows, that was moved to the new one. -/
def movedFolder : EntryKernel where
  metahandle := 2
  id := .server "moved folder"
  parent_id := newFolder.id
  server_parent_id := .root
  prev_id := .root
  is_unsynced := true
  is_del := false
  model_type := .bookmarks

/-- A new item in the folder that was moved. -/
def newItem : EntryKernel where
  metahandle := 3
  id := .client "new item"
  parent_id := movedFolder.id
  server_parent_id := .root
  prev_id := .root
  is_unsynced := true
  is_del := false
  model_type := .bookmarks

def movedFolderDirectory : Directory where
  entries := [newFolder, movedFolder, newItem]

theorem movedFolderDirectory_wellFormed : movedFolderDirectory.WellFormed where
  handles := by decide
  ids := by decide
  root_live := by decide
  not_own_parent := by decide
  tree := by
    refine ⟨fun id => if id = newFolder.id then 1
      else if id = movedFolder.id then 2 else if id = newItem.id then 3 else 0, ?_⟩
    unfold TreeBy
    decide
  lists := ⟨fun _ => 0, by
    unfold ListsBy
    decide⟩

theorem buildCommitIds_commitOrder_moved : ∃ state entries,
      buildCommitIds 2 [3, 2, 1] movedFolderDirectory (fun _ => none) = some state ∧
        state.ordered.Holds (entries.map EntryKernel.commitItem) ∧
        CommitOrder movedFolderDirectory 2 entries :=
  buildCommitIds_commitOrder 2 (fun _ => none) movedFolderDirectory_wellFormed (by
      unfold Handles
      decide)

/-- The new item is committed in front of the new folder. -/
theorem not_every_ancestor_before :
    ¬ ∀ (dir : Directory) (handles : List Int) (commit_batch_size : Nat)
        (routes : ModelSafeRoutingInfo),
      dir.WellFormed -> Handles dir handles -> 1 <= commit_batch_size ->
      ∃ state entries, buildCommitIds commit_batch_size handles dir routes = some state ∧
          state.ordered.Holds (entries.map EntryKernel.commitItem) ∧
          (∀ entry ∈ entries, entry ∈ dir.entries) ∧
          ∀ entry ∈ entries, entry.is_del = false -> ∀ ancestor, Ancestor dir entry ancestor ->
              ancestor.id.serverKnows = false -> Before entries ancestor entry := by
  intro ordered
  obtain ⟨state, entries, builds, holds, mem, before⟩ := ordered
    movedFolderDirectory [3, 2, 1] 3 (fun _ => none)
    movedFolderDirectory_wellFormed (by
      unfold Handles
      decide) (by decide)
  have built : (buildCommitIds 3 [3, 2, 1] movedFolderDirectory
      fun _ => none).map (·.ordered.metahandle_order) = some [3, 1, 2] := by
    decide +kernel
  rw [builds, map_some, holds.metahandle_order, List.map_map, some_inj] at built
  have isItem : newItem ∈ entries := by
    have isHandle : (3 : Int) ∈ entries.map (CommitItem.metahandle ∘ EntryKernel.commitItem) := by
      rw [built]
      exact mem_cons_self
    obtain ⟨entry, isEntry, same⟩ := List.mem_map.mp isHandle
    rwa [← eq_of_map_eq movedFolderDirectory_wellFormed.handles
      (mem entry isEntry) (show newItem ∈ movedFolderDirectory.entries by decide)
      same]
  have isAncestor : Ancestor movedFolderDirectory newItem newFolder :=
    .tail (.single (show movedFolder ∈ movedFolderDirectory.entries ∧
      movedFolder.id = newItem.parent_id by decide)) (by decide)
  obtain ⟨front, back, rfl, inFront⟩ := before newItem isItem rfl newFolder isAncestor rfl
  cases front with
  | nil => exact absurd inFront not_mem_nil
  | cons first front =>
    rw [cons_append, map_cons, map_append, map_cons, List.cons.injEq] at built
    have isBehind : (3 : Int) ∈ [1, 2] := by
      rw [← built.2]
      exact mem_append_right _ mem_cons_self
    exact absurd isBehind (by decide)

end

end Chromium.Sync
