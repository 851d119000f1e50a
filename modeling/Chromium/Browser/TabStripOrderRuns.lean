import Chromium.Browser.TabStripRuns

/-!
# The order of the tabs through a run

Mini tabs stay in front, no tab is lost or duplicated, and what opened a tab
stays a tab of the strip, as long as the tabs that are selected are tabs of the
strip where a call reads them. They are not when the last tab was detached
while it was selected.
-/

namespace Chromium.Browser

open List
open Library

namespace TabStripModel

open TabContentsData TabStripSelectionModel

/-- A strip beside the tabs that were put into it and not taken out. -/
structure Tracked where
  strip : TabStripModel
  tabs : List TabContentsWrapper

/-- The tabs that should be in the strip behind a call. -/
def tabsBehind (strip : TabStripModel) (tabs : List TabContentsWrapper) :
    Call -> List TabContentsWrapper
  | .insertTabContentsAt _ contents _
  | .addTabContents contents _ _ _ => contents :: tabs
  | .detachTabContentsAt index =>
    match strip.getTabContentsAt index with
    | none => tabs
    | some contents => tabs.erase contents
  | _ => tabs

def Tracked.perform (tracked : Tracked) (call : Call) : Option Tracked :=
  (tracked.strip.perform call).map fun strip =>
    { strip, tabs := tracked.strip.tabsBehind tracked.tabs call }

/-- The calls that insert, detach, move and pin tabs, with valid indices. -/
def Tracked.Rearranges (tracked : Tracked) (call : Call) : Prop :=
  match call with
  | .activateTabAt _ _
  | .extendSelectionTo _
  | .toggleSelectionAt _
  | .addSelectionFromAnchorTo _ => False
  | .setTabPinned index _ =>
    tracked.strip.Permitted call ∧ ((tracked.strip.getTabContentsAt index).any fun contents =>
        !contents.is_app) = true
  | _ => tracked.strip.Permitted call

/-- The tabs of the strip are in order, and are the ones that were put into it
and not taken out. -/
structure Tracked.InOrder (tracked : Tracked) : Prop where
  ordered : Ordered tracked.strip.contents_data
  perm : (tracked.strip.contents_data.map contents).Perm tracked.tabs

/-- The selected tabs that a call reads are tabs of the strip. -/
def Tracked.ReadsTabs (tracked : Tracked) : Call -> Prop
  | .moveSelectedTabsTo _ =>
    ∀ selected ∈ tracked.strip.selection_model.selected_indices, selected < tracked.strip.count
  | .addTabContents _ _ transition add_types =>
    tracked.strip.NeedsSelected transition add_types ->
      tracked.strip.activeIndex < tracked.strip.count
  | _ => True

/-- The selection that is left when the last tab has been detached while it
was selected: an index behind all tabs. -/
def Stale (strip : TabStripModel) : Prop :=
  ∃ index, strip.count <= index ∧ strip.selection_model.selected_indices = [index] ∧
    strip.activeIndex = index

/-- What every call keeps. -/
structure Tracked.Kept (tracked : Tracked) : Prop where
  inOrder : tracked.InOrder
  selection : Selected tracked.strip.count tracked.strip.selection_model ∨ tracked.strip.Stale

variable {strip next : TabStripModel} {index : Int}

section

variable (stale : strip.Stale)
include stale

theorem Stale.inactive (ok : strip.Valid index) : index ≠ strip.activeIndex := by
  obtain ⟨other, outside, _, isActive⟩ := stale
  rw [Valid] at ok
  omega

theorem Stale.of_count (fewer : next.count <= strip.count)
    (same : next.selection_model = strip.selection_model) :
    next.Stale := by
  obtain ⟨other, outside, isSelected, isActive⟩ := stale
  refine ⟨other, fewer.trans outside, ?_, ?_⟩
  · rw [same]
    exact isSelected
  · rw [activeIndex, same]
    exact isActive

theorem Stale.inserts {contents : TabContentsWrapper} {active : Bool}
    (inserts : Inserts strip contents active pos tabs data next) :
    Selected next.count next.selection_model ∨ next.Stale := by
  have inside := inserts.inside
  have isNext := inserts.selection_model
  have isCount := inserts.count_eq
  cases active with
  | true =>
    rw [isNext, isCount, if_pos rfl]
    refine .inl (selected_singleton ⟨Int.natCast_nonneg _, ?_⟩)
    rw [count]
    omega
  | false =>
    rw [if_neg Bool.false_ne_true] at isNext
    obtain ⟨other, outside, isSelected, isActive⟩ := stale
    have shifts : incrementFromImpl pos other = other + 1 := by
      rw [count] at outside
      rw [incrementFromImpl, if_pos (by omega)]
    refine .inr ⟨other + 1, by omega, ?_, ?_⟩
    · rw [isNext]
      dsimp only [TabStripSelectionModel.incrementFrom]
      rw [isSelected, map_singleton, shifts]
    · rw [activeIndex] at isActive ⊢
      rw [isNext]
      dsimp only [TabStripSelectionModel.incrementFrom]
      rw [isActive, shifts]

theorem Stale.detaches (ok : strip.Valid index) (detaches : Detaches strip index data next) :
    next.Stale := by
  have isCount := detaches.count_eq ok
  have inactive := stale.inactive ok
  rw [Valid] at ok
  rcases Int.lt_or_le 1 strip.count with several | single
  · have isNext := detaches.inactive several inactive
    obtain ⟨other, outside, isSelected, isActive⟩ := stale
    have shifts : decrementFromImpl index other = other - 1 := by
      rw [decrementFromImpl, if_neg (by omega), if_pos (by omega)]
    refine ⟨other - 1, by omega, ?_, ?_⟩
    · rw [isNext]
      dsimp only [TabStripSelectionModel.decrementFrom]
      rw [isSelected, filter_cons_of_pos (by
        rw [decide_eq_true_eq]
        omega), filter_nil, map_singleton, shifts]
    · rw [activeIndex] at isActive ⊢
      rw [isNext]
      dsimp only [TabStripSelectionModel.decrementFrom]
      rw [isActive, shifts]
  · exact stale.of_count (by omega) (detaches.last (by omega))

theorem Stale.moves (ok : strip.Valid index)
    (toValid : strip.Valid to_position) (isCount : next.count = strip.count)
    (selection : next.selection_model = strip.selection_model ∨
      next.selection_model = strip.selection_model.move index to_position) :
    next.Stale := by
  rcases selection with same | isMove
  · exact stale.of_count (le_of_eq isCount) same
  · obtain ⟨other, outside, isSelected, isActive⟩ := stale
    rw [Valid] at ok toValid
    have stays := moved_outside (show index < other by omega) (show to_position < other by omega)
    have rising : strip.selection_model.selected_indices.Pairwise (· < ·) := by
      rw [isSelected]
      exact pairwise_singleton _ _
    refine ⟨other, by omega, ?_, ?_⟩
    · have perm := move_perm rising ok.1 to_position
      rw [isSelected, map_singleton, stays] at perm
      rw [isMove]
      exact perm_singleton.mp perm
    · rw [activeIndex] at isActive ⊢
      rw [isMove, move_active ok.1, isActive, stays]

end

theorem inOrder_of_inserts {contents : TabContentsWrapper} {active : Bool} {tracked : Tracked}
    (inOrder : tracked.InOrder)
    (new_ : contents.controller ∉ tracked.strip.contents_data.map controller)
    (inserts : Inserts tracked.strip contents active pos inherited data next) :
    Tracked.InOrder { strip := next, tabs := contents :: tracked.tabs } where
  ordered := inserts.ordered inOrder.ordered new_
  perm := inserts.contents_perm.trans (inOrder.perm.cons contents)

theorem Tracked.InOrder.of_moves {tracked : Tracked} (inOrder : tracked.InOrder)
    (moves : Moves tracked.strip next) :
    Tracked.InOrder { strip := next, tabs := tracked.tabs } where
  ordered := moves.ordered inOrder.ordered
  perm := moves.contents.trans inOrder.perm

/-- The selection behind an insertion. -/
theorem selection_of_inserts {contents : TabContentsWrapper} {active : Bool}
    (selection : Selected strip.count strip.selection_model ∨ strip.Stale)
    (inserts : Inserts strip contents active pos tabs data next) :
    Selected next.count next.selection_model ∨ next.Stale := by
  rcases selection with selected | stale
  · exact .inl (inserts.selected selected)
  · exact stale.inserts inserts

namespace Tracked.Kept

variable {tracked : Tracked}

theorem insertTabContentsAt (kept : tracked.Kept) {contents : TabContentsWrapper}
    (new_ : contents.controller ∉ tracked.strip.contents_data.map controller) (i : Int)
    (add_types : AddTabTypes) :
    ∃ next, tracked.perform (.insertTabContentsAt i contents add_types) = some next ∧
      next.Kept := by
  obtain ⟨_, _, _, next, runs, inserts⟩ :=
    tracked.strip.insertTabContentsAt_inserts i contents add_types
  rw [Tracked.perform, TabStripModel.perform, runs]
  exact ⟨_, rfl, inOrder_of_inserts kept.inOrder new_ inserts,
    selection_of_inserts kept.selection inserts⟩

theorem addTabContents (kept : tracked.Kept) {contents : TabContentsWrapper}
    (new_ : contents.controller ∉ tracked.strip.contents_data.map controller) (i : Int)
    (reads : tracked.strip.NeedsSelected transition add_types ->
      tracked.strip.activeIndex < tracked.strip.count) :
    ∃ next, tracked.perform (.addTabContents contents i transition add_types) = some next ∧
      next.Kept := by
  obtain ⟨_, _, _, middle, next, inserts, runs, only⟩ :=
    @addTabContents_inserts transition tracked.strip contents i add_types (by
        intro needs
        rcases kept.selection with selected | stale
        · exact Selected.getSelectedTabContents selected needs.2.2.2
        · obtain ⟨other, outside, _, isActive⟩ := stale
          have := reads needs
          omega)
  have inOrder := inOrder_of_inserts kept.inOrder new_ inserts
  rw [Tracked.perform, TabStripModel.perform, runs]
  refine ⟨_, rfl, ⟨inOrder.ordered.of_cleared only.cleared, ?_⟩, ?_⟩
  · rw [only.cleared.contents_eq]
    exact inOrder.perm
  · rcases selection_of_inserts kept.selection inserts with selected | stale
    · left
      rw [only.count_eq, only.selection_model]
      exact selected
    · exact .inr (stale.of_count (le_of_eq only.count_eq) only.selection_model)

theorem detachTabContentsAt (kept : tracked.Kept) (ok : tracked.strip.Valid index) :
    ∃ next, tracked.perform (.detachTabContentsAt index) = some next ∧ next.Kept := by
  have hit := dataAt_of_valid ok
  generalize (getElem tracked.strip.contents_data index.toNat ok.toNat_lt) = data at hit
  obtain ⟨next, runs, detaches⟩ := detachTabContentsAt_detaches kept.inOrder.ordered hit (by
      intro isActive
      rcases kept.selection with selected | stale
      · exact selected
      · exact absurd isActive (stale.inactive ok))
  rw [Tracked.perform, TabStripModel.perform, runs, tabsBehind, getTabContentsAt, hit]
  refine ⟨_, rfl, ⟨detaches.ordered kept.inOrder.ordered hit, ?_⟩, ?_⟩
  · have perm := (detaches.contents_perm hit).symm.trans kept.inOrder.perm
    have erased := perm.erase data.contents
    rwa [erase_cons_head] at erased
  · rcases kept.selection with selected | stale
    · rcases Int.lt_or_le 1 tracked.strip.count with several | single
      · exact .inl (detaches.selected ok selected several)
      · -- The index of the last tab stays if it was selected.
        have isCount := detaches.count_eq ok
        rw [Valid] at ok
        have isLast : tracked.strip.count = 1 := by omega
        have same := detaches.last isLast
        rcases selected.active with unselected | mem
        · left
          rw [same]
          refine ⟨selected.increasing, ?_, selected.active, selected.nothing⟩
          rw [selected.nothing unselected]
          intro other mem
          exact absurd mem not_mem_nil
        · right
          have inside := selected.inside _ mem
          refine ⟨tracked.strip.activeIndex, ?_, ?_, ?_⟩
          · dsimp only
            rw [activeIndex]
            omega
          · dsimp only
            rw [same]
            exact selected.eq_singleton (le_of_eq isLast) mem
          · exact congrArg TabStripSelectionModel.active same
    · exact .inr (stale.detaches ok detaches)

theorem perform_of_moves (kept : tracked.Kept) (runs : tracked.strip.perform call = some next)
    (sameTabs : tracked.strip.tabsBehind tracked.tabs call = tracked.tabs)
    (moves : Moves tracked.strip next) (stale : tracked.strip.Stale -> next.Stale) :
    ∃ next, tracked.perform call = some next ∧ next.Kept := by
  rw [Tracked.perform, runs, sameTabs]
  refine ⟨_, rfl, kept.inOrder.of_moves moves, ?_⟩
  rcases kept.selection with selected | isStale
  · left
    rw [moves.count_eq]
    exact moves.selected selected
  · exact .inr (stale isStale)

theorem moveTabContentsAt (kept : tracked.Kept)
    (ok : tracked.strip.Valid index) (toValid : tracked.strip.Valid to_position)
    (select_after_move : Bool) :
    ∃ next, tracked.perform (.moveTabContentsAt index to_position select_after_move) = some next ∧
      next.Kept := by
  obtain ⟨base, next, runs, moves, selection, rfl | ⟨-, rfl⟩⟩ :=
    moveTabContentsAt_moves ok toValid
  · exact kept.perform_of_moves runs rfl moves fun stale =>
      stale.moves ok toValid moves.count_eq selection
  · rw [Tracked.perform, TabStripModel.perform, runs]
    exact ⟨_, rfl, ⟨moves.ordered kept.inOrder.ordered, moves.contents.trans kept.inOrder.perm⟩,
      .inl (selected_singleton (moves.valid toValid))⟩

theorem moveSelectedTabsTo (kept : tracked.Kept) (nonneg : 0 <= index)
    (enough : index <= tracked.strip.count - tracked.strip.selection_model.selected_indices.length)
    (reads : ∀ selected ∈ tracked.strip.selection_model.selected_indices,
      selected < tracked.strip.count) :
    ∃ next, tracked.perform (.moveSelectedTabsTo index) = some next ∧ next.Kept := by
  rcases kept.selection with selected | ⟨other, outside, isSelected, _⟩
  · obtain ⟨next, runs, moves⟩ := moveSelectedTabsTo_moves
      kept.inOrder.ordered selected nonneg enough
    rw [Tracked.perform, TabStripModel.perform, runs]
    refine ⟨_, rfl, kept.inOrder.of_moves moves, .inl ?_⟩
    rw [moves.count_eq]
    exact moves.selected selected
  · have := reads other (by
      rw [isSelected]
      exact mem_cons_self)
    omega

theorem setTabPinned (kept : tracked.Kept) (ok : tracked.strip.Valid index) (pinned : Bool) :
    ∃ next, tracked.perform (.setTabPinned index pinned) = some next ∧ next.Kept := by
  obtain ⟨next, runs, moves, selection⟩ := setTabPinned_moves kept.inOrder.ordered ok
  refine kept.perform_of_moves runs rfl moves fun stale => ?_
  rcases selection with same | ⟨to_position, toValid, isMove⟩
  · exact stale.of_count (le_of_eq moves.count_eq) same
  · exact stale.moves ok toValid moves.count_eq (.inr isMove)

theorem perform (kept : tracked.Kept) (ok : tracked.Rearranges call)
    (reads : tracked.ReadsTabs call) :
    ∃ next, tracked.perform call = some next ∧ next.Kept := by
  cases call with
  | insertTabContentsAt index contents add_types =>
    exact kept.insertTabContentsAt ok index add_types
  | addTabContents contents index transition add_types =>
    exact kept.addTabContents ok index reads
  | detachTabContentsAt index => exact kept.detachTabContentsAt ok
  | moveTabContentsAt index to_position select_after_move =>
    exact kept.moveTabContentsAt ok.1 ok.2 select_after_move
  | moveSelectedTabsTo index => exact kept.moveSelectedTabsTo ok.1 ok.2 reads
  | setTabPinned index pinned => exact kept.setTabPinned ok.1 pinned
  | _ => exact absurd ok id

/-- A call that reads a tab that is not in the strip does not return. -/
theorem perform_eq_none (kept : tracked.Kept) (reads : ¬ tracked.ReadsTabs call) :
    tracked.perform call = none := by
  cases call with
  | moveSelectedTabsTo i =>
    rw [Tracked.perform, TabStripModel.perform]
    rcases kept.selection with selected | ⟨other, outside, isSelected, _⟩
    · exact absurd (fun i mem => (selected.inside i mem).2) reads
    · have missing : tracked.strip.dataAt other = none := by
        apply dataAt_of_not_valid
        rw [Valid]
        omega
      rw [TabStripModel.moveSelectedTabsTo, isSelected, selectedMiniCount, isMiniTab, missing]
      rfl
  | addTabContents contents i transition add_types =>
    rw [ReadsTabs, Classical.not_imp] at reads
    have missing : tracked.strip.getSelectedTabContents = none := by
      rw [getSelectedTabContents, getTabContentsAt, dataAt_of_not_valid]
      · rfl
      · rw [Valid]
        exact fun ok => reads.2 ok.2
    rw [Tracked.perform, TabStripModel.perform, addTabContents_eq_none reads.1 missing]
    rfl
  | _ => exact absurd trivial reads

end Tracked.Kept

/-- From a strip whose tabs are in order and whose selection is well formed the
tabs stay in order through a run of calls that insert, detach, move and pin
tabs, and none is lost or duplicated, if and only if no call reads a selected
tab that is not in the strip. -/
theorem inOrder_iff_readsTabs (strip : TabStripModel) (ordered : Ordered strip.contents_data)
    (selected : Selected strip.count strip.selection_model) {calls : List Call}
    (rearranges : Throughout Tracked.perform Tracked.Rearranges
      { strip, tabs := strip.contents_data.map contents } calls) :
    Always Tracked.perform Tracked.InOrder
        { strip, tabs := strip.contents_data.map contents } calls ↔
      Throughout Tracked.perform Tracked.ReadsTabs
        { strip, tabs := strip.contents_data.map contents } calls := by
  refine always_iff_throughout Tracked.Kept.inOrder Tracked.Kept.perform ?_
    ⟨⟨ordered, .refl _⟩, .inl selected⟩ rearranges
  intro tracked call next kept _ reads runs
  rw [kept.perform_eq_none reads] at runs
  cases runs

instance (tracked : Tracked) : ∀ call, Decidable (tracked.Rearranges call)
  | .insertTabContentsAt index contents add_types => inferInstanceAs
      (Decidable (tracked.strip.Permitted (.insertTabContentsAt index contents add_types)))
  | .addTabContents contents index transition add_types => inferInstanceAs
      (Decidable (tracked.strip.Permitted (.addTabContents contents index transition add_types)))
  | .moveTabContentsAt index to_position select_after_move => inferInstanceAs
      (Decidable (tracked.strip.Permitted (.moveTabContentsAt index to_position select_after_move)))
  | .moveSelectedTabsTo index => inferInstanceAs
      (Decidable (tracked.strip.Permitted (.moveSelectedTabsTo index)))
  | .detachTabContentsAt index => inferInstanceAs
      (Decidable (tracked.strip.Permitted (.detachTabContentsAt index)))
  | .setTabPinned index pinned => inferInstanceAs
      (Decidable (tracked.strip.Permitted (.setTabPinned index pinned) ∧ _))
  | .activateTabAt _ _ => isFalse id
  | .extendSelectionTo _ => isFalse id
  | .toggleSelectionAt _ => isFalse id
  | .addSelectionFromAnchorTo _ => isFalse id

instance (strip : TabStripModel) (transition : PageTransition) (add_types : AddTabTypes) :
    Decidable (strip.NeedsSelected transition add_types) :=
  inferInstanceAs (Decidable (_ ∧ _))

instance (tracked : Tracked) : ∀ call, Decidable (tracked.ReadsTabs call)
  | .moveSelectedTabsTo _ => inferInstanceAs (Decidable (∀ selected ∈ _, selected < _))
  | .addTabContents _ _ _ _ => inferInstanceAs (Decidable (_ -> _))
  | .insertTabContentsAt _ _ _ => isTrue trivial
  | .detachTabContentsAt _ => isTrue trivial
  | .moveTabContentsAt _ _ _ => isTrue trivial
  | .setTabPinned _ _ => isTrue trivial
  | .activateTabAt _ _ => isTrue trivial
  | .extendSelectionTo _ => isTrue trivial
  | .toggleSelectionAt _ => isTrue trivial
  | .addSelectionFromAnchorTo _ => isTrue trivial

theorem inOrder_iff_readsTabs_pinned : Always Tracked.perform Tracked.InOrder
      { strip := emptyStrip .insertAfter, tabs := [] }
      [.insertTabContentsAt 0 (aTab 0) { active := true }, .addTabContents (aTab 1) 0 .link {},
        .setTabPinned 1 true,
        .moveSelectedTabsTo 0,
        .detachTabContentsAt 1] :=
  (inOrder_iff_readsTabs (emptyStrip .insertAfter) ordered_nil
    kept_emptyStrip.wellSelected.selected (by decide)).mpr (by decide)

/-- The last tab is detached while it is selected, and the selected tabs are
moved when there is another. -/
theorem not_inOrder_stale : ¬ ∀ insertion_policy calls,
      Throughout Tracked.perform Tracked.Rearranges
          { strip := emptyStrip insertion_policy, tabs := [] } calls ->
        Always Tracked.perform Tracked.InOrder
          { strip := emptyStrip insertion_policy, tabs := [] } calls := by
  intro always
  obtain ⟨-, _, first, -, _, second, -, _, third, -, _, moves, -⟩ :=
    always .insertAfter [.insertTabContentsAt 0 (aTab 0) { active := true }, .detachTabContentsAt 0,
        .insertTabContentsAt 0 (aTab 1) {},
        .moveSelectedTabsTo 0] (by decide)
  cases first
  cases second
  cases third
  cases moves

end TabStripModel
end Chromium.Browser
