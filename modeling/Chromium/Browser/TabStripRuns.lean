import Chromium.Browser.TabStripDetaching
import Chromium.Browser.TabStripMoving
import Chromium.Library.Run

/-!
# Runs of a tab strip

The calls of a strip and when they may be made. Every call keeps the selection
well formed but two: detaching the only tab while it is selected, and toggling
off the active tab while others are selected.
-/

namespace Chromium.Browser

open List Option
open Library

namespace TabStripModel

open TabContentsData TabStripSelectionModel

inductive Call
  | insertTabContentsAt (index : Int) (contents : TabContentsWrapper) (add_types : AddTabTypes)
  | addTabContents (contents : TabContentsWrapper) (index : Int)
      (transition : PageTransition) (add_types : AddTabTypes)
  | detachTabContentsAt (index : Int)
  | moveTabContentsAt (index to_position : Int) (select_after_move : Bool)
  | moveSelectedTabsTo (index : Int)
  | setTabPinned (index : Int) (pinned : Bool)
  | activateTabAt (index : Int) (user_gesture : Bool)
  | extendSelectionTo (index : Int)
  | toggleSelectionAt (index : Int)
  | addSelectionFromAnchorTo (index : Int)
deriving DecidableEq

def perform (strip : TabStripModel) : Call -> Option TabStripModel
  | .insertTabContentsAt index contents add_types =>
    strip.insertTabContentsAt index contents add_types
  | .addTabContents contents index transition add_types =>
    strip.addTabContents contents index transition add_types
  | .detachTabContentsAt index => (strip.detachTabContentsAt index).map Prod.snd
  | .moveTabContentsAt index to_position select_after_move =>
    strip.moveTabContentsAt index to_position select_after_move
  | .moveSelectedTabsTo index => strip.moveSelectedTabsTo index
  | .setTabPinned index pinned => strip.setTabPinned index pinned
  | .activateTabAt index user_gesture => strip.activateTabAt index user_gesture
  | .extendSelectionTo index => strip.extendSelectionTo index
  | .toggleSelectionAt index => strip.toggleSelectionAt index
  | .addSelectionFromAnchorTo index => strip.addSelectionFromAnchorTo index

/-- A call may be made with the indices of tabs of the strip, with a tab that is
not in the strip, and to move the selected tabs to an index that leaves room
for them. -/
def Permitted (strip : TabStripModel) : Call -> Prop
  | .insertTabContentsAt _ contents _
  | .addTabContents contents _ _ _ => contents.controller ∉ strip.contents_data.map controller
  | .moveTabContentsAt index to_position _ => strip.Valid index ∧ strip.Valid to_position
  | .moveSelectedTabsTo index =>
    0 <= index ∧ index <= strip.count - strip.selection_model.selected_indices.length
  | .detachTabContentsAt index
  | .setTabPinned index _
  | .activateTabAt index _
  | .extendSelectionTo index
  | .toggleSelectionAt index
  | .addSelectionFromAnchorTo index => strip.Valid index

/-- The only tab is not detached while it is selected, and the active tab is
not toggled off while others are selected. -/
def KeepsSelection (strip : TabStripModel) : Call -> Prop
  | .detachTabContentsAt _ => strip.count = 1 -> strip.selection_model.selected_indices = []
  | .toggleSelectionAt index =>
    1 < strip.selection_model.selected_indices.length -> index ≠ strip.activeIndex
  | _ => True

instance (strip : TabStripModel) (index : Int) : Decidable (strip.Valid index) :=
  inferInstanceAs (Decidable (_ ∧ _))

instance (strip : TabStripModel) : ∀ call, Decidable (strip.Permitted call)
  | .insertTabContentsAt _ _ _ => inferInstanceAs (Decidable (_ ∉ _))
  | .addTabContents _ _ _ _ => inferInstanceAs (Decidable (_ ∉ _))
  | .moveTabContentsAt _ _ _ => inferInstanceAs (Decidable (_ ∧ _))
  | .moveSelectedTabsTo _ => inferInstanceAs (Decidable (_ ∧ _))
  | .detachTabContentsAt _ => inferInstanceAs (Decidable (Valid _ _))
  | .setTabPinned _ _ => inferInstanceAs (Decidable (Valid _ _))
  | .activateTabAt _ _ => inferInstanceAs (Decidable (Valid _ _))
  | .extendSelectionTo _ => inferInstanceAs (Decidable (Valid _ _))
  | .toggleSelectionAt _ => inferInstanceAs (Decidable (Valid _ _))
  | .addSelectionFromAnchorTo _ => inferInstanceAs (Decidable (Valid _ _))

instance (strip : TabStripModel) : ∀ call, Decidable (strip.KeepsSelection call)
  | .detachTabContentsAt _ => inferInstanceAs (Decidable (_ -> _))
  | .toggleSelectionAt _ => inferInstanceAs (Decidable (_ -> _))
  | .insertTabContentsAt _ _ _ => isTrue trivial
  | .addTabContents _ _ _ _ => isTrue trivial
  | .moveTabContentsAt _ _ _ => isTrue trivial
  | .moveSelectedTabsTo _ => isTrue trivial
  | .setTabPinned _ _ => isTrue trivial
  | .activateTabAt _ _ => isTrue trivial
  | .extendSelectionTo _ => isTrue trivial
  | .addSelectionFromAnchorTo _ => isTrue trivial

/-- What every call keeps. -/
structure Kept (strip : TabStripModel) : Prop where
  ordered : Ordered strip.contents_data
  wellSelected : strip.WellSelected
  untouched : strip.Untouched

variable {strip next : TabStripModel}

theorem untouched_of_active (active : strip.activeIndex ≠ kUnselectedIndex) : strip.Untouched :=
  ⟨fun unselected => absurd unselected active, fun unselected => absurd unselected active⟩

theorem OnlyClears.kept (only : OnlyClears strip next) (kept : strip.Kept) : next.Kept where
  ordered := kept.ordered.of_cleared only.cleared
  wellSelected := only.wellSelected kept.wellSelected
  untouched := only.untouched kept.untouched

theorem Moves.kept (moves : Moves strip next) (kept : strip.Kept) : next.Kept where
  ordered := moves.ordered kept.ordered
  wellSelected := moves.wellSelected kept.wellSelected
  untouched := moves.untouched kept.untouched

/-- Another selection, with an active tab. -/
theorem Kept.select (kept : strip.Kept) {selection_model : TabStripSelectionModel}
    (selected : Selected strip.count selection_model)
    (anchored : Anchored strip.count selection_model)
    (active : selection_model.active ≠ kUnselectedIndex) :
    Kept { strip with selection_model } where
  ordered := kept.ordered
  wellSelected := ⟨selected, anchored⟩
  untouched := untouched_of_active active

theorem kUnselectedIndex_ne (ok : strip.Valid index) : index ≠ kUnselectedIndex := by
  rw [Valid] at ok
  rw [kUnselectedIndex_eq]
  omega

/-- The selected tab is there unless nothing is selected. -/
theorem Kept.opener_of_none (kept : strip.Kept) (missing : strip.getSelectedTabContents = none) :
    ∀ data ∈ strip.contents_data, data.opener = none := by
  apply kept.untouched.opener
  apply Classical.byContradiction
  intro active
  have inside := kept.wellSelected.selected.active_inside active
  rw [getSelectedTabContents, getTabContentsAt,
    dataAt_of_valid (show strip.Valid strip.activeIndex from inside)] at missing
  cases missing

variable {contents : TabContentsWrapper}

theorem Inserts.kept {active : Bool} (inserts : Inserts strip contents active pos tabs data next)
    (kept : strip.Kept) (new_ : contents.controller ∉ strip.contents_data.map controller) :
    next.Kept where
  ordered := inserts.ordered kept.ordered new_
  wellSelected :=
    ⟨inserts.selected kept.wellSelected.selected, inserts.anchored kept.wellSelected.anchored⟩
  untouched := inserts.untouched kept.untouched

theorem Kept.insertTabContentsAt (kept : strip.Kept)
    (new_ : contents.controller ∉ strip.contents_data.map controller) (i : Int)
    (add_types : AddTabTypes) :
    ∃ next, strip.insertTabContentsAt i contents add_types = some next ∧ next.Kept := by
  obtain ⟨_, _, _, next, runs, inserts⟩ :=
    strip.insertTabContentsAt_inserts i contents add_types
  exact ⟨next, runs, inserts.kept kept new_⟩

theorem Selected.getSelectedTabContents (selected : Selected strip.count strip.selection_model)
    (active : strip.activeIndex ≠ -1) :
    ∃ contents, strip.getSelectedTabContents = some contents := by
  rw [TabStripModel.getSelectedTabContents, getTabContentsAt,
    dataAt_of_valid (show strip.Valid strip.activeIndex from selected.active_inside active)]
  exact ⟨_, rfl⟩

theorem Kept.addTabContents (kept : strip.Kept)
    (new_ : contents.controller ∉ strip.contents_data.map controller)
    (i : Int) (transition : PageTransition) (add_types : AddTabTypes) :
    ∃ next, strip.addTabContents contents i transition add_types = some next ∧ next.Kept := by
  obtain ⟨_, _, _, middle, next, inserts, runs, only⟩ :=
    @addTabContents_inserts transition strip contents i add_types
      fun needs => Selected.getSelectedTabContents kept.wellSelected.selected needs.2.2.2
  exact ⟨next, runs, only.kept (inserts.kept kept new_)⟩

theorem Kept.detachTabContentsAt (kept : strip.Kept) (ok : strip.Valid index)
    (keeps : strip.count = 1 -> strip.selection_model.selected_indices = []) :
    ∃ next, (strip.detachTabContentsAt index).map Prod.snd = some next ∧ next.Kept := by
  have selected := kept.wellSelected.selected
  have hit := dataAt_of_valid ok
  obtain ⟨next, runs, detaches⟩ := detachTabContentsAt_detaches kept.ordered hit fun _ => selected
  rw [runs]
  have untouched := detaches.untouched ok selected kept.untouched
  rcases Int.lt_or_le 1 strip.count with several | single
  · exact ⟨next, rfl, detaches.ordered kept.ordered hit,
      ⟨detaches.selected ok selected several,
        detaches.anchored ok kept.wellSelected several⟩, untouched⟩
  · have isLast : strip.count = 1 := by
      rw [Valid] at ok
      omega
    -- Nothing was selected, so that nothing is selected now.
    have noneSelected := keeps isLast
    have same := detaches.last isLast
    have unselected : strip.activeIndex = kUnselectedIndex := by
      rcases selected.active with unselected | mem
      · exact unselected
      · rw [noneSelected] at mem
        exact absurd mem not_mem_nil
    refine ⟨next, rfl, detaches.ordered kept.ordered hit, ⟨?_, ?_⟩, untouched⟩
    · rw [same]
      refine ⟨selected.increasing, ?_, selected.active, selected.nothing⟩
      rw [noneSelected]
      intro other mem
      exact absurd mem not_mem_nil
    · rw [same]
      exact .inl (kept.untouched.anchor unselected)

/-- When the only tab is detached while it is selected its index stays. -/
theorem Kept.detachTabContentsAt_breaks
    (kept : strip.Kept) (ok : strip.Valid index) (isLast : strip.count = 1)
    (someSelected : strip.selection_model.selected_indices ≠ [])
    (runs : (strip.detachTabContentsAt index).map Prod.snd = some next) :
    ¬ next.WellSelected := by
  have selected := kept.wellSelected.selected
  have hit := dataAt_of_valid ok
  obtain ⟨other, performsOther, detaches⟩ := detachTabContentsAt_detaches
    kept.ordered hit fun _ => selected
  rw [performsOther] at runs
  cases runs
  intro wellSelected
  obtain ⟨first, rest, isSelected⟩ := exists_cons_of_ne_nil someSelected
  have mem : first ∈ other.selection_model.selected_indices := by
    rw [detaches.last isLast, isSelected]
    exact mem_cons_self
  have inside := wellSelected.selected.inside first mem
  have left := detaches.count_eq ok
  dsimp only at inside
  omega

theorem Kept.moveTabContentsAt (kept : strip.Kept) (ok : strip.Valid index)
    (toValid : strip.Valid to_position) (select_after_move : Bool) :
    ∃ next, strip.moveTabContentsAt index to_position select_after_move = some next ∧
      next.Kept := by
  obtain ⟨base, next, runs, moves, -, rfl | ⟨-, rfl⟩⟩ := moveTabContentsAt_moves ok toValid
  · exact ⟨next, runs, moves.kept kept⟩
  · have toBase := moves.valid toValid
    exact ⟨_, runs, (moves.kept kept).select (selected_singleton toBase)
      (anchored_singleton toBase) (kUnselectedIndex_ne toBase)⟩

theorem notifySelectionChanged_onlyClears
    {old_selected_index : Int} (active : strip.Valid strip.activeIndex)
    (known : old_selected_index = kUnselectedIndex ->
      ∀ data ∈ strip.contents_data, data.opener = none)
    (ok : old_selected_index ≠ kUnselectedIndex -> strip.Valid old_selected_index) :
    ∃ next, strip.notifySelectionChanged old_selected_index = some next ∧
      OnlyClears strip next := by
  rw [notifySelectionChanged, getTabContentsAt, getTabContentsAt, dataAt_of_valid active, map_some]
  apply tabSelectedAt_onlyClears active
  intro _ missing
  apply known
  apply Classical.byContradiction
  intro wasSelected
  rw [dataAt_of_valid (ok wasSelected)] at missing
  cases missing

theorem notifySelectionChanged_activeIndex (strip : TabStripModel) :
    strip.notifySelectionChanged strip.activeIndex = some strip := by
  rw [notifySelectionChanged, tabSelectedAt, if_pos rfl]

theorem Kept.notifySelectionChanged (kept : strip.Kept) {selection_model : TabStripSelectionModel}
    (selected : Selected strip.count selection_model)
    (anchored : Anchored strip.count selection_model)
    (active : selection_model.active ≠ kUnselectedIndex) :
    ∃ next, TabStripModel.notifySelectionChanged { strip with selection_model }
        strip.activeIndex = some next ∧ next.Kept := by
  obtain ⟨next, notifies, only⟩ := @notifySelectionChanged_onlyClears
    { strip with selection_model } strip.activeIndex
    (selected.active_inside active) kept.untouched.opener
    (kept.wellSelected.selected.active_inside)
  exact ⟨next, notifies, only.kept (kept.select selected anchored active)⟩

theorem Kept.activateTabAt (kept : strip.Kept) (ok : strip.Valid index) (user_gesture : Bool) :
    ∃ next, strip.activateTabAt index user_gesture = some next ∧ next.Kept := by
  have selects := kept.select (selected_singleton ok)
    (anchored_singleton ok) (kUnselectedIndex_ne ok)
  rw [TabStripModel.activateTabAt]
  dsimp only
  have inside : Valid { strip with selection_model := onlySelected index } index := ok
  rw [setSelectedIndex_onlySelected ok.1, bind_eq_bind,
    bind_some, dataAt_of_valid inside, bind_eq_bind,
    bind_some]
  split_ifs
  · obtain ⟨next, notifies, only⟩ := tabSelectedAt_onlyClears inside
      fun _ missing => kept.opener_of_none missing
    exact ⟨next, notifies, only.kept selects⟩
  · exact ⟨_, rfl, selects⟩

theorem Kept.extendSelectionTo (kept : strip.Kept) (ok : strip.Valid index) :
    ∃ next, strip.extendSelectionTo index = some next ∧ next.Kept := by
  obtain ⟨selection_model, extends_, selected, anchored, isActive⟩ :=
    setSelectionFromAnchorTo_selected kept.wellSelected.anchored ok
  rw [TabStripModel.extendSelectionTo, extends_]
  exact kept.notifySelectionChanged selected anchored (isActive ▸ kUnselectedIndex_ne ok)

theorem Kept.addSelectionFromAnchorTo (kept : strip.Kept) (ok : strip.Valid index) :
    ∃ next, strip.addSelectionFromAnchorTo index = some next ∧ next.Kept := by
  obtain ⟨selection_model, extends_, selected, anchored, isActive⟩ :=
    addSelectionFromAnchorTo_selected kept.wellSelected.selected kept.wellSelected.anchored ok
  rw [TabStripModel.addSelectionFromAnchorTo, extends_]
  exact kept.notifySelectionChanged selected anchored (isActive ▸ kUnselectedIndex_ne ok)

theorem Kept.toggleSelectionAt (kept : strip.Kept) (ok : strip.Valid index)
    (keeps : 1 < strip.selection_model.selected_indices.length -> index ≠ strip.activeIndex) :
    ∃ next, strip.toggleSelectionAt index = some next ∧ next.Kept := by
  have selected := kept.wellSelected.selected
  rw [TabStripModel.toggleSelectionAt]
  dsimp only
  by_cases isSelected : strip.selection_model.isSelected index = true
  · rw [if_pos isSelected]
    have mem := isSelected_iff.mp isSelected
    by_cases single : strip.selection_model.selected_indices.length = 1
    · rw [if_pos single]
      exact ⟨strip, rfl, kept⟩
    · rw [if_neg single]
      have pos := length_pos_of_mem mem
      have inactive := keeps (by omega)
      have active : strip.selection_model.active ≠ kUnselectedIndex := by
        intro unselected
        rw [selected.nothing unselected] at mem
        exact absurd mem not_mem_nil
      rw [if_neg (show ¬ (strip.selection_model.removeIndexFromSelection
        index).active = kUnselectedIndex from active)]
      exact kept.notifySelectionChanged
        (selected.removeIndexFromSelection inactive index) (.inr ok) active
  · rw [if_neg isSelected]
    exact kept.notifySelectionChanged (selected.addIndexToSelection ok index) (.inr ok)
      (kUnselectedIndex_ne ok)

/-- When the active tab is toggled off while others are selected it stays
active. -/
theorem Kept.toggleSelectionAt_breaks (kept : strip.Kept)
    (several : 1 < strip.selection_model.selected_indices.length)
    (runs : strip.toggleSelectionAt strip.activeIndex = some next) :
    ¬ next.WellSelected := by
  have selected := kept.wellSelected.selected
  have ne : strip.selection_model.selected_indices ≠ [] := by
    apply ne_nil_of_length_pos
    omega
  have mem := selected.active_of_nonempty ne
  have active : strip.selection_model.active ≠ kUnselectedIndex :=
    fun unselected => ne (selected.nothing unselected)
  have isSelected : strip.selection_model.isSelected strip.activeIndex = true :=
    isSelected_iff.mpr mem
  rw [TabStripModel.toggleSelectionAt] at runs
  dsimp only at runs
  rw [if_pos isSelected, if_neg (by omega),
    if_neg (show ¬ (strip.selection_model.removeIndexFromSelection
      strip.activeIndex).active = kUnselectedIndex from active)] at runs
  -- The tab is the same, so that nothing is notified.
  have isNext : next = { strip with
      selection_model := { strip.selection_model.removeIndexFromSelection
        strip.activeIndex with anchor := strip.activeIndex } } := by
    exact some.inj (runs.symm.trans (notifySelectionChanged_activeIndex _))
  intro wellSelected
  rcases wellSelected.selected.active with unselected | stays
  · rw [isNext] at unselected
    exact active unselected
  · rw [isNext] at stays
    exact (nodup_of_increasing selected.increasing).not_mem_erase stays

theorem Kept.perform (kept : strip.Kept) (ok : strip.Permitted call)
    (keeps : strip.KeepsSelection call) :
    ∃ next, strip.perform call = some next ∧ next.Kept := by
  cases call with
  | insertTabContentsAt index contents add_types =>
    exact kept.insertTabContentsAt ok index add_types
  | addTabContents contents index transition add_types =>
    exact kept.addTabContents ok index transition add_types
  | detachTabContentsAt index => exact kept.detachTabContentsAt ok keeps
  | moveTabContentsAt index to_position select_after_move =>
    exact kept.moveTabContentsAt ok.1 ok.2 select_after_move
  | moveSelectedTabsTo index =>
    obtain ⟨next, runs, moves⟩ := moveSelectedTabsTo_moves kept.ordered
      kept.wellSelected.selected ok.1 ok.2
    exact ⟨next, runs, moves.kept kept⟩
  | setTabPinned index pinned =>
    obtain ⟨next, runs, moves, -⟩ := setTabPinned_moves kept.ordered ok
    exact ⟨next, runs, moves.kept kept⟩
  | activateTabAt index user_gesture => exact kept.activateTabAt ok user_gesture
  | extendSelectionTo index => exact kept.extendSelectionTo ok
  | toggleSelectionAt index => exact kept.toggleSelectionAt ok keeps
  | addSelectionFromAnchorTo index => exact kept.addSelectionFromAnchorTo ok

theorem Kept.perform_breaks (kept : strip.Kept) (ok : strip.Permitted call)
    (fails : ¬ strip.KeepsSelection call) (runs : strip.perform call = some next) :
    ¬ next.WellSelected := by
  cases call with
  | detachTabContentsAt index =>
    rw [KeepsSelection, Classical.not_imp] at fails
    exact kept.detachTabContentsAt_breaks ok fails.1 fails.2 runs
  | toggleSelectionAt index =>
    rw [KeepsSelection, Classical.not_imp, not_not] at fails
    obtain ⟨several, rfl⟩ := fails
    exact kept.toggleSelectionAt_breaks several runs
  | _ => exact absurd trivial fails

/-- An empty strip. -/
def emptyStrip (insertion_policy : InsertionPolicy) : TabStripModel where
  insertion_policy := insertion_policy

theorem kept_emptyStrip {insertion_policy : InsertionPolicy} :
    (emptyStrip insertion_policy).Kept where
  ordered := ordered_nil
  wellSelected := ⟨⟨List.Pairwise.nil, forall_mem_nil _, .inl rfl, fun _ => rfl⟩, .inl rfl⟩
  untouched := ⟨fun _ => rfl, fun _ _ mem => absurd mem List.not_mem_nil⟩

/-- The selection of a strip stays well formed through a run of calls if and
only if its calls keep it. -/
theorem wellSelected_iff_keepsSelection (insertion_policy : InsertionPolicy) {calls : List Call}
    (ok : Throughout perform Permitted (emptyStrip insertion_policy) calls) :
    Always perform WellSelected (emptyStrip insertion_policy) calls ↔
      Throughout perform KeepsSelection (emptyStrip insertion_policy) calls :=
  always_iff_throughout Kept.wellSelected Kept.perform Kept.perform_breaks kept_emptyStrip ok

def aTab (controller : Nat) : TabContentsWrapper where
  controller := controller
  is_app := false

/-- Two tabs are selected and one is toggled off that is not the active one. -/
def toggleCalls : List Call :=
  [.insertTabContentsAt 0 (aTab 0) { active := true }, .insertTabContentsAt 1 (aTab 1) {},
    .extendSelectionTo 1,
    .toggleSelectionAt 0]

theorem wellSelected_iff_keepsSelection_toggle :
    Always perform WellSelected (emptyStrip .insertAfter) toggleCalls :=
  (wellSelected_iff_keepsSelection .insertAfter (by decide)).mpr (by decide)

/-- The only tab is selected and detached. -/
theorem not_wellSelected_detach : ¬ ∀ insertion_policy calls,
      Throughout perform Permitted (emptyStrip insertion_policy) calls ->
        Always perform WellSelected (emptyStrip insertion_policy) calls := by
  intro always
  obtain ⟨-, _, inserts, -, _, detaches, wellSelected⟩ := always .insertAfter
    [.insertTabContentsAt 0 (aTab 0) { active := true }, .detachTabContentsAt 0] (by decide)
  cases inserts
  cases detaches
  exact absurd (wellSelected.selected.inside 0 mem_cons_self).2 (lt_irrefl 0)

end TabStripModel
end Chromium.Browser
