import Chromium.Browser.TabStripMoving

/-!
# Moving one tab

Where `MoveTabContentsAt` leaves the tabs, and which of them are selected then.
-/

namespace Chromium.Browser
namespace TabStripSelectionModel

/-- The selected tabs, the active one and the anchor are those of another
selection, at their new indices. -/
structure Follows (selection next : TabStripSelectionModel) (place : Int -> Int) : Prop where
  selected : ∀ index, next.isSelected (place index) = selection.isSelected index
  active : next.active = place selection.active
  anchor : next.anchor = place selection.anchor

/-- One tab is the only selected one, the active one and the anchor. -/
structure Only (selection : TabStripSelectionModel) (index : Int) : Prop where
  selected : ∀ other, selection.isSelected other = true ↔ other = index
  active : selection.active = index
  anchor : selection.anchor = index

variable {selection next : TabStripSelectionModel} {source target index : Int}

theorem moved_eq_target_iff : moved source target index = target ↔ index = source := by
  rw [moved]
  split_ifs <;> omega

theorem moved_moved : moved source target (moved target source index) = index := by
  simp only [moved]
  split_ifs <;> omega

theorem isSelected_move (nonneg : 0 <= source) (target i : Int) :
    (selection.move source target).isSelected (moved source target i) =
      selection.isSelected i := by
  rw [Bool.eq_iff_iff, isSelected_iff, isSelected_iff, mem_move nonneg]
  constructor
  · rintro ⟨other, mem, same⟩
    rwa [← moved_injective same]
  · exact fun mem => ⟨i, mem, rfl⟩

theorem follows_move (nonneg : 0 <= source) (target : Int) :
    selection.Follows (selection.move source target) (moved source target) :=
  ⟨isSelected_move nonneg target, move_active nonneg, move_anchor nonneg⟩

theorem only_onlySelected (i : Int) : (TabStripModel.onlySelected i).Only i :=
  ⟨fun _ => isSelected_iff.trans List.mem_singleton, rfl, rfl⟩

/-- A tab is the only one before a move if it is afterwards. -/
theorem Follows.only_iff (follows : selection.Follows next (moved source target)) :
    next.Only target ↔ selection.Only source := by
  constructor
  · intro only
    refine ⟨fun other => ?_, ?_, ?_⟩
    · rw [← follows.selected, only.selected, moved_eq_target_iff]
    · rw [← moved_eq_target_iff, ← follows.active, only.active]
    · rw [← moved_eq_target_iff, ← follows.anchor, only.anchor]
  · intro only
    refine ⟨fun other => ?_, ?_, ?_⟩
    · obtain ⟨i, rfl⟩ : ∃ i, moved source target i = other := ⟨_, moved_moved⟩
      rw [follows.selected, only.selected, moved_eq_target_iff]
    · rw [follows.active, moved_eq_target_iff, only.active]
    · rw [follows.anchor, moved_eq_target_iff, only.anchor]

/-- One tab that is selected alone stays so. -/
theorem Only.follows (only : selection.Only source) (onlyNext : next.Only target) :
    selection.Follows next (moved source target) := by
  refine ⟨fun i => ?_, ?_, ?_⟩
  · rw [Bool.eq_iff_iff, onlyNext.selected, only.selected, moved_eq_target_iff]
  · rw [onlyNext.active, eq_comm, moved_eq_target_iff, only.active]
  · rw [onlyNext.anchor, eq_comm, moved_eq_target_iff, only.anchor]

end TabStripSelectionModel

namespace TabStripModel

open List TabStripSelectionModel

variable {strip next : TabStripModel} {index to_position : Int}

/-- Both are indices of tabs, on one side of the boundary of the mini tabs. -/
def Allowed (strip : TabStripModel) (index to_position : Int) : Prop :=
  strip.Valid index ∧ strip.Valid to_position ∧
    (index < strip.indexOfFirstNonMiniTab ↔ to_position < strip.indexOfFirstNonMiniTab)

/-- The moved tab is taken out and put in again, and the selection stays with
the tabs, unless a tab is to be selected that was not. -/
structure MovesOne (strip next : TabStripModel) (index to_position : Int)
    (select_after_move : Bool) : Prop where
  tabs : ∃ data, strip.dataAt index = some data ∧
    next.contents_data = strip.shiftedTabs index to_position data
  places : ∀ other, strip.Valid other ->
    next.dataAt (moved index to_position other) = strip.dataAt other
  selection : if select_after_move = true ∧ strip.selection_model.isSelected index = false then
      next.selection_model.Only to_position
    else strip.selection_model.Follows next.selection_model (moved index to_position)

/-- The tab at index 1, which is looked at in place of the moved one, has to be
selected like it. -/
def SelectsMoved (strip : TabStripModel) (index to_position : Int)
    (select_after_move : Bool) : Prop :=
  select_after_move = true ->
    if index = to_position then strip.selection_model.isSelected index = true
    else
      strip.selection_model.isSelected (moved to_position index 1) =
          strip.selection_model.isSelected index ∨
        strip.selection_model.Only index

/-- The tabs are found where they have moved to. -/
theorem dataAt_moved (next_ : TabStripModel)
    (hit : strip.dataAt index = some data) (toValid : strip.Valid to_position)
    (contents_data : next_.contents_data = strip.shiftedTabs index to_position data)
    (ok : strip.Valid other) :
    next_.dataAt (moved index to_position other) = strip.dataAt other := by
  have inside := valid_of_dataAt hit
  have movedInside := moved_inside inside toValid ok
  have len := length_eraseIdx_of_lt inside.toNat_lt
  rw [Valid, count] at inside toValid ok
  rw [dataAt, if_neg movedInside.1.not_gt, contents_data, shiftedTabs, getElem?_insertIdx]
  unfold dataAt at hit ⊢
  rw [if_neg inside.1.not_gt] at hit
  rw [if_neg ok.1.not_gt, moved]
  split_ifs with same
  all_goals try omega
  · rw [same]
    exact hit.symm
  all_goals
    rw [getElem?_eraseIdx]
    split_ifs
    all_goals first | omega | congr 1
    all_goals omega

/-- A move that is not refused selects the moved tab if it finds index 1 not
selected. -/
theorem moveTabContentsAt_eq (allowed : strip.Allowed index to_position)
    (hit : strip.dataAt index = some data) (ne : index ≠ to_position) :
    strip.moveTabContentsAt index to_position select_after_move = some { strip with
      contents_data := strip.shiftedTabs index to_position data
      selection_model := if select_after_move = true ∧
          strip.selection_model.isSelected (moved to_position index 1) = false then
          onlySelected to_position
        else strip.selection_model.move index to_position } := by
  obtain ⟨ok, toValid, mini⟩ := allowed
  have isInside : ¬ (to_position < 0 ∨ to_position ≥ strip.count) := by
    rw [Valid] at toValid
    omega
  rw [moveTabContentsAt, if_neg ne, if_neg (by omega), moveTabContentsAtImpl, hit,
    Option.bind_eq_bind, Option.bind_some, if_neg isInside]
  cases select_after_move with
  | false => simp [shiftedTabs]
  | true =>
    have one := @isSelected_move strip.selection_model index ok.1 to_position
      (moved to_position index 1)
    rw [moved_moved] at one
    rw [← one]
    cases isOne : (strip.selection_model.move index to_position).isSelected 1 with
    | false => simp [isOne, setSelectedIndex_onlySelected toValid.1, shiftedTabs]
    | true => simp [isOne, shiftedTabs]

/-- The selection stays with the tabs exactly when the tab looked at is
selected like the moved one. -/
theorem moveTabContentsAt_movesOne_iff (allowed : strip.Allowed index to_position)
    (select_after_move : Bool) :
    (∃ next, strip.moveTabContentsAt index to_position select_after_move = some next ∧
      MovesOne strip next index to_position select_after_move) ↔
    SelectsMoved strip index to_position select_after_move := by
  obtain ⟨data, found⟩ : ∃ data, strip.dataAt index = some data := ⟨_, dataAt_of_valid allowed.1⟩
  have isData := getElem_eq_of_valid found allowed.1.toNat_lt
  unfold SelectsMoved
  by_cases same : index = to_position
  · subst same
    have stays : strip.contents_data = strip.shiftedTabs index index data := by
      rw [shiftedTabs, ← isData, insertIdx_eraseIdx_getElem]
    have self : ∀ other, moved index index other = other := by
      intro other
      rw [moved]
      split_ifs <;> omega
    rw [moveTabContentsAt, if_pos rfl, if_pos rfl]
    constructor
    · rintro ⟨next, runs, moves⟩ selects
      obtain rfl := Option.some.inj runs
      have selection := moves.selection
      by_contra unselected
      rw [Bool.not_eq_true] at unselected
      rw [if_pos ⟨selects, unselected⟩] at selection
      rw [(selection.selected index).mpr rfl] at unselected
      cases unselected
    · intro isSelected
      refine ⟨strip, rfl, ⟨data, found, stays⟩, fun other _ => by rw [self], ?_⟩
      rw [if_neg fun both => Bool.false_ne_true (both.2.symm.trans (isSelected both.1))]
      exact ⟨fun other => by rw [self], (self _).symm, (self _).symm⟩
  · rw [moveTabContentsAt_eq allowed found same, if_neg same]
    have follows := @follows_move strip.selection_model index allowed.1.1 to_position
    have only := only_onlySelected to_position
    have moves : ∀ selection_model, MovesOne strip { strip with
        contents_data := strip.shiftedTabs index to_position data
        selection_model := selection_model } index to_position select_after_move ↔
        if select_after_move = true ∧ strip.selection_model.isSelected index = false then
          selection_model.Only to_position
        else strip.selection_model.Follows selection_model (moved index to_position) := by
      intro selection_model
      refine ⟨MovesOne.selection, fun selection => ⟨⟨data, found, rfl⟩, ?_, selection⟩⟩
      exact fun other valid => dataAt_moved _ found allowed.2.1 rfl valid
    simp only [Option.some.injEq, exists_eq_left', moves]
    cases select_after_move with
    | false => simp [follows]
    | true =>
      cases isMoved : strip.selection_model.isSelected index <;>
        cases isOne : strip.selection_model.isSelected (moved to_position index 1)
      · simpa using only
      · simpa using follows.only_iff
      · simpa using ⟨fun isOnly => isOnly.only_iff.mp only, fun isOnly => isOnly.follows only⟩
      · simpa using follows

/-- Three tabs of which one is selected. -/
def oneSelected (index : Int) : TabStripModel where
  contents_data := [⟨⟨0, false⟩, none, none, false, false⟩, ⟨⟨1, false⟩, none, none, false, false⟩,
    ⟨⟨2, false⟩, none, none, false, false⟩]
  selection_model := onlySelected index

theorem allowed_oneSelected : (oneSelected index).Allowed 2 0 :=
  ⟨⟨by decide, show (2 : Int) < 3 by decide⟩, ⟨le_rfl, show (0 : Int) < 3 by decide⟩,
    show (2 : Int) < 0 ↔ (0 : Int) < 0 by decide⟩

/-- The last tab is moved to the front, and the first one gets index 1. -/
theorem moveTabContentsAt_movesOne_front : SelectsMoved (oneSelected 1) 2 0 true ∧
    ∃ next, (oneSelected 1).moveTabContentsAt 2 0 true = some next ∧
      MovesOne (oneSelected 1) next 2 0 true :=
  have selects : SelectsMoved (oneSelected 1) 2 0 true :=
    fun _ => (if_neg (by decide)).mpr (.inl (by decide))
  ⟨selects, (moveTabContentsAt_movesOne_iff allowed_oneSelected true).mpr selects⟩

theorem not_moveTabContentsAt_movesOne : ¬ ∀ strip : TabStripModel, strip.WellSelected ->
    ∀ index to_position, strip.Allowed index to_position -> ∀ select_after_move,
      ∃ next, strip.moveTabContentsAt index to_position select_after_move = some next ∧
        MovesOne strip next index to_position select_after_move := by
  intro always
  obtain ⟨next, runs, moves⟩ := always (oneSelected 0)
    ⟨selected_singleton (by decide), anchored_singleton (by decide)⟩ 2 0 allowed_oneSelected true
  cases runs
  have isSelected := (moves.selection.selected 0).mpr rfl
  revert isSelected
  decide

end TabStripModel
end Chromium.Browser
