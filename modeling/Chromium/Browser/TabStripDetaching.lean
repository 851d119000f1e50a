import Chromium.Browser.TabStripTabs

/-!
# Detaching a tab

The tab that is selected when the active one is detached is a tab of the strip
that is left.
-/

namespace Chromium.Browser

open List hiding count
open Library

namespace TabStripModel

open TabContentsData TabStripSelectionModel

variable {strip next : TabStripModel} {index : Int}

theorem getIndexOfNextTabContentsOpenedBy_other (ok : strip.Valid index) (opener : Nat)
    (hit : strip.getIndexOfNextTabContentsOpenedBy opener index ≠ -1) :
    strip.Valid (strip.getIndexOfNextTabContentsOpenedBy opener index) ∧
      strip.getIndexOfNextTabContentsOpenedBy opener index ≠ index := by
  have inside := ok
  rw [Valid, count] at inside ⊢
  revert hit
  rw [getIndexOfNextTabContentsOpenedBy]
  split
  next behind isBehind =>
    obtain ⟨isInside, _⟩ := findIdx?_eq_some_iff_getElem.mp isBehind
    rw [length_drop] at isInside
    intro _
    omega
  · split
    next before isBefore =>
      obtain ⟨isInside, _⟩ := findIdx?_eq_some_iff_getElem.mp isBefore
      rw [length_reverse, length_take] at isInside
      intro _
      omega
    · intro hit
      exact absurd rfl hit

theorem getIndexOfController_found {controller : Nat}
    (hit : strip.getIndexOfController controller ≠ -1) :
    ∃ data, strip.dataAt (strip.getIndexOfController controller) = some data ∧
      data.controller = controller := by
  revert hit
  rw [getIndexOfController]
  cases isFound : strip.contents_data.findIdx? (·.contents.controller = controller) with
  | none =>
    intro hit
    exact absurd rfl hit
  | some place =>
    intro _
    obtain ⟨inside, isTab, _⟩ := findIdx?_eq_some_iff_getElem.mp isFound
    refine ⟨strip.contents_data[place], ?_, of_decide_eq_true isTab⟩
    exact List.getElem?_eq_getElem inside

theorem getValidIndex_inside {count other : Int} (inside : 0 <= index ∧ index < count)
    (otherInside : 0 <= other ∧ other < count) (ne : other ≠ index) :
    0 <= getValidIndex other index ∧ getValidIndex other index < count - 1 := by
  rw [getValidIndex]
  split_ifs <;> omega

/-- The next selected index is the index of a tab that is left. -/
theorem determineNewSelectedIndex_inside (ordered : Ordered strip.contents_data)
    (ok : strip.Valid index) :
    ∃ selected, strip.determineNewSelectedIndex index = some selected ∧
      (strip.activeIndex = index -> 1 < strip.count ->
        0 <= selected ∧ selected < strip.count - 1) := by
  have hit := dataAt_of_valid ok
  generalize (getElem strip.contents_data index.toNat ok.toNat_lt) = removed at hit
  have stays : strip.activeIndex = index -> 1 < strip.count ->
      0 <= (if strip.activeIndex ≥ strip.count - 1 then strip.activeIndex - 1
        else strip.activeIndex) ∧
      (if strip.activeIndex ≥ strip.count - 1 then strip.activeIndex - 1
        else strip.activeIndex) < strip.count - 1 := by
    intro isActive several
    rw [Valid] at ok
    split_ifs <;> omega
  rw [determineNewSelectedIndex, hit, Option.bind_eq_bind, Option.bind_some]
  dsimp only
  generalize (if strip.activeIndex ≥ strip.count - 1 then strip.activeIndex - 1
    else strip.activeIndex) = selected_index at *
  split_ifs with opened
  · obtain ⟨inside, ne⟩ := getIndexOfNextTabContentsOpenedBy_other ok _ opened
    exact ⟨_, rfl, fun _ _ => getValidIndex_inside ok inside ne⟩
  · cases isOpener : removed.opener with
    | none => exact ⟨_, rfl, stays⟩
    | some parent_opener =>
      dsimp only
      split_ifs with sibling parent
      · obtain ⟨inside, ne⟩ := getIndexOfNextTabContentsOpenedBy_other ok _ sibling
        exact ⟨_, rfl, fun _ _ => getValidIndex_inside ok inside ne⟩
      · obtain ⟨data, isParent, isController⟩ := getIndexOfController_found parent
        have ne : strip.getIndexOfController parent_opener ≠ index := by
          intro same
          rw [same, hit] at isParent
          cases isParent
          exact (ordered.opener removed (mem_of_dataAt hit) _ isOpener).1 isController.symm
        exact ⟨_, rfl, fun _ _ => getValidIndex_inside ok (valid_of_dataAt isParent) ne⟩
      · exact ⟨_, rfl, stays⟩

theorem contentsWithout_length (ok : strip.Valid index) (data : TabContentsData) :
    (strip.contentsWithout index data).length + 1 = strip.contents_data.length := by
  have inside := ok.toNat_lt
  rw [contentsWithout, length_map, length_eraseIdx_of_lt inside]
  omega

theorem contentsWithout_ordered (ordered : Ordered strip.contents_data)
    (hit : strip.dataAt index = some data) :
    Ordered (strip.contentsWithout index data) := by
  have inside := (valid_of_dataAt hit).toNat_lt
  have isData := getElem_eq_of_valid hit inside
  rw [contentsWithout, ← isData]
  exact ordered.detach inside

theorem contentsWithout_contents (hit : strip.dataAt index = some data) :
    (strip.contents_data.map contents).Perm
      (data.contents :: (strip.contentsWithout index data).map contents) := by
  have inside := (valid_of_dataAt hit).toNat_lt
  have isData := getElem_eq_of_valid hit inside
  have perm := (perm_getElem_eraseIdx inside).map contents
  rw [map_cons, isData] at perm
  have cleared := cleared_map (clears_forgetReferencing data.contents.controller)
    (strip.contents_data.eraseIdx index.toNat)
  rw [contentsWithout, cleared.contents_eq]
  exact perm

/-- What detaching a tab leaves. -/
structure Detaches (strip : TabStripModel) (index : Int)
    (data : TabContentsData) (next : TabStripModel) : Prop where
  cleared : Cleared (strip.contentsWithout index data) next.contents_data
  last : strip.count = 1 -> next.selection_model = strip.selection_model
  inactive : 1 < strip.count -> index ≠ strip.activeIndex ->
    next.selection_model = strip.selection_model.decrementFrom index
  active : 1 < strip.count -> index = strip.activeIndex ->
    Selected strip.count strip.selection_model -> Selected (strip.count - 1) next.selection_model ∧
        Anchored (strip.count - 1) next.selection_model ∧
        next.activeIndex ≠ kUnselectedIndex

theorem selectAfterDetaching_selects {count : Int} (isCount : strip.count = count)
    (rising : strip.selection_model.selected_indices.Pairwise (· < ·))
    (inside : ∀ i ∈ strip.selection_model.selected_indices, 0 ≤ i ∧ i < count)
    (nextInside : 0 ≤ next_selected_index ∧ next_selected_index < count) :
    ∃ next, strip.selectAfterDetaching removed next_selected_index = some next ∧
      Cleared strip.contents_data next.contents_data ∧ Selected count next.selection_model ∧
      Anchored count next.selection_model ∧ next.activeIndex ≠ kUnselectedIndex := by
  subst isCount
  rw [selectAfterDetaching]
  split
  next first rest isSelected =>
    have isFirst : first ∈ strip.selection_model.selected_indices := by
      rw [isSelected]
      exact mem_cons_self
    obtain ⟨next, notifies, only⟩ := @notifyTabSelectedIfChanged_onlyClears
      { strip with
        selection_model := { strip.selection_model with
          active := first
          anchor := first } } first (inside first isFirst) rfl (some removed)
    refine ⟨next, notifies, only.cleared, ?_, ?_, ?_⟩
    · rw [only.selection_model]
      exact selected_of_first rising inside isFirst
    · rw [only.selection_model]
      exact .inr (inside first isFirst)
    · have := inside first isFirst
      rw [activeIndex, only.selection_model, kUnselectedIndex_eq]
      dsimp only
      omega
  · obtain ⟨next, notifies, only⟩ := @notifyTabSelectedIfChanged_onlyClears
      { strip with selection_model := onlySelected next_selected_index }
      next_selected_index nextInside rfl (some removed)
    refine ⟨next, ?_, only.cleared, ?_, ?_, ?_⟩
    · rw [setSelectedIndex_eq nextInside.1]
      exact notifies
    · rw [only.selection_model]
      exact selected_singleton nextInside
    · rw [only.selection_model]
      exact anchored_singleton nextInside
    · rw [activeIndex, only.selection_model, kUnselectedIndex_eq]
      dsimp only [onlySelected]
      omega

theorem detachTabContentsAt_detaches (ordered : Ordered strip.contents_data)
    (hit : strip.dataAt index = some data)
    (wellSelected : index = strip.activeIndex -> Selected strip.count strip.selection_model) :
    ∃ next, strip.detachTabContentsAt index = some (some data.contents, next) ∧
        Detaches strip index data next := by
  have ok := valid_of_dataAt hit
  have len := contentsWithout_length ok data
  obtain ⟨selected, determines, inside⟩ := determineNewSelectedIndex_inside ordered ok
  have ne : strip.contents_data.isEmpty = false := by
    rw [isEmpty_eq_false_iff, ← length_pos_iff]
    omega
  rw [detachTabContentsAt, ne, if_neg Bool.false_ne_true, hit,
    determines, Option.bind_eq_bind, Option.bind_some, Option.bind_eq_bind,
    Option.bind_some]
  dsimp only
  rcases Nat.eq_zero_or_pos (strip.contentsWithout index data).length with
    isZero | positive
  · have isLast : strip.count = 1 := by
      rw [count]
      omega
    rw [if_pos (List.isEmpty_iff.mpr (eq_nil_of_length_eq_zero isZero))]
    refine ⟨_, rfl, cleared_refl _, fun _ => rfl, fun several => ?_, fun several => ?_⟩
    · omega
    · omega
  · have several : 1 < strip.count := by
      rw [count]
      omega
    have ne : (strip.contentsWithout index data).isEmpty = false := by
      rw [isEmpty_eq_false_iff, ← length_pos_iff]
      exact positive
    rw [ne, if_neg Bool.false_ne_true]
    split_ifs with isActive
    · have isCount : count { strip with
          contents_data := strip.contentsWithout index data
          selection_model := strip.selection_model.decrementFrom index } =
          strip.count - 1 := by
        rw [count, count]
        dsimp only
        omega
      have sel := wellSelected isActive
      obtain ⟨next, selects, cleared, nextSelected, nextAnchored, hasActive⟩ :=
        selectAfterDetaching_selects isCount (decrementFrom_increasing sel.increasing)
          (sel.decrementFrom_inside ok)
          (inside isActive.symm several)
      rw [selects, Option.bind_eq_bind, Option.bind_some]
      refine ⟨next, rfl, cleared, fun last => ?_, fun _ inactive => ?_,
        fun _ _ _ => ⟨nextSelected, nextAnchored, hasActive⟩⟩
      · omega
      · exact absurd isActive inactive
    · refine ⟨_, rfl, cleared_refl _, fun last => ?_, fun _ _ => rfl, fun _ active => ?_⟩
      · omega
      · exact absurd active isActive

namespace Detaches

section

variable (detaches : Detaches strip index data next)
include detaches

theorem count_eq (ok : strip.Valid index) : next.count = strip.count - 1 := by
  have len := contentsWithout_length ok data
  have sameLength := detaches.cleared.length_eq
  rw [count, count]
  omega

theorem ordered (ordered : Ordered strip.contents_data) (hit : strip.dataAt index = some data) :
    Ordered next.contents_data :=
  (contentsWithout_ordered ordered hit).of_cleared detaches.cleared

theorem contents_perm (hit : strip.dataAt index = some data) :
    (strip.contents_data.map contents).Perm (data.contents :: next.contents_data.map contents) := by
  rw [detaches.cleared.contents_eq]
  exact contentsWithout_contents hit

section

variable (valid : strip.Valid index)
include valid

/-- Unless the last tab was detached the selection stays well formed. -/
theorem selected (selected : Selected strip.count strip.selection_model)
    (several : 1 < strip.count) :
    Selected next.count next.selection_model := by
  rw [detaches.count_eq valid]
  rcases eq_or_ne index strip.activeIndex with isActive | inactive
  · exact (detaches.active several isActive selected).1
  · rw [detaches.inactive several inactive]
    exact selected.decrementFrom valid inactive

theorem anchored (wellSelected : strip.WellSelected) (several : 1 < strip.count) :
    Anchored next.count next.selection_model := by
  rw [detaches.count_eq valid]
  rcases eq_or_ne index strip.activeIndex with isActive | inactive
  · exact (detaches.active several isActive wellSelected.selected).2.1
  · rw [detaches.inactive several inactive]
    exact wellSelected.anchored.decrementFrom valid

/-- Nothing is selected behind it only if nothing was. -/
theorem unselected (selected : Selected strip.count strip.selection_model)
    (unselected : next.activeIndex = kUnselectedIndex) :
    strip.activeIndex = kUnselectedIndex ∧ (next.selection_model = strip.selection_model ∨
        next.selection_model = strip.selection_model.decrementFrom index) := by
  rw [Valid] at valid
  rcases Int.lt_or_le 1 strip.count with several | single
  · rcases eq_or_ne index strip.activeIndex with isActive | inactive
    · exact absurd unselected (detaches.active several isActive selected).2.2
    · have isNext := detaches.inactive several inactive
      refine ⟨?_, .inr isNext⟩
      rw [activeIndex, isNext] at unselected
      dsimp only [TabStripSelectionModel.decrementFrom] at unselected
      rw [activeIndex] at inactive ⊢
      rw [decrementFromImpl, kUnselectedIndex_eq] at unselected
      rw [kUnselectedIndex_eq]
      split_ifs at unselected <;> omega
  · have isNext := detaches.last (by omega)
    rw [activeIndex, isNext] at unselected
    exact ⟨unselected, .inl isNext⟩

theorem untouched (selected : Selected strip.count strip.selection_model)
    (untouched : strip.Untouched) :
    next.Untouched where
  anchor := by
    intro unselected
    obtain ⟨before, same | shifted⟩ := detaches.unselected valid selected unselected
    · rw [same]
      exact untouched.anchor before
    · rw [Valid] at valid
      rw [shifted]
      dsimp only [TabStripSelectionModel.decrementFrom]
      rw [untouched.anchor before, decrementFromImpl, kUnselectedIndex_eq]
      split_ifs <;> omega
  opener := by
    intro unselected other mem
    obtain ⟨before, -⟩ := detaches.unselected valid selected unselected
    obtain ⟨middle, isMiddle, clears⟩ := detaches.cleared.mem mem
    obtain ⟨original, isOriginal, rfl⟩ := List.mem_map.mp isMiddle
    have isNone := untouched.opener before original (mem_of_mem_eraseIdx isOriginal)
    have middleNone := (clears_forgetReferencing data.contents.controller original).opener
    rw [isNone, or_self] at middleNone
    have clearsOpener := clears.opener
    rw [middleNone, or_self] at clearsOpener
    exact clearsOpener

end

end

end Detaches

end TabStripModel
end Chromium.Browser
