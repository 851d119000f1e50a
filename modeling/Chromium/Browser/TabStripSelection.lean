import Chromium.Library.Lists

/-!
# The selection of a tab strip

`TabStripSelectionModel` has the selected indices, the active index and the
anchor. All of them follow the tabs that are inserted, removed and moved.
-/

namespace Chromium.Browser

open List

/-- Used to identify no selection. -/
def kUnselectedIndex : Int := -1

structure TabStripSelectionModel where
  selected_indices : List Int := []
  active : Int := kUnselectedIndex
  anchor : Int := kUnselectedIndex
deriving DecidableEq

namespace TabStripSelectionModel

def incrementFromImpl (index value : Int) : Int := if value ≥ index then value + 1 else value

def decrementFromImpl (index value : Int) : Int :=
  if value = index then kUnselectedIndex
  else if value > index then value - 1
  else value

variable (sel : TabStripSelectionModel)

section

variable (index : Int)

def incrementFrom : TabStripSelectionModel where
  selected_indices := sel.selected_indices.map (incrementFromImpl index)
  active := incrementFromImpl index sel.active
  anchor := incrementFromImpl index sel.anchor

def decrementFrom : TabStripSelectionModel where
  selected_indices := (sel.selected_indices.filter (· ≠ index)).map (decrementFromImpl index)
  active := decrementFromImpl index sel.active
  anchor := decrementFromImpl index sel.anchor

/-- The indices between two, in ascending order. -/
def between (anchor index : Int) : List Int :=
  (List.range ((index - anchor).natAbs + 1)).map fun i : Nat => (i : Int) + min index anchor

/-- `SetSelectedIndex`, which does not return for no index. -/
def setSelectedIndex : Option TabStripSelectionModel :=
  if index = kUnselectedIndex then none
  else some {
    selected_indices := between index index
    active := index
    anchor := index }

def isSelected : Bool := sel.selected_indices.contains index

def addIndexToSelection : TabStripSelectionModel :=
  if sel.isSelected index then sel
  else { sel with
    selected_indices := (sel.selected_indices ++ [index]).insertionSort (· <= ·) }

def removeIndexFromSelection : TabStripSelectionModel :=
  { sel with
    selected_indices := sel.selected_indices.erase index }

def setSelectionFromAnchorTo : Option TabStripSelectionModel :=
  if sel.anchor = kUnselectedIndex then setSelectedIndex index
  else some { sel with
    selected_indices := between sel.anchor index
    active := index }

def addSelectionFromAnchorTo : Option TabStripSelectionModel :=
  if sel.anchor = kUnselectedIndex then setSelectedIndex index
  else some { sel with
    selected_indices :=
      (sel.selected_indices ++ (between sel.anchor index).filter fun i =>
          !sel.isSelected i).insertionSort (· <= ·)
    active := index }

end

/-- `Move`, where the target is an index behind the removal of the source. -/
def move (source target : Int) : TabStripSelectionModel :=
  let shifted :=
    if target < source then (sel.incrementFrom target).decrementFrom (source + 1)
    else (sel.decrementFrom source).incrementFrom target
  let shifted := { shifted with
    active := if source = sel.active then target else shifted.active
    anchor := if source = sel.anchor then target else shifted.anchor }
  if sel.isSelected source then shifted.addIndexToSelection target
  else shifted

end TabStripSelectionModel

/-!
## Selections stay inside the strip

What inserting, removing and moving a tab does to the selected indices, the
active index and the anchor.
-/

section

open Library

namespace TabStripSelectionModel

/-- A selection of tabs of a strip: the selected indices increase and are
indices of tabs, and the active tab is one of the selected ones. -/
structure Selected (count : Int) (sel : TabStripSelectionModel) : Prop where
  increasing : sel.selected_indices.Pairwise (· < ·)
  inside : ∀ index ∈ sel.selected_indices, 0 <= index ∧ index < count
  active : sel.active = kUnselectedIndex ∨ sel.active ∈ sel.selected_indices
  nothing : sel.active = kUnselectedIndex -> sel.selected_indices = []

/-- The anchor is the index of a tab, if there is one. -/
def Anchored (count : Int) (sel : TabStripSelectionModel) : Prop :=
  sel.anchor = kUnselectedIndex ∨ 0 <= sel.anchor ∧ sel.anchor < count

variable {count : Int} {sel : TabStripSelectionModel}

theorem kUnselectedIndex_eq : kUnselectedIndex = -1 := rfl

section

variable (selected : Selected count sel)
include selected

/-- The active index, if there is one, is the index of a tab. -/
theorem Selected.active_inside (active : sel.active ≠ kUnselectedIndex) :
    0 <= sel.active ∧ sel.active < count :=
  selected.inside _ (selected.active.resolve_left active)

theorem Selected.active_of_nonempty (ne : sel.selected_indices ≠ []) :
    sel.active ∈ sel.selected_indices :=
  selected.active.resolve_left fun unselected => ne (selected.nothing unselected)

/-- In a strip of one tab only that tab is selected. -/
theorem Selected.eq_singleton (single : count <= 1) (mem : sel.active ∈ sel.selected_indices) :
    sel.selected_indices = [sel.active] := by
  obtain ⟨rising, inside, -, -⟩ := selected
  generalize sel.selected_indices = indices at *
  match indices with
  | [] => exact absurd mem not_mem_nil
  | [index] => rw [mem_singleton.mp mem]
  | first :: second :: rest =>
    have less := (pairwise_cons.mp rising).1 second mem_cons_self
    have firstInside := inside first mem_cons_self
    have secondInside := inside second (mem_cons_of_mem _ mem_cons_self)
    omega

end

theorem incrementFromImpl_lt (less : before < behind) :
    incrementFromImpl index before < incrementFromImpl index behind := by
  rw [incrementFromImpl, incrementFromImpl]
  split_ifs <;> omega

variable {index anchor source target : Int} {indices : List Int}

theorem decrementFromImpl_lt (beforeOther : before ≠ index) (behindOther : behind ≠ index)
    (less : before < behind) :
    decrementFromImpl index before < decrementFromImpl index behind := by
  rw [decrementFromImpl, decrementFromImpl, if_neg beforeOther, if_neg behindOther]
  split_ifs <;> omega

theorem between_self : between index index = [index] := by
  rw [between, Int.sub_self, min_self]
  change [(0 : Int) + index] = [index]
  rw [Int.zero_add]

theorem mem_between : other ∈ between anchor index ↔
      min index anchor <= other ∧ other <= max index anchor := by
  rw [between, List.mem_map]
  constructor
  · rintro ⟨i, mem, rfl⟩
    have := mem_range.mp mem
    omega
  · intro inside
    refine ⟨(other - min index anchor).toNat, ?_, by omega⟩
    rw [mem_range]
    omega

theorem between_increasing (anchor : Int) : (between anchor index).Pairwise (· < ·) := by
  rw [between, pairwise_map]
  refine pairwise_lt_range.imp ?_
  intro before behind less
  omega

/-- Sorting different indices gives increasing indices. -/
theorem insertionSort_increasing (nodup : indices.Nodup) :
    (indices.insertionSort (· <= ·)).Pairwise (· < ·) := by
  have sorted := pairwise_insertionSort (· <= ·) indices
  have ne := (perm_insertionSort (· <= ·) indices).nodup_iff.mpr nodup
  exact (sorted.and ne).imp fun both => lt_of_le_of_ne both.1 both.2

theorem nodup_of_increasing (rising : indices.Pairwise (· < ·)) : indices.Nodup :=
  rising.imp fun less => ne_of_lt less

theorem incrementFrom_increasing (rising : sel.selected_indices.Pairwise (· < ·)) :
    (sel.incrementFrom index).selected_indices.Pairwise (· < ·) :=
  pairwise_map.mpr (rising.imp incrementFromImpl_lt)

theorem Selected.incrementFrom (selected : Selected count sel) (ok : 0 <= index) :
    Selected (count + 1) (sel.incrementFrom index) where
  increasing := incrementFrom_increasing selected.increasing
  inside := by
    intro other mem
    obtain ⟨original, isSelected, rfl⟩ := List.mem_map.mp mem
    have := selected.inside original isSelected
    rw [incrementFromImpl]
    split_ifs <;> omega
  active := by
    rcases selected.active with unselected | mem
    · left
      dsimp only [TabStripSelectionModel.incrementFrom]
      rw [unselected, incrementFromImpl, if_neg (by
        rw [kUnselectedIndex_eq]
        omega)]
    · exact .inr (List.mem_map_of_mem mem)
  nothing := by
    intro unselected
    have : sel.active = kUnselectedIndex := by
      dsimp only [TabStripSelectionModel.incrementFrom] at unselected
      rw [incrementFromImpl, kUnselectedIndex_eq] at unselected
      rw [kUnselectedIndex_eq]
      split_ifs at unselected <;> omega
    exact map_eq_nil_iff.mpr (selected.nothing this)

theorem Anchored.incrementFrom (anchored : Anchored count sel) (ok : 0 <= index) :
    Anchored (count + 1) (sel.incrementFrom index) := by
  rw [Anchored, kUnselectedIndex_eq] at *
  dsimp only [TabStripSelectionModel.incrementFrom]
  rw [incrementFromImpl]
  split_ifs <;> omega

theorem decrementFrom_increasing (rising : sel.selected_indices.Pairwise (· < ·)) :
    (sel.decrementFrom index).selected_indices.Pairwise (· < ·) := by
  refine pairwise_map.mpr ?_
  refine (rising.filter _).imp_of_mem ?_
  intro before behind isBefore isBehind less
  exact decrementFromImpl_lt (of_decide_eq_true (mem_filter.mp isBefore).2)
    (of_decide_eq_true (mem_filter.mp isBehind).2) less

theorem Selected.decrementFrom_inside (selected : Selected count sel)
    (ok : 0 <= index ∧ index < count) :
    ∀ other ∈ (sel.decrementFrom index).selected_indices, 0 <= other ∧ other < count - 1 := by
  intro other mem
  obtain ⟨original, isOther, rfl⟩ := List.mem_map.mp mem
  obtain ⟨isSelected, ne⟩ := mem_filter.mp isOther
  have := selected.inside original isSelected
  have := of_decide_eq_true ne
  rw [decrementFromImpl]
  split_ifs <;> omega

/-- Removing a tab that is not the active one. -/
theorem Selected.decrementFrom (selected : Selected count sel) (ok : 0 <= index ∧ index < count)
    (inactive : index ≠ sel.active) :
    Selected (count - 1) (sel.decrementFrom index) where
  increasing := decrementFrom_increasing selected.increasing
  inside := selected.decrementFrom_inside ok
  active := by
    rcases selected.active with unselected | mem
    · left
      dsimp only [TabStripSelectionModel.decrementFrom]
      rw [unselected, decrementFromImpl]
      rw [kUnselectedIndex_eq]
      split_ifs <;> omega
    · right
      exact List.mem_map_of_mem (mem_filter.mpr ⟨mem, decide_eq_true inactive.symm⟩)
  nothing := by
    intro unselected
    have : sel.active = kUnselectedIndex := by
      dsimp only [TabStripSelectionModel.decrementFrom] at unselected
      rw [decrementFromImpl, kUnselectedIndex_eq] at unselected
      rw [kUnselectedIndex_eq]
      split_ifs at unselected <;> omega
    dsimp only [TabStripSelectionModel.decrementFrom]
    rw [selected.nothing this]
    rfl

theorem Anchored.decrementFrom (anchored : Anchored count sel)
    (ok : 0 <= index ∧ index < count) :
    Anchored (count - 1) (sel.decrementFrom index) := by
  rw [Anchored, kUnselectedIndex_eq] at *
  dsimp only [TabStripSelectionModel.decrementFrom]
  rw [decrementFromImpl, kUnselectedIndex_eq]
  split_ifs <;> omega

/-- The first of the selected tabs is made active. -/
theorem selected_of_first (increasing : sel.selected_indices.Pairwise (· < ·))
    (inside : ∀ i ∈ sel.selected_indices, 0 <= i ∧ i < count)
    (isFirst : first ∈ sel.selected_indices) :
    Selected count { sel with active := first, anchor := first } where
  increasing := increasing
  inside := inside
  active := .inr isFirst
  nothing := by
    intro unselected
    have := (inside first isFirst).1
    change first = -1 at unselected
    omega

theorem setSelectedIndex_eq (ok : 0 <= i) : setSelectedIndex i =
      some { selected_indices := [i], active := i, anchor := i } := by
  rw [setSelectedIndex, kUnselectedIndex_eq, if_neg (by omega), between_self]

theorem selected_singleton (ok : 0 <= i ∧ i < count) :
    Selected count { selected_indices := [i], active := i, anchor := i } where
  increasing := List.pairwise_singleton _ _
  inside := by
    intro other mem
    rw [mem_singleton.mp mem]
    exact ok
  active := .inr (mem_singleton_self i)
  nothing := by
    intro unselected
    change i = -1 at unselected
    omega

theorem anchored_singleton (ok : 0 <= i ∧ i < count) :
    Anchored count { selected_indices := [i], active := i, anchor := i } :=
  .inr ok

/-- A selection whose active tab is among the selected ones. -/
theorem selected_of_active (increasing : indices.Pairwise (· < ·))
    (inside : ∀ other ∈ indices, 0 <= other ∧ other < count)
    (active : i ∈ indices) :
    Selected count { selected_indices := indices, active := i, anchor := anchor } where
  increasing := increasing
  inside := inside
  active := .inr active
  nothing := by
    intro unselected
    have := (inside i active).1
    change i = -1 at unselected
    omega

theorem mem_between_right (anchor : Int) : index ∈ between anchor index :=
  mem_between.mpr ⟨min_le_left _ _, le_max_left _ _⟩

theorem between_inside (anchorValid : 0 <= anchor ∧ anchor < count)
    (ok : 0 <= i ∧ i < count) :
    ∀ other ∈ between anchor i, 0 <= other ∧ other < count := by
  intro other mem
  have := mem_between.mp mem
  omega

/-- Extending the selection selects the tab and keeps the anchor or begins
it. -/
theorem setSelectionFromAnchorTo_selected (anchored : Anchored count sel)
    (ok : 0 <= index ∧ index < count) :
    ∃ next, sel.setSelectionFromAnchorTo index = some next ∧
      Selected count next ∧ Anchored count next ∧ next.active = index := by
  rw [setSelectionFromAnchorTo]
  split
  · exact ⟨_, setSelectedIndex_eq ok.1, selected_singleton ok, anchored_singleton ok, rfl⟩
  next hasAnchor =>
    have anchorValid := anchored.resolve_left hasAnchor
    exact ⟨_, rfl, selected_of_active (between_increasing _)
      (between_inside anchorValid ok) (mem_between_right _), anchored, rfl⟩

theorem addSelectionFromAnchorTo_selected
    (selected : Selected count sel) (anchored : Anchored count sel)
    (ok : 0 <= index ∧ index < count) :
    ∃ next, sel.addSelectionFromAnchorTo index = some next ∧
      Selected count next ∧ Anchored count next ∧ next.active = index := by
  rw [addSelectionFromAnchorTo]
  split
  · exact ⟨_, setSelectedIndex_eq ok.1, selected_singleton ok, anchored_singleton ok, rfl⟩
  next hasAnchor =>
    have anchorValid := anchored.resolve_left hasAnchor
    have isMem : ∀ other, other ∈ (sel.selected_indices ++
        (between sel.anchor index).filter fun i =>
          !sel.isSelected i).insertionSort (· <= ·) ↔
        other ∈ sel.selected_indices ∨ other ∈ between sel.anchor index := by
      intro other
      rw [mem_insertionSort, mem_append, mem_filter]
      constructor
      · exact Or.imp_right And.left
      · rintro (isSelected | isBetween)
        · exact .inl isSelected
        · by_cases isSelected : other ∈ sel.selected_indices
          · exact .inl isSelected
          · refine .inr ⟨isBetween, ?_⟩
            simpa [TabStripSelectionModel.isSelected] using isSelected
    refine ⟨_, rfl, selected_of_active ?_ ?_ ?_, anchored, rfl⟩
    · apply insertionSort_increasing
      rw [nodup_append]
      refine ⟨nodup_of_increasing selected.increasing,
        (nodup_of_increasing (between_increasing _)).filter _, ?_⟩
      intro other isSelected another isAnother same
      subst same
      have := (mem_filter.mp isAnother).2
      simp [TabStripSelectionModel.isSelected, isSelected] at this
    · intro other mem
      rcases (isMem other).mp mem with isSelected | isBetween
      · exact selected.inside other isSelected
      · exact between_inside anchorValid ok other isBetween
    · exact (isMem index).mpr (.inr (mem_between_right _))

/-- Toggling off a tab that is not the active one. -/
theorem Selected.removeIndexFromSelection
    (selected : Selected count sel) (inactive : index ≠ sel.active)
    (anchor : Int) :
    Selected count { sel.removeIndexFromSelection index with
      anchor := anchor } where
  increasing := selected.increasing.erase index
  inside := fun other mem => selected.inside other (List.mem_of_mem_erase mem)
  active := selected.active.imp_right fun mem => (List.mem_erase_of_ne inactive.symm).mpr mem
  nothing := by
    intro unselected
    dsimp only [TabStripSelectionModel.removeIndexFromSelection]
    rw [selected.nothing unselected]
    rfl

theorem isSelected_iff : sel.isSelected index = true ↔ index ∈ sel.selected_indices :=
  contains_iff_mem

theorem mem_addIndexToSelection : other ∈ (sel.addIndexToSelection index).selected_indices ↔
      other = index ∨ other ∈ sel.selected_indices := by
  rw [addIndexToSelection]
  split_ifs with member
  · refine ⟨.inr, ?_⟩
    rintro (rfl | isSelected)
    · exact isSelected_iff.mp member
    · exact isSelected
  · rw [mem_insertionSort, mem_append, mem_singleton, or_comm]

theorem addIndexToSelection_increasing (rising : sel.selected_indices.Pairwise (· < ·)) :
    (sel.addIndexToSelection index).selected_indices.Pairwise (· < ·) := by
  rw [addIndexToSelection]
  split_ifs with member
  · exact rising
  · apply insertionSort_increasing
    refine (nodup_of_increasing rising).append (nodup_singleton _) ?_
    rw [disjoint_singleton]
    exact fun isSelected => member (isSelected_iff.mpr isSelected)

theorem Selected.addIndexToSelection
    (selected : Selected count sel) (ok : 0 <= index ∧ index < count)
    (anchor : Int) :
    Selected count { sel.addIndexToSelection index with
      anchor := anchor
      active := index } := by
  refine selected_of_active (addIndexToSelection_increasing selected.increasing) ?_
    (mem_addIndexToSelection.mpr (.inl rfl))
  intro other mem
  rcases mem_addIndexToSelection.mp mem with rfl | isSelected
  · exact ok
  · exact selected.inside other isSelected

/-- Where the tab at an index is when a tab has been moved. -/
def moved (source target index : Int) : Int :=
  if index = source then target
  else if source < index ∧ index <= target then index - 1
  else if target <= index ∧ index < source then index + 1
  else index

theorem moved_injective : Function.Injective (moved source target) := by
  intro left right same
  rw [moved, moved] at same
  split_ifs at same <;> omega

theorem moved_inside (sourceValid : 0 <= source ∧ source < count)
    (targetValid : 0 <= target ∧ target < count) (ok : 0 <= index ∧ index < count) :
    0 <= moved source target index ∧ moved source target index < count := by
  rw [moved]
  split_ifs <;> omega

theorem moved_outside (sourceOutside : source < index) (targetOutside : target < index) :
    moved source target index = index := by
  rw [moved, if_neg (by omega), if_neg (by omega), if_neg (by omega)]

theorem moved_unselected (source_nonneg : 0 <= source) (target_nonneg : 0 <= target) :
    moved source target kUnselectedIndex = kUnselectedIndex := by
  rw [moved, kUnselectedIndex_eq, if_neg (by omega), if_neg (by omega), if_neg (by omega)]

theorem moved_eq_unselected_iff (source_nonneg : 0 <= source) (target_nonneg : 0 <= target) :
    moved source target index = kUnselectedIndex ↔ index = kUnselectedIndex := by
  rw [← moved_unselected source_nonneg target_nonneg, moved_injective.eq_iff]
  rw [moved_unselected source_nonneg target_nonneg]

/-- The two shifts move every index but that of the moved tab. -/
theorem shifts_eq_moved (source_nonneg : 0 <= source) (ne : index ≠ source) :
    (if target < source then decrementFromImpl (source + 1) (incrementFromImpl target index)
    else incrementFromImpl target (decrementFromImpl source index)) =
      moved source target index := by
  rw [moved, if_neg ne]
  simp only [incrementFromImpl, decrementFromImpl, kUnselectedIndex_eq]
  split_ifs <;> omega

/-- The shifts of `Move`, without the moved tab itself. -/
def shifted (sel : TabStripSelectionModel) (source target : Int) : TabStripSelectionModel :=
  if target < source then (sel.incrementFrom target).decrementFrom (source + 1)
  else (sel.decrementFrom source).incrementFrom target

theorem move_eq (source target : Int) : sel.move source target =
      let shifted := { sel.shifted source target with
        active := if source = sel.active then target
          else (sel.shifted source target).active
        anchor := if source = sel.anchor then target
          else (sel.shifted source target).anchor }
      if sel.isSelected source then shifted.addIndexToSelection target
      else shifted :=
  rfl

theorem shifted_selected_indices (source_nonneg : 0 <= source) :
    (sel.shifted source target).selected_indices =
      (sel.selected_indices.filter (· ≠ source)).map (moved source target) := by
  have same : ∀ i ∈ sel.selected_indices.filter (· ≠ source), (if target < source then
        decrementFromImpl (source + 1) (incrementFromImpl target i)
      else incrementFromImpl target (decrementFromImpl source i)) =
        moved source target i := by
    intro i mem
    exact shifts_eq_moved source_nonneg (of_decide_eq_true (mem_filter.mp mem).2)
  rw [shifted]
  split_ifs with before
  · simp only [if_pos before] at same
    dsimp only [TabStripSelectionModel.decrementFrom, TabStripSelectionModel.incrementFrom]
    have kept : ∀ i ∈ sel.selected_indices, ((fun other => decide (other ≠ source + 1)) ∘
          incrementFromImpl target) i = decide (i ≠ source) := by
      intro i _
      rw [Function.comp_apply, decide_eq_decide, incrementFromImpl]
      split_ifs <;> omega
    rw [List.filter_map, List.map_map, filter_congr kept]
    exact map_congr_left same
  · simp only [if_neg before] at same
    dsimp only [TabStripSelectionModel.decrementFrom, TabStripSelectionModel.incrementFrom]
    rw [List.map_map]
    exact map_congr_left same

theorem shifted_active (source_nonneg : 0 <= source) :
    (if source = sel.active then target else (sel.shifted source target).active) =
      moved source target sel.active := by
  split_ifs with isActive
  · rw [moved, if_pos isActive.symm]
  · rw [← shifts_eq_moved source_nonneg (Ne.symm isActive), shifted]
    split_ifs <;> rfl

theorem shifted_anchor (source_nonneg : 0 <= source) :
    (if source = sel.anchor then target else (sel.shifted source target).anchor) =
      moved source target sel.anchor := by
  split_ifs with isAnchor
  · rw [moved, if_pos isAnchor.symm]
  · rw [← shifts_eq_moved source_nonneg (Ne.symm isAnchor), shifted]
    split_ifs <;> rfl

theorem addIndexToSelection_active : (sel.addIndexToSelection index).active = sel.active := by
  rw [addIndexToSelection]
  split_ifs <;> rfl

theorem addIndexToSelection_anchor : (sel.addIndexToSelection index).anchor = sel.anchor := by
  rw [addIndexToSelection]
  split_ifs <;> rfl

theorem move_active (source_nonneg : 0 <= source) :
    (sel.move source target).active = moved source target sel.active := by
  rw [move_eq, ← shifted_active source_nonneg]
  dsimp only
  split
  · exact addIndexToSelection_active
  · rfl

theorem move_anchor (source_nonneg : 0 <= source) :
    (sel.move source target).anchor = moved source target sel.anchor := by
  rw [move_eq, ← shifted_anchor source_nonneg]
  dsimp only
  split
  · exact addIndexToSelection_anchor
  · rfl

theorem mem_move (source_nonneg : 0 <= source) : other ∈ (sel.move source target).selected_indices ↔
      ∃ i ∈ sel.selected_indices, moved source target i = other := by
  have isShifted : other ∈ (sel.shifted source target).selected_indices ↔
      ∃ i, (i ∈ sel.selected_indices ∧ i ≠ source) ∧
        moved source target i = other := by
    rw [shifted_selected_indices source_nonneg, List.mem_map]
    simp
  rw [move_eq]
  dsimp only
  split
  next isSelected =>
    rw [mem_addIndexToSelection, isShifted]
    constructor
    · rintro (rfl | ⟨i, ⟨mem, _⟩, isMoved⟩)
      · refine ⟨source, isSelected_iff.mp isSelected, ?_⟩
        rw [moved, if_pos rfl]
      · exact ⟨i, mem, isMoved⟩
    · rintro ⟨i, mem, isMoved⟩
      rcases eq_or_ne i source with rfl | ne
      · rw [moved, if_pos rfl] at isMoved
        exact .inl isMoved.symm
      · exact .inr ⟨i, ⟨mem, ne⟩, isMoved⟩
  next notSelected =>
    rw [isShifted]
    constructor
    · rintro ⟨i, ⟨mem, _⟩, isMoved⟩
      exact ⟨i, mem, isMoved⟩
    · rintro ⟨i, mem, isMoved⟩
      refine ⟨i, ⟨mem, ?_⟩, isMoved⟩
      rintro rfl
      exact notSelected (isSelected_iff.mpr mem)

section

variable (increasing : sel.selected_indices.Pairwise (· < ·))
include increasing

theorem shifted_increasing (source target : Int) :
    (sel.shifted source target).selected_indices.Pairwise (· < ·) := by
  rw [shifted]
  split_ifs
  · exact decrementFrom_increasing (incrementFrom_increasing increasing)
  · exact incrementFrom_increasing (decrementFrom_increasing increasing)

theorem move_increasing : (sel.move source target).selected_indices.Pairwise (· < ·) := by
  have shifts := shifted_increasing increasing source target
  rw [move_eq]
  dsimp only
  split
  · apply addIndexToSelection_increasing
    exact shifts
  · exact shifts

theorem move_perm (source_nonneg : 0 <= source) (target : Int) :
    (sel.move source target).selected_indices.Perm
      (sel.selected_indices.map (moved source target)) := by
  rw [perm_ext_iff_of_nodup (nodup_of_increasing (move_increasing increasing))
    ((nodup_of_increasing increasing).map moved_injective)]
  intro other
  rw [mem_move source_nonneg, List.mem_map]

theorem move_length (source_nonneg : 0 <= source) :
    (sel.move source target).selected_indices.length = sel.selected_indices.length := by
  rw [(move_perm increasing source_nonneg target).length_eq, length_map]

end

theorem Selected.move (selected : Selected count sel)
    (sourceValid : 0 <= source ∧ source < count) (targetValid : 0 <= target ∧ target < count) :
    Selected count (sel.move source target) where
  increasing := move_increasing selected.increasing
  inside := by
    intro other mem
    obtain ⟨i, isSelected, rfl⟩ := (mem_move sourceValid.1).mp mem
    exact moved_inside sourceValid targetValid (selected.inside i isSelected)
  active := by
    rw [move_active sourceValid.1]
    rcases selected.active with unselected | mem
    · left
      rw [unselected, moved_unselected sourceValid.1 targetValid.1]
    · exact .inr ((mem_move sourceValid.1).mpr ⟨_, mem, rfl⟩)
  nothing := by
    intro unselected
    rw [move_active sourceValid.1,
      moved_eq_unselected_iff sourceValid.1 targetValid.1] at unselected
    apply eq_nil_of_length_eq_zero
    rw [move_length selected.increasing sourceValid.1, selected.nothing unselected]
    rfl

theorem Anchored.move (anchored : Anchored count sel)
    (sourceValid : 0 <= source ∧ source < count) (targetValid : 0 <= target ∧ target < count) :
    Anchored count (sel.move source target) := by
  rw [Anchored, move_anchor sourceValid.1]
  rcases anchored with unselected | inside
  · left
    rw [unselected, moved_unselected sourceValid.1 targetValid.1]
  · exact .inr (moved_inside sourceValid targetValid inside)

/-- The selected tabs below a bound, when one of them has been moved behind
it. -/
theorem countP_move (rising : sel.selected_indices.Pairwise (· < ·))
    (source_nonneg : 0 <= source)
    (isSelected : source ∈ sel.selected_indices) (below : source <= bound)
    (above : bound <= target) :
    ((sel.move source target).selected_indices.countP fun i =>
        decide (i < bound)) + 1 = sel.selected_indices.countP fun i =>
        decide (i < bound + 1) := by
  have front := perm_cons_erase isSelected
  have different := (front.nodup_iff.mp (nodup_of_increasing rising))
  rw [(move_perm rising source_nonneg target).countP_eq, countP_map,
    front.countP_eq, front.countP_eq, countP_cons_of_neg,
    countP_cons_of_pos]
  · congr 1
    apply countP_congr
    intro i mem
    have ne : i ≠ source := by
      rintro rfl
      exact (nodup_cons.mp different).1 mem
    rw [Function.comp_apply, decide_eq_true_eq, decide_eq_true_eq, moved, if_neg ne]
    split_ifs <;> omega
  · rw [decide_eq_true_eq]
    omega
  · rw [Function.comp_apply, decide_eq_true_eq, moved, if_pos rfl]
    omega

end TabStripSelectionModel

end

end Chromium.Browser
