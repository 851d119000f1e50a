import Chromium.Browser.TabStripTabs

/-!
# Moving and pinning tabs

Moves keep the tabs of the strip, their order and the selection. Moving the
selected tabs is a run of such moves.
-/

namespace Chromium.Browser

open List Option
open Library

namespace TabStripModel

open TabContentsData TabStripSelectionModel

variable {strip next : TabStripModel} {index to_position : Int}

/-- The tabs are in another order, and the selection follows them. -/
structure Moves (strip next : TabStripModel) : Prop where
  length : next.contents_data.length = strip.contents_data.length
  contents : (next.contents_data.map TabContentsData.contents).Perm
    (strip.contents_data.map TabContentsData.contents)
  openers : (next.contents_data.map TabContentsData.opener).Perm
    (strip.contents_data.map TabContentsData.opener)
  ordered : Ordered strip.contents_data -> Ordered next.contents_data
  selected : Selected strip.count strip.selection_model -> Selected strip.count next.selection_model
  selected_length : Selected strip.count strip.selection_model ->
    next.selection_model.selected_indices.length = strip.selection_model.selected_indices.length
  anchored : Anchored strip.count strip.selection_model -> Anchored strip.count next.selection_model
  unselected : next.activeIndex = kUnselectedIndex -> strip.activeIndex = kUnselectedIndex ∧
      (strip.selection_model.anchor = kUnselectedIndex ->
        next.selection_model.anchor = kUnselectedIndex)

namespace Moves

theorem refl (strip : TabStripModel) : Moves strip strip :=
  ⟨rfl, .refl _, .refl _, id, id, fun _ => rfl, id, fun same => ⟨same, id⟩⟩

theorem count_eq (moves : Moves strip next) : next.count = strip.count :=
  congrArg Int.ofNat moves.length

theorem trans (front : Moves first second) (back : Moves second third) : Moves first third where
  length := back.length.trans front.length
  contents := back.contents.trans front.contents
  openers := back.openers.trans front.openers
  ordered := back.ordered ∘ front.ordered
  selected := by
    have selected := back.selected
    rw [front.count_eq] at selected
    exact selected ∘ front.selected
  selected_length := by
    have selected_length := back.selected_length
    rw [front.count_eq] at selected_length
    intro selected
    exact (selected_length (front.selected selected)).trans (front.selected_length selected)
  anchored := by
    have anchored := back.anchored
    rw [front.count_eq] at anchored
    exact anchored ∘ front.anchored
  unselected := by
    intro unselected
    obtain ⟨middle, backAnchor⟩ := back.unselected unselected
    obtain ⟨before, frontAnchor⟩ := front.unselected middle
    exact ⟨before, backAnchor ∘ frontAnchor⟩

theorem valid (moves : Moves strip next) (valid : strip.Valid index) : next.Valid index := by
  rw [Valid, moves.count_eq]
  exact valid

theorem wellSelected (moves : Moves strip next) (wellSelected : strip.WellSelected) :
    next.WellSelected where
  selected := by
    rw [moves.count_eq]
    exact moves.selected wellSelected.selected
  anchored := by
    rw [moves.count_eq]
    exact moves.anchored wellSelected.anchored

theorem untouched (moves : Moves strip next) (untouched : strip.Untouched) : next.Untouched where
  anchor := by
    intro unselected
    obtain ⟨before, anchor⟩ := moves.unselected unselected
    exact anchor (untouched.anchor before)
  opener := by
    intro unselected data mem
    obtain ⟨before, -⟩ := moves.unselected unselected
    have isOpener : data.opener ∈ strip.contents_data.map opener :=
      moves.openers.mem_iff.mp (List.mem_map_of_mem mem)
    obtain ⟨original, isOriginal, same⟩ := List.mem_map.mp isOpener
    rw [← same]
    exact untouched.opener before original isOriginal

end Moves

/-- The tabs when one has been moved. -/
def shiftedTabs (strip : TabStripModel) (index to_position : Int)
    (data : TabContentsData) : List TabContentsData :=
  (strip.contents_data.eraseIdx index.toNat).insertIdx to_position.toNat data

/-- A tab, that may have been pinned or unpinned, is put at a position that is
not on the other side of the boundary of the mini tabs. -/
theorem moves_of_shift {original data : TabContentsData}
    (hit : strip.dataAt index = some original)
    (toValid : strip.Valid to_position)
    (contents : data.contents = original.contents)
    (opener : data.opener = original.opener)
    (group : data.group = original.group)
    (front : Ordered strip.contents_data -> data.isMini = true ->
      to_position + (if original.isMini = true then 1 else 0) <= strip.indexOfFirstNonMiniTab)
    (back : Ordered strip.contents_data -> data.isMini = false -> strip.indexOfFirstNonMiniTab <=
        to_position + (if original.isMini = true then 1 else 0))
    (contents_data : next.contents_data = strip.shiftedTabs index to_position data)
    (selection_model : next.selection_model = strip.selection_model ∨
      next.selection_model = strip.selection_model.move index to_position) :
    Moves strip next := by
  have valid := valid_of_dataAt hit
  have inside := valid.toNat_lt
  have toInside := toValid.toNat_lt
  have isOriginal := getElem_eq_of_valid hit inside
  have counted := countP_eraseIdx isMini inside
  rw [isOriginal] at counted
  refine ⟨?_, ?_, ?_, ?_, ?_, ?_, ?_, ?_⟩
  · rw [contents_data]
    exact shift_length inside toInside data
  · rw [contents_data]
    exact shift_contents_perm inside toInside (by rw [contents, isOriginal])
  · rw [contents_data]
    have len := length_eraseIdx_of_lt inside
    have perm := perm_insertIdx data (strip.contents_data.eraseIdx index.toNat)
      (show to_position.toNat <= _ by omega)
    refine (perm.map _).trans (.trans ?_ ((perm_getElem_eraseIdx inside).map _).symm)
    rw [map_cons, map_cons, opener, isOriginal]
  · intro ordered
    have first := indexOfFirstNonMiniTab_eq ordered.mini
    rw [contents_data]
    apply ordered.shift inside toInside
    · rw [contents, isOriginal]
    · rw [opener, isOriginal]
    · rw [group, isOriginal]
    · intro inv
      have := front ordered inv
      split_ifs at * <;> omega
    · intro fails
      have := back ordered fails
      split_ifs at * <;> omega
  · intro selected
    rcases selection_model with same | isMove
    · rwa [same]
    · rw [isMove]
      exact selected.move valid toValid
  · intro selected
    rcases selection_model with same | isMove
    · rw [same]
    · rw [isMove]
      exact move_length selected.increasing valid.1
  · intro anchored
    rcases selection_model with same | isMove
    · rwa [same]
    · rw [isMove]
      exact anchored.move valid toValid
  · intro unselected
    rcases selection_model with same | isMove
    · rw [activeIndex, same] at unselected
      rw [same]
      exact ⟨unselected, id⟩
    · rw [activeIndex, isMove, move_active valid.1,
        moved_eq_unselected_iff valid.1 toValid.1] at unselected
      refine ⟨unselected, ?_⟩
      intro anchor
      rw [isMove, move_anchor valid.1, anchor, moved_unselected valid.1 toValid.1]

theorem moveTabContentsAtImpl_eq (hit : strip.dataAt index = some data)
    (toValid : strip.Valid to_position) :
    ∃ selection_model, strip.moveTabContentsAtImpl index to_position select_after_move = some
        { strip with
          contents_data := strip.shiftedTabs index to_position data
          selection_model := selection_model } ∧
        (selection_model = strip.selection_model.move index to_position ∨
          select_after_move = true ∧ selection_model = onlySelected to_position) := by
  have isInside : ¬ (to_position < 0 ∨ to_position ≥ strip.count) := by
    rw [Valid] at toValid
    omega
  rw [moveTabContentsAtImpl, hit, bind_eq_bind, bind_some, if_neg isInside]
  dsimp only
  generalize (strip.selection_model.move index to_position).isSelected
    (if select_after_move = true then 1 else 0) = isSelected
  split_ifs with selects
  · rw [setSelectedIndex_eq toValid.1]
    exact ⟨_, rfl, .inr ⟨(Bool.and_eq_true_iff.mp selects).2, rfl⟩⟩
  · exact ⟨_, rfl, .inl rfl⟩

/-- The index a moved tab has relative to the boundary of the mini tabs. -/
theorem isMini_iff (ordered : Ordered strip.contents_data)
    (hit : strip.dataAt index = some data) :
    data.isMini = true ↔ index < strip.indexOfFirstNonMiniTab := by
  have valid := valid_of_dataAt hit
  have isData := getElem_eq_of_valid hit valid.toNat_lt
  have nonneg := valid.1
  rw [← isData, ordered.mini.property_getElem valid.toNat_lt,
    indexOfFirstNonMiniTab_eq ordered.mini]
  omega

/-- Moving a tab moves it, or it is refused. -/
theorem moveTabContentsAt_moves (valid : strip.Valid index) (toValid : strip.Valid to_position) :
    ∃ base next, strip.moveTabContentsAt index to_position select_after_move = some next ∧
        Moves strip base ∧
        (base.selection_model = strip.selection_model ∨
          base.selection_model = strip.selection_model.move index to_position) ∧
        (next = base ∨ select_after_move = true ∧
          next = { base with selection_model := onlySelected to_position }) := by
  rw [moveTabContentsAt]
  dsimp only
  split_ifs with same mixed
  · exact ⟨strip, strip, rfl, .refl strip, .inl rfl, .inl rfl⟩
  · exact ⟨strip, strip, rfl, .refl strip, .inl rfl, .inl rfl⟩
  · have hit := dataAt_of_valid valid
    generalize (getElem strip.contents_data index.toNat valid.toNat_lt) = data at hit
    obtain ⟨selection_model, runs, isSelection⟩ := moveTabContentsAtImpl_eq hit toValid
    refine ⟨{ strip with
        contents_data := strip.shiftedTabs index to_position data
        selection_model := strip.selection_model.move index to_position },
      _, runs, ?_, .inr rfl, ?_⟩
    · refine moves_of_shift hit toValid rfl rfl rfl ?_ ?_ rfl (.inr rfl)
      · intro ordered inv
        have := (isMini_iff ordered hit).mp inv
        omega
      · intro ordered fails
        have := mt (isMini_iff ordered hit).mpr (Bool.eq_false_iff.mp fails)
        omega
    · rcases isSelection with isMove | ⟨selects, isOnly⟩
      · rw [isMove]
        exact .inl rfl
      · rw [isOnly]
        exact .inr ⟨selects, rfl⟩

theorem moveTabContentsAt_unselected (valid : strip.Valid index)
    (toValid : strip.Valid to_position) :
    ∃ next, strip.moveTabContentsAt index to_position false = some next ∧ Moves strip next ∧
      (next.selection_model = strip.selection_model ∨ next.selection_model =
          strip.selection_model.move index to_position) := by
  obtain ⟨base, next, runs, moves, sel, rfl | ⟨selects, _⟩⟩ :=
    moveTabContentsAt_moves valid toValid
  · exact ⟨next, runs, moves, sel⟩
  · exact absurd selects Bool.false_ne_true

theorem countBeforeIndex_spec (i : Int) (indices : List Int) :
    0 <= countBeforeIndex i indices ∧ countBeforeIndex i indices <= indices.length ∧
      ∀ (place : Nat) (lt : place < indices.length),
        place < countBeforeIndex i indices -> indices[place] < i + place := by
  induction indices generalizing i with
  | nil =>
    refine ⟨le_rfl, le_rfl, ?_⟩
    intro place lt
    exact absurd lt (Nat.not_lt_zero _)
  | cons selected rest ih =>
    obtain ⟨nonneg, atMost, before⟩ := ih (i + 1)
    rw [countBeforeIndex]
    split_ifs with less
    · have len : (selected :: rest).length = rest.length + 1 := length_cons
      refine ⟨by omega, by omega, ?_⟩
      intro place lt counted
      cases place with
      | zero => simpa using less
      | succ place =>
        have := before place (Nat.lt_of_succ_lt_succ lt) (by omega)
        rw [getElem_cons_succ]
        omega
    · refine ⟨le_rfl, Int.natCast_nonneg _, ?_⟩
      intro place _ counted
      omega

/-- The selected tabs from one on are before an index that grows with them. -/
def Before (start : Nat) (index : Int) (number : Nat) (indices : List Int) : Prop :=
  ∀ place < number, start + place < indices.countP fun selected => decide (selected < index + place)

theorem Before.mono (before : Before start index number indices) (less : fewer <= number) :
    Before start index fewer indices :=
  fun place inside => before place (inside.trans_le less)

/-- When the first of them has been moved behind, the others are before it. -/
theorem Before.move {sel : TabStripSelectionModel}
    (before : Before start index (number + 1) sel.selected_indices)
    (rising : sel.selected_indices.Pairwise (· < ·)) (source_nonneg : 0 <= source)
    (isSelected : source ∈ sel.selected_indices) (less : source < index)
    (enough : index + number <= target + 1) :
    Before start index number (sel.move source target).selected_indices := by
  intro place inside
  have counted := countP_move rising source_nonneg isSelected
    (show source <= index + place by omega)
    (show index + place <= target by omega)
  have next := before (place + 1) (by omega)
  rw [Int.natCast_succ, ← Int.add_assoc, ← counted] at next
  omega

/-- The first loop moves at least the counted tabs. -/
theorem moveBeforeLoop_moves {start : Nat} {target_index : Int} (left : Nat) {strip : TabStripModel}
    (selected : Selected strip.count strip.selection_model)
    (inside : start + left <= strip.selection_model.selected_indices.length)
    (toValid : strip.Valid (target_index - 1)) :
    ∃ rest next, moveBeforeLoop start i target_index left strip = some (rest, next) ∧
        Moves strip next ∧ ∀ number ≤ left, i + number <= target_index ->
          Before start i number strip.selection_model.selected_indices ->
            rest + number <= left := by
  induction left generalizing strip with
  | zero =>
    refine ⟨0, strip, rfl, .refl strip, ?_⟩
    intro number atMost _ _
    omega
  | succ left ih =>
    have isInside : start < strip.selection_model.selected_indices.length := by omega
    rw [moveBeforeLoop, List.getElem?_eq_getElem isInside, bind_eq_bind, bind_some]
    have mem := getElem_mem isInside
    by_cases less : strip.selection_model.selected_indices[start] < i
    · rw [if_pos less]
      obtain ⟨middle, runs, moves, sel⟩ :=
        moveTabContentsAt_unselected (selected.inside _ mem) toValid
      have middleSelected := moves.selected selected
      rw [← moves.count_eq] at middleSelected
      have sameLength := moves.selected_length selected
      obtain ⟨rest, next, loops, nextMoves, passes⟩ :=
        ih middleSelected (by omega) (moves.valid toValid)
      rw [runs, bind_eq_bind, bind_some]
      refine ⟨rest, next, loops, moves.trans nextMoves, ?_⟩
      intro number atMost enough before
      cases number with
      | zero =>
        have := passes 0 (Nat.zero_le _) (by omega)
          (fun place isLess => absurd isLess (Nat.not_lt_zero _))
        omega
      | succ number =>
        have := passes number (by omega) (by omega) (by
          rcases sel with same | isMove
          · rw [same]
            exact before.mono (Nat.le_succ number)
          · rw [isMove]
            exact before.move selected.increasing
              (selected.inside _ mem).1 mem less (by omega))
        omega
    · rw [if_neg less]
      refine ⟨left + 1, strip, rfl, .refl strip, ?_⟩
      intro number _ _ before
      cases number with
      | zero => exact le_rfl
      | succ number =>
        have first := before 0 (Nat.succ_pos _)
        rw [Nat.add_zero, ← getElem_lt_iff selected.increasing isInside] at first
        omega

theorem moveAfterLoop_moves
    (left : Nat) {tab_index : Nat} {target_index : Int} {strip : TabStripModel}
    (selected : Selected strip.count strip.selection_model)
    (inside : tab_index + left <= strip.selection_model.selected_indices.length)
    (nonneg : 0 <= target_index) (enough : target_index + left <= strip.count) :
    ∃ next, moveAfterLoop left tab_index target_index strip = some next ∧ Moves strip next := by
  induction left generalizing tab_index target_index strip with
  | zero => exact ⟨strip, rfl, .refl strip⟩
  | succ left ih =>
    have isInside : tab_index < strip.selection_model.selected_indices.length := by omega
    rw [moveAfterLoop, List.getElem?_eq_getElem isInside, bind_eq_bind, bind_some]
    generalize isIndex : strip.selection_model.selected_indices[tab_index] = selected_index
    have mem := getElem_mem isInside
    rw [isIndex] at mem
    obtain ⟨middle, runs, moves⟩ : ∃ middle, (if selected_index ≠ target_index then
          strip.moveTabContentsAt selected_index target_index false
        else some strip) = some middle ∧ Moves strip middle := by
      split_ifs
      · obtain ⟨middle, runs, moves, _⟩ := moveTabContentsAt_unselected (selected.inside _ mem)
          (show strip.Valid target_index from ⟨nonneg, by omega⟩)
        exact ⟨middle, runs, moves⟩
      · exact ⟨strip, rfl, .refl strip⟩
    have middleSelected := moves.selected selected
    rw [← moves.count_eq] at middleSelected
    have sameLength := moves.selected_length selected
    have sameCount := moves.count_eq
    obtain ⟨next, loops, nextMoves⟩ := @ih (tab_index + 1)
      (target_index + 1) middle middleSelected (by omega) (by omega)
      (by omega)
    rw [runs, bind_eq_bind, bind_some]
    exact ⟨next, loops, moves.trans nextMoves⟩

/-- If no tab is counted the first loop moves none. -/
theorem moveBeforeLoop_of_countBeforeIndex {start len : Nat}
    (inside : start + len <= strip.selection_model.selected_indices.length)
    (none_ : countBeforeIndex index
      ((strip.selection_model.selected_indices.drop start).take len) = 0) :
    moveBeforeLoop start index target_index len strip = some (len, strip) := by
  cases len with
  | zero => rfl
  | succ len =>
    have isInside : start < strip.selection_model.selected_indices.length := by omega
    rw [drop_eq_getElem_cons isInside, take_succ_cons, countBeforeIndex] at none_
    rw [moveBeforeLoop, List.getElem?_eq_getElem isInside, bind_eq_bind, bind_some]
    split_ifs at none_ with less
    · have := (countBeforeIndex_spec (index + 1)
        ((strip.selection_model.selected_indices.drop (start + 1)).take len)).1
      omega
    · rw [if_neg less]
      rfl

theorem moveSelectedTabsToImpl_moves
    {start len : Nat} (selected : Selected strip.count strip.selection_model)
    (inside : start + len <= strip.selection_model.selected_indices.length) (nonneg : 0 <= index)
    (enough : index + len <= strip.count) :
    ∃ next, strip.moveSelectedTabsToImpl index start len = some next ∧ Moves strip next := by
  have taken : ((strip.selection_model.selected_indices.drop start).take
      len).length = len := by
    rw [length_take, length_drop]
    omega
  obtain ⟨number_nonneg, atMost, isBefore⟩ := countBeforeIndex_spec index
    ((strip.selection_model.selected_indices.drop start).take len)
  rw [moveSelectedTabsToImpl]
  generalize isNumber : countBeforeIndex index
    ((strip.selection_model.selected_indices.drop start).take len) = number
    at *
  obtain ⟨rest, middle, loops, moves, passes⟩ : ∃ rest middle,
      moveBeforeLoop start index (index + number) len strip = some (rest, middle) ∧
        Moves strip middle ∧ rest + number <= len := by
    rcases number_nonneg.eq_or_lt with none_ | positive
    · exact ⟨len, strip, moveBeforeLoop_of_countBeforeIndex inside
        (isNumber.trans none_.symm), .refl strip, by omega⟩
    · obtain ⟨rest, middle, loops, moves, passes⟩ := @moveBeforeLoop_moves
        index start (index + number) len strip selected inside
        ⟨by omega, by omega⟩
      refine ⟨rest, middle, loops, moves, ?_⟩
      have := passes number.toNat (by omega) (by omega) (by
        intro place isLess
        rw [← getElem_lt_iff selected.increasing (by omega)]
        have before := isBefore place (by omega) (by omega)
        rw [getElem_take, getElem_drop] at before
        exact before)
      omega
  have middleSelected := moves.selected selected
  rw [← moves.count_eq] at middleSelected
  have sameLength := moves.selected_length selected
  have sameCount := moves.count_eq
  obtain ⟨next, after, nextMoves⟩ := @moveAfterLoop_moves rest
    (start + len - rest) (index + number) middle middleSelected (by omega)
    (by omega) (by omega)
  rw [loops, bind_eq_bind, bind_some]
  exact ⟨next, after, moves.trans nextMoves⟩

theorem getElem_add_le {indices : List Int} (rising : indices.Pairwise (· < ·)) {first : Nat}
    (off : Nat) (lt : first + off < indices.length) :
    indices[first] + off <= indices[first + off] := by
  induction off with
  | zero => exact le_of_eq (Int.add_zero _)
  | succ off ih =>
    have less := pairwise_iff_getElem.mp rising (first + off)
      (first + (off + 1)) (by omega) lt (by omega)
    have := ih (by omega)
    omega

/-- The selected mini tabs are among the mini tabs, and the other selected
tabs among the others. -/
theorem selectedMiniCount_inside (ordered : Ordered strip.contents_data)
    (valid : ∀ selected ∈ indices, strip.Valid selected) :
    ∃ number, strip.selectedMiniCount indices = some number ∧ number <= indices.length ∧
      (∀ (place : Nat) (lt : place < indices.length), place < number ->
        indices[place] < strip.indexOfFirstNonMiniTab) ∧
      ∀ lt : number < indices.length, strip.indexOfFirstNonMiniTab <= indices[number] := by
  induction indices with
  | nil =>
    refine ⟨0, rfl, le_rfl, ?_, ?_⟩
    · intro place _ less
      exact absurd less (Nat.not_lt_zero _)
    · intro lt
      exact absurd lt (Nat.not_lt_zero _)
  | cons selected rest ih =>
    obtain ⟨number, counts, atMost, mini, others⟩ := ih (forall_mem_cons.mp valid).2
    have hit := dataAt_of_valid (valid selected mem_cons_self)
    have isMini := isMini_iff ordered hit
    have len : (selected :: rest).length = rest.length + 1 := length_cons
    rw [selectedMiniCount, isMiniTab, hit, map_some, bind_eq_bind, bind_some]
    split_ifs with holds
    · rw [counts, bind_eq_bind, bind_some]
      refine ⟨number + 1, rfl, by omega, ?_, ?_⟩
      · intro place lt less
        cases place with
        | zero => exact isMini.mp holds
        | succ place => exact mini place (Nat.lt_of_succ_lt_succ lt) (by omega)
      · intro lt
        exact others (Nat.lt_of_succ_lt_succ lt)
    · refine ⟨0, rfl, Nat.zero_le _, ?_, ?_⟩
      · intro place _ less
        exact absurd less (Nat.not_lt_zero _)
      · intro _
        exact Int.not_lt.mp (mt isMini.mpr holds)

/-- `MoveSelectedTabsTo` moves tabs, at an index that leaves room for the
selected ones. -/
theorem moveSelectedTabsTo_moves (ordered : Ordered strip.contents_data)
    (selected : Selected strip.count strip.selection_model) (nonneg : 0 <= index)
    (enough : index <= strip.count - strip.selection_model.selected_indices.length) :
    ∃ next, strip.moveSelectedTabsTo index = some next ∧ Moves strip next := by
  obtain ⟨number, counts, atMost, mini, others⟩ := selectedMiniCount_inside ordered selected.inside
  have total := strip.indexOfFirstNonMiniTab_inside
  -- The selected mini tabs fit among the mini tabs.
  have miniFit : (number : Int) <= strip.indexOfFirstNonMiniTab := by
    rcases Nat.eq_zero_or_pos number with none_ | positive
    · omega
    · have isLast : number - 1 < strip.selection_model.selected_indices.length := by omega
      have last := mini (number - 1) isLast (by omega)
      have first := (selected.inside _ (getElem_mem
        (show 0 < strip.selection_model.selected_indices.length by omega))).1
      have apart := @getElem_add_le _ selected.increasing 0 (number - 1) (by omega)
      simp only [Nat.zero_add] at apart
      omega
  -- The other selected tabs fit among the others.
  have othersFit : strip.indexOfFirstNonMiniTab +
      (strip.selection_model.selected_indices.length - number : Nat) <= strip.count := by
    rcases Nat.lt_or_ge number strip.selection_model.selected_indices.length with isLess | isAll
    · have first := others isLess
      have isLast : number + (strip.selection_model.selected_indices.length - number - 1) <
          strip.selection_model.selected_indices.length := by
        omega
      have apart := getElem_add_le selected.increasing _ isLast
      have last := (selected.inside _ (getElem_mem isLast)).2
      omega
    · omega
  rw [moveSelectedTabsTo, counts, bind_eq_bind, bind_some]
  obtain ⟨moved, runs, moves⟩ : ∃ moved, (if number > 0 then
        strip.moveSelectedTabsToImpl (min (strip.indexOfFirstNonMiniTab - number) index) 0 number
      else some strip) = some moved ∧ Moves strip moved := by
    split_ifs
    · exact moveSelectedTabsToImpl_moves selected (by omega) (by omega) (by omega)
    · exact ⟨strip, rfl, .refl strip⟩
  rw [runs, bind_eq_bind, bind_some]
  by_cases all : number = strip.selection_model.selected_indices.length
  · rw [if_pos all]
    exact ⟨moved, rfl, moves⟩
  · rw [if_neg all]
    have movedSelected := moves.selected selected
    rw [← moves.count_eq] at movedSelected
    have sameLength := moves.selected_length selected
    have sameCount := moves.count_eq
    obtain ⟨next, finishes, nextMoves⟩ := moveSelectedTabsToImpl_moves movedSelected
      (show number + (strip.selection_model.selected_indices.length - number) <=
        moved.selection_model.selected_indices.length by omega)
      (show 0 <= max (if number > 0 ∧
          index > strip.indexOfFirstNonMiniTab - number then index + number
        else index) strip.indexOfFirstNonMiniTab by omega)
      (by split_ifs <;> omega)
    exact ⟨next, finishes, moves.trans nextMoves⟩

theorem modifyAt_contents_data (hit : strip.dataAt index = some data)
    (change : TabContentsData -> TabContentsData) :
    (strip.modifyAt index change).contents_data = strip.shiftedTabs index index (change data) := by
  have inside := (valid_of_dataAt hit).toNat_lt
  have isData := getElem_eq_of_valid hit inside
  rw [modifyAt, shiftedTabs, insertIdx_eraseIdx_self (by omega),
    modify_eq_take_cons_drop inside, set_eq_take_append_cons_drop,
    if_pos inside, isData]

theorem modifyAt_dataAt (hit : strip.dataAt index = some data)
    (change : TabContentsData -> TabContentsData) :
    (strip.modifyAt index change).dataAt index = some (change data) := by
  rw [dataAt] at hit ⊢
  split_ifs at hit ⊢
  rw [modifyAt, List.getElem?_modify_eq, hit]
  rfl

theorem modifyAt_count (strip : TabStripModel) (i : Int)
    (change : TabContentsData -> TabContentsData) :
    (strip.modifyAt i change).count = strip.count :=
  congrArg Int.ofNat (length_modify ..)

theorem modifyAt_shiftedTabs (hit : strip.dataAt index = some data)
    (change : TabContentsData -> TabContentsData) :
    (strip.modifyAt index change).shiftedTabs index to_position (change data) =
      strip.shiftedTabs index to_position (change data) := by
  rw [shiftedTabs, modifyAt_contents_data hit, shiftedTabs, eraseIdx_insertIdx_self, shiftedTabs]

/-- A pinned tab is moved to the end of the mini tabs, and one that is no
longer pinned in front of the others. -/
theorem moves_of_pin (hit : strip.dataAt index = some data)
    {pinned : Bool} (toValid : strip.Valid to_position)
    (isMini : ({ data with pinned } : TabContentsData).isMini = pinned)
    (wasMini : data.isMini = !pinned)
    (isBoundary : to_position = if pinned then strip.indexOfFirstNonMiniTab
      else strip.indexOfFirstNonMiniTab - 1)
    (contents_data : next.contents_data = strip.shiftedTabs index to_position { data with pinned })
    (selection_model : next.selection_model = strip.selection_model ∨
      next.selection_model = strip.selection_model.move index to_position) :
    Moves strip next := by
  refine @moves_of_shift strip next index to_position data
    { data with pinned } hit toValid rfl rfl rfl ?_ ?_ contents_data
    selection_model
  · intro _ inv
    rw [isMini] at inv
    rw [inv, if_pos rfl] at isBoundary
    rw [wasMini, inv]
    exact le_of_eq ((Int.add_zero _).trans isBoundary)
  · intro _ fails
    rw [isMini] at fails
    rw [wasMini, fails, Bool.not_false, if_pos rfl]
    omega

theorem setTabPinned_moves (ordered : Ordered strip.contents_data) (valid : strip.Valid index)
    {pinned : Bool} :
    ∃ next, strip.setTabPinned index pinned = some next ∧ Moves strip next ∧
      (next.selection_model = strip.selection_model ∨
        ∃ to_position, strip.Valid to_position ∧ next.selection_model =
            strip.selection_model.move index to_position) := by
  have hit := dataAt_of_valid valid
  generalize (getElem strip.contents_data index.toNat valid.toNat_lt) = data at hit
  have isMini := isMini_iff ordered hit
  have total := strip.indexOfFirstNonMiniTab_inside
  have inside := valid
  rw [Valid] at inside
  rw [setTabPinned, hit, bind_eq_bind, bind_some]
  by_cases same : data.pinned = pinned
  · rw [if_pos same]
    exact ⟨strip, rfl, .refl strip, .inl rfl⟩
  rw [if_neg same]
  by_cases isApp : data.contents.is_app = true
  · rw [if_pos isApp]
    split_ifs
    · have inv : data.isMini = true := by
        rw [TabContentsData.isMini, isApp, Bool.or_true]
      refine ⟨_, rfl, @moves_of_shift strip _ index index data
        { data with pinned } hit valid rfl rfl rfl ?_ ?_
        (modifyAt_contents_data hit _) (.inl rfl), .inl rfl⟩
      · intro _ _
        have := isMini.mp inv
        omega
      · intro _ fails
        rw [TabContentsData.isMini, isApp, Bool.or_true] at fails
        cases fails
    · exact ⟨strip, rfl, .refl strip, .inl rfl⟩
  rw [if_neg isApp]
  have notApp := Bool.eq_false_iff.mpr isApp
  have willBeMini : ({ data with pinned } : TabContentsData).isMini = pinned := by
    rw [TabContentsData.isMini, notApp, Bool.or_false]
  have wasMini : data.isMini = !pinned := by
    rw [TabContentsData.isMini, notApp, Bool.or_false]
    exact Bool.eq_not_of_ne same
  have changed := modifyAt_dataAt hit ({ · with pinned })
  have sameCount := strip.modifyAt_count index ({ · with pinned })
  cases pinned with
  | true =>
    have isOther : ¬ index < strip.indexOfFirstNonMiniTab := by
      rw [← isMini, wasMini]
      exact Bool.false_ne_true
    have toValid : strip.Valid strip.indexOfFirstNonMiniTab := ⟨total.1, by omega⟩
    by_cases moves : index = strip.indexOfFirstNonMiniTab
    · rw [if_neg fun both => both.2 moves, if_neg fun both => both.1 rfl]
      exact ⟨_, rfl, moves_of_pin hit toValid willBeMini wasMini
        (if_pos rfl).symm (moves ▸ modifyAt_contents_data hit _)
        (.inl rfl), .inl rfl⟩
    · rw [if_pos ⟨rfl, moves⟩]
      have toChanged : (strip.modifyAt index ({ · with pinned := true })).Valid
          strip.indexOfFirstNonMiniTab := by
        rw [Valid, sameCount]
        exact toValid
      obtain ⟨selection_model, runs, isMove | ⟨selects, _⟩⟩ :=
        moveTabContentsAtImpl_eq changed toChanged
      · refine ⟨_, runs, moves_of_pin hit toValid willBeMini wasMini (if_pos rfl).symm
          (modifyAt_shiftedTabs hit ({ · with pinned := true }))
          (.inr isMove), .inr ⟨_, toValid, isMove⟩⟩
      · exact absurd selects Bool.false_ne_true
  | false =>
    have isBefore : index < strip.indexOfFirstNonMiniTab := by
      rw [← isMini, wasMini]
      rfl
    have toValid : strip.Valid (strip.indexOfFirstNonMiniTab - 1) := ⟨by omega, by omega⟩
    rw [if_neg fun both => Bool.false_ne_true both.1]
    by_cases moves : index + 1 = strip.indexOfFirstNonMiniTab
    · rw [if_neg fun both => both.2 moves]
      have isPosition : index = strip.indexOfFirstNonMiniTab - 1 := by omega
      exact ⟨_, rfl, moves_of_pin hit toValid willBeMini wasMini (if_neg Bool.false_ne_true).symm
        (isPosition ▸ modifyAt_contents_data hit _) (.inl rfl), .inl rfl⟩
    · rw [if_pos ⟨Bool.false_ne_true, moves⟩]
      have toChanged : (strip.modifyAt index ({ · with pinned := false })).Valid
          (strip.indexOfFirstNonMiniTab - 1) := by
        rw [Valid, sameCount]
        exact toValid
      obtain ⟨selection_model, runs, isMove | ⟨selects, _⟩⟩ :=
        moveTabContentsAtImpl_eq changed toChanged
      · refine ⟨_, runs, moves_of_pin hit toValid willBeMini wasMini
          (if_neg Bool.false_ne_true).symm
          (modifyAt_shiftedTabs hit ({ · with pinned := false }))
          (.inr isMove), .inr ⟨_, toValid, isMove⟩⟩
      · exact absurd selects Bool.false_ne_true

end TabStripModel
end Chromium.Browser
