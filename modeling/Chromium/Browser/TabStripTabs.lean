import Chromium.Browser.TabStripModel

/-!
# What one operation does to a strip

The tabs and the selection behind an insertion, a detachment and a move, and
that notifications only clear openers and groups.
-/

namespace Chromium.Browser

open List Option
open Library

namespace TabStripModel

open TabContentsData TabStripSelectionModel

variable {strip next : TabStripModel} {index : Int}

/-- An index of a tab of the strip. -/
def Valid (strip : TabStripModel) (index : Int) : Prop := 0 <= index ∧ index < strip.count

theorem Valid.toNat_lt (ok : strip.Valid index) : index.toNat < strip.contents_data.length := by
  rw [Valid, count] at ok
  omega

theorem dataAt_of_valid (ok : strip.Valid index) : strip.dataAt index =
      some (getElem strip.contents_data index.toNat ok.toNat_lt) := by
  rw [dataAt, if_neg (by rw [Valid] at ok; omega)]
  exact List.getElem?_eq_getElem ok.toNat_lt

variable {data : TabContentsData} {transition : PageTransition}

theorem valid_of_dataAt (hit : strip.dataAt index = some data) : strip.Valid index := by
  rw [dataAt] at hit
  split_ifs at hit with negative
  obtain ⟨inside, _⟩ := List.getElem?_eq_some_iff.mp hit
  rw [Valid, count]
  omega

theorem mem_of_dataAt (hit : strip.dataAt index = some data) : data ∈ strip.contents_data := by
  rw [dataAt] at hit
  split_ifs at hit
  exact mem_of_getElem? hit

theorem dataAt_of_not_valid (invalid : ¬ strip.Valid index) : strip.dataAt index = none := by
  cases found : strip.dataAt index with
  | none => rfl
  | some data => exact absurd (valid_of_dataAt found) invalid

/-- The selection of the strip is well formed. -/
structure WellSelected (strip : TabStripModel) : Prop where
  selected : Selected strip.count strip.selection_model
  anchored : Anchored strip.count strip.selection_model

/-- As long as nothing is selected there is no anchor and no tab has an
opener. -/
structure Untouched (strip : TabStripModel) : Prop where
  anchor : strip.activeIndex = kUnselectedIndex -> strip.selection_model.anchor = kUnselectedIndex
  opener : strip.activeIndex = kUnselectedIndex ->
    ∀ data ∈ strip.contents_data, data.opener = none

theorem getElem_eq_of_valid (hit : strip.dataAt index = some data)
    (lt : index.toNat < strip.contents_data.length) :
    strip.contents_data[index.toNat] = data := by
  have ok := valid_of_dataAt hit
  rw [dataAt_of_valid ok] at hit
  exact some.inj hit

/-- The selection is the same and only openers and groups are cleared. -/
structure OnlyClears (strip next : TabStripModel) : Prop where
  cleared : Cleared strip.contents_data next.contents_data
  selection_model : next.selection_model = strip.selection_model

theorem OnlyClears.refl (strip : TabStripModel) : OnlyClears strip strip := ⟨cleared_refl _, rfl⟩

theorem OnlyClears.trans (front : OnlyClears first second) (back : OnlyClears second third) :
    OnlyClears first third :=
  ⟨front.cleared.trans back.cleared, back.selection_model.trans front.selection_model⟩

theorem OnlyClears.count_eq (only : OnlyClears strip next) : next.count = strip.count :=
  congrArg Int.ofNat only.cleared.length_eq

theorem OnlyClears.wellSelected (only : OnlyClears strip next) (wellSelected : strip.WellSelected) :
    next.WellSelected where
  selected := by
    rw [only.count_eq, only.selection_model]
    exact wellSelected.selected
  anchored := by
    rw [only.count_eq, only.selection_model]
    exact wellSelected.anchored

theorem OnlyClears.untouched (only : OnlyClears strip next) (untouched : strip.Untouched) :
    next.Untouched where
  anchor := by
    rw [activeIndex, only.selection_model]
    exact untouched.anchor
  opener := by
    rw [activeIndex, only.selection_model]
    intro unselected data mem
    obtain ⟨original, isOriginal, clears⟩ := only.cleared.mem mem
    rcases clears.opener with cleared | same
    · exact cleared
    · rw [same]
      exact untouched.opener unselected original isOriginal

theorem onlyClears_forgetAllOpeners : OnlyClears strip strip.forgetAllOpeners :=
  ⟨cleared_map clears_forgetOpener _, rfl⟩

theorem onlyClears_modifyAt (clears : ∀ data, Clears data (change data)) :
    OnlyClears strip (strip.modifyAt index change) :=
  ⟨cleared_modify clears _, rfl⟩

theorem OnlyClears.valid (only : OnlyClears strip next) (ok : strip.Valid index) :
    next.Valid index := by
  rw [Valid, only.count_eq]
  exact ok

theorem onlyClears_resetGroupOnSelect
    (strip : TabStripModel) (old_contents : Option TabContentsWrapper)
    (old_data : Option TabContentsData) :
    OnlyClears strip (strip.resetGroupOnSelect old_contents old_data) := by
  cases old_contents with
  | none => exact .refl strip
  | some old_contents =>
    cases old_data with
    | none => exact .refl strip
    | some data =>
      rw [resetGroupOnSelect]
      split
      · exact onlyClears_modifyAt clears_setGroup_none
      · exact .refl strip

/-- Selecting a tab of the strip only clears openers and groups. By a user's
gesture it needs the tab that was selected, unless the new one has no opener. -/
theorem tabSelectedAt_onlyClears (ok : strip.Valid index)
    (known : user_gesture = true -> old_contents = none ->
      ∀ data ∈ strip.contents_data, data.opener = none) :
    ∃ next, strip.tabSelectedAt old_contents (some new_contents) index
        user_gesture = some next ∧ OnlyClears strip next := by
  rw [tabSelectedAt]
  split
  · exact ⟨strip, rfl, .refl strip⟩
  · dsimp only
    generalize old : old_contents.bind (fun old_contents =>
      strip.dataAt (strip.getIndexOfTabContents old_contents)) = old_data
    have only := onlyClears_resetGroupOnSelect strip old_contents old_data
    generalize strip.resetGroupOnSelect old_contents old_data = reset at *
    have inside := only.valid ok
    rw [dataAt_of_valid inside, bind_eq_bind, bind_some]
    split_ifs with gesture
    · cases old_contents with
      | none =>
        obtain ⟨original, isOriginal, clears⟩ := only.cleared.mem (getElem_mem inside.toNat_lt)
        have isNone : (getElem reset.contents_data index.toNat inside.toNat_lt).opener = none := by
          rcases clears.opener with cleared | same
          · exact cleared
          · rw [same]
            exact known gesture.1 rfl original isOriginal
        rw [← old, isNone] at gesture
        exact absurd rfl gesture.2
      | some old_contents =>
        rw [bind_eq_bind, bind_some]
        split_ifs
        · exact ⟨reset, rfl, only⟩
        · rw [bind_some]
          split_ifs
          · exact ⟨reset, rfl, only⟩
          · exact ⟨_, rfl, only.trans onlyClears_forgetAllOpeners⟩
    · exact ⟨reset, rfl, only⟩

theorem notifyTabSelectedIfChanged_onlyClears
    (ok : strip.Valid index) (isActive : strip.activeIndex = index)
    (old_contents : Option TabContentsWrapper) :
    ∃ next, strip.notifyTabSelectedIfChanged old_contents index false =
        some next ∧ OnlyClears strip next := by
  rw [notifyTabSelectedIfChanged, dataAt_of_valid ok, isActive, bind_eq_bind, bind_some]
  split
  · exact ⟨strip, rfl, .refl strip⟩
  · exact tabSelectedAt_onlyClears ok fun gesture => absurd gesture Bool.false_ne_true

/-- The selection of a single tab. -/
def onlySelected (index : Int) : TabStripSelectionModel where
  selected_indices := [index]
  active := index
  anchor := index

theorem setSelectedIndex_onlySelected (nonneg : 0 <= index) :
    setSelectedIndex index = some (onlySelected index) :=
  setSelectedIndex_eq nonneg

theorem indexOfFirstNonMiniTab_eq (mini : Leading isMini strip.contents_data) :
    strip.indexOfFirstNonMiniTab = strip.contents_data.countP isMini :=
  congrArg Int.ofNat mini.findIdx_eq_countP

theorem indexOfFirstNonMiniTab_inside (strip : TabStripModel) :
    0 <= strip.indexOfFirstNonMiniTab ∧ strip.indexOfFirstNonMiniTab <= strip.count :=
  ⟨Int.natCast_nonneg _, Int.ofNat_le.mpr findIdx_le_length⟩

theorem constrainInsertionIndex_inside (strip : TabStripModel) (i : Int) (mini_tab : Bool) :
    0 <= strip.constrainInsertionIndex i mini_tab ∧
      strip.constrainInsertionIndex i mini_tab <= strip.count := by
  have := strip.indexOfFirstNonMiniTab_inside
  rw [constrainInsertionIndex]
  split_ifs <;> omega

theorem mem_controller_of_getTabContentsAt {contents : TabContentsWrapper}
    (hit : strip.getTabContentsAt index = some contents) :
    contents.controller ∈ strip.contents_data.map controller := by
  obtain ⟨data, isData, rfl⟩ := map_eq_some_iff.mp hit
  exact List.mem_map_of_mem (mem_of_dataAt isData)

/-- A reference is null or the selected tab. -/
def RefersToSelected (strip : TabStripModel) (reference : Option Nat) : Prop :=
  reference = none ∨ ∃ selected, strip.getSelectedTabContents = some selected ∧
      reference = some selected.controller

/-- What an insertion does: some openers are forgotten, a tab that may have
been opened by the selected one is inserted, and it is selected if it is to be
active. -/
structure Inserts (strip : TabStripModel) (contents : TabContentsWrapper)
    (active : Bool) (pos : Nat) (tabs : List TabContentsData)
    (data : TabContentsData) (next : TabStripModel) : Prop where
  inside : pos <= strip.contents_data.length
  cleared : Cleared strip.contents_data tabs
  contents : data.contents = contents
  opener : RefersToSelected strip data.opener
  group : RefersToSelected strip data.group
  front : data.isMini = true -> (pos : Int) <= strip.indexOfFirstNonMiniTab
  back : data.isMini = false -> strip.indexOfFirstNonMiniTab <= pos
  inserted : Cleared (tabs.insertIdx pos data) next.contents_data
  selection_model : next.selection_model = if active then onlySelected pos
    else strip.selection_model.incrementFrom pos

theorem inheritFrom_refers
    (strip : TabStripModel) (add_types : AddTabTypes) (data : TabContentsData)
    (opener : data.opener = none)
    (group : data.group = none) :
    let (inherited, new_data) := strip.inheritFrom strip.getSelectedTabContents add_types data
    OnlyClears strip inherited ∧ new_data.contents = data.contents ∧
      new_data.pinned = data.pinned ∧ RefersToSelected strip new_data.opener ∧
      RefersToSelected strip new_data.group := by
  have forgets : OnlyClears strip (if add_types.active then strip.forgetAllOpeners else strip) := by
    split
    · exact onlyClears_forgetAllOpeners
    · exact .refl strip
  cases isSelected : strip.getSelectedTabContents with
  | none => exact ⟨.refl strip, rfl, rfl, .inl opener, .inl group⟩
  | some selected =>
    have refers : RefersToSelected strip (some selected.controller) :=
      .inr ⟨selected, isSelected, rfl⟩
    rw [inheritFrom]
    by_cases inherits : add_types.inherit_group = true
    · rw [if_pos inherits]
      exact ⟨forgets, rfl, rfl, refers, refers⟩
    · rw [if_neg inherits]
      by_cases inherits : add_types.inherit_opener = true
      · rw [if_pos inherits]
        exact ⟨forgets, rfl, rfl, refers, .inl group⟩
      · rw [if_neg inherits]
        exact ⟨.refl strip, rfl, rfl, .inl opener, .inl group⟩

/-- A tab that is inserted in the background is not selected. -/
theorem selection_of_inserted (strip : TabStripModel) (nonneg : 0 <= pos)
    (inside : pos <= strip.count) (closing_all active : Bool)
    (data : TabContentsData)
    (old_contents : Option TabContentsWrapper) :
    let inserted : TabStripModel := { strip with
      closing_all := closing_all
      contents_data := strip.contents_data.insertIdx pos.toNat data
      selection_model := strip.selection_model.incrementFrom pos }
    ∃ next, (if active then do
        let selection_model ← setSelectedIndex pos
        { inserted with selection_model }.notifyTabSelectedIfChanged old_contents pos false
      else return inserted) = some next ∧
      Cleared (strip.contents_data.insertIdx pos.toNat data) next.contents_data ∧
      next.selection_model = if active then onlySelected pos
        else strip.selection_model.incrementFrom pos := by
  intro inserted
  cases active with
  | false => exact ⟨_, rfl, cleared_refl _, rfl⟩
  | true =>
    have ok : Valid { inserted with
        selection_model := onlySelected pos } pos := by
      refine ⟨nonneg, ?_⟩
      rw [count] at *
      rw [length_insertIdx_of_le_length (by omega)]
      omega
    obtain ⟨next, notifies, only⟩ := notifyTabSelectedIfChanged_onlyClears ok rfl old_contents
    rw [if_pos rfl, setSelectedIndex_eq nonneg, bind_eq_bind, bind_some]
    exact ⟨next, notifies, only.cleared, only.selection_model⟩

theorem insertTabContentsAt_inserts
    (strip : TabStripModel) (i : Int) (contents : TabContentsWrapper)
    (add_types : AddTabTypes) :
    ∃ pos tabs data next, strip.insertTabContentsAt i contents add_types = some next ∧
        Inserts strip contents add_types.active pos tabs data next := by
  have constrained := strip.constrainInsertionIndex_inside i
    (contents.is_app || add_types.pinned)
  have refers := strip.inheritFrom_refers add_types
    { contents, pinned := contents.is_app || add_types.pinned } rfl rfl
  rw [insertTabContentsAt]
  generalize inherits : strip.inheritFrom strip.getSelectedTabContents add_types
    { contents, pinned := contents.is_app || add_types.pinned } = inherited
    at *
  obtain ⟨inherited, data⟩ := inherited
  obtain ⟨only, sameContents, samePinned, opener, group⟩ := refers
  have isMini : data.isMini = (contents.is_app || add_types.pinned) := by
    rw [TabContentsData.isMini, sameContents, samePinned]
    cases contents.is_app <;> cases add_types.pinned <;> rfl
  generalize isPosition : strip.constrainInsertionIndex i
    (contents.is_app || add_types.pinned) = pos at *
  have sameCount := only.count_eq
  obtain ⟨next, runs, cleared, selection_model⟩ :=
    inherited.selection_of_inserted constrained.1 (by omega) false
      add_types.active data strip.getSelectedTabContents
  have isNat : ((pos.toNat : Nat) : Int) = pos := Int.toNat_of_nonneg constrained.1
  refine ⟨pos.toNat, inherited.contents_data, data, next, runs, ?_,
    only.cleared, sameContents, opener, group, ?_, ?_, cleared, ?_⟩
  · rw [count] at constrained
    omega
  · intro inv
    rw [isMini] at inv
    rw [inv, constrainInsertionIndex, if_pos rfl] at isPosition
    omega
  · intro fails
    rw [isMini] at fails
    rw [fails, constrainInsertionIndex, if_neg Bool.false_ne_true] at isPosition
    have := strip.indexOfFirstNonMiniTab_inside
    omega
  · rw [selection_model, isNat, only.selection_model]

namespace Inserts

variable {contents : TabContentsWrapper} {active : Bool}

section

variable (inserts : Inserts strip contents active pos tabs data next)
include inserts

theorem length_eq : next.contents_data.length = strip.contents_data.length + 1 := by
  have sameLength := inserts.cleared.length_eq
  have inside := inserts.inside
  rw [inserts.inserted.length_eq, length_insertIdx_of_le_length (by omega), sameLength]

theorem count_eq : next.count = strip.count + 1 := congrArg Int.ofNat inserts.length_eq

theorem contents_perm : (next.contents_data.map TabContentsData.contents).Perm
      (contents :: strip.contents_data.map TabContentsData.contents) := by
  have inside : pos <= tabs.length := by
    rw [inserts.cleared.length_eq]
    exact inserts.inside
  rw [inserts.inserted.contents_eq, ← inserts.contents, ← inserts.cleared.contents_eq]
  exact (perm_insertIdx data tabs inside).map _

theorem refersTo (new_ : contents.controller ∉ strip.contents_data.map controller)
    (refers : RefersToSelected strip reference) :
    RefersTo tabs data reference := by
  rcases refers with rfl | ⟨selected, isSelected, rfl⟩
  · exact refersTo_none
  · have mem := mem_controller_of_getTabContentsAt isSelected
    intro tab isTab
    cases isTab
    rw [controller, inserts.contents, inserts.cleared.controller_eq]
    refine ⟨?_, mem⟩
    intro same
    rw [same] at mem
    exact new_ mem

theorem ordered (ordered : Ordered strip.contents_data)
    (new_ : contents.controller ∉ strip.contents_data.map controller) :
    Ordered next.contents_data := by
  have tabsOrdered := ordered.of_cleared inserts.cleared
  have sameCount : tabs.countP isMini = strip.indexOfFirstNonMiniTab := by
    rw [indexOfFirstNonMiniTab_eq ordered.mini, inserts.cleared.countP_isMini]
  refine (tabsOrdered.insertIdx ?_ ?_ ?_ ?_ (inserts.refersTo new_ inserts.opener)
    (inserts.refersTo new_ inserts.group)).of_cleared inserts.inserted
  · rw [inserts.cleared.length_eq]
    exact inserts.inside
  · intro inv
    have := inserts.front inv
    omega
  · intro fails
    have := inserts.back fails
    omega
  · rw [controller, inserts.contents, inserts.cleared.controller_eq]
    exact new_

theorem selected (selected : Selected strip.count strip.selection_model) :
    Selected next.count next.selection_model := by
  rw [inserts.count_eq, inserts.selection_model]
  split_ifs
  · refine selected_singleton ⟨Int.natCast_nonneg _, ?_⟩
    have := inserts.inside
    rw [count]
    omega
  · exact selected.incrementFrom (Int.natCast_nonneg _)

theorem anchored (anchored : Anchored strip.count strip.selection_model) :
    Anchored next.count next.selection_model := by
  rw [inserts.count_eq, inserts.selection_model]
  split_ifs
  · refine anchored_singleton ⟨Int.natCast_nonneg _, ?_⟩
    have := inserts.inside
    rw [count]
    omega
  · exact anchored.incrementFrom (Int.natCast_nonneg _)

/-- A tab has become active, or there was none and there is none. -/
theorem active_or_unselected (unselected : next.activeIndex = kUnselectedIndex) :
    strip.activeIndex = kUnselectedIndex ∧
      next.selection_model = strip.selection_model.incrementFrom pos := by
  have isNext := inserts.selection_model
  rw [activeIndex, isNext, kUnselectedIndex_eq] at unselected
  split_ifs at isNext unselected with isActive
  · dsimp only [onlySelected] at unselected
    omega
  · refine ⟨?_, isNext⟩
    dsimp only [TabStripSelectionModel.incrementFrom] at unselected
    rw [incrementFromImpl] at unselected
    rw [activeIndex, kUnselectedIndex_eq]
    split_ifs at unselected <;> omega

theorem untouched (untouched : strip.Untouched) : next.Untouched where
  anchor := by
    intro unselected
    obtain ⟨before, isNext⟩ := inserts.active_or_unselected unselected
    rw [isNext]
    dsimp only [TabStripSelectionModel.incrementFrom]
    rw [untouched.anchor before, incrementFromImpl, kUnselectedIndex_eq, if_neg (by omega)]
  opener := by
    intro unselected other mem
    obtain ⟨before, -⟩ := inserts.active_or_unselected unselected
    have noSelected : strip.getSelectedTabContents = none := by
      rw [getSelectedTabContents, getTabContentsAt, before]
      rfl
    obtain ⟨original, isOriginal, clears⟩ := inserts.inserted.mem mem
    have isNone : original.opener = none := by
      rcases eq_or_mem_of_mem_insertIdx isOriginal with rfl | inTabs
      · rcases inserts.opener with isNone | ⟨selected, isSelected, _⟩
        · exact isNone
        · rw [noSelected] at isSelected
          cases isSelected
      · obtain ⟨first, inStrip, clears⟩ := inserts.cleared.mem inTabs
        rcases clears.opener with isNone | same
        · exact isNone
        · rw [same]
          exact untouched.opener before first inStrip
    rcases clears.opener with cleared | same
    · exact cleared
    · rw [same]
      exact isNone

end

end Inserts

/-- A tab that is opened in the background by a link is put behind the
selected tab, which the strip must have. -/
def NeedsSelected (strip : TabStripModel) (transition : PageTransition)
    (add_types : AddTabTypes) : Prop :=
  (transition = .link ∧ add_types.force_index = false) ∧
    add_types.active = false ∧ strip.count ≠ 0 ∧ strip.activeIndex ≠ -1

theorem determineInsertionIndex_of_selected (strip : TabStripModel)
    (selected : transition = .link → foreground = false → strip.count ≠ 0 → strip.activeIndex ≠ -1 →
      ∃ contents, strip.getSelectedTabContents = some contents) :
    ∃ i, strip.determineInsertionIndex transition foreground = some i := by
  rw [determineInsertionIndex]
  by_cases empty : strip.count = 0
  · rw [if_pos empty]
    exact ⟨_, rfl⟩
  · rw [if_neg empty]
    by_cases byLink : transition = .link ∧ strip.activeIndex ≠ -1
    · rw [if_pos byLink]
      cases foreground with
      | true => exact ⟨_, rfl⟩
      | false =>
        obtain ⟨contents, isSelected⟩ := selected byLink.1 rfl empty byLink.2
        rw [isSelected]
        dsimp only
        rw [if_neg Bool.false_ne_true, bind_eq_bind, bind_some]
        split_ifs
        · exact ⟨_, rfl⟩
        · exact ⟨_, rfl⟩
    · rw [if_neg byLink]
      exact ⟨_, rfl⟩

theorem addTabContents_inserts (strip : TabStripModel) (contents : TabContentsWrapper) (i : Int)
    {add_types : AddTabTypes} (selected : strip.NeedsSelected transition add_types ->
      ∃ contents, strip.getSelectedTabContents = some contents) :
    ∃ pos tabs data middle next, Inserts strip contents add_types.active pos tabs data middle ∧
        strip.addTabContents contents i transition add_types = some next ∧
        OnlyClears middle next := by
  obtain ⟨to_index, determines⟩ : ∃ to_index,
      (if transition = .link ∧ add_types.force_index = false then
        strip.determineInsertionIndex transition add_types.active
      else if i < 0 ∨ i > strip.count then some strip.determineInsertionIndexForAppending
      else some i) = some to_index := by
    by_cases byLink : transition = .link ∧ add_types.force_index = false
    · rw [if_pos byLink]
      apply determineInsertionIndex_of_selected
      intro _ inBackground ne hasActive
      exact selected ⟨byLink, inBackground, ne, hasActive⟩
    · rw [if_neg byLink]
      split_ifs
      · exact ⟨_, rfl⟩
      · exact ⟨_, rfl⟩
  rw [addTabContents]
  dsimp only
  rw [determines, bind_eq_bind, bind_some]
  generalize (add_types.inherit_group ||
    decide (transition = .link ∧ add_types.force_index = false) ||
    decide (transition = .typed ∧ to_index = strip.count)) = inherit_group
  obtain ⟨pos, tabs, data, middle, runs, inserts⟩ :=
    strip.insertTabContentsAt_inserts to_index contents { add_types with inherit_group }
  rw [runs, bind_eq_bind, bind_some]
  have clears : ∀ data : TabContentsData, Clears data { data with reset_group_on_select := true } :=
    fun data => ⟨rfl, rfl, .inr rfl, .inr rfl⟩
  split_ifs
  · exact ⟨pos, tabs, data, middle, _, inserts, rfl, onlyClears_modifyAt clears⟩
  · exact ⟨pos, tabs, data, middle, _, inserts, rfl, .refl middle⟩

/-- Without the selected tab nothing is returned. -/
theorem addTabContents_eq_none (needs : strip.NeedsSelected transition add_types)
    (missing : strip.getSelectedTabContents = none) (contents : TabContentsWrapper) :
    strip.addTabContents contents index transition add_types = none := by
  obtain ⟨byLink, inBackground, ne, hasActive⟩ := needs
  have fails : strip.determineInsertionIndex transition add_types.active = none := by
    rw [determineInsertionIndex, if_neg ne,
      if_pos ⟨byLink.1, hasActive⟩, inBackground, missing]
    rfl
  rw [addTabContents]
  rw [if_pos byLink, fails]
  rfl

end TabStripModel
end Chromium.Browser
