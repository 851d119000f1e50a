import Chromium.Browser.TabStripSelection

/-!
# Tab strips

`TabStripModel` has the tabs of a window in their order, with what opened them.
Its order controller decides where tabs are inserted and which is selected when
one is closed.
-/

namespace Chromium.Browser

open List

/-- A `TabContentsWrapper`: the identity of its controller, and whether it is
an app. -/
structure TabContentsWrapper where
  controller : Nat
  is_app : Bool
deriving DecidableEq

structure TabContentsData where
  contents : TabContentsWrapper
  group : Option Nat := none
  opener : Option Nat := none
  reset_group_on_select : Bool := false
  pinned : Bool := false
deriving DecidableEq

namespace TabContentsData

variable (data : TabContentsData)

def setGroup (a_group : Option Nat) : TabContentsData :=
  { data with group := a_group, opener := a_group }

def forgetOpener : TabContentsData := { data with opener := none }

def isMini : Bool := data.pinned || data.contents.is_app

end TabContentsData

/-- The flags of `AddTabTypes`. -/
structure AddTabTypes where
  active : Bool := false
  pinned : Bool := false
  force_index : Bool := false
  inherit_group : Bool := false
  inherit_opener : Bool := false
deriving DecidableEq

inductive InsertionPolicy
  | insertAfter
  | insertBefore
deriving DecidableEq

/-- The transitions that are told apart. -/
inductive PageTransition
  | link
  | typed
  | other
deriving DecidableEq

structure TabStripModel where
  contents_data : List TabContentsData := []
  selection_model : TabStripSelectionModel := {}
  closing_all : Bool := false
  insertion_policy : InsertionPolicy := .insertAfter
deriving DecidableEq

namespace TabStripModel

section

variable (strip : TabStripModel)

def count : Int := strip.contents_data.length

def activeIndex : Int := strip.selection_model.active

/-- The data at an index; it is an error if the index is not there. -/
def dataAt (index : Int) : Option TabContentsData :=
  if index < 0 then none else strip.contents_data[index.toNat]?

/-- `GetTabContentsAt`: null if the index is not there. -/
def getTabContentsAt (index : Int) : Option TabContentsWrapper :=
  (strip.dataAt index).map TabContentsData.contents

def getSelectedTabContents : Option TabContentsWrapper := strip.getTabContentsAt strip.activeIndex

/-- An index that is found, or -1. -/
def indexOr (found : Option Nat) : Int :=
  match found with
  | none => -1
  | some index => index

def getIndexOfTabContents (contents : TabContentsWrapper) : Int :=
  indexOr (strip.contents_data.findIdx? (·.contents = contents))

def getIndexOfController (controller : Nat) : Int :=
  indexOr (strip.contents_data.findIdx? (·.contents.controller = controller))

def isMiniTab (index : Int) : Option Bool := (strip.dataAt index).map TabContentsData.isMini

def indexOfFirstNonMiniTab : Int := strip.contents_data.findIdx fun data => !data.isMini

def constrainInsertionIndex (index : Int) (mini_tab : Bool) : Int :=
  if mini_tab then min (max 0 index) strip.indexOfFirstNonMiniTab
  else min strip.count (max index strip.indexOfFirstNonMiniTab)

def forgetAllOpeners : TabStripModel :=
  { strip with
    contents_data := strip.contents_data.map TabContentsData.forgetOpener }

/-- `ForgetOpenersAndGroupsReferencing`. -/
def forgetReferencing (tab : Nat) (data : TabContentsData) : TabContentsData :=
  { data with
    group := if data.group = some tab then none else data.group
    opener := if data.opener = some tab then none else data.opener }

/-- A strip whose data at an index is changed. -/
def modifyAt (index : Int) (change : TabContentsData -> TabContentsData) : TabStripModel :=
  { strip with
    contents_data := strip.contents_data.modify index.toNat change }

/-- `GetIndexOfNextTabContentsOpenedBy`, without groups. -/
def getIndexOfNextTabContentsOpenedBy (opener : Nat) (start_index : Int) : Int :=
  let start := start_index.toNat
  match (strip.contents_data.drop (start + 1)).findIdx? (·.opener = some opener) with
  | some behind => start + 1 + behind
  | none =>
    match (strip.contents_data.take start).reverse.findIdx? (·.opener = some opener) with
    | some before => start - 1 - before
    | none => -1

/-- The first tab in front of an index that is opened by another. -/
def getIndexOfFirstTabContentsOpenedBy (opener : Nat) (start_index : Int) : Int :=
  indexOr ((strip.contents_data.take start_index.toNat).findIdx? (·.opener = some opener))

/-- The last tab behind an index that is opened by another. -/
def getIndexOfLastTabContentsOpenedBy (opener : Nat) (start_index : Int) : Int :=
  match (strip.contents_data.drop (start_index.toNat + 1)).reverse.findIdx?
      (·.opener = some opener) with
  | some before => strip.count - 1 - before
  | none => -1

def determineInsertionIndexForAppending : Int :=
  match strip.insertion_policy with
  | .insertAfter => strip.count
  | .insertBefore => 0

/-- `DetermineInsertionIndex`, which needs the selected tab for a tab that is
opened in the background. -/
def determineInsertionIndex (transition : PageTransition) (foreground : Bool) : Option Int :=
  if strip.count = 0 then some 0
  else if transition = .link ∧ strip.activeIndex ≠ -1 then
    let delta : Int :=
      match strip.insertion_policy with
      | .insertAfter => 1
      | .insertBefore => 0
    if foreground then some (strip.activeIndex + delta)
    else do
      let selected ← strip.getSelectedTabContents
      let index :=
        match strip.insertion_policy with
        | .insertAfter => strip.getIndexOfLastTabContentsOpenedBy
            selected.controller strip.activeIndex
        | .insertBefore => strip.getIndexOfFirstTabContentsOpenedBy
            selected.controller strip.activeIndex
      if index ≠ -1 then return index + delta
      else return strip.activeIndex + delta
  else some strip.determineInsertionIndexForAppending

def getValidIndex (index removing_index : Int) : Int :=
  if removing_index < index then max 0 (index - 1) else index

/-- `DetermineNewSelectedIndex`. -/
def determineNewSelectedIndex (removing_index : Int) : Option Int := do
  let removed ← strip.dataAt removing_index
  let index := strip.getIndexOfNextTabContentsOpenedBy removed.contents.controller removing_index
  if index ≠ -1 then return getValidIndex index removing_index
  let selected_index :=
    if strip.activeIndex ≥ strip.count - 1 then strip.activeIndex - 1
    else strip.activeIndex
  match removed.opener with
  | none => return selected_index
  | some parent_opener =>
    let index := strip.getIndexOfNextTabContentsOpenedBy parent_opener removing_index
    if index ≠ -1 then return getValidIndex index removing_index
    -- Fall back to the parent opener itself.
    let index := strip.getIndexOfController parent_opener
    if index ≠ -1 then return getValidIndex index removing_index
    else return selected_index

/-- The tab that was selected forgets its group, where it is to. -/
def resetGroupOnSelect (old_contents : Option TabContentsWrapper)
    (old_data : Option TabContentsData) : TabStripModel :=
  match old_contents, old_data with
  | some old_contents, some data =>
    if data.reset_group_on_select then
      strip.modifyAt (strip.getIndexOfTabContents old_contents) (TabContentsData.setGroup · none)
    else strip
  | _, _ => strip

/-- `TabSelectedAt` of the order controller. -/
def tabSelectedAt (old_contents new_contents : Option TabContentsWrapper) (index : Int)
    (user_gesture : Bool) : Option TabStripModel :=
  if old_contents = new_contents then some strip
  else do
    let old_data := old_contents.bind fun old_contents =>
      strip.dataAt (strip.getIndexOfTabContents old_contents)
    let old_opener := old_data.bind TabContentsData.opener
    let strip := strip.resetGroupOnSelect old_contents old_data
    let new_data ← strip.dataAt index
    if user_gesture ∧ new_data.opener ≠ old_opener then do
      let old_contents ← old_contents
      if new_data.opener = some old_contents.controller then return strip
      else do
        let new_contents ← new_contents
        if old_opener = some new_contents.controller then return strip
        else return strip.forgetAllOpeners
    else return strip

def notifyTabSelectedIfChanged (old_contents : Option TabContentsWrapper) (to_index : Int)
    (user_gesture : Bool) : Option TabStripModel := do
  let new_data ← strip.dataAt to_index
  if old_contents = some new_data.contents then return strip
  else strip.tabSelectedAt old_contents (some new_data.contents) strip.activeIndex user_gesture

def notifySelectionChanged (old_selected_index : Int) : Option TabStripModel :=
  let old_tab := strip.getTabContentsAt old_selected_index
  let new_tab := strip.getTabContentsAt strip.activeIndex
  strip.tabSelectedAt old_tab new_tab strip.activeIndex true

/-- The data of a new tab, which may inherit the group or the opener of the
selected tab. A tab that is to be active forgets all openers then. -/
def inheritFrom (selected_contents : Option TabContentsWrapper) (add_types : AddTabTypes)
    (data : TabContentsData) : TabStripModel × TabContentsData :=
  match selected_contents with
  | none => (strip, data)
  | some selected =>
    if add_types.inherit_group then
      (if add_types.active then strip.forgetAllOpeners else strip,
        data.setGroup (some selected.controller))
    else if add_types.inherit_opener then
      (if add_types.active then strip.forgetAllOpeners else strip,
        { data with opener := some selected.controller })
    else (strip, data)

/-- `InsertTabContentsAt`. -/
def insertTabContentsAt (index : Int) (contents : TabContentsWrapper) (add_types : AddTabTypes) :
    Option TabStripModel := do
  -- Force app tabs to be pinned.
  let pin := contents.is_app || add_types.pinned
  let index := strip.constrainInsertionIndex index pin
  let selected_contents := strip.getSelectedTabContents
  let (strip, data) := strip.inheritFrom selected_contents add_types { contents, pinned := pin }
  let strip := { strip with
    closing_all := false
    contents_data := strip.contents_data.insertIdx index.toNat data
    selection_model := strip.selection_model.incrementFrom index }
  if add_types.active then do
    let selection_model ← TabStripSelectionModel.setSelectedIndex index
    { strip with selection_model }.notifyTabSelectedIfChanged selected_contents index false
  else return strip

/-- `AddTabContents`. -/
def addTabContents (contents : TabContentsWrapper)
    (index : Int) (transition : PageTransition) (add_types : AddTabTypes) :
    Option TabStripModel := do
  let by_link := transition = .link ∧ add_types.force_index = false
  let index ← (if by_link then strip.determineInsertionIndex transition add_types.active
    else if index < 0 ∨ index > strip.count then some strip.determineInsertionIndexForAppending
    else some index)
  let inherit_group := add_types.inherit_group || by_link ||
    decide (transition = .typed ∧ index = strip.count)
  let strip ← strip.insertTabContentsAt index contents { add_types with inherit_group }
  if inherit_group ∧ transition = .typed then
    return strip.modifyAt (strip.getIndexOfTabContents contents)
      ({ · with reset_group_on_select := true })
  else return strip

/-- The tab that is selected when the active one is detached: the first of the
selected tabs, or the given one if there is none. -/
def selectAfterDetaching (removed : TabContentsWrapper)
    (next_selected_index : Int) : Option TabStripModel :=
  match strip.selection_model.selected_indices with
  | first :: _ =>
    { strip with
      selection_model := { strip.selection_model with
        active := first
        anchor := first } }.notifyTabSelectedIfChanged (some removed) first false
  | [] => do
      let selection_model ← TabStripSelectionModel.setSelectedIndex next_selected_index
      { strip with selection_model }.notifyTabSelectedIfChanged (some removed)
        next_selected_index false

/-- The tabs that are left when one is detached. -/
def contentsWithout (index : Int) (removed : TabContentsData) : List TabContentsData :=
  (strip.contents_data.eraseIdx index.toNat).map (forgetReferencing removed.contents.controller)

/-- `DetachTabContentsAt`, with the contents that are removed. -/
def detachTabContentsAt (index : Int) : Option (Option TabContentsWrapper × TabStripModel) := do
  if strip.contents_data.isEmpty then return (none, strip)
  else
    let removed ← strip.dataAt index
    let next_selected_index ← strip.determineNewSelectedIndex index
    let contents_data := strip.contentsWithout index removed
    if contents_data.isEmpty then
      return (some removed.contents, { strip with contents_data, closing_all := true })
    else
      let selection_model := strip.selection_model.decrementFrom index
      let detached := { strip with contents_data, selection_model }
      if index = strip.activeIndex then
        let detached ← detached.selectAfterDetaching removed.contents next_selected_index
        return (some removed.contents, detached)
      else return (some removed.contents, detached)

/-- `MoveTabContentsAtImpl`. -/
def moveTabContentsAtImpl (index to_position : Int)
    (select_after_move : Bool) : Option TabStripModel := do
  let moved_data ← strip.dataAt index
  if to_position < 0 ∨ to_position ≥ strip.count then none
  else
    let selection_model := strip.selection_model.move index to_position
    let selection_model ← (if !selection_model.isSelected (if select_after_move then 1 else 0) &&
          select_after_move then
        TabStripSelectionModel.setSelectedIndex to_position
      else some selection_model)
    return { strip with
      contents_data := (strip.contents_data.eraseIdx index.toNat).insertIdx
        to_position.toNat moved_data
      selection_model }

/-- `MoveTabContentsAt`, which does not mix mini tabs with others. -/
def moveTabContentsAt (index to_position : Int) (select_after_move : Bool) : Option TabStripModel :=
  if index = to_position then some strip
  else
    let first_non_mini_tab := strip.indexOfFirstNonMiniTab
    if (index < first_non_mini_tab ∧ to_position ≥ first_non_mini_tab) ∨
        (to_position < first_non_mini_tab ∧ index ≥ first_non_mini_tab) then
      some strip
    else strip.moveTabContentsAtImpl index to_position select_after_move

end

/-- The loop of `MoveSelectedTabsToImpl` that moves the tabs before the index,
with the number of tabs that are left. -/
def moveBeforeLoop (start : Nat) (index target_index : Int) :
    Nat -> TabStripModel -> Option (Nat × TabStripModel)
  | 0, strip => some (0, strip)
  | left + 1, strip => do
      let selected ← strip.selection_model.selected_indices[start]?
      if selected < index then do
        let strip ← strip.moveTabContentsAt selected (target_index - 1) false
        moveBeforeLoop start index target_index left strip
      else return (left + 1, strip)

/-- The loop of `MoveSelectedTabsToImpl` that moves the tabs after the index. -/
def moveAfterLoop : Nat -> Nat -> Int -> TabStripModel -> Option TabStripModel
  | 0, _, _, strip => some strip
  | left + 1, tab_index, target_index, strip => do
      let selected ← strip.selection_model.selected_indices[tab_index]?
      let strip ← (if selected ≠ target_index then
          strip.moveTabContentsAt selected target_index false
        else some strip)
      moveAfterLoop left (tab_index + 1) (target_index + 1) strip

/-- The number of selected tabs before an index that grows with them. -/
def countBeforeIndex (index : Int) : List Int -> Int
  | [] => 0
  | selected :: rest => if selected < index then countBeforeIndex (index + 1) rest + 1 else 0

section

variable (strip : TabStripModel)

variable (index : Int)

/-- `MoveSelectedTabsToImpl`. -/
def moveSelectedTabsToImpl (start length : Nat) : Option TabStripModel := do
  let count_before_index := countBeforeIndex index
    ((strip.selection_model.selected_indices.drop start).take length)
  let target_index := index + count_before_index
  let (left, strip) ← moveBeforeLoop start index target_index length strip
  moveAfterLoop left (start + length - left) target_index strip

/-- The number of mini tabs at the front of selected indices. -/
def selectedMiniCount (strip : TabStripModel) : List Int -> Option Nat
  | [] => some 0
  | selected :: rest => do
      let mini ← strip.isMiniTab selected
      if mini then return (← strip.selectedMiniCount rest) + 1 else return 0

/-- `MoveSelectedTabsTo`. -/
def moveSelectedTabsTo : Option TabStripModel := do
  let total_mini_count := strip.indexOfFirstNonMiniTab
  let selected_count := strip.selection_model.selected_indices.length
  let selected_mini_count ← strip.selectedMiniCount strip.selection_model.selected_indices
  let moved ← (if selected_mini_count > 0 then
      strip.moveSelectedTabsToImpl (min (total_mini_count - selected_mini_count) index) 0
        selected_mini_count
    else some strip)
  let index :=
    if selected_mini_count > 0 ∧ index > total_mini_count - selected_mini_count then
      index + selected_mini_count
    else index
  if selected_mini_count = selected_count then return moved
  else
    moved.moveSelectedTabsToImpl (max index total_mini_count)
      selected_mini_count (selected_count - selected_mini_count)

/-- `SetTabPinned`. -/
def setTabPinned (pinned : Bool) : Option TabStripModel := do
  let data ← strip.dataAt index
  if data.pinned = pinned then return strip
  else if data.contents.is_app then
    -- App tabs should always be pinned.
    if pinned then return strip.modifyAt index ({ · with pinned }) else return strip
  else
    let non_mini_tab_index := strip.indexOfFirstNonMiniTab
    let strip := strip.modifyAt index ({ · with pinned })
    if pinned ∧ index ≠ non_mini_tab_index then
      strip.moveTabContentsAtImpl index non_mini_tab_index false
    else if ¬ pinned ∧ index + 1 ≠ non_mini_tab_index then
      strip.moveTabContentsAtImpl index (non_mini_tab_index - 1) false
    else return strip

/-- `ActivateTabAt`. -/
def activateTabAt (user_gesture : Bool) : Option TabStripModel := do
  let had_multi := strip.selection_model.selected_indices.length > 1
  let old_contents := strip.getSelectedTabContents
  let selection_model ← TabStripSelectionModel.setSelectedIndex index
  let strip := { strip with selection_model }
  let new_data ← strip.dataAt index
  if old_contents ≠ some new_data.contents ∨ had_multi then
    strip.tabSelectedAt old_contents (some new_data.contents) strip.activeIndex user_gesture
  else return strip

def extendSelectionTo : Option TabStripModel := do
  let old_active := strip.activeIndex
  let selection_model ← strip.selection_model.setSelectionFromAnchorTo index
  { strip with selection_model }.notifySelectionChanged old_active

/-- `ToggleSelectionAt`. -/
def toggleSelectionAt : Option TabStripModel := do
  let old_active := strip.activeIndex
  if strip.selection_model.isSelected index then
    -- One tab must be selected.
    if strip.selection_model.selected_indices.length = 1 then return strip
    else
      let selection_model := { strip.selection_model.removeIndexFromSelection
        index with anchor := index }
      let selection_model ← (if selection_model.active = kUnselectedIndex then
          selection_model.selected_indices.head?.map fun active => { selection_model with active }
        else some selection_model)
      { strip with selection_model }.notifySelectionChanged old_active
  else
    let selection_model := { strip.selection_model.addIndexToSelection index with
      anchor := index
      active := index }
    { strip with selection_model }.notifySelectionChanged old_active

end

def addSelectionFromAnchorTo (strip : TabStripModel) (index : Int) : Option TabStripModel := do
  let old_active := strip.activeIndex
  let selection_model ← strip.selection_model.addSelectionFromAnchorTo index
  { strip with selection_model }.notifySelectionChanged old_active

end TabStripModel

/-!
## The order of the tabs and what opened them

Mini tabs lead, no tab is twice in a strip, and what opened a tab is another
tab of the strip. Inserting, detaching and moving tabs keep this.
-/

section

open Library

namespace TabContentsData

def controller (data : TabContentsData) : Nat := data.contents.controller

end TabContentsData

open TabContentsData

/-- A reference is null or the controller of another tab of the strip. -/
def RefersTo (tabs : List TabContentsData) (data : TabContentsData)
    (reference : Option Nat) : Prop :=
  ∀ tab, reference = some tab -> tab ≠ data.controller ∧ tab ∈ tabs.map controller

/-- Mini tabs precede all other tabs, no tab is twice in the strip, and every
opener and group is null or another tab of the strip. -/
structure Ordered (tabs : List TabContentsData) : Prop where
  mini : Leading isMini tabs
  distinct : (tabs.map controller).Nodup
  opener : ∀ data ∈ tabs, RefersTo tabs data data.opener
  group : ∀ data ∈ tabs, RefersTo tabs data data.group

theorem ordered_nil : Ordered [] where
  mini := List.Pairwise.nil
  distinct := List.nodup_nil
  opener := forall_mem_nil _
  group := forall_mem_nil _

theorem refersTo_none : RefersTo tabs data none := by
  intro tab isTab
  cases isTab

/-- Only the opener and the group may have been cleared. -/
structure Clears (before after : TabContentsData) : Prop where
  contents : after.contents = before.contents
  pinned : after.pinned = before.pinned
  opener : after.opener = none ∨ after.opener = before.opener
  group : after.group = none ∨ after.group = before.group

theorem Clears.refl (data : TabContentsData) : Clears data data := ⟨rfl, rfl, .inr rfl, .inr rfl⟩

theorem Clears.trans (front : Clears first second) (back : Clears second third) :
    Clears first third where
  contents := back.contents.trans front.contents
  pinned := back.pinned.trans front.pinned
  opener := by
    rcases back.opener with cleared | same
    · exact .inl cleared
    · rw [same]
      exact front.opener
  group := by
    rcases back.group with cleared | same
    · exact .inl cleared
    · rw [same]
      exact front.group

theorem Clears.isMini {before after : TabContentsData} (clears : Clears before after) :
    after.isMini = before.isMini := by
  rw [TabContentsData.isMini, TabContentsData.isMini, clears.contents, clears.pinned]

/-- The tabs are the same, with some openers and groups cleared. -/
def Cleared (before after : List TabContentsData) : Prop := List.Forall₂ Clears before after

variable {tabs before after : List TabContentsData}

theorem cleared_refl (tabs : List TabContentsData) : Cleared tabs tabs :=
  forall₂_same.mpr fun data _ => .refl data

theorem Cleared.trans (front : Cleared first second) (back : Cleared second third) :
    Cleared first third :=
  forall₂_trans front back Clears.trans

theorem cleared_map (clears : ∀ data, Clears data (change data)) (tabs : List TabContentsData) :
    Cleared tabs (tabs.map change) := by
  rw [Cleared, forall₂_map_right_iff, forall₂_same]
  exact fun data _ => clears data

theorem cleared_modify (clears : ∀ data, Clears data (change data)) (i : Nat) :
    Cleared tabs (tabs.modify i change) := by
  induction tabs generalizing i with
  | nil => cases i <;> exact cleared_refl []
  | cons data tabs ih =>
    cases i with
    | zero => exact .cons (clears data) (cleared_refl tabs)
    | succ i => exact .cons (.refl data) (ih i)

section

variable (cleared : Cleared before after)
include cleared

theorem Cleared.map_eq {read : TabContentsData -> β}
    (same : ∀ {before after}, Clears before after -> read after = read before) :
    after.map read = before.map read :=
  map_eq_of_forall₂ cleared same

theorem Cleared.length_eq : after.length = before.length := (Forall₂.length_eq cleared).symm

theorem Cleared.mem (mem : data ∈ after) : ∃ original ∈ before, Clears original data :=
  mem_left_of_forall₂ cleared mem

theorem Cleared.contents_eq : after.map contents = before.map contents :=
  cleared.map_eq Clears.contents

theorem Cleared.controller_eq : after.map controller = before.map controller := by
  apply cleared.map_eq
  intro before after clears
  rw [controller, controller, clears.contents]

theorem Cleared.countP_isMini : after.countP isMini = before.countP isMini := by
  have same := congrArg (countP id) (cleared.map_eq Clears.isMini)
  rwa [countP_map, countP_map] at same

end

theorem RefersTo.of_clears
    {original data : TabContentsData} {reference : TabContentsData -> Option Nat}
    (refers : RefersTo before original (reference original))
    (same : after.map controller = before.map controller)
    (contents : data.contents = original.contents)
    (cleared : reference data = none ∨ reference data = reference original) :
    RefersTo after data (reference data) := by
  rcases cleared with isNone | isSame
  · rw [isNone]
    exact refersTo_none
  · rw [isSame]
    intro tab isTab
    rw [same, controller, contents]
    exact refers tab isTab

theorem Ordered.of_cleared (ordered : Ordered before) (cleared : Cleared before after) :
    Ordered after where
  mini := ordered.mini.of_map_eq (cleared.map_eq Clears.isMini)
  distinct := by
    rw [cleared.controller_eq]
    exact ordered.distinct
  opener := by
    intro data mem
    obtain ⟨original, isOriginal, clears⟩ := cleared.mem mem
    exact RefersTo.of_clears (ordered.opener original isOriginal)
      cleared.controller_eq clears.contents clears.opener
  group := by
    intro data mem
    obtain ⟨original, isOriginal, clears⟩ := cleared.mem mem
    exact RefersTo.of_clears (ordered.group original isOriginal)
      cleared.controller_eq clears.contents clears.group

theorem clears_forgetOpener (data : TabContentsData) : Clears data data.forgetOpener :=
  ⟨rfl, rfl, .inl rfl, .inr rfl⟩

theorem clears_setGroup_none (data : TabContentsData) : Clears data (data.setGroup none) :=
  ⟨rfl, rfl, .inl rfl, .inl rfl⟩

theorem clears_forgetReferencing (tab : Nat) (data : TabContentsData) :
    Clears data (TabStripModel.forgetReferencing tab data) where
  contents := rfl
  pinned := rfl
  opener := by
    dsimp only [TabStripModel.forgetReferencing]
    split_ifs
    · exact .inl rfl
    · exact .inr rfl
  group := by
    dsimp only [TabStripModel.forgetReferencing]
    split_ifs
    · exact .inl rfl
    · exact .inr rfl

theorem RefersTo.mono (refers : RefersTo before data reference)
    (subset : ∀ tab ∈ before.map controller, tab ∈ after.map controller) :
    RefersTo after data reference :=
  fun tab isTab => ⟨(refers tab isTab).1, subset tab (refers tab isTab).2⟩

/-- Inserting a new tab, opened by a tab of the strip or by none. -/
theorem Ordered.insertIdx (ordered : Ordered tabs) (inside : index <= tabs.length)
    (front : data.isMini = true -> index <= tabs.countP isMini)
    (back : data.isMini = false -> tabs.countP isMini <= index)
    (new_ : data.controller ∉ tabs.map controller) (opener : RefersTo tabs data data.opener)
    (group : RefersTo tabs data data.group) :
    Ordered (tabs.insertIdx index data) := by
  have perm := perm_insertIdx data tabs inside
  have controllers := perm.map controller
  have subset : ∀ tab ∈ tabs.map controller, tab ∈ (tabs.insertIdx index data).map controller := by
    intro tab isTab
    exact controllers.mem_iff.mpr (mem_cons_of_mem _ isTab)
  refine ⟨ordered.mini.insertIdx front back, ?_, ?_, ?_⟩
  · rw [controllers.nodup_iff, map_cons, nodup_cons]
    exact ⟨new_, ordered.distinct⟩
  · intro other mem
    rcases mem_cons.mp (perm.mem_iff.mp mem) with rfl | inTabs
    · exact opener.mono subset
    · exact (ordered.opener other inTabs).mono subset
  · intro other mem
    rcases mem_cons.mp (perm.mem_iff.mp mem) with rfl | inTabs
    · exact group.mono subset
    · exact (ordered.group other inTabs).mono subset

theorem perm_getElem_eraseIdx (lt : index < tabs.length) :
    tabs.Perm (tabs[index] :: tabs.eraseIdx index) := by
  have perm := perm_insertIdx tabs[index] (tabs.eraseIdx index)
    (show index <= (tabs.eraseIdx index).length by
      rw [length_eraseIdx_of_lt lt]
      omega)
  rwa [insertIdx_eraseIdx_getElem lt] at perm

theorem not_refers_forgetReferencing :
    (TabStripModel.forgetReferencing tab data).opener ≠ some tab ∧
      (TabStripModel.forgetReferencing tab data).group ≠ some tab := by
  dsimp only [TabStripModel.forgetReferencing]
  constructor
  · split_ifs with isTab
    · exact Option.some_ne_none tab |>.symm
    · exact isTab
  · split_ifs with isTab
    · exact Option.some_ne_none tab |>.symm
    · exact isTab

/-- A reference to a tab that stays is kept when another is detached. -/
theorem RefersTo.detach (lt : index < tabs.length) (refers : RefersTo tabs data reference)
    (other : reference ≠ some tabs[index].controller) :
    RefersTo (tabs.eraseIdx index) data reference := by
  intro tab isTab
  refine ⟨(refers tab isTab).1, ?_⟩
  have mem := ((perm_getElem_eraseIdx lt).map controller).mem_iff.mp (refers tab isTab).2
  rw [map_cons, mem_cons] at mem
  refine mem.resolve_left ?_
  rintro rfl
  exact other isTab

theorem Ordered.detach (ordered : Ordered tabs) (lt : index < tabs.length) :
    Ordered ((tabs.eraseIdx index).map
      (TabStripModel.forgetReferencing tabs[index].controller)) := by
  have cleared := cleared_map
    (clears_forgetReferencing tabs[index].controller) (tabs.eraseIdx index)
  refine ⟨?_, ?_, ?_, ?_⟩
  · exact (ordered.mini.eraseIdx index).of_map_eq (cleared.map_eq Clears.isMini)
  · rw [cleared.controller_eq, ← eraseIdx_map]
    exact ordered.distinct.eraseIdx index
  · intro data mem
    obtain ⟨original, isOriginal, rfl⟩ := List.mem_map.mp mem
    have refers := ordered.opener original (mem_of_mem_eraseIdx isOriginal)
    have kept := @RefersTo.of_clears tabs tabs original
      (TabStripModel.forgetReferencing tabs[index].controller original)
      TabContentsData.opener refers rfl rfl
      (clears_forgetReferencing tabs[index].controller original).opener
    exact (kept.detach lt not_refers_forgetReferencing.1).mono
      fun tab isTab => cleared.controller_eq.symm ▸ isTab
  · intro data mem
    obtain ⟨original, isOriginal, rfl⟩ := List.mem_map.mp mem
    have refers := ordered.group original (mem_of_mem_eraseIdx isOriginal)
    have kept := @RefersTo.of_clears tabs tabs original
      (TabStripModel.forgetReferencing tabs[index].controller original)
      TabContentsData.group refers rfl rfl
      (clears_forgetReferencing tabs[index].controller original).group
    exact (kept.detach lt not_refers_forgetReferencing.2).mono
      fun tab isTab => cleared.controller_eq.symm ▸ isTab

/-- A tab is moved, or pinned and moved. -/
theorem Ordered.shift (ordered : Ordered tabs)
    (lt : index < tabs.length) (toInside : to_position < tabs.length)
    (contents : data.contents = tabs[index].contents) (opener : data.opener = tabs[index].opener)
    (group : data.group = tabs[index].group)
    (front : data.isMini = true -> to_position <= (tabs.eraseIdx index).countP isMini)
    (back : data.isMini = false -> (tabs.eraseIdx index).countP isMini <= to_position) :
    Ordered ((tabs.eraseIdx index).insertIdx to_position data) := by
  have len := length_eraseIdx_of_lt lt
  have perm := perm_insertIdx data (tabs.eraseIdx index)
    (show to_position <= (tabs.eraseIdx index).length by omega)
  have original := perm_getElem_eraseIdx lt
  have sameController : data.controller = tabs[index].controller :=
    congrArg TabContentsWrapper.controller contents
  have controllers : ((tabs.eraseIdx index).insertIdx to_position data).map
      controller |>.Perm (tabs.map controller) := by
    refine (perm.map controller).trans (.trans ?_ (original.map controller).symm)
    rw [map_cons, map_cons, sameController]
  have subset : ∀ tab ∈ tabs.map controller,
      tab ∈ ((tabs.eraseIdx index).insertIdx to_position data).map controller :=
    fun tab isTab => controllers.mem_iff.mpr isTab
  refine ⟨(ordered.mini.eraseIdx index).insertIdx front back,
    controllers.nodup_iff.mpr ordered.distinct, ?_, ?_⟩
  · intro other mem
    rcases mem_cons.mp (perm.mem_iff.mp mem) with rfl | inTabs
    · have refers := ordered.opener _ (getElem_mem lt)
      rw [opener]
      exact RefersTo.mono (fun tab isTab => sameController ▸ refers tab isTab) subset
    · exact (ordered.opener other (mem_of_mem_eraseIdx inTabs)).mono subset
  · intro other mem
    rcases mem_cons.mp (perm.mem_iff.mp mem) with rfl | inTabs
    · have refers := ordered.group _ (getElem_mem lt)
      rw [group]
      exact RefersTo.mono (fun tab isTab => sameController ▸ refers tab isTab) subset
    · exact (ordered.group other (mem_of_mem_eraseIdx inTabs)).mono subset

/-- The tabs of the strip are those that were in it. -/
theorem shift_contents_perm (lt : index < tabs.length) (toInside : to_position < tabs.length)
    (same : data.contents = tabs[index].contents) :
    (((tabs.eraseIdx index).insertIdx to_position data).map contents).Perm (tabs.map contents) := by
  have len := length_eraseIdx_of_lt lt
  have perm := perm_insertIdx data (tabs.eraseIdx index)
    (show to_position <= (tabs.eraseIdx index).length by omega)
  refine (perm.map contents).trans (.trans ?_ ((perm_getElem_eraseIdx lt).map contents).symm)
  rw [map_cons, map_cons, same]

theorem shift_length (lt : index < tabs.length) (toInside : to_position < tabs.length)
    (data : TabContentsData) :
    ((tabs.eraseIdx index).insertIdx to_position data).length = tabs.length := by
  have len := length_eraseIdx_of_lt lt
  rw [length_insertIdx_of_le_length (by omega), len]
  omega

end

end Chromium.Browser
