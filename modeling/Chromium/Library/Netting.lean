import Mathlib.Data.List.Basic
import Mathlib.Data.List.Count
import Mathlib.Data.List.TakeWhile
import Mathlib.Order.Lattice

/-!
# Compacting a list in place

A list is read from its start to its end while the elements to keep are
written back behind a lagging position. In the end the gap between the two
positions is erased.
-/

namespace Chromium.Library

open List

/-- A list under compaction: `kept` stands before the output position, `rest`
is still unread behind the input position. -/
structure Compacting (list : List α) (out input : Nat) (kept rest : List α) : Prop where
  kept_eq : list.take out = kept
  rest_eq : list.drop input = rest
  lags : out <= input

namespace Compacting

theorem start (list : List α) : Compacting list 0 0 [] list := ⟨rfl, rfl, Nat.le_refl 0⟩

/-- The element at the input position. -/
theorem read (compacting : Compacting list out input kept rest) : list[input]? = rest.head? := by
  rw [← compacting.rest_eq, List.head?_drop]

/-- An input position with something left to read. -/
theorem lt_length (compacting : Compacting list out input kept (element :: rest)) :
    input < list.length := by
  have hit := compacting.read
  exact (List.getElem?_eq_some_iff.mp hit).1

/-- The element at an input position. -/
theorem getElem_eq (compacting : Compacting list out input kept (element :: rest))
    (lt : input < list.length) :
    list[input] = element := by
  have hit := compacting.read
  rw [List.getElem?_eq_getElem lt] at hit
  exact Option.some.inj hit

/-- An input position with nothing left to read. -/
theorem length_le (compacting : Compacting list out input kept []) : list.length <= input := by
  have hit := compacting.read
  exact List.getElem?_eq_none_iff.mp hit

theorem keep (compacting : Compacting list out input kept (element :: rest)) :
    Compacting (list.set out element) (out + 1) (input + 1) (kept ++ [element]) rest := by
  have inside := compacting.lt_length
  obtain ⟨keptEq, restEq, lags⟩ := compacting
  have outInside : out < list.length := Nat.lt_of_le_of_lt lags inside
  rw [drop_eq_getElem_cons inside] at restEq
  injection restEq with _ tail
  refine ⟨?_, ?_, Nat.succ_le_succ lags⟩
  · rw [take_add_one, take_set_of_le (Nat.le_refl _), keptEq, List.getElem?_set_self outInside]
    rfl
  · rw [drop_set_of_lt (Nat.lt_succ_of_le lags), tail]

theorem skip (compacting : Compacting list out input kept (element :: rest)) :
    Compacting list out (input + 1) kept rest := by
  obtain ⟨keptEq, restEq, lags⟩ := compacting
  refine ⟨keptEq, ?_, Nat.le_succ_of_le lags⟩
  rw [← drop_drop, restEq, drop_one, tail_cons]

/-- Drop everything up to a later input position. -/
theorem jump (compacting : Compacting list out input kept rest) (further : input <= target) :
    Compacting list out target kept (list.drop target) :=
  ⟨compacting.kept_eq, rfl, Nat.le_trans compacting.lags further⟩

/-- Erasing the gap leaves what was kept and what was not read. -/
theorem erase (compacting : Compacting list out input kept rest) :
    list.take out ++ list.drop input = kept ++ rest := by
  rw [compacting.kept_eq, compacting.rest_eq]

end Compacting

/-!
## Parallel walks over sorted lists

Two lists sorted by a common key are walked in parallel. One walk strikes out
pairs of elements of the same key, the other removes from a list every element
whose key occurs in a list of removals.
-/

section

variable {α β κ : Type*} [LinearOrder κ]

/-- A list is sorted by a key. -/
def SortedBy (key : α -> κ) (list : List α) : Prop :=
  list.Pairwise fun left right => key left <= key right

/-- How many elements of a list have a key. -/
def keyCount (key : α -> κ) (list : List α) (wanted : κ) : Nat :=
  list.countP fun element => decide (key element = wanted)

@[simp] theorem keyCount_nil (key : α -> κ) : keyCount key [] wanted = 0 := rfl

@[simp] theorem keyCount_cons (key : α -> κ) : keyCount key (element :: list) wanted =
      keyCount key list wanted + if key element = wanted then 1 else 0 := by
  simp [keyCount, countP_cons]

theorem keyCount_pos {key : α -> κ} :
    0 < keyCount key list wanted ↔ ∃ element ∈ list, key element = wanted := by
  simp [keyCount, countP_pos_iff]

/-- A sorted list that starts above a key does not count it. -/
theorem keyCount_eq_zero {key : α -> κ} (sorted : SortedBy key (element :: list))
    (below : wanted < key element) :
    keyCount key (element :: list) wanted = 0 := by
  apply Nat.eq_zero_of_not_pos
  rw [keyCount_pos]
  rintro ⟨other, mem, rfl⟩
  rcases mem_cons.mp mem with rfl | later
  · exact lt_irrefl _ below
  · exact not_lt_of_ge ((pairwise_cons.mp sorted).1 other later) below

/-- What a walk leaves of the left list and of the right list, and the right
elements it struck out. -/
structure Netted (α β : Type*) where
  left : List α
  right : List β
  struck : List β

namespace Netted

/-- One more element is left of the left list. -/
def keepLeft (element : α) (netted : Netted α β) : Netted α β :=
  { netted with left := element :: netted.left }

/-- One more element is left of the right list. -/
def keepRight (element : β) (netted : Netted α β) : Netted α β :=
  { netted with right := element :: netted.right }

/-- One more pair is struck out. -/
def strike (element : β) (netted : Netted α β) : Netted α β :=
  { netted with struck := element :: netted.struck }

end Netted

/-- Strike out pairs of elements of the same key. -/
def strikeOut (keyLeft : α -> κ) (keyRight : β -> κ) : List α -> List β -> Netted α β
  | [], right => ⟨[], right, []⟩
  | left, [] => ⟨left, [], []⟩
  | x :: left, y :: right =>
    if keyLeft x < keyRight y then (strikeOut keyLeft keyRight left (y :: right)).keepLeft x
    else if keyRight y < keyLeft x then (strikeOut keyLeft keyRight (x :: left) right).keepRight y
    else (strikeOut keyLeft keyRight left right).strike y
termination_by left right => left.length + right.length

variable {keyRight : β -> κ}

/-- The walk only leaves elements it was given, in their order. -/
theorem strikeOut_sublist : (strikeOut keyLeft keyRight left right).left.Sublist left ∧
      (strikeOut keyLeft keyRight left right).right.Sublist right ∧
      (strikeOut keyLeft keyRight left right).struck.Sublist right := by
  fun_induction strikeOut keyLeft keyRight left right with
  | case1 right => simp
  | case2 left => simp
  | case3 x left y right less ih =>
    obtain ⟨leftSub, rightSub, struckSub⟩ := ih
    exact ⟨leftSub.cons_cons x, rightSub, struckSub⟩
  | case4 x left y right notLess greater ih =>
    obtain ⟨leftSub, rightSub, struckSub⟩ := ih
    exact ⟨leftSub, rightSub.cons_cons y, struckSub.cons y⟩
  | case5 x left y right notLess notGreater ih =>
    obtain ⟨leftSub, rightSub, struckSub⟩ := ih
    exact ⟨leftSub.cons x, rightSub.cons y, struckSub.cons_cons y⟩

/-- Of each key the walk leaves the excess of either list, and it strikes out
as many elements as both lists have. -/
theorem keyCount_strikeOut (leftSorted : SortedBy keyLeft left)
    (rightSorted : SortedBy keyRight right)
    (wanted : κ) :
    let netted := strikeOut keyLeft keyRight left right
    keyCount keyLeft netted.left wanted =
        keyCount keyLeft left wanted - keyCount keyRight right wanted ∧
      keyCount keyRight netted.right wanted =
        keyCount keyRight right wanted - keyCount keyLeft left wanted ∧
      keyCount keyRight netted.struck wanted =
        min (keyCount keyLeft left wanted) (keyCount keyRight right wanted) := by
  fun_induction strikeOut keyLeft keyRight left right with
  | case1 right => simp
  | case2 left => simp
  | case3 x left y right less ih =>
    obtain ⟨leftCount, rightCount, struckCount⟩ := ih leftSorted.of_cons rightSorted
    dsimp only [Netted.keepLeft]
    rw [keyCount_cons, keyCount_cons, leftCount, rightCount, struckCount]
    split
    · rename_i same
      have absent := keyCount_eq_zero rightSorted (same ▸ less)
      rw [absent]
      omega
    · simp
  | case4 x left y right notLess greater ih =>
    obtain ⟨leftCount, rightCount, struckCount⟩ := ih leftSorted rightSorted.of_cons
    dsimp only [Netted.keepRight]
    rw [keyCount_cons keyRight, keyCount_cons keyRight, leftCount, rightCount, struckCount]
    split
    · rename_i same
      have absent := keyCount_eq_zero leftSorted (same ▸ greater)
      rw [absent]
      omega
    · simp
  | case5 x left y right notLess notGreater ih =>
    obtain ⟨leftCount, rightCount, struckCount⟩ := ih leftSorted.of_cons rightSorted.of_cons
    have same : keyLeft x = keyRight y := le_antisymm (not_lt.mp notGreater) (not_lt.mp notLess)
    dsimp only [Netted.strike]
    rw [keyCount_cons, keyCount_cons, keyCount_cons, leftCount, rightCount, struckCount, same]
    split <;> omega

/-- Remove the elements whose key is among the removals. -/
def removeKeys (keyRemoval : α -> κ) (key : β -> κ) : List α -> List β -> List β
  | _, [] => []
  | [], list => list
  | removal :: removals, element :: list =>
    if key element < keyRemoval removal then
      element :: removeKeys keyRemoval key (removal :: removals) list
    else if keyRemoval removal < key element then
      removeKeys keyRemoval key removals (element :: list)
    else
      removeKeys keyRemoval key removals (list.dropWhile fun other =>
          !decide (keyRemoval removal < key other))
termination_by removals list => removals.length + list.length
decreasing_by
  all_goals simp_wf
  have := (List.dropWhile_suffix (l := list) fun other =>
    !decide (keyRemoval removal < key other)).length_le
  omega

variable {key : β -> κ}

/-- The elements of a list whose key is not among the removals. -/
def withoutKeys (keyRemoval : α -> κ) (key : β -> κ) (removals : List α) (list : List β) : List β :=
  list.filter fun element => decide (∀ removal ∈ removals, keyRemoval removal ≠ key element)

/-- A removal that no element of the list matches is irrelevant. -/
theorem withoutKeys_cons_of_lt (above : ∀ element ∈ list, keyRemoval removal < key element) :
    withoutKeys keyRemoval key (removal :: removals) list =
      withoutKeys keyRemoval key removals list := by
  apply filter_congr
  intro element mem
  have ne := ne_of_lt (above element mem)
  simp [ne]

/-- Sorted lists are walked once to remove the elements of all listed keys,
repeated or not. -/
theorem removeKeys_eq (removalsSorted : SortedBy keyRemoval removals) (sorted : SortedBy key list) :
    removeKeys keyRemoval key removals list = withoutKeys keyRemoval key removals list := by
  fun_induction removeKeys keyRemoval key removals list with
  | case1 removals => rfl
  | case2 list => rw [withoutKeys, filter_eq_self.mpr (by simp)]
  | case3 removal removals element list less ih =>
    have keeps : ∀ other ∈ removal :: removals, keyRemoval other ≠ key element := by
      intro other mem
      apply ne_of_gt
      rcases mem_cons.mp mem with rfl | later
      · exact less
      · exact lt_of_lt_of_le less ((pairwise_cons.mp removalsSorted).1 other later)
    rw [ih removalsSorted sorted.of_cons, withoutKeys,
      withoutKeys, filter_cons_of_pos (by simpa using keeps)]
  | case4 removal removals element list notLess greater ih =>
    rw [ih removalsSorted.of_cons sorted, withoutKeys_cons_of_lt]
    intro other mem
    rcases mem_cons.mp mem with rfl | later
    · exact greater
    · exact lt_of_lt_of_le greater ((pairwise_cons.mp sorted).1 other later)
  | case5 removal removals element list notLess notGreater ih =>
      obtain ⟨elementBelow, listSorted⟩ := pairwise_cons.mp sorted
      have same : keyRemoval removal = key element :=
        le_antisymm (not_lt.mp notLess) (not_lt.mp notGreater)
      let hit := fun other => !decide (keyRemoval removal < key other)
      have restSorted : SortedBy key (list.dropWhile hit) :=
        listSorted.sublist (dropWhile_sublist hit)
      -- What the inner loop skips has the key of the removal.
      have skipped : ∀ other ∈ list.takeWhile hit, keyRemoval removal = key other := by
        intro other mem
        have notAbove := mem_takeWhile_imp mem
        have atLeast := elementBelow other ((takeWhile_sublist hit).subset mem)
        apply le_antisymm (same ▸ atLeast)
        simpa [hit] using notAbove
      have above : ∀ other ∈ list.dropWhile hit, keyRemoval removal < key other := by
        intro other mem
        cases rest : list.dropWhile hit with
        | nil => rw [rest] at mem; exact absurd mem not_mem_nil
        | cons head tail =>
          have stops := List.head?_dropWhile_not hit list
          rw [rest] at stops mem restSorted
          have headAbove : keyRemoval removal < key head := by simpa [hit] using stops
          rcases mem_cons.mp mem with rfl | later
          · exact headAbove
          · exact lt_of_lt_of_le headAbove ((pairwise_cons.mp restSorted).1 other later)
      have dropped : withoutKeys keyRemoval key (removal :: removals)
            (element :: list.takeWhile hit) = [] := by
        rw [withoutKeys, filter_eq_nil_iff]
        intro other mem
        have matched : keyRemoval removal = key other := by
          rcases mem_cons.mp mem with rfl | later
          · exact same
          · exact skipped other later
        simp [matched]
      rw [ih removalsSorted.of_cons restSorted, ← withoutKeys_cons_of_lt above]
      conv_rhs => rw [← takeWhile_append_dropWhile (p := hit) (l := list)]
      rw [← cons_append, withoutKeys, withoutKeys, filter_append]
      rw [withoutKeys] at dropped
      rw [dropped, nil_append]

end

end Chromium.Library
