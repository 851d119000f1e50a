import Mathlib.Data.List.Basic

/-!
# The last value written

Values are written to consecutive positions, each of which a placing assigns
to a cell. A cell that no other written position shares has the value last
written at its own position.
-/

namespace Chromium.Library

open List Function Nat

/-- Replace the values of a list from an offset on. -/
def overwrite (values : List α) (offset : Nat) (written : List α) : List α :=
  values.take offset ++ written ++ values.drop (offset + written.length)

theorem length_overwrite (fits : offset + written.length <= values.length) :
    (overwrite values offset written).length = values.length := by
  simp only [overwrite, length_append, length_take, length_drop]
  omega

theorem getElem?_overwrite_inside (fits : offset <= values.length)
    (lt : index < written.length) :
    (overwrite values offset written)[offset + index]? = written[index]? := by
  have front : (values.take offset).length = offset := length_take_of_le fits
  rw [overwrite, append_assoc, getElem?_append_right (by omega), front, Nat.add_sub_cancel_left,
    getElem?_append_left lt]

/-- The values in front of the written ones. -/
theorem getElem?_overwrite_before (fits : offset <= values.length) (before : index < offset) :
    (overwrite values offset written)[index]? = values[index]? := by
  have front : (values.take offset).length = offset := length_take_of_le fits
  rw [overwrite, append_assoc, getElem?_append_left (by omega), getElem?_take_of_lt before]

section Cells

variable [DecidableEq κ] (place : Int -> κ)

/-- Write values to the cells of consecutive positions. -/
def writeCells : (κ -> Option α) -> Int -> List α -> κ -> Option α
  | cells, _, [] => cells
  | cells, pos, value :: rest =>
    writeCells (Function.update cells (place pos) (some value)) (pos + 1) rest

theorem writeCells_append (cells : κ -> Option α) : writeCells place cells pos (first ++ second) =
      writeCells place (writeCells place cells pos first) (pos + first.length) second := by
  induction first generalizing cells pos with
  | nil => simp [writeCells]
  | cons value rest ih =>
    rw [cons_append, writeCells, ih, writeCells]
    congr 1
    rw [length_cons]
    omega

variable {values : List α}

/-- Cells of other positions keep their values. -/
theorem writeCells_other {place : Int -> κ}
    (other : ∀ i < values.length, place (pos + i) ≠ cell) :
    writeCells place cells pos values cell = cells cell := by
  induction values generalizing cells pos with
  | nil => rfl
  | cons value rest ih =>
    have first : place pos ≠ cell := by simpa using other 0 (succ_pos _)
    rw [writeCells, ih, update_of_ne first.symm]
    intro i inside
    have next := other (i + 1) (succ_lt_succ inside)
    rwa [show pos + ((i + 1 : Nat) : Int) = pos + 1 + i by omega] at next

/-- A cell has the value written at its position, if no later position of the
write shares the cell. -/
theorem writeCells_inside {place : Int -> κ} (lt : i < values.length)
    (alone : ∀ later < values.length, i < later -> place (pos + later) ≠ place (pos + i)) :
    writeCells place cells pos values (place (pos + i)) = values[i]? := by
  induction values generalizing cells pos i with
  | nil => exact absurd lt (Nat.not_lt_zero _)
  | cons value rest ih =>
    have shift : ∀ further : Nat, pos + ((further + 1 : Nat) : Int) = pos + 1 + further := by
      intro further
      omega
    cases i with
    | zero =>
      rw [writeCells, writeCells_other]
      · simp
      · intro later laterInside shared
        have apart := alone (later + 1) (succ_lt_succ laterInside) (succ_pos _)
        rw [shift later] at apart
        exact apart shared
    | succ i =>
      rw [writeCells, shift i, getElem?_cons_succ]
      apply ih (lt_of_succ_lt_succ lt)
      intro later laterInside behind
      have apart := alone (later + 1) (succ_lt_succ laterInside) (succ_lt_succ behind)
      rwa [shift later, shift i] at apart

/-- Where the written positions share no cell with a position, its cell has
what the position itself would have. -/
theorem writeCells_alone {place : Int -> κ} (same : cells (place target) = exact target)
    (alone : ∀ i < values.length, place (pos + i) = place target -> pos + i = target) :
    writeCells place cells pos values (place target) = writeCells id exact pos values target := by
  induction values generalizing cells exact pos with
  | nil => exact same
  | cons value rest ih =>
    apply ih
    · by_cases here : pos = target
      · subst here
        simp
      · have other : place pos ≠ place target := by
          intro shared
          have first := alone 0 (succ_pos _) (by simpa using shared)
          exact here (by simpa using first)
        rw [update_of_ne other.symm, id_eq, update_of_ne (Ne.symm here), same]
    · intro i inside shared
      have next := alone (i + 1) (succ_lt_succ inside)
      rw [show pos + ((i + 1 : Nat) : Int) = pos + 1 + i by omega] at next
      exact next shared

end Cells

end Chromium.Library
