import Mathlib.Data.List.Basic

/-!
# Stretches of positions

The positions from a start on that have a property, up to the first that has
not.
-/

namespace Chromium.Library

/-- The number of consecutive positions that have a property, among the given
number of positions from a start on. -/
def countWhile (P : Int -> Bool) (start : Int) : Nat -> Nat
  | 0 => 0
  | length + 1 => if P start then countWhile P (start + 1) length + 1 else 0

variable {P : Int -> Bool} {start : Int}

theorem countWhile_le (len : Nat) : countWhile P start len <= len := by
  induction len generalizing start with
  | zero => exact Nat.le_refl 0
  | succ len ih =>
    rw [countWhile]
    split
    · exact Nat.succ_le_succ ih
    · exact Nat.zero_le _

theorem countWhile_pos (inv : P start = true) (pos : 0 < len) :
    0 < countWhile P start len := by
  obtain ⟨len, rfl⟩ := Nat.exists_eq_succ_of_ne_zero (Nat.ne_of_gt pos)
  rw [countWhile, if_pos inv]
  exact Nat.succ_pos _

theorem countWhile_eq_zero (fails : P start = false) : countWhile P start length = 0 := by
  cases length with
  | zero => rfl
  | succ length => rw [countWhile, fails, if_neg Bool.false_ne_true]

/-- The counted positions have the property. -/
theorem property_of_lt_countWhile (lt : index < countWhile P start length) :
    P (start + index) = true := by
  induction length generalizing start index with
  | zero => exact absurd lt (Nat.not_lt_zero _)
  | succ length ih =>
    rw [countWhile] at lt
    split at lt
    next holds =>
      cases index with
      | zero => simpa using holds
      | succ index =>
        have next := ih (Nat.lt_of_succ_lt_succ lt)
        rwa [show start + ((index + 1 : Nat) : Int) = start + 1 + index by omega]
    · exact absurd lt (Nat.not_lt_zero _)

/-- The position behind them has not. -/
theorem property_countWhile (short : countWhile P start length < length) :
    P (start + countWhile P start length) = false := by
  induction length generalizing start with
  | zero => exact absurd short (Nat.not_lt_zero _)
  | succ length ih =>
    rw [countWhile] at short ⊢
    split
    next holds =>
      rw [if_pos holds] at short
      have next := @ih (start + 1) (Nat.lt_of_succ_lt_succ short)
      rwa [show start + ((countWhile P (start + 1) length + 1 :
          Nat) : Int) = start + 1 + countWhile P (start + 1) length
        by omega]
    next fails => simpa using fails

/-- Consecutive positions. -/
def positions (start : Int) : Nat -> List Int
  | 0 => []
  | length + 1 => start :: positions (start + 1) length

@[simp]
theorem length_positions (len : Nat) : (positions start len).length = len := by
  induction len generalizing start with
  | zero => rfl
  | succ len ih => rw [positions, List.length_cons, ih]

theorem positions_add : positions start (first + second) =
      positions start first ++ positions (start + first) second := by
  induction first generalizing start with
  | zero => simp [positions]
  | succ first ih =>
    rw [Nat.succ_add_eq_add_succ, Nat.add_succ, positions, positions, ih, List.cons_append]
    congr 3
    omega

theorem mem_positions (mem : pos ∈ positions start len) :
    ∃ i < len, pos = start + (i : Int) := by
  induction len generalizing start with
  | zero => exact absurd mem List.not_mem_nil
  | succ len ih =>
    rcases List.mem_cons.mp mem with rfl | later
    · exact ⟨0, Nat.succ_pos _, by simp⟩
    · obtain ⟨i, inside, rfl⟩ := ih later
      exact ⟨i + 1, Nat.succ_lt_succ inside, by omega⟩

end Chromium.Library
