import Mathlib.Tactic.Common

/-!
# Memory fenced by tokens

A fence records for each byte the token that has to pass before the byte may
be used again. Closing a range fences its bytes behind a token, and observing
that tokens have passed lifts the fences that carry them.
-/

namespace Chromium.Library

/-- The token that each byte waits for, if any. -/
def Fence (τ : Type) : Type := Nat -> Option τ

namespace Fence

/-- No byte is fenced. -/
def clear : Fence τ := fun _ => none

/-- Fence the bytes of a range behind a token. -/
def close (fence : Fence τ) (first size : Nat) (token : τ) : Fence τ :=
  fun byte => if first <= byte ∧ byte < first + size then some token else fence byte

/-- Lift the fences whose token has passed. -/
def lift (fence : Fence τ) (passed : τ -> Bool) : Fence τ :=
  fun byte => (fence byte).filter fun token => !passed token

@[simp] theorem clear_apply : (clear : Fence τ) byte = none := rfl

theorem close_eq_some_iff {fence : Fence τ} : fence.close first size token byte = some other ↔
      (first <= byte ∧ byte < first + size ∧ token = other) ∨
        (¬(first <= byte ∧ byte < first + size) ∧ fence byte = some other) := by
  unfold close
  split <;> grind

theorem lift_eq_some_iff {fence : Fence τ} :
    fence.lift passed byte = some token ↔ fence byte = some token ∧ passed token = false := by
  simp [lift, Option.filter_eq_some_iff]

end Fence

end Chromium.Library
