import Mathlib.Tactic.Common

/-!
# Loops

A loop is given by its turn, which goes on with a state or stops with a
result. What a loop ends with is a relation, that the loop run for some
number of turns computes.
-/

namespace Chromium.Library

/-- A loop, for at most `fuel` turns. -/
def runLoop (turn : σ -> σ ⊕ α) : Nat -> σ -> Option α
  | 0, _ => none
  | fuel + 1, state =>
    match turn state with
    | .inl next => runLoop turn fuel next
    | .inr result => some result

/-- The loop stops with a result. -/
inductive Ends (turn : σ -> σ ⊕ α) : σ -> α -> Prop
  | stop {state : σ} {result : α} (stops : turn state = .inr result) : Ends turn state result
  | next {state after : σ} {result : α} (goesOn : turn state = .inl after)
      (ends : Ends turn after result) :
      Ends turn state result

theorem ends_iff : Ends turn state result ↔ ∃ fuel, runLoop turn fuel state = some result := by
  constructor
  · intro ends
    induction ends with
    | stop stops => exact ⟨1, by rw [runLoop, stops]⟩
    | next goesOn _ ih =>
      obtain ⟨fuel, ran⟩ := ih
      exact ⟨fuel + 1, by rw [runLoop, goesOn]; exact ran⟩
  · rintro ⟨fuel, ran⟩
    induction fuel generalizing state with
    | zero => cases ran
    | succ fuel ih =>
      rw [runLoop] at ran
      cases turned : turn state with
      | inl after =>
        rw [turned] at ran
        exact .next turned (ih ran)
      | inr other =>
        rw [turned] at ran
        cases ran
        exact .stop turned

/-- A loop stops with one result only. -/
theorem Ends.unique (first : Ends turn state left) (second : Ends turn state right) :
    left = right := by
  induction first with
  | stop stops =>
    cases second with
    | stop stops' => exact Sum.inr.inj (stops.symm.trans stops')
    | next goesOn _ => cases stops.symm.trans goesOn
  | next goesOn _ ih =>
    cases second with
    | stop stops => cases goesOn.symm.trans stops
    | next goesOn' ends =>
      cases goesOn.symm.trans goesOn'
      exact ih ends

end Chromium.Library
