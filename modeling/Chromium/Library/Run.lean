import Mathlib.Logic.Basic

/-!
# Fallible computations
-/

namespace Chromium.Library

theorem map_ok (convert : α -> β) (val : α) :
    (Except.ok val : Except ε α).map convert = .ok (convert val) :=
  rfl

/-- A mapped computation succeeds exactly when the computation does. -/
theorem map_eq_ok_iff {computation : Except ε α} : computation.map convert = .ok result ↔
      ∃ val, computation = .ok val ∧ convert val = result := by
  cases computation with
  | error fault => simp [Except.map]
  | ok val => simp [Except.map]

/-!
## Runs of labelled transition systems

A step relation takes a state through a label to a state. A run performs a
list of labels in order. An invariant preserved by every step is preserved by
every run, and a step relation may be strengthened by a condition on the state
and label it starts from.
-/

/-- A finite run of a step relation, performing a list of labels in order. -/
inductive Run (step : σ -> ℓ -> σ -> Prop) : σ -> List ℓ -> σ -> Prop
  | nil (state : σ) : Run step state [] state
  | cons {first middle last : σ} {label : ℓ} {labels : List ℓ} : step first label middle ->
      Run step middle labels last ->
      Run step first (label :: labels) last

/-- Strengthen a step relation by a condition on its source and label. -/
def Guarded (condition : σ -> ℓ -> Prop) (step : σ -> ℓ -> σ -> Prop) : σ -> ℓ -> σ -> Prop :=
  fun first label last => condition first label ∧ step first label last

namespace Run

theorem single {step : σ -> ℓ -> σ -> Prop} (ran : step first label last) :
    Run step first [label] last :=
  .cons ran (.nil last)

/-- An invariant preserved by every step is preserved by every run. -/
theorem invariant (inv : σ -> Prop)
    (preserved : ∀ {first label last}, inv first -> step first label last -> inv last)
    (run : Run step first labels last) (start : inv first) :
    inv last := by
  induction run with
  | nil state => exact start
  | cons ran _ ih => exact ih (preserved start ran)

end Run

/-!
## Runs of partial step functions

A step function takes a state through a label to a state, or fails. What holds
in every state of a run is compared with a condition on its steps.
-/

section

variable (step : σ -> ℓ -> Option σ)

/-- Every step of a run meets a condition, as far as the run goes. -/
def Throughout (condition : σ -> ℓ -> Prop) : σ -> List ℓ -> Prop
  | _, [] => True
  | state, label :: labels =>
    condition state label ∧ ∀ next, step state label = some next -> Throughout condition next labels

/-- Every state that a run reaches has a property, as far as the run goes. -/
def Holding (P : σ -> Prop) : σ -> List ℓ -> Prop
  | state, [] => P state
  | state, label :: labels =>
    P state ∧ ∀ next, step state label = some next -> Holding P next labels

/-- No step of a run fails, and every state reached has a property. -/
def Always (P : σ -> Prop) : σ -> List ℓ -> Prop
  | state, [] => P state
  | state, label :: labels =>
    P state ∧ ∃ next, step state label = some next ∧ Always P next labels

variable {step : σ -> ℓ -> Option σ} {P kept : σ -> Prop}
  {permitted condition : σ -> ℓ -> Prop} {state : σ} {labels : List ℓ}

theorem throughout_of_none (fails : step state label = none) :
    Throughout step condition state (label :: labels) ↔ condition state label := by
  refine ⟨And.left, fun meets => ⟨meets, ?_⟩⟩
  intro next runs
  rw [fails] at runs
  cases runs

theorem throughout_of_some (runs : step state label = some next) :
    Throughout step condition state (label :: labels) ↔
      condition state label ∧ Throughout step condition next labels := by
  refine and_congr_right fun _ => ⟨fun rest => rest next runs, ?_⟩
  intro rest other performsOther
  rw [runs] at performsOther
  cases performsOther
  exact rest

instance decidableThroughout [∀ state label, Decidable (condition state label)] :
    ∀ state labels, Decidable (Throughout step condition state labels)
  | _, [] => isTrue trivial
  | state, label :: labels =>
    match runs : step state label with
    | none => decidable_of_iff _ (throughout_of_none runs).symm
    | some next =>
      have := decidableThroughout next labels
      decidable_of_iff _ (throughout_of_some runs).symm

theorem Always.head (always : Always step P state labels) : P state := by
  cases labels with
  | nil => exact always
  | cons label labels => exact always.1

/-- What every step that meets a condition keeps holds throughout a run whose
steps all meet it. -/
theorem holding_of_throughout (inv : ∀ {state}, kept state -> P state)
    (preserved : ∀ {state label next}, kept state -> condition state label ->
      step state label = some next -> kept next) (start : kept state)
    (meets : Throughout step condition state labels) :
    Holding step P state labels := by
  induction labels generalizing state with
  | nil => exact inv start
  | cons label labels ih =>
    refine ⟨inv start, ?_⟩
    intro next runs
    exact ih (preserved start meets.1 runs) (meets.2 next runs)

/-- What every step keeps holds throughout a run. -/
theorem holding_of_kept (inv : ∀ {state}, kept state -> P state)
    (preserved : ∀ {state label next}, kept state -> step state label = some next -> kept next)
    (start : kept state) :
    Holding step P state labels := by
  induction labels generalizing state with
  | nil => exact inv start
  | cons label labels ih =>
    exact ⟨inv start, fun next runs => ih (preserved start runs)⟩

/-- Conditions that agree on what every step keeps agree throughout a run. -/
theorem throughout_iff_of_kept
    (agree : ∀ {state label}, kept state -> (permitted state label ↔ condition state label))
    (preserved : ∀ {state label next}, kept state -> step state label = some next -> kept next)
    (start : kept state) :
    Throughout step permitted state labels ↔ Throughout step condition state labels := by
  induction labels generalizing state with
  | nil => exact Iff.rfl
  | cons label labels ih =>
    apply and_congr (agree start)
    refine forall_congr' fun next => ?_
    exact forall_congr' fun runs => ih (preserved start runs)

/-- A property that every step keeps holds at the end of a run. -/
theorem property_of_foldlM (preserved : ∀ {state label next}, P state ->
      step state label = some next -> P next)
    (ran : labels.foldlM step state = some last) (start : P state) :
    P last := by
  induction labels generalizing state with
  | nil =>
    cases ran
    exact start
  | cons label labels ih =>
    obtain ⟨next, runs, rest⟩ := Option.bind_eq_some_iff.mp ran
    exact ih rest (preserved start runs)

/-- A run of which a property always holds ends in a state with it. -/
theorem Always.last (always : Always step P s labels) :
    ∃ last, labels.foldlM step s = some last ∧ P last := by
  induction labels generalizing s with
  | nil => exact ⟨s, rfl, always⟩
  | cons label labels ih =>
    obtain ⟨-, next, runs, rest⟩ := always
    obtain ⟨last, reaches, inv⟩ := ih rest
    refine ⟨last, ?_, inv⟩
    rw [List.foldlM_cons, runs]
    exact reaches

/-- What every permitted step keeps if it meets a condition, and breaks if it
does not, holds always if every step meets it. -/
theorem always_iff_throughout (inv : ∀ {state}, kept state -> P state)
    (stays : ∀ {state label}, kept state -> permitted state label -> condition state label ->
      ∃ next, step state label = some next ∧ kept next)
    (breaks : ∀ {state label next}, kept state -> permitted state label ->
      ¬ condition state label → step state label = some next → ¬ P next) (start : kept state)
    (allPermitted : Throughout step permitted state labels) :
    Always step P state labels ↔ Throughout step condition state labels := by
  induction labels generalizing state with
  | nil => exact iff_of_true (inv start) trivial
  | cons label labels ih =>
    obtain ⟨isPermitted, restPermitted⟩ := allPermitted
    constructor
    · rintro ⟨-, next, runs, rest⟩
      have meets : condition state label := by
        apply Classical.byContradiction
        intro fails
        exact breaks start isPermitted fails runs rest.head
      obtain ⟨other, performsOther, otherKept⟩ := stays start isPermitted meets
      rw [runs] at performsOther
      cases performsOther
      refine ⟨meets, ?_⟩
      intro other performsOther
      rw [runs] at performsOther
      cases performsOther
      exact (ih otherKept (restPermitted next runs)).mp rest
    · rintro ⟨meets, restMeets⟩
      obtain ⟨next, runs, nextKept⟩ := stays start isPermitted meets
      exact ⟨inv start, next, runs,
        (ih nextKept (restPermitted next runs)).mpr (restMeets next runs)⟩

end

end Chromium.Library
