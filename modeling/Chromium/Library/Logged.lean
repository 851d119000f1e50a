import Mathlib.Data.List.GetD

/-!
# Programs with logged writes

A program changes a state and logs the state that each of its persistent
writes leaves. The states a stop of the process can leave behind are the
first state and the logged ones. A program is reasoned about with a
condition for its crash states next to the one for its end, in the manner of
a crash Hoare logic.
-/

namespace Chromium.Library

/-- What a program leaves: its value, its last state, and the state after
each of its persistent writes. -/
structure Outcome (σ α : Type) where
  value : α
  final : σ
  written : List σ

/-- A program over states `σ` with a value in `α`. -/
structure Logged (σ α : Type) where
  run : σ -> Outcome σ α

namespace Logged

/-- A program that only reads the state. -/
def read (get : σ -> α) : Logged σ α where
  run state := ⟨get state, state, []⟩

/-- Change the state without a persistent write. -/
def modify (change : σ -> σ) : Logged σ Unit where
  run state := ⟨(), change state, []⟩

/-- Perform one atomic persistent write. -/
def persist (change : σ -> σ) : Logged σ Unit where
  run state := ⟨(), change state, [change state]⟩

instance : Monad (Logged σ) where
  pure value := ⟨fun state => ⟨value, state, []⟩⟩
  bind prog next := ⟨fun state =>
    let first := prog.run state
    let second := (next first.value).run first.final
    ⟨second.value, second.final, first.written ++ second.written⟩⟩

/-- The state a stop after a number of persistent writes leaves, which is the
last state when the program makes no more writes. -/
def stopped (prog : Logged σ α) (state : σ) (writes : Nat) : σ :=
  (state :: (prog.run state).written).getD writes (prog.run state).final

section Evaluation

variable (state : σ)

@[simp] theorem read_run (get : σ -> α) : (read get).run s = ⟨get s, s, []⟩ := rfl

@[simp] theorem modify_run (change : σ -> σ) : (modify change).run s = ⟨(), change s, []⟩ :=
  rfl

@[simp] theorem persist_run (change : σ -> σ) :
    (persist change).run s = ⟨(), change s, [change s]⟩ :=
  rfl

@[simp] theorem pure_run : (pure val : Logged σ α).run s = ⟨val, s, []⟩ :=
  rfl

@[simp] theorem bind_run (next : α -> Logged σ β) : (prog >>= next).run state =
      ⟨((next (prog.run state).value).run (prog.run state).final).value,
        ((next (prog.run state).value).run (prog.run state).final).final,
        (prog.run state).written ++ ((next (prog.run state).value).run
            (prog.run state).final).written⟩ :=
  rfl

@[simp] theorem ite_run (condition : Prop) [Decidable condition] (no : Logged σ α) :
    (if condition then yes else no).run state =
      if condition then yes.run state else no.run state := by
  split <;> rfl

@[simp] theorem stopped_zero (prog : Logged σ α) : prog.stopped state 0 = state := rfl

end Evaluation

/-- From a state, every persistent write of a program leaves a state with the
crash condition, and its value and last state satisfy the postcondition. -/
structure Satisfies (prog : Logged σ α) (state : σ) (crash : σ -> Prop)
    (post : α -> σ -> Prop) : Prop where
  written : ∀ left ∈ (prog.run state).written, crash left
  final : post (prog.run state).value (prog.run state).final

namespace Satisfies

theorem pure (inv : post value state) : Satisfies (Pure.pure value) state crash post :=
  ⟨by simp, inv⟩

theorem read {get : σ -> α} (inv : post (get state) state) :
    Satisfies (Logged.read get) state crash post :=
  ⟨by simp, inv⟩

theorem persist (safe : crash (change state)) (inv : post () (change state)) :
    Satisfies (Logged.persist change) state crash post :=
  ⟨by simpa using safe, inv⟩

/-- Programs are reasoned about one after the other. -/
theorem bind (first : Satisfies prog state crash fun val left =>
      Satisfies (next val) left crash post) :
    Satisfies (prog >>= next) state crash post where
  written := by
    intro left mem
    rcases List.mem_append.mp mem with early | late
    · exact first.written left early
    · exact first.final.written left late
  final := first.final.final

theorem imp (satisfied : Satisfies prog state crash post)
    (weakerCrash : ∀ left, crash left -> crash' left)
    (weakerPost : ∀ val left, post val left -> post' val left) :
    Satisfies prog state crash' post' where
  written := fun left mem => weakerCrash left (satisfied.written left mem)
  final := weakerPost _ _ satisfied.final

/-- A loop over the indices below a count keeps an indexed invariant. -/
theorem forM_range (invariant : Nat -> σ -> Prop)
    (keeps : ∀ i < n, ∀ left, invariant i left ->
      Satisfies (body i) left crash fun _ => invariant (i + 1))
    (start : invariant 0 s) :
    Satisfies ((List.range n).forM body) s crash fun _ => invariant n := by
  have remaining : ∀ len first s, first + len = n -> invariant first s ->
      Satisfies ((List.range' first len).forM body) s crash fun _ => invariant n := by
    intro len
    induction len with
    | zero =>
      intro first s reached inv
      rw [← reached]
      exact .pure inv
    | succ len ih =>
      intro first s reached inv
      apply Satisfies.bind
      have once := keeps first (by omega) s inv
      exact ⟨once.written, ih (first + 1) _ (by omega) once.final⟩
  rw [List.range_eq_range']
  exact remaining n 0 s (Nat.zero_add n) start

/-- A stop leaves the first state, a crash state or the last one. -/
theorem stopped (satisfied : Satisfies prog state crash post) (writes : Nat) :
    prog.stopped state writes = state ∨ crash (prog.stopped state writes) ∨
      prog.stopped state writes = (prog.run state).final := by
  unfold Logged.stopped
  cases writes with
  | zero => exact Or.inl rfl
  | succ writes =>
    rw [List.getD_cons_succ]
    by_cases inside : writes < (prog.run state).written.length
    · rw [List.getD_eq_getElem _ _ inside]
      exact Or.inr (Or.inl (satisfied.written _ (List.getElem_mem inside)))
    · rw [List.getD_eq_default _ _ (by omega)]
      exact Or.inr (Or.inr rfl)

end Satisfies

/-- From every state with a condition, every persistent write of a program and
its end leave a state with the condition. -/
def Keeps (prog : Logged σ α) (condition : σ -> Prop) : Prop :=
  ∀ state, condition state -> Satisfies prog state condition fun _ left => condition left

namespace Keeps

theorem pure (val : α) : Keeps (Pure.pure val) condition := fun _ inv => .pure inv

theorem persist (keeps : ∀ s, condition s -> condition (change s)) :
    Keeps (Logged.persist change) condition :=
  fun s inv => .persist (keeps s inv) (keeps s inv)

/-- Programs are reasoned about one after the other. -/
theorem bind (first : Keeps prog condition) (second : ∀ val, Keeps (next val) condition) :
    Keeps (prog >>= next) condition := by
  intro s inv
  apply Satisfies.bind
  apply (first s inv).imp
  · exact fun _ kept => kept
  · exact fun val left kept => second val left kept

/-- What is read is a value of a state with the condition. -/
theorem read_bind {get : σ -> α} (second : ∀ s, condition s ->
      Satisfies (next (get s)) s condition fun _ left => condition left) :
    Keeps (Logged.read get >>= next) condition :=
  fun s inv => .bind (.read (second s inv))

theorem forM (keeps : ∀ i ∈ indices, Keeps (body i) condition) :
    Keeps (List.forM indices body) condition := by
  induction indices with
  | nil => exact .pure _
  | cons i rest ih =>
    apply bind
    · exact keeps i List.mem_cons_self
    · intro _
      apply ih
      exact (List.forall_mem_cons.mp keeps).2

end Keeps

end Logged
end Chromium.Library
