import Mathlib.Data.List.Basic

/-!
# Tapes

A sequence of items with a cursor, some of the items in front of which are
retained.
-/

namespace Chromium.Library

structure Tape (α : Type) where
  stream : List α
  cursor : Nat
  retained : Nat
  retained_le : retained <= cursor
  cursor_le : cursor <= stream.length

namespace Tape

def empty : Tape α where
  stream := []
  cursor := 0
  retained := 0
  retained_le := Nat.le_refl _
  cursor_le := Nat.le_refl _

/-- The items behind the cursor. -/
def ahead (tape : Tape α) : List α := tape.stream.drop tape.cursor

/-- The retained items and those behind the cursor. -/
def window (tape : Tape α) : List α := tape.stream.drop (tape.cursor - tape.retained)

/-- A tape with more items at its end. -/
def append (tape : Tape α) (items : List α) : Tape α where
  stream := tape.stream ++ items
  cursor := tape.cursor
  retained := tape.retained
  retained_le := tape.retained_le
  cursor_le := by
    rw [List.length_append]
    exact Nat.le_add_right_of_le tape.cursor_le

/-- The cursor moves over items, some of which are retained. -/
structure Forward (tape next : Tape α) (count : Nat) : Prop where
  stream : next.stream = tape.stream
  cursor : next.cursor = tape.cursor + count
  retained : next.retained <= tape.retained + count

/-- The cursor moves back over retained items. -/
structure Back (tape next : Tape α) (count : Nat) : Prop where
  stream : next.stream = tape.stream
  cursor : next.cursor + count = tape.cursor
  retained : next.retained + count = tape.retained

variable {tape : Tape α}

theorem length_ahead : tape.ahead.length = tape.stream.length - tape.cursor := List.length_drop

theorem drop_window : tape.window.drop tape.retained = tape.ahead := by
  rw [window, ahead, List.drop_drop, Nat.sub_add_cancel tape.retained_le]

theorem append_window : (tape.append items).window = tape.window ++ items := by
  have inside : tape.cursor - tape.retained <= tape.stream.length :=
    Nat.le_trans (Nat.sub_le _ _) tape.cursor_le
  rw [window, append, List.drop_append_of_le_length inside, window]

theorem append_ahead : (tape.append items).ahead = tape.ahead ++ items := by
  rw [ahead, append, List.drop_append_of_le_length tape.cursor_le, ahead]

/-- The cursor moves over as many items as there are, and fewer are retained
than could be. -/
theorem exists_forward (enough : n ≤ tape.ahead.length) (fewer : kept ≤ tape.retained + n) :
    ∃ next : Tape α, Forward tape next n ∧ next.retained = kept ∧
      next.window = tape.window.drop (tape.retained + n - kept) ∧
      next.ahead = tape.ahead.drop n := by
  have within := tape.retained_le
  have inside := tape.cursor_le
  rw [length_ahead] at enough
  refine ⟨⟨tape.stream, tape.cursor + n, kept, by omega, by omega⟩,
    ⟨rfl, rfl, fewer⟩, rfl, ?_, ?_⟩
  · rw [window, window, List.drop_drop]
    dsimp only
    congr 1
    omega
  · rw [ahead, ahead, List.drop_drop]

theorem exists_back (enough : n <= tape.retained) :
    ∃ next : Tape α, Back tape next n ∧ next.window = tape.window ∧
      next.ahead.length = tape.ahead.length + n := by
  have within := tape.retained_le
  have inside := tape.cursor_le
  refine ⟨⟨tape.stream, tape.cursor - n, tape.retained - n,
    by omega, by omega⟩, ⟨rfl, ?_, ?_⟩, ?_, ?_⟩
  · dsimp only
    omega
  · dsimp only
    omega
  · rw [window, window]
    dsimp only
    congr 1
    omega
  · rw [length_ahead, length_ahead]
    dsimp only
    omega

end Tape
end Chromium.Library
