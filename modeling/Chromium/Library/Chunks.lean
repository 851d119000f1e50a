import Mathlib.Data.List.Basic

/-!
# Aligned chunks in memory

A memory is a list of cells. Chunks lie in it one behind the other, each at the
next multiple of a unit, and a chunk can be added behind the last one.
-/

namespace Chromium.Library

open List Nat

/-- The least multiple of a unit that is not below a number. -/
def alignUp (unit number : Nat) : Nat := number + (unit - number % unit) % unit

section AlignUp

theorem le_alignUp (unit n : Nat) : n <= alignUp unit n := Nat.le_add_right _ _

theorem alignUp_of_dvd (whole : unit ∣ number) : alignUp unit number = number := by
  rw [alignUp, mod_eq_zero_of_dvd whole, Nat.sub_zero, Nat.mod_self, Nat.add_zero]

theorem alignUp_lt (pos : 0 < unit) (n : Nat) : alignUp unit n < n + unit :=
  Nat.add_lt_add_left (Nat.mod_lt _ pos) n

theorem dvd_alignUp (pos : 0 < unit) (n : Nat) : unit ∣ alignUp unit n := by
  rcases Nat.eq_zero_or_pos (n % unit) with whole | part
  · rw [alignUp_of_dvd (dvd_of_mod_eq_zero whole)]
    exact dvd_of_mod_eq_zero whole
  · have split := div_add_mod n unit
    have less := Nat.mod_lt n pos
    refine ⟨n / unit + 1, ?_⟩
    rw [alignUp, Nat.mod_eq_of_lt (Nat.sub_lt pos part), Nat.mul_succ]
    omega

theorem alignUp_add (whole : unit ∣ other) :
    alignUp unit (other + number) = other + alignUp unit number := by
  obtain ⟨times, rfl⟩ := whole
  rw [alignUp, alignUp, mul_add_mod, Nat.add_assoc]

theorem alignUp_le (pos : 0 < unit) (le : number <= other) (whole : unit ∣ other) :
    alignUp unit number <= other := by
  obtain ⟨times, isTimes⟩ := dvd_alignUp pos number
  obtain ⟨otherTimes, rfl⟩ := whole
  have less := alignUp_lt pos number
  rw [isTimes] at less ⊢
  apply Nat.mul_le_mul_left
  by_contra fewer
  have more : unit * (otherTimes + 1) <= unit * times :=
    Nat.mul_le_mul_left unit (Nat.lt_of_not_le fewer)
  rw [Nat.mul_succ] at more
  omega

end AlignUp

/-- The cells of a memory from a start on. -/
def slice (memory : List α) (start count : Nat) : List α := (memory.drop start).take count

/-- Write data over the cells from a start on. -/
def store (memory : List α) (start : Nat) (data : List α) : List α :=
  memory.take start ++ data ++ memory.drop (start + data.length)

section Slices

variable {memory data : List α} {start count other : Nat}

theorem getElem?_slice : (slice memory start count)[index]? =
      if index < count then memory[start + index]? else none := by
  rw [slice, getElem?_take, getElem?_drop]

theorem slice_slice (inside : start + count <= other) :
    slice (memory.take other) start count = slice memory start count := by
  apply ext_getElem?
  intro i
  rw [getElem?_slice, getElem?_slice]
  split_ifs with less
  · rw [getElem?_take_of_lt (by omega)]
  · rfl

section

variable (inside : start + data.length <= memory.length)
include inside

theorem length_store : (store memory start data).length = memory.length := by
  rw [store, length_append, length_append, length_take, length_drop]
  omega

theorem slice_store : slice (store memory start data) start data.length = data := by
  have before : (memory.take start).length = start := length_take_of_le (by omega)
  rw [slice, store, append_assoc, drop_left' before, take_left]

/-- A write leaves the cells apart from it unchanged. -/
theorem slice_store_of_apart (apart : other + count <= start ∨ start + data.length <= other) :
    slice (store memory start data) other count = slice memory other count := by
  have before : (memory.take start).length = start := length_take_of_le (by omega)
  apply ext_getElem?
  intro i
  rw [getElem?_slice, getElem?_slice]
  split_ifs with less
  · rw [store, append_assoc]
    rcases apart with front | back
    · rw [getElem?_append_left (by omega), getElem?_take_of_lt (by omega)]
    · rw [getElem?_append_right (by omega), getElem?_append_right (by omega), getElem?_drop]
      congr 1
      omega
  · rfl

end

end Slices

/-- Chunks lie in a memory from an offset on, each at the next multiple of the
unit, and the last one ends at an end. -/
def Packed (unit : Nat) (memory : List α) : Nat -> Nat -> List (List α) -> Prop
  | offset, end_, [] => alignUp unit end_ = offset
  | offset, end_, chunk :: rest =>
    offset + chunk.length <= end_ ∧ slice memory offset chunk.length = chunk ∧
        Packed unit memory (offset + alignUp unit chunk.length) end_ rest

namespace Packed

/-- Chunks lie in another memory with the same cells. -/
theorem congr (packed : Packed unit memory off end_ chunks)
    (same : ∀ start n, off <= start -> start + n <= end_ ->
      slice other start n = slice memory start n) :
    Packed unit other off end_ chunks := by
  induction chunks generalizing off with
  | nil => exact packed
  | cons chunk rest ih =>
    obtain ⟨fits, isChunk, packed⟩ := packed
    refine ⟨fits, ?_, ih packed ?_⟩
    · rw [same off chunk.length (Nat.le_refl _) fits, isChunk]
    · intro start n behind inside
      exact same start n (Nat.le_trans (Nat.le_add_right _ _) behind) inside

/-- A chunk is added behind the last one. -/
theorem snoc (packed : Packed unit memory offset end_ chunks) (pos : 0 < unit)
    (isChunk : slice memory (alignUp unit end_) chunk.length = chunk) :
    Packed unit memory offset (alignUp unit end_ + chunk.length) (chunks ++ [chunk]) := by
  induction chunks generalizing offset with
  | nil =>
    subst packed
    exact ⟨Nat.le_refl _, isChunk, alignUp_add (dvd_alignUp pos _)⟩
  | cons first rest ih =>
    obtain ⟨fits, isFirst, packed⟩ := packed
    refine ⟨?_, isFirst, ih packed⟩
    exact Nat.le_trans fits (Nat.le_trans (le_alignUp unit end_) (Nat.le_add_right _ _))

end Packed
end Chromium.Library
