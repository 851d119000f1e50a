import Mathlib.Algebra.GroupWithZero.Nat
import Mathlib.Data.List.Basic
import Mathlib.Data.List.GetD

/-!
# Tilings of an interval of natural numbers

A list of blocks tiles an interval when each block is nonempty and starts
where its predecessor stops. Tilings concatenate, and the blocks of a tiling
are ordered, disjoint and inside the interval.
-/

namespace Chromium.Library

open List hiding count

/-- Two ranges, given by offset and size, do not overlap. -/
def Apart (left right : Nat × Nat) : Prop := left.1 + left.2 ≤ right.1 ∨ right.1 + right.2 ≤ left.1

instance (left right : Nat × Nat) : Decidable (Apart left right) :=
  inferInstanceAs (Decidable (_ ∨ _))

theorem Apart.symm (apart : Apart left right) : Apart right left := Or.symm apart

instance : Std.Symm Apart where
  symm _ _ := Apart.symm

/-- The blocks are nonempty and cover the interval from left to right. -/
def Tiles (offset size : β -> Nat) : Nat -> List β -> Nat -> Prop
  | first, [], last => first = last
  | first, block :: rest, last =>
    offset block = first ∧ 0 < size block ∧ Tiles offset size (first + size block) rest last

namespace Tiles

variable {offset size : β -> Nat}

@[simp] theorem nil_iff : Tiles offset size first [] last ↔ first = last := Iff.rfl

@[simp] theorem cons_iff : Tiles offset size first (block :: rest) last ↔
      offset block = first ∧ 0 < size block ∧
        Tiles offset size (first + size block) rest last := Iff.rfl

/-- Tilings of adjacent intervals concatenate, and split again. -/
theorem append_iff : Tiles offset size first (front ++ back) last ↔
      ∃ middle, Tiles offset size first front middle ∧ Tiles offset size middle back last := by
  induction front generalizing first with
  | nil => simp
  | cons block rest ih =>
    simp only [cons_append, cons_iff, ih]
    grind

variable {blocks : List β}

section

variable (tiles : Tiles offset size first blocks last)
include tiles

/-- A tiling is extended by a block at its end. -/
theorem concat (starts : offset block = last) (pos : 0 < size block) :
    Tiles offset size first (blocks ++ [block]) (last + size block) :=
  append_iff.mpr ⟨last, tiles, starts, pos, rfl⟩

/-- Tilings only depend on the offsets and sizes of the blocks. -/
theorem of_map_eq (same : others.map (fun block => (offset block, size block)) =
      blocks.map fun block => (offset block, size block)) :
    Tiles offset size first others last := by
  induction blocks generalizing first others with
  | nil =>
    rw [map_nil, map_eq_nil_iff] at same
    rw [same]
    exact tiles
  | cons block rest ih =>
    obtain ⟨starts, pos, restTiles⟩ := tiles
    rw [map_cons, map_eq_cons_iff] at same
    obtain ⟨other, later, rfl, equal, laterSame⟩ := same
    obtain ⟨sameOffset, sameSize⟩ := Prod.mk.injEq .. ▸ equal
    rw [← sameSize] at pos restTiles
    exact ⟨sameOffset.trans starts, pos, ih restTiles laterSame⟩

/-- A tiled interval is not reversed. -/
theorem le : first <= last := by
  induction blocks generalizing first with
  | nil => exact Nat.le_of_eq (nil_iff.mp tiles)
  | cons block rest ih =>
    have := ih tiles.2.2
    omega

end

/-- An empty interval is tiled by no blocks. -/
theorem eq_nil (tiles : Tiles offset size first blocks first) : blocks = [] := by
  cases blocks with
  | nil => rfl
  | cons block rest =>
    have := tiles.2.2.le
    have := tiles.2.1
    omega

section

variable (tiles : Tiles offset size first blocks last)
include tiles

/-- Every block lies inside the tiled interval. -/
theorem mem_bounds (mem : block ∈ blocks) :
    first <= offset block ∧ 0 < size block ∧ offset block + size block <= last := by
  obtain ⟨front, back, rfl⟩ := append_of_mem mem
  obtain ⟨middle, frontTiles, starts, pos, backTiles⟩ := append_iff.mp tiles
  have := frontTiles.le
  have := backTiles.le
  omega

/-- Every point of a tiled interval lies in a block. -/
theorem exists_cover (starts : first <= point) (lt : point < last) :
    ∃ block ∈ blocks, offset block <= point ∧ point < offset block + size block := by
  induction blocks generalizing first with
  | nil =>
    have := nil_iff.mp tiles
    omega
  | cons block rest ih =>
    obtain ⟨isFirst, -, restTiles⟩ := tiles
    by_cases here : point < first + size block
    · exact ⟨block, mem_cons_self, by omega, by omega⟩
    · obtain ⟨other, mem, covers⟩ := ih restTiles (Nat.le_of_not_lt here)
      exact ⟨other, mem_cons_of_mem _ mem, covers⟩

/-- Blocks are listed in increasing order without overlap. -/
theorem pairwise : blocks.Pairwise fun left right => offset left + size left <= offset right := by
  induction blocks generalizing first with
  | nil => exact .nil
  | cons block rest ih =>
    obtain ⟨starts, pos, restTiles⟩ := tiles
    refine .cons (fun other mem => ?_) (ih restTiles)
    have := (restTiles.mem_bounds mem).1
    omega

/-- Two blocks of a tiling are equal or do not overlap. -/
theorem eq_or_apart (left : one ∈ blocks) (right : other ∈ blocks) :
    one = other ∨ offset one + size one <= offset other ∨
      offset other + size other <= offset one := by
  obtain ⟨front, back, rfl⟩ := append_of_mem left
  have ordered := tiles.pairwise
  rw [pairwise_append, pairwise_cons] at ordered
  obtain ⟨_, ⟨after, _⟩, before⟩ := ordered
  rcases mem_append.mp right with inFront | inBack
  · exact Or.inr (Or.inr (before _ inFront _ mem_cons_self))
  · rcases mem_cons.mp inBack with same | later
    · exact Or.inl same.symm
    · exact Or.inr (Or.inl (after _ later))

/-- A block of a tiling is determined by any of its points. -/
theorem eq_of_overlap (left : one ∈ blocks) (right : other ∈ blocks)
    (inOne : offset one <= point ∧ point < offset one + size one)
    (inOther : offset other <= point ∧ point < offset other + size other) :
    one = other := by
  rcases tiles.eq_or_apart left right with same | apart | apart
  · exact same
  · omega
  · omega

end

end Tiles

/-!
## Memory as a function of cells

A memory gives each cell an entry. A list of entries is written to and read
from consecutive cells, and a write leaves the ranges apart from it unchanged.
-/

namespace Cells

variable (memory : Nat -> Nat)

/-- Write entries to consecutive cells. -/
def write (first : Nat) (entries : List Nat) : Nat -> Nat :=
  fun cell =>
    if first <= cell ∧ cell < first + entries.length then entries.getD (cell - first) 0
    else memory cell

/-- Read the entries of consecutive cells. -/
def read (first count : Nat) : List Nat :=
  (List.range count).map fun index => memory (first + index)

theorem read_write : read (write memory first entries) first entries.length = entries := by
  apply ext_getElem
  · simp [read]
  · intro i inside bound
    simp only [read, getElem_map, getElem_range, write]
    rw [if_pos ⟨by omega, by omega⟩, Nat.add_sub_cancel_left, getD_eq_getElem _ _ bound]

/-- Writing does not change what is read elsewhere. -/
theorem read_write_of_apart (entries : List Nat)
    (apart : Apart (first, entries.length) (other, n)) :
    read (write memory first entries) other n = read memory other n := by
  apply map_congr_left
  intro i inside
  rw [mem_range] at inside
  simp only [Apart] at apart
  rw [write, if_neg (by omega)]

/-- The first cell of a nonempty range is its first entry. -/
theorem read_succ (n : Nat) :
    read memory first (n + 1) = memory first :: read memory (first + 1) n := by
  unfold read
  rw [range_succ_eq_map, map_cons, List.map_map, Nat.add_zero]
  congr 1
  apply map_congr_left
  intro i _
  simp only [Function.comp_apply]
  congr 1
  omega

@[simp] theorem length_read (n : Nat) : (read memory first n).length = n := by
  simp [read]

end Cells

end Chromium.Library
