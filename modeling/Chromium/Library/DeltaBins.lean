import Mathlib.Data.List.Basic

/-!
# Sequences coded by differences in bins

A bin codes the values reached from a base by a list of differences. A list
of bins is stored in two arrays: the differences of all bins, one bin after
another, and for each bin its base with the place of its first difference.
-/

namespace Chromium.Library

open List

/-- A base and the differences that lead from it to the next values. -/
structure Bin (α δ : Type*) where
  base : α
  deltas : List δ

namespace Bin

variable {α δ : Type*} (advance : α -> δ -> α)

/-- The values of a bin, its base first. -/
def values (bin : Bin α δ) : List α := bin.deltas.scanl advance bin.base

/-- The values of a list of bins. -/
def represented (bins : List (Bin α δ)) : List α := bins.flatMap (values advance)

/-- The differences of a list of bins. -/
def allDeltas (bins : List (Bin α δ)) : List δ := bins.flatMap Bin.deltas

/-- The base of each bin with the place of its first difference, the first
bin's differences standing at a given place. -/
def starts : Nat -> List (Bin α δ) -> List (α × Nat)
  | _, [] => []
  | place, bin :: bins => (bin.base, place) :: starts (place + bin.deltas.length) bins

section

variable (bin : Bin α δ)

@[simp] theorem length_values : (bin.values advance).length = bin.deltas.length + 1 := by
  simp [values]

theorem base_mem_values : bin.base ∈ bin.values advance := by
  obtain ⟨base, deltas⟩ := bin
  cases deltas <;> simp [values]

/-- One more difference adds one more value. -/
theorem values_snoc (base : α) (deltas : List δ) (delta : δ) :
    values advance ⟨base, deltas ++ [delta]⟩ = values advance ⟨base, deltas⟩ ++
        [advance (deltas.foldl advance base) delta] := by
  simp [values, scanl_append]

theorem getLast?_values :
    (bin.values advance).getLast? = some (bin.deltas.foldl advance bin.base) := by
  simp [values, getLast?_scanl]

/-- Each value after the base is reached from the one before it by the
difference between them. -/
theorem values_step (lt : index < bin.deltas.length) :
    ∃ val, (bin.values advance)[index]? = some val ∧
      (bin.values advance)[index + 1]? = some (advance val bin.deltas[index]) := by
  refine ⟨(bin.deltas.take index).foldl advance bin.base, ?_, ?_⟩
  · rw [values, List.getElem?_scanl, if_pos (Nat.le_of_lt lt)]
  · rw [values, List.getElem?_scanl, if_pos (Nat.succ_le_of_lt lt), take_add_one,
      List.getElem?_eq_getElem lt, Option.toList_some,
      foldl_append]
    rfl

@[simp] theorem represented_append (front back : List (Bin α δ)) :
    represented advance (front ++ back) = represented advance front ++ represented advance back :=
  flatMap_append

@[simp] theorem represented_cons (bins : List (Bin α δ)) :
    represented advance (bin :: bins) = bin.values advance ++ represented advance bins :=
  flatMap_cons

@[simp] theorem represented_nil : represented advance ([] : List (Bin α δ)) = [] := flatMap_nil

@[simp] theorem allDeltas_append (front back : List (Bin α δ)) :
    allDeltas (front ++ back) = allDeltas front ++ allDeltas back :=
  flatMap_append

@[simp] theorem allDeltas_cons : allDeltas (bin :: bins) = bin.deltas ++ allDeltas bins :=
  flatMap_cons

end

@[simp] theorem allDeltas_nil : allDeltas ([] : List (Bin α δ)) = [] := flatMap_nil

/-- Every bin stands for one value more than it has differences. -/
theorem length_represented :
    (represented advance bins).length = bins.length + (allDeltas bins).length := by
  induction bins with
  | nil => rfl
  | cons bin bins ih =>
    simp only [represented_cons, allDeltas_cons, length_append, length_cons, length_values, ih]
    omega

variable (place : Nat)

@[simp] theorem starts_nil : starts place ([] : List (Bin α δ)) = [] := rfl

@[simp] theorem length_starts : (starts place bins).length = bins.length := by
  induction bins generalizing place with
  | nil => rfl
  | cons bin bins ih => simp [starts, ih]

theorem starts_append (front back : List (Bin α δ)) :
    starts place (front ++ back) = starts place front ++
        starts (place + (allDeltas front).length) back := by
  induction front generalizing place with
  | nil => simp
  | cons bin front ih => simp [starts, ih, Nat.add_assoc]

/-- The entry of the bin after a list of bins. -/
theorem getElem?_starts_append (front back : List (Bin α δ)) :
    (starts 0 (front ++ back))[front.length]? =
      back.head?.map fun bin => (bin.base, (allDeltas front).length) := by
  rw [starts_append, List.getElem?_append_right (by simp)]
  cases back <;> simp [starts]

/-- A search that looks at bases only finds the same place in the index as
in the list of bins. -/
theorem findIdx_starts (test : α -> Bool) (place : Nat) (bins : List (Bin α δ)) :
    ((starts place bins).findIdx fun entry => test entry.1) =
      bins.findIdx fun bin => test bin.base := by
  induction bins generalizing place with
  | nil => rfl
  | cons bin bins ih => simp only [starts, findIdx_cons, ih]

/-- The last bin's differences do not show in the index. -/
theorem starts_snoc_deltas (bins : List (Bin α δ)) (base : α) (deltas : List δ) :
    starts place (bins ++ [⟨base, deltas⟩]) = starts place (bins ++ [⟨base, others⟩]) := by
  simp [starts_append, starts]

end Bin

end Chromium.Library
