import Chromium.VisitedLink.MasterTable

/-!
# When a resized table stays as it is

`ResizeTableIfNecessary` grows a table that is half full and shrinks one that
is a fifth full; `NewTableSizeForCount` aims at a third and takes the next
prime of its list. The loads are exact rationals here.
-/

namespace Chromium.VisitedLink.Resizing

open Master

/-- `ComputeTableLoad`, without rounding. -/
def tableLoad (tableLength : Nat) (usedItems : Int) : ℚ := usedItems / tableLength

/-- The new size that `ResizeTableIfNecessary` decides on, if it resizes. -/
def newSize? (tableLength : Nat) (usedItems : Int) : Option Nat :=
  let maxTableLoad : ℚ := 1 / 2
  let minTableLoad : ℚ := 1 / 5
  let load := tableLoad tableLength usedItems
  if load < maxTableLoad ∧ (tableLength <= kDefaultTableSize ∨ load > minTableLoad) then none
  else some (newTableSizeForCount usedItems)

/-- The lengths that the table takes from its default length on. -/
inductive Reachable : Nat -> Prop
  | default : Reachable kDefaultTableSize
  | resized {tableLength newLength : Nat} {usedItems : Int} (before : Reachable tableLength)
      (nonneg : 0 <= usedItems)
      (fits : usedItems <= tableLength)
      (desired : usedItems * 3 < 2 ^ 31)
      (decides : newSize? tableLength usedItems = some newLength) :
      Reachable newLength

/-- The load is within its limits: the table is less than half full, and more
than a fifth full unless it has the default length. -/
def WithinLimits (tableLength : Nat) (usedItems : Int) : Prop :=
  2 * usedItems < tableLength ∧ (tableLength <= kDefaultTableSize ∨ tableLength < 5 * usedItems)

instance (tableLength : Nat) (usedItems : Int) : Decidable (WithinLimits tableLength usedItems) :=
  inferInstanceAs (Decidable (_ ∧ _))

/-- A size of the list lies between three and five times the count, or the
default size is more than three times the count. -/
def HasRoomyPrime (usedItems : Int) : Prop :=
  3 * usedItems < kDefaultTableSize ∨
    ∃ size ∈ tableSizes, 3 * usedItems < size ∧ (size : Int) < 5 * usedItems

theorem newSize?_eq (pos : 0 < tableLength) (usedItems : Int) :
    (newSize? tableLength usedItems = none ↔ WithinLimits tableLength usedItems) ∧
    ∀ size, newSize? tableLength usedItems = some size ↔ ¬WithinLimits tableLength usedItems ∧
        size = newTableSizeForCount usedItems := by
  have positive' : (0 : ℚ) < tableLength := by exact_mod_cast pos
  have below : tableLoad tableLength usedItems < 1 / 2 ↔ 2 * usedItems < tableLength := by
    rw [tableLoad, div_lt_div_iff₀ positive' (by norm_num)]
    constructor
    · intro less
      have less' : usedItems * 2 < 1 * (tableLength : Int) := by exact_mod_cast less
      omega
    · intro less
      have less' : usedItems * 2 < 1 * (tableLength : Int) := by omega
      exact_mod_cast less'
  have above : tableLoad tableLength usedItems > 1 / 5 ↔ (tableLength : Int) < 5 * usedItems := by
    rw [tableLoad, gt_iff_lt, div_lt_div_iff₀ (by norm_num) positive']
    constructor
    · intro less
      have less' : 1 * (tableLength : Int) < usedItems * 5 := by exact_mod_cast less
      omega
    · intro less
      have less' : 1 * (tableLength : Int) < usedItems * 5 := by omega
      exact_mod_cast less'
  unfold newSize? WithinLimits
  simp only [below, above]
  split_ifs with within
  · simp [within]
  · simp [within, eq_comm]

variable {usedItems : Int}

section

variable (nonneg : 0 <= usedItems)
include nonneg

section

variable (desired : usedItems * 3 < 2 ^ 31)
include desired

/-- What the size for a count is, as long as three times the count fits. -/
theorem newTableSizeForCount_cases :
    (newTableSizeForCount usedItems ∈ tableSizes ∧ 3 * usedItems < newTableSizeForCount usedItems ∧
      ∀ size ∈ tableSizes, 3 * usedItems < size -> newTableSizeForCount usedItems <= size) ∨
    ((newTableSizeForCount usedItems : Int) = 2 * usedItems - 1 ∧
      ∀ size ∈ tableSizes, (size : Int) <= 3 * usedItems) := by
  have exact_desired : (usedItems * 3).bmod (2 ^ 32) = 3 * usedItems := by
    rw [Int.bmod_eq_of_le (by omega) (by omega)]
    omega
  have sorted : tableSizes.Pairwise (· <= ·) := by decide
  unfold newTableSizeForCount
  simp only [exact_desired]
  cases hit : tableSizes.find? fun size : Nat => decide (3 * usedItems < size) with
  | some size =>
    left
    refine ⟨List.mem_of_find?_eq_some hit, ?_, ?_⟩
    · simpa using List.find?_some hit
    · intro other mem larger
      obtain ⟨-, before, after, split, early⟩ := List.find?_eq_some_iff_append.mp hit
      rw [split] at mem sorted
      rcases List.mem_append.mp mem with earlier | later
      · have fails := early other earlier
        simp [larger] at fails
      · rcases List.mem_cons.mp later with rfl | later
        · exact le_refl other
        · have tail := (List.pairwise_append.mp sorted).2.1
          exact (List.pairwise_cons.mp tail).1 other later
  | none =>
    right
    have beyond : ∀ size ∈ tableSizes, (size : Int) <= 3 * usedItems := by
      intro size mem
      have none := List.find?_eq_none.mp hit size mem
      simpa using none
    refine ⟨?_, beyond⟩
    have large := beyond 16381 (by decide)
    simp only [Option.getD_none]
    omega

theorem lt_newTableSizeForCount : usedItems < newTableSizeForCount usedItems := by
  rcases newTableSizeForCount_cases nonneg desired with ⟨_, above, _⟩ | ⟨size, beyond⟩
  · omega
  · have large := beyond 16381 (by decide)
    omega

/-- The size for a count has its load within the limits exactly when there is
a prime with room for it. -/
theorem withinLimits_newTableSizeForCount :
    WithinLimits (newTableSizeForCount usedItems) usedItems ↔ HasRoomyPrime usedItems := by
  have default_mem : kDefaultTableSize ∈ tableSizes := by decide
  rcases newTableSizeForCount_cases nonneg desired with
    ⟨mem, above, least⟩ | ⟨size, beyond⟩
  · constructor
    · rintro ⟨-, small | large⟩
      · left
        omega
      · exact .inr ⟨_, mem, above, large⟩
    · rintro (small | ⟨other, otherMem, room, large⟩)
      · refine ⟨by omega, .inl ?_⟩
        exact least kDefaultTableSize default_mem small
      · have first := least other otherMem room
        refine ⟨by omega, .inr (by omega)⟩
  · constructor
    · rintro ⟨less, -⟩
      omega
    · rintro (small | ⟨other, otherMem, room, -⟩)
      · have large := beyond _ default_mem
        omega
      · have large := beyond other otherMem
        omega

theorem newTableSizeForCount_pos : 0 < newTableSizeForCount usedItems := by
  have larger := lt_newTableSizeForCount nonneg desired
  omega

end

end

theorem Reachable.pos (reachable : Reachable tableLength) : 0 < tableLength := by
  induction reachable with
  | default => decide
  | resized before nonneg fits desired decides ih =>
    rw [(((newSize?_eq ih _).2 _).mp decides).2]
    exact newTableSizeForCount_pos nonneg desired

/-- What is expected of a resize: room for the items, another length than
before, and no second resize. -/
def Settles (tableLength : Nat) (usedItems : Int) : Prop :=
  ∀ newLength : Nat, newSize? tableLength usedItems = some newLength ->
    usedItems < newLength ∧ newLength ≠ tableLength ∧ newSize? newLength usedItems = none

/-- A resize settles exactly when there is a prime with room for the items. -/
theorem settles_iff {tableLength : Nat} (reachable : Reachable tableLength) {usedItems : Int}
    (nonneg : 0 ≤ usedItems) (_fits : usedItems ≤ tableLength) (desired : usedItems * 3 < 2 ^ 31) :
    Settles tableLength usedItems ↔
      WithinLimits tableLength usedItems ∨ HasRoomyPrime usedItems := by
  have now := newSize?_eq reachable.pos usedItems
  have again := newSize?_eq (newTableSizeForCount_pos nonneg desired) usedItems
  have roomy := withinLimits_newTableSizeForCount nonneg desired
  constructor
  · intro settles
    by_cases within : WithinLimits tableLength usedItems
    · exact .inl within
    · right
      obtain ⟨-, -, settled⟩ := settles _ ((now.2 _).mpr ⟨within, rfl⟩)
      exact roomy.mp (again.1.mp settled)
  · intro holds newLength decides
    obtain ⟨without, rfl⟩ := (now.2 _).mp decides
    have settled := roomy.mpr (holds.resolve_left without)
    refine ⟨lt_newTableSizeForCount nonneg desired, ?_, again.1.mpr settled⟩
    intro same
    exact without (same ▸ settled)

/-- Half of the default table is used: the table grows and stays. -/
theorem settles_grown : Settles 16381 8191 :=
  (settles_iff .default (by decide) (by decide) (by decide)).mpr
    (.inr (.inr ⟨32767, by decide, by decide, by decide⟩))

/-- The lengths that two growing tables reach. -/
theorem reachable_65521 : Reachable 65521 := by
  have first : Reachable 32767 :=
    @Reachable.resized _ _ 8191 .default (by decide) (by decide) (by decide)
      (((newSize?_eq (by decide) _).2 _).mpr ⟨by decide, by decide⟩)
  exact @Reachable.resized _ _ 16384 first (by decide) (by decide) (by decide)
    (((newSize?_eq (by decide) _).2 _).mpr ⟨by decide, by decide⟩)

/-- A table of 65521 with 13000 items is too empty, and the size for 13000
items is 65521. -/
theorem not_settles : ¬∀ tableLength usedItems, Reachable tableLength -> 0 <= usedItems ->
      usedItems <= tableLength -> usedItems * 3 < 2 ^ 31 -> Settles tableLength usedItems := by
  intro claim
  have settles := claim 65521 13000 reachable_65521 (by decide) (by decide) (by decide)
  have decides : newSize? 65521 13000 = some 65521 :=
    ((newSize?_eq (by decide) _).2 _).mpr ⟨by decide, by decide⟩
  exact (settles 65521 decides).2.1 rfl

end Chromium.VisitedLink.Resizing
