import Mathlib.Data.Nat.Bitwise
import Mathlib.Data.Nat.Count

/-!
# Bitmaps of machine words

A bitmap is a vector of words, and its bits are numbered from the low bit of
its first word. A mask of consecutive ones sets or clears the bits of a range
that lies in one word. A tally counts the indices below a limit at which a
function takes a value.
-/

namespace Chromium.Library
namespace Bitmap

section

variable (map : Vector (BitVec w) count)

/-- A word of a bitmap, with zeros beyond its end. -/
def word (index : Nat) : BitVec w := map[index]?.getD 0

/-- A bit of a bitmap. -/
def bit (index : Nat) : Bool := (word map (index / w)).getLsbD (index % w)

/-- Consecutive ones from an offset on. -/
def mask (w ones offset : Nat) : BitVec w := ((1#w <<< ones) - 1#w) <<< offset

theorem word_set (lt : index < count) : word (map.setIfInBounds index value) other =
      if other = index then value else word map other := by
  unfold word
  rw [Vector.getElem?_setIfInBounds]
  split
  case isTrue same =>
    subst same
    simp
  case isFalse differ => rw [if_neg (Ne.symm differ)]

/-- The bits of a bitmap after one of its words was replaced. -/
theorem bit_set (lt : index < count) : bit (map.setIfInBounds index value) pos =
      if pos / w = index then value.getLsbD (pos % w)
      else bit map pos := by
  unfold bit
  rw [word_set map lt]
  split <;> rfl

end

theorem bit_replicate : bit (Vector.replicate count 0#w) pos = false := by
  unfold bit word
  rw [Vector.getElem?_replicate]
  split <;> simp

private theorem toNat_one_shiftLeft_sub_one (bound : ones < w) :
    ((1#w <<< ones) - 1#w) = BitVec.ofNat w (2 ^ ones - 1) := by
  have small : 2 ^ ones < 2 ^ w := Nat.pow_lt_pow_right (by decide) bound
  have pos : 0 < 2 ^ ones := Nat.two_pow_pos ones
  have shifted : (1#w <<< ones) = BitVec.ofNat w (2 ^ ones) := by
    apply BitVec.eq_of_toNat_eq
    rw [← BitVec.twoPow_eq, BitVec.toNat_twoPow, BitVec.toNat_ofNat]
  rw [shifted]
  apply BitVec.eq_of_toNat_eq
  have unit : (1#w).toNat = 1 := by rw [BitVec.toNat_ofNat, Nat.mod_eq_of_lt (by omega)]
  rw [BitVec.toNat_sub, unit, BitVec.toNat_ofNat, BitVec.toNat_ofNat,
    Nat.mod_eq_of_lt small, Nat.mod_eq_of_lt (show 2 ^ ones - 1 < _ by omega),
    show 2 ^ w - 1 + 2 ^ ones = 2 ^ ones - 1 + 2 ^ w by omega,
    Nat.add_mod_right, Nat.mod_eq_of_lt (by omega)]

/-- The bits of a mask are those of its range. -/
theorem getLsbD_mask (bound : ones < w) :
    (mask w ones offset).getLsbD pos = decide (pos < w ∧ offset <= pos ∧ pos < offset + ones) := by
  unfold mask
  rw [toNat_one_shiftLeft_sub_one bound, BitVec.getLsbD_shiftLeft,
    BitVec.getLsbD_ofNat, Nat.testBit_two_pow_sub_one]
  rw [Bool.eq_iff_iff]
  simp only [Bool.and_eq_true, Bool.not_eq_true', decide_eq_true_eq, decide_eq_false_iff_not]
  omega

end Bitmap

/-- The number of indices below a limit at which a function takes a value. -/
def tally [DecidableEq κ] (value : Nat -> κ) (target : κ) (limit : Nat) : Nat :=
  Nat.count (fun index => value index = target) limit

section Tally

variable [DecidableEq κ]
variable {value value' : Nat -> κ}

theorem tally_succ (limit : Nat) : tally value target (limit + 1) =
      tally value target limit + if value limit = target then 1 else 0 :=
  Nat.count_succ _ _

theorem tally_congr (same : ∀ i < limit, value' i = value i) :
    tally value' target limit = tally value target limit := by
  induction limit with
  | zero => rfl
  | succ limit ih =>
    rw [tally_succ, tally_succ, same limit (by omega), ih fun i inside => same i (by omega)]

/-- Changing one value moves one index between two tallies. -/
theorem tally_change (target : κ) (lt : changed < limit)
    (same : ∀ i, i ≠ changed -> value' i = value i) :
    tally value' target limit + (if value changed = target then 1 else 0) =
      tally value target limit + (if value' changed = target then 1 else 0) := by
  induction limit with
  | zero => omega
  | succ limit ih =>
    rw [tally_succ, tally_succ]
    by_cases last : changed = limit
    · subst last
      rw [tally_congr fun i below => same i (by omega)]
      omega
    · rw [same limit (by omega)]
      omega

/-- Indices at which the function is constant add their number to the tally
of its value. -/
theorem tally_extend (le : first <= last)
    (same : ∀ i, first <= i -> i < last -> value i = constant) :
    tally value target last = tally value target first +
        if constant = target then last - first else 0 := by
  induction last, le using Nat.le_induction with
  | base => simp
  | succ last le ih =>
    rw [tally_succ, ih fun i low high =>
        same i low (by omega), same last le (by omega)]
    split <;> omega

/-- A value with a tally is taken below the limit. -/
theorem exists_of_tally_pos (pos : 0 < tally value target limit) :
    ∃ i < limit, value i = target := by
  induction limit with
  | zero => exact absurd pos (Nat.lt_irrefl 0)
  | succ limit ih =>
    rw [tally_succ] at pos
    by_cases last : value limit = target
    · exact ⟨limit, by omega, last⟩
    · rw [if_neg last] at pos
      obtain ⟨i, inside, taken⟩ := ih pos
      exact ⟨i, by omega, taken⟩

end Tally

end Chromium.Library
