import Chromium.Library.Bytes
import Chromium.Library.LastWrite

/-!
# Index buffers

`BufferInfo` shadows the data of an index buffer and caches the largest index
of the ranges it was asked for. The cache is dropped with every change of the
data, so that an answer is always about the data as it is.
-/

namespace Chromium.Gpu.Buffers

open List Int
open Library

/-- The types of indices that are let through by validation. -/
inductive IndexType
  | unsignedByte
  | unsignedShort
  | unsignedInt
  deriving DecidableEq

/-- `GetGLTypeSizeForTexturesAndBuffers`. -/
def IndexType.size : IndexType -> Nat
  | .unsignedByte => 1
  | .unsignedShort => 2
  | .unsignedInt => 4

/-- `BufferInfo::Range`. -/
structure Range where
  offset : Nat
  count : Int
  type : IndexType
  deriving DecidableEq

/-- What a live `BufferInfo` knows of its data. -/
structure BufferInfo where
  size : Int
  shadowed : Bool
  shadow : Bytes
  rangeSet : List (Range × Nat)

/-- `SafeMultiplyUint32`. -/
def safeMultiplyUint32 (a b : Nat) : Option Nat :=
  if b = 0 then some 0
  else
    let v := a * b % 2 ^ 32
    if v / b ≠ a then none else some v

/-- `SafeAddUint32`. -/
def safeAddUint32 (a b : Nat) : Option Nat :=
  if (a + b) % 2 ^ 32 < a then none else some ((a + b) % 2 ^ 32)

/-- The element of a type that stands at an offset. -/
def element (type : IndexType) (data : Bytes) (offset : Nat) : Nat :=
  littleEndian ((data.drop offset).take type.size)

/-- The elements of a range. -/
def elements (type : IndexType) (data : Bytes) (offset count : Nat) : List Nat :=
  (List.range count).map fun index => element type data (offset + index * type.size)

/-- `GetMaxValue`. -/
def getMaxValue (type : IndexType) (data : Bytes) (offset count : Nat) : Nat :=
  (elements type data offset count).foldl
    (fun maxValue element => if element > maxValue then element else maxValue) 0

namespace BufferInfo

/-- The constructor. -/
def fresh : BufferInfo := ⟨0, false, [], []⟩

variable (info : BufferInfo)

/-- `SetSize`. -/
def setSize (size : Int) (shadow : Bool) : BufferInfo :=
  if size ≠ info.size ∨ shadow ≠ info.shadowed then
    { size := size
      shadowed := shadow
      shadow := if shadow then List.replicate size.toNat 0 else info.shadow
      rangeSet := [] }
  else info

/-- `SetRange`, with the data of `size` bytes; the sum is one of 64 bits. -/
def setRange (offset size : Int) (data : Bytes) : BufferInfo × Bool :=
  let last := (offset + size).bmod (2 ^ 64)
  if offset < 0 ∨ last < offset ∨ last > info.size then (info, false)
  else if info.shadowed then
    ({ info with
      shadow := overwrite info.shadow offset.toNat data
      rangeSet := [] }, true)
  else (info, true)

/-- The alignment check of `GetMaxValueForRange`. -/
def misaligned (offset : Nat) : IndexType -> Bool
  | .unsignedByte => false
  | .unsignedShort => offset &&& 1 != 0
  | .unsignedInt => offset &&& 3 != 0

/-- `GetMaxValueForRange`, with the value where it returns true. -/
def getMaxValueForRange (offset : Nat) (count : Int) (type : IndexType) : BufferInfo × Option Nat :=
  let range : Range := ⟨offset, count, type⟩
  match info.rangeSet.lookup range with
  | some maxValue => (info, some maxValue)
  | none =>
    match safeMultiplyUint32 (count % 2 ^ 32).toNat type.size with
    | none => (info, none)
    | some size =>
      match safeAddUint32 offset size with
      | none => (info, none)
      | some last =>
        if last > (info.size % 2 ^ 32).toNat then (info, none)
        else if !info.shadowed then (info, none)
        else if misaligned offset type then (info, none)
        else
          let maxValue := getMaxValue type info.shadow offset count.toNat
          ({ info with rangeSet := (range, maxValue) :: info.rangeSet }, some maxValue)

end BufferInfo

theorem safeMultiplyUint32_eq (pos : 0 < b) :
    safeMultiplyUint32 a b = if a * b < 2 ^ 32 then some (a * b) else none := by
  rw [safeMultiplyUint32, if_neg pos.ne']
  dsimp only
  by_cases fits : a * b < 2 ^ 32
  · rw [Nat.mod_eq_of_lt fits, Nat.mul_div_cancel _ pos, if_pos fits]
    simp
  · have less : a * b % 2 ^ 32 / b < a := by
      rw [Nat.div_lt_iff_lt_mul pos]
      omega
    rw [if_pos less.ne, if_neg fits]

theorem safeAddUint32_eq (left : a < 2 ^ 32) (right : b < 2 ^ 32) :
    safeAddUint32 a b = if a + b < 2 ^ 32 then some (a + b) else none := by
  rw [safeAddUint32]
  by_cases fits : a + b < 2 ^ 32
  · rw [Nat.mod_eq_of_lt fits, if_neg (by omega), if_pos fits]
  · rw [if_pos (by omega), if_neg fits]

theorem misaligned_eq_false_iff :
    BufferInfo.misaligned offset type = false ↔ type.size ∣ offset := by
  cases type with
  | unsignedByte => simp [BufferInfo.misaligned, IndexType.size]
  | unsignedShort =>
    have mask := Nat.and_two_pow_sub_one_eq_mod offset 1
    simp only [BufferInfo.misaligned, IndexType.size, bne_eq_false_iff_eq]
    rw [show 1 = 2 ^ 1 - 1 from rfl, mask]
    omega
  | unsignedInt =>
    have mask := Nat.and_two_pow_sub_one_eq_mod offset 2
    simp only [BufferInfo.misaligned, IndexType.size, bne_eq_false_iff_eq]
    rw [show 3 = 2 ^ 2 - 1 from rfl, mask]
    omega

/-- The largest of some numbers, zero if there are none. -/
def IsLargest (value : Nat) (numbers : List Nat) : Prop :=
  (∀ number ∈ numbers, number <= value) ∧ (value ∈ numbers ∨ (numbers = [] ∧ value = 0))

theorem foldl_largest (numbers : List Nat) : ∀ start : Nat,
      let largest := numbers.foldl (fun maxValue elem =>
          if elem > maxValue then elem else maxValue) start
      start <= largest ∧ (∀ n ∈ numbers, n <= largest) ∧
        (largest = start ∨ largest ∈ numbers) := by
  induction numbers with
  | nil => simp
  | cons n numbers ih =>
    intro start
    obtain ⟨above, all, source⟩ := ih (if n > start then n else start)
    rw [foldl_cons]
    refine ⟨?_, ?_, ?_⟩
    · refine le_trans ?_ above
      split_ifs <;> omega
    · intro other mem
      rcases mem_cons.mp mem with rfl | mem
      · refine le_trans ?_ above
        split_ifs <;> omega
      · exact all other mem
    · rcases source with source | source
      · rw [source]
        split_ifs
        · exact .inr mem_cons_self
        · exact .inl rfl
      · exact .inr (mem_cons_of_mem _ source)

theorem isLargest_getMaxValue (data : Bytes) (n : Nat) :
    IsLargest (getMaxValue type data offset n) (elements type data offset n) := by
  obtain ⟨-, all, source⟩ := foldl_largest (elements type data offset n) 0
  refine ⟨all, ?_⟩
  rcases source with zero | mem
  · cases numbers : elements type data offset n with
    | nil => exact .inr ⟨rfl, by rw [getMaxValue, numbers]; rfl⟩
    | cons number rest =>
      left
      have small := all number (by rw [numbers]; exact mem_cons_self)
      rw [zero] at small
      rw [getMaxValue, zero, ← Nat.le_zero.mp small]
      exact mem_cons_self
  · exact .inl mem

namespace BufferInfo

/-- A range lies in data that is shadowed, aligned for its type. -/
def InShadow (info : BufferInfo) (offset : Nat) (count : Int) (type : IndexType) : Prop :=
  info.shadowed = true ∧ type.size ∣ offset ∧ offset + count * type.size <= info.size

/-- The shadow has the size of the buffer, and what is cached holds of it. -/
structure Consistent (info : BufferInfo) : Prop where
  size : 0 <= info.size ∧ info.size < 2 ^ 32
  shadow : info.shadowed = true -> (info.shadow.length : Int) = info.size
  cached : ∀ entry ∈ info.rangeSet, InShadow info entry.1.offset entry.1.count entry.1.type ∧
      entry.2 = getMaxValue entry.1.type info.shadow entry.1.offset entry.1.count.toNat

theorem Consistent.setSize (inv : Consistent info)
    {size : Int} (fits : 0 <= size ∧ size < 2 ^ 32) (shadow : Bool) :
    Consistent (info.setSize size shadow) := by
  rw [BufferInfo.setSize]
  by_cases changed : size ≠ info.size ∨ shadow ≠ info.shadowed
  · rw [if_pos changed]
    refine ⟨fits, fun shadowed => ?_, forall_mem_nil _⟩
    rw [if_pos shadowed, length_replicate]
    exact toNat_of_nonneg fits.1
  · rw [if_neg changed]
    exact inv

theorem Consistent.setRange (inv : Consistent info) {off size : Int}
    (range : off < 2 ^ 63 ∧ -2 ^ 63 <= size ∧ size < 2 ^ 63)
    (sized : 0 <= size -> (data.length : Int) = size) :
    Consistent (info.setRange off size data).1 := by
  unfold BufferInfo.setRange
  dsimp only
  split_ifs with outside shadowed
  · exact inv
  · refine ⟨inv.size, fun _ => ?_, forall_mem_nil _⟩
    have len := inv.shadow shadowed
    have sum : (off + size).bmod (2 ^ 64) = off + size := by
      by_cases fits : off + size < 2 ^ 63
      · exact bmod_eq_of_le (by omega) (by omega)
      · rw [bmod] at outside
        split_ifs at outside <;> omega
    rw [length_overwrite, len]
    omega
  · exact inv

/-- What `GetMaxValueForRange` answers. -/
theorem Consistent.getMaxValueForRange (inv : Consistent info) (offsetFits : off < 2 ^ 32)
    {n : Int} (countFits : 0 <= n ∧ n < 2 ^ 31) (type : IndexType) :
    Consistent (info.getMaxValueForRange off n type).1 ∧
      ((info.getMaxValueForRange off n type).2.isSome ↔ InShadow info off n type) ∧
      ∀ val, (info.getMaxValueForRange off n type).2 = some val ->
        val = getMaxValue type info.shadow off n.toNat := by
  have pos : 0 < type.size := by cases type <;> decide
  have size := inv.size
  have product : n * type.size = ((n.toNat * type.size : Nat) : Int) := by
    rw [natCast_mul, toNat_of_nonneg countFits.1]
  unfold BufferInfo.getMaxValueForRange
  dsimp only
  cases found : info.rangeSet.lookup ⟨off, n, type⟩ with
  | some maxValue =>
    obtain ⟨front, back, isSplit, -⟩ := lookup_eq_some_iff.mp found
    have held := inv.cached (⟨off, n, type⟩, maxValue) (by rw [isSplit]; simp)
    refine ⟨inv, ?_, ?_⟩
    · simpa using held.1
    · intro val isValue
      cases isValue
      exact held.2
  | none =>
    have refused : ¬InShadow info off n type ->
        Consistent info ∧ ((none : Option Nat).isSome ↔ InShadow info off n type) ∧
        ∀ val, none = some val -> val = getMaxValue type info.shadow off n.toNat := by
      intro outside
      exact ⟨inv, by simpa using outside, fun _ isSome => by cases isSome⟩
    rw [emod_eq_of_lt countFits.1 (by omega), safeMultiplyUint32_eq pos]
    by_cases multiplies : n.toNat * type.size < 2 ^ 32
    · rw [if_pos multiplies]
      dsimp only
      rw [safeAddUint32_eq offsetFits multiplies, emod_eq_of_lt size.1 size.2]
      by_cases adds : off + n.toNat * type.size < 2 ^ 32
      · rw [if_pos adds]
        dsimp only
        by_cases beyond : off + n.toNat * type.size > info.size.toNat
        · rw [if_pos beyond]
          exact refused fun inside => by have := inside.2.2; omega
        rw [if_neg beyond]
        by_cases unshadowed : (!info.shadowed) = true
        · rw [if_pos unshadowed]
          exact refused fun inside => by simp [inside.1] at unshadowed
        rw [if_neg unshadowed]
        by_cases odd : misaligned off type = true
        · rw [if_pos odd]
          refine refused fun inside => ?_
          rw [misaligned_eq_false_iff.mpr inside.2.1] at odd
          exact Bool.false_ne_true odd
        rw [if_neg odd]
        have inside : InShadow info off n type := by
          refine ⟨by simpa using unshadowed, ?_, by omega⟩
          rw [← misaligned_eq_false_iff]
          simpa using odd
        refine ⟨⟨inv.size, inv.shadow, ?_⟩, by simpa using inside, ?_⟩
        · intro entry mem
          rcases mem_cons.mp mem with rfl | mem
          · exact ⟨inside, rfl⟩
          · exact inv.cached entry mem
        · intro val isValue
          exact (Option.some.inj isValue).symm
      · rw [if_neg adds]
        exact refused fun inside => by have := inside.2.2; omega
    · rw [if_neg multiplies]
      exact refused fun inside => by have := inside.2.2; omega

end BufferInfo

/-- The calls on a live buffer info. -/
inductive Call
  | setSize (size : Int) (shadow : Bool)
  | setRange (offset size : Int) (data : Bytes)
  | getMaxValueForRange (offset : Nat) (count : Int) (type : IndexType)

/-- What the types and the callers make sure of: sizes are not negative and
have 32 bits, other offsets and sizes are those of their types, and the data
has the size that is told. -/
def Call.Valid : Call -> Prop
  | .setSize size _ => 0 <= size ∧ size < 2 ^ 32
  | .setRange offset size data =>
    (offset < 2 ^ 63 ∧ -2 ^ 63 <= size ∧ size < 2 ^ 63) ∧ (0 <= size -> (data.length : Int) = size)
  | .getMaxValueForRange offset count _ => offset < 2 ^ 32 ∧ 0 <= count ∧ count < 2 ^ 31

namespace BufferInfo

/-- Perform a call. -/
def perform (info : BufferInfo) : Call -> BufferInfo
  | .setSize size shadow => info.setSize size shadow
  | .setRange offset size data => (info.setRange offset size data).1
  | .getMaxValueForRange offset count type => (info.getMaxValueForRange offset count type).1

/-- Every run keeps the cache in step with the data. -/
theorem consistent_of_run {calls : List Call} (ok : ∀ call ∈ calls, call.Valid) :
    ∀ {info : BufferInfo}, Consistent info -> Consistent (calls.foldl perform info) := by
  induction calls with
  | nil => exact fun inv => inv
  | cons call calls ih =>
    intro info inv
    have first := ok call mem_cons_self
    apply ih (forall_mem_cons.mp ok).2
    cases call with
    | setSize size shadow => exact inv.setSize first shadow
    | setRange offset size data => exact inv.setRange first.1 first.2
    | getMaxValueForRange offset count type =>
      exact (inv.getMaxValueForRange first.1 first.2 type).1

/-- Whatever was called before, a range is answered exactly when it lies in
shadowed data and is aligned, and the answer is the largest of its elements as
they are stored now. -/
theorem maxValue_of_run {calls : List Call} (valid : ∀ call ∈ calls, call.Valid)
    {offset : Nat} (offsetFits : offset < 2 ^ 32)
    {count : Int} (countFits : 0 <= count ∧ count < 2 ^ 31)
    (type : IndexType) :
    let info := calls.foldl perform fresh
    ((info.getMaxValueForRange offset count type).2.isSome ↔ InShadow info offset count type) ∧
    ∀ value, (info.getMaxValueForRange offset count type).2 = some value ->
      offset + count.toNat * type.size <= info.shadow.length ∧
        IsLargest value (elements type info.shadow offset count.toNat) := by
  have start : Consistent fresh :=
    ⟨by decide, fun shadowed => absurd shadowed Bool.false_ne_true, forall_mem_nil _⟩
  have holds := consistent_of_run valid start
  obtain ⟨-, answers, values⟩ := holds.getMaxValueForRange offsetFits countFits type
  refine ⟨answers, fun value isValue => ⟨?_, ?_⟩⟩
  · obtain ⟨shadowed, -, bound⟩ := answers.mp (by rw [isValue]; rfl)
    have length := holds.shadow shadowed
    have product : count * type.size = ((count.toNat * type.size : Nat) : Int) := by
      rw [natCast_mul, toNat_of_nonneg countFits.1]
    omega
  · rw [values value isValue]
    exact isLargest_getMaxValue _ _

/-- Two indices of two bytes are asked for, changed and asked for again. -/
theorem maxValue_of_run_changed :
    let info := [Call.setSize 4 true, .getMaxValueForRange 0 2 .unsignedShort,
      .setRange 2 2 [1, 2]].foldl perform fresh
    (info.getMaxValueForRange 0 2 .unsignedShort).2.isSome ↔ InShadow info 0 2 .unsignedShort :=
  (maxValue_of_run (by
    intro call mem
    rcases mem_cons.mp mem with rfl | mem
    · exact ⟨by decide, by decide⟩
    rcases mem_cons.mp mem with rfl | mem
    · exact ⟨by decide, by decide, by decide⟩
    · rw [mem_singleton.mp mem]
      exact ⟨by decide, fun _ => rfl⟩) (by decide) (by decide) _).1

end BufferInfo
end Chromium.Gpu.Buffers
