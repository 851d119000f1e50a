import Mathlib.Data.List.Basic
import Mathlib.Data.Nat.ModEq
import Mathlib.Tactic.NormNum

/-!
# Files of bytes

Little-endian numbers, records of a fixed width, and a file that is written
at offsets and truncated where the last write ended.
-/

namespace Chromium

abbrev Bytes := List UInt8

namespace Library

open List

/-- The number with the given bytes, least significant first. -/
def littleEndian : Bytes -> Nat
  | [] => 0
  | byte :: rest => byte.toNat + 256 * littleEndian rest

/-- Reading back the bytes of a number. -/
theorem littleEndian_bytes (val : Nat) : littleEndian ((List.range width).map fun i =>
      UInt8.ofNat (val / 2 ^ (8 * i))) = val % 2 ^ (8 * width) := by
  induction width generalizing val with
  | zero => simp [littleEndian, Nat.mod_one]
  | succ width ih =>
    have shifted : ∀ i : Nat,
        val / 2 ^ (8 * (i + 1)) = val / 256 / 2 ^ (8 * i) := by
      intro i
      rw [Nat.div_div_eq_div_mul, Nat.mul_add, Nat.mul_one, Nat.pow_add, Nat.mul_comm]
    have rest := ih (val / 256)
    have power : 2 ^ (8 * (width + 1)) = 256 * 2 ^ (8 * width) := by
      rw [Nat.mul_add, Nat.mul_one, Nat.pow_add, Nat.mul_comm]
    rw [range_succ_eq_map, map_cons, List.map_map, littleEndian, power, Nat.mod_mul]
    have byte : (UInt8.ofNat (val / 2 ^ (8 * 0))).toNat = val % 256 := by simp
    rw [byte, ← rest]
    congr 3
    apply map_congr_left
    intro i _
    rw [Function.comp_apply, Nat.succ_eq_add_one, shifted]

theorem littleEndian_lt (bytes : Bytes) : littleEndian bytes < 2 ^ (8 * bytes.length) := by
  induction bytes with
  | nil => exact Nat.one_pos
  | cons byte rest ih =>
    have := byte.toNat_lt
    rw [littleEndian, length_cons, Nat.mul_succ, Nat.pow_add]
    omega

/-- Writing the bytes of a number that was read. -/
theorem bytes_littleEndian (bytes : Bytes) : ((List.range bytes.length).map fun i =>
      UInt8.ofNat (littleEndian bytes / 2 ^ (8 * i))) = bytes := by
  induction bytes with
  | nil => rfl
  | cons byte rest ih =>
    have := byte.toNat_lt
    have behind : littleEndian (byte :: rest) / 256 = littleEndian rest := by
      rw [littleEndian]
      omega
    rw [length_cons, range_succ_eq_map, map_cons, List.map_map]
    congr 1
    · apply UInt8.toNat_inj.mp
      simp [littleEndian]
    · conv_rhs => rw [← ih]
      apply map_congr_left
      intro i _
      rw [Function.comp_apply, Nat.succ_eq_add_one, Nat.mul_succ, Nat.add_comm, Nat.pow_add,
        ← Nat.div_div_eq_div_mul, behind]

section Records

variable {encode : α -> Bytes}

theorem length_records (fixed : ∀ record, (encode record).length = width) (records : List α) :
    (records.flatMap encode).length = records.length * width := by
  induction records with
  | nil => simp
  | cons record rest ih =>
    rw [flatMap_cons, length_append, fixed, ih, length_cons, Nat.succ_mul, Nat.add_comm]

/-- The bytes of the record at an index. -/
theorem record_bytes (fixed : ∀ record, (encode record).length = width) {records : List α}
    (lt : index < records.length) :
    ((records.flatMap encode).drop (index * width)).take width = encode records[index] := by
  have split : records = records.take index ++ records[index] :: records.drop (index + 1) := by
    rw [← drop_eq_getElem_cons lt, take_append_drop]
  have before : ((records.take index).flatMap encode).length = index * width := by
    rw [length_records fixed, length_take_of_le lt.le]
  calc
    ((records.flatMap encode).drop (index * width)).take width = (((records.take index ++
            records[index] :: records.drop (index + 1)).flatMap
              encode).drop (index * width)).take width := by rw [← split]
    _ = encode records[index] := by
      rw [flatMap_append, flatMap_cons, ← before, drop_left, ← fixed records[index], take_left]

end Records

/-- A file that is open for writing. -/
structure File where
  bytes : Bytes
  position : Nat
  deriving DecidableEq

namespace File

/-- Write bytes at an offset; a gap before them is filled with zeros. -/
def writeAt (file : File) (offset : Nat) (data : Bytes) : File where
  bytes :=
    file.bytes.take offset ++ List.replicate (offset - file.bytes.length) 0 ++ data ++
        file.bytes.drop (offset + data.length)
  position := offset + data.length

/-- End the file at the current position. -/
def truncate (file : File) : File :=
  { file with
    bytes := file.bytes.take file.position ++ List.replicate (file.position - file.bytes.length) 0 }

@[simp] theorem position_writeAt (file : File) (data : Bytes) :
    (file.writeAt offset data).position = offset + data.length :=
  rfl

/-- A write replaces as many bytes as it has. -/
theorem bytes_writeAt_replace {file : File}
    (split : file.bytes = front ++ middle ++ back) (len : data.length = middle.length) :
    (file.writeAt front.length data).bytes = front ++ data ++ back := by
  have before : (front ++ middle ++ back).take front.length = front := by
    rw [append_assoc, take_left]
  have after : (front ++ middle ++ back).drop (front.length + data.length) = back := by
    rw [len, ← length_append, drop_left]
  have noGap : front.length - (front ++ middle ++ back).length = 0 := by
    rw [append_assoc, length_append]
    exact Nat.sub_eq_zero_of_le (Nat.le_add_right _ _)
  rw [writeAt, split, before, after, noGap, replicate_zero, append_nil]

/-- The bytes before a write and the written ones, where the file has the
bytes before it. -/
theorem take_writeAt {file : File} (data : Bytes) (before : file.bytes.take front.length = front) :
    (file.writeAt front.length data).bytes.take (front ++ data).length = front ++ data := by
  have long : front.length <= file.bytes.length := by
    rw [← before, length_take]
    exact Nat.min_le_right _ _
  rw [writeAt, before, Nat.sub_eq_zero_of_le long, replicate_zero, append_nil, take_left]

/-- Truncating after the last write leaves what was written. -/
theorem bytes_truncate {file : File} (before : file.bytes.take written.length = written)
    (pos : file.position = written.length) :
    file.truncate.bytes = written := by
  have long : written.length <= file.bytes.length := by
    rw [← before, length_take]
    exact Nat.min_le_right _ _
  rw [truncate, pos, before, Nat.sub_eq_zero_of_le long, replicate_zero, append_nil]

end File

/-!
## Numbers of a fixed width in memory

The little-endian bytes of a bit vector, and the bytes of an array of units of
one width.
-/

section

variable (width : Nat)

section

variable (value : BitVec (8 * width))

/-- The bytes of a number, least significant first. -/
def bytesOf : Bytes :=
  (List.range width).map fun index => UInt8.ofNat (value.toNat / 2 ^ (8 * index))

/-- The number of a width that bytes spell. -/
def ofBytes (bytes : Bytes) : BitVec (8 * width) :=
  BitVec.ofNat (8 * width) (littleEndian bytes)

@[simp] theorem length_bytesOf : (bytesOf width value).length = width := by
  rw [bytesOf, length_map, length_range]

theorem ofBytes_bytesOf : ofBytes width (bytesOf width value) = value := by
  apply BitVec.eq_of_toNat_eq
  rw [ofBytes, bytesOf, littleEndian_bytes, BitVec.toNat_ofNat, Nat.mod_mod,
    Nat.mod_eq_of_lt value.isLt]

theorem bytesOf_ofBytes (length : bytes.length = width) :
    bytesOf width (ofBytes width bytes) = bytes := by
  subst length
  rw [bytesOf, ofBytes, BitVec.toNat_ofNat, Nat.mod_eq_of_lt (littleEndian_lt bytes),
    bytes_littleEndian]

end

variable (units : List (BitVec (8 * width)))

/-- The bytes of an array of units. -/
def unitBytes : Bytes := units.flatMap (bytesOf width)

/-- The first units that bytes spell. -/
def unitsOf (width count : Nat) (bytes : Bytes) : List (BitVec (8 * width)) :=
  (List.range count).map fun index => ofBytes width ((bytes.drop (index * width)).take width)

@[simp] theorem length_unitBytes : (unitBytes width units).length = units.length * width :=
  length_records (length_bytesOf width) units

theorem unitsOf_unitBytes : unitsOf width units.length (unitBytes width units) = units := by
  apply ext_getElem
  · rw [unitsOf, length_map, length_range]
  · intro i _ inside
    simp only [unitsOf, unitBytes, getElem_map, getElem_range]
    rw [record_bytes (length_bytesOf width) inside, ofBytes_bytesOf]

@[simp] theorem length_unitsOf {n : Nat} : (unitsOf width n bytes).length = n := by
  rw [unitsOf, length_map, length_range]

/-- The bytes of the units that bytes spell. -/
theorem unitBytes_unitsOf {width n : Nat} {bytes : Bytes}
    (length : bytes.length = n * width) :
    unitBytes width (unitsOf width n bytes) = bytes := by
  induction n generalizing bytes with
  | zero =>
    rw [Nat.zero_mul, length_eq_zero_iff] at length
    rw [length]
    rfl
  | succ n ih =>
    rw [Nat.succ_mul] at length
    have rest := @ih (bytes.drop width) (by rw [length_drop]; omega)
    rw [unitsOf, unitBytes] at *
    rw [range_succ_eq_map, map_cons, List.map_map, flatMap_cons, Nat.zero_mul, drop_zero,
      bytesOf_ofBytes width (length_take_of_le (by omega))]
    conv_rhs => rw [← take_append_drop width bytes, ← rest]
    congr 3
    funext i
    simp [Nat.succ_mul, Nat.add_comm]

end

/-!
## Unsigned machine arithmetic

Sums and differences of natural numbers modulo a power of two, as unsigned
machine integers of a given width compute them.
-/

namespace Unsigned

/-- The sum of two unsigned integers of a given width. -/
def add (width left right : Nat) : Nat := (left + right) % 2 ^ width

/-- The difference of two unsigned integers of a given width. -/
def sub (width left right : Nat) : Nat := (left + 2 ^ width - right) % 2 ^ width

theorem add_of_lt (fits : left + right < 2 ^ width) : add width left right = left + right :=
  Nat.mod_eq_of_lt fits

/-- A difference that is not negative is exact. -/
theorem sub_of_le (le : right <= left) (fits : left < 2 ^ width) :
    sub width left right = left - right := by
  unfold sub
  rw [show left + 2 ^ width - right = left - right + 2 ^ width by omega,
    Nat.add_mod_right, Nat.mod_eq_of_lt (by omega)]

/-- Subtracting what was added gives the number back, also when the sum
wrapped. -/
theorem sub_add_cancel (leftFits : left < 2 ^ width) (rightFits : right < 2 ^ width) :
    sub width (add width left right) right = left := by
  unfold sub add
  rcases Nat.lt_or_ge (left + right) (2 ^ width) with fits | wraps
  · rw [Nat.mod_eq_of_lt fits, show left + right + 2 ^ width - right = left + 2 ^ width by omega,
      Nat.add_mod_right, Nat.mod_eq_of_lt leftFits]
  · have wrapped : (left + right) % 2 ^ width = left + right - 2 ^ width := by
      rw [Nat.mod_eq_sub_mod wraps, Nat.mod_eq_of_lt (by omega)]
    rw [wrapped, show left + right - 2 ^ width + 2 ^ width - right = left by omega,
      Nat.mod_eq_of_lt leftFits]

end Unsigned

end Library
end Chromium
