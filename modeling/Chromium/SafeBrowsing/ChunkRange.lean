import Chromium.Base.DecimalStrings

/-!
# Ranges of chunk numbers

`ChunksToRangeString`, `StringToRanges` and `RangesToChunks`. Numbers are
32-bit integers that wrap around; loops that may not stop take the number of
turns that they are given.
-/

namespace Chromium.SafeBrowsing

open List Option
open Base

/-- A range of chunk numbers, both ends included. -/
structure ChunkRange where
  start : Int
  stop : Int
  deriving DecidableEq

/-- Extend a range forward across duplicates and increments: its end, and the
numbers that are left. -/
def extendRange : List Int -> Int -> Int × List Int
  | [], range_end => (range_end, [])
  | chunk :: iter, range_end =>
    if chunk <= (range_end + 1).bmod (2 ^ 32) then extendRange iter chunk
    else (range_end, chunk :: iter)

/-- Append a range to the string. -/
def appendRange (result : Bytes) (range : ChunkRange) : Bytes :=
  let result := if result ≠ [] then result ++ [0x2c] else result
  let result := result ++ intToString range.start
  if range.stop > range.start then result ++ [0x2d] ++ intToString range.stop
  else result

/-- The outer loop of `ChunksToRangeString`. -/
def formatRanges : Nat -> List Int -> Bytes -> Option Bytes
  | _, [], result => some result
  | 0, _ :: _, _ => none
  | fuel + 1, chunk :: iter, result =>
    let extended := extendRange (chunk :: iter) chunk
    formatRanges fuel extended.2 (appendRange result ⟨chunk, extended.1⟩)

/-- `ChunksToRangeString`, for at most `fuel` turns of its outer loop. -/
def chunksToRangeString (fuel : Nat) (chunks : List Int) : Option Bytes :=
  formatRanges fuel (chunks.mergeSort (· <= ·)) []

/-- One chunk part of `StringToRanges`. -/
def chunkPartToRange (chunk_part : Bytes) : ChunkRange :=
  let chunk_ranges := splitString chunk_part 0x2d
  let start := atoi (chunk_ranges.getD 0 [])
  let stop := if chunk_ranges.length = 2 then atoi (chunk_ranges.getD 1 []) else start
  ⟨start, stop⟩

/-- `StringToRanges`; nothing when the input is malformed. -/
def stringToRanges (input : Bytes) : Option (List ChunkRange) :=
  (splitString input 0x2c).mapM fun chunk_part =>
    let range := chunkPartToRange chunk_part
    if range.start = 0 ∨ range.stop = 0 then none else some range

/-- The loop of `RangesToChunks` over one range. -/
def pushRange : Nat -> Int -> Int -> List Int -> Option (List Int)
  | 0, chunk, stop, chunks => if chunk <= stop then none else some chunks
  | fuel + 1, chunk, stop, chunks =>
    if chunk <= stop then pushRange fuel ((chunk + 1).bmod (2 ^ 32)) stop (chunks ++ [chunk])
    else some chunks

/-- `RangesToChunks`, for at most `fuel` turns over each range. -/
def rangesToChunks (fuel : Nat) (ranges : List ChunkRange) : Option (List Int) :=
  ranges.foldlM (fun chunks range => pushRange fuel range.start range.stop chunks) []

/-- A range of positive 32-bit numbers. -/
structure ChunkRange.Valid (range : ChunkRange) : Prop where
  positive : 0 < range.start
  ordered : range.start <= range.stop
  fits : range.stop < 2 ^ 31

/-- The ranges that the outer loop appends. -/
def rangesOf : Nat -> List Int -> Option (List ChunkRange)
  | _, [] => some []
  | 0, _ :: _ => none
  | fuel + 1, chunk :: iter =>
    let extended := extendRange (chunk :: iter) chunk
    (rangesOf fuel extended.2).map (⟨chunk, extended.1⟩ :: ·)

theorem formatRanges_eq : ∀ (iter : List Int) (result : Bytes),
      formatRanges fuel iter result = (rangesOf fuel iter).map (·.foldl appendRange result) := by
  induction fuel with
  | zero =>
    intro iter result
    cases iter with
    | nil => rfl
    | cons chunk iter => rfl
  | succ fuel ih =>
    intro iter result
    cases iter with
    | nil => rfl
    | cons chunk iter =>
      rw [formatRanges, rangesOf, ih, Option.map_map]
      rfl

/-- What the inner loop takes is the range it ends up with; what it leaves
lies beyond, as long as the next number does not wrap around. -/
theorem extendRange_spec (iter : List Int) :
    ∀ {range_end : Int}, 0 < range_end → range_end < 2 ^ 31 → (range_end :: iter).Pairwise (· ≤ ·) →
      (∀ chunk ∈ iter, chunk < 2 ^ 31) -> ∃ taken, iter = taken ++ (extendRange iter range_end).2 ∧
          (extendRange iter range_end).1 < 2 ^ 31 ∧ (∀ chunk, (chunk = range_end ∨ chunk ∈ taken) ↔
            range_end <= chunk ∧ chunk <= (extendRange iter range_end).1) ∧
          ((extendRange iter range_end).1 + 1 < 2 ^ 31 -> ∀ chunk ∈ (extendRange iter range_end).2,
              (extendRange iter range_end).1 + 1 < chunk) := by
  induction iter with
  | nil =>
    intro range_end _ fits _ _
    refine ⟨[], rfl, fits, fun chunk => ?_, fun _ _ mem => absurd mem not_mem_nil⟩
    simp only [extendRange, not_mem_nil, or_false]
    omega
  | cons next iter ih =>
    intro range_end pos fits sorted small
    obtain ⟨least, tail⟩ := pairwise_cons.mp sorted
    have nextLe := least next mem_cons_self
    have nextFits := small next mem_cons_self
    rw [extendRange]
    split_ifs with follows
    · have close : next <= range_end + 1 := by
        rcases lt_or_ge (range_end + 1) (2 ^ 31) with stays | wraps
        · rwa [Int.bmod_eq_of_le (by omega) (by omega)] at follows
        · omega
      obtain ⟨taken, split, fits', mem, beyond⟩ := ih (by omega) nextFits tail
        (forall_mem_cons.mp small).2
      refine ⟨next :: taken, ?_, fits', fun chunk => ?_, beyond⟩
      · rw [cons_append, ← split]
      · rw [mem_cons, mem chunk]
        have reached := (mem next).mp (.inl rfl)
        omega
    · refine ⟨[], rfl, fits, fun chunk => ?_, fun stays chunk inside => ?_⟩
      · simp only [not_mem_nil, or_false]
        omega
      · rw [Int.bmod_eq_of_le (by omega) (by omega)] at follows
        rcases mem_cons.mp inside with rfl | inside
        · omega
        · have := (pairwise_cons.mp tail).1 chunk inside
          omega

theorem pairwise_head_twice {iter : List Int} (sorted : (first :: iter).Pairwise (· <= ·)) :
    (first :: first :: iter).Pairwise (· <= ·) := by
  refine pairwise_cons.mpr ⟨fun chunk mem => ?_, sorted⟩
  rcases mem_cons.mp mem with rfl | mem
  · exact le_refl chunk
  · exact (pairwise_cons.mp sorted).1 chunk mem

/-- Whatever ranges come out, they cover the numbers. -/
theorem rangesOf_covers (fuel : Nat) : ∀ {iter : List Int} {ranges : List ChunkRange},
      iter.Pairwise (· <= ·) -> (∀ chunk ∈ iter, 0 < chunk ∧ chunk < 2 ^ 31) ->
      rangesOf fuel iter = some ranges -> (∀ range ∈ ranges, range.Valid) ∧
        ∀ chunk ∈ iter, ∃ range ∈ ranges, range.start <= chunk ∧ chunk <= range.stop := by
  induction fuel with
  | zero =>
    intro iter ranges _ _ formed
    cases iter with
    | nil =>
      cases formed
      simp
    | cons chunk iter => cases formed
  | succ fuel ih =>
    intro iter ranges sorted small formed
    cases iter with
    | nil =>
      cases formed
      simp
    | cons first iter =>
      obtain ⟨pos, fits⟩ := small first mem_cons_self
      obtain ⟨taken, split, fits', mem, _⟩ :=
        extendRange_spec (first :: iter) pos fits
          (pairwise_head_twice sorted) fun chunk inside => (small chunk inside).2
      obtain ⟨rest, formed', rfl⟩ := map_eq_some_iff.mp formed
      have suffix : (extendRange (first :: iter) first).2 <:+ first :: iter := ⟨taken, split.symm⟩
      obtain ⟨ok, covered⟩ := ih (sorted.sublist suffix.sublist)
        (fun chunk inside => small chunk (suffix.subset inside)) formed'
      have reached := (mem first).mp (.inl rfl)
      refine ⟨?_, ?_⟩
      · intro range inside
        rcases mem_cons.mp inside with rfl | inside
        · exact ⟨pos, reached.2, fits'⟩
        · exact ok range inside
      · intro chunk inside
        rw [split, mem_append] at inside
        rcases inside with inside | inside
        · exact ⟨_, mem_cons_self, (mem chunk).mp (.inr inside)⟩
        · obtain ⟨range, isRange, within⟩ := covered chunk inside
          exact ⟨range, mem_cons_of_mem _ isRange, within⟩

/-- Numbers from one on. -/
def upFrom (start : Int) : Nat -> List Int
  | 0 => []
  | count + 1 => start :: upFrom (start + 1) count

/-- The numbers of a range. -/
def ChunkRange.numbers (range : ChunkRange) : List Int :=
  upFrom range.start (range.stop + 1 - range.start).toNat

theorem mem_upFrom {n : Nat} : ∀ {start number : Int},
      number ∈ upFrom start n ↔ start <= number ∧ number < start + n := by
  induction n with
  | zero =>
    intro start number
    simp only [upFrom, not_mem_nil, false_iff]
    omega
  | succ n ih =>
    intro start number
    rw [upFrom, mem_cons, ih]
    omega

theorem pairwise_upFrom (n : Nat) : ∀ start : Int, (upFrom start n).Pairwise (· < ·) := by
  induction n with
  | zero => exact fun _ => List.Pairwise.nil
  | succ n ih =>
    intro start
    refine pairwise_cons.mpr ⟨fun number mem => ?_, ih (start + 1)⟩
    have := mem_upFrom.mp mem
    omega

variable {range : ChunkRange} {ranges : List ChunkRange}

theorem ChunkRange.mem_numbers :
    number ∈ range.numbers ↔ range.start <= number ∧ number <= range.stop := by
  rw [numbers, mem_upFrom]
  omega

/-- Without the largest number the loop takes a number in each turn, and the
ranges have the numbers of the list in increasing order. -/
theorem rangesOf_numbers (fuel : Nat) : ∀ {iter : List Int}, iter.Pairwise (· <= ·) ->
      (∀ chunk ∈ iter, 0 < chunk ∧ chunk < 2 ^ 31 - 1) ->
      iter.length <= fuel -> ∃ ranges, rangesOf fuel iter = some ranges ∧
          (∀ range ∈ ranges, range.stop < 2 ^ 31 - 1) ∧
          (ranges.flatMap ChunkRange.numbers).Pairwise (· < ·) ∧
          ∀ n, n ∈ ranges.flatMap ChunkRange.numbers ↔ n ∈ iter := by
  induction fuel with
  | zero =>
    intro iter _ _ short
    rw [eq_nil_of_length_eq_zero (Nat.le_zero.mp short)]
    exact ⟨[], rfl, by simp, List.Pairwise.nil, by simp⟩
  | succ fuel ih =>
    intro iter sorted small short
    cases iter with
    | nil => exact ⟨[], rfl, by simp, List.Pairwise.nil, by simp⟩
    | cons first iter =>
      have least := small first mem_cons_self
      obtain ⟨taken, split, _, mem, beyond⟩ :=
        extendRange_spec (first :: iter) least.1 (by omega)
          (pairwise_head_twice sorted) fun chunk inside => by
            have := small chunk inside
            omega
      have reached := (mem first).mp (.inl rfl)
      have suffix : (extendRange (first :: iter) first).2 <:+ first :: iter := ⟨taken, split.symm⟩
      have stays : (extendRange (first :: iter) first).1 < 2 ^ 31 - 1 := by
        rcases (mem _).mpr ⟨reached.2, le_refl _⟩ with same | inside
        · omega
        · have isPrefix : taken <+: first :: iter := ⟨_, split.symm⟩
          have := small _ (isPrefix.subset inside)
          omega
      have apart := beyond (by omega)
      have moved : taken ≠ [] := by
        rintro rfl
        have := apart first (by rw [nil_append] at split; simp [← split])
        omega
      obtain ⟨ranges, formed, stops, rising, same⟩ :=
        ih (sorted.sublist suffix.sublist) (fun chunk inside => small chunk (suffix.subset inside))
          (by
            have total := congrArg length split
            have := length_pos_of_ne_nil moved
            simp only [length_append, length_cons] at total short
            omega)
      refine ⟨⟨first, (extendRange (first :: iter) first).1⟩ :: ranges, ?_, ?_, ?_, ?_⟩
      · rw [rangesOf, formed]
        rfl
      · simpa using ⟨stays, stops⟩
      · rw [flatMap_cons, pairwise_append]
        refine ⟨pairwise_upFrom _ _, rising, fun left inLeft right inRight => ?_⟩
        have before := ChunkRange.mem_numbers.mp inLeft
        have := apart right ((same right).mp inRight)
        dsimp only at before
        omega
      · intro n
        rw [flatMap_cons, mem_append, same, ChunkRange.mem_numbers, ← mem n]
        conv_rhs => rw [split]
        rw [mem_append]
        constructor
        · rintro ((rfl | inside) | inside)
          · exact mem_append.mp (split ▸ mem_cons_self)
          · exact .inl inside
          · exact .inr inside
        · rintro (inside | inside)
          · exact .inl (.inr inside)
          · exact .inr inside

theorem pushRange_eq (fuel : Nat) : ∀ (n : Nat) {chunk stop : Int} {chunks : List Int},
      stop + 1 - chunk = n -> 0 < chunk -> stop < 2 ^ 31 - 1 -> n <= fuel ->
        pushRange fuel chunk stop chunks = some (chunks ++ upFrom chunk n) := by
  induction fuel with
  | zero =>
    intro n chunk stop chunks span _ _ enough
    rw [Nat.le_zero.mp enough] at span ⊢
    rw [pushRange, if_neg (by omega), upFrom, append_nil]
  | succ fuel ih =>
    intro n chunk stop chunks span pos fits enough
    cases n with
    | zero => rw [pushRange, if_neg (by omega), upFrom, append_nil]
    | succ n =>
      rw [pushRange, if_pos (by omega), Int.bmod_eq_of_le (by omega) (by omega),
        ih n (by omega) (by omega) fits (by omega), append_assoc]
      rfl

/-- Ranges that end before the largest number are expanded. -/
theorem rangesToChunks_eq (ok : ∀ range ∈ ranges, range.Valid)
    (stops : ∀ range ∈ ranges, range.stop < 2 ^ 31 - 1) :
    rangesToChunks (2 ^ 31) ranges = some (ranges.flatMap ChunkRange.numbers) := by
  have all : ∀ (chunks : List Int), ranges.foldlM (fun chunks range =>
            pushRange (2 ^ 31) range.start range.stop chunks) chunks =
        some (chunks ++ ranges.flatMap ChunkRange.numbers) := by
    induction ranges with
    | nil => simp
    | cons range ranges ih =>
      intro chunks
      have first := ok range mem_cons_self
      have fits := stops range mem_cons_self
      rw [foldlM_cons, pushRange_eq _ (range.stop + 1 - range.start).toNat
          (by have := first.ordered; omega) first.positive fits
          (by have := first.positive; omega)]
      simp only [bind_eq_bind, bind_some]
      rw [ih ((forall_mem_cons.mp ok).2) ((forall_mem_cons.mp stops).2), append_assoc]
      rfl
  exact all []

/-- No number is larger than the largest one, so the loop up to it goes on. -/
theorem pushRange_largest : ∀ {chunk : Int} {chunks : List Int}, chunk < 2 ^ 31 ->
      pushRange fuel chunk (2 ^ 31 - 1) chunks = none := by
  induction fuel with
  | zero =>
    intro chunk chunks small
    rw [pushRange, if_pos (by omega)]
  | succ fuel ih =>
    intro chunk chunks small
    rw [pushRange, if_pos (by omega)]
    exact ih (Int.bmod_lt (by decide))

theorem rangesToChunks_largest (mem : range ∈ ranges) (ok : range.Valid)
    (largest : range.stop = 2 ^ 31 - 1) :
    rangesToChunks fuel ranges = none := by
  obtain ⟨before, after, rfl⟩ := append_of_mem mem
  have goesOn : ∀ chunks, pushRange fuel range.start range.stop chunks = none := by
    intro chunks
    rw [largest]
    have ordered := ok.ordered
    exact pushRange_largest (by omega)
  rw [rangesToChunks, foldlM_append]
  simp only [foldlM_cons, goesOn, bind_eq_bind, bind_none, bind_fun_none]

/-- The part of the string for a range. -/
def ChunkRange.text (range : ChunkRange) : Bytes :=
  if range.stop > range.start then joinString [intToString range.start, intToString range.stop] 0x2d
  else joinString [intToString range.start] 0x2d

theorem appendRange_eq (range : ChunkRange) : appendRange result range =
      (if result ≠ [] then result ++ [0x2c] else result) ++ range.text := by
  unfold appendRange ChunkRange.text joinString
  split_ifs <;> simp [List.intercalate]

theorem foldl_appendRange {ranges : List ChunkRange}
    : ∀ {result : Bytes}, result ≠ [] -> ranges.foldl appendRange result =
        joinString (result :: ranges.map ChunkRange.text) 0x2c := by
  induction ranges with
  | nil =>
    intro result _
    simp [joinString]
  | cons range ranges ih =>
    intro result ne
    rw [foldl_cons, appendRange_eq, if_pos ne, ih (by simp), joinString, joinString, map_cons,
      intercalate_cons_cons]
    cases ranges with
    | nil => simp
    | cons next ranges => simp [intercalate_cons_cons]

theorem text_ne_nil (ok : range.Valid) : range.text ≠ [] := by
  have pos := ok.positive
  have ordered := ok.ordered
  have fits := ok.fits
  unfold ChunkRange.text joinString
  rw [intToString_eq_decimal pos (by omega)]
  split_ifs <;> simp [List.intercalate, decimal_ne_nil]

/-- The string is the texts of the ranges with commas between them. -/
theorem foldl_appendRange_nil (ok : ∀ range ∈ ranges, range.Valid) :
    ranges.foldl appendRange [] = joinString (ranges.map ChunkRange.text) 0x2c := by
  cases ranges with
  | nil => rfl
  | cons range ranges =>
    have first := text_ne_nil (ok range mem_cons_self)
    rw [foldl_cons, appendRange_eq, if_neg (by simp), nil_append, foldl_appendRange first]
    rfl

theorem trim_eq_self (without : ∀ item ∈ items, P item = false) : Library.trim P items = items := by
  have front : items.dropWhile P = items := by
    rw [dropWhile_eq_self_iff]
    intro ne
    simp [without _ (getElem_mem ne)]
  rw [Library.trim, front, rdropWhile_eq_self_iff]
  intro ne
  simp [without _ (getLast_mem ne)]

/-- Printed numbers are split where they were joined. -/
theorem splitString_join_decimal (some_ : numbers ≠ []) :
    splitString (joinString (numbers.map decimal) 0x2d) 0x2d = numbers.map decimal := by
  apply Library.components_intercalate (by simpa using some_)
  · intro part mem inPart
    obtain ⟨n, _, rfl⟩ := List.mem_map.mp mem
    exact (plain_of_mem_decimal inPart).2.1 rfl
  · intro part mem
    obtain ⟨n, _, rfl⟩ := List.mem_map.mp mem
    exact trim_eq_self fun c inPart => (plain_of_mem_decimal inPart).1

theorem chunkPartToRange_text (ok : range.Valid) : chunkPartToRange range.text = range := by
  obtain ⟨pos, ordered, fits⟩ := ok
  obtain ⟨start, stop⟩ := range
  dsimp only at pos ordered fits
  have readStart : atoi (decimal start.natAbs) = start := by
    rw [atoi_decimal (by omega)]
    omega
  have readStop : atoi (decimal stop.natAbs) = stop := by
    rw [atoi_decimal (by omega)]
    omega
  have two := @splitString_join_decimal [start.natAbs, stop.natAbs] (by simp)
  have one := @splitString_join_decimal [start.natAbs] (by simp)
  simp only [map_cons, map_nil] at two one
  unfold chunkPartToRange ChunkRange.text
  rw [intToString_eq_decimal pos (by omega), intToString_eq_decimal (by omega) fits]
  by_cases longer : stop > start
  · rw [if_pos longer, two]
    simp [readStart, readStop]
  · have same : stop = start := by omega
    rw [if_neg longer, one]
    simp [readStart, same]

theorem text_plain (ok : range.Valid) (mem : c ∈ range.text) :
    isWhitespaceASCII c = false ∧ c ≠ 0x2c := by
  have pos := ok.positive
  have ordered := ok.ordered
  have fits := ok.fits
  have inJoin : c = 0x2d ∨ ∃ n, c ∈ decimal n := by
    unfold ChunkRange.text joinString at mem
    rw [intToString_eq_decimal pos (by omega), intToString_eq_decimal (by omega) fits] at mem
    split_ifs at mem
    · rcases Library.mem_intercalate mem with isDash | ⟨part, isPart, inPart⟩
      · exact .inl isDash
      · rcases mem_pair.mp isPart with rfl | rfl
        · exact .inr ⟨_, inPart⟩
        · exact .inr ⟨_, inPart⟩
    · rw [intercalate_singleton] at mem
      exact .inr ⟨_, mem⟩
  rcases inJoin with rfl | ⟨n, inDecimal⟩
  · decide
  · have plain := plain_of_mem_decimal inDecimal
    exact ⟨plain.1, plain.2.2.2⟩

/-- The ranges are read back from their string. -/
theorem stringToRanges_foldl_appendRange (some_ : ranges ≠ [])
    (ok : ∀ range ∈ ranges, range.Valid) :
    stringToRanges (ranges.foldl appendRange []) = some ranges := by
  have split : splitString (ranges.foldl appendRange []) 0x2c = ranges.map ChunkRange.text := by
    rw [foldl_appendRange_nil ok]
    apply Library.components_intercalate (by simpa using some_)
    · intro part mem inPart
      obtain ⟨range, isRange, rfl⟩ := List.mem_map.mp mem
      exact (text_plain (ok range isRange) inPart).2 rfl
    · intro part mem
      obtain ⟨range, isRange, rfl⟩ := List.mem_map.mp mem
      exact trim_eq_self fun c inPart => (text_plain (ok range isRange) inPart).1
  rw [stringToRanges, split]
  clear split some_
  induction ranges with
  | nil => rfl
  | cons range ranges ih =>
    have first := ok range mem_cons_self
    have pos := first.positive
    have ordered := first.ordered
    have nonzero : ¬(range.start = 0 ∨ range.stop = 0) := by omega
    rw [map_cons, mapM_cons, ih (forall_mem_cons.mp ok).2]
    simp [chunkPartToRange_text first, nonzero]

/-- The three loops stop, and give the numbers once each in increasing
order. -/
def RoundTrips (chunks : List Int) : Prop :=
  ∃ result ranges numbers, (∃ fuel, chunksToRangeString fuel chunks = some result) ∧
    stringToRanges result = some ranges ∧
    (∃ fuel, rangesToChunks fuel ranges = some numbers) ∧
    numbers.Pairwise (· < ·) ∧ ∀ number, number ∈ numbers ↔ number ∈ chunks

/-- Chunk numbers make the round trip exactly when the largest `int` is not
among them: the range it ends in is extended, or counted up, without end. -/
theorem roundTrips_iff {chunks : List Int} (some_ : chunks ≠ [])
    (small : ∀ chunk ∈ chunks, 0 < chunk ∧ chunk < 2 ^ 31) :
    RoundTrips chunks ↔ 2 ^ 31 - 1 ∉ chunks := by
  have mem : ∀ chunk, chunk ∈ chunks.mergeSort (· <= ·) ↔ chunk ∈ chunks :=
    fun chunk => mem_mergeSort
  have sorted : (chunks.mergeSort (· <= ·)).Pairwise (· <= ·) := by
    have bySort := @List.pairwise_mergeSort Int (fun left right => decide (left <= right))
      (by simpa using fun _ _ _ => le_trans) (by simpa using le_total) chunks
    simpa using bySort
  have small' : ∀ chunk ∈ chunks.mergeSort (· <= ·), 0 < chunk ∧ chunk < 2 ^ 31 :=
    fun chunk inside => small chunk ((mem chunk).mp inside)
  constructor
  · rintro ⟨result, ranges, numbers, ⟨fuel, formed⟩, read, ⟨fuel', expanded⟩, -, -⟩ largest
    rw [chunksToRangeString, formatRanges_eq, map_eq_some_iff] at formed
    obtain ⟨ranges', formed, rfl⟩ := formed
    obtain ⟨valid, covered⟩ := rangesOf_covers fuel sorted small' formed
    obtain ⟨range, isRange, -, reaches⟩ := covered _ ((mem _).mpr largest)
    have someRanges : ranges' ≠ [] := ne_nil_of_mem isRange
    rw [stringToRanges_foldl_appendRange someRanges valid] at read
    cases read
    have fits := (valid range isRange).fits
    rw [rangesToChunks_largest isRange (valid range isRange) (by omega)] at expanded
    cases expanded
  · intro without
    obtain ⟨ranges, formed, stops, increasing, same⟩ :=
      rangesOf_numbers (chunks.mergeSort (· <= ·)).length sorted (fun chunk inside => by
          have bound := small' chunk inside
          have : chunk ≠ 2 ^ 31 - 1 := fun isLargest => without (isLargest ▸ (mem chunk).mp inside)
          omega)
        (le_refl _)
    obtain ⟨valid, covered⟩ := rangesOf_covers _ sorted small' formed
    have someRanges : ranges ≠ [] := by
      obtain ⟨first, isFirst⟩ := exists_mem_of_ne_nil _ some_
      obtain ⟨range, isRange, -⟩ := covered first ((mem first).mpr isFirst)
      exact ne_nil_of_mem isRange
    refine ⟨_, ranges, _, ⟨(chunks.mergeSort (· <= ·)).length, ?_⟩,
      stringToRanges_foldl_appendRange someRanges valid,
      ⟨2 ^ 31, rangesToChunks_eq valid stops⟩, increasing, fun number => ?_⟩
    · rw [chunksToRangeString, formatRanges_eq, formed]
      rfl
    · rw [same, mem]

/-- Numbers in any order, one of them twice. -/
theorem roundTrips_shuffled : RoundTrips [7, 2, 1, 2] :=
  (roundTrips_iff (by decide) (by decide)).mpr (by decide)

/-- The largest `int` alone is never left behind. -/
theorem not_roundTrips : ¬∀ chunks : List Int, chunks ≠ [] ->
      (∀ chunk ∈ chunks, 0 < chunk ∧ chunk < 2 ^ 31) -> RoundTrips chunks := by
  intro claim
  have small : ∀ chunk ∈ [(2147483647 : Int)], 0 < chunk ∧ chunk < 2 ^ 31 := by decide
  obtain ⟨result, -, -, ⟨fuel, formed⟩, -⟩ := claim [2147483647] (by decide) small
  have stuck : ∀ fuel (text : Bytes), formatRanges fuel [2147483647] text = none := by
    intro fuel
    induction fuel with
    | zero => exact fun _ => rfl
    | succ fuel ih => exact fun text => ih _
  rw [chunksToRangeString, mergeSort_singleton, stuck] at formed
  cases formed

end Chromium.SafeBrowsing
