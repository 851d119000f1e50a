import Chromium.DiskCache.MemEntrySparse

/-!
# Available ranges of the memory cache

`GetAvailableRange` looks for the first sparse data in a window and counts the
bytes that follow one another from there. The windows are short enough for
the sums of the source.
-/

namespace Chromium.DiskCache.MemEntry

open List

/-- The loop of `FindNextChild`. -/
def findLoop (children : Int -> Option MemChild) (offset len : Int) :
    Nat -> Int -> Int × Option MemChild
  | 0, scanned_len => (scanned_len, none)
  | rounds + 1, scanned_len =>
    if scanned_len < len then
      let current_child_offset := toChildOffset (offset + scanned_len)
      let next := findLoop children offset len rounds
        (scanned_len + ((kMaxSparseEntrySize : Int) - current_child_offset))
      match children (toChildIndex (offset + scanned_len)) with
      | none => next
      | some child =>
        let first_pos := max current_child_offset child.firstPos
        if first_pos < child.dataSize then
          (scanned_len + ((first_pos : Int) - current_child_offset), some child)
        else next
    else (scanned_len, none)

/-- `FindNextChild`. -/
def findNextChild (children : Int -> Option MemChild) (offset len : Int) : Int × Option MemChild :=
  findLoop children offset len len.toNat 0

/-- The loop of `GetAvailableRange`. -/
def countLoop (children : Int -> Option MemChild) (start : Int) :
    Nat -> Int -> Int -> Option MemChild -> Int
  | 0, _, continuous, _ => continuous
  | _ + 1, _, continuous, none => continuous
  | rounds + 1, len, continuous, some current_child =>
    if len = 0 then continuous
    else
      let data_size : Int :=
        min ((current_child.dataSize : Int) - toChildOffset (start + continuous)) len
      let (empty, next) := findNextChild children
        (start + (continuous + data_size)) (len - data_size)
      if empty ≠ 0 then continuous + data_size
      else countLoop children start rounds (len - data_size) (continuous + data_size) next

/-- `GetAvailableRange`: the length and the start of the range. -/
def getAvailableRange (entry : MemEntry) (offset len : Int) :
    MemEntry × Except NetError (Int × Int) :=
  match entry.initSparseInfo with
  | none => (entry, .error .cacheOperationNotSupported)
  | some children =>
    let entry := { entry with children := some children }
    if offset < 0 ∨ len < 0 then (entry, .error .invalidArgument)
    else
      match findNextChild children offset len with
      | (_, none) => (entry, .ok (0, offset))
      | (empty, some current_child) =>
        let start := offset + empty
        let len := len - empty
        (entry, .ok (countLoop children start (len.natAbs + 1) len 0 (some current_child), start))

/-- What a sparse call leaves, whether it succeeds or not. -/
def sparse (behind : Nat -> UInt8) (maxFileSize : Int) (entry : MemEntry) : SparseCall -> MemEntry
  | .write offset buf => (entry.internalWriteSparseData maxFileSize offset buf).1
  | .read offset bufLen => (entry.internalReadSparseData behind offset bufLen).1

/-- The child has a byte for a position. -/
def HasByte (children : Int -> Option MemChild) (child : MemChild) (pos : Int) : Prop :=
  children (toChildIndex pos) = some child ∧ child.firstPos <= toChildOffset pos ∧
      toChildOffset pos < child.dataSize

/-- A sparse read at a position finds a byte. -/
def Readable (entry : MemEntry) (pos : Int) : Prop :=
  ∃ children, entry.initSparseInfo = some children ∧ ∃ child, HasByte children child pos

/-- The range is inside the window, can be read at once, and starts with the
first byte there is. -/
def AvailableRange (behind : Nat -> UInt8) (entry : MemEntry) (offset len : Int) : Prop :=
  ∃ after count start bytes, entry.getAvailableRange offset len = (after, .ok (count, start)) ∧
    0 <= count ∧ count <= len ∧ offset <= start ∧ start + count <= offset + len ∧
    (after.internalReadSparseData behind start count).2 = .ok bytes ∧
    (bytes.length : Int) = count ∧
    (∀ pos, offset <= pos -> pos < start -> ¬after.Readable pos) ∧
    (count = 0 → ∀ pos, offset ≤ pos → pos < offset + len → ¬after.Readable pos)

/-- The window has no byte, nor has the position behind it, but the child of its
last position has one further on. -/
def Overshoots (entry : MemEntry) (offset len : Int) : Prop :=
  0 < len ∧ (∀ pos, offset ≤ pos → pos ≤ offset + len → ¬entry.Readable pos) ∧
    ∃ pos, offset + len < pos ∧ pos / 2 ^ kMaxSparseEntryBits =
        (offset + len - 1) / 2 ^ kMaxSparseEntryBits ∧
      entry.Readable pos

/-- No child has more data than its positions. -/
def Short (children : Int -> Option MemChild) : Prop :=
  ∀ index child, children index = some child -> child.dataSize <= kMaxSparseEntrySize

variable {children : Int -> Option MemChild} {child : MemChild} {offset len : Int}

theorem Short.update (short : Short children) (fits : child.dataSize <= kMaxSparseEntrySize) :
    Short (Function.update children index (some child)) := by
  intro other present isPresent
  by_cases here : other = index
  · rw [here, Function.update_self] at isPresent
    cases isPresent
    exact fits
  · rw [Function.update_of_ne here] at isPresent
    exact short other present isPresent

variable {maxFileSize : Int} {behind : Nat -> UInt8}

theorem internalWriteData_short {buf : Bytes} {place : Nat}
    (short : child.dataSize <= kMaxSparseEntrySize)
    (fits : place + buf.length <= kMaxSparseEntrySize) :
    (child.internalWriteData maxFileSize place buf true).1.dataSize <= kMaxSparseEntrySize := by
  unfold MemChild.internalWriteData
  split
  · exact short
  · split
    · dsimp only
      split_ifs <;> omega
    · dsimp only
      split_ifs <;> omega

theorem writeLoop_short :
    ∀ (children : Int → Option MemChild) (remaining : Bytes) (consumed : Nat), Short children →
        Short (writeLoop maxFileSize offset rounds children remaining consumed).1 := by
  induction rounds with
  | zero => exact fun _ _ _ short => short
  | succ rounds ih =>
    intro children remaining consumed short
    rw [writeLoop]
    split
    · exact short
    dsimp only
    generalize toChildIndex (offset + consumed) = index
    have within := toChildOffset_lt (offset + consumed)
    generalize toChildOffset (offset + consumed) = place at within
    have before : ((children index).getD .fresh).dataSize <= kMaxSparseEntrySize := by
      cases present : children index with
      | none => exact Nat.zero_le _
      | some child => exact short index child present
    generalize (children index).getD .fresh = child at before
    have after := @internalWriteData_short child maxFileSize
      (remaining.take (min remaining.length (kMaxSparseEntrySize - place))) place
      before (by rw [length_take]; omega)
    generalize child.internalWriteData maxFileSize place _ true = written at after
    obtain ⟨written, result⟩ := written
    cases result with
    | error error => exact short.update after
    | ok count =>
      cases count with
      | zero => exact short.update after
      | succ count =>
        apply ih
        apply short.update
        split
        · exact after
        · exact after

/-- An entry is sparse, or becomes so, with short children. -/
def IsSparse (entry : MemEntry) : Prop :=
  ∃ children, entry.initSparseInfo = some children ∧ Short children

theorem IsSparse.sparse {entry : MemEntry} (isSparse : entry.IsSparse) (call : SparseCall) :
    (entry.sparse behind maxFileSize call).IsSparse := by
  obtain ⟨children, starts, short⟩ := isSparse
  cases call with
  | read offset bufLen =>
    refine ⟨children, ?_, short⟩
    rw [MemEntry.sparse, internalReadSparseData, starts]
    dsimp only
    split
    · rfl
    · rfl
  | write offset buf =>
    rw [MemEntry.sparse, internalWriteSparseData, starts]
    dsimp only
    split
    · exact ⟨children, rfl, short⟩
    · exact ⟨_, rfl, writeLoop_short _ _ _ short⟩

theorem foldl_isSparse {calls : List SparseCall} :
    (calls.foldl (sparse behind maxFileSize) fresh).IsSparse := by
  have start : fresh.IsSparse := by
    refine ⟨_, rfl, ?_⟩
    exact Short.update (fun _ _ present => by cases present) (Nat.zero_le _)
  generalize fresh = entry at start
  induction calls generalizing entry with
  | nil => exact start
  | cons call calls ih => exact ih _ (start.sparse call)

theorem HasByte.add (has : HasByte children child pos) (short : Short children)
    (lt : toChildOffset pos + further < child.dataSize) :
    HasByte children child (pos + further) := by
  have fits := short _ _ has.1
  have cell := @cellOf_add pos further (by omega)
  rw [cellOf, Prod.mk.injEq] at cell
  exact ⟨cell.1.symm ▸ has.1, by have := has.2.1; omega, by omega⟩

/-- A position of the rest of a child has its byte there. -/
theorem HasByte.of_add {further : Nat} (has : HasByte children child (pos + further))
    (lt : toChildOffset pos + further < kMaxSparseEntrySize) :
    children (toChildIndex pos) = some child ∧ child.firstPos <= toChildOffset pos + further ∧
        toChildOffset pos + further < child.dataSize := by
  have cell := @cellOf_add pos further lt
  rw [cellOf, Prod.mk.injEq] at cell
  obtain ⟨present, first, last⟩ := has
  rw [cell.1] at present
  rw [cell.2] at first last
  exact ⟨present, first, last⟩

/-- No child has a byte from one position up to another. -/
def Hole (children : Int -> Option MemChild) (first last : Int) : Prop :=
  ∀ pos, first <= pos -> pos < last -> ∀ child, ¬HasByte children child pos

theorem Hole.append (front : Hole children first middle) (back : Hole children middle last) :
    Hole children first last := by
  intro pos after before
  rcases lt_or_ge pos middle with early | late
  · exact front pos after early
  · exact back pos late before

/-- What `FindNextChild` has found. -/
structure Finds (children : Int -> Option MemChild) (offset len first : Int)
    (result : Int × Option MemChild) : Prop where
  scanned : first <= result.1
  hole : Hole children (offset + first) (offset + result.1)
  none : result.2 = none -> len <= result.1 ∧
    (result.1 = first ∨ (offset + result.1) % 2 ^ kMaxSparseEntryBits = 0)
  some : ∀ child, result.2 = some child -> HasByte children child (offset + result.1) ∧
      ∃ scanned < len, scanned <= result.1 ∧ (offset + scanned) / 2 ^ kMaxSparseEntryBits =
          (offset + result.1) / 2 ^ kMaxSparseEntryBits

theorem findLoop_finds (short : Short children) (rounds : Nat) :
    ∀ scanned : Int, len - scanned <= rounds -> Finds children offset len scanned
        (findLoop children offset len rounds scanned) := by
  induction rounds with
  | zero =>
    intro scanned enough
    rw [findLoop]
    exact ⟨le_refl _, fun _ _ _ => by omega, fun _ => ⟨by omega, .inl rfl⟩,
      fun _ hit => by cases hit⟩
  | succ rounds ih =>
    intro scanned enough
    rw [findLoop]
    split
    · rename_i remains
      have within := toChildOffset_lt (offset + scanned)
      have isPlace : ((toChildOffset (offset + scanned) : Nat) : Int) =
          (offset + scanned) % 2 ^ kMaxSparseEntryBits := by
        rw [toChildOffset, kMaxSparseEntryBits]
        omega
      simp only [kMaxSparseEntrySize, kMaxSparseEntryBits] at within isPlace ⊢
      generalize placeIs : toChildOffset (offset + scanned) = place at *
      -- Without a byte in the rest of this child the scan goes on behind it.
      have skip : (∀ child, children (toChildIndex (offset + scanned)) = some child ->
            child.dataSize <= max place child.firstPos) ->
          Finds children offset len scanned (findLoop children offset len rounds
            (scanned + (((2 ^ 12 : Nat) : Int) - place))) := by
        intro empty
        have next := ih (scanned + (((2 ^ 12 : Nat) : Int) - place)) (by omega)
        have rest : Hole children (offset + scanned)
            (offset + (scanned + (((2 ^ 12 : Nat) : Int) - place))) := by
          intro pos after before child has
          obtain ⟨further, rfl⟩ := Int.le.dest after
          obtain ⟨present, first, last⟩ := has.of_add (by
            rw [placeIs, kMaxSparseEntrySize, kMaxSparseEntryBits]
            omega)
          have none := empty child present
          omega
        refine ⟨by have := next.scanned; omega, rest.append next.hole, ?_, ?_⟩
        · intro none
          obtain ⟨far, whole⟩ := next.none none
          refine ⟨far, .inr ?_⟩
          rcases whole with same | whole
          · rw [same, kMaxSparseEntryBits]
            omega
          · exact whole
        · intro child hit
          obtain ⟨has, other, small, before, same⟩ := next.some child hit
          exact ⟨has, other, small, before, same⟩
      split
      · rename_i absent
        exact skip fun child present => by rw [absent] at present; cases present
      · rename_i child present
        split
        · rename_i some
          have fits := short _ child present
          rw [kMaxSparseEntrySize, kMaxSparseEntryBits] at fits
          obtain ⟨further, isFirst⟩ := Nat.exists_eq_add_of_le (le_max_left place child.firstPos)
          rw [isFirst] at some ⊢
          have behind : scanned + (((place + further : Nat) : Int) - place) =
              scanned + further := by
            omega
          rw [behind]
          have cell := @cellOf_add (offset + scanned) further (by
            rw [placeIs, kMaxSparseEntrySize, kMaxSparseEntryBits]
            omega)
          rw [cellOf, Prod.mk.injEq, placeIs] at cell
          refine ⟨by dsimp only; omega, ?_, fun none => (by cases none), ?_⟩
          · intro pos after before other has
            obtain ⟨less, rfl⟩ := Int.le.dest after
            obtain ⟨isOther, first, -⟩ := has.of_add (by
              rw [placeIs, kMaxSparseEntrySize, kMaxSparseEntryBits]
              omega)
            rw [present] at isOther
            cases isOther
            omega
          · rintro other ⟨⟩
            rw [← add_assoc]
            refine ⟨⟨cell.1.symm ▸ present, by omega, by omega⟩, scanned, remains, by omega, ?_⟩
            rw [kMaxSparseEntryBits]
            omega
        · rename_i none
          exact skip fun other isOther => by
            rw [present] at isOther
            cases isOther
            exact not_lt.mp none
    · exact ⟨le_refl _, fun _ _ _ => by omega, fun _ => ⟨by dsimp only; omega, .inl rfl⟩,
        fun _ hit => by cases hit⟩

theorem findNextChild_finds (short : Short children) :
    Finds children offset len 0 (findNextChild children offset len) :=
  findLoop_finds short _ 0 (by omega)

/-- Every position from one up to another has a byte. -/
def Filled (children : Int -> Option MemChild) (first last : Int) : Prop :=
  ∀ pos, first <= pos -> pos < last -> ∃ child, HasByte children child pos

/-- The bytes counted follow one another, and there is one if there is room. -/
theorem countLoop_filled (short : Short children) (rounds : Nat) :
    ∀ (len continuous : Int) (cur : Option MemChild), 0 <= len ->
      Filled children start (start + continuous) ->
      (∀ child, cur = some child -> HasByte children child (start + continuous)) ->
      let count := countLoop children start rounds len continuous cur
      continuous <= count ∧ count <= continuous + len ∧ Filled children start (start + count) ∧
        (0 < rounds -> 0 < len -> cur ≠ none -> continuous < count) := by
  induction rounds with
  | zero =>
    intro len continuous cur room filled _
    exact ⟨le_refl _, by simp only [countLoop]; omega, filled,
      fun none => absurd none (lt_irrefl 0)⟩
  | succ rounds ih =>
    intro len continuous cur room filled has
    cases cur with
    | none =>
      exact ⟨le_refl _, by simp only [countLoop]; omega, filled, fun _ _ none => absurd rfl none⟩
    | some child =>
      have here := has child rfl
      rw [countLoop]
      split
      · rename_i none
        exact ⟨le_refl _, by omega, filled, fun _ some => by omega⟩
      · rename_i some
        have bytes := here.2.2
        generalize sizeIs : min ((child.dataSize : Int) -
          toChildOffset (start + continuous)) len = data_size
        have more : Filled children start (start + (continuous + data_size)) := by
          intro pos after before
          rcases lt_or_ge pos (start + continuous) with early | late
          · exact filled pos after early
          · obtain ⟨further, rfl⟩ := Int.le.dest late
            exact ⟨child, here.add short (by omega)⟩
        have finds := @findNextChild_finds children
          (start + (continuous + data_size)) (len - data_size) short
        dsimp only
        generalize findNextChild children (start + (continuous + data_size))
          (len - data_size) = hit at finds
        obtain ⟨empty, next⟩ := hit
        dsimp only
        split
        · exact ⟨by omega, by omega, more, fun _ _ _ => by omega⟩
        · rename_i adjacent
          rw [not_not] at adjacent
          obtain ⟨least, most, whole, -⟩ := ih (len - data_size)
            (continuous + data_size) next (by omega) more (by
              intro child hit
              have at_ := (finds.some child hit).1
              rwa [adjacent, add_zero] at at_)
          exact ⟨by omega, by omega, whole, fun _ _ _ => by omega⟩

/-- A read of positions that have bytes is as long as they are. -/
theorem length_readLoop (rounds : Nat) :
    ∀ (remaining : Nat) (consumed : Bytes), remaining ≤ rounds → remaining + 2 ^ 12 ≤ 2 ^ 31 →
      Filled children (offset + consumed.length) (offset + consumed.length + remaining) ->
      (readLoop behind children offset rounds remaining consumed).length =
        consumed.length + remaining := by
  induction rounds with
  | zero =>
    intro remaining consumed enough fits filled
    rw [readLoop]
    omega
  | succ rounds ih =>
    intro remaining consumed enough fits filled
    rw [readLoop]
    split
    · omega
    · obtain ⟨child, present, first, last⟩ :=
        filled (offset + consumed.length) (le_refl _) (by omega)
      have within := toChildOffset_lt (offset + consumed.length)
      rw [kMaxSparseEntrySize, kMaxSparseEntryBits] at within
      rw [present]
      dsimp only
      rw [if_neg (by omega)]
      have size : (child.internalReadData behind
          (toChildOffset (offset + consumed.length)) remaining).length =
            min remaining (child.dataSize - toChildOffset (offset + consumed.length)) := by
        unfold MemChild.internalReadData
        rw [if_neg (by omega), Int.bmod_eq_of_le (by omega) (by omega)]
        rw [length_map, length_range]
        split <;> omega
      generalize child.internalReadData behind
        (toChildOffset (offset + consumed.length)) remaining = bytes at size
      have some : bytes.isEmpty = false := by
        rw [isEmpty_eq_false_iff, ← length_pos_iff]
        omega
      rw [some, if_neg Bool.false_ne_true, ih _ _ (by omega) (by omega)]
      · rw [length_append]
        omega
      · intro pos after before
        rw [length_append] at after before
        exact filled pos (by omega) (by omega)

end Chromium.DiskCache.MemEntry
