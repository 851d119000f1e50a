import Chromium.Base.DecimalStrings
import Chromium.Library.Loop
import Chromium.SafeBrowsing.Util

/-!
# Parsing full hashes

`ParseGetHash` without a key. The parser walks over the data with a pointer
and a length; a byte is read only inside the data, and a read outside of it is
a result of its own.
-/

namespace Chromium.SafeBrowsing

open List Int Nat
open Base Library

section

variable (input : Bytes)

/-- The byte at a place, if there is one. -/
def byteAt (place : Int) : Option UInt8 := if 0 <= place then input[place.toNat]? else none

/-- The loop of `GetLine`. Nothing is read outside; without a line there is
nothing in the inner result. -/
def getLineFrom (input : Bytes) : Nat -> Int -> Bytes -> Option (Option Bytes)
  | 0, _, _ => some none
  | left + 1, pos, line =>
    match byteAt input pos with
    | none => none
    | some c =>
      if c = 0x0a then some (some line)
      else getLineFrom input left (pos + 1) (line ++ [c])

/-- `GetLine`. -/
def getLine (data length : Int) : Option (Option Bytes) :=
  getLineFrom input length.toNat data []

/-- The copy of a full hash. -/
def readFullHash (data : Int) : Option SBFullHash :=
  if 0 <= data ∧ data + 32 <= input.length then
    some ⟨Vector.ofFn fun index : Fin 32 => input.getD (data.toNat + index) 0⟩
  else none

/-- The names of the lists, in the order of `ListType`. -/
def listNames : List Bytes :=
  ["goog-malware-shavar", "goog-phish-shavar", "goog-badbinurl-shavar",
    "goog-badbin-digestvar", "goog-csdwhite-sha256"].map fun name =>
      name.toList.map fun c => UInt8.ofNat c.toNat

/-- `GetListId`. -/
def getListId (name : Bytes) : Int :=
  match listNames.idxOf? name with
  | some id => id
  | none => -1

/-- `SBFullHashResult`. -/
structure SBFullHashResult where
  hash : SBFullHash
  listName : Bytes
  addChunkId : Int
  deriving DecidableEq

/-- The loop over the hashes of a recognised list: where it leaves the data
pointer, and the hashes so far. -/
def copyHashes (input : Bytes) (list_name : Bytes) (add_chunk_id : Int) :
    Nat -> Int -> Int -> List SBFullHashResult -> Option (Int × List SBFullHashResult)
  | 0, data, _, full_hashes => some (data, full_hashes)
  | turns + 1, data, full_hash_len, full_hashes =>
    if 0 < full_hash_len then
      match readFullHash input data with
      | none => none
      | some hash =>
        copyHashes input list_name add_chunk_id turns (data + 32) (full_hash_len - 32)
          (full_hashes ++ [⟨hash, list_name, add_chunk_id⟩])
    else some (data, full_hashes)

/-- The variables of the loop of `ParseGetHash`. -/
structure GetHashState where
  data : Int
  length : Int
  fullHashes : List SBFullHashResult

/-- A turn of the loop of `ParseGetHash`. It stops with the return value and
the hashes, or with nothing when it reads outside the data. -/
def parseGetHashTurn (state : GetHashState) :
    GetHashState ⊕ Option (Bool × List SBFullHashResult) :=
  if ¬0 < state.length then .inr (some (state.length == 0, state.fullHashes))
  else
    match getLine input state.data state.length with
    | none => .inr none
    | some none => .inr (some (false, state.fullHashes))
    | some (some line) =>
      let offset : Int := line.length + 1
      let data := state.data + offset
      let length := state.length - offset
      match splitString line 0x3a with
      | [list_name, add_chunk_id, len] =>
        let full_hash_len := atoi len
        if getListId list_name < 0 then
          .inl ⟨data + full_hash_len, (length - full_hash_len).bmod (2 ^ 32), state.fullHashes⟩
        else
          match copyHashes input list_name (atoi add_chunk_id)
              full_hash_len.toNat data full_hash_len state.fullHashes with
          | none => .inr none
          | some (after, fullHashes) =>
            .inl ⟨after, (length - (after - data)).bmod (2 ^ 32), fullHashes⟩
      | _ => .inr (some (false, state.fullHashes))

end

/-- `ParseGetHash` with an empty key, for at most `fuel` turns. -/
def parseGetHash (fuel : Nat) (chunk_data : Bytes) :
    Option (Option (Bool × List SBFullHashResult)) :=
  runLoop (parseGetHashTurn chunk_data) fuel ⟨0, chunk_data.length, []⟩

/-- The line that announces hashes, and what comes after it. -/
structure HashRecord where
  listName : Bytes
  addChunkId : Int
  len : Int
  after : Bytes

/-- The record that some data starts with. -/
def record? (rest : Bytes) : Option HashRecord :=
  let line := rest.takeWhile (· != 0x0a)
  if line.length < rest.length then
    match splitString line 0x3a with
    | [list_name, add_chunk_id, len] =>
      some ⟨list_name, atoi add_chunk_id, atoi len, rest.drop (line.length + 1)⟩
    | _ => none
  else none

/-- The list of the record is one of those known. -/
def HashRecord.Recognised (record : HashRecord) : Prop := 0 <= getListId record.listName

/-- The data is a sequence of records, each with as many bytes as it says, and
for a recognised list these are the hashes. -/
inductive Records : Bytes -> List SBFullHashResult -> Prop
  | nil : Records [] []
  | unknown {rest bytes after : Bytes} {record : HashRecord} {hashes : List SBFullHashResult}
      (found : record? rest = some record)
      (other : ¬record.Recognised)
      (split : record.after = bytes ++ after)
      (length : record.len = bytes.length)
      (before : Records after hashes) :
      Records rest hashes
  | known {rest after : Bytes} {record : HashRecord}
      {pieces : List SBFullHash} {hashes : List SBFullHashResult}
      (found : record? rest = some record)
      (recognised : record.Recognised)
      (split : record.after = pieces.flatMap (·.fullHash.toList) ++ after)
      (length : record.len = 32 * pieces.length)
      (before : Records after hashes) :
      Records rest (pieces.map (⟨·, record.listName, record.addChunkId⟩) ++ hashes)

/-- The whole hashes that the loop copies for a length. -/
def hashCount (len : Int) : Nat := (len.toNat + 31) / 32

/-- The walk over the data comes to a place, before its end, where there is no
record or where too few bytes are left to skip. The bytes of a record that
are stepped over may be any number for which the walk stays inside. -/
inductive GivesUp (input : Bytes) : Nat -> Prop
  | noRecord {place : Nat} (inside : place < input.length)
      (missing : record? (input.drop place) = none) :
      GivesUp input place
  | overrun {place : Nat} {record : HashRecord} (found : record? (input.drop place) = some record)
      (other : ¬record.Recognised)
      (tooFew : record.after.length < record.len ∨ 2 ^ 31 <= record.after.length - record.len) :
      GivesUp input place
  | skip {place next : Nat} {record : HashRecord} (found : record? (input.drop place) = some record)
      (other : ¬record.Recognised)
      (skipped : (next : Int) + record.after.length = input.length + record.len)
      (before : GivesUp input next) :
      GivesUp input place
  | copied {place next : Nat} {record : HashRecord}
      (found : record? (input.drop place) = some record)
      (recognised : record.Recognised)
      (taken : next + record.after.length = input.length + 32 * hashCount record.len)
      (before : GivesUp input next) :
      GivesUp input place

theorem GivesUp.inside (givesUp : GivesUp input place) : place < input.length := by
  have ne : ∀ {record}, record? (input.drop place) = some record -> place < input.length := by
    intro record hit
    by_contra outside
    rw [drop_eq_nil_of_le (by omega)] at hit
    cases hit
  cases givesUp with
  | noRecord inside _ => exact inside
  | overrun hit _ _ => exact ne hit
  | skip hit _ _ _ => exact ne hit
  | copied hit _ _ _ => exact ne hit

section Turn

variable {input : Bytes} {place : Nat}

theorem byteAt_of_drop (here : input.drop place = c :: rest) : byteAt input place = some c := by
  have hit := congrArg head? here
  rw [head?_drop, head?_cons] at hit
  rw [byteAt, if_pos (by omega), toNat_natCast, hit]

theorem getLineFrom_eq : ∀ (place : Nat) (line : Bytes), input.drop place = rest ->
      getLineFrom input rest.length place line =
        some (if (rest.takeWhile (· != 0x0a)).length < rest.length then
          some (line ++ rest.takeWhile (· != 0x0a)) else none) := by
  induction rest with
  | nil =>
    intro place line here
    rfl
  | cons c rest ih =>
    intro place line here
    have behind : input.drop (place + 1) = rest := by rw [← drop_drop, here, drop_one, tail_cons]
    rw [length_cons, getLineFrom, byteAt_of_drop here]
    by_cases newline : c = 0x0a
    · simp [newline]
    · have next := ih (place + 1) (line ++ [c]) behind
      rw [Nat.cast_add, Nat.cast_one] at next
      simp [newline, next]

/-- The parser at a place inside the data. -/
def atPlace (input : Bytes) (place : Nat) (hashes : List SBFullHashResult) : GetHashState :=
  ⟨place, (input.length : Int) - place, hashes⟩

theorem getLine_atPlace : getLine input place ((input.length : Int) - place) =
      some (if ((input.drop place).takeWhile (· != 0x0a)).length < (input.drop place).length then
        some ((input.drop place).takeWhile (· != 0x0a)) else none) := by
  have left : ((input.length : Int) - place).toNat = (input.drop place).length := by
    rw [length_drop]
    omega
  rw [getLine, left, getLineFrom_eq place [] rfl, nil_append]

theorem turn_end : parseGetHashTurn input (atPlace input input.length hashes) =
      .inr (some (true, hashes)) := by
  simp [parseGetHashTurn, atPlace]

theorem turn_missing (lt : place < input.length) (missing : record? (input.drop place) = none) :
    parseGetHashTurn input (atPlace input place hashes) = .inr (some (false, hashes)) := by
  simp only [record?] at missing
  simp only [parseGetHashTurn, atPlace, getLine_atPlace]
  rw [if_neg (by omega)]
  split_ifs at missing ⊢ with long
  · split at missing
    · cases missing
    · rename_i others
      dsimp only
      split
      · rename_i splits
        exact absurd splits (others _ _ _)
      · rfl
  · rfl

theorem length_after (hit : record? (input.drop place) = some record) :
    place + ((input.drop place).takeWhile (· != 0x0a)).length + 1 +
      record.after.length = input.length := by
  simp only [record?] at hit
  split_ifs at hit with long
  split at hit
  · cases hit
    rw [length_drop] at long
    rw [length_drop, length_drop]
    omega
  · cases hit

theorem turn_other (hit : record? (input.drop place) = some record) (other : ¬record.Recognised) :
    parseGetHashTurn input (atPlace input place hashes) =
      .inl ⟨input.length - record.after.length + record.len,
        ((record.after.length : Int) - record.len).bmod (2 ^ 32), hashes⟩ := by
  have whole := length_after hit
  simp only [record?] at hit
  simp only [parseGetHashTurn, atPlace, getLine_atPlace]
  rw [if_neg (by omega)]
  split_ifs at hit ⊢ with long
  split at hit
  · rename_i splits
    cases hit
    simp only [splits]
    rw [if_pos (not_le.mp other)]
    dsimp only at whole ⊢
    congr 2
    · omega
    · congr 1
      omega
  · cases hit

theorem turn_known (hit : record? (input.drop place) = some record)
    (recognised : record.Recognised) :
    parseGetHashTurn input (atPlace input place hashes) =
      match copyHashes input record.listName record.addChunkId
          record.len.toNat (input.length - record.after.length : Nat)
          record.len hashes with
      | none => .inr none
      | some (after, hashes) =>
        .inl ⟨after, ((input.length : Int) - after).bmod (2 ^ 32), hashes⟩ := by
  have whole := length_after hit
  simp only [record?] at hit
  simp only [parseGetHashTurn, atPlace, getLine_atPlace]
  rw [if_neg (by omega)]
  split_ifs at hit ⊢ with long
  split at hit
  · rename_i splits
    cases hit
    simp only [splits]
    rw [if_neg (not_lt.mpr recognised)]
    dsimp only at whole ⊢
    have data : (place : Int) + (((input.drop place).takeWhile
        (· != 0x0a)).length + 1) = (input.length - ((input.drop place).drop
          (((input.drop place).takeWhile (· != 0x0a)).length + 1)).length : Nat) := by
      omega
    rw [data]
    split
    · rfl
    · congr 3
      omega
  · cases hit

end Turn

section Copying

variable {input : Bytes}

theorem readFullHash_of_drop {hash : SBFullHash}
    (here : input.drop place = hash.fullHash.toList ++ rest) :
    readFullHash input place = some hash := by
  have long := congrArg length here
  rw [length_drop, length_append, Vector.length_toList] at long
  rw [readFullHash, if_pos (by omega)]
  refine congrArg (fun bytes => some (SBFullHash.mk bytes)) (Vector.ext ?_)
  intro i bound
  have byte : (input.drop place)[i]? = (hash.fullHash.toList ++ rest)[i]? := by rw [here]
  rw [getElem?_drop, getElem?_append_left (by simpa using bound),
    Vector.getElem?_toList, Vector.getElem?_eq_getElem bound] at byte
  rw [Vector.getElem_ofFn, toNat_natCast, getD_eq_getElem?_getD, byte, Option.getD_some]

/-- Enough bytes are a number of hashes and some more. -/
theorem exists_pieces (n : Nat) : ∀ rest : Bytes, 32 * n <= rest.length ->
      ∃ (pieces : List SBFullHash) (after : Bytes), pieces.length = n ∧
          rest = pieces.flatMap (·.fullHash.toList) ++ after := by
  induction n with
  | zero => exact fun rest _ => ⟨[], rest, rfl, rfl⟩
  | succ n ih =>
    intro rest enough
    obtain ⟨pieces, after, length, split⟩ := ih (rest.drop 32) (by rw [length_drop]; omega)
    have first : (rest.take 32).length = 32 := by
      rw [length_take]
      omega
    refine ⟨⟨⟨(rest.take 32).toArray, by simpa using first⟩⟩ :: pieces, after,
      congrArg (· + 1) length, ?_⟩
    rw [flatMap_cons, append_assoc, ← split]
    exact (take_append_drop 32 rest).symm

theorem copyHashes_pieces {after : Bytes} (pieces : List SBFullHash) :
    ∀ (turns place : Nat) (len : Int) (hashes : List SBFullHashResult),
      input.drop place = pieces.flatMap (·.fullHash.toList) ++ after ->
      hashCount len = pieces.length -> pieces.length <= turns ->
      copyHashes input list_name add_chunk_id turns place len hashes =
        some ((place : Int) + 32 * pieces.length,
          hashes ++ pieces.map (⟨·, list_name, add_chunk_id⟩)) := by
  induction pieces with
  | nil =>
    intro turns place len hashes _ none _
    have stops : ¬0 < len := by
      rw [hashCount, length_nil] at none
      omega
    cases turns with
    | zero => simp [copyHashes]
    | succ turns => simp [copyHashes, stops]
  | cons hash pieces ih =>
    intro turns place len hashes here n bound
    rw [hashCount, length_cons] at n
    rw [flatMap_cons, append_assoc] at here
    have behind : input.drop (place + 32) = pieces.flatMap (·.fullHash.toList) ++ after := by
      rw [← drop_drop, here]
      exact drop_left' (Vector.length_toList)
    cases turns with
    | zero => cases bound
    | succ turns =>
      have next := ih turns (place + 32) (len - 32)
        (hashes ++ [⟨hash, list_name, add_chunk_id⟩]) behind
        (by rw [hashCount]; omega) (le_of_succ_le_succ bound)
      rw [Nat.cast_add, Nat.cast_ofNat] at next
      rw [copyHashes, if_pos (by omega), readFullHash_of_drop here]
      dsimp only
      rw [next, append_assoc, length_cons, cast_succ]
      congr 2
      omega

theorem copyHashes_short (turns : Nat) :
    ∀ (place : Nat) (len : Int) (hashes : List SBFullHashResult),
      place ≤ input.length → input.length < place + 32 * hashCount len → hashCount len ≤ turns →
      copyHashes input list_name add_chunk_id turns place len hashes = none := by
  induction turns with
  | zero =>
    intro place len hashes inside short bound
    omega
  | succ turns ih =>
    intro place len hashes inside short bound
    rw [hashCount] at short bound
    rw [copyHashes, if_pos (by omega)]
    by_cases enough : place + 32 <= input.length
    · obtain ⟨pieces, after, single, split⟩ := exists_pieces 1 (input.drop place)
        (by rw [length_drop]; omega)
      obtain ⟨hash, rfl⟩ := length_eq_one_iff.mp single
      rw [flatMap_singleton] at split
      rw [readFullHash_of_drop split]
      have next := ih (place + 32) (len - 32) (hashes ++ [⟨hash, list_name, add_chunk_id⟩]) enough
        (by rw [hashCount]; omega) (by rw [hashCount]; omega)
      exact next
    · rw [readFullHash, if_neg (by omega)]

end Copying

section Runs

variable {input : Bytes}

theorem drop_after (hit : record? (input.drop place) = some record) :
    record.after.length <= input.length ∧
      input.drop (input.length - record.after.length) = record.after := by
  have whole := length_after hit
  refine ⟨by omega, ?_⟩
  simp only [record?] at hit
  split_ifs at hit with long
  split at hit
  · cases hit
    rw [drop_drop] at whole ⊢
    congr 1
    omega
  · cases hit

theorem drop_behind {bytes after : Bytes} (bound : (bytes ++ after).length <= input.length)
    (here : input.drop (input.length - (bytes ++ after).length) = bytes ++ after) :
    input.drop (input.length - after.length) = after := by
  have places : input.length - after.length =
      input.length - (bytes ++ after).length + bytes.length := by
    rw [length_append] at bound ⊢
    omega
  rw [places, ← drop_drop, here, drop_left]

theorem hashCount_le : hashCount len <= len.toNat := by
  rw [hashCount]
  omega

theorem turn_pieces (small : input.length < 2 ^ 31) {place next : Nat} {record : HashRecord}
    {pieces : List SBFullHash} {after : Bytes} {hashes : List SBFullHashResult}
    (hit : record? (input.drop place) = some record) (recognised : record.Recognised)
    (split : record.after = pieces.flatMap (·.fullHash.toList) ++ after)
    (n : hashCount record.len = pieces.length)
    (taken : next + record.after.length = input.length + 32 * pieces.length)
    (inside : next <= input.length) :
    parseGetHashTurn input (atPlace input place hashes) = .inl (atPlace input next (hashes ++
        pieces.map (⟨·, record.listName, record.addChunkId⟩))) := by
  obtain ⟨bound, here⟩ := drop_after hit
  rw [turn_known hit recognised, copyHashes_pieces pieces _ _ _ _
    (here.trans split) n (n ▸ hashCount_le)]
  have moved : ((input.length - record.after.length : Nat) : Int) + 32 * pieces.length = next := by
    omega
  dsimp only
  rw [moved, bmod_eq_of_le (by omega) (by omega)]
  rfl

theorem turn_short
    (hit : record? (input.drop place) = some record) (recognised : record.Recognised)
    (short : record.after.length < 32 * hashCount record.len) :
    parseGetHashTurn input (atPlace input place hashes) = .inr none := by
  rw [turn_known hit recognised, copyHashes_short _ _ _ _ (by omega) (by omega) hashCount_le]

section

variable (small : input.length < 2 ^ 31)
include small

theorem turn_skip {place next : Nat} {record : HashRecord} {hashes : List SBFullHashResult}
    (hit : record? (input.drop place) = some record) (other : ¬record.Recognised)
    (skipped : (next : Int) + record.after.length = input.length + record.len)
    (inside : next <= input.length) :
    parseGetHashTurn input (atPlace input place hashes) = .inl (atPlace input next hashes) := by
  rw [turn_other hit other, bmod_eq_of_le (by omega) (by omega), atPlace]
  congr 2
  · omega
  · omega

theorem ends_of_records (records : Records rest found) :
    ∀ (place : Nat) (hashes : List SBFullHashResult),
      place <= input.length -> input.drop place = rest ->
      Ends (parseGetHashTurn input) (atPlace input place hashes)
        (some (true, hashes ++ found)) := by
  induction records with
  | nil =>
    intro place hashes inside here
    have last : place = input.length := by
      have empty := drop_eq_nil_iff.mp here
      omega
    rw [last, append_nil]
    exact .stop turn_end
  | @unknown rest bytes after record found starts other split length _ ih =>
    rintro place hashes inside rfl
    obtain ⟨bound, here⟩ := drop_after starts
    have total := congrArg List.length split
    rw [List.length_append] at total
    have behind := drop_behind (split ▸ bound) (split ▸ here)
    exact .next (turn_skip small starts other (by omega) (Nat.sub_le _ after.length))
      (ih _ hashes (Nat.sub_le _ _) behind)
  | @known rest after record pieces found starts recognised split length _ ih =>
    rintro place hashes inside rfl
    obtain ⟨bound, here⟩ := drop_after starts
    have total := congrArg List.length split
    have size : (pieces.flatMap (·.fullHash.toList)).length = 32 * pieces.length := by
      simp [List.length_flatMap, mul_comm]
    rw [List.length_append, size] at total
    have behind := drop_behind (split ▸ bound) (split ▸ here)
    have run := ih _ (hashes ++ pieces.map (⟨·, record.listName, record.addChunkId⟩))
      (Nat.sub_le _ _) behind
    rw [append_assoc] at run
    exact .next (turn_pieces small starts recognised split (by rw [hashCount]; omega)
        (by omega) (Nat.sub_le _ _)) run

/-- Where the walk gives up, so does the parser. -/
theorem ends_of_givesUp (givesUp : GivesUp input place) : ∀ hashes : List SBFullHashResult, ∃ hit,
      Ends (parseGetHashTurn input) (atPlace input place hashes) (some (false, hit)) := by
  induction givesUp with
  | noRecord inside missing => exact fun hashes => ⟨hashes, .stop (turn_missing inside missing)⟩
  | @overrun place record hit other tooFew =>
    intro hashes
    have bound := (drop_after hit).1
    have negative : ((record.after.length : Int) - record.len).bmod (2 ^ 32) < 0 := by
      have range : -2 ^ 31 <= record.len ∧ record.len < 2 ^ 31 := by
        simp only [record?] at hit
        split_ifs at hit
        split at hit
        · cases hit
          exact atoi_range
        · cases hit
      rcases tooFew with many | wrapped
      · rw [bmod_eq_of_le (by omega) (by omega)]
        omega
      · rw [bmod_def]
        omega
    refine ⟨hashes, .next (turn_other hit other) (.stop ?_)⟩
    rw [parseGetHashTurn, if_pos (by dsimp only; omega)]
    exact congrArg (fun ended => Sum.inr (some (ended, hashes)))
      (beq_eq_false_iff_ne.mpr negative.ne)
  | skip hit other skipped before ih =>
    intro hashes
    obtain ⟨result, ends⟩ := ih hashes
    exact ⟨result, .next (turn_skip small hit other skipped before.inside.le) ends⟩
  | @copied place next record hit recognised taken before ih =>
    intro hashes
    have inside := before.inside
    obtain ⟨pieces, after, n, split⟩ := exists_pieces
      (hashCount record.len) record.after (by omega)
    obtain ⟨result, ends⟩ := ih (hashes ++ pieces.map (⟨·, record.listName, record.addChunkId⟩))
    exact ⟨result, .next (turn_pieces small hit recognised split n.symm
      (by omega) inside.le) ends⟩

/-- The parser returns false only where the walk gives up. -/
theorem givesUp_of_ends (ends : Ends (parseGetHashTurn input) state result) :
    ∀ (place : Nat) (hashes hit : List SBFullHashResult),
      place <= input.length -> state = atPlace input place hashes ->
      result = some (false, hit) -> GivesUp input place := by
  induction ends with
  | stop stops =>
    rintro place hashes hit inside rfl rfl
    rcases inside.eq_or_lt with rfl | inside
    · rw [turn_end] at stops
      cases stops
    · cases starts : record? (input.drop place) with
      | none => exact .noRecord inside starts
      | some record =>
        by_cases recognised : record.Recognised
        · rw [turn_known starts recognised] at stops
          split at stops
          · cases stops
          · cases stops
        · rw [turn_other starts recognised] at stops
          cases stops
  | @next state after result goesOn rest ih =>
    rintro place hashes hit inside rfl rfl
    rcases inside.eq_or_lt with rfl | inside
    · rw [turn_end] at goesOn
      cases goesOn
    cases starts : record? (input.drop place) with
    | none => exact .noRecord inside starts
    | some record =>
      have bound := (drop_after starts).1
      by_cases recognised : record.Recognised
      · by_cases enough : 32 * hashCount record.len <= record.after.length
        · obtain ⟨pieces, behind, n, split⟩ := exists_pieces _ _ enough
          have turned := @turn_pieces _ small place
            (input.length + 32 * pieces.length - record.after.length) _ _ _
            hashes starts recognised split n.symm (by omega) (by omega)
          rw [goesOn] at turned
          exact .copied starts recognised (by omega) (ih _ _ _ (by omega) (Sum.inl.inj turned) rfl)
        · rw [turn_short starts recognised (by omega)] at goesOn
          cases goesOn
      · by_cases tooFew : record.after.length < record.len ∨
            2 ^ 31 <= record.after.length - record.len
        · exact .overrun starts recognised tooFew
        · by_cases behind : 0 <= (input.length : Int) - record.after.length + record.len
          · have skipped : ((((input.length : Int) - record.after.length +
                record.len).toNat : Nat) : Int) + record.after.length =
                  input.length + record.len := by
              omega
            have turned := @turn_skip _ small place _ _ hashes starts recognised skipped (by omega)
            rw [goesOn] at turned
            exact .skip starts recognised skipped (ih _ _ _ (by omega) (Sum.inl.inj turned) rfl)
          · -- the data pointer has moved before the data
            rw [turn_other starts recognised] at goesOn
            cases goesOn
            rw [bmod_eq_of_le (by omega) (by omega)] at rest
            exfalso
            have outside : ∀ line turns, 0 < turns -> getLineFrom input turns
                ((input.length : Int) - record.after.length + record.len) line = none := by
              intro line turns pos
              obtain ⟨turns, rfl⟩ := exists_eq_succ_of_ne_zero pos.ne'
              rw [getLineFrom, byteAt, if_neg behind]
            have reads : parseGetHashTurn input ⟨input.length - record.after.length + record.len,
                  record.after.length - record.len, hashes⟩ = .inr none := by
              simp only [parseGetHashTurn, getLine]
              rw [if_neg (by omega), outside _ _ (by omega)]
            cases rest.unique (.stop reads)

end

end Runs

/-- The parser ends within the data, and what it accepts is a sequence of
records, exactly for such sequences and where the walk gives up. -/
theorem parsesRecords_iff {chunk_data : Bytes} (chunk_len : chunk_data.length < 2 ^ 31) :
    (∃ fuel result, parseGetHash fuel chunk_data = some (some result) ∧
        (result.1 = true -> Records chunk_data result.2)) ↔
      (∃ full_hashes, Records chunk_data full_hashes) ∨ GivesUp chunk_data 0 := by
  have start : (⟨0, chunk_data.length, []⟩ : GetHashState) = atPlace chunk_data 0 [] := by
    simp [atPlace]
  constructor
  · rintro ⟨fuel, ⟨accepted, full_hashes⟩, ran, sound⟩
    cases accepted with
    | true => exact .inl ⟨full_hashes, sound rfl⟩
    | false =>
      have ends := ends_iff.mpr ⟨fuel, ran⟩
      exact .inr (givesUp_of_ends chunk_len ends 0 [] full_hashes (Nat.zero_le _) start rfl)
  · rintro (⟨full_hashes, records⟩ | givesUp)
    · have ends := ends_of_records chunk_len records 0 [] (Nat.zero_le _) rfl
      obtain ⟨fuel, ran⟩ := ends_iff.mp ends
      exact ⟨fuel, _, ran, fun _ => records⟩
    · obtain ⟨found, ends⟩ := ends_of_givesUp chunk_len givesUp []
      obtain ⟨fuel, ran⟩ := ends_iff.mp ends
      exact ⟨fuel, _, ran, Bool.noConfusion⟩

/-- A line `x:1:7`, with nothing behind it to skip. -/
def overrunData : Bytes := [0x78, 0x3a, 0x31, 0x3a, 0x37, 0x0a]

theorem parsesRecords_overrun : ∃ fuel result, parseGetHash fuel overrunData = some (some result) ∧
      (result.1 = true -> Records overrunData result.2) :=
  (parsesRecords_iff (by decide)).mpr (.inr (@GivesUp.overrun overrunData 0
    ⟨[0x78], 1, 7, []⟩ rfl (Int.not_le.mpr (by decide)) (by decide)))

/-- A line `goog-phish-shavar:1:32`, with no hash behind it. -/
def hashlessData : Bytes :=
  [0x67, 0x6f, 0x6f, 0x67, 0x2d, 0x70, 0x68, 0x69, 0x73, 0x68, 0x2d, 0x73,
    0x68, 0x61, 0x76, 0x61, 0x72, 0x3a, 0x31, 0x3a, 0x33, 0x32, 0x0a]

/-- The parser reads behind the data. -/
theorem not_parsesRecords : ¬∃ fuel result, parseGetHash fuel hashlessData = some (some result) ∧
      (result.1 = true -> Records hashlessData result.2) := by
  rintro ⟨fuel, result, ran, -⟩
  have reads : parseGetHash 1 hashlessData = some none := rfl
  cases (ends_iff.mpr ⟨fuel, ran⟩).unique (ends_iff.mpr ⟨1, reads⟩)

end Chromium.SafeBrowsing
