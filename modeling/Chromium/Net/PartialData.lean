import Chromium.Base.StringNumberConversions
import Chromium.Library.Stretch

/-!
# Partial data

`PartialData` breaks a range request up into requests to the cache and to the
network. Positions are below the size of a resource, which is an `int64`, so
that their sums do not overflow.
-/

namespace Chromium.Net

section

open Library (countWhile positions)

def kPositionNotSpecified : Int := -1
def kint32max : Int := 2 ^ 31 - 1

structure HttpByteRange where
  first_byte_position : Int := kPositionNotSpecified
  last_byte_position : Int := kPositionNotSpecified
  suffix_length : Int := kPositionNotSpecified
  has_computed_bounds : Bool := false
deriving DecidableEq

namespace HttpByteRange

variable (range : HttpByteRange)

def isSuffixByteRange : Bool := range.suffix_length != kPositionNotSpecified

def hasFirstBytePosition : Bool := range.first_byte_position != kPositionNotSpecified

def hasLastBytePosition : Bool := range.last_byte_position != kPositionNotSpecified

def isValid : Bool :=
  if 0 < range.suffix_length then true
  else
    0 <= range.first_byte_position && (range.last_byte_position == kPositionNotSpecified ||
        range.first_byte_position <= range.last_byte_position)

/-- `HttpByteRange::ComputeBounds`. -/
def computeBounds (size : Int) : HttpByteRange × Bool :=
  if size < 0 then (range, false)
  else if range.has_computed_bounds then (range, false)
  else
    let range := { range with has_computed_bounds := true }
    -- Empty values.
    if !range.hasFirstBytePosition && !range.hasLastBytePosition && !range.isSuffixByteRange then
      ({ range with
        first_byte_position := 0
        last_byte_position := size - 1 }, true)
    else if !range.isValid then (range, false)
    else if range.isSuffixByteRange then
      ({ range with
        first_byte_position := size - min size range.suffix_length
        last_byte_position := size - 1 }, true)
    else if range.first_byte_position < size then
      ({ range with
        last_byte_position :=
          if range.hasLastBytePosition then min (size - 1) range.last_byte_position
          else size - 1 }, true)
    else (range, false)

end HttpByteRange

structure PartialData where
  current_range_start : Int
  cached_start : Int
  resource_size : Int
  cached_min_len : Int
  /-- The range requested by the user. -/
  byte_range : HttpByteRange
  /-- Whether the next range is already stored. -/
  range_present : Bool := false
  final_range : Bool := false
  sparse_entry : Bool := true
  /-- Whether an incomplete 200 is stored. -/
  truncated : Bool := false
deriving DecidableEq

/-- `Entry::GetAvailableRange` of an entry with the given stored positions: the
number of bytes of the first run of them, and its start. -/
def getAvailableRange (stored : Int -> Bool) (offset : Int) (len : Nat) : Nat × Int :=
  let gap := countWhile (fun position => !stored position) offset len
  (countWhile stored (offset + gap) (len - gap), offset + gap)

namespace PartialData

section

variable (request : PartialData)

/-- `PartialData::IsRequestedRangeOK`. -/
def isRequestedRangeOK : PartialData × Bool :=
  let finish (request : PartialData) : PartialData × Bool :=
    if 0 <= request.current_range_start then (request, true)
    else ({ request with current_range_start := 0 }, false)
  if request.byte_range.isValid then
    let (byte_range, ok) := request.byte_range.computeBounds request.resource_size
    let request := { request with byte_range }
    if !ok then (request, false)
    else if request.truncated then (request, true)
    else if request.current_range_start < 0 then
      finish { request with
        current_range_start := byte_range.first_byte_position }
    else finish request
  else
    -- This is not a range request but there is partial data stored.
    finish { request with
      current_range_start := 0
      byte_range :=
        { request.byte_range with
          last_byte_position := request.resource_size - 1 } }

/-- `PartialData::GetNextRangeLen`. -/
def getNextRangeLen : Int :=
  let range_len :=
    if request.byte_range.hasLastBytePosition then
      request.byte_range.last_byte_position - request.current_range_start + 1
    else kint32max
  Base.toInt32 (if kint32max < range_len then kint32max else range_len)

/-- `PartialData::ShouldValidateCache`, whether or not the answer of the entry
is pending. -/
def shouldValidateCache (stored : Int -> Bool) (request : PartialData) : PartialData × Int :=
  let len := request.getNextRangeLen
  if len = 0 then (request, 0)
  else
    let request :=
      if request.sparse_entry then
        let (cached_min_len, cached_start) :=
          getAvailableRange stored request.current_range_start len.toNat
        { request with cached_min_len, cached_start }
      else if !request.truncated then
        let len :=
          if request.byte_range.hasFirstBytePosition ∧ request.resource_size <=
                request.byte_range.first_byte_position then 0
          else len
        { request with
          cached_min_len := len
          cached_start := request.current_range_start }
      else request
    if request.cached_min_len < 0 then (request, request.cached_min_len)
    else (request, 1)

/-- `PartialData::PrepareCacheValidation`, with the two ends of the range that
is requested. -/
def prepareCacheValidation : PartialData × Int × Int :=
  let len := request.getNextRangeLen
  let request := { request with range_present := false }
  let request :=
    if request.cached_min_len = 0 then
      -- There is nothing else stored.
      { request with
        final_range := true
        cached_start :=
          if request.byte_range.hasLastBytePosition then request.current_range_start + len
          else 0 }
    else request
  if request.current_range_start = request.cached_start then
    -- The data lives in the cache.
    ({ request with
      range_present := true
      final_range := len == request.cached_min_len || request.final_range },
      request.current_range_start,
      request.cached_start + request.cached_min_len - 1)
  else
    -- This range is not in the cache.
    (request, request.current_range_start, request.cached_start - 1)

/-- `PartialData::CacheRead`: the number of bytes to read from the entry at the
current position, where the entry is sparse. -/
def cacheRead (data_len : Int) : Int := min data_len request.cached_min_len

/-- `PartialData::OnCacheReadCompleted`. -/
def onCacheReadCompleted (result : Int) : PartialData :=
  if 0 < result then
    { request with
      current_range_start := request.current_range_start + result
      cached_min_len := request.cached_min_len - result }
  else request

/-- `PartialData::OnNetworkReadCompleted`. -/
def onNetworkReadCompleted (result : Int) : PartialData :=
  if 0 < result then
    { request with
      current_range_start := request.current_range_start + result }
  else request

end

/-- Where bytes are read from. -/
inductive Source where
  | cache
  | network
deriving DecidableEq

variable (split : Int -> Nat)

/-- Read the current range from the cache until it gives no more. The read at
a position asks for the number of bytes that the splitting has there, and is
answered with all of them that are left. -/
def readCache : Nat -> PartialData -> Option (PartialData × List Int)
  | 0, _ => none
  | rounds + 1, request =>
    let read_len := request.cacheRead (split request.current_range_start)
    if read_len = 0 then some (request.onCacheReadCompleted read_len, [])
    else
      (readCache rounds (request.onCacheReadCompleted read_len)).map fun (finished, delivered) =>
          (finished, positions request.current_range_start read_len.toNat ++ delivered)

/-- Read a response from the network that has a last position. -/
def readNetwork (last : Int) : Nat -> PartialData -> Option (PartialData × List Int)
  | 0, _ => none
  | rounds + 1, request =>
    let result := min ((split request.current_range_start : Nat) : Int)
      (last - request.current_range_start + 1)
    if result = 0 then some (request.onNetworkReadCompleted result, [])
    else
      (readNetwork last rounds (request.onNetworkReadCompleted result)).map
        fun (finished, delivered) =>
          (finished, positions request.current_range_start result.toNat ++ delivered)

/-- Serve a range that has been prepared, with its last position. -/
def serveRange (request : PartialData) (last : Int) : Option (PartialData × List (Int × Source)) :=
  let rounds := (last - request.current_range_start + 1).toNat + 1
  if request.range_present then
    (readCache split rounds request).map fun (finished, delivered) =>
      (finished, delivered.map (·, .cache))
  else
    (readNetwork split last rounds request).map fun (finished, delivered) =>
      (finished, delivered.map (·, .network))

/-- Serve one range after another until the last one is finished, or there is
nothing left. -/
def serve (stored : Int -> Bool) : Nat -> PartialData -> Option (List (Int × Source))
  | 0, _ => none
  | rounds + 1, request =>
    let (request, result) := request.shouldValidateCache stored
    if result <= 0 then some []
    else
      let (request, _, last) := request.prepareCacheValidation
      match request.serveRange split last with
      | none => none
      | some (request, delivered) =>
        if request.final_range then some delivered
        else (serve stored rounds request).map (delivered ++ ·)

end PartialData

end

/-!
## Partial requests that are served

Each range that is prepared is a stretch of positions that are all stored or
all not stored. A request is served exactly, unless such a stretch fills the
largest length that is scanned and the request goes on behind it.
-/

section

open Library (countWhile positions)

/-- The number of positions from a start on that are stored if the first one
is, and not stored if it is not. -/
def stretch (stored : Int -> Bool) (start : Int) (length : Nat) : Nat :=
  countWhile (fun position => stored position == stored start) start length

theorem stretch_pos (stored : Int -> Bool) (start : Int) (pos : 0 < length) :
    0 < stretch stored start length :=
  Library.countWhile_pos (beq_self_eq_true _) pos

theorem stretch_stored (isStored : stored start = true) (len : Nat) :
    stretch stored start len = countWhile stored start len := by
  have same : (fun pos => stored pos == stored start) = stored := by
    funext pos
    rw [isStored, beq_true]
  rw [stretch, same]

theorem stretch_unstored (unstored : stored start = false) (len : Nat) :
    stretch stored start len = countWhile (fun pos => !stored pos) start len := by
  have same : (fun pos => stored pos == stored start) =
      fun pos => !stored pos := by
    funext pos
    rw [unstored, beq_false]
  rw [stretch, same]

/-- Behind a stretch the next position is the other way. -/
theorem stretch_end (short : stretch stored start length < length) :
    stored (start + stretch stored start length) = !stored start := by
  have ended := Library.property_countWhile short
  rw [beq_eq_false_iff_ne] at ended
  rw [Bool.eq_not]
  exact ended

/-- The first run of stored positions is the stretch at the start, or it
begins behind that. -/
theorem getAvailableRange_eq (stored : Int -> Bool) (start : Int) (len : Nat) :
    getAvailableRange stored start len =
      if stored start then (stretch stored start len, start)
      else
        (countWhile stored (start + stretch stored start len)
          (len - stretch stored start len),
          start + stretch stored start len) := by
  unfold getAvailableRange
  cases isStored : stored start with
  | true =>
    have noGap : countWhile (fun pos => !stored pos) start len = 0 :=
      Library.countWhile_eq_zero (by rw [isStored, Bool.not_true])
    rw [if_pos rfl, noGap, stretch_stored isStored]
    simp
  | false => rw [if_neg Bool.false_ne_true, stretch_unstored isStored]

namespace PartialData

/-- A request that has something left to serve. -/
structure Pending (request : PartialData) : Prop where
  sparse : request.sparse_entry = true
  unfinished : request.final_range = false
  nonnegative : 0 <= request.current_range_start
  ordered : request.current_range_start <= request.byte_range.last_byte_position

/-- The number of positions that are scanned. -/
def scanned (request : PartialData) : Nat :=
  (min (request.byte_range.last_byte_position - request.current_range_start + 1) kint32max).toNat

variable {request : PartialData}

theorem Pending.scanned_pos (pending : request.Pending) : 0 < request.scanned := by
  have ordered := pending.ordered
  have bound : kint32max = 2 ^ 31 - 1 := rfl
  unfold scanned
  omega

theorem Pending.getNextRangeLen_eq (pending : request.Pending) (cached_min_len cached_start : Int) :
    ({ request with cached_min_len, cached_start } :
      PartialData).getNextRangeLen = request.scanned := by
  have ordered := pending.ordered
  have nonnegative := pending.nonnegative
  have bound : kint32max = 2 ^ 31 - 1 := rfl
  have hasLast : request.byte_range.hasLastBytePosition = true := by
    have unspecified : kPositionNotSpecified = -1 := rfl
    rw [HttpByteRange.hasLastBytePosition, bne_iff_ne]
    omega
  have fits : request.scanned < 2 ^ 31 := by
    unfold scanned
    omega
  rw [← Base.toInt32_of_lt fits, getNextRangeLen, if_pos hasLast]
  dsimp only
  congr 1
  unfold scanned
  split
  · omega
  · omega

/-- What is prepared for the stretch at the current position. -/
structure Prepared (request prepared : PartialData) (stored : Int -> Bool) (last : Int) : Prop where
  here : prepared.current_range_start = request.current_range_start
  range : prepared.byte_range = request.byte_range
  sparse : prepared.sparse_entry = true
  present_ : prepared.range_present = stored request.current_range_start
  length : stored request.current_range_start = true -> prepared.cached_min_len =
      stretch stored request.current_range_start request.scanned
  upTo : last = request.current_range_start +
    stretch stored request.current_range_start request.scanned - 1
  final : prepared.final_range =
    (stretch stored request.current_range_start request.scanned == request.scanned)

theorem Pending.shouldValidateCache_eq (pending : request.Pending) (stored : Int -> Bool) :
    request.shouldValidateCache stored =
      ({ request with
        cached_min_len := (getAvailableRange stored request.current_range_start request.scanned).1
        cached_start :=
          (getAvailableRange stored request.current_range_start request.scanned).2 }, 1) := by
  have pos := pending.scanned_pos
  have nextLen := pending.getNextRangeLen_eq request.cached_min_len request.cached_start
  rw [shouldValidateCache, nextLen]
  rw [if_neg (by omega), if_pos pending.sparse, Int.toNat_natCast]
  dsimp only
  rw [if_neg (by omega)]

theorem prepareCacheValidation_cached (present_ : request.cached_min_len ≠ 0)
    (here : request.cached_start = request.current_range_start) :
    request.prepareCacheValidation =
      ({ request with
        range_present := true
        final_range := request.getNextRangeLen == request.cached_min_len || request.final_range },
        request.current_range_start,
        request.current_range_start + request.cached_min_len - 1) := by
  unfold prepareCacheValidation
  dsimp only
  rw [if_neg present_, if_pos here.symm, here]

theorem prepareCacheValidation_absent (absent : request.cached_min_len = 0)
    (hasLast : request.byte_range.hasLastBytePosition = true)
    (pos : 0 < request.getNextRangeLen) :
    request.prepareCacheValidation =
      ({ request with
        range_present := false
        final_range := true
        cached_start := request.current_range_start + request.getNextRangeLen },
        request.current_range_start,
        request.current_range_start + request.getNextRangeLen - 1) := by
  unfold prepareCacheValidation
  dsimp only
  rw [if_pos absent, if_pos hasLast]
  dsimp only
  rw [if_neg (by omega)]

theorem prepareCacheValidation_later (present_ : request.cached_min_len ≠ 0)
    (later : request.current_range_start ≠ request.cached_start) :
    request.prepareCacheValidation = ({ request with range_present := false },
        request.current_range_start, request.cached_start - 1) := by
  unfold prepareCacheValidation
  dsimp only
  rw [if_neg present_, if_neg later]

section

variable (pending : request.Pending)
include pending

theorem Pending.hasLastBytePosition : request.byte_range.hasLastBytePosition = true := by
  have ordered := pending.ordered
  have nonnegative := pending.nonnegative
  have unspecified : kPositionNotSpecified = -1 := rfl
  rw [HttpByteRange.hasLastBytePosition, bne_iff_ne]
  omega

/-- The cases are a stretch that is stored, one that is not stored up to the
end of what is scanned, and one that stored positions follow. -/
theorem Pending.prepared (stored : Int -> Bool) :
    (request.shouldValidateCache stored).2 = 1 ∧ request.Prepared
        (request.shouldValidateCache stored).1.prepareCacheValidation.1 stored
        (request.shouldValidateCache stored).1.prepareCacheValidation.2.2 := by
  have pos := pending.scanned_pos
  have long := stretch_pos stored request.current_range_start pos
  have short : stretch stored request.current_range_start request.scanned <= request.scanned :=
    Library.countWhile_le _
  have behind : stretch stored request.current_range_start request.scanned < request.scanned -> _ :=
    stretch_end
  have nextLen := pending.getNextRangeLen_eq
  rw [pending.shouldValidateCache_eq, getAvailableRange_eq]
  refine ⟨rfl, ?_⟩
  cases isStored : stored request.current_range_start with
  | true =>
    rw [if_pos rfl, prepareCacheValidation_cached (by dsimp only; omega) rfl]
    exact {
      here := rfl
      range := rfl
      sparse := pending.sparse
      present_ := isStored.symm
      length := fun _ => rfl
      upTo := rfl
      final := by
        dsimp only
        rw [nextLen, pending.unfinished, Bool.or_false, Bool.eq_iff_iff, beq_iff_eq, beq_iff_eq]
        omega }
  | false =>
    rw [if_neg Bool.false_ne_true]
    rcases Nat.lt_or_eq_of_le short with later | whole
    · have next : stored (request.current_range_start +
          stretch stored request.current_range_start request.scanned) = true := by
        rw [behind later, isStored, Bool.not_false]
      have run := Library.countWhile_pos next (Nat.sub_pos_of_lt later)
      rw [prepareCacheValidation_later (by dsimp only; omega) (by dsimp only; omega)]
      exact {
        here := rfl
        range := rfl
        sparse := pending.sparse
        present_ := isStored.symm
        length := fun other => absurd (isStored.symm.trans other) Bool.false_ne_true
        upTo := rfl
        final := by
          rw [beq_eq_false_iff_ne.mpr (Nat.ne_of_lt later)]
          exact pending.unfinished }
    · have absent := @prepareCacheValidation_absent
        { request with
          cached_min_len := (0 : Nat)
          cached_start := request.current_range_start + request.scanned }
        rfl pending.hasLastBytePosition (by rw [nextLen]; omega)
      rw [nextLen] at absent
      rw [whole, Nat.sub_self, Library.countWhile, absent]
      exact {
        here := rfl
        range := rfl
        sparse := pending.sparse
        present_ := isStored.symm
        length := fun other => absurd (isStored.symm.trans other) Bool.false_ne_true
        upTo := by rw [whole]
        final := by rw [whole, beq_self_eq_true] }

theorem Pending.scanned_le : (request.scanned : Int) <= request.byte_range.last_byte_position -
      request.current_range_start + 1 := by
  have ordered := pending.ordered
  unfold scanned
  omega

/-- Behind a stretch that is not all that is scanned something is left. -/
theorem Pending.next {finished : PartialData}
    (here : finished.current_range_start = request.current_range_start +
      stretch stored request.current_range_start request.scanned)
    (range : finished.byte_range = request.byte_range) (sparse : finished.sparse_entry = true)
    (more : finished.final_range = false)
    (short : stretch stored request.current_range_start request.scanned < request.scanned) :
    finished.Pending := by
  have nonnegative := pending.nonnegative
  have bound := pending.scanned_le
  exact ⟨sparse, more, by omega, by rw [range]; omega⟩

end

section Reading

variable {split : Int -> Nat} (pos : ∀ position, 0 < split position)

include pos

/-- However the reads are split, a range is read from the cache to its end. -/
theorem readCache_eq {len rounds : Nat} (left : request.cached_min_len = len)
    (enough : len < rounds) :
    readCache split rounds request =
      some ({ request with
        current_range_start := request.current_range_start + len
        cached_min_len := 0 },
        positions request.current_range_start len) := by
  induction rounds generalizing request len with
  | zero => exact absurd enough (Nat.not_lt_zero _)
  | succ rounds ih =>
    have some_ := pos request.current_range_start
    rw [readCache, cacheRead, left]
    by_cases finished : len = 0
    · subst finished
      rw [if_pos (by omega), onCacheReadCompleted, if_neg (by omega)]
      simp only [Int.natCast_zero, Int.add_zero, positions]
      rw [← Int.natCast_zero, ← left]
    · obtain ⟨read, readIs⟩ : ∃ read : Nat,
          min ((split request.current_range_start : Nat) : Int) len = read :=
        ⟨min (split request.current_range_start) len, by omega⟩
      rw [readIs, if_neg (by omega), onCacheReadCompleted, if_pos (by omega),
        @ih _ (len - read) (by dsimp only; omega) (by omega), Option.map_some, Int.toNat_natCast]
      dsimp only
      rw [← Library.positions_add, show read + (len - read) = len by omega,
        show request.current_range_start + (read : Int) + ((len - read : Nat) : Int) =
            request.current_range_start + len by omega]

theorem readNetwork_eq {len rounds : Nat}
    (left : last - request.current_range_start + 1 = len)
    (enough : len < rounds) :
    readNetwork split last rounds request =
      some ({ request with
        current_range_start := request.current_range_start + len },
        positions request.current_range_start len) := by
  induction rounds generalizing request len with
  | zero => exact absurd enough (Nat.not_lt_zero _)
  | succ rounds ih =>
    have some_ := pos request.current_range_start
    rw [readNetwork, left]
    by_cases finished : len = 0
    · subst finished
      rw [if_pos (by omega), onNetworkReadCompleted, if_neg (by omega)]
      simp only [Int.natCast_zero, Int.add_zero, positions]
    · obtain ⟨read, readIs⟩ : ∃ read : Nat,
          min ((split request.current_range_start : Nat) : Int) len = read :=
        ⟨min (split request.current_range_start) len, by omega⟩
      rw [readIs, if_neg (by omega), onNetworkReadCompleted, if_pos (by omega),
        @ih _ (len - read) (by dsimp only; omega) (by omega), Option.map_some, Int.toNat_natCast]
      dsimp only
      rw [← Library.positions_add, show read + (len - read) = len by omega,
        show request.current_range_start + (read : Int) + ((len - read : Nat) : Int) =
            request.current_range_start + len by omega]

/-- A stretch is served from where it is. -/
theorem Prepared.serveRange_eq (isPrepared : request.Prepared prepared stored last) :
    ∃ finished, prepared.serveRange split last = some (finished,
        (positions request.current_range_start
          (stretch stored request.current_range_start request.scanned)).map
          (·, if stored request.current_range_start then .cache else .network)) ∧
      finished.current_range_start = request.current_range_start +
        stretch stored request.current_range_start request.scanned ∧
      finished.byte_range = request.byte_range ∧
      finished.sparse_entry = true ∧
      finished.final_range = (stretch stored request.current_range_start request.scanned ==
          request.scanned) := by
  obtain ⟨here, range, sparse, present_, len, upTo, final⟩ := isPrepared
  have left : last - prepared.current_range_start + 1 =
      stretch stored request.current_range_start request.scanned := by
    omega
  unfold serveRange
  rw [left, Int.toNat_natCast, present_]
  cases isStored : stored request.current_range_start with
  | true =>
    rw [if_pos rfl, if_pos rfl, readCache_eq pos (len isStored) (Nat.lt_succ_self _), here]
    exact ⟨_, rfl, rfl, range, sparse, final⟩
  | false =>
    rw [if_neg Bool.false_ne_true, if_neg Bool.false_ne_true,
      readNetwork_eq pos left (Nat.lt_succ_self _), here]
    exact ⟨_, rfl, rfl, range, sparse, final⟩

/-- One round of the loop serves a stretch, and is the last one where the
stretch fills what is scanned. -/
theorem Pending.serve_eq (pending : request.Pending) (stored : Int -> Bool) (rounds : Nat) :
    ∃ finished : PartialData, finished.current_range_start = request.current_range_start +
          stretch stored request.current_range_start request.scanned ∧
        finished.byte_range = request.byte_range ∧
        finished.sparse_entry = true ∧
        finished.final_range = (stretch stored request.current_range_start request.scanned ==
            request.scanned) ∧
        serve split stored (rounds + 1) request = (if finished.final_range then some []
            else serve split stored rounds finished).map
            ((positions request.current_range_start
              (stretch stored request.current_range_start request.scanned)).map
              (·, if stored request.current_range_start then Source.cache
                else Source.network) ++ ·) := by
  obtain ⟨validated, isPrepared⟩ := pending.prepared stored
  obtain ⟨finished, served, here, range, sparse, final⟩ :=
    Prepared.serveRange_eq pos isPrepared
  refine ⟨finished, here, range, sparse, final, ?_⟩
  rw [serve]
  dsimp only
  rw [validated, if_neg (by omega), served]
  dsimp only
  split
  · rw [Option.map_some, List.append_nil]
  · rfl

end Reading

/-- Among as many consecutive positions as are scanned at most, with another
one of the request behind them, there are stored and unstored ones. -/
def Mixed (stored : Int -> Bool) (first last : Int) : Prop :=
  ∀ start, first <= start -> start + kint32max <= last ->
    ∃ one other, start <= one ∧ one < start + kint32max ∧
      start <= other ∧ other < start + kint32max ∧ stored one ≠ stored other

/-- The positions of the request are delivered, each once and in order, and
those that are stored from the cache. -/
def ServedExactly (split : Int -> Nat) (stored : Int -> Bool) (request : PartialData) : Prop :=
  let length := (request.byte_range.last_byte_position - request.current_range_start + 1).toNat
  ∃ delivered, serve split stored (length + 1) request = some delivered ∧
    delivered.map Prod.fst = positions request.current_range_start length ∧
    ∀ position source, (position, source) ∈ delivered -> (source = .cache ↔ stored position = true)

variable {split : Int -> Nat}

theorem stored_stretch (lt : index < stretch stored start length) :
    stored (start + index) = stored start :=
  beq_iff_eq.mp (Library.property_of_lt_countWhile lt)

theorem stretch_source (mem : (pos, source) ∈ (positions start (stretch stored start
      length)).map (·, if stored start then Source.cache else Source.network)) :
    source = .cache ↔ stored pos = true := by
  obtain ⟨served, inside, same⟩ := List.mem_map.mp mem
  cases same
  obtain ⟨i, inStretch, rfl⟩ := Library.mem_positions inside
  rw [stored_stretch inStretch]
  cases stored start with
  | true => simp
  | false => simp

/-- A stretch that fills what is scanned reaches the end of the request. -/
theorem Pending.scanned_of_mixed (pending : request.Pending)
    (mixed : Mixed stored request.current_range_start request.byte_range.last_byte_position)
    (whole : stretch stored request.current_range_start request.scanned = request.scanned) :
    (request.scanned : Int) = request.byte_range.last_byte_position -
      request.current_range_start + 1 := by
  have ordered := pending.ordered
  by_contra clamped
  have scannedIs : (request.scanned : Int) = kint32max := by
    have bound : kint32max = 2 ^ 31 - 1 := rfl
    unfold scanned at clamped ⊢
    omega
  obtain ⟨one, other, oneFrom, oneTo, otherFrom, otherTo, apart⟩ :=
    mixed request.current_range_start (Int.le_refl _) (by
      have bound := pending.scanned_le
      omega)
  have same : ∀ pos, request.current_range_start <= pos ->
      pos < request.current_range_start + kint32max ->
        stored pos = stored request.current_range_start := by
    intro pos lower upper
    have inside := stored_stretch (show
      (pos - request.current_range_start).toNat <
        stretch stored request.current_range_start request.scanned by
      omega)
    rwa [show request.current_range_start +
      ((pos - request.current_range_start).toNat : Int) = pos by omega] at inside
  exact apart ((same one oneFrom oneTo).trans (same other otherFrom otherTo).symm)

section

variable (pos : ∀ position, 0 < split position)
include pos

/-- Where the request is served exactly, all of its stretches end in time. -/
theorem Pending.servedExactly (pending : request.Pending)
    (mixed : Mixed stored request.current_range_start request.byte_range.last_byte_position)
    {len rounds : Nat}
    (left : request.byte_range.last_byte_position - request.current_range_start + 1 = len)
    (enough : len < rounds) :
    ∃ delivered, serve split stored rounds request = some delivered ∧
      delivered.map Prod.fst = positions request.current_range_start len ∧
      ∀ position source, (position, source) ∈ delivered ->
        (source = .cache ↔ stored position = true) := by
  induction rounds generalizing request len with
  | zero => exact absurd enough (Nat.not_lt_zero _)
  | succ rounds ih =>
    obtain ⟨finished, here, range, sparse, final, served⟩ := pending.serve_eq pos stored rounds
    generalize countIs : stretch stored request.current_range_start request.scanned = count
      at here final served
    have short : count <= request.scanned := by
      rw [← countIs]
      exact Library.countWhile_le _
    have long : 0 < count := by
      rw [← countIs]
      exact stretch_pos stored _ pending.scanned_pos
    have bound := pending.scanned_le
    have sources : ∀ position source, (position, source) ∈
        (positions request.current_range_start count).map
          (·, if stored request.current_range_start then Source.cache else Source.network) ->
        (source = .cache ↔ stored position = true) := by
      intro position source mem
      rw [← countIs] at mem
      exact stretch_source mem
    have fsts : ((positions request.current_range_start count).map
        (·, if stored request.current_range_start then Source.cache
          else Source.network)).map Prod.fst =
        positions request.current_range_start count := by
      rw [List.map_map]
      exact List.map_id _
    rw [served]
    cases isFinal : finished.final_range with
    | true =>
      rw [isFinal] at final
      have whole : count = request.scanned := beq_iff_eq.mp final.symm
      have all := pending.scanned_of_mixed mixed (countIs.trans whole)
      rw [if_pos rfl, Option.map_some, List.append_nil]
      refine ⟨_, rfl, ?_, sources⟩
      rw [fsts, show count = len by omega]
    | false =>
      rw [isFinal] at final
      have part : count < request.scanned :=
        Nat.lt_of_le_of_ne short (beq_eq_false_iff_ne.mp final.symm)
      have pendingNext := pending.next (countIs ▸ here) range sparse isFinal (countIs.symm ▸ part)
      have mixedNext : Mixed stored finished.current_range_start
          finished.byte_range.last_byte_position := by
        intro start from_ upTo
        rw [range] at upTo
        exact mixed start (by omega) upTo
      obtain ⟨delivered, servedRest, areRest, restSources⟩ :=
        @ih finished pendingNext mixedNext (len - count) (by rw [range]; omega) (by omega)
      rw [if_neg Bool.false_ne_true, servedRest, Option.map_some]
      refine ⟨_, rfl, ?_, ?_⟩
      · rw [List.map_append, fsts, areRest, here,
          ← Library.positions_add, show count + (len - count) = len by omega]
      · intro position source mem
        rcases List.mem_append.mp mem with first | later
        · exact sources position source first
        · exact restSources position source later

/-- Where stretches are too long, the loop ends before the request does. -/
theorem Pending.short_of_not_mixed (pending : request.Pending)
    (unmixed : ¬ Mixed stored request.current_range_start request.byte_range.last_byte_position)
    {len rounds : Nat}
    (left : request.byte_range.last_byte_position - request.current_range_start + 1 = len)
    (served : serve split stored rounds request = some delivered) :
    delivered.length < len := by
  induction rounds generalizing request len delivered with
  | zero => cases served
  | succ rounds ih =>
    obtain ⟨finished, here, range, sparse, final, isServed⟩ :=
      pending.serve_eq pos stored rounds
    have changed : stretch stored request.current_range_start
        request.scanned < request.scanned -> _ :=
      stretch_end
    have uniform : ∀ i, i < stretch stored
        request.current_range_start request.scanned -> _ :=
      fun i => stored_stretch
    have short := @Library.countWhile_le (fun position => stored position ==
        stored request.current_range_start)
      request.current_range_start request.scanned
    rw [← stretch] at short
    generalize countIs : stretch stored request.current_range_start request.scanned = n at *
    have clamped : (request.scanned : Int) <= kint32max := by
      have pos : kint32max = 2 ^ 31 - 1 := rfl
      unfold scanned
      omega
    have unmixed' := unmixed
    unfold Mixed at unmixed'
    push Not at unmixed'
    obtain ⟨start, behind, inside, same⟩ := unmixed'
    rw [isServed] at served
    obtain ⟨rest, servedRest, rfl⟩ := Option.map_eq_some_iff.mp served
    rw [List.length_append, List.length_map, Library.length_positions]
    cases isFinal : finished.final_range with
    | true =>
      rw [isFinal, if_pos rfl] at servedRest
      cases servedRest
      rw [List.length_nil]
      omega
    | false =>
      rw [isFinal, if_neg Bool.false_ne_true] at servedRest
      rw [isFinal] at final
      have part : n < request.scanned :=
        Nat.lt_of_le_of_ne short (beq_eq_false_iff_ne.mp final.symm)
      have pendingNext := pending.next (countIs ▸ here) range sparse isFinal (countIs.symm ▸ part)
      have later : request.current_range_start + n <= start := by
        by_contra before
        have last := uniform (n - 1) (by omega)
        have next := changed part
        have equal := same _ _ (show start <=
          request.current_range_start + ((n - 1 : Nat) : Int) by omega)
          (by omega)
          (show start <= request.current_range_start + (n : Int) by omega) (by omega)
        rw [last, next] at equal
        exact (Bool.not_eq_self _).mp equal.symm
      have unmixedNext : ¬ Mixed stored finished.current_range_start
          finished.byte_range.last_byte_position := by
        intro mixed
        obtain ⟨one, other, oneFrom, oneTo, otherFrom, otherTo, apart⟩ :=
          mixed start (by omega) (by rw [range]; exact inside)
        exact apart (same one other oneFrom oneTo otherFrom otherTo)
      have rest := @ih finished rest pendingNext
        unmixedNext (len - n) (by rw [range]; omega) servedRest
      omega

theorem Pending.serves_iff (pending : request.Pending) (stored : Int -> Bool) :
    ServedExactly split stored request ↔ Mixed stored request.current_range_start
        request.byte_range.last_byte_position := by
  have ordered := pending.ordered
  constructor
  · rintro ⟨delivered, served, arePositions, -⟩
    by_contra unmixed
    have short := pending.short_of_not_mixed pos unmixed
      (Int.toNat_of_nonneg (by omega)).symm served
    rw [← List.length_map Prod.fst, arePositions, Library.length_positions] at short
    exact Nat.lt_irrefl _ short
  · intro mixed
    exact pending.servedExactly pos mixed (Int.toNat_of_nonneg (by omega)).symm (Nat.lt_succ_self _)

end

/-- A request for a sparse entry as `Init` and `UpdateFromStoredHeaders` leave
it: a range has a first position or the length of a suffix, and the length of
the resource is known. -/
structure Requested (request : PartialData) : Prop where
  sparse : request.sparse_entry = true
  complete : request.truncated = false
  unfinished : request.final_range = false
  sized : 0 < request.resource_size
  start : request.byte_range.isValid = true ->
    request.current_range_start = request.byte_range.first_byte_position
  suffix : 0 < request.byte_range.suffix_length ->
    request.byte_range.first_byte_position = kPositionNotSpecified
  suffix_specified : request.byte_range.suffix_length ≠
    kPositionNotSpecified -> 0 < request.byte_range.suffix_length

/-- The bounds of a valid range are inside the resource. -/
theorem computeBounds_inside {range bound : HttpByteRange} (ok : range.isValid = true)
    (sized : 0 < size)
    (suffix : 0 < range.suffix_length -> range.first_byte_position = kPositionNotSpecified)
    (specified : range.suffix_length ≠ kPositionNotSpecified -> 0 < range.suffix_length)
    (computed : range.computeBounds size = (bound, true)) :
    0 <= bound.first_byte_position ∧ bound.first_byte_position <= bound.last_byte_position ∧
      bound.last_byte_position < size ∧ (0 <= range.first_byte_position ->
        bound.first_byte_position = range.first_byte_position) := by
  have unspecified : kPositionNotSpecified = -1 := rfl
  unfold HttpByteRange.computeBounds at computed
  rw [if_neg (by omega)] at computed
  split at computed
  · cases computed
  · dsimp only at computed
    split at computed
    next empty =>
      have noFirst : range.first_byte_position = kPositionNotSpecified := by
        simpa [HttpByteRange.hasFirstBytePosition] using
          (Bool.and_eq_true_iff.mp (Bool.and_eq_true_iff.mp empty).1).1
      cases computed
      exact ⟨Int.le_refl 0, by dsimp only; omega, by dsimp only; omega, fun first => by omega⟩
    · have validHere : ({ range with has_computed_bounds := true } :
          HttpByteRange).isValid = true :=
        ok
      rw [validHere, Bool.not_true, if_neg Bool.false_ne_true] at computed
      split at computed
      next isSuffix =>
        have pos := specified (bne_iff_ne.mp isSuffix)
        cases computed
        exact ⟨by dsimp only; omega, by dsimp only; omega,
          by dsimp only; omega, fun first => by omega⟩
      next noSuffix =>
        have isUnspecified : range.suffix_length = kPositionNotSpecified := by
          simpa [HttpByteRange.isSuffixByteRange] using noSuffix
        unfold HttpByteRange.isValid at ok
        rw [if_neg (by omega), Bool.and_eq_true_iff, decide_eq_true_iff,
          Bool.or_eq_true_iff, beq_iff_eq, decide_eq_true_iff] at ok
        split at computed
        next first =>
          cases computed
          dsimp only at first ⊢
          refine ⟨ok.1, ?_, ?_, fun _ => rfl⟩
          · split
            next hasLast =>
              have specifiedLast := bne_iff_ne.mp hasLast
              dsimp only at specifiedLast
              omega
            · omega
          · split
            · omega
            · omega
        · cases computed

/-- A range that is all right is bounded inside the resource. -/
theorem Requested.bounded {bound : PartialData} (asked : request.Requested)
    (isOK : request.isRequestedRangeOK = (bound, true)) :
    bound.Pending ∧ bound.byte_range.last_byte_position < bound.resource_size := by
  obtain ⟨sparse, complete, unfinished, sized, start, suffix, specified⟩ := asked
  unfold isRequestedRangeOK at isOK
  dsimp only at isOK
  split at isOK
  next valid =>
    cases computed : request.byte_range.computeBounds request.resource_size with
    | mk range ok =>
      rw [computed] at isOK
      cases ok with
      | false => cases isOK
      | true =>
        obtain ⟨first, ordered, inside, same⟩ :=
          computeBounds_inside valid sized suffix specified computed
        rw [Bool.not_true, if_neg Bool.false_ne_true, complete, if_neg Bool.false_ne_true] at isOK
        have started := start valid
        by_cases negative : request.current_range_start < 0
        · rw [if_pos negative, if_pos first] at isOK
          cases isOK
          exact ⟨⟨sparse, unfinished, first, ordered⟩, inside⟩
        · rw [if_neg negative, if_pos (by omega)] at isOK
          cases isOK
          exact ⟨⟨sparse, unfinished, by dsimp only; omega, by dsimp only; omega⟩, inside⟩
  · rw [if_pos (by decide)] at isOK
    cases isOK
    exact ⟨⟨sparse, unfinished, Int.le_refl 0, by dsimp only; omega⟩, by dsimp only; omega⟩

/-- A request that is all right is served exactly, exactly where no stretch
fills the largest length that is scanned with more of the request behind
it. -/
theorem servedExactly_iff {bounded : PartialData} (asked : request.Requested)
    (isOK : request.isRequestedRangeOK = (bounded, true)) (stored : Int → Bool) {split : Int → Nat}
    (pos : ∀ position, 0 < split position) :
    0 <= bounded.current_range_start ∧
      bounded.current_range_start <= bounded.byte_range.last_byte_position ∧
      bounded.byte_range.last_byte_position < bounded.resource_size ∧
      (ServedExactly split stored bounded ↔ Mixed stored bounded.current_range_start
          bounded.byte_range.last_byte_position) := by
  obtain ⟨pending, inside⟩ := asked.bounded isOK
  exact ⟨pending.nonnegative, pending.ordered, inside, pending.serves_iff pos stored⟩

/-- A request for the first part of a resource of which two bytes are
stored. -/
def firstPart : PartialData where
  current_range_start := 0
  cached_start := 0
  resource_size := 20
  cached_min_len := 0
  byte_range := { first_byte_position := 0, last_byte_position := 7 }

theorem servedExactly_firstPart :
    ServedExactly (fun _ => 3) (fun position => position == 2 || position == 3)
      firstPart.isRequestedRangeOK.1 := by
  have asked : firstPart.Requested :=
    ⟨rfl, rfl, rfl, by decide, fun _ => rfl, by decide, by decide⟩
  have pos : ∀ position, 0 < (fun _ => 3 : Int -> Nat) position := fun _ => Nat.succ_pos _
  have served := servedExactly_iff asked (show firstPart.isRequestedRangeOK =
      (firstPart.isRequestedRangeOK.1, true) from rfl)
    (fun position => position == 2 || position == 3) pos
  refine served.2.2.2.mpr ?_
  intro start from_ upTo
  have last : firstPart.isRequestedRangeOK.1.byte_range.last_byte_position = 7 := rfl
  have bound : kint32max = 2 ^ 31 - 1 := rfl
  omega

/-- Of a resource of `2 ^ 31` bytes of which nothing is stored all is
requested. -/
def wholeResource : PartialData where
  current_range_start := 0
  cached_start := 0
  resource_size := 2 ^ 31
  cached_min_len := 0
  byte_range := { first_byte_position := 0 }

/-- The last byte is not delivered. -/
theorem not_servedExactly_wholeResource :
    wholeResource.Requested ∧ wholeResource.isRequestedRangeOK.2 = true ∧
      ¬ ServedExactly (fun _ => 4096) (fun _ => false) wholeResource.isRequestedRangeOK.1 := by
  have asked : wholeResource.Requested :=
    ⟨rfl, rfl, rfl, by decide, fun _ => rfl, by decide, by decide⟩
  have isOK : wholeResource.isRequestedRangeOK = (wholeResource.isRequestedRangeOK.1, true) := by
    decide
  have pos : ∀ position, 0 < (fun _ => 4096 : Int -> Nat) position := fun _ => Nat.succ_pos _
  refine ⟨asked, congrArg Prod.snd isOK, fun served => ?_⟩
  have first : wholeResource.isRequestedRangeOK.1.current_range_start = 0 := by decide
  have last : wholeResource.isRequestedRangeOK.1.byte_range.last_byte_position = 2 ^ 31 - 1 := by
    decide
  have bound : kint32max = 2 ^ 31 - 1 := rfl
  obtain ⟨one, other, -, -, -, -, apart⟩ :=
    ((asked.bounded isOK).1.serves_iff pos _).mp served 0 (by omega) (by omega)
  exact apart rfl

end PartialData

end

end Chromium.Net
