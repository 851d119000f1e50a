import Chromium.Library.Bitmap
import Chromium.Library.LinearProbing

/-!
# The hash table of visited links

The table shared by `VisitedLinkCommon` and `VisitedLinkMaster`: a list of
fingerprints with linear probing.
-/

namespace Chromium.VisitedLink

open List hiding after beq_eq_decide count length

/-- A fingerprint of a URL. -/
abbrev Fingerprint := UInt64

def nullFingerprint : Fingerprint := 0

/-- The table and the members that count it. `notReached` is set when a
`NOTREACHED()` is passed. -/
structure Table where
  hashTable : List Fingerprint
  usedItems : Int
  notReached : Bool
  deriving DecidableEq

namespace Table

section

variable (table : Table)

def tableLength : Nat := table.hashTable.length

/-- An empty table of a length. -/
def empty (length : Nat) : Table := ⟨List.replicate length nullFingerprint, 0, false⟩

/-- `FingerprintAt`. -/
def fingerprintAt (tableOffset : Nat) : Fingerprint :=
  table.hashTable.getD tableOffset nullFingerprint

section

variable (fp : Fingerprint)

/-- `HashFingerprint`, for a table that is not empty. -/
def hashFingerprint : Nat := fp.toNat % table.tableLength

/-- `IncrementHash`. -/
def incrementHash (hash : Nat) : Nat := if hash + 1 ≥ table.tableLength then 0 else hash + 1

/-- Store a fingerprint at a place. -/
def store (hash : Nat) (fp : Fingerprint) : Table :=
  { table with hashTable := table.hashTable.set hash fp }

/-- Change the number of used items. -/
def countItems (change : Int) : Table := { table with usedItems := table.usedItems + change }

/-- Pass a `NOTREACHED()`. -/
def reach : Table := { table with notReached := true }

/-- The loop of `IsVisited`. It comes back to its first place after as many
rounds as the table has places. -/
def isVisitedLoop (table : Table) (fp : Fingerprint) (firstHash : Nat) : Nat -> Nat -> Bool
  | 0, _ => false
  | rounds + 1, curHash =>
    let curFingerprint := table.fingerprintAt curHash
    if curFingerprint = nullFingerprint then false
    else if curFingerprint = fp then true
    else
      let next := if curHash + 1 = table.tableLength then 0 else curHash + 1
      if next = firstHash then false
      else isVisitedLoop table fp firstHash rounds next

/-- `VisitedLinkCommon::IsVisited`. -/
def isVisited : Bool :=
  if table.tableLength = 0 then false
  else
    let firstHash := table.hashFingerprint fp
    table.isVisitedLoop fp firstHash table.tableLength firstHash

/-- How the probe sequence of `AddFingerprint` ends. -/
inductive Probe
  | present
  | free (hash : Nat)
  | wrapped
  deriving DecidableEq

/-- The loop of `AddFingerprint`. -/
def addLoop (table : Table) (fp : Fingerprint) (firstHash : Nat) : Nat -> Nat -> Probe
  | 0, _ => .wrapped
  | rounds + 1, curHash =>
    let curFingerprint := table.fingerprintAt curHash
    if curFingerprint = fp then .present
    else if curFingerprint = nullFingerprint then .free curHash
    else
      let next := table.incrementHash curHash
      if next = firstHash then .wrapped
      else addLoop table fp firstHash rounds next

/-- `AddFingerprint`: the table and the place of the inserted fingerprint. -/
def addFingerprint : Table × Option Nat :=
  if table.tableLength = 0 then (table.reach, none)
  else
    let firstHash := table.hashFingerprint fp
    match table.addLoop fp firstHash table.tableLength firstHash with
    | .present => (table, none)
    | .free hash => ((table.store hash fp).countItems 1, some hash)
    | .wrapped => (table.reach, none)

end

/-- Add fingerprints in order. -/
def addFingerprints (fingerprints : List Fingerprint) : Table :=
  fingerprints.foldl (fun table fp => (table.addFingerprint fp).1) table

/-- The loop of `DeleteFingerprint` that finds the last place of the affected
range. -/
def endRangeLoop (table : Table) (deletedHash : Nat) : Nat -> Nat -> Nat
  | 0, endRange => endRange
  | rounds + 1, endRange =>
    let nextHash := table.incrementHash endRange
    if nextHash = deletedHash then endRange
    else if table.fingerprintAt nextHash = nullFingerprint then endRange
    else endRangeLoop table deletedHash rounds nextHash

/-- The last place that a deletion may affect. -/
def endRange (deletedHash : Nat) : Nat :=
  table.endRangeLoop deletedHash table.tableLength deletedHash

end

/-- The loop of `DeleteFingerprint` that removes the affected fingerprints and
saves all but the deleted one. -/
def removeLoop (fp : Fingerprint) (stopLoop : Nat) :
    Nat -> Nat -> Table -> List Fingerprint -> Table × List Fingerprint
  | 0, _, table, shuffled => (table, shuffled)
  | rounds + 1, i, table, shuffled =>
    if i = stopLoop then (table, shuffled)
    else
      let found := table.fingerprintAt i
      let removed := table.store i nullFingerprint
      if found ≠ fp then
        removeLoop fp stopLoop rounds (table.incrementHash i)
          (removed.countItems (-1)) (shuffled ++ [found])
      else removeLoop fp stopLoop rounds (table.incrementHash i) removed shuffled

/-- What `DeleteFingerprint` does to the table between its writes: remove the
affected range and add the saved fingerprints back. -/
def reshuffle (table : Table) (fp : Fingerprint) (deletedHash lastHash : Nat) : Table :=
  let (removed, shuffled) :=
    removeLoop fp (table.incrementHash lastHash) table.tableLength deletedHash table []
  removed.addFingerprints shuffled

end Table

/-!
## The hash table as a set

The loops of the hash table follow probe sequences. On a table that counts
its items and keeps every path free of holes, insertion adds one fingerprint
to the set the table stands for and deletion removes one.
-/

namespace Table

open Library Library.Probing

/-- The table as a function of the place. -/
abbrev cell (table : Table) : Nat -> Fingerprint := table.fingerprintAt

/-- The number of places that are not empty. -/
def nonZero (table : Table) : Nat :=
  tally (fun place => decide (table.cell place ≠ nullFingerprint)) true table.tableLength

/-- A table that probe sequences work on. -/
structure WellFormed (table : Table) : Prop where
  probed : Probed nullFingerprint UInt64.toNat table.tableLength table.cell
  counted : table.usedItems = table.nonZero

section

variable (table : Table)

section

variable (fp : Fingerprint)

/-- The table has a fingerprint. -/
def Contains : Prop := Holds table.tableLength table.cell fp

/-- The search for a fingerprint stops at a distance from its home. -/
abbrev StopsAt (gap : Nat) : Prop :=
  Stops nullFingerprint UInt64.toNat table.tableLength table.cell fp gap

/-- The place at a distance from the home of a fingerprint. -/
abbrev place (gap : Nat) : Nat := slot table.tableLength fp.toNat gap

end

@[simp] theorem tableLength_store (hash : Nat) :
    (table.store hash fp).tableLength = table.tableLength := by
  simp [store, tableLength]

@[simp] theorem tableLength_countItems :
    (table.countItems change).tableLength = table.tableLength :=
  rfl

@[simp] theorem cell_countItems : (table.countItems change).cell = table.cell := rfl

end

variable {hash : Nat} {removed table : Table}

theorem cell_store_self (lt : hash < table.tableLength) (fp : Fingerprint) :
    (table.store hash fp).cell hash = fp := by
  have within : hash < table.hashTable.length := lt
  simp [cell, fingerprintAt, store, getD_eq_getElem?_getD, within]

theorem cell_store_ne (ne : other ≠ hash) :
    (table.store hash fp).cell other = table.cell other := by
  simp [cell, fingerprintAt, store, getD_eq_getElem?_getD, ne.symm]

/-- `HashFingerprint` is the first place of the probe sequence. -/
theorem hashFingerprint_eq (table : Table) : table.hashFingerprint fp = table.place fp 0 :=
  rfl

/-- `IncrementHash` moves on in a probe sequence. -/
theorem incrementHash_slot (pos : 0 < table.tableLength) (gap : Nat) :
    table.incrementHash (slot table.tableLength start gap) =
      slot table.tableLength start (gap + 1) := by
  have small : slot table.tableLength start gap < table.tableLength := slot_lt pos
  rw [slot_succ pos, incrementHash]
  split <;> split <;> omega

/-- A table with fewer items than places has a free place. -/
theorem exists_free (room : table.nonZero < table.tableLength) :
    ∃ place < table.tableLength, table.cell place = nullFingerprint := by
  by_contra full
  push Not at full
  have all : table.nonZero = _ :=
    tally_extend (Nat.zero_le table.tableLength)
      fun place _ inside => decide_eq_true (full place inside)
  rw [if_pos rfl, Nat.sub_zero] at all
  have none : tally (fun place => decide (table.cell place ≠ nullFingerprint)) true 0 = 0 := rfl
  omega

section

variable (inside : hash < table.tableLength)
include inside

/-- Storing at one place changes the number of items by that place alone. -/
theorem nonZero_store_eq (fp : Fingerprint) :
    (table.store hash fp).nonZero + (if table.cell hash ≠ nullFingerprint then 1 else 0) =
      table.nonZero + if fp ≠ nullFingerprint then 1 else 0 := by
  have others : ∀ place, place ≠ hash ->
      decide ((table.store hash fp).cell place ≠ nullFingerprint) =
        decide (table.cell place ≠ nullFingerprint) := by
    intro place ne
    rw [cell_store_ne ne]
  have changed := tally_change true inside others
  rw [cell_store_self inside] at changed
  simpa only [nonZero, tableLength_store, decide_eq_true_iff] using changed

/-- Filling a free place adds one item. -/
theorem nonZero_store (free : table.cell hash = nullFingerprint) (taken : fp ≠ nullFingerprint) :
    (table.store hash fp).nonZero = table.nonZero + 1 := by
  have changed := nonZero_store_eq inside fp
  rwa [if_neg (not_not.mpr free), if_pos taken, Nat.add_zero] at changed

/-- Freeing a taken place removes one item. -/
theorem nonZero_free (taken : table.cell hash ≠ nullFingerprint) :
    (table.store hash nullFingerprint).nonZero + 1 = table.nonZero := by
  have changed := nonZero_store_eq inside nullFingerprint
  rwa [if_pos taken, if_neg (not_not.mpr rfl), Nat.add_zero] at changed

end

/-- The loop of `IsVisited` ends where the search stops. -/
theorem isVisitedLoop_eq (stops : table.StopsAt fp gap)
    (notNull : fp ≠ nullFingerprint) (reached : current <= gap)
    (enough : rounds + current = table.tableLength) :
    table.isVisitedLoop fp (table.place fp 0) rounds (table.place fp current) =
      decide (table.cell (table.place fp gap) = fp) := by
  have inside := stops.inside
  have pos : 0 < table.tableLength := by omega
  induction rounds generalizing current with
  | zero => omega
  | succ rounds ih =>
    rw [isVisitedLoop]
    rcases Nat.lt_or_eq_of_le reached with before | rfl
    · obtain ⟨other, taken⟩ := stops.passes current before
      have next : (if table.place fp current + 1 = table.tableLength then 0
            else table.place fp current + 1) =
            table.place fp (current + 1) :=
        (slot_succ pos).symm
      have further : table.place fp (current + 1) ≠ table.place fp 0 := by
        intro same
        have := slot_inj (by omega) pos same
        omega
      simp only [if_neg taken, if_neg other, next, if_neg further]
      exact ih (by omega) (by omega)
    · rcases stops.stops with hit | free
      · simp [hit, if_neg notNull, decide_true]
      · simp [free, notNull.symm]

/-- `IsVisited` answers whether the table has the fingerprint. -/
theorem isVisited_iff (wf : table.WellFormed) (room : table.nonZero < table.tableLength)
    (notNull : fp ≠ nullFingerprint) :
    table.isVisited fp = true ↔ table.Contains fp := by
  obtain ⟨gap, stops⟩ := exists_stops (exists_free room)
  rw [isVisited, if_neg (by omega), Contains,
    wf.probed.holds_iff stops notNull, hashFingerprint_eq,
    isVisitedLoop_eq stops notNull (Nat.zero_le _) (Nat.add_zero _),
    decide_eq_true_iff]

/-- The null fingerprint is not visited. -/
theorem isVisited_null (table : Table) : table.isVisited nullFingerprint = false := by
  have loops : ∀ rounds firstHash curHash,
      table.isVisitedLoop nullFingerprint firstHash rounds curHash = false := by
    intro rounds firstHash
    induction rounds with
    | zero => exact fun _ => rfl
    | succ rounds ih =>
      intro curHash
      rw [isVisitedLoop]
      simp [ih]
  unfold isVisited
  split
  · rfl
  · exact loops _ _ _

/-- The loop of `AddFingerprint` ends where the search stops. -/
theorem addLoop_eq (stops : table.StopsAt fp gap) (reached : current <= gap)
    (enough : rounds + current = table.tableLength) :
    table.addLoop fp (table.place fp 0) rounds (table.place fp current) =
      if table.cell (table.place fp gap) = fp then .present
      else .free (table.place fp gap) := by
  have inside := stops.inside
  have pos : 0 < table.tableLength := by omega
  induction rounds generalizing current with
  | zero => omega
  | succ rounds ih =>
    rw [addLoop]
    rcases Nat.lt_or_eq_of_le reached with before | rfl
    · obtain ⟨other, taken⟩ := stops.passes current before
      have further : table.place fp (current + 1) ≠ table.place fp 0 := by
        intro same
        have := slot_inj (by omega) pos same
        omega
      simp only [if_neg taken, if_neg other, incrementHash_slot pos, if_neg further]
      exact ih (by omega) (by omega)
    · dsimp only
      split
      · rfl
      · rename_i other
        rw [if_pos (stops.stops.resolve_left other)]

/-- `AddFingerprint` takes the null fingerprint for present. -/
theorem addFingerprint_null (room : table.nonZero < table.tableLength) :
    table.addFingerprint nullFingerprint = (table, none) := by
  obtain ⟨gap, stops⟩ : ∃ gap, table.StopsAt nullFingerprint gap :=
    exists_stops (exists_free room)
  have hit : table.cell (table.place nullFingerprint gap) = nullFingerprint :=
    stops.stops.elim id id
  rw [addFingerprint, if_neg (by omega), hashFingerprint_eq]
  simp only [addLoop_eq stops (Nat.zero_le _) (Nat.add_zero _), if_pos hit]

section

variable (wf : table.WellFormed)
include wf

section

variable (room : table.nonZero < table.tableLength)
include room

/-- A fingerprint that is present, or null, is not added. -/
theorem addFingerprint_present (present : table.Contains fp) :
    table.addFingerprint fp = (table, none) := by
  by_cases null : fp = nullFingerprint
  · rw [null, addFingerprint_null room]
  · obtain ⟨gap, stops⟩ := exists_stops (exists_free room)
    have hit := (wf.probed.holds_iff stops null).mp present
    rw [addFingerprint, if_neg (by omega), hashFingerprint_eq]
    simp only [addLoop_eq stops (Nat.zero_le _) (Nat.add_zero _), if_pos hit]

/-- What `AddFingerprint` does with a new fingerprint. -/
theorem addFingerprint_absent (absent : ¬table.Contains fp) : ∃ gap, table.StopsAt fp gap ∧
      table.cell (table.place fp gap) = nullFingerprint ∧
      table.addFingerprint fp = ((table.store (table.place fp gap) fp).countItems 1,
          some (table.place fp gap)) := by
  obtain ⟨gap, stops⟩ := exists_stops (exists_free room)
  have notNull : fp ≠ nullFingerprint := by
    rintro rfl
    exact absent (exists_free room)
  have other := mt (wf.probed.holds_iff stops notNull).mpr absent
  refine ⟨gap, stops, stops.stops.resolve_left other, ?_⟩
  rw [addFingerprint, if_neg (by omega), hashFingerprint_eq]
  simp only [addLoop_eq stops (Nat.zero_le _) (Nat.add_zero _), if_neg other]

/-- `AddFingerprint` adds one fingerprint to the set, counts it if it is new,
and does not wrap around. -/
theorem addFingerprint_spec (fp : Fingerprint) : let added := table.addFingerprint fp
    added.1.WellFormed ∧ added.1.tableLength = table.tableLength ∧
      added.1.notReached = table.notReached ∧
      added.1.nonZero <= table.nonZero + 1 ∧
      (added.2 = none -> table.Contains fp ∧ added.1 = table) ∧
      ∀ other ≠ nullFingerprint, added.1.Contains other ↔ other = fp ∨ table.Contains other := by
  by_cases present : table.Contains fp
  · rw [addFingerprint_present wf room present]
    refine ⟨wf, rfl, rfl, Nat.le_succ _, fun _ => ⟨present, rfl⟩, ?_⟩
    intro other _
    constructor
    · exact .inr
    · rintro (rfl | contained)
      · exact present
      · exact contained
  · have notNull : fp ≠ nullFingerprint := by
      rintro rfl
      exact present (exists_free room)
    obtain ⟨gap, stops, free, added⟩ := addFingerprint_absent wf room present
    have lt : table.place fp gap < table.tableLength := slot_lt (by omega)
    have stored := cell_store_self lt fp
    have others : ∀ i, i ≠ table.place fp gap ->
        (table.store (table.place fp gap) fp).cell i = table.cell i :=
      fun i ne => cell_store_ne ne
    have counted := nonZero_store lt free notNull
    rw [added]
    refine ⟨⟨?_, ?_⟩, ?_, rfl, ?_, nofun, ?_⟩
    · rw [tableLength_countItems, tableLength_store, cell_countItems]
      exact wf.probed.insert stops notNull free stored others
    · have before := wf.counted
      change table.usedItems + 1 = ((table.store _ _).nonZero : Int)
      rw [counted]
      omega
    · rw [tableLength_countItems, tableLength_store]
    · change (table.store _ _).nonZero <= _
      rw [counted]
    · intro other otherTaken
      rw [Contains, tableLength_countItems, tableLength_store, cell_countItems]
      exact holds_insert lt free stored others otherTaken

end

/-- Adding fingerprints adds them all to the set. -/
theorem addFingerprints_spec (room : table.nonZero + fingerprints.length <= table.tableLength) :
    let added := table.addFingerprints fingerprints
    added.WellFormed ∧ added.tableLength = table.tableLength ∧ added.notReached = table.notReached ∧
      added.nonZero <= table.nonZero + fingerprints.length ∧
      ∀ other ≠ nullFingerprint, added.Contains other ↔
          other ∈ fingerprints ∨ table.Contains other := by
  induction fingerprints generalizing table with
  | nil =>
    refine ⟨wf, rfl, rfl, Nat.le_refl _, ?_⟩
    intro other _
    simp [addFingerprints]
  | cons fp rest ih =>
    rw [length_cons] at room
    obtain ⟨stillFormed, sameLength, reached, grown, -, contents⟩ :=
      addFingerprint_spec wf (by omega) fp
    obtain ⟨endFormed, endLength, endReached, endGrown, endContents⟩ := ih stillFormed (by omega)
    refine ⟨endFormed, endLength.trans sameLength, endReached.trans reached, ?_, ?_⟩
    · rw [length_cons]
      exact Nat.le_trans endGrown (by omega)
    · intro other otherTaken
      refine (endContents other otherTaken).trans ?_
      rw [contents other otherTaken, mem_cons]
      tauto

end

/-- The places a deletion may affect. -/
abbrev ClusterAt (table : Table) (start length : Nat) : Prop :=
  Cluster nullFingerprint table.tableLength table.cell start length

/-- Behind a taken place the affected places end before a free one. -/
theorem exists_cluster (room : table.nonZero < table.tableLength) (start : Nat) :
    ∃ len, table.ClusterAt start len := by
  classical
  obtain ⟨place, inside, free⟩ := exists_free room
  obtain ⟨gap, distanceLt, rfl⟩ := exists_slot start inside
  have ends : ∃ len, table.cell (slot table.tableLength start len) = nullFingerprint :=
    ⟨gap, free⟩
  refine ⟨Nat.find ends, ?_, ?_, Nat.find_spec ends⟩
  · exact Nat.lt_of_le_of_lt (Nat.find_min' ends free) distanceLt
  · intro before earlier
    exact Nat.find_min ends earlier

/-- The loop that looks for the end of the affected range finds the last
place of the cluster. -/
theorem endRangeLoop_eq (cluster : table.ClusterAt start (length + 1)) (reached : current <= length)
    (enough : length < rounds + current) :
    table.endRangeLoop (slot table.tableLength start 0) rounds
        (slot table.tableLength start current) = slot table.tableLength start length := by
  have shorter := cluster.shorter
  have pos : 0 < table.tableLength := by omega
  induction rounds generalizing current with
  | zero => omega
  | succ rounds ih =>
    have further : slot table.tableLength start (current + 1) ≠ slot table.tableLength start 0 := by
      intro same
      have := slot_inj (by omega) pos same
      omega
    rw [endRangeLoop]
    simp only [incrementHash_slot pos, if_neg further]
    rcases Nat.lt_or_eq_of_le reached with before | rfl
    · rw [if_neg (cluster.taken (current + 1) (by omega))]
      exact ih (by omega) (by omega)
    · rw [if_pos cluster.ends]

/-- The affected range does not depend on the number of items. -/
theorem endRange_countItems (table : Table) (deletedHash : Nat) :
    (table.countItems change).endRange deletedHash = table.endRange deletedHash := by
  have loops : ∀ rounds endRange,
      (table.countItems change).endRangeLoop deletedHash rounds endRange =
        table.endRangeLoop deletedHash rounds endRange := by
    intro rounds
    induction rounds with
    | zero => exact fun _ => rfl
    | succ rounds ih =>
      intro endRange
      simp only [endRangeLoop, ih]
      rfl
  exact loops _ _

/-- The fingerprints at some distances behind a place. -/
def fingerprintsFrom (table : Table) (start current count : Nat) : List Fingerprint :=
  (List.range' current count).map fun gap => table.cell (slot table.tableLength start gap)

/-- Storing at one distance does not change what is read at others. -/
theorem fingerprintsFrom_store (inside : current + 1 + count <= table.tableLength) :
    (table.store (slot table.tableLength start current)
        fp).fingerprintsFrom start (current + 1) count =
      table.fingerprintsFrom start (current + 1) count := by
  apply map_congr_left
  intro gap mem
  rw [mem_range'_1] at mem
  rw [tableLength_store, cell_store_ne]
  intro same
  have := slot_inj (by omega) (by omega) same
  omega

/-- A table from which the fingerprints at some distances behind a place were
removed and some of them uncounted. -/
structure Removed (table removed : Table) (start current count uncounted : Nat) : Prop where
  tableLength : removed.tableLength = table.tableLength
  notReached : removed.notReached = table.notReached
  usedItems : removed.usedItems = table.usedItems - uncounted
  nonZero : removed.nonZero + count = table.nonZero
  freed : ∀ gap, current <= gap -> gap < current + count ->
    removed.cell (slot table.tableLength start gap) = nullFingerprint
  others : ∀ index, (∀ gap, current <= gap -> gap < current + count ->
      index ≠ slot table.tableLength start gap) ->
    removed.cell index = table.cell index

/-- One fingerprint was removed before the others. -/
theorem Removed.cons {extra : Nat}
    (taken : table.cell (slot table.tableLength start cur) ≠ nullFingerprint)
    (shorter : cur + (count + 1) < table.tableLength)
    (rest : Removed ((table.store (slot table.tableLength start cur)
          nullFingerprint).countItems (-extra)) removed start (cur + 1) count uncounted) :
    Removed table removed start cur (count + 1) (uncounted + extra) := by
  have lt : slot table.tableLength start cur < table.tableLength := slot_lt (by omega)
  obtain ⟨len, reached, items, nonZero, freed, others⟩ := rest
  rw [tableLength_countItems, tableLength_store] at len freed others
  rw [cell_countItems] at others
  have here : ∀ gap, cur + 1 <= gap -> gap < cur + 1 + count ->
        slot table.tableLength start cur ≠ slot table.tableLength start gap := by
    intro gap low high same
    have := slot_inj (by omega) (by omega) same
    omega
  refine ⟨len, reached, ?_, ?_, ?_, ?_⟩
  · change removed.usedItems = table.usedItems + -(extra : Int) - uncounted at items
    rw [items]
    omega
  · have fewer := nonZero_free lt taken
    change removed.nonZero + count = (table.store _ _).nonZero at nonZero
    omega
  · intro gap low high
    rcases Nat.lt_or_eq_of_le low with after | rfl
    · exact freed gap after (by omega)
    · rw [others _ here, cell_store_self lt]
  · intro i outside
    rw [others i fun gap low high =>
      outside gap (by omega) (by omega),
      cell_store_ne (outside cur (Nat.le_refl _) (by omega))]

/-- The loop that removes a cluster saves all fingerprints but one. -/
theorem removeLoop_spec {cur n rounds : Nat} (fp : Fingerprint)
    (taken : ∀ gap, cur <= gap -> gap < cur + n ->
      table.cell (slot table.tableLength start gap) ≠ nullFingerprint)
    (shorter : cur + n < table.tableLength) (enough : n < rounds)
    (shuffled : List Fingerprint) :
    let saved := (table.fingerprintsFrom start cur n).filter
      fun hit => decide (hit ≠ fp)
    ∃ removed, removeLoop fp (slot table.tableLength start (cur + n)) rounds
          (slot table.tableLength start cur) table shuffled =
        (removed, shuffled ++ saved) ∧
      Removed table removed start cur n saved.length := by
  induction n generalizing table cur rounds shuffled with
  | zero =>
    obtain ⟨rounds, rfl⟩ := Nat.exists_eq_add_one.mpr enough
    refine ⟨table, ?_, rfl, rfl, ?_, rfl, ?_, ?_⟩
    · rw [removeLoop, Nat.add_zero, if_pos rfl]
      simp [fingerprintsFrom]
    · simp [fingerprintsFrom]
    · intro gap low high
      omega
    · intro i _
      rfl
  | succ n ih =>
    obtain ⟨rounds, rfl⟩ := Nat.exists_eq_add_one.mpr (Nat.lt_of_le_of_lt (Nat.zero_le _) enough)
    have hereTaken := taken cur (Nat.le_refl _) (by omega)
    have goesOn : slot table.tableLength start cur ≠
          slot table.tableLength start (cur + (n + 1)) := by
      intro same
      have := slot_inj (by omega) (by omega) same
      omega
    have stillTaken : ∀ gap, cur + 1 <= gap -> gap < cur + 1 + n ->
        (table.store (slot table.tableLength start cur)
          nullFingerprint).cell (slot table.tableLength start gap) ≠ nullFingerprint := by
      intro gap low high
      rw [cell_store_ne]
      · exact taken gap (by omega) (by omega)
      · intro same
        have := slot_inj (by omega) (by omega) same
        omega
    have split : table.fingerprintsFrom start cur (n + 1) =
        table.cell (slot table.tableLength start cur) ::
          table.fingerprintsFrom start (cur + 1) n := by
      rw [fingerprintsFrom, range'_succ]
      rfl
    -- The rest of the loop, after any change of the number of items.
    have rest := fun (extra : Nat) (saved : List Fingerprint) =>
      @ih ((table.store (slot table.tableLength start cur) nullFingerprint).countItems (-extra))
        (cur + 1) rounds
        (by simpa using stillTaken) (by simp; omega) (by omega) saved
    dsimp only at rest ⊢
    simp only [tableLength_countItems, tableLength_store] at rest
    have following : ∀ extra : Nat, ((table.store (slot table.tableLength start cur)
            nullFingerprint).countItems (-extra)).fingerprintsFrom start (cur + 1) n =
          table.fingerprintsFrom start (cur + 1) n :=
      fun _ => fingerprintsFrom_store (by omega)
    simp only [following] at rest
    rw [removeLoop, if_neg goesOn, split, show cur + (n + 1) = cur + 1 + n by omega,
      incrementHash_slot (by omega)]
    dsimp only
    split
    · rename_i other
      obtain ⟨removed, looped, spec⟩ := rest 1 (shuffled ++
          [table.cell (slot table.tableLength start cur)])
      refine ⟨removed, ?_, ?_⟩
      · rw [filter_cons_of_pos (by simpa using other)]
        simpa using looped
      · rw [filter_cons_of_pos (by simpa using other), length_cons]
        exact spec.cons hereTaken shorter
    · rename_i same
      obtain ⟨removed, looped, spec⟩ := rest 0 shuffled
      refine ⟨removed, ?_, ?_⟩
      · rw [filter_cons_of_neg (by simpa using same)]
        simpa [countItems] using looped
      · rw [filter_cons_of_neg (by simpa using same)]
        exact spec.cons hereTaken shorter

/-- The fingerprints of a cluster are told apart by their distances. -/
theorem fingerprintsFrom_nodup (wf : table.WellFormed)
    (cluster : table.ClusterAt start length) :
    (table.fingerprintsFrom start 0 length).Nodup := by
  have shorter := cluster.shorter
  apply Nodup.map_on
  · intro first firstMember second secondMember same
    rw [mem_range'_1] at firstMember secondMember
    have samePlace := wf.probed.unique (slot_lt (by omega))
      (slot_lt (by omega)) same (cluster.taken first (by omega))
    exact slot_inj (by omega) (by omega) samePlace
  · exact nodup_range'

theorem Removed.cleared (spec : Removed table removed start 0 length uncounted) :
    Cleared nullFingerprint table.tableLength table.cell removed.cell start length := by
  refine ⟨?_, ?_⟩
  · intro gap inside
    exact spec.freed gap (Nat.zero_le _) (by omega)
  · intro i outside
    exact spec.others i fun gap _ inside => outside gap (by omega)

/-- The first half of a deletion: the cluster of the fingerprint is removed,
all others of the cluster are saved. -/
structure Shuffling (table removed : Table) (fp : Fingerprint) (last : Nat)
    (shuffled : List Fingerprint) : Prop where
  cluster : table.ClusterAt fp.toNat (last + 1)
  endRange : table.endRange (table.hashFingerprint fp) = table.place fp last
  reshuffle : (table.countItems (-1)).reshuffle fp (table.hashFingerprint fp)
        (table.endRange (table.hashFingerprint fp)) =
      removed.addFingerprints shuffled
  saved : shuffled = (table.fingerprintsFrom fp.toNat 0 (last + 1)).filter
      fun found => decide (found ≠ fp)
  length : shuffled.length = last
  removed : Removed (table.countItems (-1)) removed fp.toNat 0 (last + 1) last

/-- The cluster of a stored fingerprint is removed and the others saved. -/
theorem exists_shuffling (wf : table.WellFormed) (room : table.nonZero < table.tableLength)
    (visits : table.isVisited fp = true) :
    fp ≠ nullFingerprint ∧ ∃ removed last shuffled, Shuffling table removed fp last shuffled := by
  have notNull : fp ≠ nullFingerprint := by
    rintro rfl
    rw [isVisited_null] at visits
    exact Bool.false_ne_true visits
  have present := (isVisited_iff wf room notNull).mp visits
  refine ⟨notNull, ?_⟩
  obtain ⟨len, cluster⟩ := exists_cluster room fp.toNat
  have shorter := cluster.shorter
  obtain ⟨gap, distanceLt, hit⟩ := wf.probed.mem_cluster cluster notNull present
  obtain ⟨last, rfl⟩ : ∃ last, len = last + 1 :=
    Nat.exists_eq_add_one.mpr (Nat.lt_of_le_of_lt (Nat.zero_le _) distanceLt)
  have lastPlace : table.endRange (table.hashFingerprint fp) = table.place fp last :=
    endRangeLoop_eq cluster (Nat.zero_le _) (by omega)
  have taken : ∀ gap, 0 <= gap -> gap < 0 + (last + 1) ->
      (table.countItems (-1)).cell (slot table.tableLength fp.toNat gap) ≠
          nullFingerprint :=
    fun gap _ inside => cluster.taken gap (by omega)
  let saved :=
    (table.fingerprintsFrom fp.toNat 0 (last + 1)).filter fun hit => decide (hit ≠ fp)
  have savedLength : saved.length = last := by
    have nodup := fingerprintsFrom_nodup wf cluster
    have mem : fp ∈ table.fingerprintsFrom fp.toNat 0 (last + 1) := by
      rw [fingerprintsFrom, List.mem_map]
      exact ⟨gap, by rw [mem_range'_1]; omega, hit⟩
    have erased : saved = (table.fingerprintsFrom fp.toNat 0 (last + 1)).erase
          fp := by
      rw [nodup.erase_eq_filter]
      apply filter_congr
      intro other _
      simp [bne, beq_eq_decide]
    rw [erased, length_erase_of_mem mem, fingerprintsFrom, length_map, length_range']
    rfl
  have looped : ∃ removed, removeLoop fp (slot table.tableLength fp.toNat (0 + (last + 1)))
          table.tableLength (slot table.tableLength fp.toNat 0)
          (table.countItems (-1)) [] =
        (removed, [] ++ saved) ∧
      Removed (table.countItems (-1)) removed fp.toNat 0 (last + 1) saved.length :=
    removeLoop_spec fp taken (by simpa using shorter) shorter []
  obtain ⟨removed, looped, spec⟩ := looped
  rw [savedLength] at spec
  rw [Nat.zero_add, nil_append] at looped
  refine ⟨removed, last, saved, cluster, lastPlace, ?_, rfl, savedLength, spec⟩
  have next : (table.countItems (-1)).incrementHash (table.place fp last) =
        slot table.tableLength fp.toNat (last + 1) :=
    incrementHash_slot (Nat.lt_of_le_of_lt (Nat.zero_le _) shorter) _
  have removal : removeLoop fp ((table.countItems (-1)).incrementHash (table.place fp last))
          (table.countItems (-1)).tableLength
          (table.hashFingerprint fp) (table.countItems (-1)) [] =
        (removed, saved) := by
    rw [next]
    exact looped
  rw [reshuffle, lastPlace, removal]

/-- What is left when a cluster was removed. -/
theorem Shuffling.wellFormed (wf : table.WellFormed)
    (shuffling : Shuffling table removed fp last shuffled) :
    removed.WellFormed ∧ removed.tableLength = table.tableLength ∧
      removed.nonZero + (last + 1) = table.nonZero := by
  have spec := shuffling.removed
  have len : removed.tableLength = table.tableLength := spec.tableLength
  have fewer : removed.nonZero + (last + 1) = table.nonZero := spec.nonZero
  refine ⟨⟨?_, ?_⟩, len, fewer⟩
  · rw [len]
    exact wf.probed.clear shuffling.cluster spec.cleared
  · have items := spec.usedItems
    change removed.usedItems = table.usedItems + -1 - last at items
    rw [items, wf.counted]
    omega

/-- The saved fingerprints are the others of the cluster. -/
theorem Shuffling.mem_shuffled (shuffling : Shuffling table removed fp last shuffled) :
    other ∈ shuffled ↔ other ≠ fp ∧ ∃ gap < last + 1,
          table.cell (table.place fp gap) = other := by
  rw [shuffling.saved, mem_filter, fingerprintsFrom, List.mem_map, decide_eq_true_iff, and_comm]
  simp

/-- A deletion removes one fingerprint from the set. -/
theorem Shuffling.deletes (wf : table.WellFormed)
    (shuffling : Shuffling table removed fp last shuffled)
    (notNull : fp ≠ nullFingerprint) :
    let deleted := removed.addFingerprints shuffled
    deleted.WellFormed ∧ deleted.tableLength = table.tableLength ∧
      deleted.notReached = table.notReached ∧
      deleted.nonZero < table.nonZero ∧
      ∀ other ≠ nullFingerprint, deleted.Contains other ↔ other ≠ fp ∧ table.Contains other := by
  have shorter := shuffling.cluster.shorter
  have pos : 0 < table.tableLength := by omega
  obtain ⟨removedFormed, sameLength, fewer⟩ := shuffling.wellFormed wf
  have fits : table.nonZero <= table.tableLength := Nat.count_le _
  obtain ⟨deletedFormed, deletedLength, reached, grown, contents⟩ :=
    addFingerprints_spec removedFormed (by rw [shuffling.length]; omega)
  refine ⟨deletedFormed, deletedLength.trans sameLength,
    reached.trans shuffling.removed.notReached, ?_, ?_⟩
  · rw [shuffling.length] at grown
    exact Nat.lt_of_le_of_lt grown (by omega)
  · intro other otherTaken
    refine (contents other otherTaken).trans ?_
    rw [shuffling.mem_shuffled]
    have before : table.Contains other ↔ Holds table.tableLength removed.cell other ∨
          ∃ gap < last + 1, table.cell (table.place fp gap) = other :=
      holds_clear pos shuffling.removed.cleared otherTaken
    have gone : Holds table.tableLength removed.cell other -> other ≠ fp := by
      rintro held rfl
      have present : table.Contains other := before.mpr (.inl held)
      obtain ⟨i, inside, hit⟩ := held
      obtain ⟨gap, distanceLt, stored⟩ :=
        wf.probed.mem_cluster shuffling.cluster notNull present
      have outside : ∀ inner < last + 1, i ≠ table.place other inner := by
        rintro inner innerLt rfl
        have freed : removed.cell (table.place other inner) = nullFingerprint :=
          shuffling.removed.cleared.freed inner innerLt
        exact notNull (hit.symm.trans freed)
      have kept : removed.cell i = table.cell i :=
        shuffling.removed.cleared.others i outside
      apply outside gap distanceLt
      apply wf.probed.unique inside (slot_lt pos)
      · exact (kept.symm.trans hit).trans stored.symm
      · exact (kept.symm.trans hit).symm ▸ notNull
    rw [Contains, sameLength, before]
    constructor
    · rintro (⟨ne, inCluster⟩ | held)
      · exact ⟨ne, .inr inCluster⟩
      · exact ⟨gone held, .inl held⟩
    · rintro ⟨ne, held | inCluster⟩
      · exact .inr held
      · exact .inl ⟨ne, inCluster⟩

end Table

end Chromium.VisitedLink
