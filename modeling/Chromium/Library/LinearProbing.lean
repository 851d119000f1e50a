import Mathlib.Data.Nat.Find
import Mathlib.Data.Nat.ModEq

/-!
# Hash tables with linear probing

A key is stored at the first free slot at or behind its home, going around the
end of the table. No slot on the way from the home of a stored key to the key
is free, so a search may stop at the first free slot.
-/

namespace Chromium.Library.Probing

/-- The slot at a distance behind another one, around the end of the table. -/
def slot (size start gap : Nat) : Nat := (start + gap) % size

theorem slot_lt (pos : 0 < size) : slot size start gap < size := Nat.mod_lt _ pos

theorem slot_slot (size : Nat) :
    slot size (slot size start first) second = slot size start (first + second) := by
  simp [slot, Nat.add_assoc]

/-- Different distances below the size of the table lead to different
slots. -/
theorem slot_inj (firstLt : first < size) (secondLt : second < size)
    (same : slot size start first = slot size start second) :
    first = second := by
  have congruent : first ≡ second [MOD size] := Nat.ModEq.add_left_cancel' start same
  rwa [Nat.ModEq, Nat.mod_eq_of_lt firstLt, Nat.mod_eq_of_lt secondLt] at congruent

/-- Every slot is reached from any start. -/
theorem exists_slot (start : Nat) (lt : index < size) :
    ∃ gap < size, slot size start gap = index := by
  have pos : 0 < size := Nat.lt_of_le_of_lt (Nat.zero_le _) lt
  refine ⟨(index + (size - start % size)) % size, Nat.mod_lt _ pos, ?_⟩
  have small := Nat.mod_lt start pos
  rw [slot, Nat.add_mod, Nat.mod_mod, ← Nat.add_mod,
    ← Nat.mod_add_mod, show start % size + (index + (size - start % size)) =
      index + size by omega, Nat.add_mod_right, Nat.mod_eq_of_lt lt]

theorem slot_succ (pos : 0 < size) :
    slot size start (gap + 1) = if slot size start gap + 1 = size then 0
      else slot size start gap + 1 := by
  have small : slot size start gap < size := slot_lt pos
  rw [← slot_slot, slot]
  split
  · rename_i last
    rw [last, Nat.mod_self]
  · exact Nat.mod_eq_of_lt (by omega)

section

variable {α : Type*} {empty : α} {home : α -> Nat} {size : Nat}
variable {cell cell' : Nat -> α}

/-- Slots that do not pass the end of the table follow one another. -/
theorem slot_straight (lastLt : last < size) (straight : ¬slot size start last < slot size start 0)
    (within : gap <= last) :
    slot size start gap = slot size start 0 + gap := by
  have reduced : ∀ further, slot size start further = (start % size + further) % size := by
    intro further
    rw [slot, Nat.mod_add_mod]
  have small : start % size < size := Nat.mod_lt _ (by omega)
  rw [reduced, reduced, Nat.add_zero, Nat.mod_mod] at straight
  rw [reduced, reduced, Nat.add_zero, Nat.mod_mod]
  apply Nat.mod_eq_of_lt
  by_contra wraps
  apply straight
  rw [Nat.mod_eq_sub_mod (by omega), Nat.mod_eq_of_lt (by omega)]
  omega

/-- Every key occurs once, and no slot before it on the way from its home is
free. -/
structure Probed (empty : α) (home : α -> Nat) (size : Nat) (cell : Nat -> α) : Prop where
  unique : ∀ {i j}, i < size -> j < size -> cell i = cell j -> cell i ≠ empty -> i = j
  path : ∀ {key gap}, key ≠ empty -> gap < size -> cell (slot size (home key) gap) = key ->
    ∀ before < gap, cell (slot size (home key) before) ≠ empty

/-- A key is stored in the table. -/
def Holds (size : Nat) (cell : Nat -> α) (key : α) : Prop := ∃ index < size, cell index = key

/-- The search for a key stops at a distance from its home. -/
structure Stops (empty : α) (home : α -> Nat) (size : Nat) (cell : Nat -> α) (key : α)
    (gap : Nat) : Prop where
  inside : gap < size
  stops : cell (slot size (home key) gap) = key ∨ cell (slot size (home key) gap) = empty
  passes : ∀ before < gap, cell (slot size (home key) before) ≠ key ∧
      cell (slot size (home key) before) ≠ empty

theorem Probed.of_empty (free : ∀ index < size, cell index = empty) :
    Probed empty home size cell := by
  refine ⟨?_, ?_⟩
  · intro i j inside _ _ taken
    exact absurd (free i inside) taken
  · intro key gap taken inside hit
    have pos : 0 < size := Nat.lt_of_le_of_lt (Nat.zero_le _) inside
    rw [free _ (slot_lt pos)] at hit
    exact absurd hit.symm taken

/-- In a table with a free slot every search stops. -/
theorem exists_stops (free : ∃ i < size, cell i = empty) :
    ∃ gap, Stops empty home size cell key gap := by
  classical
  obtain ⟨i, inside, isFree⟩ := free
  obtain ⟨gap, distanceLt, rfl⟩ := exists_slot (home key) inside
  have reaches : ∃ gap, cell (slot size (home key) gap) = key ∨
        cell (slot size (home key) gap) = empty :=
    ⟨gap, .inr isFree⟩
  refine ⟨Nat.find reaches, ?_, Nat.find_spec reaches, ?_⟩
  · exact Nat.lt_of_le_of_lt (Nat.find_min' reaches (.inr isFree)) distanceLt
  · intro before earlier
    exact not_or.mp (Nat.find_min reaches earlier)

/-- A search finds the key exactly when the table holds it. -/
theorem Probed.holds_iff (probed : Probed empty home size cell)
    (stops : Stops empty home size cell key gap) (keyTaken : key ≠ empty) :
    Holds size cell key ↔ cell (slot size (home key) gap) = key := by
  have pos : 0 < size := Nat.lt_of_le_of_lt (Nat.zero_le _) stops.inside
  constructor
  · rintro ⟨i, inside, hit⟩
    obtain ⟨other, otherLt, rfl⟩ := exists_slot (home key) inside
    rcases Nat.lt_trichotomy other gap with earlier | rfl | later
    · exact absurd hit (stops.passes other earlier).1
    · exact hit
    · rcases stops.stops with same | free
      · exact same
      · exact absurd free (probed.path keyTaken otherLt hit gap later)
  · intro hit
    exact ⟨_, slot_lt pos, hit⟩

/-- Storing a new key where its search stops. -/
theorem Probed.insert (probed : Probed empty home size cell)
    (stops : Stops empty home size cell key gap) (keyTaken : key ≠ empty)
    (free : cell (slot size (home key) gap) = empty)
    (stored : cell' (slot size (home key) gap) = key)
    (others : ∀ index, index ≠ slot size (home key) gap -> cell' index = cell index) :
    Probed empty home size cell' := by
  have absent : ¬Holds size cell key := by
    rw [probed.holds_iff stops keyTaken, free]
    exact keyTaken.symm
  have stillTaken : ∀ index, cell index ≠ empty -> cell' index ≠ empty := by
    intro index taken
    rw [others index (fun same => taken (same ▸ free))]
    exact taken
  refine ⟨?_, ?_⟩
  · intro i j iInside jInside same taken
    by_cases iNew : i = slot size (home key) gap
    · by_cases jNew : j = slot size (home key) gap
      · rw [iNew, jNew]
      · rw [iNew, stored, others j jNew] at same
        exact absurd ⟨j, jInside, same.symm⟩ absent
    · by_cases jNew : j = slot size (home key) gap
      · rw [jNew, stored, others i iNew] at same
        exact absurd ⟨i, iInside, same⟩ absent
      · rw [others i iNew, others j jNew] at same
        rw [others i iNew] at taken
        exact probed.unique iInside jInside same taken
  · intro other reached otherTaken inside hit before earlier
    by_cases new : slot size (home other) reached = slot size (home key) gap
    · rw [new, stored] at hit
      subst hit
      have here := slot_inj inside stops.inside new
      exact stillTaken _ (stops.passes before (here ▸ earlier)).2
    · rw [others _ new] at hit
      exact stillTaken _ (probed.path otherTaken inside hit before earlier)

/-- What a table holds after a key was stored in a free slot. -/
theorem holds_insert (lt : target < size) (free : cell target = empty)
    (stored : cell' target = key) (others : ∀ i, i ≠ target -> cell' i = cell i)
    (otherTaken : other ≠ empty) :
    Holds size cell' other ↔ other = key ∨ Holds size cell other := by
  constructor
  · rintro ⟨i, indexInside, hit⟩
    by_cases new : i = target
    · rw [new, stored] at hit
      exact .inl hit.symm
    · rw [others i new] at hit
      exact .inr ⟨i, indexInside, hit⟩
  · rintro (rfl | ⟨i, indexInside, hit⟩)
    · exact ⟨target, lt, stored⟩
    · refine ⟨i, indexInside, ?_⟩
      rw [others i, hit]
      rintro rfl
      exact otherTaken (hit.symm.trans free)

/-- A cluster: the slots at distances below `length` are taken, the next one
is free. -/
structure Cluster (empty : α) (size : Nat) (cell : Nat -> α) (start length : Nat) : Prop where
  shorter : length < size
  taken : ∀ gap < length, cell (slot size start gap) ≠ empty
  ends : cell (slot size start length) = empty

/-- A cluster has been freed, and nothing else. -/
structure Cleared (empty : α) (size : Nat) (cell cell' : Nat -> α) (start length : Nat) : Prop where
  freed : ∀ gap < length, cell' (slot size start gap) = empty
  others : ∀ index, (∀ gap < length, index ≠ slot size start gap) -> cell' index = cell index

/-- A taken slot whose path meets a cluster lies in the cluster, as far
behind. -/
theorem Cluster.meets (cluster : Cluster empty size cell start length)
    (path : ∀ before ≤ gap, cell (slot size origin before) ≠ empty)
    (meets : slot size origin before = slot size start offset) (offsetLt : offset < length)
    (earlier : before <= gap) :
    offset + (gap - before) < length ∧ slot size origin gap =
        slot size start (offset + (gap - before)) := by
  constructor
  · by_contra outside
    have further : before + (length - offset) <= gap := by omega
    have ends := cluster.ends
    rw [show length = offset + (length - offset) by omega, ← slot_slot, ← meets, slot_slot] at ends
    exact path _ further ends
  · rw [← slot_slot, ← meets, slot_slot]
    congr 1
    omega

/-- A taken slot whose path meets a cluster lies in the cluster. -/
theorem Cluster.contains (cluster : Cluster empty size cell start len)
    (path : ∀ before ≤ gap, cell (slot size origin before) ≠ empty)
    (meets : slot size origin before = slot size start offset) (offsetLt : offset < len)
    (earlier : before <= gap) :
    ∃ inner < len, slot size origin gap = slot size start inner :=
  ⟨_, cluster.meets path meets offsetLt earlier⟩

section

variable (probed : Probed empty home size cell)
include probed

/-- The path to a stored key, the key's own slot included. -/
theorem Probed.path_le (keyTaken : key ≠ empty) (lt : gap < size)
    (hit : cell (slot size (home key) gap) = key) :
    ∀ before ≤ gap, cell (slot size (home key) before) ≠ empty := by
  intro before earlier
  rcases Nat.lt_or_eq_of_le earlier with less | rfl
  · exact probed.path keyTaken lt hit before less
  · rw [hit]
    exact keyTaken

/-- The cluster behind the home of a stored key contains the key. -/
theorem Probed.mem_cluster (cluster : Cluster empty size cell (home key) len)
    (keyTaken : key ≠ empty) (inv : Holds size cell key) :
    ∃ gap < len, cell (slot size (home key) gap) = key := by
  obtain ⟨i, inside, hit⟩ := inv
  obtain ⟨gap, distanceLt, rfl⟩ := exists_slot (home key) inside
  refine ⟨gap, ?_, hit⟩
  by_contra outside
  exact probed.path_le keyTaken distanceLt hit len (Nat.le_of_not_lt outside) cluster.ends

/-- Freeing a whole cluster keeps the paths to all other keys. -/
theorem Probed.clear (cluster : Cluster empty size cell start len)
    (cleared : Cleared empty size cell cell' start len) :
    Probed empty home size cell' := by
  have kept : ∀ index, cell' index ≠ empty ->
      (∀ gap < len, index ≠ slot size start gap) ∧ cell' index = cell index := by
    intro index taken
    have outside : ∀ gap < len, index ≠ slot size start gap := by
      rintro gap inside rfl
      exact taken (cleared.freed gap inside)
    exact ⟨outside, cleared.others index outside⟩
  refine ⟨?_, ?_⟩
  · intro i j iInside jInside same taken
    have iKept := (kept i taken).2
    have jKept := (kept j (same ▸ taken)).2
    rw [iKept, jKept] at same
    exact probed.unique iInside jInside same (iKept ▸ taken)
  · intro key gap keyTaken inside hit before earlier
    obtain ⟨outside, unchanged⟩ := kept (slot size (home key) gap) (hit.symm ▸ keyTaken)
    have foundBefore := unchanged.symm.trans hit
    have path := probed.path_le keyTaken inside foundBefore
    rw [cleared.others]
    · exact path before (Nat.le_of_lt earlier)
    · intro off offsetLt meets
      obtain ⟨inner, innerLt, same⟩ := cluster.contains path meets offsetLt (Nat.le_of_lt earlier)
      exact outside inner innerLt same

end

/-- What a table holds after a cluster was freed. -/
theorem holds_clear (pos : 0 < size) (cleared : Cleared empty size cell cell' start len)
    (keyTaken : key ≠ empty) :
    Holds size cell key ↔ Holds size cell' key ∨
        ∃ gap < len, cell (slot size start gap) = key := by
  constructor
  · rintro ⟨i, inside, hit⟩
    by_cases inCluster : ∃ gap < len, i = slot size start gap
    · obtain ⟨gap, distanceLt, rfl⟩ := inCluster
      exact .inr ⟨gap, distanceLt, hit⟩
    · refine .inl ⟨i, inside, ?_⟩
      rw [cleared.others i, hit]
      intro gap distanceLt same
      exact inCluster ⟨gap, distanceLt, same⟩
  · rintro (⟨i, inside, hit⟩ | ⟨gap, distanceLt, hit⟩)
    · refine ⟨i, inside, ?_⟩
      rw [← cleared.others i, hit]
      rintro gap distanceLt rfl
      rw [cleared.freed gap distanceLt] at hit
      exact keyTaken hit.symm
    · exact ⟨_, slot_lt pos, hit⟩

end

/-- A freed cluster, refilled with keys of its first slots in their first
slots. -/
structure Refilled (empty : α) (size : Nat) (cell cell' : Nat -> α)
    (start length current : Nat) : Prop where
  others : ∀ index, (∀ gap < length, index ≠ slot size start gap) -> cell' index = cell index
  free : ∀ gap, current <= gap -> gap < length -> cell' (slot size start gap) = empty
  refilled : ∀ gap < current, cell' (slot size start gap) = empty ∨
      ∃ earlier < current, cell' (slot size start gap) = cell (slot size start earlier)

namespace Refilled

theorem of_cleared (cleared : Cleared empty size cell cell' start length) :
    Refilled empty size cell cell' start length 0 where
  others := cleared.others
  free gap _ inside := cleared.freed gap inside
  refilled _ none := absurd none (Nat.not_lt_zero _)

theorem skip (refilled : Refilled empty size cell cell' start length current)
    (lt : current < length) :
    Refilled empty size cell cell' start length (current + 1) where
  others := refilled.others
  free gap low high := refilled.free gap (by omega) high
  refilled gap before := by
    rcases Nat.lt_succ_iff_lt_or_eq.mp before with less | rfl
    · exact (refilled.refilled gap less).imp_right
        fun ⟨earlier, earlierLt, same⟩ => ⟨earlier, by omega, same⟩
    · exact .inl (refilled.free gap (Nat.le_refl _) lt)

/-- The next key of the cluster finds its place in the cluster, not behind
the slot it had. -/
theorem stops (refilled : Refilled empty size cell cell' start len current)
    (probed : Probed empty home size cell) (cluster : Cluster empty size cell start len)
    (lt : current < len) :
    ∃ gap target, target <= current ∧
      slot size (home (cell (slot size start current))) gap = slot size start target ∧
      cell' (slot size start target) = empty ∧
      Stops empty home size cell' (cell (slot size start current)) gap := by
  have shorter := cluster.shorter
  have pos : 0 < size := by omega
  have taken := cluster.taken current lt
  generalize keyIs : cell (slot size start current) = key at taken ⊢
  obtain ⟨last, lastLt, atLast⟩ :
      ∃ last < size, slot size (home key) last = slot size start current :=
    exists_slot (home key) (slot_lt pos)
  have path : ∀ before ≤ last, cell (slot size (home key) before) ≠ empty :=
    probed.path_le taken lastLt (by rw [atLast, keyIs])
  have freeHere : cell' (slot size start current) = empty :=
    refilled.free current (Nat.le_refl _) lt
  obtain ⟨gap, stops⟩ : ∃ gap, Stops empty home size cell' key gap :=
    exists_stops ⟨_, slot_lt pos, freeHere⟩
  have near : gap <= last := by
    by_contra far
    apply (stops.passes last (by omega)).2
    rw [atLast, freeHere]
  by_cases outside : ∀ target < len, slot size (home key) gap ≠ slot size start target
  · -- Outside the cluster nothing changed, and the key is not stored there.
    exfalso
    have same := refilled.others _ outside
    rcases stops.stops with hit | free
    · apply outside current lt
      apply probed.unique (slot_lt pos) (slot_lt pos)
      · rw [← same, hit, keyIs]
      · exact path gap near
    · exact path gap near (same.symm.trans free)
  · push Not at outside
    obtain ⟨target, targetLt, meets⟩ := outside
    obtain ⟨far, reached⟩ := cluster.meets path meets targetLt near
    have currentIs : current = target + (last - gap) :=
      slot_inj (by omega) (by omega) (atLast.symm.trans reached)
    refine ⟨gap, target, by omega, meets, ?_, stops⟩
    rw [← meets]
    rcases stops.stops with hit | free
    · exfalso
      rw [meets] at hit
      rcases Nat.lt_or_ge target current with before | behind
      · rcases refilled.refilled target before with free | ⟨other, less, same⟩
        · exact taken (hit.symm.trans free)
        · have again : slot size start other = slot size start current := by
            apply probed.unique (slot_lt pos) (slot_lt pos)
            · rw [← same, hit, keyIs]
            · rw [← same, hit]
              exact taken
          have := slot_inj (by omega) (by omega) again
          omega
      · exact taken (hit.symm.trans (refilled.free target behind targetLt))
    · exact free

/-- The next key is stored in the cluster, not behind the slot it had. -/
theorem store (refilled : Refilled empty size cell cell' start length cur)
    (lt : cur < length) (shorter : length < size) (earlier : target <= cur)
    (stored : cell'' (slot size start target) = cell (slot size start cur))
    (unchanged : ∀ i, i ≠ slot size start target -> cell'' i = cell' i) :
    Refilled empty size cell cell'' start length (cur + 1) where
  others i outside := by
    rw [unchanged i (outside target (by omega))]
    exact refilled.others i outside
  free gap low high := by
    rw [unchanged]
    · exact refilled.free gap (by omega) high
    · intro same
      have := slot_inj (by omega) (by omega) same
      omega
  refilled gap before := by
    by_cases here : gap = target
    · subst here
      exact .inr ⟨cur, Nat.lt_succ_self _, stored⟩
    · have other : slot size start gap ≠ slot size start target := by
        intro same
        exact here (slot_inj (by omega) (by omega) same)
      rw [unchanged _ other]
      exact (refilled.skip lt).refilled gap before

end Refilled

end Chromium.Library.Probing
