import Mathlib.Data.List.Basic

/-!
# Association lists with distinct keys

A list of pairs with distinct keys splits around the pair that a lookup finds.
Writing a value under a key and erasing a key act on that pair only.
-/

namespace Chromium.Library.Assoc

open List

variable {κ : Type} [DecidableEq κ]

/-- The keys of an association list are distinct. -/
def Distinct (entries : List (κ × α)) : Prop := (entries.map Prod.fst).Nodup

/-- Write a value under a key that is present. -/
def write (entries : List (κ × α)) (key : κ) (value : α) : List (κ × α) :=
  entries.map fun entry => if entry.1 = key then (key, value) else entry

/-- Erase a key. -/
def erase (entries : List (κ × α)) (key : κ) : List (κ × α) :=
  entries.filter fun entry => entry.1 ≠ key

variable {entries : List (κ × α)}

/-- A list with distinct keys splits around the pair that a lookup finds. -/
theorem Distinct.exists_split (nodup : Distinct entries)
    (hit : entries.lookup key = some val) :
    ∃ front back, entries = front ++ (key, val) :: back ∧
      ∀ entry ∈ front ++ back, entry.1 ≠ key := by
  obtain ⟨front, back, rfl, before⟩ := lookup_eq_some_iff.mp hit
  refine ⟨front, back, rfl, ?_⟩
  intro entry mem
  rcases mem_append.mp mem with inFront | inBack
  · have ne := before entry inFront
    rw [bne_iff_ne] at ne
    exact ne.symm
  · rw [Distinct, map_append, map_cons, nodup_append, nodup_cons] at nodup
    intro same
    exact nodup.2.1.1 (List.mem_map.mpr ⟨entry, inBack, same⟩)

/-- A pair of a list with distinct keys is the one that a lookup finds. -/
theorem Distinct.lookup_of_mem (nodup : Distinct entries) (mem : (key, val) ∈ entries) :
    entries.lookup key = some val := by
  rw [lookup_eq_some_iff]
  obtain ⟨front, back, rfl⟩ := append_of_mem mem
  refine ⟨front, back, rfl, ?_⟩
  intro entry inFront
  rw [Distinct, map_append, nodup_append] at nodup
  rw [bne_iff_ne]
  intro same
  exact nodup.2.2 entry.1 (List.mem_map.mpr ⟨entry, inFront, rfl⟩) key (by simp) same.symm

theorem write_of_absent (absent : ∀ entry ∈ entries, entry.1 ≠ key) :
    write entries key value = entries := by
  unfold write
  rw [map_congr_left (g := id), List.map_id]
  intro entry mem
  simp [absent entry mem]

theorem erase_of_absent (absent : ∀ entry ∈ entries, entry.1 ≠ key) :
    erase entries key = entries := by
  unfold erase
  rw [filter_eq_self]
  intro entry mem
  simpa using absent entry mem

/-- Writing changes the pair in the middle. -/
theorem write_append_cons {front back : List (κ × α)}
    (absent : ∀ entry ∈ front ++ back, entry.1 ≠ key) :
    write (front ++ (key, val) :: back) key other = front ++ (key, other) :: back := by
  have inFront : write front key other = front :=
    write_of_absent fun entry mem => absent entry (mem_append_left _ mem)
  have inBack : write back key other = back :=
    write_of_absent fun entry mem => absent entry (mem_append_right _ mem)
  unfold write at *
  rw [map_append, map_cons, inFront, inBack, if_pos rfl]

/-- Erasing removes the pair in the middle. -/
theorem erase_append_cons {front back : List (κ × α)}
    (absent : ∀ entry ∈ front ++ back, entry.1 ≠ key) :
    erase (front ++ (key, val) :: back) key = front ++ back := by
  have rest := erase_of_absent absent
  unfold erase at *
  rw [filter_append, filter_cons_of_neg (by simp), ← rest, filter_append]

theorem map_fst_write : (write entries key value).map Prod.fst = entries.map Prod.fst := by
  unfold write
  rw [List.map_map]
  apply map_congr_left
  intro entry mem
  simp only [Function.comp_apply]
  split
  · rename_i same
    exact same.symm
  · rfl

theorem Distinct.write (nodup : Distinct entries) (key : κ) (val : α) :
    Distinct (Assoc.write entries key val) := by
  rw [Distinct, map_fst_write]
  exact nodup

theorem Distinct.erase (nodup : Distinct entries) (key : κ) :
    Distinct (Assoc.erase entries key) :=
  nodup.sublist (filter_sublist.map _)

/-- A fresh key keeps the keys distinct. -/
theorem Distinct.cons (nodup : Distinct entries) (fresh : entries.lookup key = none)
    (val : α) :
    Distinct ((key, val) :: entries) := by
  rw [lookup_eq_none_iff] at fresh
  refine nodup_cons.mpr ⟨?_, nodup⟩
  intro mem
  obtain ⟨entry, present, same⟩ := List.mem_map.mp mem
  have ne := fresh entry present
  rw [bne_iff_ne] at ne
  exact ne same.symm

/-- Writing is not seen under the other keys. -/
theorem lookup_write_of_ne (ne : other ≠ key) :
    (write entries key value).lookup other = entries.lookup other := by
  induction entries with
  | nil => rfl
  | cons entry rest ih =>
    obtain ⟨candidate, stored⟩ := entry
    unfold write at ih ⊢
    rw [map_cons]
    by_cases same : candidate = key
    · have absent : (other == key) = false := beq_eq_false_iff_ne.mpr ne
      simp [same, lookup_cons, absent, ih]
    · simp [same, lookup_cons, ih]

/-- Writing a key that is present is seen under that key. -/
theorem lookup_write_self (hit : entries.lookup key = some value) :
    (write entries key written).lookup key = some written := by
  induction entries with
  | nil => simp at hit
  | cons entry rest ih =>
    obtain ⟨candidate, stored⟩ := entry
    unfold write at ih ⊢
    rw [map_cons]
    by_cases same : candidate = key
    · simp [same]
    · have absent : (key == candidate) = false := beq_eq_false_iff_ne.mpr (Ne.symm same)
      simp only [lookup_cons, absent] at hit
      simp only [same, if_false, lookup_cons, absent]
      exact ih hit

/-- Erasing is not seen under the other keys. -/
theorem lookup_erase_of_ne (ne : other ≠ key) :
    (erase entries key).lookup other = entries.lookup other := by
  induction entries with
  | nil => rfl
  | cons entry rest ih =>
    obtain ⟨candidate, stored⟩ := entry
    unfold erase at ih ⊢
    by_cases same : candidate = key
    · have absent : (other == key) = false := beq_eq_false_iff_ne.mpr ne
      rw [filter_cons_of_neg (by simp [same]), same]
      simp only [lookup_cons, absent, ih]
    · rw [filter_cons_of_pos (by simp [same])]
      simp only [lookup_cons, ih]

end Chromium.Library.Assoc
