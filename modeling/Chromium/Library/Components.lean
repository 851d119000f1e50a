import Mathlib.Data.List.DropRight

/-!
# Trimmed lists

Lists without the items at their two ends that have a property.
-/

namespace Chromium.Library

open List

/-- A list without the items at its ends that have a property. -/
def trim (P : α -> Bool) (items : List α) : List α :=
  (items.dropWhile P).rdropWhile P

theorem dropWhile_congr {items : List α} (same : ∀ item ∈ items, p item = q item) :
    items.dropWhile p = items.dropWhile q := by
  induction items with
  | nil => rfl
  | cons item rest ih =>
    rw [dropWhile_cons, dropWhile_cons, same item mem_cons_self, ih (forall_mem_cons.mp same).2]

theorem rdropWhile_congr {items : List α} (same : ∀ item ∈ items, p item = q item) :
    items.rdropWhile p = items.rdropWhile q := by
  rw [rdropWhile, rdropWhile, dropWhile_congr fun item mem => same item (mem_reverse.mp mem)]

theorem trim_subset (P : α -> Bool) : trim P items ⊆ items :=
  fun _ mem => (dropWhile_suffix _).subset (( rdropWhile_prefix _ _).subset mem)

section Separated

variable {P : α -> Bool} (other : P item = false)

include other

theorem dropWhile_append_cons (front back : List α) : (front ++ item :: back).dropWhile P =
      front.dropWhile P ++ item :: back := by
  rw [dropWhile_append]
  split_ifs with empty
  · rw [List.isEmpty_iff.mp empty, nil_append, dropWhile_cons_of_neg (Bool.eq_false_iff.mp other)]
  · rfl

theorem rdropWhile_append_cons (front back : List α) : (front ++ item :: back).rdropWhile P =
      front ++ item :: back.rdropWhile P := by
  rw [rdropWhile, reverse_append, reverse_cons,
    append_assoc, singleton_append, dropWhile_append_cons other,
    reverse_append, reverse_cons, reverse_reverse,
    append_assoc, singleton_append, rdropWhile]

/-- An item without the property separates the ends of a list. -/
theorem trim_append_cons (front back : List α) : trim P (front ++ item :: back) =
      front.dropWhile P ++ item :: back.rdropWhile P := by
  rw [trim, dropWhile_append_cons other, rdropWhile_append_cons other]

end Separated

/-- The two ends may be trimmed in any order. -/
theorem dropWhile_rdropWhile (P : α -> Bool) (items : List α) :
    (items.rdropWhile P).dropWhile P = trim P items := by
  cases isRest : items.dropWhile P with
  | nil =>
    have all := dropWhile_eq_nil_iff.mp isRest
    rw [trim, isRest, rdropWhile_eq_nil_iff.mpr all]
    rfl
  | cons item rest =>
    have other : P item = false := by
      have head := head_dropWhile_not P
        (by rw [isRest]; exact cons_ne_nil _ _ : items.dropWhile P ≠ [])
      simpa only [isRest, head_cons] using head
    have split : items.takeWhile P ++ item :: rest = items := by
      rw [← isRest]
      exact takeWhile_append_dropWhile
    rw [← split, trim_append_cons other, rdropWhile_append_cons other, dropWhile_append_cons other]

/-!
## Components of a text

A text is split at a separator, and each part is trimmed. The parts, joined
with the separator, have the same components.
-/

/-- The trimmed parts of a text. -/
def components [BEq α] (P : α -> Bool) (separator : α) (text : List α) : List (List α) :=
  (text.splitOn separator).map (trim P)

theorem trim_trim (P : α -> Bool) : trim P (trim P items) = trim P items := by
  have front : (trim P items).dropWhile P = trim P items := by
    rw [← dropWhile_rdropWhile]
    exact dropWhile_idempotent _ _
  rw [trim, front, trim]
  exact rdropWhile_idempotent _ _

theorem components_ne_nil [BEq α] {P : α -> Bool} : components P separator text ≠ [] := by
  rw [components, Ne, map_eq_nil_iff]
  exact splitOn_ne_nil _ _

theorem trim_of_mem_components [BEq α] {P : α -> Bool}
    (isPart : part ∈ components P separator text) :
    trim P part = part := by
  obtain ⟨whole, _, rfl⟩ := List.mem_map.mp isPart
  exact trim_trim _

section Components

variable [BEq α] [LawfulBEq α] {separator : α} {text : List α}

omit [BEq α] [LawfulBEq α] in
/-- A part of a text has items of the text, and no separator. -/
theorem mem_of_mem_splitOnP (isPart : part ∈ text.splitOnP P) (mem : item ∈ part) :
    item ∈ text ∧ P item = false := by
  induction text generalizing part with
  | nil =>
    rw [splitOnP_nil, mem_singleton] at isPart
    rw [isPart] at mem
    exact absurd mem not_mem_nil
  | cons first rest ih =>
    rw [splitOnP_cons_eq_if_modifyHead] at isPart
    split_ifs at isPart with same
    · rcases mem_cons.mp isPart with rfl | isPart
      · exact absurd mem not_mem_nil
      · have inRest := ih isPart mem
        exact ⟨mem_cons_of_mem _ inRest.1, inRest.2⟩
    · cases parts : rest.splitOnP P with
      | nil => exact absurd parts (splitOnP_ne_nil _ _)
      | cons head tail =>
        rw [parts, modifyHead_cons] at isPart
        rcases mem_cons.mp isPart with rfl | isPart
        · rcases mem_cons.mp mem with rfl | mem
          · exact ⟨mem_cons_self, by simpa using same⟩
          · have inRest := ih (by rw [parts]; exact mem_cons_self) mem
            exact ⟨mem_cons_of_mem _ inRest.1, inRest.2⟩
        · have inRest := ih (by rw [parts]; exact mem_cons_of_mem _ isPart) mem
          exact ⟨mem_cons_of_mem _ inRest.1, inRest.2⟩

theorem mem_of_mem_splitOn (isPart : part ∈ text.splitOn separator) (mem : item ∈ part) :
    item ∈ text ∧ item ≠ separator := by
  rw [splitOn_eq_splitOnP] at isPart
  obtain ⟨inText, other⟩ := mem_of_mem_splitOnP isPart mem
  exact ⟨inText, by simpa using other⟩

theorem mem_of_mem_components (isPart : part ∈ components P separator text) (mem : item ∈ part) :
    item ∈ text ∧ item ≠ separator := by
  obtain ⟨whole, isWhole, rfl⟩ := List.mem_map.mp isPart
  exact mem_of_mem_splitOn isWhole (trim_subset _ mem)

/-- Trimmed parts without the separator are the components of what they are
joined to. -/
theorem components_intercalate (some_ : parts ≠ []) (separated : ∀ part ∈ parts, separator ∉ part)
    (trimmed : ∀ part ∈ parts, trim P part = part) :
    components P separator ([separator].intercalate parts) = parts := by
  rw [components, splitOn_intercalate separator separated some_]
  exact (map_congr_left trimmed).trans (List.map_id _)

end Components

theorem mem_intercalate (mem : item ∈ [separator].intercalate parts) :
    item = separator ∨ ∃ part ∈ parts, item ∈ part := by
  induction parts with
  | nil => exact absurd mem not_mem_nil
  | cons part rest ih =>
    cases rest with
    | nil =>
      rw [intercalate_singleton] at mem
      exact .inr ⟨part, mem_cons_self, mem⟩
    | cons next rest =>
      rw [intercalate_cons_cons, mem_append, mem_append, mem_singleton] at mem
      rcases mem with (inPart | isSeparator) | inRest
      · exact .inr ⟨part, mem_cons_self, inPart⟩
      · exact .inl isSeparator
      · rcases ih inRest with
          isSeparator | ⟨other, isPart, inOther⟩
        · exact .inl isSeparator
        · exact .inr ⟨other, mem_cons_of_mem _ isPart, inOther⟩

end Chromium.Library
