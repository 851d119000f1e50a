import Mathlib.Order.Lattice
import Mathlib.Tactic.Tauto

/-!
# Indices of pointers by their keys

An index is a list of pointers in the strict order of the keys that they have
at present. A pointer is inserted, erased and found by its key.
-/

namespace Chromium.Library.KeyedIndex

open List Option

variable {π κ : Type} [LinearOrder κ]

/-- Insert a pointer, unless one with an equivalent key is there. -/
def insert (key : π -> κ) (ptr : π) : List π -> Option (List π)
  | [] => some [ptr]
  | first :: index =>
    if key ptr < key first then some (ptr :: first :: index)
    else if key first < key ptr then (insert key ptr index).map (first :: ·)
    else none

/-- Erase the pointer with a key equivalent to that of a pointer. -/
def erase (key : π -> κ) (ptr : π) : List π -> Option (List π)
  | [] => none
  | first :: index =>
    if key first < key ptr then (erase key ptr index).map (first :: ·)
    else if key ptr < key first then none
    else some index

/-- The pointer with a key. -/
def find (key : π -> κ) (value : κ) : List π -> Option π
  | [] => none
  | first :: index =>
    if key first < value then find key value index
    else if value < key first then none
    else some first

/-- An index has the pointers of a set, in the strict order of their keys. -/
structure Mirrors (key : π -> κ) (included : π -> Prop) (index : List π) : Prop where
  ordered : index.Pairwise fun left right => key left < key right
  mem_iff : ∀ ptr, ptr ∈ index ↔ included ptr

variable {key other : π -> κ}

/-- Nothing but the keys of the pointers in an index is seen in it. -/
theorem Mirrors.congr (mirrors : Mirrors key included index)
    (same : ∀ ptr, included ptr -> other ptr = key ptr)
    (alike : ∀ ptr, included ptr ↔ others ptr) :
    Mirrors other others index where
  ordered := by
    refine mirrors.ordered.imp_of_mem ?_
    intro left right isLeft isRight before
    rw [same left ((mirrors.mem_iff left).mp isLeft),
      same right ((mirrors.mem_iff right).mp isRight)]
    exact before
  mem_iff ptr := (mirrors.mem_iff ptr).trans (alike ptr)

theorem mem_of_insert (inserted : insert key ptr index = some result) :
    member ∈ result ↔ member = ptr ∨ member ∈ index := by
  induction index generalizing result with
  | nil =>
    cases inserted
    simp
  | cons first index ih =>
    rw [insert] at inserted
    split at inserted
    · cases inserted
      simp
    · split at inserted
      · obtain ⟨rest, insertedRest, rfl⟩ := map_eq_some_iff.mp inserted
        rw [mem_cons, mem_cons, ih insertedRest]
        tauto
      · cases inserted

theorem ordered_of_insert (ordered : index.Pairwise fun left right => key left < key right)
    (inserted : insert key ptr index = some result) :
    result.Pairwise fun left right => key left < key right := by
  induction index generalizing result with
  | nil =>
    cases inserted
    exact pairwise_singleton _ _
  | cons first index ih =>
    rw [pairwise_cons] at ordered
    rw [insert] at inserted
    split at inserted
    next before =>
      cases inserted
      refine pairwise_cons.mpr ⟨?_, pairwise_cons.mpr ordered⟩
      intro mem isMem
      rcases mem_cons.mp isMem with rfl | inside
      · exact before
      · exact before.trans (ordered.1 mem inside)
    · split at inserted
      next after =>
        obtain ⟨rest, insertedRest, rfl⟩ := map_eq_some_iff.mp inserted
        refine pairwise_cons.mpr ⟨?_, ih ordered.2 insertedRest⟩
        intro mem isMem
        rcases (mem_of_insert insertedRest).mp isMem with
          rfl | inside
        · exact after
        · exact ordered.1 mem inside
      · cases inserted

/-- A pointer is inserted in its place. -/
theorem Mirrors.insert (mirrors : Mirrors key included index)
    (inserted : insert key ptr index = some result) :
    Mirrors key (fun mem => mem = ptr ∨ included mem) result where
  ordered := ordered_of_insert mirrors.ordered inserted
  mem_iff mem := (mem_of_insert inserted).trans (or_congr_right (mirrors.mem_iff mem))

/-- A pointer of an index is found by its key. -/
theorem find_of_mem (ordered : index.Pairwise fun left right => key left < key right)
    (mem : ptr ∈ index) :
    find key (key ptr) index = some ptr := by
  induction index with
  | nil => cases mem
  | cons first index ih =>
    rw [pairwise_cons] at ordered
    rw [find]
    rcases mem_cons.mp mem with rfl | inside
    · rw [if_neg (lt_irrefl _), if_neg (lt_irrefl _)]
    · rw [if_pos (ordered.1 ptr inside)]
      exact ih ordered.2 inside

/-- The pointers of an index have keys of their own. -/
theorem Mirrors.eq_of_key (mirrors : Mirrors key included index)
    (isLeft : included left) (isRight : included right) (same : key left = key right) :
    left = right := by
  have foundLeft := find_of_mem mirrors.ordered ((mirrors.mem_iff left).mpr isLeft)
  have foundRight := find_of_mem mirrors.ordered ((mirrors.mem_iff right).mpr isRight)
  rw [same, foundRight] at foundLeft
  exact (some.inj foundLeft).symm

/-- An inserted pointer has a key of its own. -/
theorem ne_of_insert (ordered : i.Pairwise fun left right => key left < key right)
    (inserted : KeyedIndex.insert key ptr i = some result) :
    ∀ mem ∈ i, key mem ≠ key ptr := by
  induction i generalizing result with
  | nil => simp
  | cons first i ih =>
    rw [pairwise_cons] at ordered
    rw [KeyedIndex.insert] at inserted
    rw [forall_mem_cons]
    split at inserted
    next before =>
      refine ⟨before.ne', ?_⟩
      intro mem isMem
      exact (before.trans (ordered.1 mem isMem)).ne'
    · split at inserted
      next after =>
        obtain ⟨rest, insertedRest, -⟩ := map_eq_some_iff.mp inserted
        exact ⟨after.ne, ih ordered.2 insertedRest⟩
      · cases inserted

/-- A pointer with a key of its own is inserted. -/
theorem exists_insert (unused : ∀ mem ∈ i, key mem ≠ key ptr) :
    ∃ result, KeyedIndex.insert key ptr i = some result := by
  induction i with
  | nil => exact ⟨[ptr], rfl⟩
  | cons first i ih =>
    rw [forall_mem_cons] at unused
    obtain ⟨result, inserted⟩ := ih unused.2
    rw [KeyedIndex.insert, inserted]
    rcases lt_or_gt_of_ne unused.1 with before | after
    · rw [if_neg (lt_asymm before), if_pos before]
      exact ⟨first :: result, rfl⟩
    · rw [if_pos after]
      exact ⟨_, rfl⟩

/-- An index is built from pointers, of which some are included. -/
def collect (key : π -> κ) (isIncluded : π -> Bool) (index : List π) (ptr : π) : List π :=
  if isIncluded ptr then (KeyedIndex.insert key ptr index).getD index
  else index

theorem mirrors_foldl_collect {pointers seen : List π}
    (mirrors : Mirrors key (fun mem => mem ∈ seen ∧ isIncluded mem) i)
    (nodup : (seen ++ pointers).Nodup)
    (distinct : ∀ left ∈ seen ++ pointers, ∀ right ∈ seen ++ pointers,
      isIncluded left -> isIncluded right -> key left = key right -> left = right) :
    Mirrors key (fun mem => mem ∈ seen ++ pointers ∧ isIncluded mem)
      (pointers.foldl (collect key isIncluded) i) := by
  induction pointers generalizing seen i with
  | nil =>
    rw [append_nil]
    exact mirrors
  | cons ptr pointers ih =>
    have split : seen ++ ptr :: pointers = (seen ++ [ptr]) ++ pointers := by
      rw [append_assoc, singleton_append]
    have isMem : ptr ∈ seen ++ ptr :: pointers := by simp
    have isNew : ptr ∉ seen := by
      intro isSeen
      exact (nodup_append.mp nodup).2.2 ptr isSeen ptr mem_cons_self rfl
    rw [foldl_cons, split]
    refine ih ?_ (split ▸ nodup) (split ▸ distinct)
    unfold collect
    split
    next isPointer =>
      have unused : ∀ mem ∈ i, key mem ≠ key ptr := by
        intro mem inIndex same
        obtain ⟨isSeen, isMemberIncluded⟩ := (mirrors.mem_iff mem).mp inIndex
        have equal := distinct mem (mem_append_left _ isSeen) ptr
          isMem isMemberIncluded isPointer same
        exact isNew (equal ▸ isSeen)
      obtain ⟨result, inserted⟩ := exists_insert unused
      rw [inserted]
      refine (mirrors.insert inserted).congr (fun _ _ => rfl) ?_
      intro mem
      rw [mem_append, mem_singleton]
      constructor
      · rintro (rfl | ⟨isSeen, isMemberIncluded⟩)
        · exact ⟨.inr rfl, isPointer⟩
        · exact ⟨.inl isSeen, isMemberIncluded⟩
      · rintro ⟨isSeen | rfl, isMemberIncluded⟩
        · exact .inr ⟨isSeen, isMemberIncluded⟩
        · exact .inl rfl
    next notPointer =>
      refine mirrors.congr (fun _ _ => rfl) ?_
      intro mem
      rw [mem_append, mem_singleton]
      constructor
      · rintro ⟨isSeen, isMemberIncluded⟩
        exact ⟨.inl isSeen, isMemberIncluded⟩
      · rintro ⟨isSeen | rfl, isMemberIncluded⟩
        · exact ⟨isSeen, isMemberIncluded⟩
        · exact absurd isMemberIncluded notPointer

/-- Pointers that are collected one after the other make an index. -/
theorem mirrors_collect (key : π -> κ) (isIncluded : π -> Bool) {pointers : List π}
    (nodup : pointers.Nodup) (distinct : ∀ left ∈ pointers, ∀ right ∈ pointers,
      isIncluded left -> isIncluded right -> key left = key right -> left = right) :
    Mirrors key (fun mem => mem ∈ pointers ∧ isIncluded mem)
      (pointers.foldl (collect key isIncluded) []) := by
  have empty : Mirrors key (fun mem => mem ∈ [] ∧ isIncluded mem) [] := ⟨.nil, by simp⟩
  exact mirrors_foldl_collect empty nodup distinct

/-- A pointer of an index is erased from its place. -/
theorem erase_of_mem (ordered : i.Pairwise fun left right => key left < key right)
    (mem : ptr ∈ i) :
    ∃ front back, i = front ++ ptr :: back ∧ erase key ptr i = some (front ++ back) := by
  induction i with
  | nil => cases mem
  | cons first i ih =>
    rw [pairwise_cons] at ordered
    rw [erase]
    rcases mem_cons.mp mem with rfl | inside
    · rw [if_neg (lt_irrefl _), if_neg (lt_irrefl _)]
      exact ⟨[], i, rfl, rfl⟩
    · obtain ⟨front, back, isIndex, isErased⟩ := ih ordered.2 inside
      rw [if_pos (ordered.1 ptr inside), isErased]
      exact ⟨first :: front, back, by rw [isIndex]; rfl, rfl⟩

theorem Mirrors.erase (mirrors : Mirrors key included index) (isIncluded : included ptr) :
    ∃ result, erase key ptr index = some result ∧
      Mirrors key (fun mem => included mem ∧ mem ≠ ptr) result := by
  obtain ⟨front, back, rfl, erased⟩ :=
    erase_of_mem mirrors.ordered ((mirrors.mem_iff ptr).mpr isIncluded)
  have ordered := mirrors.ordered
  rw [pairwise_append, pairwise_cons] at ordered
  obtain ⟨inFront, ⟨after, inBack⟩, before⟩ := ordered
  refine ⟨front ++ back, erased, ⟨?_, ?_⟩⟩
  · refine pairwise_append.mpr ⟨inFront, inBack, ?_⟩
    intro left isLeft right isRight
    exact before left isLeft right (mem_cons_of_mem _ isRight)
  · intro mem
    rw [← mirrors.mem_iff, mem_append, mem_append, mem_cons]
    have apartFront : mem ∈ front -> mem ≠ ptr := by
      rintro isMem rfl
      exact lt_irrefl _ (before mem isMem mem mem_cons_self)
    have apartBack : mem ∈ back -> mem ≠ ptr := by
      rintro isMem rfl
      exact lt_irrefl _ (after mem isMem)
    tauto

/-- A pointer with a key of no other is erased from nowhere. -/
theorem erase_of_unused (unused : ∀ mem ∈ i, key mem ≠ key ptr) :
    erase key ptr i = none := by
  induction i with
  | nil => rfl
  | cons first i ih =>
    rw [forall_mem_cons] at unused
    rw [erase, ih unused.2]
    rcases lt_or_gt_of_ne unused.1 with before | after
    · rw [if_pos before]
      rfl
    · rw [if_neg (lt_asymm after), if_pos after]

end Chromium.Library.KeyedIndex
