import Mathlib.Data.List.Sort

/-!
# Matches of history queries

The positions of matches are sorted by their starts, and those that intersect
are coalesced. The end of a coalesced position is that of the last one merged
into it, which may be an earlier one than that of a position before.
-/

namespace Chromium.History

open List

/-- A `MatchPosition`, from an offset up to another. -/
abbrev MatchPosition := Nat × Nat

def snippetIntersects (mp1 mp2 : MatchPosition) : Prop := mp2.1 >= mp1.1 ∧ mp2.1 <= mp1.2

instance (mp1 mp2 : MatchPosition) : Decidable (snippetIntersects mp1 mp2) :=
  inferInstanceAs (Decidable (_ ∧ _))

/-- `CoalesceMatchesFrom` a position on, and then from the one that it stops at. -/
def coalesceMatchesFrom : MatchPosition -> List MatchPosition -> List MatchPosition
  | mp, [] => [mp]
  | mp, i :: matches_ =>
    if snippetIntersects mp i then coalesceMatchesFrom (mp.1, i.2) matches_
    else mp :: coalesceMatchesFrom i matches_

def coalesceMatches : List MatchPosition -> List MatchPosition
  | [] => []
  | mp :: matches_ => coalesceMatchesFrom mp matches_

/-- A sort by starts, with positions of the same start in any order. -/
def Sorts (sort : List MatchPosition -> List MatchPosition) : Prop :=
  ∀ matches_, (sort matches_).Perm matches_ ∧ (sort matches_).Pairwise (·.1 <= ·.1)

abbrev String16 := List UInt16

structure QueryWord where
  word : String16
  position : Nat

/-- The words of a phrase are one at least: `RemoveEmptySubnodes` leaves none
that are empty. -/
inductive QueryNode where
  | word (word_ : String16)
  | phrase (first : String16) (children_ : List String16)

/-- Words are not empty. -/
def isWordLongEnoughForPrefixSearch (word : String16) : Bool :=
  let minimum_length := if 0xAC00 <= word.headD 0 ∧ word.headD 0 <= 0xD7A3 then 2 else 3
  word.length >= minimum_length

/-- `Matches`, if not `exact`. -/
def startsWith (word_ word : String16) : Bool :=
  if isWordLongEnoughForPrefixSearch word_ then word_.isPrefixOf word else word == word_

/-- The first of `words` where the children of a phrase match. -/
def phraseMatch (children_ : List String16) : List QueryWord -> Option MatchPosition
  | [] => none
  | first :: words =>
    let matched := (first :: words).take children_.length
    if matched.map QueryWord.word = children_ then
      let last_word := matched.getLastD first
      some (first.position, last_word.position + last_word.word.length)
    else phraseMatch children_ words

def QueryNode.hasMatchIn (words : List QueryWord) : QueryNode -> Option MatchPosition
  | .word word_ => (words.find? fun i => startsWith word_ i.word).map fun i =>
      (i.position, i.position + word_.length)
  | .phrase first children_ => phraseMatch (first :: children_) words

section

/-! What the lower case of a text is and how it breaks into words is a library's. -/

variable (toLower : String16 -> String16) (extractQueryWords : String16 -> List QueryWord)
  (sort : List MatchPosition -> List MatchPosition)

def coalseAndSortMatchPositions (matches_ : List MatchPosition) : List MatchPosition :=
  coalesceMatches (sort matches_)

/-- The positions, if each of the nodes matches. -/
def doesQueryMatch (text : String16) (query_nodes : List QueryNode) :
    Option (List MatchPosition) := do
  guard (query_nodes ≠ [])
  let lower_text := toLower text
  let query_words := extractQueryWords lower_text
  guard (query_words ≠ [])
  let matches_ <- query_nodes.mapM (QueryNode.hasMatchIn query_words)
  if lower_text.length ≠ text.length then return []
  return coalseAndSortMatchPositions sort matches_

end

def Covers (positions : List MatchPosition) (offset : Nat) : Prop :=
  ∃ mp ∈ positions, mp.1 <= offset ∧ offset < mp.2

/-- Between the positions is a character at least. -/
structure Apart (positions : List MatchPosition) : Prop where
  sorted : positions.Pairwise (·.1 <= ·.1)
  separated : positions.Pairwise (·.2 < ·.1)

def Within (positions : List MatchPosition) (mp : MatchPosition) : Prop :=
  ∃ whole ∈ positions, whole.1 <= mp.1 ∧ mp.2 <= whole.2

/-- A position that the next one starts behind, or that is the last, ends latest
of those so far. The latest end so far is given, and that of the position before. -/
def EndsLatest : Nat -> Nat -> List MatchPosition -> Prop
  | latest, last, [] => latest <= last
  | latest, last, i :: matches_ =>
    (last < i.1 -> latest <= last) ∧ EndsLatest (max latest i.2) i.2 matches_

section

variable {mp : MatchPosition} {matches_ : List MatchPosition} {latest offset : Nat}

theorem intersects_or (starts : mp.1 <= i.1) :
    snippetIntersects mp i ∧ i.1 <= mp.2 ∨ ¬ snippetIntersects mp i ∧ mp.2 < i.1 := by
  by_cases inside : i.1 <= mp.2
  · exact .inl ⟨⟨starts, inside⟩, inside⟩
  · exact .inr ⟨fun intersects => inside intersects.2, by omega⟩

theorem covers_cons : Covers (mp :: matches_) offset ↔
    (mp.1 <= offset ∧ offset < mp.2) ∨ Covers matches_ offset :=
  exists_mem_cons_iff ..

/-- Sorted positions remain so if the first ends elsewhere and the next is gone. -/
theorem sorted_merged (sorted : (mp :: i :: matches_).Pairwise (·.1 <= ·.1)) :
    ((mp.1, i.2) :: matches_).Pairwise (·.1 <= ·.1) :=
  pairwise_cons.mpr ⟨fun j mem => (pairwise_cons.mp sorted).1 j (mem_cons_of_mem _ mem),
    sorted.tail.tail⟩

/-- What is coalesced starts where the positions do, apart from each other. -/
theorem apart_coalesceMatchesFrom (ordered : ∀ i ∈ mp :: matches_, i.1 <= i.2)
    (sorted : (mp :: matches_).Pairwise (·.1 <= ·.1)) :
    (∀ i ∈ coalesceMatchesFrom mp matches_, mp.1 <= i.1) ∧
      Apart (coalesceMatchesFrom mp matches_) := by
  induction matches_ generalizing mp with
  | nil =>
    exact ⟨by simp [coalesceMatchesFrom], pairwise_singleton .., pairwise_singleton ..⟩
  | cons i matches_ ih =>
    have start := (pairwise_cons.mp sorted).1 i mem_cons_self
    obtain ⟨isOrdered, restOrdered⟩ := forall_mem_cons.mp ordered
    obtain ⟨iOrdered, others⟩ := forall_mem_cons.mp restOrdered
    rw [coalesceMatchesFrom]
    obtain ⟨intersects, inside⟩ | ⟨apart, behind⟩ := intersects_or start
    · rw [if_pos intersects]
      exact ih (forall_mem_cons.mpr ⟨start.trans iOrdered, others⟩) (sorted_merged sorted)
    · obtain ⟨later, rest⟩ := ih restOrdered sorted.tail
      rw [if_neg apart]
      have isLater : ∀ j ∈ coalesceMatchesFrom i matches_, mp.1 <= j.1 :=
        fun j mem => start.trans (later j mem)
      refine ⟨forall_mem_cons.mpr ⟨le_refl _, isLater⟩, pairwise_cons.mpr ⟨isLater, rest.sorted⟩,
        pairwise_cons.mpr ⟨?_, rest.separated⟩⟩
      exact fun j mem => behind.trans_le (later j mem)

theorem covers_of_coalesceMatchesFrom (sorted : (mp :: matches_).Pairwise (·.1 <= ·.1))
    (covers : Covers (coalesceMatchesFrom mp matches_) offset) : Covers
    (mp :: matches_) offset := by
  induction matches_ generalizing mp with
  | nil => exact covers
  | cons i matches_ ih =>
    rw [coalesceMatchesFrom] at covers
    rw [covers_cons]
    obtain ⟨intersects, inside⟩ | ⟨apart, behind⟩ :=
      intersects_or ((pairwise_cons.mp sorted).1 i mem_cons_self)
    · rw [if_pos intersects] at covers
      rw [covers_cons]
      -- the first one reaches up to the next, which has the end
      obtain merged | later := covers_cons.mp (ih (sorted_merged sorted) covers)
      · dsimp only at merged
        omega
      · exact .inr (.inr later)
    · rw [if_neg apart, covers_cons] at covers
      exact covers.imp_right (ih sorted.tail)

theorem within_of_endsLatest (sorted : (mp :: matches_).Pairwise (·.1 <= ·.1))
    (endsLatest : EndsLatest latest mp.2 matches_) :
    Within (coalesceMatchesFrom mp matches_) (mp.1, latest) ∧
      ∀ i ∈ matches_, Within (coalesceMatchesFrom mp matches_) i := by
  induction matches_ generalizing mp latest with
  | nil => exact ⟨⟨mp, mem_cons_self, le_refl _, endsLatest⟩, forall_mem_nil _⟩
  | cons i matches_ ih =>
    obtain ⟨closes, later⟩ := endsLatest
    have start := (pairwise_cons.mp sorted).1 i mem_cons_self
    rw [coalesceMatchesFrom]
    obtain ⟨intersects, inside⟩ | ⟨apart, behind⟩ := intersects_or start
    · obtain ⟨⟨whole, isWhole, first, last⟩, others⟩ :=
        @ih (mp.1, i.2) (max latest i.2) (sorted_merged sorted) later
      rw [if_pos intersects]
      refine ⟨⟨whole, isWhole, first, (le_max_left ..).trans last⟩,
        forall_mem_cons.mpr ⟨?_, others⟩⟩
      exact ⟨whole, isWhole, first.trans start, (le_max_right ..).trans last⟩
    · obtain ⟨⟨whole, isWhole, first, last⟩, others⟩ := ih sorted.tail later
      rw [if_neg apart]
      refine ⟨⟨mp, mem_cons_self, le_refl _, closes behind⟩, forall_mem_cons.mpr ⟨?_, ?_⟩⟩
      · exact ⟨whole, mem_cons_of_mem _ isWhole, first, (le_max_right ..).trans last⟩
      · intro j mem
        obtain ⟨whole, isWhole, inside⟩ := others j mem
        exact ⟨whole, mem_cons_of_mem _ isWhole, inside⟩

end

section

variable {sort : List MatchPosition -> List MatchPosition} {matches_ : List MatchPosition}

theorem apart_coalseAndSort (sorts : Sorts sort) (ordered : ∀ i ∈ matches_, i.1 <= i.2) :
    Apart (coalseAndSortMatchPositions sort matches_) ∧ ∀ off,
      Covers (coalseAndSortMatchPositions sort matches_) off -> Covers matches_ off := by
  obtain ⟨isPerm, sorted⟩ := sorts matches_
  have sortedOrdered : ∀ i ∈ sort matches_, i.1 <= i.2 :=
    fun i mem => ordered i (isPerm.mem_iff.mp mem)
  have covered : ∀ off, Covers (sort matches_) off -> Covers matches_ off := by
    rintro off ⟨i, mem, inside⟩
    exact ⟨i, isPerm.mem_iff.mp mem, inside⟩
  rw [coalseAndSortMatchPositions]
  cases h : sort matches_ with
  | nil => exact ⟨⟨.nil, .nil⟩, fun off covers => covered off (h ▸ covers)⟩
  | cons mp rest =>
    rw [h] at sorted sortedOrdered covered
    exact ⟨(apart_coalesceMatchesFrom sortedOrdered sorted).2,
      fun off covers => covered off (covers_of_coalesceMatchesFrom sorted covers)⟩

theorem within_coalseAndSort (sorts : Sorts sort) (endsLatest : EndsLatest 0 0 (sort matches_)) :
    ∀ i ∈ matches_, Within (coalseAndSortMatchPositions sort matches_) i := by
  obtain ⟨isPerm, sorted⟩ := sorts matches_
  intro i mem
  have isIn : i ∈ sort matches_ := isPerm.mem_iff.mpr mem
  rw [coalseAndSortMatchPositions]
  cases h : sort matches_ with
  | nil => exact absurd (h ▸ isIn) not_mem_nil
  | cons mp rest =>
    rw [h] at sorted endsLatest isIn
    have latest : EndsLatest mp.2 mp.2 rest := (Nat.zero_max mp.2) ▸ endsLatest.2
    obtain ⟨first, others⟩ := within_of_endsLatest sorted latest
    obtain rfl | isOther := mem_cons.mp isIn
    · exact first
    · exact others i isOther

theorem covers_of_within {positions : List MatchPosition}
    (within : ∀ i ∈ matches_, Within positions i) (covers : Covers matches_ offset) :
    Covers positions offset := by
  obtain ⟨i, mem, starts, ends⟩ := covers
  obtain ⟨whole, isWhole, first, last⟩ := within i mem
  exact ⟨whole, isWhole, first.trans starts, ends.trans_le last⟩

end

/-- A sort as the one of the standard library may be. -/
def sortByStart : List MatchPosition -> List MatchPosition :=
  insertionSort fun i j => i.1 <= j.1

theorem sorts_sortByStart : Sorts sortByStart := by
  have : Std.Total fun i j : MatchPosition => i.1 <= j.1 := ⟨fun i j => le_total i.1 j.1⟩
  have : IsTrans MatchPosition fun i j => i.1 <= j.1 := ⟨fun _ _ _ => le_trans⟩
  exact fun matches_ => ⟨perm_insertionSort _ matches_, pairwise_insertionSort _ matches_⟩

end Chromium.History
