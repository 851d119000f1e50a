import Chromium.Library.Tiling

/-!
# Queues that wrap around in a range of cells

Items are laid out one behind the other in a range of cells. An item that
wraps around sends the layout back to cell zero. At most one item of a queue
does, and the items behind it stay in front of the first one, so that the items
of a queue never overlap.
-/

namespace Chromium.Library

open List hiding concat count drop range span

/-- Items of known sizes, some of which wrap around. -/
structure Layouter (ι : Type) where
  size : ι -> Nat
  wraps : ι -> Bool

namespace Layouter

variable {ι : Type} (layouter : Layouter ι)

/-- The cell behind an item that starts at a cell. -/
def advance (first : Nat) (item : ι) : Nat :=
  if layouter.wraps item then 0 else first + layouter.size item

/-- The cell behind items that start at a cell. -/
def walk (first : Nat) (items : List ι) : Nat := items.foldl layouter.advance first

/-- The ranges of items that start at a cell. -/
def ranges (first : Nat) : List ι -> List (Nat × Nat)
  | [] => []
  | item :: items => (first, layouter.size item) :: ranges (layouter.advance first item) items

/-- The total size of items. -/
def span (items : List ι) : Nat := (items.map layouter.size).sum

/-- Items laid out straight, from a first cell to a last. -/
structure Straight (first : Nat) (items : List ι) (last : Nat) : Prop where
  noWrap : ∀ item ∈ items, layouter.wraps item = false
  last_eq : first + layouter.span items = last

/-- Items laid out below a limit, wrapping around at most once. -/
inductive Queued (limit first : Nat) : List ι -> Nat -> Prop
  | straight {items : List ι} {last : Nat} : layouter.Straight first items last → last ≤ limit - 1 →
      Queued limit first items last
  | wrapped {high low : List ι} {turn : ι} {middle last : Nat} :
      layouter.Straight first high middle ->
      middle <= limit ->
      layouter.wraps turn = true ->
      layouter.Straight 0 low last ->
      last < first ->
      Queued limit first (high ++ turn :: low) last

variable {layouter}

@[simp] theorem walk_nil : layouter.walk first [] = first := rfl

@[simp] theorem walk_cons :
    layouter.walk first (item :: items) = layouter.walk (layouter.advance first item) items := rfl

theorem walk_append (front back : List ι) :
    layouter.walk first (front ++ back) = layouter.walk (layouter.walk first front) back :=
  foldl_append

theorem ranges_append (front back : List ι) :
    layouter.ranges first (front ++ back) = layouter.ranges first front ++
        layouter.ranges (layouter.walk first front) back := by
  induction front generalizing first with
  | nil => rfl
  | cons item items ih => rw [cons_append, ranges, ranges, ih, cons_append, walk_cons]

@[simp] theorem span_nil : layouter.span ([] : List ι) = 0 := rfl

@[simp] theorem span_cons :
    layouter.span (item :: items) = layouter.size item + layouter.span items :=
  sum_cons

theorem span_append (front back : List ι) : layouter.span (front ++ back) =
      layouter.span front + layouter.span back := by
  simp [span]

namespace Straight

theorem nil (first : Nat) : layouter.Straight first [] first := ⟨by simp, rfl⟩

variable {items : List ι}

theorem cons_iff : layouter.Straight first (item :: items) last ↔ layouter.wraps item = false ∧
        layouter.Straight (first + layouter.size item) items last := by
  constructor
  · rintro ⟨noWrap, total⟩
    rw [span_cons] at total
    exact ⟨noWrap item mem_cons_self, (forall_mem_cons.mp noWrap).2, by omega⟩
  · rintro ⟨itemNoWrap, noWrap, total⟩
    refine ⟨?_, by rw [span_cons]; omega⟩
    intro other mem
    rcases mem_cons.mp mem with rfl | later
    · exact itemNoWrap
    · exact noWrap other later

section

variable (straight : layouter.Straight first items last)
include straight

theorem le : first <= last := by
  have := straight.last_eq
  omega

theorem concat (noWrap : layouter.wraps item = false) :
    layouter.Straight first (items ++ [item]) (last + layouter.size item) := by
  refine ⟨?_, ?_⟩
  · intro other mem
    rcases mem_append.mp mem with older | newest
    · exact straight.noWrap other older
    · rw [mem_singleton.mp newest]
      exact noWrap
  · have := straight.last_eq
    rw [span_append, span_cons, span_nil]
    omega

/-- Straight items end where a walk over them ends. -/
theorem walk_eq : layouter.walk first items = last := by
  induction items generalizing first with
  | nil => exact straight.last_eq
  | cons item items ih =>
    obtain ⟨noWrap, rest⟩ := cons_iff.mp straight
    rw [walk_cons, advance, noWrap]
    exact ih rest

/-- Straight items lie between their first and last cell. -/
theorem mem_ranges (mem : range ∈ layouter.ranges first items) :
    first <= range.1 ∧ range.1 + range.2 <= last := by
  induction items generalizing first with
  | nil => cases mem
  | cons item items ih =>
    obtain ⟨noWrap, rest⟩ := cons_iff.mp straight
    rw [ranges, advance, noWrap] at mem
    have := rest.le
    rcases mem_cons.mp mem with rfl | later
    · exact ⟨Nat.le_refl _, this⟩
    · have := ih rest later
      omega

/-- Straight items are laid out in increasing order without overlap. -/
theorem pairwise : (layouter.ranges first items).Pairwise Apart := by
  induction items generalizing first with
  | nil => exact .nil
  | cons item items ih =>
    obtain ⟨noWrap, rest⟩ := cons_iff.mp straight
    rw [ranges, advance, noWrap]
    refine .cons (fun range mem => ?_) (ih rest)
    exact Or.inl (rest.mem_ranges mem).1

end

end Straight

/-- Layouts only depend on the sizes of the items and on which wrap. -/
def Similar (layouter : Layouter ι) (left right : List ι) : Prop :=
  left.map (fun item => (layouter.size item, layouter.wraps item)) =
    right.map fun item => (layouter.size item, layouter.wraps item)

theorem Similar.cons_iff :
    layouter.Similar left (item :: right) ↔ ∃ other rest, left = other :: rest ∧
        layouter.size other = layouter.size item ∧ layouter.wraps other = layouter.wraps item ∧
        layouter.Similar rest right := by
  unfold Similar
  rw [map_cons, map_eq_cons_iff]
  simp [and_assoc]

theorem Similar.replace (front back : List ι) (sameSize : layouter.size other = layouter.size item)
    (sameWraps : layouter.wraps other = layouter.wraps item) :
    layouter.Similar (front ++ other :: back) (front ++ item :: back) := by
  simp [Similar, sameSize, sameWraps]

theorem Similar.ranges_eq (similar : layouter.Similar left right) (first : Nat) :
    layouter.ranges first left = layouter.ranges first right := by
  induction right generalizing left first with
  | nil =>
    rw [Similar, map_nil, map_eq_nil_iff] at similar
    rw [similar]
  | cons item right ih =>
    obtain ⟨other, rest, rfl, sameSize, sameWraps, restSimilar⟩ := cons_iff.mp similar
    rw [ranges, ranges, advance, advance, sameSize, sameWraps, ih restSimilar]

theorem Similar.straight (similar : layouter.Similar left right)
    (straight : layouter.Straight first right last) :
    layouter.Straight first left last := by
  induction right generalizing left first with
  | nil =>
    rw [Similar, map_nil, map_eq_nil_iff] at similar
    rw [similar]
    exact straight
  | cons item right ih =>
    obtain ⟨other, rest, rfl, sameSize, sameWraps, restSimilar⟩ := cons_iff.mp similar
    rw [Straight.cons_iff] at straight ⊢
    rw [sameSize, sameWraps]
    exact ⟨straight.1, ih restSimilar straight.2⟩

namespace Queued

/-- Items similar to those of a queue form a queue. -/
theorem of_similar (queued : layouter.Queued limit first right last)
    (similar : layouter.Similar left right) :
    layouter.Queued limit first left last := by
  cases queued with
  | straight straight below => exact .straight (similar.straight straight) below
  | wrapped high fits turns low before =>
    rw [Similar, map_append, map_eq_append_iff] at similar
    obtain ⟨highLeft, rest, rfl, highSimilar, restSimilar⟩ := similar
    obtain ⟨other, lowLeft, rfl, _, sameWraps, lowSimilar⟩ := Similar.cons_iff.mp restSimilar
    exact .wrapped (Similar.straight highSimilar high) fits
      (sameWraps.trans turns) (lowSimilar.straight low) before

variable {items : List ι}

/-- The items of a queue do not overlap. -/
theorem pairwise (queued : layouter.Queued limit first items last) :
    (layouter.ranges first items).Pairwise Apart := by
  cases queued with
  | straight straight below => exact straight.pairwise
  | @wrapped high low turn middle last highStraight fits turns lowStraight before =>
      have ordered := highStraight.le
      rw [ranges_append, highStraight.walk_eq, ranges, advance, turns,
        pairwise_append, pairwise_cons]
      refine ⟨highStraight.pairwise, ⟨?_, lowStraight.pairwise⟩, ?_⟩
      · intro range inLow
        have := (lowStraight.mem_ranges inLow).2
        exact Or.inr (by dsimp only; omega)
      · intro range inHigh other inRest
        have bounds := highStraight.mem_ranges inHigh
        rcases mem_cons.mp inRest with rfl | inLow
        · exact Or.inl bounds.2
        · have := (lowStraight.mem_ranges inLow).2
          exact Or.inr (by omega)

/-- A queue ends where a walk over its items ends. -/
theorem walk_eq (queued : layouter.Queued limit first items last) :
    layouter.walk first items = last := by
  cases queued with
  | straight straight below => exact straight.walk_eq
  | wrapped high fits turns low before =>
    rw [walk_append, walk_cons, advance, turns]
    exact low.walk_eq

theorem tail (queued : layouter.Queued limit first (item :: items) last) :
    layouter.Queued limit (layouter.advance first item) items last := by
  generalize equality : item :: items = all at queued
  cases queued with
  | straight straight below =>
    subst equality
    obtain ⟨noWrap, rest⟩ := Straight.cons_iff.mp straight
    rw [advance, noWrap]
    exact .straight rest below
  | @wrapped high low turn middle last highStraight fits turns lowStraight before =>
      cases high with
      | nil =>
        obtain ⟨rfl, rfl⟩ := equality
        have := highStraight.le
        rw [advance, turns]
        exact .straight lowStraight (by omega)
      | cons other rest =>
        obtain ⟨rfl, rfl⟩ := equality
        obtain ⟨noWrap, restStraight⟩ := Straight.cons_iff.mp highStraight
        rw [advance, noWrap]
        exact .wrapped restStraight fits turns lowStraight
          (Nat.lt_of_lt_of_le before (Nat.le_add_right _ _))

/-- Dropping items from the front of a queue leaves a queue. -/
theorem drop (queued : layouter.Queued limit first (front ++ back) last) :
    layouter.Queued limit (layouter.walk first front) back last := by
  induction front generalizing first with
  | nil => exact queued
  | cons item items ih => exact ih queued.tail

/-- The head of a queue ends below the limit, or wraps around behind cell
zero. -/
theorem head (queued : layouter.Queued limit first (item :: items) last) :
    (layouter.wraps item = false ∧ first + layouter.size item <= limit) ∨
      (layouter.wraps item = true ∧ 0 < first ∧ first <= limit) := by
  generalize equality : item :: items = all at queued
  cases queued with
  | straight straight below =>
    subst equality
    obtain ⟨noWrap, rest⟩ := Straight.cons_iff.mp straight
    have := rest.le
    exact Or.inl ⟨noWrap, by omega⟩
  | @wrapped high low turn middle last highStraight fits turns lowStraight before =>
      cases high with
      | nil =>
        obtain ⟨rfl, rfl⟩ := equality
        have := highStraight.le
        exact Or.inr ⟨turns, by omega, by omega⟩
      | cons other rest =>
        obtain ⟨rfl, rfl⟩ := equality
        obtain ⟨noWrap, restStraight⟩ := Straight.cons_iff.mp highStraight
        have := restStraight.le
        exact Or.inl ⟨noWrap, by omega⟩

section

variable (queued : layouter.Queued limit first items last)
include queued

/-- A queue that ends behind its first cell is straight. -/
theorem straight_of_le (le : first <= last) :
    layouter.Straight first items last ∧ last <= limit - 1 := by
  cases queued with
  | straight straight below => exact ⟨straight, below⟩
  | wrapped high fits turns low before => exact absurd before (Nat.not_lt.mpr le)

theorem last_le : last <= limit - 1 := by
  cases queued with
  | straight straight below => exact below
  | wrapped high fits turns low before =>
    have := high.le
    omega

/-- An item that leaves a cell free is added at the end of a queue. -/
theorem push (noWrap : layouter.wraps item = false)
    (room : (first <= last ∧ last + layouter.size item < limit) ∨
      last + layouter.size item < first) :
    layouter.Queued limit first (items ++ [item]) (last + layouter.size item) := by
  cases queued with
  | straight straight below =>
    have := straight.le
    exact .straight (straight.concat noWrap) (by omega)
  | wrapped high fits turns low before =>
    rw [append_assoc, cons_append]
    exact .wrapped high fits turns (low.concat noWrap) (by omega)

end

/-- An item that wraps around is added at the end of straight items. -/
theorem turn (straight : layouter.Straight first items last)
    (turns : layouter.wraps item = true) (fits : last <= limit) (pos : 0 < first) :
    layouter.Queued limit first (items ++ [item]) 0 :=
  .wrapped straight fits turns (.nil 0) pos

/-- A range at the end of a queue that does not reach the first cell from below
is apart from the items. -/
theorem apart (queued : layouter.Queued limit first items last)
    (room : first <= last ∨ last + n <= first) (range : Nat × Nat)
    (mem : range ∈ layouter.ranges first items) :
    Apart (last, n) range := by
  cases queued with
  | straight straight below => exact Or.inr (straight.mem_ranges mem).2
  | @wrapped high low turn middle last highStraight fits turns lowStraight before =>
      have ordered := highStraight.le
      rw [ranges_append, highStraight.walk_eq, ranges, advance, turns,
        mem_append, mem_cons] at mem
      rcases mem with inHigh | rfl | inLow
      · have := (highStraight.mem_ranges inHigh).1
        exact Or.inl (by dsimp only; omega)
      · exact Or.inl (by dsimp only; omega)
      · exact Or.inr (lowStraight.mem_ranges inLow).2

end Queued

end Layouter

end Chromium.Library
