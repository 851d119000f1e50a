import Mathlib.Data.List.InsertIdx
import Mathlib.Data.List.Sort

/-!
# Editing a list around one position

A list split around one element is read, changed, cut and extended at that
element by its position.
-/

namespace Chromium.Library

open List hiding count

section

variable (front back : List α)
include front back

variable (element : α)

/-- Changing the element after a prefix. -/
theorem modify_append_cons (change : α -> α) :
    (front ++ element :: back).modify front.length change = front ++ change element :: back := by
  induction front with
  | nil => rfl
  | cons head rest ih => simpa using ih

/-- Replacing the element after a prefix. -/
theorem set_append_cons :
    (front ++ element :: back).set front.length replacement = front ++ replacement :: back := by
  simp

/-- Removing the element after a prefix. -/
theorem eraseIdx_append_cons :
    (front ++ element :: back).eraseIdx front.length = front ++ back := by
  simp [eraseIdx_append]

/-- Inserting an element after a prefix. -/
theorem insertIdx_append :
    (front ++ back).insertIdx front.length element = front ++ element :: back := by
  induction front with
  | nil => simp
  | cons head rest ih => simpa using ih

/-- Reading the element after a prefix. -/
theorem getElem?_append_cons : (front ++ element :: back)[front.length]? = some element := by
  simp

end

/-- A property holds of some element around one, or of the one. -/
theorem exists_mem_append_cons {P : α -> Prop} : (∃ other ∈ front ++ element :: back, P other) ↔
      (∃ other ∈ front ++ back, P other) ∨ P element := by
  simp only [mem_append, mem_cons, or_and_right, exists_or, exists_eq_left]
  rw [or_assoc, or_congr_right or_comm]

/-- Split a list around the element at a position. -/
theorem exists_append_of_getElem? (hit : list[i]? = some element) :
    ∃ front back, list = front ++ element :: back ∧ front.length = i := by
  obtain ⟨inside, rfl⟩ := List.getElem?_eq_some_iff.mp hit
  refine ⟨list.take i, list.drop (i + 1), ?_, ?_⟩
  · rw [getElem_cons_drop, take_append_drop]
  · rw [length_take]
    omega

/-- The first element that passes a test splits a list into elements that
fail it and a rest that is empty or starts with one that passes. -/
theorem exists_append_of_findIdx (test : α -> Bool) (list : List α) :
    ∃ front back, list = front ++ back ∧ list.findIdx test = front.length ∧
      (∀ elem ∈ front, test elem = false) ∧ ∀ elem ∈ back.head?, test elem = true := by
  induction list with
  | nil => exact ⟨[], [], by simp⟩
  | cons head rest ih =>
    cases passes : test head with
    | true => exact ⟨[], head :: rest, by simp [findIdx_cons, passes]⟩
    | false =>
      obtain ⟨front, back, split, place, failing, passing⟩ := ih
      refine ⟨head :: front, back, ?_, ?_, ?_, passing⟩
      · rw [split, cons_append]
      · simp [findIdx_cons, passes, place]
      · simpa [passes] using failing

/-- Cut a list or fill it up to a given length. -/
def resize (list : List α) (count : Nat) (filler : α) : List α :=
  list.take count ++ List.replicate (count - list.length) filler

@[simp] theorem length_resize (n : Nat) : (resize list n filler).length = n := by
  simp only [resize, length_append, length_take, length_replicate]
  omega

/-- Filling up a list with the default of its reads does not change them. -/
theorem getD_resize (grows : list.length <= count) :
    (resize list count filler).getD index filler = list.getD index filler := by
  simp only [resize, take_of_length_le grows, getD_eq_getElem?_getD, List.getElem?_append]
  split
  · rfl
  · rename_i outside
    rw [List.getElem?_eq_none (Nat.le_of_not_lt outside), List.getElem?_replicate]
    split <;> rfl

/-- Resizing the empty list fills it up. -/
@[simp] theorem resize_nil (n : Nat) :
    resize [] n filler = List.replicate n filler := by
  simp [resize]

/-!
## Lists related member by member

Reading, finding and composing lists of equal length whose members are related.
-/

section

variable {left : List α} {middle : List β}

section

variable (related : List.Forall₂ R left middle)
include related

theorem mem_left_of_forall₂ (isMem : member ∈ middle) :
    ∃ original ∈ left, R original member := by
  induction related with
  | nil => exact absurd isMem not_mem_nil
  | cons head _ ih =>
    rcases mem_cons.mp isMem with rfl | inRest
    · exact ⟨_, mem_cons_self, head⟩
    · obtain ⟨original, isOriginal, inv⟩ := ih inRest
      exact ⟨original, mem_cons_of_mem _ isOriginal, inv⟩

theorem mem_right_of_forall₂ (isMem : member ∈ left) : ∃ changed ∈ middle, R member changed :=
  mem_left_of_forall₂ related.flip isMem

theorem map_eq_of_forall₂
    (same : ∀ {first second}, R first second -> readRight second = readLeft first) :
    middle.map readRight = left.map readLeft := by
  induction related with
  | nil => rfl
  | cons head _ ih => rw [map_cons, map_cons, same head, ih]

end

theorem forall₂_trans (front : List.Forall₂ R left middle) (back : List.Forall₂ S middle right)
    (compose : ∀ {first second third}, R first second -> S second third -> T first third) :
    List.Forall₂ T left right := by
  induction front generalizing right with
  | nil =>
    cases back
    exact .nil
  | cons head _ ih =>
    cases back with
    | cons headThen rest => exact .cons (compose head headThen) (ih rest)

end

/-!
## Lists whose members with a property lead

The members of a list that have a property are in front of all that have not.
Their number is where the others begin.
-/

section

/-- The members with a property are in front of the others. -/
def Leading (P : α -> Bool) (list : List α) : Prop :=
  list.Pairwise fun before behind => P behind = true -> P before = true

variable {list : List α}

theorem leading_cons : Leading P (mem :: list) ↔
      (P mem = false -> ∀ other ∈ list, P other = false) ∧ Leading P list := by
  rw [Leading, pairwise_cons]
  apply and_congr_left
  intro _
  constructor
  · intro leads fails other mem
    apply Bool.eq_false_of_not_eq_true
    intro inv
    exact Bool.false_ne_true (fails.symm.trans (leads other mem inv))
  · intro none_ other mem inv
    apply Bool.of_not_eq_false
    intro fails
    exact Bool.false_ne_true ((none_ fails other mem).symm.trans inv)

theorem countP_eq_zero_of_leading (leading : Leading P (mem :: list))
    (fails : P mem = false) :
    list.countP P = 0 := by
  rw [countP_eq_zero]
  intro other isOther
  exact Bool.eq_false_iff.mp ((leading_cons.mp leading).1 fails other isOther)

namespace Leading

section

variable (leading : Leading P list)
include leading

/-- The members with the property are those in front of their number. -/
theorem property_getElem (lt : index < list.length) :
    P list[index] = true ↔ index < list.countP P := by
  induction list generalizing index with
  | nil => exact absurd lt (Nat.not_lt_zero _)
  | cons mem list ih =>
    cases holds : P mem with
    | true =>
      rw [countP_cons_of_pos holds]
      cases index with
      | zero => simpa using holds
      | succ index =>
        rw [getElem_cons_succ, Nat.succ_lt_succ_iff]
        exact ih (leading_cons.mp leading).2 _
    | false =>
      rw [countP_cons_of_neg (Bool.eq_false_iff.mp holds), countP_eq_zero_of_leading leading holds]
      have fails : P (mem :: list)[index] = false := by
        rcases mem_cons.mp (getElem_mem lt) with eq | isOther
        · rw [eq]
          exact holds
        · exact (leading_cons.mp leading).1 holds _ isOther
      rw [fails]
      exact iff_of_false Bool.false_ne_true (Nat.not_lt_zero _)

/-- The first member without the property is behind all that have it. -/
theorem findIdx_eq_countP : list.findIdx (fun mem => !P mem) = list.countP P := by
  induction list with
  | nil => rfl
  | cons mem list ih =>
    rw [findIdx_cons]
    cases inv : P mem with
    | true =>
      rw [countP_cons_of_pos inv, ← ih (leading_cons.mp leading).2]
      rfl
    | false =>
      rw [countP_cons_of_neg (Bool.eq_false_iff.mp inv), countP_eq_zero_of_leading leading inv]
      rfl

theorem eraseIdx (i : Nat) : Leading P (list.eraseIdx i) :=
  List.Pairwise.eraseIdx i leading

theorem insertIdx (front : P member = true -> index <= list.countP P)
    (back : P member = false -> list.countP P <= index) :
    Leading P (list.insertIdx index member) := by
  induction list generalizing index with
  | nil =>
    cases index with
    | zero => exact pairwise_singleton _ _
    | succ index => exact List.Pairwise.nil
  | cons head list ih =>
    cases index with
    | zero =>
      rw [insertIdx_zero, leading_cons]
      refine ⟨?_, leading⟩
      intro fails
      have none_ := countP_eq_zero.mp (Nat.le_zero.mp (back fails))
      intro other isOther
      exact Bool.eq_false_iff.mpr (none_ other isOther)
    | succ index =>
      rw [insertIdx_succ_cons, leading_cons]
      constructor
      · intro fails other isOther
        rw [countP_cons_of_neg (Bool.eq_false_iff.mp fails),
          countP_eq_zero_of_leading leading fails] at front
        rcases eq_or_mem_of_mem_insertIdx isOther with eq | isOther
        · subst eq
          apply Bool.eq_false_iff.mpr
          intro inv
          exact absurd (front inv) (Nat.not_succ_le_zero _)
        · exact (leading_cons.mp leading).1 fails other isOther
      · apply ih (leading_cons.mp leading).2
        · intro inv
          have := front inv
          rw [countP_cons] at this
          split at this <;> omega
        · intro fails
          have behind := back fails
          cases inv : P head with
          | true =>
            rw [countP_cons_of_pos inv] at behind
            exact Nat.le_of_succ_le_succ behind
          | false =>
            rw [countP_eq_zero_of_leading leading inv]
            exact Nat.zero_le _

/-- A change that keeps the property of every member keeps the order. -/
theorem of_map_eq (same : changed.map P = list.map P) : Leading P changed := by
  have order : (list.map P).Pairwise fun before behind => behind = true -> before = true :=
    pairwise_map.mpr leading
  rw [← same] at order
  exact pairwise_map.mp order

end

end Leading

/-- Erasing a member takes it from the members with the property. -/
theorem countP_eraseIdx (P : α -> Bool) (lt : index < list.length) :
    (list.eraseIdx index).countP P + (if P list[index] = true then 1 else 0) = list.countP P := by
  induction list generalizing index with
  | nil => exact absurd lt (Nat.not_lt_zero _)
  | cons member list ih =>
    cases index with
    | zero =>
      rw [eraseIdx_zero, countP_cons]
      rfl
    | succ index =>
      have rest := ih (Nat.lt_of_succ_lt_succ lt)
      rw [eraseIdx_cons_succ, countP_cons, countP_cons, getElem_cons_succ, ← rest]
      omega

/-- The members of a strictly increasing list below a bound lead. -/
theorem leading_lt (rising : numbers.Pairwise (· < ·)) {bound : Int} :
    Leading (fun n => decide (n < bound)) numbers := by
  refine rising.imp ?_
  intro before behind less
  rw [decide_eq_true_eq, decide_eq_true_eq]
  exact less.trans

/-- A member of a strictly increasing list is below a bound if it is in front
of the number of those that are. -/
theorem getElem_lt_iff {numbers : List Int} (rising : numbers.Pairwise (· < ·))
    (lt : index < numbers.length) :
    numbers[index] < bound ↔ index < numbers.countP fun n => decide (n < bound) := by
  rw [← (leading_lt rising).property_getElem lt, decide_eq_true_eq]

end

end Chromium.Library
