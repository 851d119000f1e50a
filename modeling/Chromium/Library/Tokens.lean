import Mathlib.Data.List.DropRight

/-!
# Tokens of a text

Parts of a text are given by their two ends. A text is split into tokens by a
scanner, whose state is fresh at the start of each token and which stops at
delimiters. Tokens are not empty.
-/

namespace Chromium.Library

open List hiding after all cons count head length nil span

/-- The two ends of a part of a text. -/
structure Span where
  first : Nat
  last : Nat
deriving DecidableEq

namespace Span

/-- The text of a span. -/
def of (span : Span) (text : List α) : List α := (text.take span.last).drop span.first

/-- A span of a text behind some others. -/
def shift (offset : Nat) (span : Span) : Span := ⟨offset + span.first, offset + span.last⟩

/-- A span without the items at its ends that have a property. -/
def trim (P : α -> Bool) (text : List α) (span : Span) : Span :=
  let part := span.of text
  let first := span.first + (part.takeWhile P).length
  ⟨first, first + ((part.dropWhile P).rdropWhile P).length⟩

theorem shift_of {span : Span} : (span.shift front.length).of (front ++ text) = span.of text := by
  rw [of, of, shift, take_length_add_append, drop_length_add_append]

variable {text : List α} {span : Span}

theorem of_append (inside : span.last <= text.length) (behind : List α) :
    span.of (text ++ behind) = span.of text := by
  rw [of, of, take_append_of_le_length inside]

theorem of_take (inside : span.last <= count) : span.of (text.take count) = span.of text := by
  rw [of, of, take_take, Nat.min_eq_left inside]

theorem trim_congr (same : span.of text = span.of other) :
    span.trim P text = span.trim P other := by
  rw [trim, trim, same]

theorem length_of (inside : span.last <= text.length) :
    (span.of text).length = span.last - span.first := by
  rw [of, length_drop, length_take_of_le inside]

theorem of_of {outer inner : Span} (inside : outer.first + inner.last <= outer.last) :
    (inner.shift outer.first).of text = inner.of (outer.of text) := by
  simp only [of, shift]
  rw [take_drop, take_take, drop_drop, Nat.min_eq_left inside]

/-- A trimmed span is inside the span. -/
theorem trim_inside (P : α -> Bool) (le : span.first <= span.last)
    (inside : span.last <= text.length) :
    span.first <= (span.trim P text).first ∧ (span.trim P text).first <= (span.trim P text).last ∧
      (span.trim P text).last <= span.last := by
  have whole := congrArg List.length (takeWhile_append_dropWhile (p := P) (l := span.of text))
  have short := ( rdropWhile_prefix P ((span.of text).dropWhile P)).length_le
  rw [length_append, length_of inside] at whole
  simp only [trim]
  omega

theorem take_of (le : span.first <= stop) (before : stop <= span.last) :
    (span.of text).take (stop - span.first) = (Span.mk span.first stop).of text := by
  rw [of, of, take_drop, Nat.add_sub_cancel' le, take_take, Nat.min_eq_left before]

/-- A text without the items at its ends that have a property. -/
def trimText (P : α -> Bool) (text : List α) : List α :=
  (text.dropWhile P).rdropWhile P

theorem of_trim (P : α -> Bool) (le : span.first <= span.last)
    (inside : span.last <= text.length) :
    (span.trim P text).of text = trimText P (span.of text) := by
  have within := (trim_inside P le inside).2.2
  have core := prefix_iff_eq_take.mp ( rdropWhile_prefix P ((span.of text).dropWhile P))
  simp only [trim, Nat.add_assoc] at within ⊢
  refine (@of_of _ text span ⟨((span.of text).takeWhile P).length, _⟩ within).trans ?_
  have whole := @takeWhile_append_dropWhile _ P (span.of text)
  calc (((span.of text).take _).drop _ : List α)
    _ = (((span.of text).takeWhile P ++ (span.of text).dropWhile P).take
          (((span.of text).takeWhile P).length + _)).drop _ := by rw [whole]
    _ = trimText P (span.of text) := by
          rw [take_length_add_append, drop_left]
          exact core.symm

theorem trimText_append {P : α -> Bool} {before core behind : List α}
    (front : ∀ item ∈ before, P item) (back : ∀ item ∈ behind, P item)
    (first : core.head? = some a) (last : core.getLast? = some b)
    (others : P a = false ∧ P b = false) :
    trimText P (before ++ core ++ behind) = core := by
  obtain ⟨rest, rfl⟩ := head?_eq_some_iff.mp first
  obtain ⟨init, isCore⟩ := getLast?_eq_some_iff.mp last
  have back' : ∀ item ∈ behind.reverse, P item := by simpa using back
  rw [trimText, append_assoc, dropWhile_append_of_pos front, cons_append,
    dropWhile_cons_of_neg (by rw [others.1]; exact Bool.false_ne_true), ← cons_append, isCore,
    rdropWhile, reverse_append, dropWhile_append_of_pos back', reverse_append, reverse_singleton,
    singleton_append, dropWhile_cons_of_neg (by rw [others.2]; exact Bool.false_ne_true),
    reverse_cons, reverse_reverse]

/-- A text that ends in a span has what is in front of the span, and a part of
the span. -/
theorem take_append_of (le : span.first <= stop) (before : stop <= span.last) :
    text.take stop = text.take span.first ++ (span.of text).take (stop - span.first) := by
  have front : (text.take stop).take span.first = text.take span.first := by
    rw [take_take, Nat.min_eq_left le]
  rw [take_of le before, ← front]
  exact (take_append_drop span.first (text.take stop)).symm

section Trim

variable {P : α -> Bool} {span : Span} {text : List α}
  (ordered : span.first <= span.last) (inside : span.last <= text.length)

include ordered inside

/-- The text up to a place behind the front that is trimmed. -/
theorem take_append_trim (behind : (span.trim P text).first <= stop) (before : stop <= span.last) :
    text.take stop = text.take span.first ++ ((span.of text).takeWhile P ++
        ((span.of text).dropWhile P).take (stop - (span.trim P text).first)) := by
  have begins := (trim_inside P ordered inside).1
  rw [take_append_of (Nat.le_trans begins behind) before]
  congr 1
  have far : stop - span.first = ((span.of text).takeWhile P).length +
        (stop - (span.trim P text).first) := by
    simp only [trim] at behind ⊢
    omega
  conv_lhs =>
    rw [← takeWhile_append_dropWhile (p := P) (l := span.of text)]
  rw [far, take_length_add_append]

/-- A span of which nothing is left is trimmed at its front. -/
theorem trim_empty (empty : (span.trim P text).first = (span.trim P text).last) :
    (span.trim P text).last = span.last := by
  have whole := congrArg List.length (takeWhile_append_dropWhile (p := P) (l := span.of text))
  rw [length_append, length_of inside] at whole
  have noneLeft : ((span.of text).dropWhile P).length = 0 := by
    rw [length_eq_zero_iff]
    by_contra nonempty
    have other := head_dropWhile_not P nonempty
    simp only [trim] at empty
    have noCore : ((span.of text).dropWhile P).rdropWhile P = [] :=
      length_eq_zero_iff.mp (by omega)
    have all := rdropWhile_eq_nil_iff.mp noCore _ (head_mem nonempty)
    rw [other] at all
    cases all
  rw [← empty]
  simp only [trim]
  omega

/-- The last item of a trimmed span does not have the property. -/
theorem trim_last (ne : (span.trim P text).first < (span.trim P text).last) :
    ∀ item ∈ (text.take (span.trim P text).last).getLast?, P item = false := by
  have isInside := trim_inside P ordered inside
  have whole : ((span.of text).dropWhile P).take
      ((span.trim P text).last - (span.trim P text).first) =
        ((span.of text).dropWhile P).rdropWhile P := by
    simp only [trim]
    rw [Nat.add_sub_cancel_left]
    exact (prefix_iff_eq_take.mp ( rdropWhile_prefix P _)).symm
  have some_ : ((span.of text).dropWhile P).rdropWhile P ≠ [] := by
    intro empty
    simp only [trim, empty, length_nil, Nat.add_zero] at ne
    exact Nat.lt_irrefl _ ne
  rw [take_append_trim ordered inside isInside.2.1 isInside.2.2, whole,
    getLast?_append_of_ne_nil _ (by simp [some_]),
    getLast?_append_of_ne_nil _ some_, getLast?_eq_some_getLast some_]
  rintro item ⟨⟩
  exact Bool.eq_false_iff.mpr (rdropWhile_last_not P _ some_)

/-- A text that ends in a trimmed span, with an item that does not have the
property, is trimmed at its front only. -/
theorem trim_take (behind : (span.trim P text).first < stop)
    (before : stop <= (span.trim P text).last)
    (last : ∀ item ∈ (text.take stop).getLast?, P item = false) :
    trim P (text.take stop) ⟨span.first, stop⟩ = ⟨(span.trim P text).first, stop⟩ := by
  have isInside := trim_inside P ordered inside
  have split := take_append_trim ordered inside (Nat.le_of_lt behind)
    (Nat.le_trans before isInside.2.2)
  have short := ( rdropWhile_prefix P ((span.of text).dropWhile P)).length_le
  have enough : 0 < stop - (span.trim P text).first ∧
      stop - (span.trim P text).first <= ((span.of text).dropWhile P).length := by
    simp only [trim] at behind before ⊢
    omega
  generalize isCount : stop - (span.trim P text).first = count at split enough
  obtain ⟨item, rest, isCore⟩ := exists_cons_of_length_pos (Nat.lt_of_lt_of_le enough.1 enough.2)
  obtain ⟨fewer, rfl⟩ := Nat.exists_eq_succ_of_ne_zero (Nat.ne_of_gt enough.1)
  have other : ¬P item = true := by
    have head := head_dropWhile_not P
      (by rw [isCore]; exact cons_ne_nil _ _ : (span.of text).dropWhile P ≠ [])
    simp only [isCore, head_cons] at head
    exact Bool.eq_false_iff.mp head
  rw [isCore, take_succ_cons] at split
  have part : (Span.mk span.first stop).of (text.take stop) =
      (span.of text).takeWhile P ++ item :: rest.take fewer := by
    rw [of, take_take, Nat.min_self, split]
    exact drop_left' (length_take_of_le (Nat.le_trans ordered inside))
  have allOf : ∀ c ∈ (span.of text).takeWhile P, P c = true :=
    fun _ => mem_takeWhile_imp
  have kept : (item :: rest.take fewer).rdropWhile P = item :: rest.take fewer := by
    rw [rdropWhile_eq_self_iff]
    intro ne
    rw [Bool.not_eq_true]
    apply last
    rw [split, getLast?_append_of_ne_nil _ (by simp), getLast?_append_of_ne_nil _ ne,
      getLast?_eq_some_getLast ne]
    rfl
  have len : (item :: rest.take fewer).length = fewer + 1 := by
    rw [isCore, length_cons] at enough
    rw [length_cons, length_take_of_le (by omega)]
  rw [trim, part, takeWhile_append_of_pos allOf, takeWhile_cons_of_neg other, append_nil,
    dropWhile_append_of_pos allOf, dropWhile_cons_of_neg other, kept,
    len]
  simp only [trim] at isCount behind ⊢
  congr 1
  omega

end Trim

end Span

section Tokens

variable (start : σ) (advance : σ -> α -> Option σ)

/-- The tokens of a text from a position on, where one may have begun before
it. -/
def tokensFrom : Nat -> Option (Nat × σ) -> List α -> List Span
  | _, none, [] => []
  | pos, some (first, _), [] => [⟨first, pos⟩]
  | pos, none, item :: rest =>
    match advance start item with
    | none => tokensFrom (pos + 1) none rest
    | some state => tokensFrom (pos + 1) (some (pos, state)) rest
  | pos, some (first, state), item :: rest =>
    match advance state item with
    | none => ⟨first, pos⟩ :: tokensFrom (pos + 1) none rest
    | some state => tokensFrom (pos + 1) (some (first, state)) rest

/-- The tokens of a text. -/
def tokens (text : List α) : List Span := tokensFrom start advance 0 none text

theorem tokensFrom_shift (pos : Nat) (begun : Option (Nat × σ)) (text : List α) :
    tokensFrom start advance (offset + pos)
        (begun.map fun (first, s) => (offset + first, s)) text =
      (tokensFrom start advance pos begun text).map (Span.shift offset) := by
  induction text generalizing pos begun with
  | nil =>
    cases begun with
    | none => rfl
    | some token => rfl
  | cons item rest ih =>
    cases begun with
    | none =>
      rw [Option.map_none, tokensFrom, tokensFrom]
      cases advance start item with
      | none => exact ih (pos + 1) none
      | some s => exact ih (pos + 1) (some (pos, s))
    | some token =>
      obtain ⟨first, s⟩ := token
      rw [Option.map_some, tokensFrom, tokensFrom]
      cases advance s item with
      | none => exact congrArg _ (ih (pos + 1) none)
      | some s => exact ih (pos + 1) (some (first, s))

theorem tokensFrom_eq_shift (text : List α) : tokensFrom start advance pos none text =
      (tokens start advance text).map (Span.shift pos) :=
  tokensFrom_shift start advance 0 none text

variable {start advance}

/-- Every token begins at the position or behind it, or had begun before. -/
theorem le_first_of_mem_tokensFrom (mem : span ∈ tokensFrom start advance pos begun text)
    (before : ∀ token ∈ begun, bound <= token.1) (atPosition : bound <= pos) :
    bound <= span.first := by
  induction text generalizing pos begun with
  | nil =>
    cases begun with
    | none => cases mem
    | some token =>
      rw [mem_singleton.mp mem]
      exact before token rfl
  | cons item rest ih =>
    cases begun with
    | none =>
      rw [tokensFrom] at mem
      cases read : advance start item with
      | none =>
        rw [read] at mem
        exact ih mem (fun _ isBegun => by cases isBegun) (by omega)
      | some s =>
        rw [read] at mem
        refine ih mem ?_ (by omega)
        rintro token ⟨⟩
        exact atPosition
    | some token =>
      obtain ⟨first, s⟩ := token
      have firstBound := before (first, s) rfl
      rw [tokensFrom] at mem
      cases read : advance s item with
      | none =>
        rw [read] at mem
        rcases mem_cons.mp mem with rfl | later
        · exact firstBound
        · exact ih later (fun _ isBegun => by cases isBegun) (by omega)
      | some s =>
        rw [read] at mem
        refine ih mem ?_ (by omega)
        rintro token ⟨⟩
        exact firstBound

/-- Tokens lie in the text and are not empty. -/
theorem mem_tokensFrom_inside (mem : span ∈ tokensFrom start advance pos begun text)
    (before : ∀ token ∈ begun, token.1 < pos) :
    span.first < span.last ∧ span.last <= pos + text.length := by
  induction text generalizing pos begun with
  | nil =>
    cases begun with
    | none => cases mem
    | some token =>
      rw [mem_singleton.mp mem]
      exact ⟨before token rfl, Nat.le_refl _⟩
  | cons item rest ih =>
    rw [length_cons]
    cases begun with
    | none =>
      rw [tokensFrom] at mem
      cases read : advance start item with
      | none =>
        rw [read] at mem
        have inside := ih mem (fun _ isBegun => by cases isBegun)
        omega
      | some s =>
        rw [read] at mem
        have inside := ih mem (by
          rintro token ⟨⟩
          exact Nat.lt_succ_self _)
        omega
    | some token =>
      obtain ⟨first, s⟩ := token
      have firstBound := before (first, s) rfl
      rw [tokensFrom] at mem
      cases read : advance s item with
      | none =>
        rw [read] at mem
        rcases mem_cons.mp mem with rfl | later
        · exact ⟨firstBound, by dsimp only; omega⟩
        · have inside := ih later (fun _ isBegun => by cases isBegun)
          omega
      | some s =>
        rw [read] at mem
        have inside := ih mem (by
          rintro token ⟨⟩
          exact Nat.lt_succ_of_lt firstBound)
        omega

/-- A delimiter that is one in every state separates the tokens. -/
theorem tokensFrom_append_delimiter (stops : ∀ s, advance s delimiter = none)
    (pos : Nat) (begun : Option (Nat × σ)) (front back : List α) :
    tokensFrom start advance pos begun (front ++ delimiter :: back) =
      tokensFrom start advance pos begun front ++
        tokensFrom start advance (pos + front.length + 1) none back := by
  induction front generalizing pos begun with
  | nil =>
    cases begun with
    | none => simp [tokensFrom, stops]
    | some token =>
      simp [tokensFrom, stops]
  | cons item rest ih =>
    have far : pos + (item :: rest).length + 1 = pos + 1 + rest.length + 1 := by
      rw [length_cons]
      omega
    rw [cons_append, far]
    cases begun with
    | none =>
      rw [tokensFrom, tokensFrom]
      cases advance start item with
      | none => exact ih (pos + 1) none
      | some s => exact ih (pos + 1) (some (pos, s))
    | some token =>
      obtain ⟨first, s⟩ := token
      rw [tokensFrom, tokensFrom]
      cases advance s item with
      | none => exact congrArg _ (ih (pos + 1) none)
      | some s => exact ih (pos + 1) (some (first, s))

/-- A token goes on over a text in which the scanner does not stop. -/
theorem tokensFrom_run (run : text.foldlM advance s = some last) :
    tokensFrom start advance pos (some (first, s)) (text ++ rest) =
      tokensFrom start advance (pos + text.length) (some (first, last)) rest := by
  induction text generalizing pos s with
  | nil =>
    cases run
    rfl
  | cons item tail ih =>
    rw [foldlM_cons] at run
    obtain ⟨next, advanced, run⟩ := Option.bind_eq_some_iff.mp run
    rw [cons_append, tokensFrom, advanced]
    dsimp only
    rw [ih run, length_cons, Nat.add_assoc, Nat.add_comm 1]

/-- A token that has begun is the first one, and the others are behind it. -/
theorem tokensFrom_begun (pos first : Nat) (s : σ) (text : List α) :
    ∃ last more, tokensFrom start advance pos (some (first, s)) text =
      ⟨first, last⟩ :: more ∧ ∀ span ∈ more, pos <= span.first := by
  induction text generalizing pos s with
  | nil => exact ⟨pos, [], rfl, fun _ mem => by cases mem⟩
  | cons item rest ih =>
    rw [tokensFrom]
    cases advance s item with
    | none =>
      refine ⟨pos, _, rfl, fun span mem => ?_⟩
      exact le_first_of_mem_tokensFrom mem (fun _ isBegun => by cases isBegun) (Nat.le_succ _)
    | some s =>
      obtain ⟨last, more, split, behind⟩ := ih (pos + 1) s
      exact ⟨last, more, split, fun span mem => Nat.le_of_succ_le (behind span mem)⟩

/-- A text that ends inside a token has the tokens in front of it, and the
front of that one. -/
theorem tokensFrom_take
    (split : tokensFrom start advance pos begun text = before ++ ⟨first, last⟩ :: after)
    (behind : first < stop) (inside : stop <= last) (far : pos <= stop) :
    tokensFrom start advance pos begun (text.take (stop - pos)) = before ++ [⟨first, stop⟩] := by
  induction text generalizing pos begun before with
  | nil =>
    cases begun with
    | none =>
      have some_ := congrArg List.length split
      rw [length_append, length_cons] at some_
      cases some_
    | some token =>
      cases before with
      | nil =>
        cases split
        rw [Nat.le_antisymm inside far, take_nil]
        rfl
      | cons head before =>
        have none_ := append_eq_nil_iff.mp (List.cons.inj split).2.symm
        cases none_.2
  | cons item rest ih =>
    rcases Nat.eq_or_lt_of_le far with rfl | further
    · rw [Nat.sub_self, take_zero]
      have mem : (⟨first, last⟩ : Span) ∈ tokensFrom start advance pos begun (item :: rest) := by
        rw [split]
        exact mem_append_right _ mem_cons_self
      cases begun with
      | none =>
        have notBefore := le_first_of_mem_tokensFrom mem
          (fun _ isBegun => by cases isBegun) (Nat.le_refl pos)
        exact absurd behind (Nat.not_lt_of_le notBefore)
      | some token =>
        obtain ⟨begunFirst, s⟩ := token
        obtain ⟨begunLast, more, isSplit, later⟩ :=
          @tokensFrom_begun σ α start advance pos begunFirst s (item :: rest)
        rw [isSplit] at split
        cases before with
        | nil =>
          cases split
          rfl
        | cons head before =>
          have inMore : (⟨first, last⟩ : Span) ∈ more := by
            rw [(List.cons.inj split).2]
            exact mem_append_right _ mem_cons_self
          exact absurd behind (Nat.not_lt_of_le (later _ inMore))
    · rw [show stop - pos = stop - (pos + 1) + 1 by omega, take_succ_cons]
      cases begun with
      | none =>
        rw [tokensFrom] at split ⊢
        cases read : advance start item with
        | none =>
          rw [read] at split
          exact ih split further
        | some s =>
          rw [read] at split
          exact ih split further
      | some token =>
        obtain ⟨begunFirst, s⟩ := token
        rw [tokensFrom] at split ⊢
        cases read : advance s item with
        | none =>
          rw [read] at split
          cases before with
          | nil =>
            cases split
            exact absurd further (Nat.not_lt_of_le inside)
          | cons head before =>
            obtain ⟨rfl, splitRest⟩ := List.cons.inj split
            exact congrArg _ (ih splitRest further)
        | some s =>
          rw [read] at split
          exact ih split further

end Tokens

end Chromium.Library
