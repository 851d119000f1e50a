import Chromium.Json.JSONReader

/-!
# Eating space

The reader eats the space in front of a token, all of it and nothing else.
-/

namespace Chromium.Json

open List Option
open Base

variable {w content behind junk : List Nat}

theorem lineComment_content (inside : NoNewline content) (plain : 0 ∉ content)
    (ends : lineComment p = some left) : lineComment (content ++ p) = some left := by
  induction content with
  | nil => exact ends
  | cons first content ih =>
    rw [mem_cons, not_or] at plain
    have notEnd := inside first mem_cons_self
    rw [cons_append, lineComment, if_neg (Ne.symm plain.1), if_neg (not_or.mpr notEnd)]
    exact ih (forall_mem_cons.mp inside).2 plain.2

theorem lineComment_append (inside : NoNewline content) (plain : 0 ∉ content)
    (ends : c = 0x0a ∨ c = 0x0d) :
    lineComment (content ++ c :: p) = some p := by
  refine lineComment_content inside plain ?_
  rcases ends with rfl | rfl
  · rfl
  · rfl

theorem lineComment_open (inside : NoNewline content) (plain : 0 ∉ content) :
    lineComment (content ++ 0 :: junk) = some (0 :: junk) :=
  lineComment_content inside plain rfl

/-- No comment ends behind the first character of a text in which none does. -/
theorem NoCommentEnd.tail (inside : NoCommentEnd (first :: content)) : NoCommentEnd content :=
  fun inContent => inside (inContent.trans (suffix_cons _ _).isInfix)

/-- The loop over a block comment goes on where there is no end of it. -/
theorem blockComment_cons {next : Nat} (some_ : first ≠ 0)
    (goesOn : ¬ (first = 0x2a ∧ next = 0x2f)) :
    blockComment (first :: next :: p) = blockComment (next :: p) := by
  rw [blockComment, if_neg some_]
  by_cases star : first = 0x2a
  · rw [if_pos star, List.head?_cons]
    dsimp only
    rw [if_neg fun isSlash => goesOn ⟨star, isSlash⟩]
  · rw [if_neg star]

theorem blockComment_content (inside : NoCommentEnd content) (plain : 0 ∉ content)
    (notSlash : c ≠ 0x2f) (ends : blockComment (c :: p) = some left) :
    blockComment (content ++ c :: p) = some left := by
  induction content with
  | nil => exact ends
  | cons first content ih =>
    rw [mem_cons, not_or] at plain
    have rest := ih inside.tail plain.2
    cases content with
    | nil =>
      rw [singleton_append, blockComment_cons (Ne.symm plain.1) fun both => notSlash both.2]
      exact rest
    | cons next content =>
      rw [cons_append, cons_append, blockComment_cons (Ne.symm plain.1)]
      · exact rest
      · rintro ⟨rfl, rfl⟩
        exact inside (prefix_append [0x2a, 0x2f] content).isInfix

theorem blockComment_append (inside : NoCommentEnd content) (plain : 0 ∉ content) :
    blockComment (content ++ 0x2a :: 0x2f :: p) = some p :=
  blockComment_content inside plain (by decide) rfl

theorem blockComment_open (inside : NoCommentEnd content) (plain : 0 ∉ content) :
    blockComment (content ++ 0 :: junk) = some (0 :: junk) :=
  blockComment_content inside plain (by decide) rfl

/-- Neither whitespace nor a comment starts at a pointer. -/
def Stops (p : Pointer) : Prop :=
  ∃ c behind, p = c :: behind ∧ isWhitespace c = false ∧
    (c = 0x2f -> ∃ next, behind.head? = some next ∧ next ≠ 0x2f ∧ next ≠ 0x2a)

theorem stops_zero : Stops (0 :: junk) :=
  ⟨0, junk, rfl, rfl, fun isSlash => absurd isSlash (by decide)⟩

theorem stops_of_ne (notWhite : isWhitespace c = false) (notSlash : c ≠ 0x2f) : Stops (c :: p) :=
  ⟨c, p, rfl, notWhite, fun isSlash => absurd isSlash notSlash⟩

theorem eatSpace_of_stops (stops : Stops p) : eatSpace (fuel + 1) p = some p := by
  obtain ⟨c, behind, rfl, notWhite, noComment⟩ := stops
  rw [eatSpace]
  simp only [List.head?_cons, bind_eq_bind, bind_some, notWhite, Bool.false_eq_true, if_false]
  by_cases terminator : c = 0
  · rw [if_pos terminator]
  rw [if_neg terminator]
  by_cases slash : c = 0x2f
  · obtain ⟨next, isNext, notSlash, notStar⟩ := noComment slash
    cases behind with
    | nil => cases isNext
    | cons first behind =>
      obtain rfl := some.inj isNext
      simp [eatComment, slash, notSlash, notStar]
  · rw [if_neg slash]

theorem eatComment_line : eatComment (0x2f :: 0x2f :: p) =
      (lineComment p).map fun behind => (true, behind) := rfl

theorem eatComment_block : eatComment (0x2f :: 0x2a :: p) =
      (blockComment p).map fun behind => (true, behind) := rfl

theorem eatSpace_slash : eatSpace (fuel + 1) (0x2f :: p) =
      (eatComment (0x2f :: p)).bind fun eaten =>
        if eaten.1 then eatSpace fuel eaten.2 else some eaten.2 := rfl

/-- Space is eaten in no more steps than it has characters. -/
theorem eatSpace_append (space : Space w) (plain : 0 ∉ w) :
    ∃ steps ≤ w.length, ∀ fuel p, eatSpace (fuel + steps) (w ++ p) = eatSpace fuel p := by
  induction space with
  | nil => exact ⟨0, Nat.le_refl _, fun fuel p => rfl⟩
  | @white c behind isWhite rest ih =>
    rw [mem_cons, not_or] at plain
    obtain ⟨steps, few, eats⟩ := ih plain.2
    refine ⟨steps + 1, Nat.succ_le_succ few, fun fuel p => ?_⟩
    rw [← eats fuel p, ← Nat.add_assoc, cons_append, eatSpace]
    simp [Ne.symm plain.1, isWhite]
  | @line content c behind inside ends rest ih =>
    simp only [mem_cons, mem_append, not_or] at plain
    obtain ⟨steps, few, eats⟩ := ih plain.2.2.2.2
    refine ⟨steps + 1, ?_, fun fuel p => ?_⟩
    · simp only [length_cons, length_append]
      omega
    · have comment := lineComment_append (p := behind ++ p) inside plain.2.2.1 ends
      rw [← eats fuel p, ← Nat.add_assoc, cons_append, cons_append,
        append_assoc, cons_append, eatSpace_slash, eatComment_line,
        comment]
      rfl
  | @block content behind inside rest ih =>
    simp only [mem_cons, mem_append, not_or] at plain
    obtain ⟨steps, few, eats⟩ := ih plain.2.2.2.2.2
    refine ⟨steps + 1, ?_, fun fuel p => ?_⟩
    · simp only [length_cons, length_append]
      omega
    · have comment := blockComment_append (p := behind ++ p) inside plain.2.2.1
      rw [← eats fuel p, ← Nat.add_assoc, cons_append, cons_append,
        append_assoc, cons_append, cons_append, eatSpace_slash,
        eatComment_block, comment]
      rfl

theorem eatWhitespaceAndComments_append (space : Space w) (plain : 0 ∉ w) (stops : Stops p) :
    eatWhitespaceAndComments (w ++ p) = some p := by
  obtain ⟨steps, few, eats⟩ := eatSpace_append space plain
  obtain ⟨c, behind, rfl, -⟩ := id stops
  have len : (w ++ c :: behind).length = w.length - steps + behind.length + 1 + steps := by
    rw [length_append, length_cons]
    omega
  rw [eatWhitespaceAndComments, len, eats]
  exact eatSpace_of_stops stops

/-- Space is eaten up to the end of the text, where its last comment need not
end. -/
theorem eatWhitespaceAndComments_last (space : LastSpace w) (plain : 0 ∉ w) :
    eatWhitespaceAndComments (w ++ 0 :: junk) = some (0 :: junk) := by
  cases space with
  | closed space => exact eatWhitespaceAndComments_append space plain stops_zero
  | @open_ w content space comment =>
    rw [mem_append, not_or] at plain
    obtain ⟨steps, few, eats⟩ := eatSpace_append space plain.1
    have len : (w ++ content ++ 0 :: junk).length =
        w.length - steps + content.length + junk.length + 1 + steps := by
      simp only [length_append, length_cons]
      omega
    rw [eatWhitespaceAndComments, len, append_assoc, eats]
    cases comment with
    | @line content inside =>
      simp only [mem_cons, not_or] at plain
      rw [cons_append, cons_append, eatSpace_slash,
        eatComment_line, lineComment_open inside plain.2.2.2]
      simp only [map_some, bind_some, if_true, length_cons]
      rw [show w.length - steps + (content.length + 1 + 1) + junk.length =
        w.length - steps + (content.length + 1) + junk.length + 1 by omega]
      exact eatSpace_of_stops stops_zero
    | @block content inside =>
      simp only [mem_cons, not_or] at plain
      rw [cons_append, cons_append, eatSpace_slash,
        eatComment_block, blockComment_open inside plain.2.2.2]
      simp only [map_some, bind_some, if_true, length_cons]
      rw [show w.length - steps + (content.length + 1 + 1) + junk.length =
        w.length - steps + (content.length + 1) + junk.length + 1 by omega]
      exact eatSpace_of_stops stops_zero

theorem Space.append (space : Space w) (other : Space behind) : Space (w ++ behind) := by
  induction space with
  | nil => exact other
  | white isWhite _ ih => exact .white isWhite ih
  | line inside ends _ ih =>
    rw [cons_append, cons_append, append_assoc, cons_append]
    exact .line inside ends ih
  | block inside _ ih =>
    rw [cons_append, cons_append, append_assoc, cons_append, cons_append]
    exact .block inside ih

/-- A text has a first line, or it is one line. -/
theorem newline_or (text : List Nat) : NoNewline text ∨ ∃ content c behind,
      text = content ++ c :: behind ∧ NoNewline content ∧ (c = 0x0a ∨ c = 0x0d) := by
  induction text with
  | nil => exact .inl fun c mem => absurd mem not_mem_nil
  | cons first text ih =>
    by_cases ends : first = 0x0a ∨ first = 0x0d
    · exact .inr ⟨[], first, text, rfl, forall_mem_nil _, ends⟩
    have notEnd := not_or.mp ends
    have inFront : ∀ content, NoNewline content -> NoNewline (first :: content) := by
      intro content inside c mem
      rcases mem_cons.mp mem with rfl | inContent
      · exact notEnd
      · exact inside c inContent
    rcases ih with inside | ⟨content, c, behind, rfl, inside, isEnd⟩
    · exact .inl (inFront text inside)
    · exact .inr ⟨first :: content, c, behind, rfl, inFront content inside, isEnd⟩

/-- A block comment ends in a text, or it does not. -/
theorem commentEnd_or (text : List Nat) : NoCommentEnd text ∨ ∃ content behind,
      text = content ++ 0x2a :: 0x2f :: behind ∧ NoCommentEnd content := by
  induction text with
  | nil =>
    refine .inl fun inNil => ?_
    rw [infix_nil] at inNil
    cases inNil
  | cons first text ih =>
    by_cases ends : [0x2a, 0x2f] <+: first :: text
    · obtain ⟨behind, isText⟩ := ends
      refine .inr ⟨[], behind, isText.symm, fun inNil => ?_⟩
      rw [infix_nil] at inNil
      cases inNil
    rcases ih with inside | ⟨content, behind, rfl, inside⟩
    · left
      intro inText
      rcases infix_cons_iff.mp inText with atFront | inRest
      · exact ends atFront
      · exact inside inRest
    · refine .inr ⟨first :: content, behind, rfl, fun inText => ?_⟩
      rcases infix_cons_iff.mp inText with atFront | inRest
      · exact ends (atFront.trans (prefix_append _ _))
      · exact inside inRest

/-- Every text is space, and a rest that does not start with space or is a
comment without an end. -/
theorem exists_space (text : List Nat) : ∃ w behind, text = w ++ behind ∧ Space w ∧
      (Stops (behind ++ 0 :: junk) ∨ OpenComment behind) := by
  induction h : text.length using Nat.strong_induction_on generalizing text with
  | h len ih =>
    subst h
    match text with
    | [] => exact ⟨[], [], rfl, .nil, .inl stops_zero⟩
    | first :: rest =>
      by_cases white : isWhitespace first = true
      · obtain ⟨w, behind, rfl, space, ends⟩ := ih rest.length (Nat.lt_succ_self _) rest rfl
        exact ⟨first :: w, behind, rfl, .white white space, ends⟩
      have notWhite := Bool.eq_false_iff.mpr white
      by_cases slash : first = 0x2f
      · subst slash
        match rest with
        | [] =>
          refine ⟨[], [0x2f], rfl, .nil, .inl ⟨0x2f, 0 :: junk, rfl, rfl,
            fun _ => ⟨0, rfl, by decide, by decide⟩⟩⟩
        | next :: rest =>
          by_cases isLine : next = 0x2f
          · subst isLine
            rcases newline_or rest with inside | ⟨content, c, after, rfl, inside, isEnd⟩
            · exact ⟨[], _, rfl, .nil, .inr (.line inside)⟩
            · obtain ⟨w, behind, rfl, space, ends⟩ := ih after.length (by
                  simp only [length_cons, length_append]
                  omega) after rfl
              exact ⟨_, behind, by simp, .line inside isEnd space, ends⟩
          by_cases isBlock : next = 0x2a
          · subst isBlock
            rcases commentEnd_or rest with inside | ⟨content, after, rfl, inside⟩
            · exact ⟨[], _, rfl, .nil, .inr (.block inside)⟩
            · obtain ⟨w, behind, rfl, space, ends⟩ := ih after.length (by
                  simp only [length_cons, length_append]
                  omega) after rfl
              exact ⟨_, behind, by simp, .block inside space, ends⟩
          · exact ⟨[], _, rfl, .nil, .inl ⟨0x2f, _, rfl, rfl,
              fun _ => ⟨next, rfl, isLine, isBlock⟩⟩⟩
      · exact ⟨[], _, rfl, .nil, .inl (stops_of_ne notWhite slash)⟩

/-- What is eaten of a text is space. It is all of the text, if its last
comment does not end. -/
theorem eatWhitespaceAndComments_eq (plain : 0 ∉ text) :
    ∃ w behind, text = w ++ behind ∧ LastSpace w ∧ (behind ≠ [] -> Space w) ∧
      Stops (behind ++ 0 :: junk) ∧
      eatWhitespaceAndComments (text ++ 0 :: junk) = some (behind ++ 0 :: junk) := by
  obtain ⟨w, behind, rfl, space, ends⟩ := exists_space text
  have plainBoth := plain
  rw [mem_append, not_or] at plainBoth
  rcases ends with stops | comment
  · refine ⟨w, behind, rfl, .closed space, fun _ => space, stops, ?_⟩
    rw [append_assoc]
    exact eatWhitespaceAndComments_append space plainBoth.1 stops
  · exact ⟨w ++ behind, [], (append_nil _).symm, .open_ space comment,
      fun some_ => absurd rfl some_, stops_zero,
      eatWhitespaceAndComments_last (.open_ space comment) plain⟩

end Chromium.Json
