import Chromium.Net.HeaderPersistence

/-!
# Headers as entries

A header set as the list of its header lines, each with the name and the values
that are found in it. The part of a line that is written back has the same
name and values.
-/

namespace Chromium.Net

open List hiding beq_eq_decide iter length span
open Library (Span tokens tokensFrom)
open HttpUtil

/-- A header with all its values, and the part of its line that is written. -/
structure Entry where
  name : Bytes
  values : List Bytes
  line : Bytes
deriving DecidableEq

/-- The lower case name. -/
def Entry.lower (entry : Entry) : Bytes := entry.name.map toLowerASCII

def entryOfLine (line : Bytes) : Option Entry :=
  match headerOfLine line with
  | none => none
  | some header =>
    match valuesInLine line header with
    | [] => none
    | value :: continuations =>
      some {
        name := header.name.of line
        values := (value :: continuations).map (·.of line)
        line := Span.of ⟨header.name.first, (continuations.getLastD value).last⟩ line
      }

/-- The entries of the lines of a text. -/
def entriesOf (text : Bytes) : List Entry := (lineTexts text).filterMap entryOfLine

section

variable (found : headerOfLine line = some header)
include found

theorem headerOfLine_some : line.findIdx (· == 0x3a) < line.length ∧ line.findIdx (· == 0x3a) ≠ 0 ∧
      isLWS (line.getD 0 0) = false ∧ header.name = trimLWS line ⟨0, line.findIdx (· == 0x3a)⟩ ∧
      header.values = trimLWS line ⟨line.findIdx (· == 0x3a) + 1, line.length⟩ := by
  have colonInside : line.findIdx (· == 0x3a) <= line.length := findIdx_le_length
  unfold headerOfLine at found
  dsimp only at found
  split at found
  · cases found
  next hasColon =>
    split at found
    · cases found
    next ok =>
      rw [not_or, Bool.not_eq_true] at ok
      split at found
      · cases found
      · cases found
        exact ⟨Nat.lt_of_le_of_ne colonInside hasColon, ok.1, ok.2, rfl, rfl⟩

theorem headerOfLine_name_first : header.name.first = 0 := by
  obtain ⟨inside, some_, notSpace, name, _⟩ := headerOfLine_some found
  rw [name, trimLWS, Span.trim, Span.of]
  cases line with
  | nil => cases inside
  | cons c rest =>
    obtain ⟨fewer, isColon⟩ := Nat.exists_eq_succ_of_ne_zero some_
    rw [isColon, take_succ_cons]
    have other : ¬isLWS c = true := Bool.eq_false_iff.mp notSpace
    simp only [drop_zero]
    rw [takeWhile_cons_of_neg other]
    rfl

/-- A line that ends in the values of its header has the same header, with
fewer values. -/
theorem headerOfLine_take (behind : header.values.first < stop) (before : stop ≤ header.values.last)
    (last : ∀ item ∈ (line.take stop).getLast?, isLWS item = false) :
    headerOfLine (line.take stop) = some ⟨header.name, ⟨header.values.first, stop⟩⟩ := by
  obtain ⟨nameOrdered, nameBefore, ordered, inside⟩ := headerOfLine_inside found
  obtain ⟨colonInside, some_, notSpace, name, values_⟩ := headerOfLine_some found
  generalize isColon : line.findIdx (· == 0x3a) = colon at *
  have colonBefore : colon < header.values.first := by
    have isInside := @Span.trim_inside _ line ⟨colon + 1, line.length⟩ isLWS
      colonInside (Nat.le_refl _)
    rw [values_]
    exact isInside.1
  have sameColon : (line.take stop).findIdx (· == 0x3a) = colon := by
    rw [findIdx_take, isColon]
    omega
  have sameFirst : (line.take stop).getD 0 0 = line.getD 0 0 := by
    cases line with
    | nil => rw [take_nil]
    | cons c rest =>
      obtain ⟨fewer, rfl⟩ := Nat.exists_eq_succ_of_ne_zero (show stop ≠ 0 by omega)
      rfl
  have sameName : trimLWS (line.take stop) ⟨0, colon⟩ = header.name := by
    rw [name]
    exact Span.trim_congr (Span.of_take (by dsimp only; omega))
  have len : (line.take stop).length = stop := length_take_of_le (Nat.le_trans before inside)
  have sameValues : trimLWS (line.take stop) ⟨colon + 1, stop⟩ = ⟨header.values.first, stop⟩ := by
    rw [values_] at behind before ⊢
    exact @Span.trim_take _ isLWS ⟨colon + 1, line.length⟩ line colonInside
      (Nat.le_refl _) stop behind before last
  unfold headerOfLine
  dsimp only
  rw [sameColon, sameFirst, len, sameName, sameValues, notSpace,
    if_neg (show colon ≠ stop by omega),
    if_neg (show ¬(colon = 0 ∨ false = true) by
      rw [not_or]
      exact ⟨some_, Bool.false_ne_true⟩),
    if_neg (Nat.ne_of_lt nameOrdered)]

end

/-- A text that ends in its last value has the same values. -/
theorem values_take (split : values text = before ++ [val]) :
    values (text.take val.last) = before ++ [val] := by
  obtain ⟨front, back, isTrimmed, isFront, isBack⟩ := filter_eq_append_iff.mp split
  obtain ⟨passed, later, rfl, none_, ne, isLater⟩ := filter_eq_cons_iff.mp isBack
  obtain ⟨frontTokens, backTokens, isTokens, rfl, isBackTokens⟩ := map_eq_append_iff.mp isTrimmed
  obtain ⟨passedTokens, laterTokens, rfl, rfl, isLaterTokens⟩ := map_eq_append_iff.mp isBackTokens
  obtain ⟨token, restTokens, rfl, rfl, rfl⟩ := map_eq_cons_iff.mp isLaterTokens
  have isToken : token ∈ tokens {} advanceOne text := by
    rw [isTokens]
    simp
  have tokenInside := Library.mem_tokensFrom_inside isToken (fun _ begun => by cases begun)
  rw [Nat.zero_add] at tokenInside
  have ordered := Nat.le_of_lt tokenInside.1
  have valueInside := Span.trim_inside isLWS ordered tokenInside.2
  have proper : (trimLWS text token).first < (trimLWS text token).last :=
    Nat.lt_of_le_of_ne valueInside.2.1 (of_decide_eq_true ne)
  have cutTokens : tokens {} advanceOne (text.take (trimLWS text token).last) =
        (frontTokens ++ passedTokens) ++ [⟨token.first, (trimLWS text token).last⟩] := by
    have whole : tokensFrom {} advanceOne 0 none text =
        (frontTokens ++ passedTokens) ++ ⟨token.first, token.last⟩ :: restTokens := by
      rw [append_assoc]
      exact isTokens
    exact Library.tokensFrom_take whole (Nat.lt_of_le_of_lt valueInside.1 proper) valueInside.2.2
      (Nat.zero_le _)
  have sameValue : trimLWS (text.take (trimLWS text token).last)
      ⟨token.first, (trimLWS text token).last⟩ = trimLWS text token :=
    Span.trim_take ordered tokenInside.2 proper (Nat.le_refl _)
      (Span.trim_last ordered tokenInside.2 proper)
  have sameBefore : (frontTokens ++ passedTokens).map
      (trimLWS (text.take (trimLWS text token).last)) =
        (frontTokens ++ passedTokens).map (trimLWS text) := by
    apply map_congr_left
    intro other mem
    have isOther : other ∈ tokens {} advanceOne (text.take (trimLWS text token).last) := by
      rw [cutTokens]
      exact mem_append_left _ mem
    have otherInside := Library.mem_tokensFrom_inside isOther (fun _ begun => by cases begun)
    have short := length_take_le (trimLWS text token).last text
    exact Span.trim_congr (Span.of_take (by omega))
  have noPassed : (passedTokens.map (trimLWS text)).filter
      (fun val => val.first ≠ val.last) = [] :=
    filter_eq_nil_iff.mpr none_
  rw [values, cutTokens, map_append, sameBefore, map_append,
    map_singleton, sameValue, filter_append, filter_append,
    isFront, noPassed, append_nil]
  exact congrArg _ (filter_cons_of_pos ne)

/-- The last byte of a value is not white space. -/
theorem values_last (mem : value ∈ values text) :
    ∀ item ∈ (text.take value.last).getLast?, isLWS item = false := by
  obtain ⟨trimmed, ne⟩ := mem_filter.mp mem
  obtain ⟨token, isToken, rfl⟩ := List.mem_map.mp trimmed
  have inside := Library.mem_tokensFrom_inside isToken (fun _ begun => by cases begun)
  rw [Nat.zero_add] at inside
  have valueInside := Span.trim_inside isLWS (Nat.le_of_lt inside.1) inside.2
  exact Span.trim_last (Nat.le_of_lt inside.1) inside.2
    (Nat.lt_of_le_of_ne valueInside.2.1 (of_decide_eq_true ne))

theorem valuesInLine_take (hit : headerOfLine line = some header)
    (split : valuesInLine line header = before ++ [val]) :
    ∃ again, headerOfLine (line.take val.last) = some again ∧ again.name = header.name ∧
      again.values.last <= val.last ∧
      valuesInLine (line.take val.last) again = before ++ [val] := by
  obtain ⟨nameOrdered, nameBefore, ordered, inside⟩ := headerOfLine_inside hit
  obtain ⟨colonInside, _, _, _, isValues⟩ := headerOfLine_some hit
  have sameName : ∀ stop, header.values.first <= stop ->
      header.name.of (line.take stop) = header.name.of line := fun stop far =>
    Span.of_take (by omega)
  by_cases empty : header.values.first = header.values.last
  · -- No value is found, and the whole line is written.
    have isWhole : header.values.last = line.length := by
      rw [isValues] at empty ⊢
      exact @Span.trim_empty _ isLWS ⟨_ + 1, line.length⟩ line colonInside (Nat.le_refl _) empty
    have isValue : val = header.values := by
      rw [valuesInLine, if_pos (Or.inl empty)] at split
      exact singleton_inj.mp (append_inj_right'
        (show [] ++ [header.values] = before ++ [val] from split) rfl).symm
    rw [isValue, isWhole, take_length]
    exact ⟨header, hit, rfl, Nat.le_of_eq isWhole, isValue ▸ split⟩
  · have proper : header.values.first < header.values.last := Nat.lt_of_le_of_ne ordered empty
    by_cases whole : isNonCoalescingHeader (header.name.of line)
    · have isValue : val = header.values := by
        rw [valuesInLine, if_pos (Or.inr whole)] at split
        exact singleton_inj.mp (append_inj_right'
          (show [] ++ [header.values] = before ++ [val] from split) rfl).symm
      have isLast : ∀ item ∈ (line.take header.values.last).getLast?, isLWS item = false := by
        rw [isValues] at proper ⊢
        exact @Span.trim_last _ isLWS ⟨_ + 1, line.length⟩ line colonInside (Nat.le_refl _) proper
      subst isValue
      refine ⟨header, headerOfLine_take hit proper (Nat.le_refl _) isLast, rfl, Nat.le_refl _, ?_⟩
      rw [← split, valuesInLine, valuesInLine, sameName _ ordered]
      rw [if_pos (Or.inr whole), if_pos (Or.inr whole)]
    · -- The values are split up, and commas behind the last one are left out.
      rw [valuesInLine, if_neg (not_or.mpr ⟨empty, whole⟩)] at split
      obtain ⟨beforeInner, lastInner, isSplit, rfl, isLastInner⟩ := map_eq_append_iff.mp split
      obtain ⟨inner, rfl, rfl⟩ := map_eq_singleton_iff.mp isLastInner
      have isMem : inner ∈ values (header.values.of line) := by
        rw [isSplit]
        exact mem_append_right _ mem_cons_self
      obtain ⟨innerProper, innerInside⟩ := values_inside isMem
      have fits := innerInside
      rw [Span.length_of inside] at fits
      have begins : header.values.first <=
          (inner.shift header.values.first).last := Nat.le_add_right _ _
      have before_ : (inner.shift header.values.first).last <= header.values.last := by
        dsimp only [Span.shift]
        omega
      have isInner : (inner.shift header.values.first).last -
          header.values.first = inner.last := Nat.add_sub_cancel_left _ _
      have isLast : ∀ item ∈ (line.take (inner.shift header.values.first).last).getLast?,
            isLWS item = false := by
        rw [Span.take_append_of begins before_, isInner, getLast?_append_of_ne_nil]
        · exact values_last isMem
        · apply ne_nil_of_length_pos
          rw [length_take_of_le innerInside]
          exact Nat.lt_of_le_of_lt (Nat.zero_le _) innerProper
      refine ⟨_, headerOfLine_take hit ?_ before_ isLast, rfl, Nat.le_refl _, ?_⟩
      · dsimp only [Span.shift]
        omega
      · have cutValues : Span.of ⟨header.values.first, (inner.shift header.values.first).last⟩
                (line.take (inner.shift header.values.first).last) =
              (header.values.of line).take inner.last := by
          rw [Span.of_take (Nat.le_refl _), ← Span.take_of begins before_, isInner]
        have notEmpty : ¬header.values.first = (inner.shift header.values.first).last := by omega
        unfold valuesInLine
        rw [sameName _ begins, if_neg (not_or.mpr ⟨notEmpty, whole⟩), cutValues,
          values_take isSplit, map_append, map_singleton]

theorem entryOfLine_of (hit : headerOfLine line = some header)
    (split : valuesInLine line header = before ++ [value]) :
    entryOfLine line =
      some {
        name := header.name.of line
        values := (before ++ [value]).map (·.of line)
        line := line.take value.last
      } := by
  unfold entryOfLine
  rw [hit]
  dsimp only
  rw [headerOfLine_name_first hit]
  cases before with
  | nil =>
    rw [split]
    rfl
  | cons first between =>
    rw [split]
    dsimp only [cons_append]
    rw [getLastD_concat]
    rfl

section

variable (found : entryOfLine line = some entry)
include found

theorem entryOfLine_some : ∃ header before val, headerOfLine line = some header ∧
      valuesInLine line header = before ++ [val] := by
  unfold entryOfLine at found
  split at found
  · cases found
  next header isHeader =>
    split at found
    · cases found
    next first continuations isValues =>
      exact ⟨header, (first :: continuations).dropLast, _, isHeader,
        isValues.trans (dropLast_append_getLast (cons_ne_nil _ _)).symm⟩

/-- The part of a line that is written has the same entry. -/
theorem entryOfLine_line : entryOfLine entry.line = some entry := by
  obtain ⟨header, before, val, isHeader, split⟩ := entryOfLine_some found
  rw [entryOfLine_of isHeader split] at found
  cases found
  obtain ⟨again, isAgain, name, valuesBefore, splitAgain⟩ := valuesInLine_take isHeader split
  have nameBefore := headerOfLine_inside isAgain
  rw [entryOfLine_of isAgain splitAgain, take_take, Nat.min_self, name,
    Span.of_take (by rw [← name]; omega)]
  congr 2
  apply map_congr_left
  intro other mem
  rw [← splitAgain] at mem
  have inside := valuesInLine_inside isAgain mem
  exact Span.of_take (by omega)

theorem entry_line_ne_nil : entry.line ≠ [] := by
  intro empty
  have again := entryOfLine_line found
  rw [empty] at again
  cases again

theorem entry_line_subset : entry.line ⊆ line := by
  obtain ⟨header, before, val, isHeader, split⟩ := entryOfLine_some found
  rw [entryOfLine_of isHeader split] at found
  cases found
  exact take_subset _ _

theorem entry_values_ne_nil : entry.values ≠ [] := by
  obtain ⟨header, before, val, isHeader, split⟩ := entryOfLine_some found
  rw [entryOfLine_of isHeader split] at found
  cases found
  simp

theorem entry_values_subset (mem : value ∈ entry.values) : value ⊆ line := by
  obtain ⟨header, before, last, isHeader, split⟩ := entryOfLine_some found
  rw [entryOfLine_of isHeader split] at found
  cases found
  obtain ⟨span, _, rfl⟩ := List.mem_map.mp mem
  exact fun c inValue => take_subset _ _ (drop_subset _ _ inValue)

end

namespace HttpResponseHeaders

/-- A header and its continuations are those of an entry. -/
structure Represents (raw : Bytes)
    (group : ParsedHeader × List ParsedHeader) (entry : Entry) : Prop where
  isHeader : group.1.isContinuation = false
  continuations : ∀ header ∈ group.2, header.isContinuation = true
  name : group.1.name.of raw = entry.name
  values : (group.1 :: group.2).map (·.value.of raw) = entry.values
  line : Span.of ⟨group.1.name.first, (group.2.getLastD group.1).value.last⟩ raw = entry.line

/-- A line without an entry adds no header. -/
theorem parsedOfLine_none (size : Nat) (none_ : entryOfLine line = none) :
    parsedOfLine size offset line = [] := by
  unfold entryOfLine at none_
  unfold parsedOfLine
  split
  · rfl
  next header isHeader =>
    rw [isHeader] at none_
    dsimp only at none_
    split
    · rfl
    next value continuations isValues =>
      rw [isValues] at none_
      cases none_

theorem getLastD_map (f : α -> β) (items : List α) (item : α) :
    (items.map f).getLastD (f item) = f (items.getLastD item) := by
  rw [List.getLastD_eq_getLast?, List.getLastD_eq_getLast?, getLast?_map, Option.getD_map]

/-- A line with an entry adds a header with its continuations. -/
theorem parsedOfLine_some (lineAt : LineAt raw off line)
    (hit : entryOfLine line = some entry) :
    ∃ group, parsedOfLine raw.length off line = group.1 :: group.2 ∧
      Represents raw group entry := by
  obtain ⟨header, before, last, isHeader, split⟩ := entryOfLine_some hit
  obtain ⟨nameOrdered, nameBefore, ordered, inside⟩ := headerOfLine_inside isHeader
  have insides : ∀ val ∈ valuesInLine line header,
      val.last <= line.length := fun val mem => by
    have isInside := valuesInLine_inside isHeader mem
    omega
  unfold entryOfLine at hit
  rw [isHeader] at hit
  dsimp only at hit
  unfold parsedOfLine
  rw [isHeader]
  dsimp only
  cases isValues : valuesInLine line header with
  | nil =>
    rw [isValues] at hit
    cases hit
  | cons val continuations =>
    rw [isValues] at hit insides
    cases hit
    refine ⟨(_, _), rfl, ?_, ?_, ?_, ?_, ?_⟩
    · rw [ParsedHeader.isContinuation, beq_eq_false_iff_ne]
      simp only [Span.shift]
      omega
    · intro continuation mem
      obtain ⟨later, _, rfl⟩ := List.mem_map.mp mem
      exact beq_self_eq_true _
    · exact lineAt header.name (by omega)
    · rw [map_cons, List.map_map, map_cons]
      congr 1
      · exact lineAt val (insides val mem_cons_self)
      · apply map_congr_left
        intro later mem
        exact lineAt later (insides later (mem_cons_of_mem _ mem))
    · have isLast : ((continuations.map fun later =>
          (⟨⟨raw.length, raw.length⟩, later.shift off⟩ : ParsedHeader)).getLastD
              ⟨header.name.shift off, val.shift off⟩).value =
          (continuations.getLastD val).shift off := by
        rw [← getLastD_map ParsedHeader.value, List.map_map, ← getLastD_map (Span.shift off)]
        rfl
      have lastInside : (continuations.getLastD val).last <= line.length := by
        apply insides
        rw [← getLast_eq_getLastD (cons_ne_nil val continuations)]
        exact getLast_mem _
      rw [isLast]
      exact lineAt ⟨header.name.first, _⟩ lastInside

/-- The parsed headers are the groups of the entries. -/
theorem parsed_groups (isRaw : raw = front ++ text) :
    ∃ groups : List (ParsedHeader × List ParsedHeader),
      (HttpUtil.headers raw front.length).flatMap (addHeader raw) =
          groups.flatMap (fun group => group.1 :: group.2) ∧
        List.Forall₂ (Represents raw) groups (entriesOf text) := by
  subst isRaw
  rw [parsed_eq, entriesOf, lineTexts]
  have lineAts : ∀ span ∈ tokens () advanceLine text,
      LineAt (front ++ text) (front.length + span.first) (span.of text) :=
    fun span mem => lineAt_of_mem front mem
  generalize tokens () advanceLine text = spans at lineAts
  induction spans with
  | nil => exact ⟨[], rfl, Forall₂.nil⟩
  | cons span rest ih =>
    obtain ⟨groups, split, represents⟩ := ih (forall_mem_cons.mp lineAts).2
    rw [flatMap_cons, map_cons, split]
    cases hit : entryOfLine (span.of text) with
    | none =>
      refine ⟨groups, ?_, ?_⟩
      · rw [parsedOfLine_none _ hit, nil_append]
      · rw [filterMap_cons_none hit]
        exact represents
    | some entry =>
      obtain ⟨group, isGroup, isEntry⟩ := parsedOfLine_some (lineAts span mem_cons_self) hit
      refine ⟨group :: groups, ?_, ?_⟩
      · rw [isGroup, flatMap_cons]
      · rw [filterMap_cons_some hit]
        exact Forall₂.cons isEntry represents

variable {groups : List (ParsedHeader × List ParsedHeader)}
  {entries : List Entry} {headers : HttpResponseHeaders}

/-- Headers with their continuations are grouped as they are. -/
theorem groupFrom_flatMap (represents : List.Forall₂ (Represents raw) groups entries) :
    groupFrom (groups.flatMap fun group => group.1 :: group.2) = ([], groups) := by
  induction represents with
  | nil => rfl
  | @cons group entry rest entries isEntry _ ih =>
    have behind : ∀ headers : List ParsedHeader,
        (∀ header ∈ headers, header.isContinuation = true) ->
        groupFrom (headers ++ rest.flatMap fun group => group.1 :: group.2) = (headers, rest) := by
      intro headers all
      induction headers with
      | nil => exact ih
      | cons header more ih =>
        rw [cons_append, groupFrom, ih (forall_mem_cons.mp all).2]
        dsimp only
        rw [if_pos (all header mem_cons_self)]
    rw [flatMap_cons, cons_append, groupFrom, behind group.2 isEntry.continuations]
    dsimp only
    rw [isEntry.isHeader, if_neg Bool.false_ne_true]

/-- A header has a name, in any case. -/
def isNamed (headers : HttpResponseHeaders) (name : Bytes) (header : ParsedHeader) : Bool :=
  !header.isContinuation && (header.name.of headers.raw_headers).map toLowerASCII ==
      name.map toLowerASCII

/-- The values that are enumerated in headers, where the header in front of them
does or does not have the name. -/
def collect (headers : HttpResponseHeaders) (name : Bytes) : Bool -> List ParsedHeader -> List Bytes
  | _, [] => []
  | inside, header :: rest =>
    if (header.isContinuation && inside) || headers.isNamed name header then
      header.value.of headers.raw_headers :: collect headers name true rest
    else collect headers name (header.isContinuation && inside) rest

theorem collect_false (headers : HttpResponseHeaders) (parsed : List ParsedHeader) :
    headers.collect name false parsed = match parsed.findIdx? (headers.isNamed name) with
      | none => []
      | some index =>
        match parsed[index]? with
        | none => []
        | some header =>
          header.value.of headers.raw_headers ::
            headers.collect name true (parsed.drop (index + 1)) := by
  induction parsed with
  | nil => rfl
  | cons header rest ih =>
    rw [collect, Bool.and_false, Bool.false_or, findIdx?_cons]
    by_cases named : headers.isNamed name header = true
    · rw [if_pos named, if_pos named]
      rfl
    · rw [if_neg named, if_neg named, ih]
      cases rest.findIdx? (headers.isNamed name) with
      | none => rfl
      | some index => rfl

theorem findHeader_eq (headers : HttpResponseHeaders) (name : Bytes) (start : Nat) :
    (headers.findHeader start name = none ∧
      headers.collect name false (headers.parsed.drop start) = []) ∨
    ∃ i header, headers.findHeader start name = some i ∧ start <= i ∧
      headers.parsed[i]? = some header ∧ headers.collect name false (headers.parsed.drop start) =
        header.value.of headers.raw_headers ::
          headers.collect name true (headers.parsed.drop (i + 1)) := by
  have isFound : headers.findHeader start name =
      ((headers.parsed.drop start).findIdx? (headers.isNamed name)).map (start + ·) := rfl
  rw [isFound, collect_false]
  cases found : (headers.parsed.drop start).findIdx? (headers.isNamed name) with
  | none => exact Or.inl ⟨rfl, rfl⟩
  | some index =>
    have inside := (findIdx?_eq_some_iff_getElem.mp found).1
    have isHeader := List.getElem?_eq_getElem inside
    refine Or.inr ⟨start + index, _, rfl, Nat.le_add_right _ _,
      List.getElem?_drop.symm.trans isHeader, ?_⟩
    dsimp only
    rw [isHeader, drop_drop]
    rfl

theorem enumerateHeader_eq (headers : HttpResponseHeaders) (name : Bytes) (iter : Nat) :
    (headers.enumerateHeader iter name = none ∧
      headers.collect name (iter != 0) (headers.parsed.drop iter) = []) ∨
    ∃ i val, headers.enumerateHeader iter name = some (val, i + 1) ∧ iter <= i ∧
      headers.collect name (iter != 0) (headers.parsed.drop iter) =
        val :: headers.collect name true (headers.parsed.drop (i + 1)) := by
  -- Where no continuation is at the iterator, the next header is looked for.
  have lookUp : ∀ inside, headers.collect name inside (headers.parsed.drop iter) =
        headers.collect name false (headers.parsed.drop iter) ->
      headers.enumerateHeader iter name = (do
          let i ← headers.findHeader iter name
          let header ← headers.parsed[i]?
          some (header.value.of headers.raw_headers, i + 1)) ->
      (headers.enumerateHeader iter name = none ∧
        headers.collect name inside (headers.parsed.drop iter) = []) ∨
      ∃ i val, headers.enumerateHeader iter name = some (val, i + 1) ∧ iter <= i ∧
        headers.collect name inside (headers.parsed.drop iter) = val ::
            headers.collect name true (headers.parsed.drop (i + 1)) := by
    intro inside same enumerated
    rw [same, enumerated]
    rcases headers.findHeader_eq name iter with
      ⟨none_, isNil⟩ | ⟨i, header, hit, far, isHeader, isCons⟩
    · rw [none_]
      exact Or.inl ⟨rfl, isNil⟩
    · rw [hit]
      refine Or.inr ⟨i, _, ?_, far, isCons⟩
      simp only [Option.bind_eq_bind, Option.bind_some, isHeader]
  by_cases start : iter = 0
  · subst start
    exact lookUp false rfl rfl
  · rw [bne_iff_ne.mpr start]
    cases isHeader : headers.parsed[iter]? with
    | none =>
      left
      rw [drop_eq_nil_of_le (List.getElem?_eq_none_iff.mp isHeader),
        enumerateHeader, if_neg start, isHeader]
      exact ⟨rfl, rfl⟩
    | some header =>
      obtain ⟨inside, isGet⟩ := List.getElem?_eq_some_iff.mp isHeader
      have isDrop : headers.parsed.drop iter = header :: headers.parsed.drop (iter + 1) := by
        rw [drop_eq_getElem_cons inside, isGet]
      cases continues : header.isContinuation with
      | true =>
        refine Or.inr ⟨iter, header.value.of headers.raw_headers, ?_, Nat.le_refl _, ?_⟩
        · rw [enumerateHeader, if_neg start, isHeader]
          simp [continues, Option.bind_eq_bind, Option.bind_some, isHeader]
        · rw [isDrop, collect, continues]
          rfl
      | false =>
        apply lookUp true
        · rw [isDrop, collect, collect, continues]
          rfl
        · rw [enumerateHeader, if_neg start, isHeader]
          simp only [continues]
          rfl

theorem enumerateFrom_eq (headers : HttpResponseHeaders) (name : Bytes)
    (enough : headers.parsed.length < rounds + iter) :
    headers.enumerateFrom name rounds iter =
      headers.collect name (iter != 0) (headers.parsed.drop iter) := by
  induction rounds generalizing iter with
  | zero =>
    rw [drop_eq_nil_of_le (by omega)]
    rfl
  | succ rounds ih =>
    rw [enumerateFrom]
    rcases headers.enumerateHeader_eq name iter with
      ⟨none_, isNil⟩ | ⟨i, val, enumerated, far, isCons⟩
    · rw [none_, isNil]
    · rw [enumerated, isCons]
      dsimp only
      rw [ih (by omega)]
      rfl

theorem enumerate_eq (headers : HttpResponseHeaders) :
    headers.enumerate name = headers.collect name false headers.parsed :=
  headers.enumerateFrom_eq name (Nat.lt_succ_self _)

/-- A header set has a header if a value of it is enumerated. -/
theorem hasHeader_iff (headers : HttpResponseHeaders) :
    headers.hasHeader name = true ↔ headers.enumerate name ≠ [] := by
  rw [enumerate_eq, hasHeader]
  rcases headers.findHeader_eq name 0 with
    ⟨none_, isNil⟩ | ⟨i, header, hit, _, _, isCons⟩
  · rw [drop_zero] at isNil
    rw [none_, isNil]
    exact iff_of_false Bool.false_ne_true fun notNil => notNil rfl
  · rw [drop_zero] at isCons
    rw [hit, isCons]
    exact iff_of_true rfl (cons_ne_nil _ _)

theorem collect_continuations (headers : HttpResponseHeaders)
    (all : ∀ header ∈ continuations, header.isContinuation = true) :
    headers.collect name inside (continuations ++ rest) =
      (if inside then continuations.map (·.value.of headers.raw_headers)
        else []) ++ headers.collect name inside rest := by
  induction continuations with
  | nil => cases inside <;> rfl
  | cons header more ih =>
    have isRest := ih (forall_mem_cons.mp all).2
    have continues := all header mem_cons_self
    have notNamed : headers.isNamed name header = false := by
      rw [isNamed, continues]
      rfl
    rw [cons_append, collect, continues, notNamed, Bool.or_false, Bool.true_and]
    cases inside with
    | false => exact isRest
    | true => exact congrArg (header.value.of headers.raw_headers :: ·) isRest

/-- The values of the entries with a name. -/
def valuesNamed (entries : List Entry) (name : Bytes) : List Bytes :=
  entries.flatMap fun entry => if entry.lower = name.map toLowerASCII then entry.values else []

theorem collect_groups (represents : List.Forall₂ (Represents headers.raw_headers) groups entries) :
    headers.collect name inside (groups.flatMap fun group => group.1 :: group.2) =
      valuesNamed entries name := by
  induction represents generalizing inside with
  | nil => rfl
  | @cons group entry groups entries isEntry _ ih =>
    have named : headers.isNamed name group.1 = decide (entry.lower = name.map toLowerASCII) := by
      rw [isNamed, isEntry.isHeader, isEntry.name, Entry.lower, Bool.not_false,
        Bool.true_and, beq_eq_decide]
    rw [flatMap_cons, cons_append, collect, isEntry.isHeader, Bool.false_and, Bool.false_or, named,
      collect_continuations _ isEntry.continuations,
      collect_continuations _ isEntry.continuations, ih,
      ih, valuesNamed, valuesNamed, flatMap_cons,
      ← isEntry.values]
    by_cases same : entry.lower = name.map toLowerASCII
    · rw [if_pos (decide_eq_true same), if_pos same]
      rfl
    · rw [if_neg (by simpa using same), if_neg same]
      rfl

/-- A header set has exactly some entries, which are found again in their
lines. -/
structure Describes (headers : HttpResponseHeaders) (entries : List Entry) : Prop where
  enumerate : ∀ name, headers.enumerate name = valuesNamed entries name
  names : headers.groups.map (fun group => headers.lowerName group.1) = entries.map Entry.lower
  keptLines : ∀ keep, headers.keptLines keep =
    (entries.filter fun entry => keep entry.lower).flatMap fun entry => entry.line ++ [0]
  written : ∀ entry ∈ entries, entryOfLine entry.line = some entry
  noNull : ∀ entry ∈ entries, 0 ∉ entry.line
  hasValues : ∀ entry ∈ entries, entry.values ≠ []
  valuesNoNull : ∀ entry ∈ entries, ∀ value ∈ entry.values, 0 ∉ value

theorem keptLines_eq
    (represents : List.Forall₂ (Represents headers.raw_headers) headers.groups entries)
    (keep : Bytes -> Bool) :
    headers.keptLines keep = (entries.filter fun entry => keep entry.lower).flatMap fun entry =>
        entry.line ++ [0] := by
  unfold keptLines
  generalize headers.groups = groups at represents
  induction represents with
  | nil => rfl
  | @cons group entry groups entries isEntry _ ih =>
    have isLower : headers.lowerName group.1 = entry.lower := by
      rw [lowerName, isEntry.name, Entry.lower]
    have isLine : headers.lineOf group = entry.line := isEntry.line
    rw [flatMap_cons, isLower, isLine, ih, filter_cons]
    split_ifs
    · rw [flatMap_cons]
    · rw [nil_append]

theorem lowerNames_eq (represents : List.Forall₂ (Represents headers.raw_headers) groups entries) :
    groups.map (fun group => headers.lowerName group.1) = entries.map Entry.lower := by
  induction represents with
  | nil => rfl
  | cons isEntry _ ih => rw [map_cons, map_cons, ih, lowerName, isEntry.name, Entry.lower]

/-- The bytes of a line are not null. -/
theorem lineTexts_noNull (mem : line ∈ lineTexts text) : 0 ∉ line := by
  induction size : text.length using Nat.strong_induction_on generalizing text with
  | _ size_ ih
  by_cases hasNull : 0 ∈ text
  · have split := cStr_append_behind hasNull
    have len := congrArg List.length split
    rw [length_append, length_cons] at len
    rw [← split, lineTexts_append (not_mem_cStr text)] at mem
    rcases mem_append.mp mem with isFirst | isLater
    · split_ifs at isFirst with empty
      · cases isFirst
      · rw [mem_singleton.mp isFirst]
        exact not_mem_cStr text
    · exact ih _ (by omega) isLater rfl
  · rw [lineTexts_single hasNull] at mem
    split_ifs at mem with empty
    · cases mem
    · rwa [mem_singleton.mp mem]

theorem describes_of_parsed (raw : headers.raw_headers = front ++ text)
    (parsed : headers.parsed = (HttpUtil.headers headers.raw_headers front.length).flatMap
        (addHeader headers.raw_headers)) :
    Describes headers (entriesOf text) := by
  obtain ⟨groups, isParsed, represents⟩ := parsed_groups raw
  rw [← parsed] at isParsed
  have isGroups : headers.groups = groups := by
    rw [HttpResponseHeaders.groups, isParsed, groupFrom_flatMap represents]
  have hit : ∀ entry ∈ entriesOf text,
      ∃ line ∈ lineTexts text, entryOfLine line = some entry := fun entry mem =>
    mem_filterMap.mp mem
  refine ⟨?_, ?_, ?_, ?_, ?_, ?_, ?_⟩
  · intro name
    rw [enumerate_eq, isParsed]
    exact collect_groups represents
  · exact lowerNames_eq (isGroups ▸ represents)
  · exact keptLines_eq (isGroups ▸ represents)
  · intro entry mem
    obtain ⟨line, _, isEntry⟩ := hit entry mem
    exact entryOfLine_line isEntry
  · intro entry mem
    obtain ⟨line, isLine, isEntry⟩ := hit entry mem
    exact fun isNull => lineTexts_noNull isLine (entry_line_subset isEntry isNull)
  · intro entry mem
    obtain ⟨line, _, isEntry⟩ := hit entry mem
    exact entry_values_ne_nil isEntry
  · intro entry mem val isValue
    obtain ⟨line, isLine, isEntry⟩ := hit entry mem
    exact fun isNull => lineTexts_noNull isLine (entry_values_subset isEntry isValue isNull)

theorem describes_parse (noNull : 0 ∉ line) (rest : Bytes) :
    Describes (parse (line ++ 0 :: rest)) (entriesOf rest) := by
  have isParsed := parse_append noNull rest
  apply describes_of_parsed
  · rw [isParsed]
  · rw [isParsed]

end HttpResponseHeaders
end Chromium.Net
