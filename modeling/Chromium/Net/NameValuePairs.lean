import Chromium.Net.HttpUtil

/-!
# Quoted values

`NameValuePairsIterator`, over the values between commas, and the pairs that
are written for it.
-/

namespace Chromium.Net.HttpUtil

open List
open Library (Span tokens tokensFrom)

/-- `HttpUtil::IsQuote`. -/
def isQuote (c : UInt8) : Bool := c == 0x22 || c == 0x27

/-- The loop of `HttpUtil::Unquote`, with `prev_escape`. -/
def unescape : Bool -> Bytes -> Bytes
  | _, [] => []
  | prev_escape, c :: rest =>
    if c = 0x5c ∧ !prev_escape then unescape true rest else c :: unescape false rest

/-- `HttpUtil::Unquote`. -/
def unquote : Bytes -> Bytes
  | [] => []
  | begin :: rest =>
    if !isQuote begin then begin :: rest
    -- No terminal quote mark.
    else if rest.getLast? ≠ some begin then begin :: rest
    else unescape false rest.dropLast

/-- The loop of `HttpUtil::Quote`. -/
def escape : Bytes -> Bytes
  | [] => []
  | c :: rest => if c = 0x22 ∨ c = 0x5c then 0x5c :: c :: escape rest else c :: escape rest

/-- `HttpUtil::Quote`. -/
def quote (str : Bytes) : Bytes := 0x22 :: escape str ++ [0x22]

/-- What `name()` and `value()` return. -/
structure Pair where
  name : Bytes
  value : Bytes
deriving DecidableEq

/-- `NameValuePairsIterator::GetNext` for the next value, if it is not
malformed. -/
def pairOf (text : Bytes) : Option Pair :=
  let equals := text.findIdx (· == 0x3d)
  if equals = text.length ∨ equals = 0 then none
  else if (text.take equals).any isQuote then none
  else
    let name := (trimLWS text ⟨0, equals⟩).of text
    match (trimLWS text ⟨equals + 1, text.length⟩).of text with
    | [] => none
    | begin :: rest =>
      if !isQuote begin then some ⟨name, begin :: rest⟩
      -- Gracefully recover from mismatching quotes.
      else if rest.getLast? ≠ some begin then some ⟨name, rest⟩
      else some ⟨name, unquote (begin :: rest)⟩

/-- The pairs that a `NameValuePairsIterator` returns until `GetNext` fails,
and whether it is still `valid()`. -/
def pairs : List Bytes -> List Pair × Bool
  | [] => ([], true)
  | prop :: rest =>
    match pairOf prop with
    | none => ([], false)
    | some pair => (pair :: (pairs rest).1, (pairs rest).2)

/-- `NameValuePairsIterator`, run to its end. -/
def nameValuePairs (text : Bytes) : List Pair × Bool :=
  pairs ((values text).map fun prop => prop.of text)

/-- A name and a value that are written, between linear white space. -/
structure Element where
  before : Bytes
  name : Bytes
  left : Bytes
  right : Bytes
  value : Bytes
  behind : Bytes
  some_ : name ≠ []
  token : ∀ c ∈ name, isLWS c = false ∧ isQuote c = false ∧ c ≠ 0x3d ∧ c ≠ 0x2c
  white : ∀ space ∈ [before, left, right, behind], ∀ c ∈ space, isLWS c = true

namespace Element

/-- What is left of an element without the space around it. -/
def core (element : Element) : Bytes :=
  element.name ++ element.left ++ 0x3d :: (element.right ++ quote element.value)

/-- The text of an element. -/
def text (element : Element) : Bytes := element.before ++ element.core ++ element.behind

end Element

/-- Elements between commas. -/
def listText (elements : List Element) : Bytes :=
  [0x2c].intercalate (elements.map Element.text)

section

variable (str : Bytes)

theorem unescape_escape : unescape false (escape str) = str := by
  induction str with
  | nil => rfl
  | cons c rest ih =>
    rw [escape]
    split_ifs with special
    · rw [unescape, if_pos ⟨rfl, rfl⟩, unescape, if_neg (by simp), ih]
    · rw [unescape, if_neg (fun both => special (.inr both.1)), ih]

theorem unquote_quote : unquote (quote str) = str := by
  rw [quote, cons_append, unquote, if_neg (by decide), getLast?_concat, if_neg (not_not.mpr rfl),
    dropLast_concat, unescape_escape]

/-- A scanner inside of quotes. -/
def quoted : AdvanceState := ⟨true, false, 0x22⟩

/-- A scanner outside of quotes. -/
def Outside (state : AdvanceState) : Prop := state.in_quote = false ∧ state.in_escape = false

/-- A scanner passes a text, outside of quotes at both ends. -/
def Passes (text : Bytes) : Prop :=
  ∀ state, Outside state -> ∃ next, text.foldlM advanceOne state = some next ∧ Outside next

theorem passes_append (first : Passes front) (second : Passes back) : Passes (front ++ back) := by
  intro s outside
  obtain ⟨middle, toMiddle, outside⟩ := first s outside
  obtain ⟨last, toLast, outside⟩ := second middle outside
  exact ⟨last, by rw [foldlM_append, toMiddle]; exact toLast, outside⟩

/-- Bytes that are neither quotes nor commas are passed. -/
theorem passes_plain (plain : ∀ c ∈ front, isQuote c = false ∧ c ≠ 0x2c) : Passes front := by
  induction front with
  | nil => exact fun s outside => ⟨s, rfl, outside⟩
  | cons c rest ih =>
    rintro s ⟨outside, unescaped⟩
    obtain ⟨notQuote, notComma⟩ := plain c mem_cons_self
    have passed : advanceOne s c = some { s with quote_char := c, in_quote := false } := by
      rw [isQuote, Bool.or_comm] at notQuote
      rw [advanceOne, outside, if_neg Bool.false_ne_true, if_neg notComma, notQuote]
    rw [foldlM_cons, passed]
    exact ih (forall_mem_cons.mp plain).2 _ ⟨rfl, unescaped⟩

theorem foldlM_escape : (escape str).foldlM advanceOne quoted = some quoted := by
  induction str with
  | nil => rfl
  | cons c rest ih =>
    rw [escape]
    split_ifs with special
    · exact ih
    · rw [not_or] at special
      have stays : advanceOne quoted c = some quoted := by
        simp [advanceOne, quoted, special.1, special.2]
      rw [foldlM_cons, stays]
      exact ih

theorem passes_quote : Passes (quote str) := by
  rintro s ⟨outside, unescaped⟩
  have opens : advanceOne s 0x22 = some quoted := by
    simp [advanceOne, quoted, outside, unescaped]
  refine ⟨⟨false, false, 0x22⟩, ?_, rfl, rfl⟩
  rw [quote, cons_append, foldlM_cons, opens]
  change (escape str ++ _).foldlM advanceOne quoted = _
  rw [foldlM_append, foldlM_escape]
  rfl

end

namespace Element

variable (element : Element)

theorem space_plain
    (isSpace : space ∈ [element.before, element.left, element.right, element.behind]) :
    ∀ c ∈ space, isQuote c = false ∧ c ≠ 0x3d ∧ c ≠ 0x2c := by
  intro c mem
  have white := element.white space isSpace c mem
  simp only [isLWS, Bool.or_eq_true, beq_iff_eq] at white
  rcases white with (rfl | rfl) | rfl
  · decide
  · decide
  · decide

theorem passes : Passes element.text := by
  have plain {space : Bytes}
      (isSpace : space ∈ [element.before, element.left, element.right, element.behind]) :
      Passes space :=
    passes_plain fun c mem => (element.space_plain isSpace c mem).imp_right And.right
  have name : Passes element.name :=
    passes_plain fun c mem => (element.token c mem).2.imp_right And.right
  have equals : Passes [0x3d] := passes_plain (forall_mem_singleton.mpr (by decide))
  exact passes_append (passes_append (plain (by simp)) (passes_append
    (passes_append name (plain (by simp))) (passes_append equals
      (passes_append (plain (by simp)) (passes_quote element.value))))) (plain (by simp))

/-- The first token of a list is its first element. -/
theorem tokens_text : ∃ last : AdvanceState, last.in_quote = false ∧
    ∀ rest, tokens {} advanceOne (element.text ++ rest) =
      tokensFrom {} advanceOne element.text.length (some (0, last)) rest := by
  obtain ⟨last, passed, outside, -⟩ := element.passes {} ⟨rfl, rfl⟩
  have some_ : element.text ≠ [] := by simp [text, core]
  obtain ⟨item, tail, isText⟩ := exists_cons_of_ne_nil some_
  rw [isText, foldlM_cons] at passed
  obtain ⟨next, advanced, run⟩ := Option.bind_eq_some_iff.mp passed
  refine ⟨last, outside, fun rest => ?_⟩
  rw [isText, cons_append, tokens, tokensFrom, advanced, length_cons, Nat.add_comm tail.length]
  exact Library.tokensFrom_run run

end Element

theorem tokens_listText (elements : List Element) :
    (tokens {} advanceOne (listText elements)).map (fun span => span.of (listText elements)) =
      elements.map Element.text := by
  induction elements with
  | nil => rfl
  | cons element rest ih =>
    obtain ⟨last, outside, split⟩ := element.tokens_text
    have whole (back : Bytes) :
        (Span.mk 0 element.text.length).of (element.text ++ back) = element.text := by
      rw [Span.of, drop_zero, take_left]
    cases rest with
    | nil =>
      rw [show listText [element] = element.text ++ [] by simp [listText], split, tokensFrom,
        map_singleton, whole]
      rfl
    | cons second rest =>
      have isList : listText (element :: second :: rest) =
          element.text ++ 0x2c :: listText (second :: rest) := by
        rw [listText, map_cons, map_cons, intercalate_cons_cons, append_assoc]
        rfl
      have stops : advanceOne last 0x2c = none := by
        rw [advanceOne, outside, if_neg Bool.false_ne_true, if_pos rfl]
      have front : (element.text ++ [0x2c]).length = element.text.length + 1 := length_append
      rw [isList, split, tokensFrom, stops]
      dsimp only
      rw [map_cons, whole, map_cons, ← ih, Library.tokensFrom_eq_shift, map_map]
      refine congrArg _ (map_congr_left fun span _ => ?_)
      rw [Function.comp_apply, append_cons, ← front, Span.shift_of]

namespace Element

theorem trimText_text (element : Element) : Span.trimText isLWS element.text = element.core := by
  obtain ⟨first, rest, isName⟩ := exists_cons_of_ne_nil element.some_
  have isLast : element.core.getLast? = some 0x22 := by
    rw [core, quote, ← cons_append, ← append_assoc, ← append_assoc, getLast?_concat]
  refine Span.trimText_append (element.white _ (by simp)) (element.white _ (by simp))
    (a := first) ?_ isLast ⟨(element.token first (by rw [isName]; exact mem_cons_self)).1, rfl⟩
  rw [core, isName]
  rfl

/-- The name and the value of an element. -/
theorem pairOf_core (element : Element) :
    pairOf element.core = some ⟨element.name, element.value⟩ := by
  have inName : ∀ c ∈ element.name ++ element.left, isQuote c = false ∧ c ≠ 0x3d := by
    intro c mem
    rcases mem_append.mp mem with inName | inSpace
    · exact (element.token c inName).2.imp_right And.left
    · exact (element.space_plain (by simp) c inSpace).imp_right And.left
  have isEquals : element.core.findIdx (· == 0x3d) = (element.name ++ element.left).length := by
    rw [core, findIdx_append, findIdx_eq_length_of_false, if_neg (Nat.lt_irrefl _), findIdx_cons]
    · exact Nat.zero_add _
    · exact fun c mem => beq_eq_false_iff_ne.mpr (inName c mem).2
  have some_ := length_pos_iff.mpr element.some_
  have isLength : element.core.length = (element.name ++ element.left).length + 1 +
      (element.right ++ quote element.value).length := by
    rw [core, length_append, length_cons]
    omega
  have whole : element.core = (element.name ++ element.left ++ [0x3d]) ++
      (element.right ++ quote element.value) := by
    rw [core, append_cons]
  have noQuote : (element.name ++ element.left).any isQuote = false :=
    any_eq_false.mpr fun c mem => Bool.eq_false_iff.mp (inName c mem).1
  have name : (trimLWS element.core ⟨0, (element.name ++ element.left).length⟩).of element.core =
      element.name := by
    obtain ⟨first, rest, isName⟩ := exists_cons_of_ne_nil element.some_
    have isFirst : element.name.head? = some first := by
      rw [isName]
      rfl
    have trimmed := @Span.trimText_append _ _ _ isLWS [] element.name element.left
      (forall_mem_nil _) (element.white _ (by simp)) isFirst
      (getLast?_eq_some_getLast element.some_)
      ⟨(element.token first (mem_of_head? isFirst)).1, (element.token _ (getLast_mem _)).1⟩
    rw [trimLWS, Span.of_trim isLWS (Nat.zero_le _) (by rw [isLength]; dsimp only; omega), Span.of,
      core, take_left, drop_zero]
    exact trimmed
  have val : (trimLWS element.core ⟨(element.name ++ element.left).length + 1,
      element.core.length⟩).of element.core = quote element.value := by
    have trimmed := @Span.trimText_append _ _ _ isLWS element.right (quote element.value) []
      (element.white _ (by simp)) (forall_mem_nil _) rfl getLast?_concat ⟨rfl, rfl⟩
    have front : (element.name ++ element.left ++ [0x3d]).length =
        (element.name ++ element.left).length + 1 := length_append
    rw [append_nil] at trimmed
    rw [trimLWS, Span.of_trim isLWS (by rw [isLength]; dsimp only; omega) le_rfl, Span.of,
      take_length, whole, ← front]
    dsimp only
    rw [drop_left, trimmed]
  rw [pairOf, isEquals]
  dsimp only
  rw [if_neg (by rw [isLength, length_append]; omega), core, take_left, noQuote,
    if_neg Bool.false_ne_true, ← core, name, val, quote, cons_append]
  dsimp only
  rw [if_neg (by decide), getLast?_concat, if_neg (not_not.mpr rfl), ← cons_append, ← quote,
    unquote_quote]

end Element

/-- The values in a list are its elements without the space around them. -/
theorem values_listText :
    (values (listText elements)).map (fun prop => prop.of (listText elements)) =
      elements.map Element.core := by
  have all := tokens_listText elements
  have trims : ∀ span ∈ tokens {} advanceOne (listText elements),
      (trimLWS (listText elements) span).of (listText elements) =
        Span.trimText isLWS (span.of (listText elements)) := by
    intro span mem
    have inside := Library.mem_tokensFrom_inside mem (fun _ begun => by cases begun)
    rw [Nat.zero_add] at inside
    exact Span.of_trim isLWS inside.1.le inside.2
  have kept : ∀ val ∈ (tokens {} advanceOne (listText elements)).map
      (trimLWS (listText elements)),
      decide (val.first ≠ val.last) = true := by
    intro val mem
    obtain ⟨span, inTokens, rfl⟩ := mem_map.mp mem
    have inTexts := mem_map_of_mem (f := fun span => span.of (listText elements)) inTokens
    rw [all] at inTexts
    obtain ⟨element, -, isText⟩ := mem_map.mp inTexts
    have isCore := trims span inTokens
    rw [← isText, element.trimText_text] at isCore
    rw [decide_eq_true_iff]
    intro empty
    rw [Span.of, empty, drop_take_self] at isCore
    exact absurd isCore.symm (by simp [Element.core])
  rw [values, filter_eq_self.mpr kept, map_map]
  calc (tokens {} advanceOne (listText elements)).map _
    _ = ((tokens {} advanceOne (listText elements)).map
          (fun span => span.of (listText elements))).map (Span.trimText isLWS) := by
          rw [map_map]
          exact map_congr_left trims
    _ = elements.map Element.core := by
          rw [all, map_map]
          exact map_congr_left fun element _ => element.trimText_text

/-- The pairs that are written are read back. -/
theorem nameValuePairs_listText (elements : List Element) : nameValuePairs (listText elements) =
      (elements.map fun element => ⟨element.name, element.value⟩, true) := by
  rw [nameValuePairs, values_listText]
  induction elements with
  | nil => rfl
  | cons element rest ih => rw [map_cons, pairs, element.pairOf_core, ih, map_cons]

end Chromium.Net.HttpUtil
