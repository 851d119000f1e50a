import Chromium.Library.Bytes
import Chromium.Library.Transcoding
import Mathlib.Data.List.TakeWhile
import Mathlib.Data.UInt

/-!
# Code points in UTF-8

The macros that read and append a code point of a string of bytes.
-/

namespace Chromium.Base

open List Option

/-- `utf8_countTrailBytes`. -/
def countTrailBytes (leadByte : UInt8) : Nat :=
  if leadByte < 0xc0 then 0
  else if leadByte < 0xe0 then 1
  else if leadByte < 0xf0 then 2
  else if leadByte < 0xf8 then 3
  else if leadByte < 0xfc then 4
  else if leadByte < 0xfe then 5
  else 0

/-- `CBU8_IS_LEAD`. -/
def isLead (c : UInt8) : Bool := 0xc0 <= c && c < 0xfe

/-- `CBU8_IS_TRAIL`. -/
def isTrail (c : UInt8) : Bool := 0x80 <= c && c < 0xc0

/-- `CBU_IS_SURROGATE`. -/
def isSurrogate (c : Nat) : Bool := 0xd800 <= c && c < 0xe000

/-- `utf8_minLegal`. -/
def minLegal : Nat -> Nat
  | 1 => 0x80
  | 2 => 0x800
  | 3 => 0x10000
  | _ => 0

/-- The bits of a trail byte behind those of a code point, and whether a byte
that was read is illegal. -/
def addTrail (c : Nat × Bool) (trail : UInt8) : Nat × Bool :=
  (c.1 * 64 + trail.toNat % 64, c.2 || !isTrail trail)

/-- The switch of `utf8_nextCharSafeBody`, over the number of trail bytes. -/
def addTrails (count : Nat) (c : Nat) (s : Bytes) : Nat × Bool :=
  match count with
  | 3 =>
    let first := (s.take 1).foldl addTrail (c, false)
    if first.1 < 0x110 then ((s.drop 1).take 2).foldl addTrail first
    else (first.1, true)
  | 2 => (s.take 2).foldl addTrail (c, false)
  | 1 => (s.take 1).foldl addTrail (c, false)
  | _ => (c, true)

/-- `utf8_nextCharSafeBody`, which is strict, for the bytes behind a lead
byte: the code point, if it is not a sentinel, and the bytes behind it. -/
def nextCharSafeBody (lead : UInt8) (s : Bytes) : Option Nat × Bytes :=
  let count := countTrailBytes lead
  if count <= s.length then
    let c := addTrails count (lead.toNat % 2 ^ (6 - count)) s
    if c.2 ∨ c.1 < minLegal count ∨ isSurrogate c.1 then
      (none, s.drop ((s.take count).takeWhile isTrail).length)
    else (some c.1, s.drop count)
  else (none, s.dropWhile isTrail)

/-- `CBU8_NEXT`, of a string that is not empty. -/
def nextCharUTF8 : Bytes -> Option Nat × Bytes
  | [] => (none, [])
  | c :: s =>
    if c < 0x80 then (some c.toNat, s)
    else if isLead c then nextCharSafeBody c s
    else (none, s)

theorem nextCharUTF8_of_lt (single : c < 0x80) : nextCharUTF8 (c :: s) = (some c.toNat, s) := by
  rw [nextCharUTF8, if_pos single]

/-- A code point of more than one byte is not an ASCII character. -/
theorem le_of_nextCharUTF8 (several : ¬ c < 0x80)
    (next : (nextCharUTF8 (c :: s)).1 = some code_point) :
    0x80 <= code_point := by
  rw [nextCharUTF8, if_neg several] at next
  split_ifs at next
  · rw [nextCharSafeBody] at next
    dsimp only at next
    generalize countTrailBytes c = count at next
    split_ifs at next with enough illegal
    obtain rfl := some.inj next
    rw [not_or, not_or] at illegal
    obtain ⟨legal, least, -⟩ := illegal
    match count with
    | 1 => exact Nat.le_of_not_lt least
    | 2 => exact Nat.le_trans (by decide) (Nat.le_of_not_lt least)
    | 3 => exact Nat.le_trans (by decide) (Nat.le_of_not_lt least)
    | 0 => exact absurd rfl legal
    | _ + 4 => exact absurd rfl legal

/-!
## Conversions between UTF-8, UTF-16 and wide strings

The elements of a wide string are code points, or those of UTF-16.
-/

section

/-- `IsValidCodepoint`. -/
def isValidCodepoint (code_point : Nat) : Bool :=
  code_point < 0xd800 || (0xe000 <= code_point && code_point <= 0x10ffff)

/-- `IsValidCharacter`. -/
def isValidCharacter (code_point : Nat) : Bool :=
  code_point < 0xd800 || (0xe000 <= code_point && code_point < 0xfdd0) ||
    (0xfdef < code_point && code_point <= 0x10ffff && code_point / 2 % 0x8000 != 0x7fff)

/-- `CBU8_APPEND_UNSAFE`, behind `WriteUnicodeCharacter`. -/
def writeUTF8 (c : Nat) : Bytes :=
  if c <= 0x7f then [.ofNat c]
  else if c <= 0x7ff then [.ofNat (c / 64 + 0xc0), .ofNat (c % 64 + 0x80)]
  else if c <= 0xffff then
    [.ofNat (c / 4096 + 0xe0), .ofNat (c / 64 % 64 + 0x80), .ofNat (c % 64 + 0x80)]
  else
    [.ofNat (c / 262144 + 0xf0), .ofNat (c / 4096 % 64 + 0x80),
      .ofNat (c / 64 % 64 + 0x80), .ofNat (c % 64 + 0x80)]

/-- `CBU16_APPEND_UNSAFE`, behind `WriteUnicodeCharacter`. -/
def writeUTF16 (c : Nat) : List Nat :=
  if c <= 0xffff then [c]
  else [(c / 1024 + 0xd7c0) % 0x10000, c % 1024 + 0xdc00]

/-- `WriteUnicodeCharacter`, to a wide string of code points. -/
def writeUTF32 (c : Nat) : List Nat := [c]

/-- `ReadUnicodeCharacter`, of UTF-8. -/
def readUTF8 (src : Bytes) : Option Nat × Bytes :=
  ((nextCharUTF8 src).1.filter isValidCodepoint, (nextCharUTF8 src).2)

/-- `CBU16_IS_SURROGATE_LEAD`. -/
def isSurrogateLead (c : Nat) : Bool := c / 1024 % 2 == 0

/-- `CBU16_IS_TRAIL`. -/
def isTrail16 (c : Nat) : Bool := c / 1024 == 0x37

/-- `CBU16_GET_SUPPLEMENTARY`. -/
def getSupplementary (lead trail : Nat) : Nat :=
  lead * 1024 + trail - (0xd800 * 1024 + 0xdc00 - 0x10000)

/-- `ReadUnicodeCharacter`, of UTF-16. -/
def readUTF16 : List Nat -> Option Nat × List Nat
  | [] => (none, [])
  | c :: src =>
    if isSurrogate c then
      match src with
      | [] => (none, [])
      | trail :: rest =>
        if isSurrogateLead c ∧ isTrail16 trail then
          ((some (getSupplementary c trail)).filter isValidCodepoint, rest)
        else (none, trail :: rest)
    else ((some c).filter isValidCodepoint, src)

/-- `ReadUnicodeCharacter`, of a wide string of code points. -/
def readUTF32 : List Nat -> Option Nat × List Nat
  | [] => (none, [])
  | c :: src => ((some c).filter isValidCodepoint, src)

/-- `WCHAR_T_IS_UTF16` and `WCHAR_T_IS_UTF32`. -/
inductive WcharT where
  | utf16
  | utf32
  deriving DecidableEq

/-- `ConvertUnicode`. -/
def convertUnicode (read : List α -> Option Nat × List α) (write : Nat -> List β) (src : List α) :
    List β :=
  Library.transcode read write 0xfffd src

/-- `UTF8ToUTF16`. -/
def utf8ToUTF16 (utf8 : Bytes) : List Nat := convertUnicode readUTF8 writeUTF16 utf8

/-- `UTF16ToUTF8`. -/
def utf16ToUTF8 (utf16 : List Nat) : Bytes := convertUnicode readUTF16 writeUTF8 utf16

section

variable (wchar_t : WcharT)

/-- `UTF8ToWide`. -/
def utf8ToWide (utf8 : Bytes) : List Nat :=
  match wchar_t with
  | .utf16 => convertUnicode readUTF8 writeUTF16 utf8
  | .utf32 => convertUnicode readUTF8 writeUTF32 utf8

/-- `WideToUTF8`. -/
def wideToUTF8 (wide : List Nat) : Bytes :=
  match wchar_t with
  | .utf16 => convertUnicode readUTF16 writeUTF8 wide
  | .utf32 => convertUnicode readUTF32 writeUTF8 wide

/-- `WideToUTF16`. -/
def wideToUTF16 (wide : List Nat) : List Nat :=
  match wchar_t with
  | .utf16 => wide
  | .utf32 => convertUnicode readUTF32 writeUTF16 wide

/-- The loop of `IsStringUTF8`, over no more characters than given. -/
def areCharacters : Nat -> Bytes -> Bool
  | 0, _ => true
  | _ + 1, [] => true
  | fuel + 1, c :: src =>
    (nextCharUTF8 (c :: src)).1.any isValidCharacter &&
      areCharacters fuel (nextCharUTF8 (c :: src)).2

/-- `IsStringUTF8`. -/
def isStringUTF8 (str : Bytes) : Bool := areCharacters str.length str

theorem toNat_ofNat (small : n < 256) : (UInt8.ofNat n).toNat = n := Nat.mod_eq_of_lt small

theorem isTrail_ofNat (small : n < 64) : isTrail (.ofNat (n + 0x80)) = true := by
  have val := toNat_ofNat (show n + 0x80 < 256 by omega)
  rw [isTrail, Bool.and_eq_true, decide_eq_true_iff, decide_eq_true_iff,
    UInt8.le_iff_toNat_le, UInt8.lt_iff_toNat_lt, val]
  exact ⟨Nat.le_add_left _ _, Nat.add_lt_add_right small _⟩

/-- The bits of a trail byte are behind the bits that are there. -/
theorem addTrail_ofNat (small : n < 64) :
    addTrail (c, false) (.ofNat (n + 0x80)) = (c * 64 + n, false) := by
  have val := toNat_ofNat (show n + 0x80 < 256 by omega)
  rw [addTrail, isTrail_ofNat small, val]
  congr 1
  omega

theorem isValidCodepoint_iff :
    isValidCodepoint c = true ↔ c < 0xd800 ∨ 0xe000 <= c ∧ c <= 0x10ffff := by
  rw [isValidCodepoint, Bool.or_eq_true, Bool.and_eq_true, decide_eq_true_iff,
    decide_eq_true_iff, decide_eq_true_iff]

theorem isSurrogate_of_isValidCodepoint (ok : isValidCodepoint c = true) :
    isSurrogate c = false := by
  rw [isValidCodepoint_iff] at ok
  rw [isSurrogate, Bool.and_eq_false_iff, decide_eq_false_iff_not, decide_eq_false_iff_not]
  omega

/-- A lead byte is followed by as many trail bytes as it says. -/
theorem nextCharUTF8_lead (low : 0xc0 <= lead) (high : lead < 0xf8)
    (counts : (if lead < 0xe0 then 1 else if lead < 0xf0 then 2 else 3) = trails.length)
    (adds : addTrails trails.length (lead % 2 ^ (6 - trails.length))
      (trails ++ rest) = (c, false)) (least : minLegal trails.length <= c)
    (single : isSurrogate c = false) :
    nextCharUTF8 (.ofNat lead :: (trails ++ rest)) = (some c, rest) := by
  have val := toNat_ofNat (show lead < 256 by omega)
  have several : ¬ UInt8.ofNat lead < 0x80 := by
    rw [UInt8.lt_iff_toNat_lt, val]
    exact Nat.not_lt.mpr (Nat.le_trans (by decide) low)
  have isLead : isLead (.ofNat lead) = true := by
    rw [isLead, Bool.and_eq_true, decide_eq_true_iff, decide_eq_true_iff,
      UInt8.le_iff_toNat_le, UInt8.lt_iff_toNat_lt, val]
    exact ⟨low, Nat.lt_trans high (by decide)⟩
  have n : countTrailBytes (.ofNat lead) = trails.length := by
    simp only [countTrailBytes, UInt8.lt_iff_toNat_lt, val]
    change (if lead < 0xc0 then 0 else if lead < 0xe0 then 1 else if lead < 0xf0 then 2
      else if lead < 0xf8 then 3 else _) = _
    rw [if_neg (Nat.not_lt.mpr low), if_pos high, counts]
  rw [nextCharUTF8, if_neg several, if_pos isLead, nextCharSafeBody]
  dsimp only
  rw [n, if_pos (by rw [length_append]; exact Nat.le_add_right _ _), val, adds, single,
    if_neg (by
      rintro (illegal | small | surrogate)
      · cases illegal
      · exact Nat.not_lt_of_le least small
      · cases surrogate), drop_left]

/-- A code point that is written is read back. -/
theorem nextCharUTF8_writeUTF8 (ok : isValidCodepoint c = true) (rest : Bytes) :
    nextCharUTF8 (writeUTF8 c ++ rest) = (some c, rest) := by
  have single := isSurrogate_of_isValidCodepoint ok
  have trail : ∀ c n : Nat,
      addTrail (c, false) (.ofNat (n % 64 + 0x80)) = (c * 64 + n % 64, false) :=
    fun _ _ => addTrail_ofNat (Nat.mod_lt _ (by decide))
  rw [isValidCodepoint_iff] at ok
  rw [writeUTF8]
  split_ifs with one two three
  · have val := toNat_ofNat (show c < 256 by omega)
    have isOne : UInt8.ofNat c < 0x80 := by
      rw [UInt8.lt_iff_toNat_lt, val]
      exact Nat.lt_succ_of_le one
    rw [cons_append, nextCharUTF8_of_lt isOne, val]
    rfl
  · refine @nextCharUTF8_lead _ [_] rest c (by omega) (by omega) (if_pos (by omega)) ?_
      (by change 0x80 <= c; omega) single
    change addTrail _ _ = _
    rw [trail]
    congr 1
    simp only [length_cons, length_nil]
    omega
  · refine @nextCharUTF8_lead _ [_, _] rest c (by omega) (by omega)
      (by rw [if_neg (by omega), if_pos (by omega)]; rfl) ?_ (by change 0x800 <= c; omega) single
    change addTrail (addTrail _ _) _ = _
    rw [trail, trail]
    congr 1
    simp only [length_cons, length_nil]
    omega
  · refine @nextCharUTF8_lead _ [_, _, _] rest c (by omega) (by omega)
      (by rw [if_neg (by omega), if_neg (by omega)]; rfl) ?_ (by change 0x10000 <= c; omega) single
    change (if (addTrail _ _).1 < 0x110 then addTrail (addTrail (addTrail _ _) _) _
      else ((addTrail _ _).1, true)) = _
    rw [trail, trail, trail]
    simp only [length_cons, length_nil]
    rw [if_pos (by omega)]
    congr 1
    omega

theorem readUTF8_writeUTF8 (ok : isValidCodepoint c = true) :
    readUTF8 (writeUTF8 c ++ rest) = (some c, rest) := by
  rw [readUTF8, nextCharUTF8_writeUTF8 ok, filter_some, if_pos ok]

theorem writeUTF8_ne_nil : writeUTF8 c ≠ [] := by
  rw [writeUTF8]
  split_ifs <;> exact cons_ne_nil _ _

/-- `WriteUnicodeCharacter`, to a wide string. -/
def writeWide (c : Nat) : List Nat :=
  match wchar_t with
  | .utf16 => writeUTF16 c
  | .utf32 => writeUTF32 c

end

variable {code_points : List Nat}

theorem utf8ToWide_flatMap (ok : ∀ c ∈ code_points, isValidCodepoint c = true) :
    utf8ToWide wchar_t (code_points.flatMap writeUTF8) =
      code_points.flatMap (writeWide wchar_t) := by
  cases wchar_t with
  | utf16 =>
    exact Library.transcode_flatMap (fun c mem _ => readUTF8_writeUTF8 (ok c mem))
      (fun _ _ => writeUTF8_ne_nil)
  | utf32 =>
    exact Library.transcode_flatMap (fun c mem _ => readUTF8_writeUTF8 (ok c mem))
      (fun _ _ => writeUTF8_ne_nil)

theorem utf8ToUTF16_flatMap (ok : ∀ c ∈ code_points, isValidCodepoint c = true) :
    utf8ToUTF16 (code_points.flatMap writeUTF8) = code_points.flatMap writeUTF16 :=
  Library.transcode_flatMap (fun c mem _ => readUTF8_writeUTF8 (ok c mem))
    (fun _ _ => writeUTF8_ne_nil)

/-- Only the null character has a null byte. -/
theorem zero_not_mem_writeUTF8 (ok : isValidCodepoint c = true) (some_ : c ≠ 0) :
    (0 : UInt8) ∉ writeUTF8 c := by
  rw [isValidCodepoint_iff] at ok
  have small : ∀ n : Nat, 0 < n -> n < 256 -> (0 : UInt8) ≠ .ofNat n := by
    intro n pos bound isZero
    have val := toNat_ofNat bound
    rw [← isZero] at val
    have : (0 : UInt8).toNat = 0 := rfl
    omega
  rw [writeUTF8]
  split_ifs with one two three
  · rw [mem_singleton]
    exact small c (by omega) (by omega)
  · simp only [mem_cons, not_mem_nil, or_false, not_or]
    exact ⟨small _ (by omega) (by omega), small _ (by omega) (by omega)⟩
  · simp only [mem_cons, not_mem_nil, or_false, not_or]
    exact ⟨small _ (by omega) (by omega), small _ (by omega) (by omega),
      small _ (by omega) (by omega)⟩
  · simp only [mem_cons, not_mem_nil, or_false, not_or]
    exact ⟨small _ (by omega) (by omega), small _ (by omega) (by omega),
      small _ (by omega) (by omega), small _ (by omega) (by omega)⟩

theorem zero_not_mem_writeWide (ok : isValidCodepoint c = true) (some_ : c ≠ 0) :
    0 ∉ writeWide wchar_t c := by
  rw [isValidCodepoint_iff] at ok
  cases wchar_t with
  | utf16 =>
    rw [writeWide, writeUTF16]
    split_ifs
    · rw [mem_singleton]
      exact some_.symm
    · simp only [mem_cons, not_mem_nil, or_false, not_or]
      omega
  | utf32 =>
    rw [writeWide, writeUTF32, mem_singleton]
    exact some_.symm

/-- A string in UTF-8 is accepted if all of its code points are characters. -/
theorem isStringUTF8_flatMap (ok : ∀ c ∈ code_points, isValidCodepoint c = true) :
    isStringUTF8 (code_points.flatMap writeUTF8) = code_points.all isValidCharacter := by
  have anyFuel : ∀ fuel, (code_points.flatMap writeUTF8).length <= fuel ->
      areCharacters fuel (code_points.flatMap writeUTF8) = code_points.all isValidCharacter := by
    induction code_points with
    | nil => intro fuel _; cases fuel <;> rfl
    | cons c code_points ih =>
      intro fuel enough
      have next := nextCharUTF8_writeUTF8 (ok c mem_cons_self) (code_points.flatMap writeUTF8)
      rw [flatMap_cons] at enough ⊢
      rcases isWritten : writeUTF8 c with _ | ⟨first, others⟩
      · exact absurd isWritten writeUTF8_ne_nil
      · rw [isWritten] at enough next
        rw [cons_append] at enough next ⊢
        cases fuel with
        | zero => exact absurd enough (Nat.not_succ_le_zero _)
        | succ fuel =>
          rw [areCharacters, next, any_some, all_cons, ih ((forall_mem_cons.mp ok).2) fuel (by
                rw [length_cons, length_append] at enough
                omega)]
  exact anyFuel _ (Nat.le_refl _)

theorem readUTF16_writeUTF16 (ok : isValidCodepoint c = true) (rest : List Nat) :
    readUTF16 (writeUTF16 c ++ rest) = (some c, rest) := by
  have bounds := isValidCodepoint_iff.mp ok
  rw [writeUTF16]
  split_ifs with basic
  · simp [readUTF16.eq_def, isSurrogate_of_isValidCodepoint ok, ok]
  · have lead : isSurrogate ((c / 1024 + 0xd7c0) % 0x10000) = true := by
      simp only [isSurrogate, Bool.and_eq_true, decide_eq_true_eq]
      omega
    have pair : isSurrogateLead ((c / 1024 + 0xd7c0) % 0x10000) ∧
        isTrail16 (c % 1024 + 0xdc00) := by
      simp only [isSurrogateLead, isTrail16, beq_iff_eq]
      omega
    have val : getSupplementary ((c / 1024 + 0xd7c0) % 0x10000) (c % 1024 + 0xdc00) = c := by
      unfold getSupplementary
      norm_num only
      omega
    simp [readUTF16.eq_def, lead, pair, val, ok]

theorem wideToUTF8_flatMap (ok : ∀ c ∈ code_points, isValidCodepoint c = true) :
    wideToUTF8 wchar_t (code_points.flatMap (writeWide wchar_t)) =
      code_points.flatMap writeUTF8 := by
  cases wchar_t with
  | utf16 =>
    exact Library.transcode_flatMap (fun c mem => readUTF16_writeUTF16 (ok c mem))
      fun c _ => by unfold writeWide writeUTF16; dsimp only; split_ifs <;> exact cons_ne_nil _ _
  | utf32 =>
    exact Library.transcode_flatMap
      (fun c mem rest => by simp [writeWide, writeUTF32, readUTF32, ok c mem])
      fun c _ => cons_ne_nil c []

theorem convertUnicode_eq_flatMap {read : List α -> Option Nat × List α}
    (filters : ∀ src c, (read src).1 = some c -> isValidCodepoint c = true)
    (write : Nat -> List β) (src : List α) : ∃ code_points : List Nat,
      (∀ c ∈ code_points, isValidCodepoint c = true) ∧
        convertUnicode read write src = code_points.flatMap write := by
  obtain ⟨code_points, isWritten, known⟩ := Library.transcodeFor_eq_flatMap src.length src
  refine ⟨code_points, fun c mem => ?_, isWritten⟩
  obtain rfl | ⟨rest, isRead⟩ := known c mem
  · decide
  · exact filters rest c isRead

/-- The conversions are inverse to each other on code points, and of any string, with
replacements for what is malformed, they make code points. -/
theorem conversions_roundTrip (wchar_t : WcharT) :
    (∀ code_points : List Nat, (∀ c ∈ code_points, isValidCodepoint c = true) ->
      wideToUTF8 wchar_t (code_points.flatMap (writeWide wchar_t)) =
          code_points.flatMap writeUTF8 ∧
        utf8ToWide wchar_t (code_points.flatMap writeUTF8) =
          code_points.flatMap (writeWide wchar_t)) ∧
    (∀ utf8, ∃ code_points : List Nat, (∀ c ∈ code_points, isValidCodepoint c = true) ∧
      utf8ToWide wchar_t utf8 = code_points.flatMap (writeWide wchar_t)) ∧
    ∀ wide, ∃ code_points : List Nat, (∀ c ∈ code_points, isValidCodepoint c = true) ∧
      wideToUTF8 wchar_t wide = code_points.flatMap writeUTF8 := by
  refine ⟨fun _ ok => ⟨wideToUTF8_flatMap ok, utf8ToWide_flatMap ok⟩, fun utf8 => ?_,
    fun wide => ?_⟩
  · have filters : ∀ src c, (readUTF8 src).1 = some c -> isValidCodepoint c = true :=
      fun src c isRead => (filter_eq_some_iff.mp isRead).2
    cases wchar_t <;> exact convertUnicode_eq_flatMap filters _ utf8
  · cases wchar_t with
    | utf16 =>
      refine convertUnicode_eq_flatMap (fun src c isRead => ?_) _ wide
      rw [readUTF16.eq_def] at isRead
      grind [filter_eq_some_iff]
    | utf32 =>
      refine convertUnicode_eq_flatMap (fun src c isRead => ?_) _ wide
      cases src <;> simp_all [readUTF32]

end

end Chromium.Base
