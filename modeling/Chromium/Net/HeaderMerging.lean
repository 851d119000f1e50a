import Chromium.Net.HeaderEntries

/-!
# Merged headers

What `Update`, `Persist`, `RemoveHeader`, `AddHeader` and `ReplaceStatusLine`
keep of a header set.
-/

namespace Chromium.Net

open List
open HttpUtil

/-- The lines of entries. -/
def linesOf (entries : List Entry) : Bytes := entries.flatMap fun entry => entry.line ++ [0]

theorem linesOf_append (front back : List Entry) :
    linesOf (front ++ back) = linesOf front ++ linesOf back :=
  flatMap_append

/-- The line of each entry gives the entry again. -/
def Written (entries : List Entry) : Prop :=
  ∀ entry ∈ entries, entryOfLine entry.line = some entry ∧ 0 ∉ entry.line

theorem Written.append (front : Written entries) (back : Written others) :
    Written (entries ++ others) := by
  intro entry mem
  rcases mem_append.mp mem with first | later
  · exact front entry first
  · exact back entry later

theorem Written.filter (written : Written entries) (keep : Entry -> Bool) :
    Written (entries.filter keep) :=
  fun entry mem => written entry (mem_of_mem_filter mem)

/-- The entries of lines that are not empty and have no null byte. -/
theorem entriesOf_lines {lines : List Bytes} (proper : ∀ line ∈ lines, line ≠ [] ∧ 0 ∉ line)
    (rest : Bytes) :
    entriesOf (lines.flatMap (· ++ [0]) ++ rest) =
      lines.filterMap entryOfLine ++ entriesOf rest := by
  induction lines with
  | nil => rfl
  | cons line later ih =>
    have isRest := ih (forall_mem_cons.mp proper).2
    obtain ⟨ne, noNull⟩ := proper line mem_cons_self
    have text : (line :: later).flatMap (· ++ [0]) ++ rest =
        line ++ 0 :: (later.flatMap (· ++ [0]) ++ rest) := by
      simp
    rw [text, entriesOf, lineTexts_append noNull, if_neg ne,
      filterMap_append, ← entriesOf, isRest, ← append_assoc,
      ← filterMap_append, singleton_append]

theorem entriesOf_linesOf (written : Written entries) (rest : Bytes) :
    entriesOf (linesOf entries ++ rest) = entries ++ entriesOf rest := by
  have proper : ∀ line ∈ entries.map Entry.line, line ≠ [] ∧ 0 ∉ line := by
    intro line mem
    obtain ⟨entry, isEntry, rfl⟩ := List.mem_map.mp mem
    obtain ⟨hit, noNull⟩ := written entry isEntry
    exact ⟨entry_line_ne_nil hit, noNull⟩
  have same : (entries.map Entry.line).filterMap entryOfLine = entries := by
    rw [filterMap_map]
    exact (filterMap_congr fun entry mem => (written entry mem).1).trans filterMap_some
  have isText := entriesOf_lines proper rest
  rwa [flatMap_map, same] at isText

theorem entriesOf_null : entriesOf [0] = [] := rfl

/-- Lines stand behind the status line of entries if there are any. -/
theorem beginsLine_linesOf (written : Written entries) :
    beginsLine (linesOf entries ++ [0]) = !entries.isEmpty := by
  cases entries with
  | nil => rfl
  | cons entry later =>
    obtain ⟨isEntry, noNull⟩ := written entry mem_cons_self
    obtain ⟨first, more, isLine⟩ := exists_cons_of_ne_nil (entry_line_ne_nil isEntry)
    rw [linesOf, flatMap_cons, isLine]
    have notNull : first ≠ 0 := by
      rintro rfl
      exact noNull (isLine ▸ mem_cons_self)
    exact bne_iff_ne.mpr notNull

namespace HttpResponseHeaders

theorem valuesNamed_append (front back : List Entry) (name : Bytes) :
    valuesNamed (front ++ back) name = valuesNamed front name ++ valuesNamed back name :=
  flatMap_append

theorem valuesNamed_cons : valuesNamed (entry :: entries) name =
      (if entry.lower = name.map toLowerASCII then entry.values else []) ++
        valuesNamed entries name :=
  flatMap_cons

theorem valuesNamed_filter (keep : Bytes -> Bool) :
    valuesNamed (entries.filter fun entry => keep entry.lower) name =
      if keep (name.map toLowerASCII) then valuesNamed entries name else [] := by
  induction entries with
  | nil => exact (ite_self _).symm
  | cons entry later ih =>
    rw [filter_cons, valuesNamed_cons]
    by_cases same : entry.lower = name.map toLowerASCII
    · rw [if_pos same, same]
      by_cases kept : keep (name.map toLowerASCII) = true
      · rw [if_pos kept] at ih
        rw [if_pos kept, if_pos kept, valuesNamed_cons, if_pos same, ih]
      · rw [if_neg kept] at ih
        rw [if_neg kept, if_neg kept, ih]
    · rw [if_neg same, nil_append, ← ih]
      split_ifs
      · rw [valuesNamed_cons, if_neg same, nil_append]
      · rfl

theorem valuesNamed_ne_nil_iff (hasValues : ∀ entry ∈ entries, entry.values ≠ []) :
    valuesNamed entries name ≠ [] ↔ name.map toLowerASCII ∈ entries.map Entry.lower := by
  rw [valuesNamed, ne_eq, flatMap_eq_nil_iff, List.mem_map]
  constructor
  · intro some_
    push Not at some_
    obtain ⟨entry, mem, notNil⟩ := some_
    refine ⟨entry, mem, ?_⟩
    by_contra other
    exact notNil (if_neg other)
  · rintro ⟨entry, mem, same⟩ all
    have isNil := all entry mem
    rw [if_pos same] at isNil
    exact hasValues entry mem isNil

/-- Header lines stand behind the status line. -/
def hasLines (headers : HttpResponseHeaders) : Bool := beginsLine (behind headers.raw_headers)

/-- The status line that a header set has where header lines do or do not stand
behind it: HTTP/0.9 is HTTP/1.0 where there are headers. -/
def statusLineWith (headers : HttpResponseHeaders) (lines : Bool) : Bytes :=
  if headers.http_version = httpVersion 0 9 ∧ lines then
    ascii "HTTP/1.0" ++ headers.getStatusLine.drop 8
  else headers.getStatusLine

/-- The raw headers are a normalized status line and lines behind it. -/
structure HasStatus (headers : HttpResponseHeaders) (version : Nat)
    (code text rest : Bytes) : Prop where
  normal : Normal code text
  trimmed : text.rdropWhile (· == 0x20) = text
  noNull : 0 ∉ numberAndText code text
  raw : headers.raw_headers =
    (clampVersion version (beginsLine rest)).2 ++ numberAndText code text ++ 0 :: rest
  response_code : headers.response_code = stringToInt code
  http_version : headers.http_version = (clampVersion version (beginsLine rest)).1

theorem hasStatus_parse (noNull : 0 ∉ line) (hasNumber : ¬MissesNumber line) (rest : Bytes) :
    HasStatus (parse (line ++ 0 :: rest)) (parseVersion line)
      (normalized line).1 (normalized line).2 rest := by
  have isParsed := parse_append noNull rest
  rw [parseStatusLine_eq, if_neg hasNumber] at isParsed
  refine ⟨normal_normalized, rdropWhile_normalized, noNull_normalized noNull, ?_, ?_, ?_⟩
  · rw [isParsed]
    simp
  · rw [isParsed]
  · rw [isParsed]

section Status

variable {headers : HttpResponseHeaders} (status : HasStatus headers version code text rest)

include status

theorem getStatusLine_eq : headers.getStatusLine =
      (clampVersion version (beginsLine rest)).2 ++ numberAndText code text := by
  rw [getStatusLine, status.raw]
  exact cStr_append (fun isNull => (mem_append.mp isNull).elim
    (noNull_clampVersion _ _) status.noNull)

theorem hasLines_eq : headers.hasLines = beginsLine rest := by
  rw [hasLines, status.raw, behind_append]
  exact fun isNull => (mem_append.mp isNull).elim (noNull_clampVersion _ _) status.noNull

theorem http_version_iff : headers.http_version = httpVersion 0 9 ↔
      version = httpVersion 0 9 ∧ beginsLine rest = false := by
  rw [status.http_version]
  constructor
  · intro old
    rcases clampVersion_cases version (beginsLine rest) with
      ⟨isOld, none_, _⟩ | isVersion | isVersion
    · exact ⟨isOld, none_⟩
    · rw [isVersion] at old
      exact absurd old (by decide)
    · rw [isVersion] at old
      exact absurd old (by decide)
  · rintro ⟨rfl, none_⟩
    rw [none_]
    rfl

/-- Other lines behind the status line leave it as it is, but for HTTP/0.9. -/
theorem parse_statusLine (others : Bytes) : HasStatus (parse (headers.getStatusLine ++ 0 :: others))
        (clampVersion version (beginsLine rest)).1 code text others ∧
      (parse (headers.getStatusLine ++ 0 :: others)).getStatusLine =
        headers.statusLineWith (beginsLine others) ∧
      (parse (headers.getStatusLine ++ 0 :: others)).response_code = headers.response_code := by
  obtain ⟨raw, responseCode, isVersion, _⟩ :=
    parse_normal version (beginsLine rest) status.normal status.noNull others
  rw [← getStatusLine_eq status, status.trimmed] at raw
  rw [← getStatusLine_eq status] at responseCode isVersion
  have again : HasStatus (parse (headers.getStatusLine ++ 0 :: others))
      (clampVersion version (beginsLine rest)).1 code text others :=
    ⟨status.normal, status.trimmed, status.noNull, raw, responseCode, isVersion⟩
  refine ⟨again, ?_, responseCode.trans status.response_code.symm⟩
  rw [getStatusLine_eq again, statusLineWith, clampVersion_clampVersion, getStatusLine_eq status]
  have sameCondition : (headers.http_version = httpVersion 0 9 ∧ beginsLine others = true) ↔
        version = httpVersion 0 9 ∧ beginsLine rest = false ∧ beginsLine others = true := by
    rw [http_version_iff status, and_assoc]
  by_cases demoted : version = httpVersion 0 9 ∧ beginsLine rest = false ∧ beginsLine others = true
  · rw [if_pos demoted, if_pos (sameCondition.mpr demoted), drop_left' (length_clampVersion _ _)]
  · rw [if_neg demoted, if_neg fun old => demoted (sameCondition.mp old)]

end Status

variable {headers : HttpResponseHeaders}

theorem Describes.written_ (describes : Describes headers entries) : Written entries :=
  fun entry mem => ⟨describes.written entry mem, describes.noNull entry mem⟩

/-- A header set that is made of a status line and written entries. -/
theorem describes_linesOf (noNull : 0 ∉ status) (written : Written entries) :
    Describes (parse (status ++ 0 :: (linesOf entries ++ [0]))) entries := by
  have describes := describes_parse noNull (linesOf entries ++ [0])
  rwa [entriesOf_linesOf written, entriesOf_null, append_nil] at describes

theorem mergeWithHeaders_eq (describes : Describes headers entries) (status : Bytes)
    (front : List Entry) (headers_to_remove : List Bytes) :
    headers.mergeWithHeaders (status ++ [0] ++ linesOf front) headers_to_remove =
      parse (status ++ 0 :: (linesOf (front ++ entries.filter fun entry =>
        !headers_to_remove.contains entry.lower) ++ [0])) := by
  rw [mergeWithHeaders, describes.keptLines, linesOf_append]
  simp only [linesOf, append_assoc, singleton_append]
  rfl

section Operations

variable (describes : Describes headers entries)

include describes

theorem removeHeader_eq (name : Bytes) : headers.removeHeader name =
      parse (headers.getStatusLine ++ 0 :: (linesOf (entries.filter fun entry =>
        ! [name.map toLowerASCII].contains entry.lower) ++ [0])) := by
  have merged := mergeWithHeaders_eq describes headers.getStatusLine [] [name.map toLowerASCII]
  rw [linesOf, flatMap_nil, append_nil, nil_append] at merged
  exact merged

theorem replaceStatusLine_eq (new_status : Bytes) : headers.replaceStatusLine new_status =
      parse (new_status ++ 0 :: (linesOf entries ++ [0])) := by
  have merged := mergeWithHeaders_eq describes new_status [] []
  rw [linesOf, flatMap_nil, append_nil, nil_append] at merged
  rw [replaceStatusLine, merged]
  congr 5
  exact filter_eq_self.mpr fun _ _ => rfl

theorem persistedString_eq : headers.persistedString (some options) =
      headers.getStatusLine ++ 0 :: (linesOf (entries.filter fun entry =>
        !(headers.filterHeaders options).contains entry.lower) ++ [0]) := by
  rw [persistedString, describes.keptLines]
  simp [linesOf, getStatusLine]

/-- The new entries and the old ones that they do not replace. -/
def updatedEntries (entries others : List Entry) : List Entry :=
  (others.filter fun entry => shouldUpdateHeader entry.lower) ++ entries.filter fun entry =>
      !((others.map Entry.lower).filter shouldUpdateHeader).contains entry.lower

theorem update_eq (newDescribes : Describes new_headers others) :
    headers.update new_headers = parse (headers.getStatusLine ++
        0 :: (linesOf (updatedEntries entries others) ++ [0])) := by
  have merged := mergeWithHeaders_eq describes headers.getStatusLine
    (others.filter fun entry => shouldUpdateHeader entry.lower)
    ((others.map Entry.lower).filter shouldUpdateHeader)
  rw [update]
  simp only [newDescribes.names, newDescribes.keptLines]
  exact merged

end Operations

theorem valuesNamed_updatedEntries (hasValues : ∀ entry ∈ others, entry.values ≠ []) :
    valuesNamed (updatedEntries entries others) name = if valuesNamed others name ≠ [] ∧
          shouldUpdateHeader (name.map toLowerASCII) then
        valuesNamed others name
      else valuesNamed entries name := by
  rw [updatedEntries, valuesNamed_append, valuesNamed_filter, valuesNamed_filter fun lower =>
      !((others.map Entry.lower).filter shouldUpdateHeader).contains lower]
  have replaced : ((others.map Entry.lower).filter
      shouldUpdateHeader).contains (name.map toLowerASCII) = true ↔
        valuesNamed others name ≠ [] ∧ shouldUpdateHeader (name.map toLowerASCII) = true := by
    rw [contains_iff_mem, mem_filter, valuesNamed_ne_nil_iff hasValues]
  by_cases isNew : valuesNamed others name ≠ [] ∧ shouldUpdateHeader (name.map toLowerASCII) = true
  · rw [if_pos isNew, if_pos isNew.2, replaced.mpr isNew, Bool.not_true,
      if_neg Bool.false_ne_true, append_nil]
  · have notReplaced := Bool.eq_false_iff.mpr fun contained => isNew (replaced.mp contained)
    rw [if_neg isNew, notReplaced, Bool.not_false, if_pos rfl]
    by_cases updates : shouldUpdateHeader (name.map toLowerASCII) = true
    · have none_ : valuesNamed others name = [] := by
        by_contra some_
        exact isNew ⟨some_, updates⟩
      rw [none_, ite_self, nil_append]
    · rw [if_neg updates, nil_append]

/-- A status line and lines that are not empty, each with a null byte behind it,
and one more null byte. -/
def WellFormed (text : Bytes) : Prop :=
  ∃ (line : Bytes) (lines : List Bytes), text = line ++ 0 :: (lines.flatMap (· ++ [0]) ++ [0]) ∧
    0 ∉ line ∧ ¬MissesNumber line ∧ ∀ other ∈ lines, other ≠ [] ∧ 0 ∉ other

/-- The values that a header line has by itself. -/
def valuesOfLine (line name : Bytes) : List Bytes :=
  (parse (ascii "HTTP/1.1 200 OK" ++ 0 :: (line ++ [0, 0]))).enumerate name

/-- A header is left out of what is persisted. -/
def LeftOut (headers : HttpResponseHeaders) (options : PersistOptions) (name : Bytes) : Prop :=
  let lower := name.map toLowerASCII
  (options.sansNonCacheable ∧ ∃ value ∈ headers.enumerate (ascii "cache-control"),
        Lists value lower) ∨
    (options.sansCookies ∧ lower ∈ kCookieResponseHeaders.map ascii) ∨
    (options.sansChallenges ∧ lower ∈ kChallengeResponseHeaders.map ascii) ∨
    (options.sansHopByHop ∧ lower ∈ kHopByHopResponseHeaders.map ascii) ∨
    (options.sansRanges ∧ lower = ascii "content-range")

theorem noNull_of_enumerate (describes : Describes headers entries)
    (mem : val ∈ headers.enumerate name) :
    0 ∉ val := by
  rw [describes.enumerate, valuesNamed] at mem
  obtain ⟨entry, isEntry, isValue⟩ := mem_flatMap.mp mem
  split_ifs at isValue
  · exact describes.valuesNoNull entry isEntry val isValue
  · cases isValue

theorem filterHeaders_iff (describes : Describes headers entries) {name : Bytes} :
    (headers.filterHeaders options).contains (name.map toLowerASCII) = true ↔
      LeftOut headers options name := by
  have listed : name.map toLowerASCII ∈ headers.addNonCacheableHeaders ↔
      ∃ val ∈ headers.enumerate (ascii "cache-control"), Lists val (name.map toLowerASCII) := by
    rw [addNonCacheableHeaders, mem_flatMap]
    apply exists_congr
    intro val
    apply and_congr_right
    intro mem
    exact mem_noCacheValue (noNull_of_enumerate describes mem)
  have optional : ∀ (option : Bool) (names : List Bytes),
      name.map toLowerASCII ∈ (if option then names else []) ↔
        option = true ∧ name.map toLowerASCII ∈ names := by
    intro option names
    cases option with
    | false => exact iff_of_false not_mem_nil fun inv => by cases inv.1
    | true => exact (and_iff_right rfl).symm
  rw [contains_iff_mem, filterHeaders, LeftOut]
  simp only [mem_append, optional, listed, mem_singleton, or_assoc]

/-- What is known of the headers that are parsed from a well-formed text. -/
theorem wellFormed_parse (wf : WellFormed text) :
    ∃ (version : Nat) (code statusText : Bytes) (lines : List Bytes),
      HasStatus (parse text) version code statusText (lines.flatMap (· ++ [0]) ++ [0]) ∧
        (∀ other ∈ lines, other ≠ [] ∧ 0 ∉ other) ∧
        Describes (parse text) (lines.filterMap entryOfLine) ∧
        ((parse text).http_version = httpVersion 0 9 -> lines = []) := by
  obtain ⟨line, lines, rfl, noNull, hasNumber, proper⟩ := wf
  have status := hasStatus_parse noNull hasNumber (lines.flatMap (· ++ [0]) ++ [0])
  have describes := describes_parse noNull (lines.flatMap (· ++ [0]) ++ [0])
  rw [entriesOf_lines proper, entriesOf_null, append_nil] at describes
  refine ⟨_, _, _, lines, status, proper, describes, fun old => ?_⟩
  have noLine := ((http_version_iff status).mp old).2
  cases lines with
  | nil => rfl
  | cons first later =>
    obtain ⟨ne, firstNoNull⟩ := proper first mem_cons_self
    obtain ⟨c, more, rfl⟩ := exists_cons_of_ne_nil ne
    have isNull : c = 0 := by
      simpa only [beginsLine, flatMap_cons, cons_append,
        headD_cons, bne_eq_false_iff_eq] using noLine
    exact absurd (isNull ▸ mem_cons_self) firstNoNull

/-- Leaving out lines keeps the status line. -/
theorem statusLine_of_fewer (status : HasStatus headers version code text rest)
    (none_ : headers.http_version = httpVersion 0 9 -> entries = []) (written : Written entries)
    (keep : Entry -> Bool) :
    (parse (headers.getStatusLine ++ 0 :: (linesOf (entries.filter keep) ++ [0]))).getStatusLine =
      headers.getStatusLine := by
  rw [(parse_statusLine status _).2.1, statusLineWith, if_neg]
  rintro ⟨old, lines⟩
  rw [beginsLine_linesOf (written.filter keep), none_ old] at lines
  cases lines

/-- `Update` keeps the status line, and each header is as in one of both header
sets. -/
def UpdateKeeps (headers new_headers : HttpResponseHeaders) : Prop :=
  let result := headers.update new_headers
  result.getStatusLine = headers.statusLineWith result.hasLines ∧
    ∀ name, result.enumerate name = if new_headers.hasHeader name ∧
          shouldUpdateHeader (name.map toLowerASCII) then
        new_headers.enumerate name
      else headers.enumerate name

/-- What is restored from persisted headers has exactly the headers that are not
left out. -/
def PersistKeeps (headers : HttpResponseHeaders) (options : PersistOptions) : Prop :=
  (headers.persistedString (some options)).length < 2 ^ 31 ->
    ∃ payload, headers.persist [] (some options) = some payload ∧
      (ofPickle payload 0).getStatusLine = headers.getStatusLine ∧
      ∀ name, (LeftOut headers options name -> (ofPickle payload 0).enumerate name = []) ∧
        (¬LeftOut headers options name ->
          (ofPickle payload 0).enumerate name = headers.enumerate name)

/-- `RemoveHeader` removes the header of a name, in any case, and nothing
else. -/
def RemoveKeeps (headers : HttpResponseHeaders) (name : Bytes) : Prop :=
  (headers.removeHeader name).getStatusLine = headers.getStatusLine ∧
    ∀ other, (headers.removeHeader name).enumerate other =
      if other.map toLowerASCII = name.map toLowerASCII then []
      else headers.enumerate other

/-- `AddHeader` adds the values of a line behind those of its header. -/
def AddKeeps (headers : HttpResponseHeaders) (header : Bytes) : Prop :=
  let result := headers.addHeaderLine header
  result.getStatusLine = headers.statusLineWith result.hasLines ∧
    ∀ name, result.enumerate name = headers.enumerate name ++ valuesOfLine header name

/-- `ReplaceStatusLine` gives the status line that is parsed from the new one,
and keeps all headers. -/
def ReplaceKeeps (headers : HttpResponseHeaders) (new_status : Bytes) : Prop :=
  let result := headers.replaceStatusLine new_status
  result.getStatusLine = (parse (new_status ++ [0])).statusLineWith result.hasLines ∧
    ∀ name, result.enumerate name = headers.enumerate name

section

variable (wf : WellFormed text)
include wf

theorem updateKeeps (newWellFormed : WellFormed newText) :
    UpdateKeeps (parse text) (parse newText) := by
  obtain ⟨version, code, statusText, lines, status, _, describes, _⟩ := wellFormed_parse wf
  obtain ⟨_, _, _, newLines, _, _, newDescribes, _⟩ := wellFormed_parse newWellFormed
  have isUpdated := update_eq describes newDescribes
  have written : Written (updatedEntries (lines.filterMap entryOfLine)
      (newLines.filterMap entryOfLine)) :=
    (newDescribes.written_.filter _).append (describes.written_.filter _)
  have updated := describes_linesOf (not_mem_cStr (parse text).raw_headers) written
  obtain ⟨again, isStatus, _⟩ := parse_statusLine status
    (linesOf (updatedEntries (lines.filterMap entryOfLine) (newLines.filterMap entryOfLine)) ++ [0])
  refine ⟨?_, fun name => ?_⟩
  · rw [isUpdated, isStatus, hasLines_eq again]
  · rw [isUpdated]
    refine (updated.enumerate name).trans ?_
    rw [valuesNamed_updatedEntries newDescribes.hasValues,
      ← newDescribes.enumerate, ← describes.enumerate]
    simp only [hasHeader_iff]

theorem persistKeeps : PersistKeeps (parse text) options := by
  obtain ⟨version, code, statusText, lines, status, _, describes, none_⟩ :=
    wellFormed_parse wf
  intro fits
  obtain ⟨payload, iter, written, read⟩ := Base.Pickle.readString_writeString fits
  have isParsed : ofPickle payload 0 = parse ((parse text).persistedString (some options)) := by
    rw [ofPickle, read]
  have keptDescribes := describes_linesOf (not_mem_cStr (parse text).raw_headers)
    (describes.written_.filter fun entry =>
      !((parse text).filterHeaders options).contains entry.lower)
  have fewer := statusLine_of_fewer status
    (fun old => by rw [none_ old]; rfl) describes.written_ fun entry =>
      !((parse text).filterHeaders options).contains entry.lower
  rw [persistedString_eq describes] at isParsed
  have values_ : ∀ name, (ofPickle payload 0).enumerate name =
      if !((parse text).filterHeaders options).contains (name.map toLowerASCII) then
        (parse text).enumerate name
      else [] := by
    intro name
    rw [isParsed, describes.enumerate, ← valuesNamed_filter fun lower =>
      !((parse text).filterHeaders options).contains lower]
    exact keptDescribes.enumerate name
  refine ⟨payload, written, ?_, fun name => ⟨fun leftOut => ?_, fun kept => ?_⟩⟩
  · rw [isParsed]
    exact fewer
  · rw [values_, (filterHeaders_iff describes).mpr leftOut]
    rfl
  · have notContained := Bool.eq_false_iff.mpr fun contained =>
      kept ((filterHeaders_iff describes).mp contained)
    rw [values_, notContained]
    rfl

theorem removeKeeps : RemoveKeeps (parse text) name := by
  obtain ⟨version, code, statusText, lines, status, _, describes, none_⟩ :=
    wellFormed_parse wf
  have keptDescribes := describes_linesOf (not_mem_cStr (parse text).raw_headers)
    (describes.written_.filter fun entry => ! [name.map toLowerASCII].contains entry.lower)
  have isRemoved := removeHeader_eq describes name
  refine ⟨?_, fun other => ?_⟩
  · rw [isRemoved]
    exact statusLine_of_fewer status (fun old => by rw [none_ old]; rfl) describes.written_ _
  · rw [isRemoved]
    refine (keptDescribes.enumerate other).trans ?_
    rw [valuesNamed_filter fun lower =>
      ! [name.map toLowerASCII].contains lower, ← describes.enumerate]
    by_cases same : other.map toLowerASCII = name.map toLowerASCII
    · rw [if_pos same, same, if_neg]
      simp
    · rw [if_neg same, if_pos]
      simpa using same

theorem addKeeps : AddKeeps (parse text) header := by
  obtain ⟨version, code, statusText, lines, status, proper, describes, _⟩ :=
    wellFormed_parse wf
  have isAdded : (parse text).addHeaderLine header = parse ((parse text).getStatusLine ++
        0 :: (lines.flatMap (· ++ [0]) ++ (header ++ [0, 0]))) := by
    have isRaw : (parse text).raw_headers =
        (parse text).getStatusLine ++ 0 :: lines.flatMap (· ++ [0]) ++ [0] := by
      rw [getStatusLine_eq status, status.raw]
      simp
    rw [addHeaderLine, isRaw, dropLast_concat]
    simp
  have added := describes_parse (not_mem_cStr (parse text).raw_headers)
    (lines.flatMap (· ++ [0]) ++ (header ++ [0, 0]))
  rw [entriesOf_lines proper] at added
  have okayNoNull : 0 ∉ ascii "HTTP/1.1 200 OK" := by decide
  have alone := describes_parse okayNoNull (header ++ [0, 0])
  obtain ⟨again, isStatus, _⟩ := parse_statusLine status
    (lines.flatMap (· ++ [0]) ++ (header ++ [0, 0]))
  refine ⟨?_, fun name => ?_⟩
  · rw [isAdded, isStatus, hasLines_eq again]
  · rw [isAdded, valuesOfLine]
    refine (added.enumerate name).trans ?_
    rw [valuesNamed_append, ← describes.enumerate, alone.enumerate]

end

theorem clampVersion_eq (has_headers : Bool) :
    clampVersion version has_headers = if version = httpVersion 0 9 ∧ has_headers = true then
        (httpVersion 1 0, ascii "HTTP/1.0")
      else clampVersion version false := by
  cases has_headers with
  | false => rw [if_neg fun inv => by cases inv.2]
  | true =>
    by_cases old : version = httpVersion 0 9
    · rw [if_pos ⟨old, rfl⟩, old]
      rfl
    · rw [if_neg fun inv => old inv.1]
      simp [clampVersion, old]

theorem replaceKeeps (wf : WellFormed text) (noNull : 0 ∉ new_status)
    (hasNumber : ¬MissesNumber new_status) :
    ReplaceKeeps (parse text) new_status := by
  obtain ⟨_, _, _, lines, _, _, describes, _⟩ := wellFormed_parse wf
  have replaced := describes_linesOf noNull describes.written_
  have status := hasStatus_parse noNull hasNumber (linesOf (lines.filterMap entryOfLine) ++ [0])
  have alone := hasStatus_parse noNull hasNumber []
  have isReplaced := replaceStatusLine_eq describes new_status
  refine ⟨?_, fun name => ?_⟩
  · rw [isReplaced, hasLines_eq status, getStatusLine_eq status, statusLineWith,
      getStatusLine_eq alone, clampVersion_eq]
    have old := http_version_iff alone
    by_cases demoted : parseVersion new_status = httpVersion 0 9 ∧
        beginsLine (linesOf (lines.filterMap entryOfLine) ++ [0]) = true
    · rw [if_pos demoted, if_pos ⟨old.mpr ⟨demoted.1, rfl⟩, demoted.2⟩,
        drop_left' (length_clampVersion _ _)]
    · rw [if_neg demoted, if_neg fun inv => demoted ⟨(old.mp inv.1).1, inv.2⟩]
      rfl
  · rw [isReplaced, describes.enumerate]
    exact replaced.enumerate name

/-- Each operation on headers with a well-formed status line keeps what it does
not name. -/
theorem operations_keep (text : Bytes) (wf : WellFormed text) :
    (∀ newText, WellFormed newText -> UpdateKeeps (parse text) (parse newText)) ∧
    (∀ options, PersistKeeps (parse text) options) ∧ (∀ name, RemoveKeeps (parse text) name) ∧
    (∀ header, AddKeeps (parse text) header) ∧
    ∀ new_status, 0 ∉ new_status -> ¬MissesNumber new_status ->
      ReplaceKeeps (parse text) new_status :=
  ⟨fun _ newWellFormed => updateKeeps wf newWellFormed, fun _ => persistKeeps wf,
    fun _ => removeKeeps wf,
    fun _ => addKeeps wf,
    fun _ noNull hasNumber => replaceKeeps wf noNull hasNumber⟩

theorem wellFormed_twoHeaders : WellFormed (ascii "HTTP/1.1 200 OK" ++
      0 :: (ascii "A: b, c" ++ 0 :: (ascii "D:" ++ [0, 0]))) :=
  ⟨ascii "HTTP/1.1 200 OK", [ascii "A: b, c", ascii "D:"], rfl, by decide, by decide, by decide⟩

theorem operations_keep_twoHeaders : WellFormed (ascii "HTTP/1.1 200 OK" ++
        0 :: (ascii "A: b, c" ++ 0 :: (ascii "D:" ++ [0, 0]))) ∧
      RemoveKeeps (parse (ascii "HTTP/1.1 200 OK" ++
        0 :: (ascii "A: b, c" ++ 0 :: (ascii "D:" ++ [0, 0])))) (ascii "a") :=
  ⟨wellFormed_twoHeaders, (operations_keep _ wellFormed_twoHeaders).2.2.1 (ascii "a")⟩

/-- A status line of HTTP/0.9 is not kept where headers are added. -/
theorem not_update_keeps_statusLine : ¬∀ text newText, WellFormed text -> WellFormed newText ->
      ((parse text).update (parse newText)).getStatusLine = (parse text).getStatusLine := by
  intro keeps
  have old : WellFormed (ascii "HTTP/0.9 200 OK" ++ [0, 0]) :=
    ⟨ascii "HTTP/0.9 200 OK", [], rfl, by decide, by decide, by decide⟩
  have new : WellFormed (ascii "HTTP/1.1 304 Not Modified" ++ 0 :: (ascii "Age: 1" ++ [0, 0])) :=
    ⟨ascii "HTTP/1.1 304 Not Modified", [ascii "Age: 1"], rfl, by decide, by decide, by decide⟩
  exact absurd (keeps _ _ old new) (by decide +kernel)

end HttpResponseHeaders
end Chromium.Net
