import Chromium.Base.Pickle
import Chromium.Library.Components
import Chromium.Net.HttpUtil

/-!
# Response headers

The raw headers of a response, with the headers that were parsed as offsets
into them.
-/

namespace Chromium.Net

open List

section

open Library (Span)

/-- `HttpVersion`, packed as major and minor number. -/
def httpVersion (major minor : Nat) : Nat := major * 2 ^ 16 + minor

/-- A header "continuation" contains only a subsequent value for the preceding
header. -/
structure ParsedHeader where
  name : Span
  value : Span
deriving DecidableEq

def ParsedHeader.isContinuation (header : ParsedHeader) : Bool :=
  header.name.first == header.name.last

structure HttpResponseHeaders where
  raw_headers : Bytes := []
  parsed : List ParsedHeader := []
  response_code : Int := -1
  http_version : Nat := 0
  parsed_http_version : Nat := 0
deriving DecidableEq

/-- The bytes up to the first null byte. -/
def cStr (text : Bytes) : Bytes := text.takeWhile (· ≠ 0)

def isDigit (c : UInt8) : Bool := 0x30 <= c && c <= 0x39

/-- `StringToInt`, of a range of digits. -/
def stringToInt (range : Bytes) : Int := digits range 0
where
  digits : Bytes -> Int -> Int
    | [], output => output
    | current :: rest, output =>
      let new_digit : Int := current.toNat - 0x30
      if 214748364 < output ∨ (output = 214748364 ∧ 7 < new_digit) then 2 ^ 31 - 1
      else digits rest (output * 10 + new_digit)

namespace HttpResponseHeaders

/-- `HttpResponseHeaders::ParseVersion`; behind the line there is a null
byte. -/
def parseVersion (line : Bytes) : Nat :=
  if line.length < 4 ∨ !lowerCaseEqualsASCII (line.take 4) "http" then httpVersion 0 0
  else if line.getD 4 0 ≠ 0x2f then httpVersion 0 0
  else
    let dot := 4 + (line.drop 4).findIdx (· == 0x2e)
    if dot = line.length then httpVersion 0 0
    else
      let major := line.getD 5 0
      let minor := line.getD (dot + 1) 0
      if isDigit major && isDigit minor then httpVersion (major.toNat - 0x30) (minor.toNat - 0x30)
      else httpVersion 0 0

/-- The normalized version in `ParseStatusLine`, with its text. -/
def clampVersion (parsed_http_version : Nat) (has_headers : Bool) : Nat × Bytes :=
  if parsed_http_version = httpVersion 0 9 ∧ !has_headers then (httpVersion 0 9, ascii "HTTP/0.9")
  else if httpVersion 1 1 <= parsed_http_version then (httpVersion 1 1, ascii "HTTP/1.1")
  else
    -- Treat everything else like HTTP 1.0.
    (httpVersion 1 0, ascii "HTTP/1.0")

/-- `HttpResponseHeaders::ParseStatusLine`, which fills in all but the
headers. -/
def parseStatusLine (line : Bytes) (has_headers : Bool) : HttpResponseHeaders :=
  let parsed_http_version := parseVersion line
  let (http_version, raw_headers) := clampVersion parsed_http_version has_headers
  let headers : HttpResponseHeaders := { raw_headers, http_version, parsed_http_version }
  let p := line.dropWhile (· ≠ 0x20)
  if p = [] then
    { headers with
      raw_headers := raw_headers ++ ascii " 200 OK" ++ [0]
      response_code := 200 }
  else
    let p := p.dropWhile (· == 0x20)
    let code := p.takeWhile isDigit
    if code = [] then
      { headers with
        raw_headers := raw_headers ++ ascii " 200 OK"
        response_code := 200 }
    else
      let p := (p.dropWhile isDigit).dropWhile (· == 0x20)
      let text := p.rdropWhile (· == 0x20)
      { headers with
        raw_headers :=
          raw_headers ++ ascii " " ++ code ++ ascii " " ++
            (if text = [] then ascii "OK" else text) ++ [0]
        response_code := stringToInt code }

/-- `HttpResponseHeaders::AddHeader` of a header found in the raw headers: the
headers that `AddToParsed` gets. -/
def addHeader (raw_headers : Bytes) (header : HttpUtil.Header) : List ParsedHeader :=
  let end_ : Span := ⟨raw_headers.length, raw_headers.length⟩
  if header.values.first = header.values.last ∨
      HttpUtil.isNonCoalescingHeader (header.name.of raw_headers) then
    [⟨header.name, header.values⟩]
  else
    match (HttpUtil.values (header.values.of raw_headers)).map (Span.shift header.values.first) with
    | [] => []
    | value :: continuations => ⟨header.name, value⟩ :: continuations.map (⟨end_, ·⟩)

/-- `HttpResponseHeaders::Parse`. -/
def parse (raw_input : Bytes) : HttpResponseHeaders :=
  let line := cStr raw_input
  let rest := raw_input.drop line.length
  let has_headers := rest.length > 1 && rest.getD 1 0 != 0
  let headers := parseStatusLine line has_headers
  match rest with
  | [] => { headers with raw_headers := headers.raw_headers ++ [0] }
  | _ :: rest =>
    let status_line_len := headers.raw_headers.length
    let raw_headers := headers.raw_headers ++ rest
    { headers with
      raw_headers
      parsed := (HttpUtil.headers raw_headers status_line_len).flatMap (addHeader raw_headers) }

variable (headers : HttpResponseHeaders)

/-- `HttpResponseHeaders::GetStatusLine`. -/
def getStatusLine : Bytes := cStr headers.raw_headers

/-- The names and the values of the parsed headers; a continuation has no
name. -/
def namesAndValues : List (Bytes × Bytes) :=
  headers.parsed.map fun header =>
    (header.name.of headers.raw_headers, header.value.of headers.raw_headers)

/-- `HttpResponseHeaders::FindHeader`. -/
def findHeader (start : Nat) (search : Bytes) : Option Nat :=
  ((headers.parsed.drop start).findIdx? fun header =>
    !header.isContinuation && (header.name.of headers.raw_headers).map toLowerASCII ==
        search.map toLowerASCII).map (start + ·)

/-- `HttpResponseHeaders::HasHeader`. -/
def hasHeader (name : Bytes) : Bool := (headers.findHeader 0 name).isSome

/-- `HttpResponseHeaders::EnumerateHeader`: the value with the new iterator.
The iterator is zero at first. -/
def enumerateHeader (iter : Nat) (name : Bytes) : Option (Bytes × Nat) := do
  let i ← if iter = 0 then headers.findHeader 0 name else
      match headers.parsed[iter]? with
      | none => none
      | some header =>
        if header.isContinuation then some iter
        else headers.findHeader iter name
  let header ← headers.parsed[i]?
  some (header.value.of headers.raw_headers, i + 1)

/-- The values that successive calls to `EnumerateHeader` give. -/
def enumerateFrom (headers : HttpResponseHeaders) (name : Bytes) : Nat -> Nat -> List Bytes
  | 0, _ => []
  | rounds + 1, iter =>
    match headers.enumerateHeader iter name with
    | none => []
    | some (value, iter) => value :: headers.enumerateFrom name rounds iter

/-- All values of a header. Each call advances the iterator. -/
def enumerate (name : Bytes) : List Bytes :=
  headers.enumerateFrom name (headers.parsed.length + 1) 0

/-- Headers with their continuations, behind continuations of a header in
front of them. -/
def groupFrom : List ParsedHeader -> List ParsedHeader × List (ParsedHeader × List ParsedHeader)
  | [] => ([], [])
  | header :: rest =>
    let (continuations, later) := groupFrom rest
    if header.isContinuation then (header :: continuations, later)
    else ([], (header, continuations) :: later)

/-- Each header with its continuations, as the loops over `parsed_` find
them. -/
def groups : List (ParsedHeader × List ParsedHeader) := (groupFrom headers.parsed).2

/-- The bytes from the name of a header to the end of its last value. -/
def lineOf (group : ParsedHeader × List ParsedHeader) : Bytes :=
  Span.of ⟨group.1.name.first, (group.2.getLastD group.1).value.last⟩ headers.raw_headers

/-- The lower case name of a header. -/
def lowerName (header : ParsedHeader) : Bytes :=
  (header.name.of headers.raw_headers).map toLowerASCII

/-- The lines of the headers whose lower case name is accepted. -/
def keptLines (keep : Bytes -> Bool) : Bytes :=
  headers.groups.flatMap fun group =>
    if keep (headers.lowerName group.1) then headers.lineOf group ++ [0] else []

def kHopByHopResponseHeaders : List String :=
  ["connection", "proxy-connection", "keep-alive", "trailer", "transfer-encoding", "upgrade"]

def kChallengeResponseHeaders : List String := ["www-authenticate", "proxy-authenticate"]

def kCookieResponseHeaders : List String := ["set-cookie", "set-cookie2"]

def kNonUpdatedHeaders : List String :=
  ["connection", "proxy-connection", "keep-alive", "www-authenticate",
    "proxy-authenticate", "trailer", "transfer-encoding", "upgrade",
    -- these should never change:
    "content-location", "content-md5", "etag",
    -- assume cache-control: no-transform
    "content-encoding", "content-range", "content-type",
    -- some broken microsoft servers send 'content-length: 0' with 304s
    "content-length"]

def isHTTP_LWS (c : UInt8) : Bool := c == 0x20 || c == 0x09

/-- The loop over the names in a value of `AddNonCacheableHeaders`. -/
def noCacheNames : Nat -> Bytes -> List Bytes
  | 0, _ => []
  | rounds + 1, value =>
    -- Find the end of this header name.
    let comma_pos := value.findIdx (· == 0x2c)
    let name := (value.take comma_pos).rdropWhile HttpUtil.isLWS
    let rest := (value.drop (comma_pos + 1)).dropWhile HttpUtil.isLWS
    (if name = [] then [] else [name.map toLowerASCII]) ++
      if rest = [] then [] else noCacheNames rounds rest

/-- The names that a value of the header "cache-control" adds. -/
def noCacheValue (value : Bytes) : List Bytes :=
  let kPrefix := ascii "no-cache=\""
  if kPrefix.length < value.length ∧ value.take kPrefix.length = kPrefix then
    -- If it doesn't end with a quote, then treat as malformed.
    if value.getLast? ≠ some 0x22 then []
    else
      let names := (value.drop kPrefix.length).take (value.length - kPrefix.length - 1)
      let names := (names.dropWhile isHTTP_LWS).rdropWhile isHTTP_LWS
      noCacheNames (names.length + 1) names
  else []

/-- `HttpResponseHeaders::AddNonCacheableHeaders`. -/
def addNonCacheableHeaders : List Bytes :=
  (headers.enumerate (ascii "cache-control")).flatMap noCacheValue

/-- What is left out of the persisted headers. -/
structure PersistOptions where
  sansCookies : Bool := false
  sansChallenges : Bool := false
  sansHopByHop : Bool := false
  sansNonCacheable : Bool := false
  sansRanges : Bool := false
deriving DecidableEq

/-- The names of the headers that are left out. -/
def filterHeaders (options : PersistOptions) : List Bytes :=
  (if options.sansNonCacheable then headers.addNonCacheableHeaders else []) ++
    (if options.sansCookies then kCookieResponseHeaders.map ascii else []) ++
    (if options.sansChallenges then kChallengeResponseHeaders.map ascii else []) ++
    (if options.sansHopByHop then kHopByHopResponseHeaders.map ascii else []) ++
    if options.sansRanges then [ascii "content-range"] else []

/-- The string that `HttpResponseHeaders::Persist` writes; without options it
is that of `PERSIST_RAW`. -/
def persistedString : Option PersistOptions -> Bytes
  | none => headers.raw_headers
  | some options =>
    let filter_headers := headers.filterHeaders options
    cStr headers.raw_headers ++ [0] ++
      headers.keptLines (fun name => !filter_headers.contains name) ++ [0]

/-- `HttpResponseHeaders::Persist`. -/
def persist (payload : Bytes) (options : Option PersistOptions) : Option Bytes :=
  Base.Pickle.writeString payload (headers.persistedString options)

/-- The constructor from a pickle. -/
def ofPickle (payload : Bytes) (iter : Nat) : HttpResponseHeaders :=
  match Base.Pickle.readString payload iter with
  | none => {}
  | some (raw_input, _) => parse raw_input

/-- `HttpResponseHeaders::MergeWithHeaders`. -/
def mergeWithHeaders (raw_headers : Bytes) (headers_to_remove : List Bytes) :
    HttpResponseHeaders :=
  parse (raw_headers ++ headers.keptLines (fun name => !headers_to_remove.contains name) ++ [0])

/-- `ShouldUpdateHeader`, of a lower case name. -/
def shouldUpdateHeader (name : Bytes) : Bool :=
  !kNonUpdatedHeaders.any (lowerCaseEqualsASCII name)

/-- `HttpResponseHeaders::Update`. -/
def update (headers new_headers : HttpResponseHeaders) : HttpResponseHeaders :=
  let updated_headers :=
    (new_headers.groups.map fun group => new_headers.lowerName group.1).filter shouldUpdateHeader
  headers.mergeWithHeaders (cStr headers.raw_headers ++ [0] ++
      new_headers.keptLines shouldUpdateHeader)
    updated_headers

/-- `HttpResponseHeaders::RemoveHeader`. -/
def removeHeader (name : Bytes) : HttpResponseHeaders :=
  headers.mergeWithHeaders (cStr headers.raw_headers ++ [0]) [name.map toLowerASCII]

/-- `HttpResponseHeaders::AddHeader` of a line. -/
def addHeaderLine (header : Bytes) : HttpResponseHeaders :=
  -- Don't copy the last null.
  parse (headers.raw_headers.dropLast ++ header ++ [0, 0])

/-- `HttpResponseHeaders::ReplaceStatusLine`. -/
def replaceStatusLine (new_status : Bytes) : HttpResponseHeaders :=
  headers.mergeWithHeaders (new_status ++ [0]) []

end HttpResponseHeaders

end

/-!
## Headers that are named as not cacheable

The names that `AddNonCacheableHeaders` finds in a value are those of the list
between the quotes of `no-cache="..."`.
-/

namespace HttpResponseHeaders

open Library (trim)
open HttpUtil

/-- A name is listed between the quotes of a value. -/
def Lists (value name : Bytes) : Prop :=
  ∃ inner piece, value = ascii "no-cache=\"" ++ inner ++ [0x22] ∧
    piece ∈ inner.splitOn 0x2c ∧ trim isHTTP_LWS piece ≠ [] ∧
    name = (trim isHTTP_LWS piece).map toLowerASCII

/-- The lower case names in pieces of a list. -/
def namesOf (pieces : List Bytes) : List Bytes :=
  pieces.flatMap fun piece =>
    if trim isHTTP_LWS piece = [] then []
    else [(trim isHTTP_LWS piece).map toLowerASCII]

theorem mem_namesOf : name ∈ namesOf pieces ↔ ∃ piece ∈ pieces, trim isHTTP_LWS piece ≠ [] ∧
        name = (trim isHTTP_LWS piece).map toLowerASCII := by
  rw [namesOf, mem_flatMap]
  apply exists_congr
  intro piece
  apply and_congr_right
  intro _
  by_cases empty : trim isHTTP_LWS piece = []
  · rw [if_pos empty]
    exact iff_of_false not_mem_nil fun inv => inv.1 empty
  · rw [if_neg empty, mem_singleton, and_iff_right empty]

/-- Where no byte is null, both sets of white space are the same. -/
theorem isLWS_eq {text : Bytes} (noNull : 0 ∉ text) : ∀ c ∈ text, isLWS c = isHTTP_LWS c := by
  intro c mem
  have notNull : (c == 0) = false := beq_eq_false_iff_ne.mpr fun isNull => noNull (isNull ▸ mem)
  rw [isLWS, isHTTP_LWS, notNull, Bool.or_false]

theorem noCacheNames_nil : noCacheNames rounds [] = [] := by
  cases rounds with
  | zero => rfl
  | succ rounds => rfl

theorem isHTTP_LWS_comma : isHTTP_LWS 0x2c = false := by
  decide

theorem findIdx_comma {text : Bytes} (noComma : 0x2c ∉ text) :
    text.findIdx (· == 0x2c) = text.length := by
  rw [findIdx_eq_length]
  intro c mem
  exact beq_eq_false_iff_ne.mpr fun isComma => noComma (isComma ▸ mem)

/-- The loop finds the names in the pieces between commas. -/
theorem noCacheNames_eq {text : Bytes} (noNull : 0 ∉ text)
    (enough : (trim isHTTP_LWS text).length < rounds) :
    noCacheNames rounds (trim isHTTP_LWS text) = namesOf (text.splitOn 0x2c) := by
  induction rounds generalizing text with
  | zero => cases enough
  | succ rounds ih =>
    by_cases hasComma : 0x2c ∈ text
    · obtain ⟨piece, tail, rfl, noComma⟩ := eq_append_cons_of_mem hasComma
      have pieceNoNull : 0 ∉ piece := fun mem => noNull (mem_append_left _ mem)
      have tailNoNull : 0 ∉ tail := fun mem =>
        noNull (mem_append_right _ (mem_cons_of_mem _ mem))
      rw [Library.trim_append_cons isHTTP_LWS_comma] at enough ⊢
      have hit : (piece.dropWhile isHTTP_LWS ++
          0x2c :: tail.rdropWhile isHTTP_LWS).findIdx (· == 0x2c) =
            (piece.dropWhile isHTTP_LWS).length := by
        have notFound : (piece.dropWhile isHTTP_LWS).findIdx (· == 0x2c) =
            (piece.dropWhile isHTTP_LWS).length :=
          findIdx_comma fun mem => noComma ((dropWhile_suffix _).subset mem)
        rw [findIdx_append, notFound, if_neg (Nat.lt_irrefl _)]
        exact Nat.zero_add _
      have frontName : (piece.dropWhile isHTTP_LWS).rdropWhile isLWS = trim isHTTP_LWS piece :=
        Library.rdropWhile_congr (isLWS_eq fun mem =>
          pieceNoNull ((dropWhile_suffix _).subset mem))
      have isRest : (tail.rdropWhile isHTTP_LWS).dropWhile isLWS = trim isHTTP_LWS tail := by
        rw [← Library.dropWhile_rdropWhile]
        exact Library.dropWhile_congr (isLWS_eq fun mem =>
          tailNoNull (( rdropWhile_prefix _ _).subset mem))
      have shorter : (trim isHTTP_LWS tail).length < rounds := by
        have isSuffix := (dropWhile_suffix (l := tail.rdropWhile isHTTP_LWS) isLWS).length_le
        rw [isRest] at isSuffix
        rw [length_append, length_cons] at enough
        omega
      have later := ih tailNoNull shorter
      rw [splitOn_append_cons_self_of_not_mem noComma, namesOf, flatMap_cons, noCacheNames]
      simp only [hit]
      rw [take_left, drop_length_add_append, drop_succ_cons, drop_zero, frontName, isRest]
      congr 1
      split_ifs with isEnd
      · rw [isEnd, noCacheNames_nil] at later
        exact later
      · exact later
    · have noComma : 0x2c ∉ trim isHTTP_LWS text := fun mem =>
        hasComma (Library.trim_subset _ mem)
      have notFound := findIdx_comma noComma
      have same := isLWS_eq fun mem => noNull (Library.trim_subset isHTTP_LWS mem)
      rw [splitOn_eq_singleton hasComma, namesOf, flatMap_singleton,
        noCacheNames, notFound, take_length, drop_eq_nil_of_le (Nat.le_succ _),
        dropWhile_nil, if_pos rfl, append_nil,
        Library.rdropWhile_congr same]
      rw [show (trim isHTTP_LWS text).rdropWhile isHTTP_LWS =
        trim isHTTP_LWS text from rdropWhile_idempotent _ _]

theorem noCacheValue_quoted {inner : Bytes} (noNull : 0 ∉ inner) :
    noCacheValue (ascii "no-cache=\"" ++ inner ++ [0x22]) = namesOf (inner.splitOn 0x2c) := by
  have ten : (ascii "no-cache=\"").length = 10 := by decide
  have size : (ascii "no-cache=\"" ++ inner ++ [0x22]).length = 10 + inner.length + 1 := by
    rw [length_append, length_append, ten, length_singleton]
  have isInner : ((ascii "no-cache=\"" ++ inner ++ [0x22]).drop 10).take
      (10 + inner.length + 1 - 10 - 1) = inner := by
    rw [append_assoc, drop_left' ten, show 10 + inner.length + 1 - 10 - 1 = inner.length by omega,
      take_left]
  unfold noCacheValue
  dsimp only
  rw [ten, size, isInner, getLast?_concat, if_pos, if_neg (not_not.mpr rfl)]
  · exact noCacheNames_eq noNull (Nat.lt_succ_self _)
  · refine ⟨by omega, ?_⟩
    rw [append_assoc, take_left' ten]

theorem quoted_of_mem_noCacheValue (mem : name ∈ noCacheValue val) :
    ∃ inner, val = ascii "no-cache=\"" ++ inner ++ [0x22] := by
  unfold noCacheValue at mem
  dsimp only at mem
  split at mem
  next begins =>
    split at mem
    · cases mem
    next ends =>
      rw [ne_eq, not_not] at ends
      have isBehind := take_append_drop (ascii "no-cache=\"").length val
      have ne : val.drop (ascii "no-cache=\"").length ≠ [] := by
        apply ne_nil_of_length_pos
        rw [length_drop]
        omega
      rw [← isBehind, getLast?_append_of_ne_nil _ ne] at ends
      obtain ⟨inner, isInner⟩ := getLast?_eq_some_iff.mp ends
      rw [begins.2, isInner, ← append_assoc] at isBehind
      exact ⟨inner, isBehind.symm⟩
  · cases mem

/-- The names that a value adds are those that it lists. -/
theorem mem_noCacheValue (noNull : 0 ∉ val) : name ∈ noCacheValue val ↔ Lists val name := by
  have isQuoted : ∀ inner, val = ascii "no-cache=\"" ++ inner ++ [0x22] ->
      noCacheValue val = namesOf (inner.splitOn 0x2c) := by
    rintro inner rfl
    exact noCacheValue_quoted fun mem => noNull (mem_append_left _ (mem_append_right _ mem))
  constructor
  · intro mem
    obtain ⟨inner, quoted⟩ := quoted_of_mem_noCacheValue mem
    rw [isQuoted inner quoted, mem_namesOf] at mem
    obtain ⟨piece, isPiece, ne, isName⟩ := mem
    exact ⟨inner, piece, quoted, isPiece, ne, isName⟩
  · rintro ⟨inner, piece, quoted, isPiece, ne, isName⟩
    rw [isQuoted inner quoted, mem_namesOf]
    exact ⟨piece, isPiece, ne, isName⟩

end HttpResponseHeaders

end Chromium.Net
