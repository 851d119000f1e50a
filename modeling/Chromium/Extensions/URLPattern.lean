import Chromium.Base.StringUtil
import Chromium.Net.HttpUtil

/-!
# Patterns of URLs

`URLPattern`: parsing, matching, printing, and the conversion to patterns with
explicit schemes.
-/

namespace Chromium.Extensions

open List

section

open Base
open Net (ascii)

def SCHEME_HTTP : BitVec 32 := 1 <<< 0
def SCHEME_HTTPS : BitVec 32 := 1 <<< 1
def SCHEME_FILE : BitVec 32 := 1 <<< 2
def SCHEME_FTP : BitVec 32 := 1 <<< 3
def SCHEME_CHROMEUI : BitVec 32 := 1 <<< 4
def SCHEME_FILESYSTEM : BitVec 32 := 1 <<< 5
def SCHEME_ALL : BitVec 32 := -1

def kFileScheme : Bytes := ascii "file"

/-- `kValidSchemes` with `kValidSchemeMasks`. -/
def kValidSchemes : List (Bytes × BitVec 32) :=
  [(ascii "http", SCHEME_HTTP), (ascii "https", SCHEME_HTTPS),
    (kFileScheme, SCHEME_FILE), (ascii "ftp", SCHEME_FTP),
    (ascii "chrome", SCHEME_CHROMEUI),
    (ascii "filesystem", SCHEME_FILESYSTEM)]

/-- `chrome::kStandardSchemeSeparator`. -/
def kStandardSchemeSeparator : Bytes := ascii "://"

/-- `URLPattern::kAllUrlsPattern`. -/
def kAllUrlsPattern : Bytes := ascii "<all_urls>"

/-- What a pattern asks of a `GURL`. -/
structure GURL where
  scheme : Bytes
  host : Bytes
  hostIsIPAddress : Bool
  pathForRequest : Bytes
  deriving DecidableEq

structure URLPattern where
  valid_schemes : BitVec 32
  match_all_urls : Bool
  scheme : Bytes
  host : Bytes
  match_subdomains : Bool
  path : Bytes
  path_escaped : Bytes
  deriving DecidableEq

inductive ParseOption where
  | lenient
  | strict
  deriving DecidableEq

inductive ParseResult where
  | success
  | missingSchemeSeparator
  | invalidScheme
  | wrongSchemeSeparator
  | emptyHost
  | invalidHostWildcard
  | emptyPath
  | hasColon
  deriving DecidableEq

namespace URLPattern

/-- `URLPattern::URLPattern(int)`. -/
def create (valid_schemes : BitVec 32) : URLPattern where
  valid_schemes := valid_schemes
  match_all_urls := false
  scheme := []
  host := []
  match_subdomains := false
  path := []
  path_escaped := []

section Parsing

variable (isStandard : Bytes -> Bool) (self : URLPattern)

/-- `URLPattern::IsValidScheme`. -/
def isValidScheme (scheme : Bytes) : Bool :=
  self.valid_schemes == SCHEME_ALL || kValidSchemes.any fun (valid, mask) =>
      scheme == valid && self.valid_schemes &&& mask != 0

/-- `URLPattern::SetScheme`. -/
def setScheme (scheme : Bytes) : URLPattern × Bool :=
  if scheme = ascii "*" then
    ({ self with
        scheme := scheme
        valid_schemes := self.valid_schemes &&& (SCHEME_HTTP ||| SCHEME_HTTPS) },
      true)
  else ({ self with scheme := scheme }, self.isValidScheme scheme)

/-- `URLPattern::SetPath`. -/
def setPath (path : Bytes) : URLPattern :=
  { self with
    path := path
    path_escaped :=
      replaceSubstrings (replaceSubstrings path 0x5c (ascii "\\\\")) 0x3f (ascii "\\?") }

/-- `IsStandardScheme`, over `url_util::IsStandard`. -/
def isStandardScheme (scheme : Bytes) : Bool := scheme == ascii "*" || isStandard scheme

/-- The end of the scheme, and whether the standard separator is there. -/
def findSchemeEnd (pattern : Bytes) : Option (Nat × Bool) :=
  match find kStandardSchemeSeparator pattern with
  | some scheme_end_pos => some (scheme_end_pos, true)
  | none => (find (ascii ":") pattern).map fun scheme_end_pos => (scheme_end_pos, false)

/-- The path of a pattern, and the last check. -/
def parsePath (path : Bytes) (strictness : ParseOption) : ParseResult × URLPattern :=
  if strictness = .strict ∧ 0x3a ∈ self.host then (.hasColon, self.setPath path)
  else (.success, self.setPath path)

/-- Set the host; the first component can be a `*` to match all subdomains. -/
def setHost (host : Bytes) : URLPattern :=
  let host_components := splitString host 0x2e
  if host_components.head? = some (ascii "*") then
    { self with
      match_subdomains := true
      host := joinString host_components.tail 0x2e }
  else { self with host := joinString host_components 0x2e }

/-- The host and the path of a pattern. -/
def parseHost (rest : Bytes) (strictness : ParseOption) : ParseResult × URLPattern :=
  match find (ascii "/") rest with
  | some 0 => (.emptyHost, self)
  | none => (.emptyPath, self)
  | some host_length =>
    if 0x2a ∈ (self.setHost (rest.take host_length)).host then
      (.invalidHostWildcard, self.setHost (rest.take host_length))
    else (self.setHost (rest.take host_length)).parsePath (rest.drop host_length) strictness

/-- What is behind the scheme of a pattern. -/
def parseRest (rest : Bytes) (strictness : ParseOption) : ParseResult × URLPattern :=
  if rest = [] then (.emptyHost, self)
  else if self.scheme = kFileScheme ∨ isStandardScheme isStandard self.scheme = false then
    self.parsePath rest strictness
  else self.parseHost rest strictness

/-- `URLPattern::Parse`. -/
def parse (pattern : Bytes) (strictness : ParseOption) : ParseResult × URLPattern :=
  if pattern = kAllUrlsPattern then
    (.success,
      { self with
        match_all_urls := true
        match_subdomains := true
        scheme := ascii "*"
        host := [] }.setPath (ascii "/*"))
  else
    match findSchemeEnd pattern with
    | none => (.missingSchemeSeparator, self)
    | some (scheme_end_pos, has_standard_scheme_separator) =>
      match self.setScheme (pattern.take scheme_end_pos) with
      | (self, false) => (.invalidScheme, self)
      | (self, true) =>
        let standard_scheme := isStandardScheme isStandard self.scheme
        if standard_scheme ≠ has_standard_scheme_separator then (.wrongSchemeSeparator, self)
        else
          self.parseRest isStandard (pattern.drop (scheme_end_pos +
              if standard_scheme then kStandardSchemeSeparator.length
              else 1))
            strictness

end Parsing

section Matching

variable (self : URLPattern) (test : GURL)

/-- `URLPattern::MatchesScheme`. -/
def matchesScheme (test : Bytes) : Bool :=
  self.isValidScheme test && (self.scheme == ascii "*" || test == self.scheme)

/-- `URLPattern::MatchesHost`. -/
def matchesHost : Bool :=
  if test.host = self.host then true
  else if self.match_subdomains ∧ self.host = [] then true
  else if !self.match_subdomains then false
  else if test.hostIsIPAddress then false
  else if test.host.length <= self.host.length + 1 then false
  else if test.host.drop (test.host.length - self.host.length) ≠ self.host then false
  else test.host[test.host.length - self.host.length - 1]? = some 0x2e

/-- `URLPattern::MatchesPath`. -/
def matchesPath (test : Bytes) : Bool := matchPattern test self.path_escaped

/-- `URLPattern::MatchesUrl`. -/
def matchesUrl : Bool :=
  if !self.matchesScheme test.scheme then false
  else if self.match_all_urls then true
  else if !self.matchesHost test then false
  else if !self.matchesPath test.pathForRequest then false
  else true

/-- `URLPattern::GetAsString`. -/
def getAsString (isStandard : Bytes -> Bool) : Bytes :=
  if self.match_all_urls then kAllUrlsPattern
  else
    let standard_scheme := isStandardScheme isStandard self.scheme
    let spec := self.scheme ++ if standard_scheme then kStandardSchemeSeparator else ascii ":"
    let spec := spec ++ if self.scheme ≠ kFileScheme ∧ standard_scheme then
        (if self.match_subdomains then ascii "*" ++ if self.host ≠ [] then ascii "." else []
        else []) ++ self.host
      else []
    spec ++ self.path

/-- `URLPattern::ConvertToExplicitSchemes`. -/
def convertToExplicitSchemes : List URLPattern :=
  if self.scheme ≠ ascii "*" ∧ !self.match_all_urls ∧ self.isValidScheme self.scheme then [self]
  else
    (kValidSchemes.filter fun (scheme, _) => self.matchesScheme scheme).map fun (scheme, _) =>
        { (self.setScheme scheme).1 with match_all_urls := false }

end Matching
end URLPattern

end

/-!
## What patterns are parsed

A pattern that is parsed is the one for all URLs, or a scheme, a separator and
what is parsed behind it; there it is a path, or a host and a path.
-/

section

open Base
open Net (ascii)

namespace URLPattern

variable {isStandard : Bytes -> Bool} {fresh parsed : URLPattern} {pattern scheme rest : Bytes}

/-- The separator behind a scheme. -/
def separator (isStandard : Bytes -> Bool) (scheme : Bytes) : Bytes :=
  if isStandardScheme isStandard scheme then kStandardSchemeSeparator
  else ascii ":"

theorem colon_not_mem_scheme (bound : fresh.valid_schemes ≠ SCHEME_ALL)
    (accepts : (fresh.setScheme scheme).2 = true) :
    0x3a ∉ scheme := by
  rw [setScheme] at accepts
  split_ifs at accepts with any
  · rw [any]
    decide
  · have isValid : fresh.isValidScheme scheme = true := accepts
    rw [isValidScheme, Bool.or_eq_true, beq_iff_eq,
      or_iff_right bound, List.any_eq_true] at isValid
    obtain ⟨entry, mem, ok⟩ := isValid
    rw [Bool.and_eq_true, beq_iff_eq] at ok
    rw [ok.1]
    have none_ : ∀ entry ∈ kValidSchemes, 0x3a ∉ entry.1 := by decide
    exact none_ entry mem

@[simp] theorem scheme_setScheme : (fresh.setScheme scheme).1.scheme = scheme := by
  rw [setScheme]
  split_ifs <;> rfl

/-- A pattern is a scheme, its separator and the rest. -/
structure Parts (isStandard : Bytes -> Bool) (fresh : URLPattern)
    (pattern scheme rest : Bytes) : Prop where
  parts : pattern = scheme ++ (separator isStandard scheme ++ rest)
  accepts : (fresh.setScheme scheme).2 = true
  colon : 0x3a ∉ scheme
  single : isStandardScheme isStandard scheme = false → find kStandardSchemeSeparator pattern = none

theorem Parts.ne_all (parts : Parts isStandard fresh pattern scheme rest) :
    pattern ≠ kAllUrlsPattern := by
  intro isAll
  have colon : 0x3a ∈ pattern := by
    rw [parts.parts, separator]
    split_ifs
    · exact mem_append_right _ (mem_append_left _ (by decide))
    · exact mem_append_right _ (mem_append_left _ (by decide))
  rw [isAll] at colon
  exact absurd colon (by decide)

/-- A pattern of these parts is parsed from its scheme on. -/
theorem parse_of_parts (parts : Parts isStandard fresh pattern scheme rest) :
    fresh.parse isStandard pattern strictness =
      (fresh.setScheme scheme).1.parseRest isStandard rest strictness := by
  have ends : findSchemeEnd pattern = some (scheme.length, isStandardScheme isStandard scheme) := by
    rw [findSchemeEnd]
    cases standard : isStandardScheme isStandard scheme with
    | true =>
      have isParts := parts.parts
      rw [separator, standard, if_pos rfl] at isParts
      have hit : find kStandardSchemeSeparator pattern = some scheme.length := by
        rw [isParts]
        exact find_append parts.colon
      rw [hit]
    | false =>
      have isParts := parts.parts
      rw [separator, standard, if_neg Bool.false_ne_true] at isParts
      have hit : find (ascii ":") pattern = some scheme.length := by
        rw [isParts]
        exact find_append parts.colon
      rw [parts.single standard, hit]
      rfl
  have drops : pattern.drop (scheme.length + if isStandardScheme isStandard scheme then
        kStandardSchemeSeparator.length
      else 1) = rest := by
    have len : (separator isStandard scheme).length = if isStandardScheme isStandard scheme then
          kStandardSchemeSeparator.length
        else 1 := by
      rw [separator]
      split_ifs <;> rfl
    rw [parts.parts, ← len, ← append_assoc, ← length_append, drop_left]
  have takes : pattern.take scheme.length = scheme := by rw [parts.parts, take_left]
  rw [parse, if_neg parts.ne_all, ends]
  dsimp only
  rw [takes]
  rcases accepted : fresh.setScheme scheme with ⟨next, accepts⟩
  have isTrue := parts.accepts
  have isScheme := @scheme_setScheme fresh scheme
  rw [accepted] at isTrue isScheme
  subst isTrue
  dsimp only
  rw [isScheme, if_neg (fun ne => ne rfl), drops]

/-- A pattern that is parsed has these parts, if it is not the one for all
URLs. -/
theorem parts_of_parse (bound : fresh.valid_schemes ≠ SCHEME_ALL)
    (different : pattern ≠ kAllUrlsPattern)
    (success : (fresh.parse isStandard pattern strictness).1 = .success) :
    ∃ scheme rest, Parts isStandard fresh pattern scheme rest := by
  rw [parse, if_neg different] at success
  cases ends : findSchemeEnd pattern with
  | none =>
    rw [ends] at success
    cases success
  | some place =>
    obtain ⟨scheme_end_pos, has_separator⟩ := place
    rw [ends] at success
    dsimp only at success
    rcases accepted : fresh.setScheme (pattern.take scheme_end_pos) with
      ⟨next, accepts⟩
    have isScheme := @scheme_setScheme fresh (pattern.take scheme_end_pos)
    rw [accepted] at success isScheme
    cases accepts with
    | false => cases success
    | true =>
      dsimp only at success
      have ne : isStandardScheme isStandard next.scheme = has_separator := by
        by_contra ne
        rw [if_pos ne] at success
        cases success
      rw [isScheme] at ne
      have accepts : (fresh.setScheme (pattern.take scheme_end_pos)).2 = true := by rw [accepted]
      have colon := colon_not_mem_scheme bound accepts
      rw [findSchemeEnd] at ends
      cases hit : find kStandardSchemeSeparator pattern with
      | some place =>
        rw [hit] at ends
        obtain ⟨rfl, rfl⟩ := Prod.mk.inj (Option.some.inj ends)
        refine ⟨_, pattern.drop (place + kStandardSchemeSeparator.length), ?_, accepts, colon, ?_⟩
        · rw [separator, ne, if_pos rfl]
          exact eq_of_find hit
        · intro not
          rw [ne] at not
          cases not
      | none =>
        rw [hit] at ends
        obtain ⟨place, isFound, isPlace⟩ := Option.map_eq_some_iff.mp ends
        obtain ⟨rfl, rfl⟩ := Prod.mk.inj isPlace
        refine ⟨_, pattern.drop (place + 1), ?_, accepts, colon, fun _ => hit⟩
        rw [separator, ne, if_neg Bool.false_ne_true]
        exact eq_of_find isFound

end URLPattern

end

/-!
## Printing and parsing again

A pattern that is parsed and printed is parsed to the same pattern, unless its
host is only whitespace.
-/

section

open Base
open Net (ascii)

theorem joinString_eq_nil (some_ : parts ≠ []) (nothing : joinString parts 0x2e = []) :
    parts = [[]] := by
  match parts with
  | [] => exact absurd rfl some_
  | [part] =>
    rw [joinString, intercalate_singleton] at nothing
    rw [nothing]
  | part :: next :: rest =>
    obtain ⟨-, isNil⟩ := append_eq_nil_iff.mp nothing
    cases isNil

/-- A string has only whitespace if and only if nothing of it is left. -/
theorem splitString_eq_nil_iff :
    splitString host 0x2e = [[]] ↔ ∀ c ∈ host, isWhitespaceASCII c = true := by
  constructor
  · intro isNil
    obtain ⟨whole, isWhole, trimmed⟩ := map_eq_singleton_iff.mp isNil
    have isHost := @List.intercalate_splitOn _ host _ _ (0x2e : UInt8)
    rw [isWhole, intercalate_singleton] at isHost
    rw [isHost, Library.trim, rdropWhile_eq_nil_iff] at trimmed
    intro c mem
    rw [← takeWhile_append_dropWhile (p := isWhitespaceASCII) (l := host), mem_append] at mem
    rcases mem with front | back
    · exact mem_takeWhile_imp front
    · exact trimmed c back
  · intro blank
    have noDot : (0x2e : UInt8) ∉ host := by
      intro mem
      exact absurd (blank _ mem) (by decide)
    rw [splitString, Library.components, splitOn_eq_singleton noDot,
      map_singleton, Library.trim, dropWhile_eq_nil_iff.mpr blank]
    rfl

namespace URLPattern

variable {isStandard : Bytes -> Bool} {fresh parsed : URLPattern}
  {pattern scheme rest host path : Bytes} {mask : BitVec 32}

/-- A host as it is printed. -/
def printedHost (parsed : URLPattern) : Bytes :=
  (if parsed.match_subdomains then ascii "*" ++ if parsed.host ≠ [] then ascii "." else []
  else []) ++ parsed.host

theorem mem_host_setHost (mem : c ∈ (fresh.setHost host).host) : c ∈ host ∨ c = 0x2e := by
  have inParts : ∀ parts ⊆ splitString host 0x2e,
      c ∈ joinString parts 0x2e -> c ∈ host ∨ c = 0x2e := by
    intro parts subset mem
    rcases Library.mem_intercalate mem with isDot | ⟨part, isPart, inPart⟩
    · exact .inr isDot
    · exact .inl (Library.mem_of_mem_components (subset isPart) inPart).1
  rw [setHost] at mem
  split_ifs at mem
  · exact inParts _ (tail_subset _) mem
  · exact inParts _ (List.Subset.refl _) mem

theorem slash_not_mem_printedHost (absent : 0x2f ∉ host) :
    0x2f ∉ (fresh.setHost host).printedHost := by
  intro mem
  rcases mem_append.mp mem with front | back
  · split_ifs at front
    · exact absurd front (by decide)
    · exact absurd front (by decide)
    · exact absurd front not_mem_nil
  · rcases mem_host_setHost back with inHost | isDot
    · exact absent inHost
    · exact absurd isDot (by decide)

/-- A printed host is parsed to the same host. -/
theorem setHost_printedHost (exact_ : fresh.match_subdomains = false) :
    fresh.setHost (fresh.setHost host).printedHost = fresh.setHost host := by
  have separated : ∀ part ∈ splitString host 0x2e, (0x2e : UInt8) ∉ part :=
    fun part isPart mem => (Library.mem_of_mem_components isPart mem).2 rfl
  have trimmed : ∀ part ∈ splitString host 0x2e, Library.trim isWhitespaceASCII part = part :=
    fun part isPart => Library.trim_of_mem_components isPart
  have again : splitString (joinString (splitString host 0x2e) 0x2e) 0x2e = splitString host 0x2e :=
    Library.components_intercalate Library.components_ne_nil separated trimmed
  have star : splitString (ascii "*") 0x2e = [ascii "*"] := by decide
  by_cases any : (splitString host 0x2e).head? = some (ascii "*")
  · obtain ⟨tail, isTail⟩ := List.head?_eq_some_iff.mp any
    have isSet : fresh.setHost host =
        { fresh with
          match_subdomains := true
          host := joinString tail 0x2e } := by
      rw [setHost]
      rw [if_pos any, isTail]
      rfl
    rw [isSet, printedHost, if_pos rfl]
    by_cases nothing : joinString tail 0x2e = []
    · rw [if_neg (not_not.mpr nothing), nothing, append_nil, append_nil, setHost, star]
      rfl
    · have isJoin : ascii "*" ++ ascii "." ++ joinString tail 0x2e =
          joinString (splitString host 0x2e) 0x2e := by
        rw [isTail]
        cases tail with
        | nil => exact absurd rfl nothing
        | cons part rest => rfl
      rw [if_pos nothing, isJoin, ← isSet, setHost, again]
      rfl
  · have isSet : fresh.setHost host =
        { fresh with host := joinString (splitString host 0x2e) 0x2e } := by
      rw [setHost]
      rw [if_neg any]
    rw [isSet, printedHost, if_neg (by rw [exact_]; decide), nil_append, setHost, again]
    rw [if_neg any]

/-- A printed host is empty if and only if the host is only whitespace. -/
theorem printedHost_eq_nil_iff (exact_ : fresh.match_subdomains = false) :
    (fresh.setHost host).printedHost = [] ↔ ∀ c ∈ host, isWhitespaceASCII c = true := by
  rw [← splitString_eq_nil_iff]
  by_cases any : (splitString host 0x2e).head? = some (ascii "*")
  · constructor
    · intro nothing
      rw [setHost] at nothing
      rw [if_pos any, printedHost, if_pos rfl, append_assoc] at nothing
      cases nothing
    · intro isNil
      rw [isNil] at any
      cases any
  · rw [setHost]
    rw [if_neg any, printedHost, if_neg (by rw [exact_]; decide), nil_append]
    constructor
    · exact joinString_eq_nil Library.components_ne_nil
    · intro isNil
      rw [isNil]
      rfl

/-- The parts of what is behind a scheme. -/
structure HostAndPath (rest host path : Bytes) : Prop where
  parts : rest = host ++ path
  some_ : host ≠ []
  slash : 0x2f ∉ host
  path : ∃ tail, path = 0x2f :: tail

theorem parseHost_of_find (hit : find (ascii "/") rest = some (host_length + 1)) :
    fresh.parseHost rest strictness =
      if 0x2a ∈ (fresh.setHost (rest.take (host_length + 1))).host then
        (.invalidHostWildcard, fresh.setHost (rest.take (host_length + 1)))
      else
        (fresh.setHost (rest.take (host_length + 1))).parsePath
          (rest.drop (host_length + 1)) strictness := by
  rw [parseHost, hit]
  rfl

theorem parseHost_of_parts (parts : HostAndPath rest host path)
    (noStar : 0x2a ∉ (fresh.setHost host).host) (noColon : 0x3a ∉ (fresh.setHost host).host) :
    fresh.parseHost rest .strict = (.success, (fresh.setHost host).setPath path) := by
  obtain ⟨tail, isPath⟩ := parts.path
  have hit : find (ascii "/") rest = some host.length := by
    rw [parts.parts, isPath]
    exact find_append parts.slash
  obtain ⟨len, isLength⟩ := Nat.exists_eq_succ_of_ne_zero
    (fun zero => parts.some_ (length_eq_zero_iff.mp zero))
  have takes : rest.take host.length = host := by rw [parts.parts, take_left]
  have drops : rest.drop host.length = path := by rw [parts.parts, drop_left]
  rw [isLength] at hit takes drops
  rw [parseHost_of_find hit, takes, if_neg noStar, drops, parsePath,
    if_neg (fun both => noColon both.2)]

/-- What is behind the scheme starts with a slash, or with a host that is not
empty. -/
theorem parts_of_parseHost (success : fresh.parseHost rest .strict = (.success, parsed)) :
    ∃ host path, HostAndPath rest host path ∧
      0x2a ∉ (fresh.setHost host).host ∧ 0x3a ∉ (fresh.setHost host).host ∧
      parsed = (fresh.setHost host).setPath path := by
  cases hit : find (ascii "/") rest with
  | none =>
    rw [parseHost, hit] at success
    cases success
  | some host_length =>
    cases host_length with
    | zero =>
      rw [parseHost, hit] at success
      cases success
    | succ host_length =>
      rw [parseHost_of_find hit] at success
      have isRest := eq_of_find hit
      have parts : HostAndPath rest (rest.take (host_length + 1))
          (rest.drop (host_length + 1)) := by
        refine ⟨(take_append_drop _ _).symm, ?_, not_mem_take_of_find hit, ?_⟩
        · intro nothing
          rw [take_eq_nil_iff] at nothing
          rcases nothing with zero | isNil
          · cases zero
          · rw [isNil] at hit
            cases hit
        · refine ⟨rest.drop (host_length + 1 + (ascii "/").length), ?_⟩
          apply @List.append_cancel_left _ (rest.take (host_length + 1))
          rw [take_append_drop]
          exact isRest
      by_cases star : 0x2a ∈ (fresh.setHost (rest.take (host_length + 1))).host
      · rw [if_pos star] at success
        cases success
      rw [if_neg star, parsePath] at success
      by_cases colon : 0x3a ∈ (fresh.setHost (rest.take (host_length + 1))).host
      · rw [if_pos ⟨rfl, colon⟩] at success
        cases success
      rw [if_neg fun both => colon both.2] at success
      obtain ⟨-, rfl⟩ := Prod.mk.inj success
      exact ⟨_, _, parts, star, colon, rfl⟩

end URLPattern

end

end Chromium.Extensions
