import Chromium.Extensions.URLPattern

/-!
# When a printed pattern is parsed again

Printing a pattern and parsing the result gives the same pattern if and only
if the host is not only whitespace.
-/

namespace Chromium.Extensions

open List Option Bool

section

open Base
open Net (ascii)

/-- The host of a pattern is there, but only whitespace. -/
def BlankHost (isStandard : Bytes -> Bool) (pattern : Bytes) : Prop :=
  ∃ scheme_end_pos, find kStandardSchemeSeparator pattern = some scheme_end_pos ∧
    URLPattern.isStandardScheme isStandard (pattern.take scheme_end_pos) = true ∧
    pattern.take scheme_end_pos ≠ kFileScheme ∧
    ∀ c ∈ (pattern.drop (scheme_end_pos + kStandardSchemeSeparator.length)).takeWhile (· != 0x2f),
      isWhitespaceASCII c = true

namespace URLPattern

variable {fresh parsed : URLPattern} {pattern scheme rest host path : Bytes}

/-- Nothing of a pattern is set but its schemes. -/
structure Fresh (fresh : URLPattern) : Prop where
  all : fresh.match_all_urls = false
  host : fresh.host = []
  subdomains : fresh.match_subdomains = false

theorem fresh_create : (create mask).Fresh := ⟨rfl, rfl, rfl⟩

theorem Fresh.setScheme (isFresh : fresh.Fresh) : (fresh.setScheme scheme).1.Fresh := by
  rw [URLPattern.setScheme]
  split_ifs
  · exact ⟨isFresh.all, isFresh.host, isFresh.subdomains⟩
  · exact ⟨isFresh.all, isFresh.host, isFresh.subdomains⟩

@[simp] theorem scheme_setHost : (fresh.setHost host).scheme = fresh.scheme := by
  rw [setHost]
  split_ifs <;> rfl

@[simp] theorem match_all_urls_setHost :
    (fresh.setHost host).match_all_urls = fresh.match_all_urls := by
  rw [setHost]
  split_ifs <;> rfl

@[simp] theorem valid_schemes_setHost :
    (fresh.setHost host).valid_schemes = fresh.valid_schemes := by
  rw [setHost]
  split_ifs <;> rfl

/-- A pattern without a host is printed as its scheme and its path. -/
theorem getAsString_of_noHost (specific : parsed.match_all_urls = false)
    (noHost : parsed.scheme = kFileScheme ∨ isStandardScheme isStandard parsed.scheme = false) :
    parsed.getAsString isStandard =
      parsed.scheme ++ (separator isStandard parsed.scheme ++ parsed.path) := by
  have printed : ¬ (parsed.scheme ≠ kFileScheme ∧
      isStandardScheme isStandard parsed.scheme = true) := by
    rintro ⟨notFile, standard⟩
    rcases noHost with isFile | notStandard
    · exact notFile isFile
    · rw [notStandard] at standard
      cases standard
  rw [getAsString, specific, if_neg Bool.false_ne_true, separator]
  dsimp only
  rw [if_neg printed, append_nil, append_assoc]

/-- A pattern with a host is printed as its scheme, its host and its path. -/
theorem getAsString_of_host (specific : parsed.match_all_urls = false)
    (notFile : parsed.scheme ≠ kFileScheme)
    (standard : isStandardScheme isStandard parsed.scheme = true) :
    parsed.getAsString isStandard = parsed.scheme ++ (separator isStandard parsed.scheme ++
        (parsed.printedHost ++ parsed.path)) := by
  rw [getAsString, specific, if_neg Bool.false_ne_true, separator]
  dsimp only
  rw [if_pos (And.intro notFile standard), printedHost, append_assoc, append_assoc]

theorem parseRest_of_noHost (isFresh : fresh.Fresh) (some_ : rest ≠ [])
    (noHost : fresh.scheme = kFileScheme ∨ isStandardScheme isStandard fresh.scheme = false) :
    fresh.parseRest isStandard rest .strict = (.success, fresh.setPath rest) := by
  have noColon : ¬ (ParseOption.strict = .strict ∧ 0x3a ∈ fresh.host) := by
    rw [isFresh.host]
    exact fun both => not_mem_nil both.2
  rw [parseRest, if_neg some_, if_pos noHost, parsePath, if_neg noColon]

/-- What is printed of a pattern without a host is the pattern. -/
theorem parse_getAsString_of_noHost
    (isFresh : fresh.Fresh) (parts : Parts isStandard fresh pattern scheme rest)
    (noHost : scheme = kFileScheme ∨ isStandardScheme isStandard scheme = false)
    (success : fresh.parse isStandard pattern .strict = (.success, parsed)) :
    fresh.parse isStandard (parsed.getAsString isStandard) .strict = (.success, parsed) := by
  have isRest := success
  rw [parse_of_parts parts] at isRest
  have some_ : rest ≠ [] := by
    intro nothing
    rw [parseRest, if_pos nothing] at isRest
    cases isRest
  rw [parseRest_of_noHost isFresh.setScheme some_ (by rwa [scheme_setScheme])] at isRest
  obtain ⟨-, isParsed⟩ := Prod.mk.inj isRest
  have isScheme : parsed.scheme = scheme := by
    rw [← isParsed]
    exact scheme_setScheme
  have printed : parsed.getAsString isStandard = pattern := by
    rw [getAsString_of_noHost (by rw [← isParsed]; exact isFresh.setScheme.all)
      (by rwa [isScheme]), isScheme, parts.parts, ← isParsed]
    rfl
  rw [printed, success]

/-- What is printed of a pattern with a host is parsed to the same pattern,
unless the host is blank. -/
theorem parse_getAsString_of_host
    (isFresh : fresh.Fresh) (parts : Parts isStandard fresh pattern scheme rest)
    (notFile : scheme ≠ kFileScheme)
    (standard : isStandardScheme isStandard scheme = true)
    (hostAndPath : HostAndPath rest host path)
    (noStar : 0x2a ∉ ((fresh.setScheme scheme).1.setHost host).host)
    (noColon : 0x3a ∉ ((fresh.setScheme scheme).1.setHost host).host)
    (isParsed : parsed = ((fresh.setScheme scheme).1.setHost host).setPath path) :
    fresh.parse isStandard (parsed.getAsString isStandard) .strict =
      if ((fresh.setScheme scheme).1.setHost host).printedHost = [] then
        (.emptyHost, (fresh.setScheme scheme).1)
      else (.success, parsed) := by
  have exact_ := (isFresh.setScheme : (fresh.setScheme scheme).1.Fresh).subdomains
  have isScheme : parsed.scheme = scheme := by
    rw [isParsed]
    exact scheme_setHost.trans scheme_setScheme
  have specific : parsed.match_all_urls = false := by
    rw [isParsed]
    exact match_all_urls_setHost.trans isFresh.setScheme.all
  have printed : parsed.getAsString isStandard = scheme ++ (separator isStandard scheme ++
        (((fresh.setScheme scheme).1.setHost host).printedHost ++ path)) := by
    rw [getAsString_of_host specific (by rwa [isScheme]) (by rwa [isScheme]), isScheme, isParsed]
    rfl
  have again : Parts isStandard fresh (parsed.getAsString isStandard) scheme
      (((fresh.setScheme scheme).1.setHost host).printedHost ++ path) := by
    refine ⟨printed, parts.accepts, parts.colon, fun notStandard => ?_⟩
    rw [standard] at notStandard
    cases notStandard
  obtain ⟨tail, isPath⟩ := hostAndPath.path
  have some_ : ((fresh.setScheme scheme).1.setHost host).printedHost ++ path ≠ [] := by
    rw [isPath]
    exact append_ne_nil_of_right_ne_nil _ (cons_ne_nil _ _)
  have hasHost : ¬ ((fresh.setScheme scheme).1.scheme = kFileScheme ∨
      isStandardScheme isStandard (fresh.setScheme scheme).1.scheme = false) := by
    rw [scheme_setScheme, standard]
    rintro (isFile | notStandard)
    · exact notFile isFile
    · cases notStandard
  rw [parse_of_parts again, parseRest, if_neg some_, if_neg hasHost]
  by_cases nothing : ((fresh.setScheme scheme).1.setHost host).printedHost = []
  · rw [if_pos nothing, nothing, nil_append, isPath, parseHost]
    rfl
  · have printedParts : HostAndPath (((fresh.setScheme scheme).1.setHost host).printedHost ++ path)
        ((fresh.setScheme scheme).1.setHost host).printedHost path :=
      ⟨rfl, nothing, slash_not_mem_printedHost hostAndPath.slash, tail, isPath⟩
    have same := @setHost_printedHost _ host exact_
    rw [if_neg nothing, parseHost_of_parts printedParts (by rwa [same]) (by rwa [same]), same,
      isParsed]

theorem not_blankHost_all : ¬ BlankHost isStandard kAllUrlsPattern := by
  rintro ⟨scheme_end_pos, hit, -⟩
  cases hit

section

variable (parts : Parts isStandard fresh pattern scheme rest)
include parts

theorem find_separator (standard : isStandardScheme isStandard scheme = true) :
    find kStandardSchemeSeparator pattern = some scheme.length := by
  rw [parts.parts, separator, if_pos standard]
  exact find_append parts.colon

theorem take_scheme : pattern.take scheme.length = scheme := by
  rw [parts.parts, take_left]

theorem not_blankHost_of_noHost
    (noHost : scheme = kFileScheme ∨ isStandardScheme isStandard scheme = false) :
    ¬ BlankHost isStandard pattern := by
  rintro ⟨scheme_end_pos, hit, isStandard_, notFile, -⟩
  cases standard : isStandardScheme isStandard scheme with
  | false =>
    rw [parts.single standard] at hit
    cases hit
  | true =>
    rw [find_separator parts standard] at hit
    obtain rfl := some.inj hit
    rw [take_scheme parts] at notFile
    rcases noHost with isFile | notStandard
    · exact notFile isFile
    · rw [notStandard] at standard
      cases standard

theorem blankHost_iff (notFile : scheme ≠ kFileScheme)
    (standard : isStandardScheme isStandard scheme = true)
    (hostAndPath : HostAndPath rest host path) :
    BlankHost isStandard pattern ↔ ∀ c ∈ host, isWhitespaceASCII c = true := by
  have isHost : (pattern.drop (scheme.length +
      kStandardSchemeSeparator.length)).takeWhile (· != 0x2f) = host := by
    obtain ⟨tail, isPath⟩ := hostAndPath.path
    have noSlash : ∀ c ∈ host, (c != 0x2f) = true := by
      intro c mem
      rw [bne_iff_ne]
      rintro rfl
      exact hostAndPath.slash mem
    rw [parts.parts, separator, if_pos standard, ← append_assoc,
      ← length_append, drop_left, hostAndPath.parts,
      takeWhile_append_of_pos noSlash, isPath,
      takeWhile_cons_of_neg (by decide), append_nil]
  have hit := find_separator parts standard
  constructor
  · rintro ⟨scheme_end_pos, isFound, -, -, blank⟩
    rw [hit] at isFound
    obtain rfl := some.inj isFound
    rwa [isHost] at blank
  · intro blank
    refine ⟨scheme.length, hit, ?_, ?_, ?_⟩
    · rwa [take_scheme parts]
    · rwa [take_scheme parts]
    · rwa [isHost]

end

/-- What is printed of a pattern is parsed if and only if the host of the
pattern is not blank, and then it is the same pattern. -/
theorem parse_getAsString (bound : fresh.valid_schemes ≠ SCHEME_ALL) (isFresh : fresh.Fresh)
    (success : fresh.parse isStandard pattern .strict = (.success, parsed)) :
    (¬ BlankHost isStandard pattern ∧
      fresh.parse isStandard (parsed.getAsString isStandard) .strict = (.success, parsed)) ∨
    (BlankHost isStandard pattern ∧
      (fresh.parse isStandard (parsed.getAsString isStandard) .strict).1 = .emptyHost) := by
  by_cases isAll : pattern = kAllUrlsPattern
  · subst isAll
    refine .inl ⟨not_blankHost_all, ?_⟩
    have isParsed := success
    obtain ⟨-, isParsed⟩ := Prod.mk.inj isParsed
    have printed : parsed.getAsString isStandard = kAllUrlsPattern := by
      rw [← isParsed]
      rfl
    rw [printed, success]
  · obtain ⟨scheme, rest, parts⟩ := parts_of_parse bound isAll (congrArg Prod.fst success)
    by_cases noHost : scheme = kFileScheme ∨ isStandardScheme isStandard scheme = false
    · exact .inl ⟨not_blankHost_of_noHost parts noHost,
        parse_getAsString_of_noHost isFresh parts noHost success⟩
    · obtain ⟨notFile, notSingle⟩ := not_or.mp noHost
      have standard := not_eq_false _ ▸ notSingle
      have isRest := success
      rw [parse_of_parts parts, parseRest] at isRest
      by_cases some_ : rest = []
      · rw [if_pos some_] at isRest
        cases isRest
      rw [if_neg some_, scheme_setScheme, if_neg noHost] at isRest
      obtain ⟨host, path, hostAndPath, noStar, noColon, isParsed⟩ := parts_of_parseHost isRest
      have again := parse_getAsString_of_host isFresh parts notFile standard
        hostAndPath noStar noColon isParsed
      have blank := (blankHost_iff parts notFile standard hostAndPath).trans (printedHost_eq_nil_iff
          (isFresh.setScheme : (fresh.setScheme scheme).1.Fresh).subdomains).symm
      by_cases nothing : ((fresh.setScheme scheme).1.setHost host).printedHost = []
      · rw [if_pos nothing] at again
        exact .inr ⟨blank.mpr nothing, congrArg Prod.fst again⟩
      · rw [if_neg nothing] at again
        exact .inl ⟨fun isBlank => nothing (blank.mp isBlank), again⟩

end URLPattern

end

/-!
## Explicit schemes

What the patterns with explicit schemes match together, and when parsing,
printing and conversion keep what a pattern matches.
-/

section

open Base
open Net (ascii)

namespace URLPattern

variable {fresh parsed : URLPattern} {pattern scheme : Bytes}

@[simp] theorem setPath_match_all_urls {path : Bytes} :
    (fresh.setPath path).match_all_urls = fresh.match_all_urls := rfl

@[simp] theorem setPath_scheme {path : Bytes} : (fresh.setPath path).scheme = fresh.scheme := rfl

@[simp] theorem setPath_valid_schemes {path : Bytes} :
    (fresh.setPath path).valid_schemes = fresh.valid_schemes := rfl

/-- Behind the scheme, parsing sets a host and a path only. -/
theorem keeps_of_parseRest
    (success : fresh.parseRest isStandard rest .strict = (.success, parsed)) :
    parsed.match_all_urls = fresh.match_all_urls ∧ parsed.scheme = fresh.scheme ∧
      parsed.valid_schemes = fresh.valid_schemes := by
  rw [parseRest] at success
  by_cases some_ : rest = []
  · rw [if_pos some_] at success
    cases success
  rw [if_neg some_] at success
  by_cases noHost : fresh.scheme = kFileScheme ∨ isStandardScheme isStandard fresh.scheme = false
  · rw [if_pos noHost, parsePath] at success
    split_ifs at success
    · cases success
    · obtain ⟨-, rfl⟩ := Prod.mk.inj success
      exact ⟨rfl, rfl, rfl⟩
  · rw [if_neg noHost] at success
    obtain ⟨host, path, -, -, -, rfl⟩ := parts_of_parseHost success
    simp

/-- A parsed pattern is the one for all URLs, or it has a scheme that is valid
for it. -/
theorem scheme_of_parse (bound : mask ≠ SCHEME_ALL) (ne : pattern ≠ kAllUrlsPattern)
    (success : (create mask).parse isStandard pattern .strict = (.success, parsed)) :
    parsed.match_all_urls = false ∧ parsed.valid_schemes ≠ SCHEME_ALL ∧
      (parsed.scheme = ascii "*" ∨ parsed.isValidScheme parsed.scheme = true) := by
  obtain ⟨scheme, rest, parts⟩ := parts_of_parse bound ne (congrArg Prod.fst success)
  rw [parse_of_parts parts] at success
  obtain ⟨specific, isScheme, isValid⟩ := keeps_of_parseRest success
  refine ⟨specific.trans (fresh_create.setScheme).all, ?_⟩
  have accepts := parts.accepts
  rw [isValidScheme, isValid, isScheme]
  rw [setScheme] at accepts ⊢
  split_ifs at accepts ⊢ with any
  · refine ⟨fun isAll => ?_, .inl any⟩
    have top := congrArg BitVec.msb isAll
    have bottom : (SCHEME_HTTP ||| SCHEME_HTTPS).msb = false := by decide
    rw [BitVec.msb_and, bottom, Bool.and_false] at top
    exact absurd top (by decide)
  · exact ⟨bound, .inr accepts⟩

theorem all_of_parse
    (success : (create mask).parse isStandard kAllUrlsPattern .strict = (.success, parsed)) :
    parsed.match_all_urls = true ∧ parsed.scheme = ascii "*" ∧
      parsed.valid_schemes = mask ∧ parsed.match_subdomains = true ∧
      parsed.host = [] ∧ parsed.path_escaped = ascii "/*" := by
  obtain ⟨-, rfl⟩ := Prod.mk.inj success
  exact ⟨rfl, rfl, rfl, rfl, rfl, rfl⟩

/-- A pattern with one scheme matches the URLs with the scheme whose host and
path match. -/
def matchesHostAndPath (parsed : URLPattern) (test : GURL) : Bool :=
  parsed.matchesHost test && parsed.matchesPath test.pathForRequest

theorem matchesUrl_of_specific (specific : parsed.match_all_urls = false) : parsed.matchesUrl test =
      (parsed.matchesScheme test.scheme && parsed.matchesHostAndPath test) := by
  rw [matchesUrl, specific, matchesHostAndPath]
  cases parsed.matchesScheme test.scheme <;> cases parsed.matchesHost test <;>
    cases parsed.matchesPath test.pathForRequest <;> rfl

/-- A pattern for one of the valid schemes matches what the pattern for all of
them matches and has the scheme. -/
theorem matchesUrl_setScheme (notAny : scheme ≠ ascii "*") :
    ({ (parsed.setScheme scheme).1 with match_all_urls := false } : URLPattern).matchesUrl test =
      (parsed.isValidScheme test.scheme && test.scheme == scheme &&
        parsed.matchesHostAndPath test) := by
  rw [matchesUrl_of_specific rfl, setScheme, if_neg notAny, matchesScheme]
  have ne : (scheme == ascii "*") = false := beq_eq_false_iff_ne.mpr notAny
  rw [ne, Bool.false_or]
  rfl

theorem ne_any_of_mem_kValidSchemes : ∀ entry ∈ kValidSchemes, entry.1 ≠ ascii "*" := by decide

/-- Together the patterns with explicit schemes match the URLs with a valid
scheme whose host and path match. -/
theorem any_explicit (bound : parsed.valid_schemes ≠ SCHEME_ALL)
    (any : parsed.scheme = ascii "*") :
    (((kValidSchemes.filter fun (scheme, _) => parsed.matchesScheme scheme).map fun (scheme, _) =>
          ({ (parsed.setScheme scheme).1 with match_all_urls := false } :
            URLPattern)).any fun explicit => explicit.matchesUrl test) =
      (parsed.isValidScheme test.scheme && parsed.matchesHostAndPath test) := by
  rw [Bool.eq_iff_iff, List.any_eq_true, and_eq_true]
  constructor
  · rintro ⟨explicit, mem, matched⟩
    obtain ⟨entry, isEntry, rfl⟩ := List.mem_map.mp mem
    have notAny := ne_any_of_mem_kValidSchemes _ (mem_filter.mp isEntry).1
    rw [matchesUrl_setScheme notAny, and_eq_true, and_eq_true] at matched
    exact ⟨matched.1.1, matched.2⟩
  · rintro ⟨isValid, matched⟩
    have isEntry := isValid
    rw [isValidScheme, or_eq_true, beq_iff_eq, or_iff_right bound, List.any_eq_true] at isEntry
    obtain ⟨entry, mem, ok⟩ := isEntry
    rw [and_eq_true, beq_iff_eq] at ok
    have matchesIt : parsed.matchesScheme entry.1 = true := by
      rw [matchesScheme, ← ok.1, isValid, any, beq_self_eq_true]
      rfl
    refine ⟨_, List.mem_map_of_mem (mem_filter.mpr ⟨mem, matchesIt⟩), ?_⟩
    rw [matchesUrl_setScheme (ne_any_of_mem_kValidSchemes _ mem), isValid,
      matched, ok.1, beq_self_eq_true]
    rfl

/-- The patterns with explicit schemes match what a pattern with a scheme
matches. -/
theorem any_convertToExplicitSchemes
    (bound : mask ≠ SCHEME_ALL) (ne : pattern ≠ kAllUrlsPattern)
    (success : (create mask).parse isStandard pattern .strict = (.success, parsed)) :
    (parsed.convertToExplicitSchemes.any fun explicit =>
      explicit.matchesUrl test) = parsed.matchesUrl test := by
  obtain ⟨specific, notAll, ok⟩ := scheme_of_parse bound ne success
  rw [convertToExplicitSchemes]
  by_cases any : parsed.scheme = ascii "*"
  · rw [if_neg fun all => all.1 any, any_explicit notAll any,
      matchesUrl_of_specific specific, matchesScheme, any, beq_self_eq_true,
      Bool.true_or, Bool.and_true]
  · have isValid := ok.resolve_left any
    rw [if_pos ⟨any, by rw [specific]; rfl, isValid⟩, any_cons, any_nil, Bool.or_false]

/-- Those of the pattern for all URLs match only the paths that start with a
slash. -/
theorem any_convertToExplicitSchemes_all (bound : mask ≠ SCHEME_ALL)
    (success : (create mask).parse isStandard kAllUrlsPattern .strict = (.success, parsed)) :
    (parsed.convertToExplicitSchemes.any fun explicit => explicit.matchesUrl test) =
      (parsed.matchesUrl test && test.pathForRequest.head? == some 0x2f) := by
  obtain ⟨all, any, isMask, subdomains, noHost, isPath⟩ := all_of_parse success
  have hosts : parsed.matchesHost test = true := by
    rw [matchesHost, if_pos (And.intro subdomains noHost), ite_self]
  have paths : parsed.matchesPath test.pathForRequest =
      (test.pathForRequest.head? == some 0x2f) := by
    rw [matchesPath, isPath]
    exact matchPattern_star (by decide) (by decide) (by decide) _
  have schemes : parsed.matchesScheme test.scheme = parsed.isValidScheme test.scheme := by
    rw [matchesScheme, any, beq_self_eq_true, Bool.true_or, Bool.and_true]
  have whole : parsed.matchesUrl test = parsed.isValidScheme test.scheme := by
    rw [matchesUrl, all, schemes]
    cases parsed.isValidScheme test.scheme <;> rfl
  rw [convertToExplicitSchemes, if_neg fun all => all.1 any,
    any_explicit (by rwa [isMask]) any, matchesHostAndPath, hosts, paths, whole,
    Bool.true_and]

/-- A pattern that is parsed is printed and converted to patterns that match
the same URLs if and only if its host is not blank and, if it is for all URLs,
the path of a URL with a valid scheme starts with a slash. -/
theorem parse_keeps_matches (isStandard : Bytes -> Bool) (mask : BitVec 32)
    (bounded : mask ≠ SCHEME_ALL) (pattern : Bytes) (parsed : URLPattern)
    (success : (create mask).parse isStandard pattern .strict = (.success, parsed)) (test : GURL) :
    ((∃ again, (create mask).parse isStandard (parsed.getAsString isStandard) .strict =
          (.success, again) ∧ again.matchesUrl test = parsed.matchesUrl test) ∧
      (parsed.convertToExplicitSchemes.any fun explicit =>
        explicit.matchesUrl test) = parsed.matchesUrl test) ↔
    ¬ BlankHost isStandard pattern ∧ (pattern = kAllUrlsPattern ->
        (create mask).isValidScheme test.scheme = true ->
        test.pathForRequest.head? = some 0x2f) := by
  have printed : (∃ again, (create mask).parse isStandard (parsed.getAsString isStandard) .strict =
        (.success, again) ∧
      again.matchesUrl test = parsed.matchesUrl test) ↔
      ¬ BlankHost isStandard pattern := by
    rcases parse_getAsString bounded fresh_create success with
      ⟨notBlank, same⟩ | ⟨blank, fails⟩
    · exact iff_of_true ⟨parsed, same, rfl⟩ notBlank
    · refine iff_of_false ?_ (not_not.mpr blank)
      rintro ⟨again, succeeds, -⟩
      rw [succeeds] at fails
      cases fails
  have converted : (parsed.convertToExplicitSchemes.any fun explicit =>
      explicit.matchesUrl test) = parsed.matchesUrl test ↔
      (pattern = kAllUrlsPattern -> (create mask).isValidScheme test.scheme = true ->
        test.pathForRequest.head? = some 0x2f) := by
    by_cases isAll : pattern = kAllUrlsPattern
    · subst isAll
      obtain ⟨all, any, isMask, -⟩ := all_of_parse success
      have whole : parsed.matchesUrl test = (create mask).isValidScheme test.scheme := by
        have same : parsed.isValidScheme test.scheme = (create mask).isValidScheme test.scheme := by
          rw [isValidScheme, isMask]
          rfl
        rw [matchesUrl, all, matchesScheme, any, beq_self_eq_true,
          Bool.true_or, Bool.and_true, same]
        cases (create mask).isValidScheme test.scheme <;> rfl
      rw [any_convertToExplicitSchemes_all bounded success, whole]
      cases (create mask).isValidScheme test.scheme with
      | false => simp
      | true => simp
    · rw [any_convertToExplicitSchemes bounded isAll success]
      exact iff_of_true rfl fun same => absurd same isAll
  rw [printed, converted]

theorem parse_keeps_matches_subdomains :
    (∃ again, (create SCHEME_HTTP).parse (· == ascii "http") (getAsString
          ((create SCHEME_HTTP).parse (· == ascii "http")
            (ascii "http://*. a/x?*") .strict).2 (· == ascii "http")) .strict = (.success, again) ∧
      again.matchesUrl ⟨ascii "http", ascii "b.a", false, ascii "/x?y"⟩ =
        matchesUrl ((create SCHEME_HTTP).parse (· == ascii "http")
            (ascii "http://*. a/x?*") .strict).2
          ⟨ascii "http", ascii "b.a", false, ascii "/x?y"⟩) := by
  refine ((parse_keeps_matches (· == ascii "http") SCHEME_HTTP (by decide)
    (ascii "http://*. a/x?*") _ rfl
    ⟨ascii "http", ascii "b.a", false, ascii "/x?y"⟩).mpr ⟨?_, ?_⟩).1
  · rintro ⟨scheme_end_pos, found, -, -, blank⟩
    obtain rfl := some.inj found
    exact absurd (blank 0x2a (by decide)) (by decide)
  · intro isAll
    exact absurd isAll (by decide)

/-- A host of one space is printed as an empty host. The path of a URL of a
file system does not start with a slash. -/
theorem not_parse_keeps_matches : ((create SCHEME_HTTP).parse (· == ascii "http")
      (ascii "http:// /*") .strict).1 = .success ∧ ((create SCHEME_HTTP).parse (· == ascii "http")
      (getAsString ((create SCHEME_HTTP).parse (· == ascii "http")
        (ascii "http:// /*") .strict).2 (· == ascii "http")) .strict).1 = .emptyHost ∧
    ((create SCHEME_FILESYSTEM).parse (· == ascii "http")
      (ascii "<all_urls>") .strict).1 = .success ∧
    matchesUrl ((create SCHEME_FILESYSTEM).parse (· == ascii "http") (ascii "<all_urls>") .strict).2
      ⟨ascii "filesystem", [], false, ascii "http://a/x"⟩ = true ∧
    ((convertToExplicitSchemes ((create SCHEME_FILESYSTEM).parse (· == ascii "http")
          (ascii "<all_urls>") .strict).2).any fun explicit =>
      explicit.matchesUrl ⟨ascii "filesystem", [], false, ascii "http://a/x"⟩) = false := by
  decide

end URLPattern

end

end Chromium.Extensions
