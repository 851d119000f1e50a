import Chromium.Net.HttpUtil
import Mathlib

/-!
# Host names of certificates

`X509Certificate::VerifyHostname` reads a host name once, and compares it with
each name of a certificate. It counts the dots of the host name where it wants
to know the number of labels.
-/

namespace Chromium.Net.X509Certificate

open List

def isAsciiAlpha (c : UInt8) : Bool := (0x41 <= c ∧ c <= 0x5a) ∨ (0x61 <= c ∧ c <= 0x7a)

def isAsciiDigit (c : UInt8) : Bool := 0x30 <= c ∧ c <= 0x39

/-- The variables of the loop over the host name. -/
structure HostScan where
  reference_name : Bytes := []
  found_alpha : Bool := false
  found_ip6_chars : Bool := false
  dot_count : Nat := 0
  first_dot_index : Option Nat := none
deriving DecidableEq

/-- One round of the loop, which returns at an invalid character. -/
def HostScan.read (scan : HostScan) (c : UInt8) : Option HostScan :=
  if isAsciiAlpha c then
    some { scan with
      reference_name := scan.reference_name ++ [toLowerASCII c]
      found_alpha := true }
  else if c = 0x2e then
    some { scan with
      reference_name := scan.reference_name ++ [c]
      dot_count := scan.dot_count + 1
      first_dot_index := scan.first_dot_index.or (some scan.reference_name.length) }
  else if c = 0x3a then
    some { scan with
      reference_name := scan.reference_name ++ [c]
      found_ip6_chars := true }
  else if c = 0x2d ∨ isAsciiDigit c then
    some { scan with reference_name := scan.reference_name ++ [c] }
  else none

/-- Drop one trailing dot. -/
def removeTrailingDot (name : Bytes) : Bytes :=
  if name.getLast? = some 0x2e then name.dropLast else name

/-- One round of the loop over the names of the certificate. -/
def matchesName (reference_name wildcard_domain cert_name : Bytes) : Bool :=
  if cert_name = [] ∨ 0 ∈ cert_name then false
  else
    let cert_match := removeTrailingDot (cert_name.map toLowerASCII)
    if reference_name.length < cert_match.length then false
    else if cert_match = reference_name then true
    else if wildcard_domain = [] ∨ cert_match.head? ≠ some 0x2a then false
    else cert_match.drop 1 = wildcard_domain

section

variable (hostname : Bytes)

def verifyHostname (cert_names : List Bytes) : Bool :=
  match hostname.foldlM HostScan.read {} with
  | none => false
  | some scan =>
    if scan.found_ip6_chars ∨ scan.found_alpha = false then
      hostname = ascii "127.0.0.1" ∧ hostname ∈ cert_names
    else
      let wildcard_domain :=
        if 2 <= scan.dot_count then scan.reference_name.drop (scan.first_dot_index.getD 0)
        else []
      cert_names.any (matchesName scan.reference_name wildcard_domain)

/-- Letters, digits, hyphens and dots. -/
def isHostChar (c : UInt8) : Bool := isAsciiAlpha c || isAsciiDigit c || c == 0x2d || c == 0x2e

/-- A host name with a letter. -/
def IsDomain : Prop := (∀ c ∈ hostname, isHostChar c) ∧ ∃ c ∈ hostname, isAsciiAlpha c

/-- The characters in front of the first dot. -/
def firstLabel : Bytes := hostname.take (hostname.idxOf 0x2e)

/-- The host name without its first label. -/
def afterFirstLabel : Bytes := hostname.drop (hostname.idxOf 0x2e)

/-- The number of labels that are not empty. -/
def labelCount : Nat := (hostname.splitOn 0x2e).countP (· ≠ [])

/-- A name of a certificate that is neither empty nor has a null. -/
def Usable (cert_name : Bytes) : Prop := cert_name ≠ [] ∧ 0 ∉ cert_name

/-- The name in lower case, without one trailing dot. -/
def canonicalName (cert_name : Bytes) : Bytes :=
  removeTrailingDot (cert_name.map toLowerASCII)

/-- The name is that of the host. -/
def NamesHost (hostname cert_name : Bytes) : Prop :=
  Usable cert_name ∧ canonicalName cert_name = hostname.map toLowerASCII

/-- The name has a wildcard for the first label of the host, which is not
empty. -/
def WildcardFor (hostname cert_name : Bytes) : Prop :=
  Usable cert_name ∧ firstLabel hostname ≠ [] ∧ canonicalName cert_name =
      0x2a :: (afterFirstLabel hostname).map toLowerASCII

/-- The names of a certificate admit a host. -/
def Admits (cert_names : List Bytes) : Prop :=
  (hostname = ascii "127.0.0.1" ∧ hostname ∈ cert_names) ∨
    (IsDomain hostname ∧ ∃ cert_name ∈ cert_names, NamesHost hostname cert_name ∨
        (WildcardFor hostname cert_name ∧ 3 <= labelCount hostname))

/-- A wildcard is used for a host with two dots but less than three labels, and
no name is that of the host. -/
def OverBroad (cert_names : List Bytes) : Prop :=
  IsDomain hostname ∧ 2 <= hostname.count 0x2e ∧ labelCount hostname < 3 ∧
    (∃ cert_name ∈ cert_names, WildcardFor hostname cert_name) ∧
    ∀ cert_name ∈ cert_names, ¬ NamesHost hostname cert_name

end

/-- What the loop has found out after some characters. -/
def HostScan.after (scan : HostScan) (hostname : Bytes) : HostScan where
  reference_name := scan.reference_name ++ hostname.map toLowerASCII
  found_alpha := scan.found_alpha || hostname.any isAsciiAlpha
  found_ip6_chars := scan.found_ip6_chars || hostname.contains 0x3a
  dot_count := scan.dot_count + hostname.count 0x2e
  first_dot_index := scan.first_dot_index.or (if 0x2e ∈ hostname then
      some (scan.reference_name.length + hostname.idxOf 0x2e)
    else none)

section Scan

variable {scan : HostScan}

theorem toLowerASCII_of_not_alpha (other : isAsciiAlpha c = false) : toLowerASCII c = c := by
  rw [toLowerASCII, if_neg]
  intro upper
  rw [isAsciiAlpha, decide_eq_false_iff_not] at other
  exact other (.inl upper)

theorem read_eq : scan.read c =
      if isHostChar c ∨ c = 0x3a then some (scan.after [c]) else none := by
  have letters : isAsciiAlpha 0x2e = false ∧ isAsciiAlpha 0x3a = false ∧
      isAsciiDigit 0x2e = false ∧ isAsciiDigit 0x3a = false := by
    decide
  rw [HostScan.read]
  by_cases isAlpha : isAsciiAlpha c
  · have notDot : c ≠ 0x2e := by
      rintro rfl
      cases letters.1.symm.trans isAlpha
    have notColon : c ≠ 0x3a := by
      rintro rfl
      cases letters.2.1.symm.trans isAlpha
    simp [HostScan.after, isHostChar, isAlpha, notDot, notColon, notDot.symm, notColon.symm]
  · rw [Bool.not_eq_true] at isAlpha
    have isLower := toLowerASCII_of_not_alpha isAlpha
    by_cases isDot : c = 0x2e
    · subst isDot
      simp [HostScan.after, isHostChar, isAlpha, isLower]
    · by_cases isColon : c = 0x3a
      · subst isColon
        simp [HostScan.after, isAlpha, isLower]
      · simp [HostScan.after, isHostChar, isAlpha, isLower, isDot, isColon,
          or_comm, Ne.symm isDot, Ne.symm isColon]

theorem after_cons : (scan.after [c]).after rest = scan.after (c :: rest) := by
  rw [HostScan.after, HostScan.after, HostScan.after, HostScan.mk.injEq]
  refine ⟨by simp, by simp [Bool.or_assoc], ?_, ?_, ?_⟩
  · simp [Bool.or_assoc]
  · rw [Nat.add_assoc, ← count_append, singleton_append]
  · by_cases isDot : c = 0x2e
    · subst isDot
      cases scan.first_dot_index <;> simp
    · have notDot : 0x2e ≠ c := Ne.symm isDot
      simp only [mem_cons, notDot, not_mem_nil, or_self, if_false,
        Option.or_none, false_or, length_append, map_cons,
        map_nil, length_singleton]
      rw [idxOf_cons_ne _ isDot, Nat.add_assoc, Nat.succ_eq_add_one, Nat.add_comm 1]

/-- The loop reads all characters if they are allowed. -/
theorem foldlM_read (hostname : Bytes) :
    hostname.foldlM HostScan.read scan = if ∀ c ∈ hostname, isHostChar c ∨ c = 0x3a then
        some (scan.after hostname)
      else none := by
  induction hostname generalizing scan with
  | nil => simp [HostScan.after]
  | cons c rest ih =>
    rw [foldlM_cons, read_eq]
    by_cases allowed : isHostChar c ∨ c = 0x3a
    · rw [if_pos allowed]
      show rest.foldlM HostScan.read (scan.after [c]) = _
      rw [ih, after_cons]
      simp only [forall_mem_cons, allowed, true_and]
    · rw [if_neg allowed, if_neg]
      · rfl
      · exact fun all => allowed (all c mem_cons_self)

end Scan

section Compare

variable {hostname : Bytes} {cert_name : Bytes}

section

variable (dots : 2 <= hostname.count 0x2e)
include dots

/-- With two dots there is a wildcard domain, which starts with the first. -/
theorem afterFirstLabel_ne_nil : (afterFirstLabel hostname).map toLowerASCII ≠ [] := by
  have mem : 0x2e ∈ hostname := count_pos_iff.mp (by omega)
  rw [Ne, map_eq_nil_iff, afterFirstLabel, drop_eq_nil_iff]
  exact Nat.not_le_of_lt (idxOf_lt_length_of_mem mem)

theorem firstLabel_ne_nil_iff : firstLabel hostname ≠ [] ↔ 0 < hostname.idxOf 0x2e := by
  have mem : 0x2e ∈ hostname := count_pos_iff.mp (by omega)
  have ne : hostname ≠ [] := ne_nil_of_mem mem
  rw [firstLabel, Ne, take_eq_nil_iff]
  simp [ne, Nat.pos_iff_ne_zero]

/-- A wildcard that is not longer than the host stands for a label. -/
theorem wildcard_length_le_iff :
    ((0x2a : UInt8) :: (afterFirstLabel hostname).map toLowerASCII).length <=
        (hostname.map toLowerASCII).length ↔ firstLabel hostname ≠ [] := by
  have mem : 0x2e ∈ hostname := count_pos_iff.mp (by omega)
  have inside := idxOf_lt_length_of_mem mem
  rw [firstLabel_ne_nil_iff dots, afterFirstLabel]
  simp only [length_cons, length_map, length_drop]
  omega

end

theorem eq_wildcard_iff {cert_match wildcard_domain : Bytes} :
    cert_match = 0x2a :: wildcard_domain ↔
      cert_match.head? = some 0x2a ∧ cert_match.drop 1 = wildcard_domain := by
  cases cert_match with
  | nil => simp
  | cons c rest => simp

/-- The name is that of the host, or has a wildcard for it where there are two
dots. -/
theorem matchesName_iff : matchesName (hostname.map toLowerASCII) (if 2 <= hostname.count 0x2e then
          (afterFirstLabel hostname).map toLowerASCII
        else []) cert_name ↔
      NamesHost hostname cert_name ∨
        (2 <= hostname.count 0x2e ∧ WildcardFor hostname cert_name) := by
  rw [matchesName, NamesHost, WildcardFor, Usable]
  split
  · rename_i bad
    refine iff_of_false Bool.false_ne_true ?_
    tauto
  · rename_i good
    rw [not_or] at good
    have usable : cert_name ≠ [] ∧ 0 ∉ cert_name := good
    rw [and_iff_right usable, and_iff_right usable, ← canonicalName]
    generalize canonicalName cert_name = cert_match
    by_cases dots : 2 <= hostname.count 0x2e
    · rw [if_pos dots, ← wildcard_length_le_iff dots]
      have ne := afterFirstLabel_ne_nil dots
      have isWildcard := @eq_wildcard_iff cert_match ((afterFirstLabel hostname).map toLowerASCII)
      simp only [dots, ne, true_and, false_or]
      by_cases same : cert_match = hostname.map toLowerASCII
      · rw [if_neg (by rw [same]; exact Nat.lt_irrefl _), if_pos same]
        exact iff_of_true rfl (.inl same)
      · rw [if_neg same]
        constructor
        · intro ok
          split at ok
          · cases ok
          · rename_i fits
            split at ok
            · cases ok
            · rename_i starts
              have isMatch := isWildcard.mpr ⟨not_not.mp starts, of_decide_eq_true ok⟩
              rw [← isMatch]
              exact .inr ⟨Nat.le_of_not_lt fits, rfl⟩
        · rintro (isName | ⟨fits, isMatch⟩)
          · exact (same isName).elim
          · obtain ⟨starts, ends⟩ := isWildcard.mp isMatch
            rw [← isMatch] at fits
            rw [if_neg (Nat.not_lt_of_le fits), if_neg (not_not_intro starts)]
            exact decide_eq_true ends
    · simp only [dots, if_false, false_and, or_false, true_or, if_true]
      by_cases same : cert_match = hostname.map toLowerASCII
      · rw [if_neg (by rw [same]; exact Nat.lt_irrefl _), if_pos same]
        exact iff_of_true rfl same
      · simp [same, ite_self, Bool.false_eq_true]

theorem length_splitOn (text : Bytes) :
    (text.splitOn separator).length = text.count separator + 1 := by
  induction text with
  | nil => rfl
  | cons c rest ih =>
    rw [splitOn_cons_eq_if_modifyHead, count_cons]
    split
    · rw [length_cons, ih]
    · rw [length_modifyHead, ih, Nat.add_zero]

/-- The labels are the parts between the dots. -/
theorem labelCount_le : labelCount hostname <= hostname.count 0x2e + 1 := by
  rw [labelCount, ← length_splitOn]
  exact countP_le_length

theorem not_isDomain_localhost : ¬ IsDomain (ascii "127.0.0.1") := by
  have noLetter : ¬ ∃ c ∈ ascii "127.0.0.1", isAsciiAlpha c := by decide
  exact fun isDomain => noLetter isDomain.2

/-- The flags of the loop tell whether it has read a host name with a letter. -/
theorem isDomain_iff (allowed : ∀ c ∈ hostname, isHostChar c ∨ c = 0x3a) :
    ¬ (hostname.contains 0x3a ∨ hostname.any isAsciiAlpha = false) ↔ IsDomain hostname := by
  have notColon : isHostChar 0x3a = false := by decide
  rw [not_or, contains_iff_mem, Bool.not_eq_false, List.any_eq_true, IsDomain]
  refine and_congr_left fun _ => ⟨fun absent c mem => ?_, fun all isIn => ?_⟩
  · rcases allowed c mem with isHost | rfl
    · exact isHost
    · exact (absent mem).elim
  · cases notColon.symm.trans (all _ isIn)

/-- The wildcard domain is the host after its first label. -/
theorem wildcard_domain_eq : (if 2 <= hostname.count 0x2e then
      (hostname.map toLowerASCII).drop
        ((if 0x2e ∈ hostname then some (hostname.idxOf 0x2e) else none).getD 0)
    else
      []) =
      if 2 <= hostname.count 0x2e then (afterFirstLabel hostname).map toLowerASCII
      else [] := by
  split
  · rename_i dots
    have mem : 0x2e ∈ hostname := count_pos_iff.mp (by omega)
    rw [if_pos mem, afterFirstLabel, map_drop]
    rfl
  · rfl

/-- What is returned for a host name. -/
theorem verifyHostname_iff : verifyHostname hostname cert_names ↔
      (hostname = ascii "127.0.0.1" ∧ hostname ∈ cert_names) ∨
        (IsDomain hostname ∧ ∃ cert_name ∈ cert_names, NamesHost hostname cert_name ∨
            (2 <= hostname.count 0x2e ∧ WildcardFor hostname cert_name)) := by
  have allHostChars : ∀ c ∈ ascii "127.0.0.1", isHostChar c := List.all_eq_true.mp rfl
  rw [verifyHostname, foldlM_read]
  by_cases allowed : ∀ c ∈ hostname, isHostChar c ∨ c = 0x3a
  · rw [if_pos allowed]
    dsimp only [HostScan.after]
    simp only [Bool.false_or, nil_append, Option.none_or, Nat.zero_add,
      length_nil, wildcard_domain_eq]
    by_cases isDomain : IsDomain hostname
    · have notLocal : hostname ≠ ascii "127.0.0.1" := by
        rintro rfl
        exact not_isDomain_localhost isDomain
      rw [if_neg ((isDomain_iff allowed).mpr isDomain), List.any_eq_true]
      simp [matchesName_iff, notLocal, isDomain]
    · rw [if_pos (not_not.mp fun no => isDomain ((isDomain_iff allowed).mp no))]
      simp only [isDomain, false_and, or_false]
      exact decide_eq_true_iff
  · rw [if_neg allowed]
    refine iff_of_false Bool.false_ne_true ?_
    rintro (⟨rfl, -⟩ | ⟨isDomain, -⟩)
    · exact allowed fun c mem => .inl (allHostChars c mem)
    · exact allowed fun c mem => .inl (isDomain.1 c mem)

/-- For every host name and all names, the function returns what it should if and
only if no wildcard is over-broad. -/
theorem verifyHostname_iff_admits (hostname : Bytes) (cert_names : List Bytes) :
    (verifyHostname hostname cert_names ↔ Admits hostname cert_names) ↔
      ¬ OverBroad hostname cert_names := by
  have enough : 3 <= labelCount hostname -> 2 <= hostname.count 0x2e := by
    have bound := @labelCount_le hostname
    omega
  rw [verifyHostname_iff, Admits, OverBroad]
  constructor
  · rintro same ⟨isDomain, dots, few, ⟨cert_name, member, wildcard⟩, noName⟩
    rcases same.mp (.inr ⟨isDomain, cert_name, member, .inr ⟨dots, wildcard⟩⟩)
      with ⟨rfl, -⟩ | ⟨-, other, otherMember, isName | ⟨-, many⟩⟩
    · exact not_isDomain_localhost isDomain
    · exact noName other otherMember isName
    · omega
  · intro notBroad
    refine or_congr_right (and_congr_right fun isDomain => ⟨?_, ?_⟩)
    · rintro ⟨cert_name, member, isName | ⟨dots, wildcard⟩⟩
      · exact ⟨cert_name, member, .inl isName⟩
      · by_cases many : 3 <= labelCount hostname
        · exact ⟨cert_name, member, .inr ⟨wildcard, many⟩⟩
        · -- Another name is that of the host.
          by_contra refused
          refine notBroad ⟨isDomain, dots, Nat.lt_of_not_le many,
            ⟨cert_name, member, wildcard⟩, fun other otherMember isName => ?_⟩
          exact refused ⟨other, otherMember, .inl isName⟩
    · rintro ⟨cert_name, member, isName | ⟨wildcard, many⟩⟩
      · exact ⟨cert_name, member, .inl isName⟩
      · exact ⟨cert_name, member, .inr ⟨enough many, wildcard⟩⟩

/-- A wildcard for a whole top level domain. -/
theorem overBroad_trailing_dot : verifyHostname (ascii "foo.com.") [ascii "*.com.."] ∧
      ¬ Admits (ascii "foo.com.") [ascii "*.com.."] := by
  refine ⟨by decide, ?_⟩
  rintro (⟨isLocal, -⟩ | ⟨-, cert_name, member, ⟨-, isName⟩ | ⟨-, many⟩⟩)
  · exact absurd isLocal (by decide)
  · rw [mem_singleton.mp member] at isName
    exact absurd isName (by decide)
  · exact absurd many (by decide)

end Compare

end Chromium.Net.X509Certificate
