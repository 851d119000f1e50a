import Chromium.Net.HttpUtil

/-!
# Names in the form of the DNS

A dotted name is rewritten to the lengths and characters of its labels, behind
which the root label stands.
-/

namespace Chromium.Net

open List Option

/-- Append a label that has been read to the name. -/
def appendLabel (label name : Bytes) : Option Bytes :=
  if label = [] then some name
  else if name.length + label.length + 1 > 255 then none
  else some (name ++ UInt8.ofNat label.length :: label)

/-- The loop of `DNSDomainFromDot`, with its label and name so far. -/
def readDotted : Bytes -> Bytes -> Bytes -> Option Bytes
  | [], label, name => do
      let name ← appendLabel label name
      if name.length + 1 > 255 then none else some (name ++ [0])
  | ch :: dotted, label, name =>
    if ch = 0x2e then do
      let name ← appendLabel label name
      readDotted dotted [] name
    else if label.length ≥ 63 then none
    else readDotted dotted (label ++ [ch]) name

section

variable (dotted : Bytes)

def dnsDomainFromDot : Option Bytes := readDotted dotted [] []

/-- The label behind a length, which is not read where it is cut short. -/
def dnsDomainToStringFrom : Nat -> Bool -> Bytes -> Bytes -> Bytes
  | _, _, ret, [] => ret
  | skip + 1, inner, ret, _ :: domain => dnsDomainToStringFrom skip inner ret domain
  | 0, inner, ret, length :: domain =>
    if length = 0 then ret
    else if length > 63 then []
    else if length.toNat > domain.length then []
    else
      dnsDomainToStringFrom length.toNat true
        (ret ++ (if inner then [0x2e] else []) ++ domain.take length.toNat)
        domain

def dnsDomainToString (domain : Bytes) : Bytes := dnsDomainToStringFrom 0 false [] domain

/-- As a signed character, one from `0x80` on is negative. -/
def isSTD3ASCIIValidCharacter (c : UInt8) : Bool :=
  if c ≥ 0x80 || c <= 0x2c then false
  else if c ≥ 0x7b then false
  else if c ≥ 0x2e && c <= 0x2f then false
  else if c ≥ 0x3a && c <= 0x40 then false
  else if c ≥ 0x5b && c <= 0x60 then false
  else true

/-- The labels of a dotted name. -/
def labelsOf : List Bytes := (dotted.splitOn 0x2e).filter (· ≠ [])

/-- The DNS form of labels. -/
def dnsForm : List Bytes -> Bytes
  | [] => [0]
  | label :: labels => UInt8.ofNat label.length :: label ++ dnsForm labels

@[simp] theorem dnsForm_nil : dnsForm [] = [0] := rfl

theorem dnsForm_cons (label : Bytes) (labels : List Bytes) :
    dnsForm (label :: labels) = UInt8.ofNat label.length :: (label ++ dnsForm labels) := rfl

/-- The labels have the sizes of a name. -/
structure Fits (labels : List Bytes) : Prop where
  short : ∀ label ∈ labels, label.length <= 63
  total : (dnsForm labels).length <= 255

instance (labels : List Bytes) : Decidable (Fits labels) :=
  decidable_of_iff ((∀ label ∈ labels, label.length <= 63) ∧ (dnsForm labels).length <= 255)
    ⟨fun both => ⟨both.1, both.2⟩, fun fits => ⟨fits.short, fits.total⟩⟩

/-- The labels behind one that is being read. -/
def labelsBehind (label dotted : Bytes) : List Bytes :=
  ((dotted.splitOn 0x2e).modifyHead (label ++ ·)).filter (· ≠ [])

theorem labelsBehind_nil : labelsBehind [] dotted = labelsOf dotted := by
  unfold labelsBehind labelsOf
  congr 1
  cases dotted.splitOn 0x2e <;> rfl

theorem labelsBehind_dot (label dotted : Bytes) : labelsBehind label (0x2e :: dotted) =
      (if label = [] then [] else [label]) ++ labelsOf dotted := by
  simp only [labelsBehind, splitOn_cons_eq_if_modifyHead, labelsOf]
  by_cases empty : label = []
  · simp [empty]
  · simp [empty]

theorem labelsBehind_cons (label dotted : Bytes) (inside : ch ≠ 0x2e) :
    labelsBehind label (ch :: dotted) = labelsBehind (label ++ [ch]) dotted := by
  have ne : ¬ (ch == 0x2e) = true := by simpa using inside
  rw [labelsBehind, splitOn_cons_eq_if_modifyHead, if_neg ne,
    modifyHead_modifyHead, labelsBehind]
  congr 2
  funext rest
  simp

/-- The label that is being read is the first of the name, or empty. -/
theorem exists_head_labelsBehind (dotted : Bytes) (some_ : label ≠ []) :
    ∃ rest labels, labelsBehind label dotted = (label ++ rest) :: labels := by
  unfold labelsBehind
  cases parts : dotted.splitOn 0x2e with
  | nil => exact absurd parts (splitOn_ne_nil _ _)
  | cons rest labels => exact ⟨rest, labels.filter (· ≠ []), by simp [some_]⟩

/-- What the loop reads, from any label and name so far. -/
theorem readDotted_eq (dotted label name : Bytes) (short : label.length <= 63) :
    readDotted dotted label name = if (∀ read ∈ labelsBehind label dotted, read.length <= 63) ∧
          name.length + (dnsForm (labelsBehind label dotted)).length <= 255 then
        some (name ++ dnsForm (labelsBehind label dotted))
      else none := by
  induction dotted generalizing label name with
  | nil =>
    have isBehind : labelsBehind label [] = if label = [] then [] else [label] := by
      by_cases empty : label = [] <;> simp [labelsBehind, empty]
    rw [isBehind]
    by_cases empty : label = []
    · have isRead : readDotted [] label name =
          if name.length + 1 > 255 then none else some (name ++ [0]) := by
        rw [readDotted, appendLabel, if_pos empty]
        rfl
      rw [isRead, if_pos empty]
      by_cases tooLong : name.length + 1 > 255
      · rw [if_pos tooLong, if_neg]
        rintro ⟨-, total⟩
        exact absurd total (Nat.not_le_of_gt tooLong)
      · rw [if_neg tooLong, if_pos]
        · rfl
        · exact ⟨forall_mem_nil _, Nat.le_of_not_gt tooLong⟩
    · have total : (name ++ UInt8.ofNat label.length :: label).length =
          name.length + label.length + 1 := by simp +arith
      simp only [readDotted, appendLabel, if_neg empty, mem_singleton,
        forall_eq, short, true_and, dnsForm_cons, dnsForm_nil,
        length_cons, length_append, length_nil]
      by_cases tooLong : name.length + label.length + 1 > 255
      · rw [if_pos tooLong, if_neg (by omega)]
        rfl
      · rw [if_neg tooLong, bind_eq_bind, bind_some, total]
        by_cases fits : name.length + label.length + 1 + 1 > 255
        · rw [if_pos fits, if_neg (by omega)]
        · rw [if_neg fits, if_pos (by omega)]
          simp
  | cons ch dotted ih =>
    by_cases isDot : ch = 0x2e
    · subst isDot
      rw [labelsBehind_dot, readDotted, if_pos rfl, appendLabel]
      by_cases empty : label = []
      · rw [if_pos empty, if_pos empty, bind_eq_bind, bind_some,
          ih [] name (by simp), labelsBehind_nil,
          nil_append]
      · rw [if_neg empty, if_neg empty, singleton_append]
        have total : (dnsForm (label :: labelsOf dotted)).length =
            label.length + 1 + (dnsForm (labelsOf dotted)).length := by
          rw [dnsForm_cons]
          simp +arith
        by_cases tooLong : name.length + label.length + 1 > 255
        · rw [if_pos tooLong, if_neg (by omega)]
          rfl
        · rw [if_neg tooLong, bind_eq_bind, bind_some, ih [] _ (by simp), labelsBehind_nil]
          simp only [forall_mem_cons, short, true_and, total, length_append, length_cons]
          congr 1
          · congr 1
            simp +arith
          · rw [dnsForm_cons]
            simp
    · rw [labelsBehind_cons label dotted isDot, readDotted, if_neg isDot]
      by_cases long : label.length ≥ 63
      · obtain ⟨rest, labels, isBehind⟩ :=
          exists_head_labelsBehind dotted (show label ++ [ch] ≠ [] from by simp)
        rw [if_pos long, if_neg]
        rintro ⟨shorts, -⟩
        have := shorts ((label ++ [ch]) ++ rest) (by simp [isBehind])
        simp at this
        omega
      · rw [if_neg long]
        exact ih _ _ (by simp; omega)

/-- A dotted name has a DNS form if and only if its labels have the sizes of a
name. -/
theorem dnsDomainFromDot_eq : dnsDomainFromDot dotted =
      if Fits (labelsOf dotted) then some (dnsForm (labelsOf dotted))
      else none := by
  rw [dnsDomainFromDot, readDotted_eq dotted [] [] (by simp), labelsBehind_nil]
  simp only [length_nil, Nat.zero_add, nil_append]
  congr 1
  exact propext ⟨fun both => ⟨both.1, both.2⟩, fun fits => ⟨fits.short, fits.total⟩⟩

end

/-!
## Transport security state

Entries of hosts are kept under hashes of their names in DNS form. A lookup
tries the name, and then the names of the domains it is in.
-/

namespace TransportSecurityState

/-- The loop of `CanonicalizeHost`, with the number of characters of the label
that are still to come. They are lowercased on the way. -/
def canonicalizeFrom : Nat -> Bytes -> Option Bytes
  | _, [] => some []
  | rest + 1, c :: new_host => (canonicalizeFrom rest new_host).map (toLowerASCII c :: ·)
  | 0, length :: new_host =>
    if length = 0 then some (length :: new_host)
    else
      let label := new_host.take length.toNat
      if !label.all isSTD3ASCIIValidCharacter then none
      else if (label.map toLowerASCII).head? = some 0x2d ∨
          (label.map toLowerASCII).getLast? = some 0x2d then none
      else (canonicalizeFrom length.toNat new_host).map (length :: ·)

/-- The empty string stands for a host that is not accepted. -/
def canonicalizeHost (host : Bytes) : Bytes :=
  match dnsDomainFromDot host with
  | none => []
  | some new_host => (canonicalizeFrom 0 new_host).getD []

/-- The parts of a canonicalized host from each of its labels on, but for the
root label. -/
def subChunks : Nat -> Bytes -> List Bytes
  | _, [] => []
  | rest + 1, _ :: canonicalized_host => subChunks rest canonicalized_host
  | 0, length :: canonicalized_host =>
    if length = 0 then []
    else (length :: canonicalized_host) :: subChunks length.toNat canonicalized_host

/-- The characters up to the first `NUL`, with the `NUL`. -/
def includeNUL (input : Bytes) : Bytes := input.takeWhile (· ≠ 0) ++ [0]

inductive Mode
  | MODE_STRICT
  | MODE_OPPORTUNISTIC
  | MODE_SPDY_ONLY
  | MODE_NONE
deriving DecidableEq

/-- Times are in microseconds. -/
structure DomainState where
  mode : Mode := .MODE_STRICT
  created : Int
  expiry : Int := 0
  include_subdomains : Bool := false
  public_key_hashes : List Bytes := []
  preloaded : Bool := false
  domain : Bytes := []
deriving DecidableEq

structure HSTSPreload where
  include_subdomains : Bool
  dns_name : Bytes
  https_required : Bool
  required_hashes : List Bytes

/-- The hash of host names, and the lists of built-in entries. -/
structure BuiltIn where
  hashHost : Bytes -> Bytes
  preloadedSTS : List HSTSPreload := []
  preloadedSNISTS : List HSTSPreload := []
  forced_hosts_ : Bytes -> Option DomainState := fun _ => none

/-- The dynamic entries under their hashes. -/
abbrev EnabledHosts := Bytes -> Option DomainState

section Operations

variable (builtIn : BuiltIn)

/-- What is returned is not found, found but not for this host, or found. -/
def hasPreload (entries : List HSTSPreload) (chunk : Bytes) (first : Bool) (out : DomainState) :
    Option (Option DomainState) :=
  (entries.find? (·.dns_name = chunk)).map fun entry =>
    if !entry.include_subdomains && !first then none
    else some { out with
      include_subdomains := entry.include_subdomains
      mode := if entry.https_required then out.mode else .MODE_NONE
      public_key_hashes := out.public_key_hashes ++ entry.required_hashes }

/-- The loop of `IsPreloadedSTS` over the parts of the host. -/
def isPreloadedFrom (sni_available : Bool) (out : DomainState) :
    Bool -> List Bytes -> Option DomainState
  | _, [] => none
  | first, chunk :: chunks =>
    let out := { out with domain := dnsDomainToString chunk }
    match builtIn.forced_hosts_ (builtIn.hashHost chunk) with
    | some forced => some { forced with
        domain := dnsDomainToString chunk
        preloaded := true }
    | none =>
      match hasPreload builtIn.preloadedSTS chunk first out with
      | some found => found
      | none =>
        match if sni_available then
            hasPreload builtIn.preloadedSNISTS chunk first out
          else none with
        | some found => found
        | none => isPreloadedFrom sni_available out false chunks

def isPreloadedSTS (canonicalized_host : Bytes) (sni_available : Bool) (out : DomainState) :
    Option DomainState :=
  isPreloadedFrom builtIn sni_available
    { out with
      preloaded := true
      mode := .MODE_STRICT
      include_subdomains := false }
    true (subChunks 0 canonicalized_host)

/-- The loop of `HasMetadata` over the parts of the host, which erases expired
entries. An entry is returned with whether it is for the host. -/
def hasMetadataFrom (current_time : Int) : Bool -> List Bytes -> EnabledHosts ->
      Option (Bool × DomainState) × EnabledHosts
  | _, [], enabled_hosts_ => (none, enabled_hosts_)
  | first, chunk :: chunks, enabled_hosts_ =>
    let hashed_domain := builtIn.hashHost (includeNUL chunk)
    match enabled_hosts_ hashed_domain with
    | none => hasMetadataFrom current_time false chunks enabled_hosts_
    | some state =>
      if current_time > state.expiry then
        hasMetadataFrom current_time false chunks
          (Function.update enabled_hosts_ hashed_domain none)
      else
        (some (first || state.include_subdomains, { state with domain := dnsDomainToString chunk }),
          enabled_hosts_)

variable (host : Bytes)

/-- The answer with the result, where one is found. -/
def hasMetadata (sni_available : Bool) (current_time : Int) (enabled_hosts_ : EnabledHosts) :
    Option (Bool × DomainState) × EnabledHosts :=
  let canonicalized_host := canonicalizeHost host
  if canonicalized_host = [] then (none, enabled_hosts_)
  else
    match isPreloadedSTS builtIn canonicalized_host sni_available { created := current_time } with
    | some result => (some (true, result), enabled_hosts_)
    | none =>
      hasMetadataFrom builtIn current_time true (subChunks 0 canonicalized_host) enabled_hosts_

/-- The result, if the answer is that the host is enabled. -/
def isEnabledForHost (sni_available : Bool) (current_time : Int) (enabled_hosts_ : EnabledHosts) :
    Option DomainState × EnabledHosts :=
  let looked := hasMetadata builtIn host sni_available current_time enabled_hosts_
  (looked.1.bind fun found =>
    if found.1 && found.2.mode ≠ .MODE_NONE then some found.2 else none,
    looked.2)

def enableHost (state : DomainState) (current_time : Int) (enabled_hosts_ : EnabledHosts) :
    EnabledHosts :=
  let canonicalized_host := canonicalizeHost host
  if canonicalized_host = [] then enabled_hosts_
  else if (isPreloadedSTS builtIn canonicalized_host true
      { created := current_time }).isSome then enabled_hosts_
  else
    let existing := isEnabledForHost builtIn host true current_time enabled_hosts_
    -- The first creation date of an enabled host is kept.
    let state_copy := { state with
      created := (existing.1.map DomainState.created).getD state.created
      preloaded := false
      domain := [] }
    Function.update existing.2 (builtIn.hashHost canonicalized_host) (some state_copy)

def deleteHost (enabled_hosts_ : EnabledHosts) : Bool × EnabledHosts :=
  let canonicalized_host := canonicalizeHost host
  if canonicalized_host = [] then (false, enabled_hosts_)
  else
    let hashed := builtIn.hashHost canonicalized_host
    if (enabled_hosts_ hashed).isSome then (true, Function.update enabled_hosts_ hashed none)
    else (false, enabled_hosts_)

end Operations

def deleteSince (time : Int) (enabled_hosts_ : EnabledHosts) : EnabledHosts :=
  fun hashed => (enabled_hosts_ hashed).filter (·.created < time)

/-- A dictionary of the serialised state, with its key decoded from base64. -/
structure Serialised where
  hashed : Option Bytes
  include_subdomains : Option Bool
  mode : Option String
  expiry : Option Int
  created : Option Int
  public_key_hashes : List Bytes

def parseMode : String -> Option Mode
  | "strict" => some .MODE_STRICT
  | "opportunistic" => some .MODE_OPPORTUNISTIC
  | "spdy-only" => some .MODE_SPDY_ONLY
  | "none" => some .MODE_NONE
  | _ => none

def externalStringToHashedDomain (decoded : Option Bytes) : Bytes :=
  match decoded with
  | none => []
  | some out => if out.length ≠ 32 then [] else out

/-- One round of the loop of `Deserialise`. -/
def Serialised.state (entry : Serialised) (current_time : Int) : Option (Bytes × DomainState) := do
  let include_subdomains ← entry.include_subdomains
  let mode_string ← entry.mode
  let expiry ← entry.expiry
  let mode ← parseMode mode_string
  if expiry <= current_time then none
  else
    let hashed := externalStringToHashedDomain entry.hashed
    if hashed = [] then none
    else some (hashed, {
      mode
      created := entry.created.getD current_time
      expiry
      include_subdomains
      public_key_hashes := entry.public_key_hashes })

/-- The entries of the dictionaries in order; there are none if the text is not
that of a dictionary. -/
def loadEntries (state : Option (List Serialised)) (current_time : Int) : EnabledHosts :=
  (state.getD []).foldl (fun out entry =>
      match entry.state current_time with
      | none => out
      | some (hashed, new_state) => Function.update out hashed (some new_state))
    fun _ => none

end TransportSecurityState

/-!
## The names of transport security

What a canonicalized host is, and what its parts are, is told by the labels of
the host. The entries in force are then those of the names in front of which no
more specific name has one.
-/

namespace TransportSecurityState

/-- A label as `CanonicalizeHost` accepts it. -/
def ValidLabel (label : Bytes) : Prop :=
  label.all isSTD3ASCIIValidCharacter = true ∧ (label.map toLowerASCII).head? ≠ some 0x2d ∧
    (label.map toLowerASCII).getLast? ≠ some 0x2d

instance (label : Bytes) : Decidable (ValidLabel label) := inferInstanceAs (Decidable (_ ∧ _))

/-- The labels of a host, in lower case. -/
def hostLabels (host : Bytes) : List Bytes :=
  (labelsOf host).map (List.map toLowerASCII)

/-- A host that `CanonicalizeHost` accepts. -/
structure ValidHost (host : Bytes) : Prop where
  fits : Fits (labelsOf host)
  valid : ∀ label ∈ labelsOf host, ValidLabel label

section Labels

variable {label : Bytes}

theorem toNat_length (short : label.length <= 63) :
    (UInt8.ofNat label.length).toNat = label.length := by
  rw [UInt8.toNat_ofNat']
  omega

theorem length_ne_zero (some_ : label ≠ []) (short : label.length <= 63) :
    UInt8.ofNat label.length ≠ 0 := by
  intro isZero
  have := congrArg UInt8.toNat isZero
  rw [toNat_length short] at this
  exact some_ (length_eq_zero_iff.mp this)

/-- The characters of a label are lowercased. -/
theorem canonicalizeFrom_append (label : Bytes) : canonicalizeFrom label.length (label ++ rest) =
      (canonicalizeFrom 0 rest).map (label.map toLowerASCII ++ ·) := by
  induction label with
  | nil => simp
  | cons c label ih =>
    rw [length_cons, cons_append, canonicalizeFrom, ih, Option.map_map]
    rfl

theorem subChunks_append (label : Bytes) :
    subChunks label.length (label ++ rest) = subChunks 0 rest := by
  induction label with
  | nil => rfl
  | cons c label ih => exact ih

/-- What `CanonicalizeHost` does with the labels of a name. -/
theorem canonicalizeFrom_dnsForm (ne : ∀ label ∈ labels, label ≠ [])
    (short : ∀ label ∈ labels, label.length <= 63) :
    canonicalizeFrom 0 (dnsForm labels) = if ∀ label ∈ labels, ValidLabel label then
        some (dnsForm (labels.map (List.map toLowerASCII)))
      else none := by
  induction labels with
  | nil => simp [dnsForm, canonicalizeFrom]
  | cons label labels ih =>
    rw [forall_mem_cons] at ne short
    rw [dnsForm_cons, canonicalizeFrom,
      if_neg (length_ne_zero ne.1 short.1), toNat_length short.1,
      take_left' rfl, canonicalizeFrom_append,
      ih ne.2 short.2]
    by_cases characters : label.all isSTD3ASCIIValidCharacter = true
    · rw [if_neg (by simp [characters])]
      by_cases hyphen : (label.map toLowerASCII).head? = some 0x2d ∨
          (label.map toLowerASCII).getLast? = some 0x2d
      · rw [if_pos hyphen, if_neg]
        intro ok
        obtain ⟨-, first, last⟩ := ok label mem_cons_self
        exact hyphen.elim first last
      · rw [if_neg hyphen]
        have ok : ValidLabel label := ⟨characters, not_or.mp hyphen⟩
        simp only [forall_mem_cons, ok, true_and]
        by_cases rest : ∀ label ∈ labels, ValidLabel label
        · rw [if_pos rest, if_pos rest]
          simp [dnsForm_cons]
        · rw [if_neg rest, if_neg rest]
          rfl
    · rw [if_pos (by simpa using characters), if_neg]
      intro ok
      exact characters (ok label mem_cons_self).1

/-- The parts of a name in DNS form are those of the names it is in. -/
theorem subChunks_dnsForm (ne : label ≠ []) (short : label.length <= 63) :
    subChunks 0 (dnsForm (label :: labels)) =
      dnsForm (label :: labels) :: subChunks 0 (dnsForm labels) := by
  rw [dnsForm_cons, subChunks, if_neg (length_ne_zero ne short),
    toNat_length short, subChunks_append]

@[simp] theorem subChunks_dnsForm_nil : subChunks 0 (dnsForm []) = [] := rfl

end Labels

section Hosts

theorem dnsForm_ne_nil : dnsForm labels ≠ [] := by
  cases labels <;> simp [dnsForm]

theorem ne_nil_of_mem_labelsOf (mem : label ∈ labelsOf host) : label ≠ [] := by
  simpa using (mem_filter.mp mem).2

/-- The canonicalized form of a host is the DNS form of its labels in lower
case. -/
theorem canonicalizeHost_of_valid (ok : ValidHost host) :
    canonicalizeHost host = dnsForm (hostLabels host) := by
  rw [canonicalizeHost, dnsDomainFromDot_eq, if_pos ok.fits]
  dsimp only
  rw [canonicalizeFrom_dnsForm (fun _ => ne_nil_of_mem_labelsOf)
    ok.fits.short, if_pos ok.valid]
  rfl

theorem canonicalizeHost_of_invalid (invalid : ¬ ValidHost host) : canonicalizeHost host = [] := by
  rw [canonicalizeHost, dnsDomainFromDot_eq]
  by_cases fits : Fits (labelsOf host)
  · rw [if_pos fits]
    dsimp only
    rw [canonicalizeFrom_dnsForm (fun _ => ne_nil_of_mem_labelsOf) fits.short,
      if_neg fun ok => invalid ⟨fits, ok⟩]
    rfl
  · rw [if_neg fits]

theorem canonicalizeHost_ne_nil_iff : canonicalizeHost host ≠ [] ↔ ValidHost host := by
  by_cases valid : ValidHost host
  · rw [canonicalizeHost_of_valid valid]
    exact iff_of_true dnsForm_ne_nil valid
  · exact iff_of_false (not_not.mpr (canonicalizeHost_of_invalid valid)) valid

theorem eq_zero_of_toLowerASCII (isNUL : toLowerASCII c = 0) : c = 0 := by
  unfold toLowerASCII at isNUL
  split at isNUL
  next capital =>
    rw [UInt8.le_iff_toNat_le, UInt8.le_iff_toNat_le] at capital
    have := congrArg UInt8.toNat isNUL
    simp at this capital
    omega
  · exact isNUL

/-- A label in lower case, as the names of entries have it. -/
structure Canonical (label : Bytes) : Prop where
  nonempty : label ≠ []
  short : label.length <= 63
  noNUL : 0 ∉ label

theorem canonical_of_mem_hostLabels (valid : ValidHost host) (mem : label ∈ hostLabels host) :
    Canonical label := by
  obtain ⟨original, isOriginal, rfl⟩ := List.mem_map.mp mem
  have ne := ne_nil_of_mem_labelsOf isOriginal
  refine ⟨by simpa using ne, ?_, ?_⟩
  · rw [length_map]
    exact valid.fits.short original isOriginal
  · intro hasNUL
    obtain ⟨c, isCharacter, isNUL⟩ := List.mem_map.mp hasNUL
    have ok := List.all_eq_true.mp (valid.valid original isOriginal).1 c isCharacter
    rw [eq_zero_of_toLowerASCII isNUL] at ok
    exact absurd ok (by decide)

theorem dnsForm_inj (canonical : ∀ label ∈ labels, Canonical label)
    (canonicalOthers : ∀ label ∈ others, Canonical label) (same : dnsForm labels = dnsForm others) :
    labels = others := by
  induction labels generalizing others with
  | nil =>
    cases others with
    | nil => rfl
    | cons other others =>
      rw [forall_mem_cons] at canonicalOthers
      rw [dnsForm_nil, dnsForm_cons, List.cons.injEq] at same
      exact absurd same.1.symm (length_ne_zero canonicalOthers.1.nonempty canonicalOthers.1.short)
  | cons label labels ih =>
    rw [forall_mem_cons] at canonical
    cases others with
    | nil =>
      rw [dnsForm_nil, dnsForm_cons, List.cons.injEq] at same
      exact absurd same.1 (length_ne_zero canonical.1.nonempty canonical.1.short)
    | cons other others =>
      rw [forall_mem_cons] at canonicalOthers
      rw [dnsForm_cons, dnsForm_cons, List.cons.injEq] at same
      have sizes := congrArg UInt8.toNat same.1
      rw [toNat_length canonical.1.short, toNat_length canonicalOthers.1.short] at sizes
      obtain ⟨isLabel, rest⟩ := List.append_inj same.2 sizes
      rw [isLabel, ih canonical.2 canonicalOthers.2 rest]

/-- The only `NUL` of a name in DNS form is the root label. -/
theorem includeNUL_dnsForm (canonical : ∀ label ∈ labels, Canonical label) :
    includeNUL (dnsForm labels) = dnsForm labels := by
  unfold includeNUL
  induction labels with
  | nil => rfl
  | cons label labels ih =>
    rw [forall_mem_cons] at canonical
    have noNUL : ∀ c ∈ label, decide (c ≠ 0) = true := by
      intro c mem
      rw [decide_eq_true_iff]
      rintro rfl
      exact canonical.1.noNUL mem
    have nonzero := length_ne_zero canonical.1.nonempty canonical.1.short
    rw [dnsForm_cons, takeWhile_cons_of_pos (by simpa using nonzero),
      takeWhile_append_of_pos noNUL, cons_append, append_assoc,
      ih canonical.2]

end Hosts

/-- What the entries of names are, whatever they are kept under. -/
abbrev Entries := List Bytes -> Option DomainState

/-- An entry, unless it has expired. -/
def live (current_time : Int) (entry : Option DomainState) : Option DomainState :=
  entry.filter fun state => current_time <= state.expiry

/-- The entry of a name that a name is in has not expired, and those of the more
specific ones have. -/
structure Decides (current_time : Int) (entries : Entries) (labels suffix : List Bytes)
    (state : DomainState) : Prop where
  part : suffix <:+ labels
  live : live current_time (entries suffix) = some state
  specific : ∀ other, other <:+ labels -> suffix.length < other.length ->
    TransportSecurityState.live current_time (entries other) = none

/-- The most specific entry in force enables a name. -/
def Enabled (current_time : Int) (entries : Entries) (labels : List Bytes) : Prop :=
  ∃ suffix state, Decides current_time entries labels suffix state ∧ state.mode ≠ .MODE_NONE ∧
    (suffix = labels ∨ state.include_subdomains = true)

/-- The entries but for that of the root. -/
def withoutRoot (entries : Entries) : Entries :=
  fun labels => if labels = [] then none else entries labels

/-- The most specific entry in force, with its name. -/
def mostSpecific (current_time : Int) (entries : Entries) :
    List Bytes -> Option (List Bytes × DomainState)
  | [] => (live current_time (entries [])).map ([], ·)
  | label :: labels =>
    match live current_time (entries (label :: labels)) with
    | some state => some (label :: labels, state)
    | none => mostSpecific current_time entries labels

section Entries

theorem mostSpecific_eq_some_iff : mostSpecific current_time entries labels = some (suffix, s) ↔
      Decides current_time entries labels suffix s := by
  induction labels with
  | nil =>
    simp only [mostSpecific, map_eq_some_iff, Prod.mk.injEq]
    constructor
    · rintro ⟨hit, isLive, rfl, rfl⟩
      refine ⟨suffix_rfl, isLive, ?_⟩
      intro other isPart longer
      rw [suffix_nil.mp isPart] at longer
      exact absurd longer (Nat.lt_irrefl _)
    · rintro ⟨isPart, isLive, -⟩
      obtain rfl := suffix_nil.mp isPart
      exact ⟨s, isLive, rfl, rfl⟩
  | cons label labels ih =>
    rw [mostSpecific]
    cases hit : live current_time (entries (label :: labels)) with
    | some first =>
      simp only [some.injEq, Prod.mk.injEq]
      constructor
      · rintro ⟨rfl, rfl⟩
        refine ⟨suffix_rfl, hit, ?_⟩
        intro other isPart longer
        have := isPart.length_le
        omega
      · rintro ⟨isPart, isLive, specific⟩
        have whole : suffix = label :: labels := by
          apply isPart.eq_of_length
          have := isPart.length_le
          apply Classical.byContradiction
          intro shorter
          have := specific (label :: labels) suffix_rfl (by omega)
          rw [hit] at this
          cases this
        subst whole
        rw [hit] at isLive
        cases isLive
        exact ⟨rfl, rfl⟩
    | none =>
      simp only [ih]
      constructor
      · rintro ⟨isPart, isLive, specific⟩
        refine ⟨isPart.trans (suffix_cons _ _), isLive, ?_⟩
        intro other isOther longer
        rcases suffix_cons_iff.mp isOther with rfl | inside
        · exact hit
        · exact specific other inside longer
      · rintro ⟨isPart, isLive, specific⟩
        rcases suffix_cons_iff.mp isPart with rfl | inside
        · rw [hit] at isLive
          cases isLive
        · exact ⟨inside, isLive, fun other isOther =>
            specific other (isOther.trans (suffix_cons _ _))⟩

/-- Only the entries in force of the names that a name is in count. -/
theorem mostSpecific_congr (same : ∀ part, part <:+ labels ->
      live current_time (entries part) = live current_time (others part)) :
    mostSpecific current_time entries labels = mostSpecific current_time others labels := by
  apply ext
  rintro ⟨suffix, s⟩
  rw [mostSpecific_eq_some_iff, mostSpecific_eq_some_iff]
  constructor
  · rintro ⟨isPart, isLive, specific⟩
    refine ⟨isPart, (same suffix isPart) ▸ isLive, ?_⟩
    intro other isOther longer
    rw [← same other isOther]
    exact specific other isOther longer
  · rintro ⟨isPart, isLive, specific⟩
    refine ⟨isPart, (same suffix isPart).symm ▸ isLive, ?_⟩
    intro other isOther longer
    rw [same other isOther]
    exact specific other isOther longer

theorem live_live (le : current_time <= later) :
    live later (live current_time entry) = live later entry := by
  unfold live
  cases entry with
  | none => rfl
  | some state =>
    by_cases inForce : current_time <= state.expiry
    · simp [Option.filter, inForce]
    · have expired : ¬ later <= state.expiry := by omega
      simp [Option.filter, inForce, expired]

end Entries

end TransportSecurityState

end Chromium.Net
