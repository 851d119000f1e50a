import Chromium.Net.TransportSecurityState

/-!
# Runs of the transport security state

The entries of names, which are never erased for their age, tell what the state
answers: it keeps those in force under the hashes of the names.
-/

namespace Chromium.Net.TransportSecurityState

open List Option Function

inductive Operation
  | enableHost (host : Bytes) (state : DomainState)
  | deleteHost (host : Bytes)
  | deleteSince (time : Int)
  | loadEntries (state : Option (List Serialised))
  /-- `IsEnabledForHost` or `HasPinsForHost`. -/
  | hasMetadata (host : Bytes) (sni_available : Bool)

/-- The hosts that an operation names. -/
def Operation.hosts : Operation -> List Bytes
  | .enableHost host _ | .deleteHost host | .hasMetadata host _ => [host]
  | .deleteSince _ | .loadEntries _ => []

section Runs

variable (builtIn : BuiltIn)

/-- An operation at a time. -/
def perform (enabled_hosts_ : EnabledHosts) : Int × Operation -> EnabledHosts
  | (current_time, .enableHost host state) =>
    enableHost builtIn host state current_time enabled_hosts_
  | (_, .deleteHost host) => (deleteHost builtIn host enabled_hosts_).2
  | (_, .deleteSince time) => deleteSince time enabled_hosts_
  | (current_time, .loadEntries state) => loadEntries state current_time
  | (current_time, .hasMetadata host sni_available) =>
    (hasMetadata builtIn host sni_available current_time enabled_hosts_).2

section

variable (ops : List (Int × Operation))

def run : EnabledHosts := ops.foldl (perform builtIn) fun _ => none

/-- The entry that enables a name. -/
def enabling (current_time : Int) (entries : Entries) (labels : List Bytes) : Option DomainState :=
  (mostSpecific current_time entries labels).bind fun found =>
    if found.2.mode ≠ .MODE_NONE ∧ (found.1 = labels ∨ found.2.include_subdomains = true) then
      some found.2
    else none

instance (host : Bytes) : Decidable (ValidHost host) :=
  decidable_of_iff (Fits (labelsOf host) ∧ ∀ label ∈ labelsOf host, ValidLabel label)
    ⟨fun both => ⟨both.1, both.2⟩, fun host => ⟨host.fits, host.valid⟩⟩

/-- The entries of names after an operation. -/
def update (entries : Entries) : Int × Operation -> Entries
  | (current_time, .enableHost host state) =>
    if ValidHost host then
      Function.update entries (hostLabels host) (some { state with
        created := ((enabling current_time (withoutRoot entries)
          (hostLabels host)).map DomainState.created).getD state.created
        preloaded := false
        domain := [] })
    else entries
  | (_, .deleteHost host) =>
    if ValidHost host then Function.update entries (hostLabels host) none
    else entries
  | (_, .deleteSince time) => fun labels => (entries labels).filter (·.created < time)
  | (current_time, .loadEntries state) =>
    fun labels => loadEntries state current_time (builtIn.hashHost (dnsForm labels))
  | (_, .hasMetadata _ _) => entries

/-- The entries of names that operations leave. -/
def entriesAfter : Entries := ops.foldl (update builtIn) fun _ => none

/-- The names of hosts, and of the domains they are in. -/
def names (hosts : List Bytes) : Set (List Bytes) :=
  {labels | ∃ host ∈ hosts, ValidHost host ∧ labels <:+ hostLabels host}

/-- The hosts that operations name. -/
def hostsOf : List Bytes := ops.flatMap fun op => op.2.hosts

end

/-- No built-in entry is for a name. -/
structure BuiltIn.Unlisted (labels : List Bytes) : Prop where
  preloaded : ∀ entry ∈ builtIn.preloadedSTS ++ builtIn.preloadedSNISTS,
    entry.dns_name ≠ dnsForm labels
  forced : builtIn.forced_hosts_ (builtIn.hashHost (dnsForm labels)) = none

/-- The state keeps the entries in force of names. -/
def Keeps (known : Set (List Bytes)) (current_time : Int) (enabled_hosts_ : EnabledHosts)
    (entries : Entries) : Prop :=
  ∀ labels ∈ known, live current_time (enabled_hosts_ (builtIn.hashHost (dnsForm labels))) =
      live current_time (entries labels)

end Runs

section Lookups

variable {known : Set (List Bytes)}

theorem hasPreload_of_unlisted (unlisted : ∀ entry ∈ listed, entry.dns_name ≠ chunk) (first : Bool)
    (out : DomainState) :
    hasPreload listed chunk first out = none := by
  rw [hasPreload, map_eq_none_iff, find?_eq_none]
  intro entry mem
  simpa using unlisted entry mem

theorem isPreloadedFrom_of_unlisted (canonical : ∀ label ∈ labels, Canonical label)
    (unlisted : ∀ part, part <:+ labels → builtIn.Unlisted part) (out : DomainState)
    (first : Bool) :
    isPreloadedFrom builtIn sni_available out first (subChunks 0 (dnsForm labels)) = none := by
  induction labels generalizing out first with
  | nil => rfl
  | cons label labels ih =>
    rw [forall_mem_cons] at canonical
    have whole := unlisted _ suffix_rfl
    have preloaded := whole.preloaded
    rw [forall_mem_append] at preloaded
    rw [subChunks_dnsForm canonical.1.nonempty canonical.1.short, isPreloadedFrom, whole.forced]
    simp only [hasPreload_of_unlisted preloaded.1, hasPreload_of_unlisted preloaded.2, ite_self]
    exact ih canonical.2 (fun part inside => unlisted part (inside.trans (suffix_cons _ _))) _ _

/-- What the rest of the name finds is not for the name itself. -/
theorem map_mostSpecific_cons : (mostSpecific current_time entries labels).map (fun hit =>
      ((false && hit.1 = labels) || hit.2.include_subdomains,
        { hit.2 with domain := dnsDomainToString (dnsForm hit.1) })) =
    (mostSpecific current_time entries labels).map fun hit =>
      ((first && hit.1 = label :: labels) || hit.2.include_subdomains,
        { hit.2 with domain := dnsDomainToString (dnsForm hit.1) }) := by
  cases isFound : mostSpecific current_time entries labels with
  | none => rfl
  | some hit =>
    obtain ⟨suffix, s⟩ := hit
    have inside := (mostSpecific_eq_some_iff.mp isFound).part.length_le
    have ne : suffix ≠ label :: labels := by
      rintro rfl
      rw [length_cons] at inside
      omega
    simp [ne]

/-- Erasing an expired entry leaves those in force. -/
theorem live_update_expired (hit : enabled_hosts_ key = some state)
    (expired : current_time > state.expiry) {hashed : Bytes} :
    live current_time (Function.update enabled_hosts_ key none hashed) =
      live current_time (enabled_hosts_ hashed) := by
  by_cases same : hashed = key
  · rw [same, update_self, hit]
    have out : ¬ current_time <= state.expiry := by omega
    simp [live, Option.filter, out]
  · rw [update_of_ne same]

theorem live_withoutRoot_congr
    (same : ∀ part, live current_time (entries part) = live current_time (others part)) :
    live current_time (withoutRoot entries part) = live current_time (withoutRoot others part) := by
  unfold withoutRoot
  split
  · rfl
  · exact same part

/-- A lookup answers with the most specific entry in force. -/
theorem hasMetadataFrom_fst (canonical : ∀ label ∈ labels, Canonical label) :
    (hasMetadataFrom builtIn current_time first (subChunks 0 (dnsForm labels)) enabled_hosts_).1 =
    (mostSpecific current_time (withoutRoot fun part =>
        enabled_hosts_ (builtIn.hashHost (dnsForm part))) labels).map
      fun hit =>
        ((first && hit.1 = labels) || hit.2.include_subdomains,
          { hit.2 with
            domain := dnsDomainToString (dnsForm hit.1) }) := by
  induction labels generalizing first enabled_hosts_ with
  | nil => rfl
  | cons label labels ih =>
    have isName := includeNUL_dnsForm canonical
    rw [forall_mem_cons] at canonical
    rw [subChunks_dnsForm canonical.1.nonempty canonical.1.short,
      hasMetadataFrom, isName, mostSpecific]
    simp only [withoutRoot, reduceCtorEq, if_false]
    cases hit : enabled_hosts_ (builtIn.hashHost (dnsForm (label :: labels))) with
    | none =>
      simp only [live, filter_none]
      rw [ih canonical.2, map_mostSpecific_cons]
    | some state =>
      by_cases expired : current_time > state.expiry
      · have out : ¬ current_time <= state.expiry := by omega
        simp only [if_pos expired, live, filter_some, out,
          decide_false, Bool.false_eq_true, if_false]
        rw [ih canonical.2, map_mostSpecific_cons]
        congr 1
        apply mostSpecific_congr
        intro part _
        exact live_withoutRoot_congr (fun name => live_update_expired hit expired)
      · have inForce : current_time <= state.expiry := by omega
        simp [if_neg expired, live, filter_some, inForce, decide_true]

/-- A lookup leaves the entries in force. -/
theorem live_hasMetadataFrom_snd (first : Bool) (hashed : Bytes) :
    live current_time ((hasMetadataFrom builtIn current_time first chunks
      enabled_hosts_).2 hashed) = live current_time (enabled_hosts_ hashed) := by
  induction chunks generalizing first enabled_hosts_ with
  | nil => rfl
  | cons chunk chunks ih =>
    rw [hasMetadataFrom]
    cases found : enabled_hosts_ (builtIn.hashHost (includeNUL chunk)) with
    | none => exact ih _
    | some state =>
      dsimp only
      split
      next expired =>
        rw [ih]
        exact live_update_expired found expired
      · rfl

end Lookups

section Operations

theorem isPreloadedSTS_of_unlisted (ok : ValidHost host)
    (unlisted : ∀ part, part <:+ hostLabels host -> builtIn.Unlisted part) :
    isPreloadedSTS builtIn (canonicalizeHost host) sni_available out = none := by
  rw [isPreloadedSTS, canonicalizeHost_of_valid ok]
  exact isPreloadedFrom_of_unlisted (fun _ => canonical_of_mem_hostLabels ok) unlisted _ _

theorem hasMetadata_of_invalid (invalid : ¬ ValidHost host) :
    hasMetadata builtIn host sni_available current_time enabled_hosts_ =
      (none, enabled_hosts_) := by
  rw [hasMetadata, if_pos (canonicalizeHost_of_invalid invalid)]

theorem hasMetadata_of_valid (ok : ValidHost host)
    (unlisted : ∀ part, part <:+ hostLabels host -> builtIn.Unlisted part) :
    hasMetadata builtIn host sni_available current_time enabled_hosts_ =
      hasMetadataFrom builtIn current_time true
        (subChunks 0 (dnsForm (hostLabels host))) enabled_hosts_ := by
  rw [hasMetadata, if_neg (canonicalizeHost_ne_nil_iff.mpr ok),
    isPreloadedSTS_of_unlisted ok unlisted, canonicalizeHost_of_valid ok]

section

variable (keeps : Keeps builtIn known current_time enabled_hosts_ entries)
include keeps

/-- A host is enabled by the entry that enables its name. -/
theorem created_isEnabledForHost (ok : ValidHost host)
    (isKnown : ∀ part, part <:+ hostLabels host -> part ∈ known)
    (unlisted : ∀ labels ∈ known, builtIn.Unlisted labels) (sni_available : Bool) :
    (isEnabledForHost builtIn host sni_available current_time
      enabled_hosts_).1.map DomainState.created =
    (enabling current_time (withoutRoot entries) (hostLabels host)).map DomainState.created := by
  have same : mostSpecific current_time (withoutRoot fun part =>
        enabled_hosts_ (builtIn.hashHost (dnsForm part))) (hostLabels host) =
      mostSpecific current_time (withoutRoot entries) (hostLabels host) := by
    apply mostSpecific_congr
    intro part inside
    unfold withoutRoot
    split
    · rfl
    · exact keeps part (isKnown part inside)
  rw [isEnabledForHost, hasMetadata_of_valid ok
    (fun part inside => unlisted part (isKnown part inside)),
    hasMetadataFrom_fst (fun _ => canonical_of_mem_hostLabels ok), same,
    enabling]
  cases mostSpecific current_time (withoutRoot entries) (hostLabels host) with
  | none => rfl
  | some found =>
    simp only [map_some, bind_some, Bool.true_and,
      Bool.and_eq_true, Bool.or_eq_true, decide_eq_true_eq, and_comm]
    split <;> rfl

/-- An erased entry of a known name is that of the name alone. -/
theorem keeps_write (noCollision : Set.InjOn builtIn.hashHost (dnsForm '' known))
    (canonical : ∀ labels ∈ known, ∀ label ∈ labels, Canonical label) (isKnown : labels ∈ known)
    (entry : Option DomainState) :
    Keeps builtIn known current_time (Function.update enabled_hosts_
        (builtIn.hashHost (dnsForm labels)) entry) (Function.update entries labels entry) := by
  intro other otherKnown
  by_cases same : other = labels
  · rw [same, update_self, update_self]
  · have ne : builtIn.hashHost (dnsForm other) ≠ builtIn.hashHost (dnsForm labels) := by
      intro collides
      exact same (dnsForm_inj (canonical other otherKnown) (canonical labels isKnown)
        (noCollision (Set.mem_image_of_mem _ otherKnown) (Set.mem_image_of_mem _ isKnown) collides))
    rw [update_of_ne ne, update_of_ne same]
    exact keeps other otherKnown

theorem Keeps.later {later : Int} (le : current_time <= later) :
    Keeps builtIn known later enabled_hosts_ entries := by
  intro labels isKnown
  rw [← live_live le, keeps labels isKnown, live_live le]

end

theorem live_filter (kept : DomainState -> Bool) (entry : Option DomainState) :
    live current_time (entry.filter kept) = (live current_time entry).filter kept := by
  unfold live
  rw [Option.filter_filter, Option.filter_filter]
  congr 1
  funext state
  exact Bool.and_comm _ _

section

variable (keeps : Keeps builtIn known current_time enabled_hosts_ entries)
include keeps

theorem keeps_hasMetadata (unlisted : ∀ labels ∈ known, builtIn.Unlisted labels)
    (isKnown : ValidHost host -> ∀ part, part <:+ hostLabels host -> part ∈ known) :
    Keeps builtIn known current_time
      (hasMetadata builtIn host sni_available current_time enabled_hosts_).2 entries := by
  by_cases valid : ValidHost host
  · rw [hasMetadata_of_valid valid (fun part inside => unlisted part (isKnown valid part inside))]
    intro labels isIn
    rw [live_hasMetadataFrom_snd]
    exact keeps labels isIn
  · rw [hasMetadata_of_invalid valid]
    exact keeps

/-- An operation on known names keeps the entries of names. -/
theorem keeps_perform (noCollision : Set.InjOn builtIn.hashHost (dnsForm '' known))
    (canonical : ∀ labels ∈ known, ∀ label ∈ labels, Canonical label)
    (unlisted : ∀ labels ∈ known, builtIn.Unlisted labels)
    (isKnown : ∀ host ∈ op.hosts, ValidHost host ->
      ∀ part, part <:+ hostLabels host -> part ∈ known) :
    Keeps builtIn known current_time (perform builtIn enabled_hosts_ (current_time, op))
      (update builtIn entries (current_time, op)) := by
  cases op with
  | enableHost host state =>
    have isIn := isKnown host mem_cons_self
    rw [perform, update, enableHost]
    by_cases ok : ValidHost host
    · dsimp only
      rw [if_pos ok, if_neg (canonicalizeHost_ne_nil_iff.mpr ok),
        isPreloadedSTS_of_unlisted ok
          (fun part inside => unlisted part (isIn ok part inside)),
        created_isEnabledForHost keeps ok (isIn ok) unlisted,
        canonicalizeHost_of_valid ok]
      exact keeps_write (keeps_hasMetadata keeps unlisted isIn)
        noCollision canonical (isIn ok _ suffix_rfl) _
    · rw [if_neg ok, if_pos (canonicalizeHost_of_invalid ok)]
      exact keeps
  | deleteHost host =>
    have isIn := isKnown host mem_cons_self
    rw [perform, update, deleteHost]
    by_cases ok : ValidHost host
    · have written := keeps_write keeps noCollision canonical (isIn ok _ suffix_rfl) none
      dsimp only
      rw [if_pos ok, if_neg (canonicalizeHost_ne_nil_iff.mpr ok),
        canonicalizeHost_of_valid ok]
      split
      · exact written
      next absent =>
        rw [not_isSome_iff_eq_none] at absent
        rw [← absent, update_eq_self] at written
        rw [absent] at written
        exact written
    · rw [if_neg ok, if_pos (canonicalizeHost_of_invalid ok)]
      exact keeps
  | deleteSince time =>
    intro labels isIn
    rw [perform, update, deleteSince, live_filter, live_filter, keeps labels isIn]
  | loadEntries state =>
    intro labels _
    rfl
  | hasMetadata host sni_available =>
    exact keeps_hasMetadata keeps unlisted (isKnown host mem_cons_self)

end

end Operations

section

theorem canonical_of_mem_names (isName : labels ∈ names hosts) :
    ∀ label ∈ labels, Canonical label := by
  obtain ⟨host, -, ok, isPart⟩ := isName
  intro label mem
  exact canonical_of_mem_hostLabels ok (isPart.subset mem)

/-- The state keeps the entries in force of the names of a run. -/
theorem keeps_run (ordered : (ops.map Prod.fst ++ [now]).Pairwise (· <= ·))
    (named : ∀ host ∈ hostsOf ops, host ∈ hosts)
    (noCollision : Set.InjOn builtIn.hashHost (dnsForm '' names hosts))
    (unlisted : ∀ labels ∈ names hosts, builtIn.Unlisted labels) :
    Keeps builtIn (names hosts) now (run builtIn ops) (entriesAfter builtIn ops) := by
  induction ops using reverseRecOn generalizing now with
  | nil => exact fun _ _ => rfl
  | append_singleton ops last ih =>
    rw [hostsOf, flatMap_append, forall_mem_append] at named
    rw [map_append, pairwise_append] at ordered
    obtain ⟨front, -, before⟩ := ordered
    rw [run, entriesAfter, foldl_append, foldl_append]
    obtain ⟨current_time, op⟩ := last
    have atTime : Keeps builtIn (names hosts) current_time
        (perform builtIn (run builtIn ops) (current_time, op))
        (update builtIn (entriesAfter builtIn ops) (current_time, op)) := by
      apply keeps_perform (ih front named.1) noCollision (fun _ => canonical_of_mem_names) unlisted
      intro host isHost ok part inside
      exact ⟨host, named.2 host (by simpa using isHost), ok, inside⟩
    exact atTime.later (before current_time (by simp) now (by simp))

theorem enabling_isSome_iff :
    (enabling current_time entries labels).isSome = true ↔ Enabled current_time entries labels := by
  unfold enabling Enabled
  constructor
  · intro enabled
    obtain ⟨s, isFound⟩ := isSome_iff_exists.mp enabled
    obtain ⟨⟨suffix, hit⟩, isMost, isState⟩ := bind_eq_some_iff.mp isFound
    split at isState
    next enables => exact ⟨suffix, hit, mostSpecific_eq_some_iff.mp isMost, enables⟩
    · cases isState
  · rintro ⟨suffix, s, decides, enables⟩
    rw [mostSpecific_eq_some_iff.mpr decides]
    simp [enables]

/-- After any run at times that do not decrease, a host is enabled if and only
if it is accepted and the most specific entry in force of its name and the
domains it is in, but for the root, enables it. -/
theorem isEnabledForHost_iff (builtIn : BuiltIn) (ops : List (Int × Operation))
    (host : Bytes) (sni_available : Bool) (now : Int)
    (ordered : (ops.map Prod.fst ++ [now]).Pairwise (· <= ·))
    (noCollision : Set.InjOn builtIn.hashHost (dnsForm '' names (host :: hostsOf ops)))
    (unlisted : ∀ labels ∈ names (host :: hostsOf ops), builtIn.Unlisted labels) :
    (isEnabledForHost builtIn host sni_available now (run builtIn ops)).1.isSome = true ↔
      canonicalizeHost host ≠ [] ∧ Enabled now (withoutRoot (entriesAfter builtIn ops))
          (hostLabels host) := by
  have keeps := keeps_run ordered (fun _ => mem_cons_of_mem _) noCollision unlisted
  by_cases valid : ValidHost host
  · have isKnown : ∀ part, part <:+ hostLabels host -> part ∈ names (host :: hostsOf ops) :=
      fun part inside => ⟨host, mem_cons_self, valid, inside⟩
    have created := congrArg isSome
      (created_isEnabledForHost keeps valid isKnown unlisted sni_available)
    rw [isSome_map, isSome_map] at created
    rw [created, enabling_isSome_iff]
    exact (and_iff_right (canonicalizeHost_ne_nil_iff.mpr valid)).symm
  · rw [isEnabledForHost, hasMetadata_of_invalid valid]
    exact iff_of_false Bool.false_ne_true
      fun accepted => accepted.1 (canonicalizeHost_of_invalid valid)

/-- No host is built in, and names are kept as they are. -/
def plain : BuiltIn where
  hashHost := id

theorem plain_unlisted : plain.Unlisted labels where
  preloaded _ member := absurd member not_mem_nil
  forced := rfl

/-- A subdomain of an enabled domain. -/
theorem isEnabledForHost_iff_subdomain :
    (isEnabledForHost plain (ascii "a.B") true 2 (run plain [(1, .enableHost (ascii "b")
          { created := 1, expiry := 2, include_subdomains := true })])
      ).1.isSome = true ↔
      canonicalizeHost (ascii "a.B") ≠ [] ∧
        Enabled 2 (withoutRoot (entriesAfter plain [(1, .enableHost (ascii "b")
          { created := 1, expiry := 2, include_subdomains := true })]))
          (hostLabels (ascii "a.B")) :=
  isEnabledForHost_iff plain _ _ true 2 (by decide)
    Function.injective_id.injOn fun _ _ => plain_unlisted

/-- An entry for the root is never found. -/
theorem not_isEnabledForHost_root : ¬ ∀ (ops : List (Int × Operation)) (host : Bytes) (now : Int),
      (ops.map Prod.fst ++ [now]).Pairwise (· <= ·) -> ((isEnabledForHost plain host true now
          (run plain ops)).1.isSome = true ↔ canonicalizeHost host ≠ [] ∧
            Enabled now (entriesAfter plain ops) (hostLabels host)) := by
  intro claimed
  have enabled := (claimed
    [(1, .enableHost (ascii ".") { created := 1, expiry := 2 })] (ascii ".") 1
    (by decide)).mpr
  have isEnabled := enabled ⟨by decide, ?_⟩
  · exact absurd isEnabled (by decide)
  · exact enabling_isSome_iff.mp (by decide)

end

end Chromium.Net.TransportSecurityState
