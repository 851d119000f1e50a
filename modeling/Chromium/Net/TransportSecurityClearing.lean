import Chromium.Library.Run
import Chromium.Net.TransportSecurityRuns

/-!
# Clearing recent transport security state

`DeleteSince` erases the entries that were created from a time on. An entry is
written with the creation date of the answer to a lookup of its host.
-/

namespace Chromium.Net.TransportSecurityState

open List Option Function Library

/-- The dynamic entries, with the times from which they exist without interruption. -/
structure History where
  enabled_hosts_ : EnabledHosts := fun _ => none
  since : Bytes -> Option Int := fun _ => none

section

variable (builtIn : BuiltIn)

def hostKey (host : Bytes) : Bytes := builtIn.hashHost (canonicalizeHost host)

/-- `EnableHost` writes an entry for a host. -/
def Writes (host : Bytes) (now : Int) : Prop :=
  canonicalizeHost host ≠ [] ∧
    isPreloadedSTS builtIn (canonicalizeHost host) true { created := now } = none

instance (host : Bytes) (now : Int) : Decidable (Writes builtIn host now) :=
  inferInstanceAs (Decidable (_ ∧ _))

/-- An operation at a time. An entry that is written exists since then, unless
the host has one in force. -/
def History.after (history : History) (op : Int × Operation) : History :=
  let enabled_hosts_ := perform builtIn history.enabled_hosts_ op
  let since := fun hashed => if (enabled_hosts_ hashed).isSome then history.since hashed else none
  match op with
  | (now, .enableHost host _) =>
    if Writes builtIn host now then
      let hashed := hostKey builtIn host
      let own := (live now (history.enabled_hosts_ hashed)).bind fun _ => history.since hashed
      { enabled_hosts_, since := Function.update since hashed (some (own.getD now)) }
    else { enabled_hosts_, since }
  | _ => { enabled_hosts_, since }

def History.step (history : History) (op : Int × Operation) : Option History :=
  some (history.after builtIn op)

/-- Hosts are enabled with the time of the call as their creation date. -/
def Dated (_ : History) : Int × Operation -> Prop
  | (now, .enableHost _ state) => state.created = now
  | (_, .loadEntries _) => False
  | _ => True

/-- Where a host is enabled, its own entry in force is one that the lookup finds
and that enables it, or else no other entry enables it. What is created at the
same time does not matter. -/
def FindsOwn (history : History) : Int × Operation -> Prop
  | (now, .enableHost host _) => Writes builtIn host now ->
    let own := live now (history.enabled_hosts_ (hostKey builtIn host))
    (∀ state, own = some state ->
      state.created = now ∨ hostLabels host ≠ [] ∧ state.mode ≠ .MODE_NONE) ∧
    (own = none -> ∀ state,
      (isEnabledForHost builtIn host true now history.enabled_hosts_).1 = some state ->
        state.created = now)
  | _ => True

end

/-- What `DeleteSince` leaves are the entries that exist since an earlier time. -/
def History.Clears (history : History) : Prop :=
  ∀ time hashed, (deleteSince time history.enabled_hosts_ hashed).isSome = true ↔
    ∃ first, history.since hashed = some first ∧ first < time

/-- Every entry has the creation date of its own. -/
def History.Exact (history : History) : Prop :=
  ∀ hashed, (history.enabled_hosts_ hashed).map DomainState.created = history.since hashed

variable {builtIn : BuiltIn} {history : History} {host : Bytes} {now : Int}
  {state : DomainState} {enabled_hosts_ : EnabledHosts}

theorem History.clears_iff_exact : history.Clears ↔ history.Exact := by
  refine forall_comm.trans (forall_congr' fun hashed => ?_)
  unfold deleteSince
  cases history.enabled_hosts_ hashed with
  | none =>
    cases history.since hashed with
    | none => simp
    | some first => simpa using ⟨first + 1, by omega⟩
  | some s =>
    cases history.since hashed with
    | none => simpa [filter_some] using ⟨s.created + 1, by omega⟩
    | some first =>
      suffices (∀ time, s.created < time ↔ first < time) ↔ s.created = first by
        simpa [filter_some] using this
      constructor
      · intro same
        have notLater := (same (first + 1)).mpr (by omega)
        have notEarlier := (same (s.created + 1)).mp (by omega)
        omega
      · intro same time
        rw [same]

/-- Entries are only erased. -/
def Thins (after before : EnabledHosts) : Prop :=
  ∀ hashed, after hashed = before hashed ∨ after hashed = none

theorem thins_update (key : Bytes) : Thins
    (Function.update enabled_hosts_ key none) enabled_hosts_ := by
  intro hashed
  by_cases same : hashed = key
  · rw [same, update_self]
    exact .inr rfl
  · rw [update_of_ne same]
    exact .inl rfl

theorem thins_hasMetadataFrom (first : Bool) (enabled_hosts_ : EnabledHosts) :
    Thins (hasMetadataFrom builtIn now first chunks enabled_hosts_).2 enabled_hosts_ := by
  induction chunks generalizing first enabled_hosts_ with
  | nil => exact fun _ => .inl rfl
  | cons chunk chunks ih =>
    rw [hasMetadataFrom]
    split
    · exact ih _ _
    · split
      · intro hashed
        rcases ih false (Function.update enabled_hosts_ (builtIn.hashHost (includeNUL chunk)) none)
          hashed with left | erased
        · rw [left]
          exact thins_update _ hashed
        · exact .inr erased
      · exact fun _ => .inl rfl

theorem thins_hasMetadata (sni_available : Bool) (enabled_hosts_ : EnabledHosts) :
    Thins (hasMetadata builtIn host sni_available now enabled_hosts_).2 enabled_hosts_ := by
  unfold hasMetadata
  dsimp only
  split
  · exact fun _ => .inl rfl
  · split
    · exact fun _ => .inl rfl
    · exact thins_hasMetadataFrom _ _

theorem hasMetadata_of_writes (writes : Writes builtIn host now) (enabled_hosts_ : EnabledHosts) :
    hasMetadata builtIn host true now enabled_hosts_ =
      hasMetadataFrom builtIn now true (subChunks 0 (canonicalizeHost host)) enabled_hosts_ := by
  rw [hasMetadata, if_neg writes.1, writes.2]

/-- A lookup of a host with an entry in force finds that, but for the root. -/
theorem created_of_own (writes : Writes builtIn host now)
    (own : live now (enabled_hosts_ (hostKey builtIn host)) = some state) :
    (isEnabledForHost builtIn host true now enabled_hosts_).1.map DomainState.created =
      if hostLabels host ≠ [] ∧ state.mode ≠ .MODE_NONE then some state.created else none := by
  have ok := canonicalizeHost_ne_nil_iff.mp writes.1
  have canonical := canonicalizeHost_of_valid ok
  obtain ⟨hit, inForce⟩ := filter_eq_some_iff.mp own
  rw [isEnabledForHost, hasMetadata_of_writes writes, canonical]
  cases isLabels : hostLabels host with
  | nil =>
    rw [subChunks_dnsForm_nil]
    simp [hasMetadataFrom]
  | cons label labels =>
    have isCanonical : ∀ label ∈ hostLabels host, Canonical label :=
      fun _ => canonical_of_mem_hostLabels ok
    rw [isLabels] at isCanonical
    rw [hostKey, canonical, isLabels] at hit
    have first := isCanonical label mem_cons_self
    rw [subChunks_dnsForm first.nonempty first.short, hasMetadataFrom,
      includeNUL_dnsForm isCanonical, hit]
    have notExpired : ¬ now > state.expiry := by simpa using inForce
    by_cases off : state.mode = .MODE_NONE <;> simp [notExpired, off]

/-- Entries that are only erased stay exact. -/
theorem History.Exact.thins (exact_ : history.Exact)
    (thins : Thins enabled_hosts_ history.enabled_hosts_) :
    Exact { enabled_hosts_, since := fun hashed =>
      if (enabled_hosts_ hashed).isSome then history.since hashed else none } := by
  intro hashed
  dsimp only
  rcases thins hashed with left | erased
  · rw [left, ← exact_ hashed]
    cases history.enabled_hosts_ hashed <;> rfl
  · rw [erased]
    rfl

/-- An entry that is written is exact if and only if the lookup finds the own
one. -/
theorem History.exact_enableHost_iff (exact_ : history.Exact)
    (writes : Writes builtIn host now) (dated : state.created = now) :
    (history.after builtIn (now, .enableHost host state)).Exact ↔
      FindsOwn builtIn history (now, .enableHost host state) := by
  have written : (history.after builtIn (now, .enableHost host state)).Exact ↔
      ((isEnabledForHost builtIn host true now history.enabled_hosts_).1.map
        DomainState.created).getD now =
      ((live now (history.enabled_hosts_ (hostKey builtIn host))).bind
        fun _ => history.since (hostKey builtIn host)).getD now := by
    have others := exact_.thins (@thins_hasMetadata builtIn host now true history.enabled_hosts_)
    simp only [after, Exact, if_pos writes, perform, enableHost, if_neg writes.1, writes.2,
      Option.isSome_none, Bool.false_eq_true, if_false, dated] at others ⊢
    constructor
    · intro exactAfter
      have own := exactAfter (hostKey builtIn host)
      rw [hostKey, update_self, update_self] at own
      exact some.inj own
    · intro same hashed
      by_cases own : hashed = hostKey builtIn host
      · subst own
        rw [hostKey, update_self, update_self]
        exact congrArg some same
      · have other := others hashed
        rw [hostKey] at own
        rw [update_of_ne own, hostKey, update_of_ne own, update_of_ne own]
        exact other
  rw [written, FindsOwn]
  cases inForce : live now (history.enabled_hosts_ (hostKey builtIn host)) with
  | none =>
    cases (isEnabledForHost builtIn host true now history.enabled_hosts_).1 <;> simp [writes]
  | some own =>
    have hit := exact_ (hostKey builtIn host)
    rw [(filter_eq_some_iff.mp inForce).1] at hit
    rw [created_of_own writes inForce, bind_some, ← hit]
    by_cases finds : hostLabels host ≠ [] ∧ own.mode ≠ .MODE_NONE
    · rw [if_pos finds]
      refine iff_of_true rfl fun _ => ⟨?_, fun isNone => absurd isNone (some_ne_none own)⟩
      rintro _ ⟨⟩
      exact .inr finds
    · rw [if_neg finds]
      constructor
      · rintro same -
        refine ⟨?_, fun isNone => absurd isNone (some_ne_none own)⟩
        rintro _ ⟨⟩
        exact .inl same.symm
      · intro findsOwn
        exact (((findsOwn writes).1 own rfl).resolve_right finds).symm

theorem History.exact_after_iff (exact_ : history.Exact) (dated : Dated history op) :
    (history.after builtIn op).Exact ↔ FindsOwn builtIn history op := by
  obtain ⟨now, op⟩ := op
  cases op with
  | enableHost host state =>
    by_cases writes : Writes builtIn host now
    · exact exact_enableHost_iff exact_ writes dated
    · have same : perform builtIn history.enabled_hosts_ (now, .enableHost host state) =
          history.enabled_hosts_ := by
        rw [perform, enableHost]
        dsimp only
        split
        · rfl
        · rename_i ok
          rw [if_pos (Option.isSome_iff_ne_none.mpr fun isNone => writes ⟨ok, isNone⟩)]
      refine iff_of_true ?_ fun writes' => absurd writes' writes
      rw [after, if_neg writes, same]
      exact exact_.thins fun _ => .inl rfl
  | deleteHost host =>
    refine iff_of_true (exact_.thins ?_) trivial
    rw [perform, deleteHost]
    dsimp only
    split_ifs
    · exact fun _ => .inl rfl
    · exact thins_update _
    · exact fun _ => .inl rfl
  | deleteSince time =>
    refine iff_of_true (exact_.thins fun hashed => ?_) trivial
    rw [perform, deleteSince]
    cases history.enabled_hosts_ hashed with
    | none => exact .inl rfl
    | some state => by_cases early : state.created < time <;> simp [filter_some, early]
  | loadEntries state => exact dated.elim
  | hasMetadata host sni_available =>
    exact iff_of_true (exact_.thins (thins_hasMetadata _ _)) trivial

/-- After any run of operations, `DeleteSince` leaves the entries that exist since
an earlier time if and only if hosts are enabled only where the lookup finds the
own entry. -/
theorem clears_run_iff (dated : Throughout (History.step builtIn) Dated {} ops) :
    Always (History.step builtIn) History.Clears {} ops ↔
      Throughout (History.step builtIn) (FindsOwn builtIn) {} ops := by
  refine always_iff_throughout History.clears_iff_exact.mpr ?_ ?_ (fun _ => rfl) dated
  · intro history op exact_ isDated finds
    exact ⟨_, rfl, (History.exact_after_iff exact_ isDated).mpr finds⟩
  · rintro history op _ exact_ isDated misses ⟨⟩ clears
    exact misses ((History.exact_after_iff exact_ isDated).mp (History.clears_iff_exact.mp clears))

/-- A host is enabled, and then a subdomain of it. -/
def subdomainLater : List (Int × Operation) :=
  [(1, .enableHost (ascii "a") { created := 1, expiry := 9, include_subdomains := true }),
    (5, .enableHost (ascii "b.a") { created := 5, expiry := 9 })]

theorem clears_run_iff_subdomain : Always (History.step plain) History.Clears {} subdomainLater ↔
      Throughout (History.step plain) (FindsOwn plain) {} subdomainLater :=
  clears_run_iff ⟨rfl, by rintro _ ⟨⟩; exact ⟨rfl, by simp [Throughout]⟩⟩

/-- The subdomain has the creation date of the host. -/
theorem not_clears_run : ¬ ∀ builtIn ops, Throughout (History.step builtIn) Dated {} ops ->
      Always (History.step builtIn) History.Clears {} ops := by
  intro claimed
  obtain ⟨-, _, ⟨⟩, -, _, ⟨⟩, clears⟩ := claimed plain subdomainLater
    ⟨rfl, by rintro _ ⟨⟩; exact ⟨rfl, by simp [Throughout]⟩⟩
  obtain ⟨first, isFirst, early⟩ := (clears 3 (hostKey plain (ascii "b.a"))).mp (by decide)
  have isLate : some 5 = some first := isFirst
  cases isLate
  exact absurd early (by decide)

end Chromium.Net.TransportSecurityState
