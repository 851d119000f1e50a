import Chromium.VisitedLink.MasterTable

/-!
# The visited links as a set

Over any sequence of additions and deletions the master's table stands for the
set of the fingerprints added and not deleted since.
-/

namespace Chromium.VisitedLink

open Library Library.Probing

section

variable (stands : StandsFor table visited)
include stands

/-- A table that was had for its size counts its items in 29 bits. -/
theorem StandsFor.nonZero_lt : table.nonZero <= table.tableLength ∧ 3 * table.nonZero < 2 ^ 31 := by
  have allocated := stands.allocated
  have size : sizeofFingerprint = 8 := rfl
  have counted : table.nonZero <= table.tableLength := Nat.count_le _
  rw [size] at allocated
  exact ⟨counted, by omega⟩

/-- A table of another set that agrees on all fingerprints that are not
null. -/
theorem StandsFor.congr
    (same : ∀ fp ≠ nullFingerprint, fp ∈ visited ↔ fp ∈ others) :
    StandsFor table others where
  wellFormed := stands.wellFormed
  contents fp taken := (stands.contents fp taken).trans (same fp taken)
  positive := stands.positive
  allocated := stands.allocated

/-- Adding a fingerprint to a table with room. -/
theorem StandsFor.addFingerprint (room : table.nonZero < table.tableLength)
    (fp : Fingerprint) :
    let added := table.addFingerprint fp
    StandsFor added.1 (visited ∪ {fp}) ∧ added.1.notReached = table.notReached ∧
      (added.2 = none -> added.1 = table) := by
  obtain ⟨wf, len, reached, -, present, contents⟩ :=
    Table.addFingerprint_spec stands.wellFormed room fp
  refine ⟨⟨wf, ?_, ?_, ?_⟩, reached, fun none => (present none).2⟩
  · intro other taken
    refine (contents other taken).trans ?_
    rw [stands.contents other taken, Set.mem_union, Set.mem_singleton_iff, or_comm]
  · rw [len]
    exact stands.positive
  · rw [len]
    exact stands.allocated

/-- Adding fingerprints to a table with room for all of them. -/
theorem StandsFor.addFingerprints (fps : List Fingerprint)
    (room : table.nonZero + fps.length <= table.tableLength) :
    let added := table.addFingerprints fps
    StandsFor added (visited ∪ {fingerprint | fingerprint ∈ fps}) ∧
      added.tableLength = table.tableLength ∧
      added.notReached = table.notReached ∧
      added.nonZero <= table.nonZero + fps.length := by
  obtain ⟨wf, len, reached, counted, contents⟩ :=
    Table.addFingerprints_spec stands.wellFormed room
  refine ⟨⟨wf, ?_, ?_, ?_⟩, len, reached, counted⟩
  · intro other taken
    refine (contents other taken).trans ?_
    rw [stands.contents other taken, Set.mem_union, Set.mem_ofPred_eq, or_comm]
  · rw [len]
    exact stands.positive
  · rw [len]
    exact stands.allocated

end

/-- A created table stands for the empty set, whatever was reached before. -/
theorem standsFor_created (created : Master.createURLTable env len = some newTable)
    (pos : 0 < len)
    (reached : Bool) :
    let table := { newTable with notReached := reached }
    StandsFor table ∅ ∧ table.tableLength = len ∧ table.nonZero = 0 := by
  unfold Master.createURLTable at created
  split at created
  · rename_i allocated
    obtain rfl := Option.some.inj created
    exact ⟨standsFor_empty pos allocated.1 reached,
      Table.tableLength_empty len, Table.nonZero_empty len⟩
  · exact absurd created (Option.some_ne_none _).symm

/-- What resizing does to a master whose table stands for a set. -/
structure Resized (before after : Master) (visited : Set Fingerprint) : Prop where
  failed : before.allocationFailed = true -> after.allocationFailed = true
  stands : StandsFor after.table visited
  room : before.table.nonZero < before.table.tableLength ->
    after.table.nonZero < after.table.tableLength
  roomy : after.allocationFailed = false -> Roomy after.table
  notReached : after.table.notReached = before.table.notReached
  tableBuilder : after.tableBuilder = before.tableBuilder
  addedSinceRebuild : after.addedSinceRebuild = before.addedSinceRebuild
  deletedSinceRebuild : after.deletedSinceRebuild = before.deletedSinceRebuild

/-- The bytes of a table do not matter to what a rewrite of the file leaves
in memory. -/
theorem resized_of_onlyWrites (written : OnlyWrites (before.setTable table) after)
    (stands : StandsFor table visited) (roomy : Roomy table)
    (reached : table.notReached = before.table.notReached) :
    Resized before after visited := by
  have same : after.table = table := written.table
  subst same
  exact ⟨written.allocationFailed.trans, stands, fun _ => roomy.room,
    fun _ => roomy, reached, written.tableBuilder, written.addedSinceRebuild,
    written.deletedSinceRebuild⟩

variable {master : Master}

section

variable (env : Environment)

/-- Resizing copies the set into a table with room. -/
theorem resizeTable_resized (stands : StandsFor master.table visited) :
    Resized master (master.resizeTable env
        (Master.newTableSizeForCount master.table.usedItems)) visited := by
  obtain ⟨-, small⟩ := stands.nonZero_lt
  have larger := newTableSizeForCount_roomy small
  rw [stands.wellFormed.counted]
  generalize Master.newTableSizeForCount master.table.nonZero = newSize at larger ⊢
  rw [Master.resizeTable]
  cases created : Master.createURLTable env newSize with
  | none => exact ⟨fun _ => rfl, stands, id, nofun, rfl, rfl, rfl, rfl⟩
  | some newTable =>
    obtain ⟨empty, len, none⟩ := standsFor_created created (by omega) master.table.notReached
    obtain ⟨copied, sameLength, reached, counted⟩ :=
      empty.addFingerprints (Master.storedFingerprints master.table)
        (by rw [length_storedFingerprints, len, none]; omega)
    rw [length_storedFingerprints, none, Nat.zero_add] at counted
    rw [len] at sameLength
    refine resized_of_onlyWrites (Master.writeFullTable_onlyWrites env _)
      (copied.congr ?_) ⟨by omega, ?_⟩ reached
    · intro fp taken
      rw [Set.empty_union, Set.mem_ofPred_eq, mem_storedFingerprints taken]
      exact stands.contents fp taken
    · rw [sameLength]
      exact Nat.le_trans (Nat.div_le_div_right counted) larger.2

/-- `ResizeTableIfNecessary` leaves a table with room for another addition. -/
theorem resizeTableIfNecessary_resized (stands : StandsFor master.table visited) :
    Resized master (master.resizeTableIfNecessary env).1 visited := by
  unfold Master.resizeTableIfNecessary
  dsimp only
  split
  · rename_i low
    have roomy := roomy_of_load stands.wellFormed stands.positive low.1
    exact ⟨id, stands, id, fun _ => roomy, rfl, rfl, rfl, rfl⟩
  · exact resizeTable_resized env stands

/-- `DeleteFingerprint` removes a fingerprint from the set. -/
theorem deleteFingerprint_spec (updateFile : Bool) (stands : StandsFor master.table visited)
    (room : master.table.nonZero < master.table.tableLength)
    (fp : Fingerprint) :
    let after := master.deleteFingerprint env updateFile fp
    StandsFor after.table (visited \ {fp}) ∧ after.table.nonZero <= master.table.nonZero ∧
      after.table.tableLength = master.table.tableLength ∧
      after.table.notReached = master.table.notReached ∧
      OnlyWrites (master.setTable after.table) after := by
  rw [Master.deleteFingerprint, if_neg (by omega)]
  by_cases visits : master.table.isVisited fp = true
  · rw [if_neg (by simpa using visits)]
    obtain ⟨notNull, removed, last, shuffled, shuffling⟩ :=
      Table.exists_shuffling stands.wellFormed room visits
    obtain ⟨wf, len, reached, fewer, contents⟩ :=
      shuffling.deletes stands.wellFormed notNull
    have table := shuffling.reshuffle
    let counted := master.setTable (master.table.countItems (-1))
    let noted := if updateFile then counted.writeUsedItemCountToFile else counted
    have notedWrites : OnlyWrites counted noted := by
      change OnlyWrites counted (if updateFile then counted.writeUsedItemCountToFile else counted)
      split
      · exact Master.writeUsedItemCountToFile_onlyWrites counted
      · exact .refl counted
    have notedTable : noted.table = master.table.countItems (-1) := notedWrites.table
    let deleted := noted.setTable (removed.addFingerprints shuffled)
    have reshuffled : noted.setTable (noted.table.reshuffle fp
              (noted.table.hashFingerprint fp)
              (noted.table.endRange (noted.table.hashFingerprint fp))) =
          deleted := by
      rw [notedTable, Table.endRange_countItems]
      exact congrArg noted.setTable table
    have deletedWrites : OnlyWrites (master.setTable (removed.addFingerprints shuffled)) deleted :=
      notedWrites.setTable _
    have after : (if updateFile then
            deleted.writeHashRangeToFile env (noted.table.hashFingerprint fp)
              (noted.table.endRange (noted.table.hashFingerprint fp))
          else deleted).table = removed.addFingerprints shuffled ∧
        OnlyWrites (master.setTable (removed.addFingerprints shuffled)) (if updateFile then
            deleted.writeHashRangeToFile env (noted.table.hashFingerprint fp)
              (noted.table.endRange (noted.table.hashFingerprint fp))
          else deleted) := by
      split
      · have written :=
          deletedWrites.trans (Master.writeHashRangeToFile_onlyWrites env deleted
              (noted.table.hashFingerprint fp)
              (noted.table.endRange (noted.table.hashFingerprint fp)))
        exact ⟨written.table, written⟩
      · exact ⟨rfl, deletedWrites⟩
    obtain ⟨sameTable, writes⟩ := after
    change let after :=
        if updateFile then (noted.setTable _).writeHashRangeToFile env _ _
        else noted.setTable _
      StandsFor after.table (visited \ {fp}) ∧ after.table.nonZero ≤ master.table.nonZero ∧
        after.table.tableLength = master.table.tableLength ∧
        after.table.notReached = master.table.notReached ∧
        OnlyWrites (master.setTable after.table) after
    rw [reshuffled]
    dsimp only
    rw [sameTable]
    refine ⟨⟨wf, ?_, ?_, ?_⟩, fewer.le, len, reached, writes⟩
    · intro other taken
      rw [contents other taken, stands.contents other taken, and_comm]
      rfl
    · rw [len]
      exact stands.positive
    · rw [len]
      exact stands.allocated
  · rw [if_pos (by simpa using visits)]
    refine ⟨stands.congr ?_, Nat.le_refl _, rfl, rfl, ⟨rfl, rfl, rfl, rfl, rfl⟩⟩
    intro other taken
    constructor
    · rintro mem
      refine ⟨mem, ?_⟩
      rintro rfl
      apply visits
      rw [Table.isVisited_iff stands.wellFormed room taken]
      exact (stands.contents _ taken).mpr mem
    · exact And.left

/-- Deleting fingerprints one by one removes them all from the set. -/
theorem foldl_deleteFingerprint_spec (updateFile : Bool) (stands : StandsFor master.table visited)
    (room : master.table.nonZero < master.table.tableLength)
    (fps : List Fingerprint) :
    let after := fps.foldl (Master.deleteFingerprint env updateFile) master
    StandsFor after.table (visited \ {fingerprint | fingerprint ∈ fps}) ∧
      after.table.nonZero <= master.table.nonZero ∧
      after.table.tableLength = master.table.tableLength ∧
      after.table.notReached = master.table.notReached ∧
      after.tableBuilder = master.tableBuilder := by
  induction fps generalizing master visited with
  | nil => exact ⟨by simpa using stands, Nat.le_refl _, rfl, rfl, rfl⟩
  | cons fingerprint rest ih =>
    obtain ⟨first, fewer, len, reached, writes⟩ :=
      deleteFingerprint_spec env updateFile stands room fingerprint
    obtain ⟨all, restFewer, restLength, restReached, restBuilder⟩ := ih first (by omega)
    have sets : visited \ {other | other ∈ fingerprint :: rest} =
          (visited \ {fingerprint}) \ {other | other ∈ rest} := by
      ext other
      simp [and_assoc]
    rw [sets]
    exact ⟨all, restFewer.trans fewer, restLength.trans len,
      restReached.trans reached, restBuilder.trans writes.tableBuilder⟩

end

/-- A call of the master. -/
inductive Operation
  | addURL (url : URL)
  | addURLs (urls : List URL)
  | deleteURLs (urls : List URL)
  | deleteAllURLs
  deriving DecidableEq

namespace Operation

/-- What a call means for the set of visited links. -/
def effect (visited : Set Fingerprint) : Operation -> Set Fingerprint
  | addURL url => visited ∪ {fingerprint | some fingerprint = url}
  | addURLs urls => visited ∪ {fingerprint | some fingerprint ∈ urls}
  | deleteURLs urls => visited \ {fingerprint | some fingerprint ∈ urls}
  | deleteAllURLs => ∅

end Operation

/-- Perform a call. -/
def Master.perform (env : Environment) (master : Master) : Operation -> Master
  | .addURL url => master.addURL env url
  | .addURLs urls => master.addURLs env urls
  | .deleteURLs urls => master.deleteURLs env urls
  | .deleteAllURLs => master.deleteAllURLs env

/-- Perform calls in order, each in its own environment. -/
def Master.performAll (master : Master) (calls : List (Environment × Operation)) : Master :=
  calls.foldl (fun master call => master.perform call.1 call.2) master

/-- The set of the links visited after calls: added, and not deleted since. -/
def visitedAfter (calls : List (Environment × Operation)) : Set Fingerprint :=
  calls.foldl (fun visited call => call.2.effect visited) ∅

namespace Master

theorem noteAddition_allocationFailed :
    (master.noteAddition fingerprint).allocationFailed = master.allocationFailed := by
  unfold noteAddition
  split <;> rfl

theorem tryToAddURL_allocationFailed (master : Master) (url : URL) :
    (master.tryToAddURL url).1.allocationFailed = master.allocationFailed := by
  cases url with
  | none => rfl
  | some fingerprint =>
    rw [tryToAddURL]
    split
    · exact noteAddition_allocationFailed
    · exact noteAddition_allocationFailed

section

variable (env : Environment)
include env

theorem resizeTable_allocationFailed (failed : master.allocationFailed = true) :
    (master.resizeTable env newSize).allocationFailed = true := by
  rw [resizeTable]
  split
  · rfl
  · exact (writeFullTable_onlyWrites env _).allocationFailed.trans failed

theorem resizeTableIfNecessary_allocationFailed (failed : master.allocationFailed = true) :
    (master.resizeTableIfNecessary env).1.allocationFailed = true := by
  unfold resizeTableIfNecessary
  dsimp only
  split
  · exact failed
  · exact resizeTable_allocationFailed env failed

theorem deleteFingerprint_allocationFailed (master : Master) :
    (master.deleteFingerprint env updateFile fingerprint).allocationFailed =
      master.allocationFailed := by
  have counted :=
    (writeUsedItemCountToFile_onlyWrites
      (master.setTable (master.table.countItems (-1)))).allocationFailed
  unfold deleteFingerprint
  split
  · rfl
  split
  · rfl
  cases updateFile with
  | false => rfl
  | true => exact (writeHashRangeToFile_onlyWrites env _ _ _).allocationFailed.trans counted

/-- A failed allocation stays recorded while fingerprints are deleted. -/
theorem foldl_deleteFingerprint_allocationFailed {fps : List Fingerprint} :
    (fps.foldl (deleteFingerprint env updateFile) master).allocationFailed =
      master.allocationFailed := by
  induction fps generalizing master with
  | nil => rfl
  | cons fingerprint rest ih => rw [List.foldl_cons, ih, deleteFingerprint_allocationFailed]

theorem deleteFingerprintsFromCurrentTable_allocationFailed
    (failed : master.allocationFailed = true) :
    (master.deleteFingerprintsFromCurrentTable env fingerprints).allocationFailed = true := by
  have resized : ((fingerprints.foldl (deleteFingerprint env
            !decide (fingerprints.length > kBigDeleteThreshold))
          master).resizeTableIfNecessary env).1.allocationFailed = true :=
    resizeTableIfNecessary_allocationFailed env
      ((foldl_deleteFingerprint_allocationFailed env).trans failed)
  unfold deleteFingerprintsFromCurrentTable
  dsimp only
  split
  · exact resized
  split
  · exact (writeFullTable_onlyWrites env _).allocationFailed.trans resized
  · exact resized

theorem addURL_allocationFailed (failed : master.allocationFailed = true) :
    (master.addURL env url).allocationFailed = true := by
  have tried := (tryToAddURL_allocationFailed master url).trans failed
  unfold addURL
  dsimp only
  split
  · split
    · exact tried
    · apply resizeTableIfNecessary_allocationFailed
      exact ((writeUsedItemCountToFile_onlyWrites _).trans
        (writeHashRangeToFile_onlyWrites env _ _ _)).allocationFailed.trans tried
  · exact tried

theorem addURLsStep_allocationFailed (failed : master.allocationFailed = true) :
    (master.addURLsStep env url).allocationFailed = true := by
  have tried := (tryToAddURL_allocationFailed master url).trans failed
  unfold addURLsStep
  dsimp only
  split
  · exact resizeTableIfNecessary_allocationFailed env tried
  · exact tried

theorem addURLs_allocationFailed (failed : master.allocationFailed = true) :
    (master.addURLs env urls).allocationFailed = true := by
  have added : (urls.foldl (addURLsStep env) master).allocationFailed = true := by
    induction urls generalizing master with
    | nil => exact failed
    | cons url rest ih => exact ih (addURLsStep_allocationFailed env failed)
  unfold addURLs
  dsimp only
  split
  · exact added
  · exact (writeFullTable_onlyWrites env _).allocationFailed.trans added

theorem foldl_deleteDuringRebuild_allocationFailed (fps : List Fingerprint)
    (failed : master.allocationFailed = true) :
    (fps.foldl (deleteDuringRebuild env) master).allocationFailed = true := by
  induction fps generalizing master with
  | nil => exact failed
  | cons fingerprint rest ih =>
    apply ih
    exact (deleteFingerprint_allocationFailed env _).trans failed

theorem deleteURLs_allocationFailed (failed : master.allocationFailed = true) :
    (master.deleteURLs env urls).allocationFailed = true := by
  unfold deleteURLs
  split
  · exact failed
  split
  · exact foldl_deleteDuringRebuild_allocationFailed env _ failed
  · exact deleteFingerprintsFromCurrentTable_allocationFailed env failed

theorem deleteAllURLs_allocationFailed (failed : master.allocationFailed = true) :
    (master.deleteAllURLs env).allocationFailed = true := by
  unfold deleteAllURLs
  dsimp only
  split
  · exact resizeTableIfNecessary_allocationFailed env failed
  · refine (writeFullTable_onlyWrites env _).allocationFailed.trans ?_
    exact resizeTableIfNecessary_allocationFailed env failed

/-- A failed allocation stays recorded. -/
theorem perform_allocationFailed (failed : master.allocationFailed = true) :
    (master.perform env op).allocationFailed = true := by
  cases op with
  | addURL url => exact addURL_allocationFailed env failed
  | addURLs urls => exact addURLs_allocationFailed env failed
  | deleteURLs urls => exact deleteURLs_allocationFailed env failed
  | deleteAllURLs => exact deleteAllURLs_allocationFailed env failed

end

end Master

/-- A master that serves a set of visited links and is not rebuilding. -/
structure Serving (master : Master) (visited : Set Fingerprint) : Prop where
  stands : StandsFor master.table visited
  roomy : Roomy master.table
  reached : master.table.notReached = false
  idle : master.tableBuilder = false

/-- A master that serves a set unless an allocation failed. -/
def Sound (master : Master) (visited : Set Fingerprint) : Prop :=
  master.allocationFailed = true ∨ Serving master visited

theorem Serving.onlyWrites (serving : Serving before visited) (writes : OnlyWrites before after) :
    Serving after visited :=
  ⟨writes.table ▸ serving.stands, writes.table ▸ serving.roomy,
    writes.table ▸ serving.reached, writes.tableBuilder.trans serving.idle⟩

/-- Writing the file serves the same set. -/
theorem Sound.onlyWrites (sound : Sound before visited) (writes : OnlyWrites before after) :
    Sound after visited := by
  rcases sound with failed | serving
  · exact .inl (writes.allocationFailed.trans failed)
  · exact .inr (serving.onlyWrites writes)

theorem Resized.sound (resized : Resized before after visited)
    (reached : before.table.notReached = false) (idle : before.tableBuilder = false) :
    Sound after visited := by
  by_cases failed : after.allocationFailed = true
  · exact .inl failed
  · exact .inr ⟨resized.stands, resized.roomy (by simpa using failed),
      resized.notReached.trans reached, resized.tableBuilder.trans idle⟩

theorem Serving.isFull (serving : Serving master visited) : master.isFull = false := by
  have spacious := serving.roomy.spacious
  have counted := serving.stands.wellFormed.counted
  rw [Master.isFull, counted, decide_eq_false_iff_not, not_lt]
  omega

theorem Serving.tryToAddURL (serving : Serving master visited) (url : URL) :
    let tried := master.tryToAddURL url
    StandsFor tried.1.table (visited ∪ {fingerprint | some fingerprint = url}) ∧
      tried.1.table.notReached = false ∧
      tried.1.tableBuilder = false ∧
      (tried.2 = none -> Roomy tried.1.table) := by
  cases url with
  | none =>
    refine ⟨serving.stands.congr ?_, serving.reached, serving.idle, fun _ => serving.roomy⟩
    simp
  | some fingerprint =>
    have noted : master.noteAddition fingerprint = master := by
      rw [Master.noteAddition, serving.idle]
      rfl
    obtain ⟨stands, reached, present⟩ :=
      serving.stands.addFingerprint serving.roomy.room fingerprint
    rw [Master.tryToAddURL, noted]
    dsimp only
    rw [serving.isFull, if_neg Bool.false_ne_true]
    refine ⟨stands.congr ?_, reached.trans serving.reached, serving.idle, ?_⟩
    · simp
    · intro none
      exact (present none).symm ▸ serving.roomy

section

variable (env : Environment)
include env

/-- Resizing where necessary serves the set the table stands for. -/
theorem resizeTableIfNecessary_sound (stands : StandsFor master.table visited)
    (reached : master.table.notReached = false) (idle : master.tableBuilder = false) :
    Sound (master.resizeTableIfNecessary env).1 visited :=
  (resizeTableIfNecessary_resized env stands).sound reached idle

theorem addURL_sound (serving : Serving master visited) :
    Sound (master.addURL env url) (visited ∪ {fingerprint | some fingerprint = url}) := by
  obtain ⟨stands, reached, idle, roomy⟩ := serving.tryToAddURL url
  unfold Master.addURL
  dsimp only
  split
  · rename_i index _
    rw [idle, if_neg Bool.false_ne_true]
    have written :=
      (Master.writeUsedItemCountToFile_onlyWrites (master.tryToAddURL url).1).trans
          (Master.writeHashRangeToFile_onlyWrites env _ index index)
    apply resizeTableIfNecessary_sound
    · exact written.table ▸ stands
    · exact written.table ▸ reached
    · exact written.tableBuilder.trans idle
  · rename_i none
    exact .inr ⟨stands, roomy none, reached, idle⟩

/-- One round of `AddURLs` adds to the set. -/
theorem addURLsStep_sound (serving : Serving master visited) :
    Sound (master.addURLsStep env url) (visited ∪ {fingerprint | some fingerprint = url}) := by
  obtain ⟨stands, reached, idle, roomy⟩ := serving.tryToAddURL url
  unfold Master.addURLsStep
  dsimp only
  rw [idle, Bool.not_false, Bool.true_and]
  split
  · exact resizeTableIfNecessary_sound env stands reached idle
  · rename_i none
    exact .inr ⟨stands, roomy (by simpa using none), reached, idle⟩

/-- The rounds of `AddURLs` add to the set. -/
theorem foldl_addURLsStep_sound (sound : Sound master visited) (urls : List URL) :
    Sound (urls.foldl (Master.addURLsStep env) master)
      (visited ∪ {fingerprint | some fingerprint ∈ urls}) := by
  induction urls generalizing master visited with
  | nil => simpa using sound
  | cons url rest ih =>
    have stepped : Sound (master.addURLsStep env url)
          (visited ∪ {fingerprint | some fingerprint = url}) := by
      rcases sound with failed | serving
      · exact .inl (Master.addURLsStep_allocationFailed env failed)
      · exact addURLsStep_sound env serving
    have all := ih stepped
    have sets : visited ∪ {fingerprint | some fingerprint ∈ url :: rest} =
          visited ∪ {fingerprint | some fingerprint = url} ∪
            {fingerprint | some fingerprint ∈ rest} := by
      ext fingerprint
      simp [or_assoc]
    rw [List.foldl_cons, sets]
    exact all

theorem addURLs_sound (serving : Serving master visited) :
    Sound (master.addURLs env urls) (visited ∪ {fingerprint | some fingerprint ∈ urls}) := by
  have added := foldl_addURLsStep_sound env (.inr serving) urls
  unfold Master.addURLs
  dsimp only
  split
  · exact added
  · exact added.onlyWrites (Master.writeFullTable_onlyWrites env _)

/-- Deleting fingerprints one by one serves a smaller set. -/
theorem foldl_deleteFingerprint_serving (updateFile : Bool) (serving : Serving master visited)
    (fps : List Fingerprint) :
    Serving (fps.foldl (Master.deleteFingerprint env updateFile) master)
      (visited \ {fingerprint | fingerprint ∈ fps}) := by
  obtain ⟨stands, fewer, len, reached, tableBuilder⟩ :=
    foldl_deleteFingerprint_spec env updateFile serving.stands serving.roomy.room fps
  have room := serving.roomy.room
  refine ⟨stands, ⟨by omega, ?_⟩, reached.trans serving.reached, tableBuilder.trans serving.idle⟩
  rw [len]
  exact Nat.le_trans (Nat.div_le_div_right fewer) serving.roomy.spacious

/-- `DeleteFingerprintsFromCurrentTable` removes from the set. -/
theorem deleteFingerprintsFromCurrentTable_sound (serving : Serving master visited)
    (fps : List Fingerprint) :
    Sound (master.deleteFingerprintsFromCurrentTable env fps)
      (visited \ {fingerprint | fingerprint ∈ fps}) := by
  have deleted :=
    foldl_deleteFingerprint_serving env
      (!decide (fps.length > kBigDeleteThreshold)) serving
      fps
  have resized := resizeTableIfNecessary_sound env deleted.stands deleted.reached deleted.idle
  unfold Master.deleteFingerprintsFromCurrentTable
  dsimp only
  split
  · exact resized
  split
  · exact resized.onlyWrites (Master.writeFullTable_onlyWrites env _)
  · exact resized

end

/-- Members of a `std::set` after an insertion. -/
theorem mem_setInsert {set : List Fingerprint} :
    other ∈ setInsert set element ↔ other = element ∨ other ∈ set := by
  unfold setInsert
  split
  · rename_i present
    constructor
    · exact .inr
    · rintro (rfl | member)
      · exact present
      · exact member
  · exact List.mem_orderedInsert (· <= ·)

/-- Members of a `std::set` after insertions. -/
theorem mem_foldl_setInsert {elements set : List Fingerprint} :
    other ∈ elements.foldl setInsert set ↔ other ∈ elements ∨ other ∈ set := by
  induction elements generalizing set with
  | nil => simp
  | cons element rest ih =>
    rw [List.foldl_cons, ih, mem_setInsert, List.mem_cons]
    tauto

/-- The fingerprints `DeleteURLs` is given. -/
theorem mem_filterMap_id {urls : List URL} :
    fingerprint ∈ urls.filterMap id ↔ some fingerprint ∈ urls := by
  simp

/-- `DeleteURLs` removes from the set. -/
theorem deleteURLs_sound (serving : Serving master visited) :
    Sound (master.deleteURLs env urls) (visited \ {fp | some fp ∈ urls}) := by
  unfold Master.deleteURLs
  split
  · rename_i empty
    rw [List.isEmpty_iff.mp empty]
    simpa [Sound] using Or.inr serving
  · rw [serving.idle, if_neg Bool.false_ne_true]
    have members : ∀ fp, fp ∈ (urls.filterMap id).foldl setInsert [] ↔
          some fp ∈ urls := by
      intro fp
      rw [mem_foldl_setInsert, mem_filterMap_id]
      simp
    have deleted :=
      deleteFingerprintsFromCurrentTable_sound env serving ((urls.filterMap id).foldl setInsert [])
    simpa only [members] using deleted

theorem deleteAllURLs_sound (serving : Serving master visited) :
    Sound (master.deleteAllURLs env) ∅ := by
  have cleared :=
    standsFor_empty serving.stands.positive serving.stands.allocated master.table.notReached
  unfold Master.deleteAllURLs
  dsimp only
  split
  · exact resizeTableIfNecessary_sound env cleared serving.reached serving.idle
  · refine Sound.onlyWrites ?_ (Master.writeFullTable_onlyWrites env _)
    exact resizeTableIfNecessary_sound env cleared serving.reached serving.idle

/-- Every call does to the table what it means for the set. -/
theorem perform_sound (sound : Sound master visited) :
    Sound (master.perform env op) (op.effect visited) := by
  rcases sound with failed | serving
  · exact .inl (Master.perform_allocationFailed env failed)
  · cases op with
    | addURL url => exact addURL_sound env serving
    | addURLs urls => exact addURLs_sound env serving
    | deleteURLs urls => exact deleteURLs_sound serving
    | deleteAllURLs => exact deleteAllURLs_sound serving

/-- A failed allocation stays recorded over calls. -/
theorem Master.performAll_allocationFailed (calls : List (Environment × Operation))
    (failed : master.allocationFailed = true) :
    (master.performAll calls).allocationFailed = true := by
  induction calls generalizing master with
  | nil => exact failed
  | cons call rest ih => exact ih (perform_allocationFailed call.1 failed)

/-- Calls do to the table what they mean for the set. -/
theorem performAll_sound (calls : List (Environment × Operation)) (sound : Sound master visited) :
    Sound (master.performAll calls)
      (calls.foldl (fun visited call => call.2.effect visited) visited) := by
  induction calls generalizing master visited with
  | nil => exact sound
  | cons call rest ih => exact ih (perform_sound sound)

/-- A master with an empty table serves the empty set. -/
theorem serving_created (long : 11 <= length)
    (empty : Master.createURLTable env length = some master.table)
    (idle : master.tableBuilder = false) :
    Serving master ∅ := by
  obtain ⟨stands, size, none⟩ := standsFor_created empty (by omega) master.table.notReached
  have reached : master.table.notReached = false := by
    unfold Master.createURLTable at empty
    split at empty
    · exact (Option.some.inj empty) ▸ rfl
    · exact absurd empty (Option.some_ne_none _).symm
  change master.table.tableLength = length at size
  change master.table.nonZero = 0 at none
  exact ⟨stands, ⟨by omega, by omega⟩, reached, idle⟩

/-- An environment that refuses nothing. -/
def permissive : Environment := ⟨fun _ => true, true, nullFingerprint⟩

/-- A master with an empty table and no file. -/
def Master.fresh (length : Nat) : Master :=
  ⟨Table.empty length, .replicate _ 0, false, [], [], false, [], false, false, false⟩

end Chromium.VisitedLink
