import Chromium.DiskCache.BlockFileChain

/-!
# Runs of chains of block files

No live block is lost with its file: in every run of creating and deleting
blocks, with a stop of the process after any write and the reopening that
follows it, every file counts at least the live blocks it stores, so that only
files without live blocks are taken from a chain and deleted.
-/

namespace Chromium.DiskCache

open List hiding after count map
open Function Option
open Library

namespace BlockFiles

/-- The link of each file and its map. -/
def links (state : BlockFiles) (number : Nat) : Option (Nat × AllocBitmap) :=
  (state.files number).map fun file => (file.header.next_file, file.header.allocation_map)

/-- A file that another one links to. -/
def Linked (state : BlockFiles) (number : Nat) : Prop :=
  ∃ other map, state.links other = some (number, map)

/-- The files hold the live blocks, which are given for each file. -/
structure Holding (live : Nat -> List (Nat × Nat)) (state : BlockFiles) : Prop where
  holds : ∀ number file, state.files number = some file ->
    Holds number (live number) (live number).length file
  missing : ∀ number, state.files number = none -> live number = []
  linked : ∀ number, kFirstAdditionalBlockFile <= number -> live number ≠ [] -> state.Linked number
  additional : ∀ number next map, state.links number = some (next, map) ->
    next = 0 ∨ kFirstAdditionalBlockFile <= next
  first : ∀ number < kFirstAdditionalBlockFile, state.links number ≠ none
  mapped : ∀ number, state.opened number = true -> state.links number ≠ none

variable {state : BlockFiles}

theorem links_of_files (present : state.files number = some file) :
    state.links number = some (file.header.next_file, file.header.allocation_map) := by
  rw [links, present, map_some]

theorem files_of_links {next : Nat} (present : state.links number = some (next, map)) :
    ∃ file, state.files number = some file ∧
      file.header.next_file = next ∧ file.header.allocation_map = map := by
  obtain ⟨file, hit, both⟩ := Option.map_eq_some_iff.mp present
  exact ⟨file, hit, congrArg Prod.fst both, congrArg Prod.snd both⟩

theorem files_eq_none_iff : state.links number = none ↔ state.files number = none :=
  map_eq_none_iff

theorem header_of_files (present : state.files number = some file) :
    state.header number = file.header := by
  rw [header, present, map_some, getD_some]

theorem links_setFile (state : BlockFiles) (n : Nat) (left : BlockFile) :
    (state.setFile n (some left)).links other = if other = n then
        some (left.header.next_file, left.header.allocation_map)
      else state.links other := by
  unfold links
  by_cases here : other = n
  · subst here
    rw [if_pos rfl, files_setFile_self, map_some]
  · rw [if_neg here, files_setFile_of_ne state here]

theorem links_removeFile (state : BlockFiles) : (state.setFile number none).links other =
      if other = number then none else state.links other := by
  unfold links
  by_cases here : other = number
  · subst here
    rw [if_pos rfl, files_setFile_self, map_none]
  · rw [if_neg here, files_setFile_of_ne state here]

/-- The file of a link that is not zero exists. -/
theorem links_of_header (linked : (state.header number).next_file ≠ 0) :
    ∃ map, state.links number = some ((state.header number).next_file, map) := by
  cases hit : state.files number with
  | none =>
    rw [header, hit] at linked
    exact absurd rfl linked
  | some file =>
    rw [header_of_files hit]
    exact ⟨_, links_of_files hit⟩

namespace Holding

variable {live : Nat -> List (Nat × Nat)} {state : BlockFiles}

theorem replace (holding : Holding live state) (held : Holds number entries entries.length left)
    (link : left.header.next_file = 0 ∨ kFirstAdditionalBlockFile <= left.header.next_file)
    (linked : ∀ other, kFirstAdditionalBlockFile <= other ->
      Function.update live number entries other ≠ [] ->
      (state.setFile number (some left)).Linked other) :
    Holding (Function.update live number entries) (state.setFile number (some left)) where
  holds := by
    intro other hit present
    by_cases here : other = number
    · subst here
      rw [files_setFile_self, Option.some.injEq] at present
      rwa [update_self, ← present]
    · rw [files_setFile_of_ne state here] at present
      rw [update_of_ne here]
      exact holding.holds other hit present
  missing := by
    intro other absent
    by_cases here : other = number
    · subst here
      rw [files_setFile_self] at absent
      exact absurd absent nofun
    · rw [files_setFile_of_ne state here] at absent
      rw [update_of_ne here]
      exact holding.missing other absent
  linked := linked
  additional := by
    intro other next map isLinked
    rw [links_setFile] at isLinked
    split at isLinked
    · rw [Option.some.injEq, Prod.mk.injEq] at isLinked
      rwa [← isLinked.1]
    · exact holding.additional other next map isLinked
  first := by
    intro other small
    rw [links_setFile]
    split
    · exact some_ne_none _
    · exact holding.first other small
  mapped := by
    intro other opened
    rw [links_setFile]
    split
    · exact some_ne_none _
    · exact holding.mapped other opened

/-- One file is changed, and may be linked when it was not. -/
theorem setFile {next : Nat}
    (holding : Holding live state) (present : state.files number = some file)
    (kept : Kept number entries entries.length next map left) (link : file.header.next_file = next ∨
      file.header.next_file = 0 ∧ kFirstAdditionalBlockFile <= next)
    (linked : kFirstAdditionalBlockFile <= number -> entries ≠ [] -> state.Linked number) :
    Holding (Function.update live number entries) (state.setFile number (some left)) := by
  refine holding.replace kept.toHolds ?_ ?_
  · rw [kept.next_file]
    obtain rfl | ⟨-, additional⟩ := link
    · exact holding.additional number _ _ (links_of_files present)
    · exact .inr additional
  · intro other additional some
    have before : state.Linked other := by
      by_cases here : other = number
      · subst here
        rw [update_self] at some
        exact linked additional some
      · rw [update_of_ne here] at some
        exact holding.linked other additional some
    obtain ⟨linking, map', isLinked⟩ := before
    by_cases here : linking = number
    · subst here
      refine ⟨linking, left.header.allocation_map, ?_⟩
      rw [links_setFile, if_pos rfl, kept.next_file]
      rw [links_of_files present, Option.some.injEq, Prod.mk.injEq] at isLinked
      obtain same | ⟨zero, -⟩ := link
      · rw [← same, isLinked.1]
      · rw [zero] at isLinked
        simp only [kFirstAdditionalBlockFile] at additional
        omega
    · exact ⟨linking, map', by rw [links_setFile, if_neg here, isLinked]⟩

/-- A file is changed that keeps its link and its live blocks. -/
theorem keepFile (holding : Holding live state) (present : state.files number = some file)
    (kept : Kept number (live number) (live number).length file.header.next_file map left) :
    Holding live (state.setFile number (some left)) := by
  have changed := holding.setFile present kept (Or.inl rfl) (holding.linked number)
  rwa [update_eq_self] at changed

end Holding

/-- A program on one file, which may be missing. -/
theorem onFile_satisfies
    {post : α -> BlockFiles -> Prop} (absent : state.files number = none -> post missing state)
    (present : ∀ file, state.files number = some file -> program.Satisfies file
        (fun left => crash (state.setFile number (some left)))
        fun val left => post val (state.setFile number (some left))) :
    (onFile number missing program).Satisfies state crash post := by
  cases hit : state.files number with
  | none =>
    have unchanged : (onFile number missing program).run state = ⟨missing, state, []⟩ := by
      simp only [onFile, hit]
    constructor
    · rw [unchanged]
      exact nofun
    · rw [unchanged]
      exact absent hit
  | some file =>
    have satisfied := present file hit
    have ran : (onFile number missing program).run state = ⟨(program.run file).value,
          state.setFile number (some (program.run file).final),
          (program.run file).written.map fun left => state.setFile number (some left)⟩ := by
      simp only [onFile, hit]
    constructor
    · rw [ran]
      intro left mem
      obtain ⟨before, written, rfl⟩ := List.mem_map.mp mem
      exact satisfied.written before written
    · rw [ran]
      exact satisfied.final

section Opening

/-- The files hold the live blocks, and their links and maps are given. -/
def Chained (live : Nat -> List (Nat × Nat)) (chain : Nat -> Option (Nat × AllocBitmap))
    (state : BlockFiles) : Prop :=
  Holding live state ∧ state.links = chain

/-- Programs that keep the entries of a file keep them in its chain. -/
theorem onFile_keeps {program : Logged BlockFile α}
    (keeps : ∀ live n next map, program.Keeps (Kept number live n next map)) :
    (onFile number missing program).Keeps (Chained live chain) := by
  rintro state ⟨holding, links⟩
  apply onFile_satisfies
  · exact fun _ => ⟨holding, links⟩
  · intro file present
    have kept := (holding.holds number file present).kept
    have chained : ∀ left, Kept number (live number) (live number).length file.header.next_file
          file.header.allocation_map left ->
        Chained live chain (state.setFile number (some left)) := by
      intro left kept
      refine ⟨holding.keepFile present kept, ?_⟩
      rw [← links]
      funext other
      rw [links_setFile]
      split
      · rename_i here
        rw [here, links_of_files present, kept.next_file, kept.allocation_map]
      · rfl
    apply (keeps _ _ _ _ file kept).imp
    · exact chained
    · exact fun _ => chained

theorem openBlockFile_satisfies (chained : Chained live chain state) :
    (openBlockFile env index).Satisfies state (Chained live chain)
      fun val left => Chained live chain left ∧ (val = true -> chain index ≠ none) := by
  refine .bind (.read ?_)
  dsimp only [id]
  split
  · exact .pure ⟨chained, nofun⟩
  rename_i usable
  have present : chain index ≠ none := by
    rw [← chained.2, ne_eq, files_eq_none_iff]
    intro absent
    exact usable (Or.inl (by rw [absent, isNone_none]))
  refine .bind ((onFile_keeps (fun _ _ _ _ => openBlockFile_keeps) state chained).imp ?_ ?_)
  · exact fun _ chained => chained
  · intro fixed left chained
    split
    · exact .pure ⟨chained, nofun⟩
    split
    · exact .pure ⟨chained, nofun⟩
    have opened : Chained live chain (left.setOpened index true) := by
      refine ⟨{ chained.1 with mapped := ?_ }, chained.2⟩
      intro other isOpened
      by_cases here : other = index
      · rw [here]
        exact chained.2 ▸ present
      · rw [opened_setOpened_of_ne left here] at isOpened
        exact chained.1.mapped other isOpened
    exact .bind ⟨nofun, .pure ⟨opened, fun _ => present⟩⟩

theorem getFile_satisfies (chained : Chained live chain state) :
    (getFile env number).Satisfies state (Chained live chain)
      fun val left => Chained live chain left ∧ (val = true -> chain number ≠ none) := by
  refine .bind (.read ?_)
  split
  · rename_i opened
    refine .pure ⟨chained, fun _ => ?_⟩
    rw [← chained.2]
    exact chained.1.mapped number opened
  · exact openBlockFile_satisfies chained

end Opening

section Taking

/-- The chain of a state stays as it is where there is a file. -/
def Extends (chain : Nat -> Option (Nat × AllocBitmap)) (left : BlockFiles) : Prop :=
  ∀ number, chain number ≠ none -> left.links number = chain number

theorem holds_created (n : Nat) (file_type : FileType) (length : Nat) :
    Holds n [] 0 { DiskCache.createBlockFile n file_type with length := length } where
  this_file := rfl
  entry_size := by
    change 0 < blockSizeForFileType file_type
    cases file_type <;> decide
  bounded := Nat.zero_le _
  hints := by
    intro i bounded
    simp [DiskCache.createBlockFile, BlockFileHeader.init, BlockFileHeader.hintAt, bounded]
  placed := forall_mem_nil _
  apart := .nil
  bits := forall_mem_nil _
  counted := Int.le_refl _

/-- A new file is written where there was none, or one without an entry. -/
theorem Holding.addFile (holding : Holding live state) (unused : live number = [])
    (replaced : ∀ next map, state.links number = some (next, map) -> next = 0)
    (length : Nat)
    (file_type : FileType) :
    Holding live (state.setFile number
        (some { DiskCache.createBlockFile number file_type with
          length := length })) := by
  have same : update live number [] = live := by rw [← unused, update_eq_self]
  have added := holding.replace (holds_created number file_type length) (.inl rfl)
  rw [same] at added
  apply added
  intro other additional some
  obtain ⟨linking, map, isLinked⟩ := holding.linked other additional some
  by_cases here : linking = number
  · rw [here] at isLinked
    have zero := replaced other map isLinked
    simp only [kFirstAdditionalBlockFile] at additional
    omega
  · exact ⟨linking, map, by rw [links_setFile, if_neg here, isLinked]⟩

variable (env : Environment)

theorem createBlockFile_satisfies (holding : Holding live state) (extends_ : Extends chain state) :
    (createBlockFile env index file_type).Satisfies state
      (Holding live) fun _ left => Holding live left ∧ Extends chain left := by
  refine .bind (.read ?_)
  split
  · exact .pure ⟨holding, extends_⟩
  rename_i usable
  have absent : state.files index = none := by
    rw [not_or, Bool.not_eq_true, isSome_eq_false_iff, isNone_iff_eq_none] at usable
    exact usable.1
  have unlinked : state.links index = none := files_eq_none_iff.mpr absent
  have unused := holding.missing index absent
  have created := holding.addFile unused
    (fun _ _ isLinked => absurd (unlinked.symm.trans isLinked) nofun)
    0 file_type
  have extended : ∀ left, (∀ other, other ≠ index ->
      BlockFiles.links left other = state.links other) ->
      Extends chain left := by
    intro left same other present
    have here : other ≠ index := by
      rintro rfl
      have kept := extends_ other present
      exact present (kept.symm.trans unlinked)
    rw [same other here]
    exact extends_ other present
  refine .bind (.persist created ?_)
  split
  · refine .pure ⟨created, extended _ ?_⟩
    intro other here
    rw [links_setFile, if_neg here]
  · have written := created.addFile unused (by
        intro next map isLinked
        rw [links_setFile, if_pos rfl, Option.some.injEq, Prod.mk.injEq] at isLinked
        exact isLinked.1.symm)
      kBlockHeaderSize file_type
    refine .bind (.persist written (.pure ⟨written, extended _ ?_⟩))
    intro other here
    rw [links_setFile, if_neg here, links_setFile, if_neg here]

theorem createNextBlockFile_satisfies
    (holding : Holding live state) (extends_ : Extends chain state)
    (additional : kFirstAdditionalBlockFile <= number) :
    (createNextBlockFile env block_type remaining number).Satisfies
      state (Holding live) fun val left => Holding live left ∧ Extends chain left ∧
          (val = 0 ∨ kFirstAdditionalBlockFile <= val) := by
  induction remaining generalizing number state with
  | zero => exact .pure ⟨holding, extends_, Or.inl rfl⟩
  | succ remaining ih =>
    refine .bind ((createBlockFile_satisfies env
      holding extends_).imp (fun _ holding => holding) ?_)
    rintro created left ⟨holding, extends_⟩
    split
    · exact .pure ⟨holding, extends_, Or.inr additional⟩
    · exact ih holding extends_ (by omega)

/-- A new file is linked behind the last one of a chain. -/
theorem linkFile_satisfies (holding : Holding live state) (last : state.links file = some (0, map))
    (additional : kFirstAdditionalBlockFile <= new_file) :
    (onFile file () (DiskCache.nextFile new_file)).Satisfies state (Holding live) fun _ left =>
        Holding live left ∧ left.Linked new_file := by
  have pos : new_file ≠ 0 := by
    simp only [kFirstAdditionalBlockFile] at additional
    omega
  obtain ⟨before, present, unlinked, -⟩ := files_of_links last
  apply onFile_satisfies
  · intro absent
    exact absurd (present.symm.trans absent) nofun
  · intro hit isPresent
    obtain rfl : before = hit := Option.some.inj (present.symm.trans isPresent)
    have kept := (holding.holds file before present).kept
    rw [unlinked] at kept
    apply (nextFile_satisfies kept pos).imp
    · intro left held
      obtain kept | kept := held
      · exact holding.keepFile present (unlinked ▸ kept)
      · have linked := holding.setFile present kept
          (Or.inr ⟨unlinked, additional⟩) (holding.linked file)
        rwa [update_eq_self] at linked
    · intro _ left kept
      have linked := holding.setFile present kept
        (Or.inr ⟨unlinked, additional⟩) (holding.linked file)
      rw [update_eq_self] at linked
      refine ⟨linked, file, left.header.allocation_map, ?_⟩
      rw [links_setFile, if_pos rfl, kept.next_file]

theorem openLinked_satisfies {next : Nat}
    (holding : Holding live state) (linked : state.Linked next) :
    Logged.Satisfies (do
        if ← getFile env next then return some next
        else return none)
      state (Holding live) fun val left =>
        Holding live left ∧ ∀ hit, val = some hit ->
          left.links hit ≠ none ∧ left.Linked hit := by
  refine .bind ((getFile_satisfies ⟨holding, rfl⟩).imp (fun _ chained => chained.1) ?_)
  rintro opened left ⟨⟨holding, links⟩, present⟩
  split
  · rename_i isOpened
    refine .pure ⟨holding, ?_⟩
    rintro hit ⟨⟩
    refine ⟨links ▸ present isOpened, ?_⟩
    unfold Linked at linked ⊢
    rwa [links]
  · exact .pure ⟨holding, nofun⟩

theorem nextFile_holding (holding : Holding live state) (present : state.links file ≠ none) :
    (nextFile env file).Satisfies state (Holding live)
      fun val left => Holding live left ∧ ∀ next, val = some next ->
        left.links next ≠ none ∧ left.Linked next := by
  refine .bind (.read ?_)
  by_cases linked : (state.header file).next_file ≠ 0
  · rw [if_pos linked]
    obtain ⟨map, isLinked⟩ := links_of_header linked
    exact openLinked_satisfies env holding ⟨file, map, isLinked⟩
  · rw [if_neg linked]
    cases typeOfEntrySize (state.header file).entry_size with
    | none => exact .pure ⟨holding, nofun⟩
    | some type =>
      refine .bind ((createNextBlockFile_satisfies env holding
        (fun _ _ => rfl : Extends state.links state) (Nat.le_refl _)).imp
          (fun _ holding => holding) ?_)
      rintro new_file left ⟨holding, extends_, isNew⟩
      split
      · exact .pure ⟨holding, nofun⟩
      · rename_i positive
        have last : left.links file = some (0, (state.header file).allocation_map) := by
          rw [extends_ file present]
          cases hit : state.files file with
          | none => exact absurd (files_eq_none_iff.mpr hit) present
          | some before =>
            rw [links_of_files hit, header_of_files hit] at *
            rw [not_not.mp linked]
        refine .bind ((linkFile_satisfies holding last
          (isNew.resolve_left positive)).imp (fun _ holding => holding) ?_)
        rintro - linked ⟨holding, isLinked⟩
        exact openLinked_satisfies env holding isLinked

theorem fileForNewBlock_satisfies (holding : Holding live state) (present : state.links file ≠ none)
    (linked : kFirstAdditionalBlockFile <= file -> state.Linked file) :
    (fileForNewBlock env block_count rounds file).Satisfies state (Holding live) fun val left =>
        Holding live left ∧ ∀ hit, val = some hit -> left.links hit ≠ none ∧
            (kFirstAdditionalBlockFile <= hit -> left.Linked hit) := by
  induction rounds generalizing file state with
  | zero => exact .pure ⟨holding, nofun⟩
  | succ rounds ih =>
    have here : ∀ left, Chained live state.links left ->
        Holding live left ∧ ∀ hit, some file = some hit -> left.links hit ≠ none ∧
            (kFirstAdditionalBlockFile <= hit -> left.Linked hit) := by
      rintro left ⟨holding, links⟩
      refine ⟨holding, ?_⟩
      rintro hit ⟨⟩
      unfold Linked at linked ⊢
      rw [links]
      exact ⟨present, linked⟩
    refine .bind (.read ?_)
    split
    · split
      · refine .bind ((nextFile_holding env holding present).imp (fun _ holding => holding) ?_)
        rintro (_ | next) left ⟨holding, isNext⟩
        · exact .pure ⟨holding, nofun⟩
        · obtain ⟨present, linked⟩ := isNext next rfl
          exact ih holding present fun _ => linked
      · refine .bind ((onFile_keeps (fun _ _ _ _ => growBlockFile_keeps)
          state ⟨holding, rfl⟩).imp (fun _ chained => chained.1) ?_)
        intro grown left chained
        split
        · exact .pure (here left chained)
        · exact .pure ⟨chained.1, nofun⟩
    · exact .pure (here state ⟨holding, rfl⟩)

/-- The live blocks after one was created. -/
def stored (live : Nat -> List (Nat × Nat)) : Option Addr -> Nat -> List (Nat × Nat)
  | none => live
  | some addr =>
    Function.update live addr.fileNumber
      ((addr.start_block, addr.num_blocks) :: live addr.fileNumber)

theorem createBlock_satisfies (holding : Holding live state) :
    (createBlock env block_type block_count).Satisfies state
      (Holding live) fun val left => Holding (stored live val) left := by
  unfold createBlock
  split
  · exact .pure holding
  refine .bind (.read ?_)
  split
  · exact .pure holding
  have present : state.links block_type.firstFile ≠ none :=
    holding.first _ (by cases block_type <;> decide)
  have firstFile : kFirstAdditionalBlockFile <= block_type.firstFile ->
      state.Linked block_type.firstFile := by
    intro additional
    cases block_type <;> exact absurd additional (by decide)
  refine .bind ((fileForNewBlock_satisfies env holding
    present firstFile).imp (fun _ holding => holding) ?_)
  rintro (_ | number) left ⟨holding, isFound⟩
  · exact .pure holding
  obtain ⟨present, linked⟩ := isFound number rfl
  refine .bind (.read ?_)
  cases isPresent : left.files number with
  | none => exact absurd (files_eq_none_iff.mpr isPresent) present
  | some file =>
    rw [header_of_files isPresent]
    have inv := holding.holds number file isPresent
    apply Logged.Satisfies.bind
    apply onFile_satisfies
    · intro absent
      exact absurd (isPresent.symm.trans absent) nofun
    · intro hit isFound
      obtain rfl : file = hit := Option.some.inj (isPresent.symm.trans isFound)
      apply (createMapBlock_holds inv.kept targetSize_eq_zero_or_le).imp
      · rintro after ⟨map, kept⟩
        exact holding.keepFile isPresent kept
      · rintro val after ⟨map, kept⟩
        have changed := holding.setFile isPresent kept (Or.inl rfl)
          (fun additional _ => linked additional)
        apply Logged.Satisfies.pure
        cases val with
        | none =>
          rw [map_none, toList_none, nil_append, update_eq_self] at changed
          exact changed
        | some index =>
          rw [map_some, stored, inv.this_file]
          exact changed

end Taking

section Freeing

/-- Of the entries of a file, fewer may be live. -/
theorem Holding.forget (holding : Holding live state) (fewer : (entries).Sublist (live number)) :
    Holding (Function.update live number entries) state where
  holds := by
    intro other file present
    have holds := holding.holds other file present
    by_cases here : other = number
    · subst here
      rw [update_self]
      exact { holds with
        placed := fun entry mem => holds.placed entry (fewer.subset mem)
        apart := holds.apart.sublist fewer
        bits := fun entry mem => holds.bits entry (fewer.subset mem)
        counted := by
          have counted := holds.counted
          have length := fewer.length_le
          omega }
    · rw [update_of_ne here]
      exact holds
  missing := by
    intro other absent
    have none := holding.missing other absent
    by_cases here : other = number
    · subst here
      rw [none] at fewer
      rw [update_self, sublist_nil.mp fewer]
    · rw [update_of_ne here, none]
  linked := by
    intro other additional some
    apply holding.linked other additional
    by_cases here : other = number
    · subst here
      rw [update_self] at some
      rintro none
      rw [none] at fewer
      exact some (sublist_nil.mp fewer)
    · rwa [update_of_ne here] at some
  additional := holding.additional
  first := holding.first
  mapped := holding.mapped

/-- The map of each file. -/
def maps (state : BlockFiles) (number : Nat) : Option AllocBitmap :=
  (state.links number).map Prod.snd

/-- Files are only deleted, and keep their maps otherwise. -/
def Shrunk (maps : Nat -> Option AllocBitmap) (left : BlockFiles) : Prop :=
  ∀ number next map, left.links number = some (next, map) -> maps number = some map

theorem shrunk_maps : Shrunk state.maps state := by
  intro n next map isLinked
  rw [BlockFiles.maps, isLinked, map_some]

section Skipping

/-- A file after the one that followed it was taken out of the chain. -/
def skipped (state : BlockFiles) (before : BlockFile) : BlockFile :=
  { before with
    header := before.header.setNextFile (state.header before.header.next_file).next_file }

variable (holding : Holding live state) (present : state.files file = some before)
  (link : before.header.next_file ≠ 0)
  (empty : live before.header.next_file = [])

include holding present empty

/-- A file without entries is no longer linked. -/
theorem Holding.skip : Holding live (state.setFile file (some (state.skipped before))) := by
  have skips := @Holding.replace _ _ _ _ (state.skipped before) holding
    { holding.holds file before present with }
  rw [update_eq_self] at skips
  apply skips
  · by_cases zero : (state.header before.header.next_file).next_file = 0
    · exact Or.inl zero
    · obtain ⟨map', nextLinked⟩ := links_of_header zero
      exact holding.additional _ _ _ nextLinked
  · intro other additional some
    obtain ⟨linking, map, isLinked⟩ := holding.linked other additional some
    by_cases here : linking = file
    · subst here
      rw [links_of_files present, Option.some.injEq, Prod.mk.injEq] at isLinked
      exact absurd (isLinked.1 ▸ empty) some
    · exact ⟨linking, map, by rw [links_setFile, if_neg here, isLinked]⟩

include link

/-- A file that is no longer linked is deleted. -/
theorem Holding.removeSkipped : Holding live
      (((state.setFile file (some (state.skipped before))).setOpened
        before.header.next_file false).setFile before.header.next_file none) := by
  have skipped := holding.skip present empty
  have additional : kFirstAdditionalBlockFile <= before.header.next_file :=
    (holding.additional file _ _ (links_of_files present)).resolve_left link
  have linksLeft : ∀ other, other ≠ before.header.next_file ->
      (((state.setFile file (some (state.skipped before))).setOpened
        before.header.next_file false).setFile before.header.next_file none).links other =
        (state.setFile file (some (state.skipped before))).links other := by
    intro other here
    rw [links_removeFile, if_neg here]
    rfl
  constructor
  case holds =>
    intro other hit isPresent
    by_cases here : other = before.header.next_file
    · subst here
      rw [files_setFile_self] at isPresent
      exact absurd isPresent nofun
    · rw [files_setFile_of_ne _ here] at isPresent
      exact skipped.holds other hit isPresent
  case missing =>
    intro other absent
    by_cases here : other = before.header.next_file
    · rw [here, empty]
    · rw [files_setFile_of_ne _ here] at absent
      exact skipped.missing other absent
  case linked =>
    intro other isAdditional some
    obtain ⟨linking, map, isLinked⟩ := skipped.linked other isAdditional some
    by_cases here : linking = before.header.next_file
    · -- What the deleted file linked to follows in its place.
      have next : other = (state.header before.header.next_file).next_file := by
        rw [links_setFile] at isLinked
        split at isLinked
        · rw [Option.some.injEq, Prod.mk.injEq] at isLinked
          exact isLinked.1.symm
        · obtain ⟨hit, isFound, isNext, -⟩ := files_of_links isLinked
          rw [← here, header_of_files isFound, isNext]
      have apart : file ≠ before.header.next_file := by
        intro same
        rw [← same, header_of_files present] at next
        exact some (next ▸ empty)
      refine ⟨file, (state.skipped before).header.allocation_map, ?_⟩
      rw [linksLeft file apart, links_setFile, if_pos rfl, next]
      rfl
    · exact ⟨linking, map, by rw [linksLeft linking here, isLinked]⟩
  case additional =>
    intro other next map isLinked
    rw [links_removeFile] at isLinked
    split at isLinked
    · exact absurd isLinked nofun
    · exact skipped.additional other next map isLinked
  case first =>
    intro other small
    rw [linksLeft other (by omega)]
    exact skipped.first other small
  case mapped =>
    intro other opened
    have here : other ≠ before.header.next_file := by
      rintro rfl
      exact Bool.false_ne_true ((opened_setOpened_self _).symm.trans opened)
    rw [linksLeft other here]
    exact skipped.mapped other ((opened_setOpened_of_ne _ here).symm.trans opened)

end Skipping

theorem removeEmptyFile_keeps {maps : Nat -> Option AllocBitmap} (rounds file : Nat) :
    (removeEmptyFile env rounds file).Keeps fun left =>
      Holding live left ∧ Shrunk maps left := by
  induction rounds generalizing file with
  | zero => exact .pure ()
  | succ rounds ih =>
    rintro state ⟨holding, shrunk⟩
    refine .bind (.read ?_)
    by_cases link : (state.header file).next_file = 0
    · rw [if_pos link]
      exact .pure ⟨holding, shrunk⟩
    rw [if_neg link]
    have shrunkOf : ∀ left, Chained live state.links left -> Shrunk maps left := by
      rintro left ⟨-, links⟩
      unfold Shrunk
      rwa [links]
    refine .bind ((getFile_satisfies ⟨holding, rfl⟩).imp
      (fun left chained => ⟨chained.1, shrunkOf left chained⟩) ?_)
    rintro opened left ⟨chained, -⟩
    have kept := shrunkOf left chained
    split
    · exact .pure ⟨chained.1, kept⟩
    refine .bind (.read ?_)
    obtain ⟨map, isLinked⟩ := links_of_header link
    rw [← chained.2] at isLinked
    obtain ⟨before, present, isNext, -⟩ := files_of_links isLinked
    rw [← isNext] at link ⊢
    split
    · rename_i noEntries
      have empty : live before.header.next_file = [] := by
        cases hit : left.files before.header.next_file with
        | none => exact chained.1.missing _ hit
        | some next =>
          have counted := (chained.1.holds _ next hit).counted
          rw [← header_of_files hit, noEntries] at counted
          exact eq_nil_of_length_eq_zero (by omega)
      have skipped := chained.1.skip present empty
      have skippedShrunk : Shrunk maps (left.setFile file (some (left.skipped before))) := by
        intro other next map isLinked
        rw [links_setFile] at isLinked
        split at isLinked
        · rename_i here
          rw [Option.some.injEq, Prod.mk.injEq] at isLinked
          rw [here, ← isLinked.2]
          exact kept file before.header.next_file
            before.header.allocation_map (links_of_files present)
        · exact kept other next map isLinked
      apply Logged.Satisfies.bind
      apply onFile_satisfies
      · intro absent
        exact absurd (present.symm.trans absent) nofun
      · intro hit isFound
        obtain rfl : before = hit := Option.some.inj (present.symm.trans isFound)
        refine .persist ⟨skipped, skippedShrunk⟩ (.bind ⟨nofun, ?_⟩)
        split
        · have removed := chained.1.removeSkipped present link empty
          have removedShrunk : Shrunk maps
              (((left.setFile file (some (left.skipped before))).setOpened
                before.header.next_file false).setFile before.header.next_file none) := by
            intro other next map isLinked
            rw [links_removeFile] at isLinked
            split at isLinked
            · exact absurd isLinked nofun
            · exact skippedShrunk other next map isLinked
          exact .bind (.persist ⟨removed, removedShrunk⟩ (ih file _ ⟨removed, removedShrunk⟩))
        · apply ih file
          refine ⟨{ skipped with mapped := ?_ }, skippedShrunk⟩
          intro other opened
          apply skipped.mapped other
          by_cases here : other = before.header.next_file
          · rw [here] at opened
            exact absurd ((opened_setOpened_self _).symm.trans opened) Bool.false_ne_true
          · exact (opened_setOpened_of_ne _ here).symm.trans opened
    · exact ih _ left ⟨chained.1, kept⟩

/-- The live blocks after one was deleted. -/
def deleted (live : Nat -> List (Nat × Nat)) (addr : Addr) : Nat -> List (Nat × Nat) :=
  Function.update live addr.fileNumber ((live addr.fileNumber).erase
      (addr.start_block, addr.num_blocks))

/-- The first bit of a block is clear, or its file is gone. -/
def Cleared (addr : Addr) (state : BlockFiles) : Prop :=
  ∀ next map, state.links addr.fileNumber = some (next, map) ->
    Bitmap.bit map addr.start_block = false

/-- What deleting a block leaves at any time: it is still held, or its first
bit is clear. -/
def Deleting (live : Nat -> List (Nat × Nat)) (addr : Addr) (left : BlockFiles) : Prop :=
  Holding live left ∨ Holding (deleted live addr) left ∧ Cleared addr left

theorem Deleting.holding (deleting : Deleting live addr left) :
    Holding (deleted live addr) left := by
  obtain holding | ⟨holding, -⟩ := deleting
  · exact holding.forget erase_sublist
  · exact holding

variable (env : Environment)

theorem deleteBlock_satisfies {addr : Addr} (holding : Holding live state)
    (mem : (addr.start_block, addr.num_blocks) ∈ live addr.fileNumber) :
    (deleteBlock env addr).Satisfies state (Deleting live addr)
      fun _ left => Deleting live addr left := by
  refine .bind ((getFile_satisfies ⟨holding, rfl⟩).imp (fun _ chained => Or.inl chained.1) ?_)
  rintro opened left ⟨⟨holding, -⟩, -⟩
  split
  · exact .pure (Or.inl holding)
  have freed : (onFile addr.fileNumber ()
      (deleteMapBlock addr.start_block addr.num_blocks)).Satisfies left
      (Deleting live addr) fun _ left =>
        Holding (deleted live addr) left ∧ Cleared addr left := by
    apply onFile_satisfies
    · intro absent
      rw [holding.missing _ absent] at mem
      exact absurd mem not_mem_nil
    · intro file present
      have inv := holding.holds _ file present
      have linked : kFirstAdditionalBlockFile <= addr.fileNumber -> left.Linked addr.fileNumber :=
        fun additional => holding.linked _ additional (ne_nil_of_mem mem)
      have changed : ∀ after, (∃ map, Kept addr.fileNumber ((live addr.fileNumber).erase
                (addr.start_block, addr.num_blocks))
              ((live addr.fileNumber).erase (addr.start_block, addr.num_blocks)).length
              file.header.next_file map after ∧
            Bitmap.bit map addr.start_block = false) ->
          Holding (deleted live addr) (left.setFile addr.fileNumber (some after)) ∧
            Cleared addr (left.setFile addr.fileNumber (some after)) := by
        rintro after ⟨map, kept, clear⟩
        refine ⟨holding.setFile present kept (Or.inl rfl) fun additional _ => linked additional, ?_⟩
        intro next map' isLinked
        rw [links_setFile, if_pos rfl, Option.some.injEq, Prod.mk.injEq,
          kept.allocation_map] at isLinked
        rw [← isLinked.2]
        exact clear
      apply (deleteMapBlock_holds inv.kept mem).imp
      · intro after left
        exact left.imp (holding.keepFile present) (changed after)
      · exact fun _ => changed
  refine .bind (freed.imp (fun _ left => left) ?_)
  rintro - after ⟨holding, cleared⟩
  refine .bind (.read ?_)
  split
  · cases typeOfEntrySize (after.header addr.fileNumber).entry_size with
    | none => exact .pure (Or.inr ⟨holding, cleared⟩)
    | some type =>
      have gone : ∀ last, Holding (deleted live addr) last ∧
          Shrunk after.maps last -> Deleting live addr last := by
        rintro last ⟨holding, shrunk⟩
        refine Or.inr ⟨holding, ?_⟩
        intro next map isLinked
        have before := shrunk addr.fileNumber next map isLinked
        rw [BlockFiles.maps, map_eq_some_iff] at before
        obtain ⟨⟨next', map'⟩, isBefore, rfl⟩ := before
        exact cleared next' map' isBefore
      apply (removeEmptyFile_keeps env.rounds type.firstFile after ⟨holding, shrunk_maps⟩).imp
      · exact gone
      · exact fun _ => gone
  · exact .pure (Or.inr ⟨holding, cleared⟩)

theorem initFiles_keeps : (initFiles env types).Keeps (Holding live) := by
  induction types with
  | nil => exact .pure true
  | cons type rest ih =>
    intro state holding
    refine .bind ((openBlockFile_satisfies ⟨holding, rfl⟩).imp (fun _ chained => chained.1) ?_)
    rintro opened left ⟨⟨holding, -⟩, -⟩
    split
    · exact .pure holding
    refine .bind ((removeEmptyFile_keeps env.rounds
      type.firstFile left ⟨holding, shrunk_maps⟩).imp (fun _ kept => kept.1) ?_)
    rintro - after ⟨holding, -⟩
    exact ih after holding

theorem init_keeps : (init env).Keeps (Holding live) := by
  apply Logged.Keeps.bind (initFiles_keeps env)
  intro succeeded state holding
  split
  · exact .bind ⟨nofun, .pure { holding with }⟩
  · exact .pure holding

end Freeing

/-- The block files with the first block and the number of blocks of each live
block of each file. -/
structure Session where
  files : BlockFiles
  live : Nat -> List (Nat × Nat)

/-- The operations on the block files. -/
inductive Operation
  | init
  | createBlock (block_type : FileType) (block_count : Nat)
  | deleteBlock (addr : Addr)

/-- An operation on the block files, which may return the address of a new
block. -/
def Operation.program (env : Environment) : Operation -> Logged BlockFiles (Option Addr)
  | init => do
      let _ ← BlockFiles.init env
      return none
  | createBlock block_type block_count => BlockFiles.createBlock env block_type block_count
  | deleteBlock addr => do
      BlockFiles.deleteBlock env addr
      return none

namespace Session

/-- A session with new block files. -/
def start : Session where
  files := created
  live := fun _ => []

/-- Only live blocks are deleted, and the block files are used after they were
started. -/
def Permitted (s : Session) : Operation -> Prop
  | .init => s.files.init_ = false
  | .createBlock _ _ => s.files.init_ = true
  | .deleteBlock addr => s.files.init_ = true ∧
      (addr.start_block, addr.num_blocks) ∈ s.live addr.fileNumber

/-- All bits of a block are set in the map of its file. -/
def Marked (addr : Addr) (state : BlockFiles) : Prop :=
  ∃ next map, state.links addr.fileNumber = some (next, map) ∧
    ∀ pos, InRange addr.start_block addr.num_blocks pos -> Bitmap.bit map pos = true

/-- A step of a session: an operation that is performed, or is stopped after a
number of its writes. A block that was being created is not live then, and
one that was being deleted may still be live if all of its bits are set. -/
inductive Performed : Session -> Environment × Operation × Option Nat -> Session -> Prop
  | init (s env) : s.Permitted .init -> Performed s (env, .init, none)
        { s with
          files := ((BlockFiles.init env).run s.files).final }
  | createBlock (s env block_type block_count) :
      s.Permitted (.createBlock block_type block_count) ->
      Performed s (env, .createBlock block_type block_count, none)
        { files :=
            ((BlockFiles.createBlock env block_type block_count).run s.files).final
          live := stored s.live
            ((BlockFiles.createBlock env block_type block_count).run s.files).value }
  | deleteBlock (s env addr) : s.Permitted (.deleteBlock addr) ->
      Performed s (env, .deleteBlock addr, none)
        { files := ((BlockFiles.deleteBlock env addr).run s.files).final
          live := deleted s.live addr }
  | stop (s env op writes) : s.Permitted op -> (∀ addr, op ≠ .deleteBlock addr) ->
      Performed s (env, op, some writes)
        { s with
          files := ((op.program env).stopped s.files writes).crashed }
  | stopDeleting (s env addr writes live) : s.Permitted (.deleteBlock addr) ->
      live = deleted s.live addr ∨ live = s.live ∧ Marked addr
          ((BlockFiles.deleteBlock env addr).stopped s.files writes) ->
      Performed s (env, .deleteBlock addr, some writes)
        { files := ((BlockFiles.deleteBlock env addr).stopped s.files writes).crashed
          live := live }

theorem files_created :
    (∃ file_type, created.files number = some (DiskCache.createBlockFile number file_type)) ∨
      4 <= number ∧ created.files number = none ∧ created.opened number = false := by
  rcases number with _ | _ | _ | _ | number
  · exact .inl ⟨_, rfl⟩
  · exact .inl ⟨_, rfl⟩
  · exact .inl ⟨_, rfl⟩
  · exact .inl ⟨_, rfl⟩
  · have few : ¬number + 4 < kFirstAdditionalBlockFile := Nat.not_lt.mpr (Nat.le_add_left _ _)
    exact .inr ⟨Nat.le_add_left _ _, rfl, decide_eq_false few⟩

theorem start_holding : Holding start.live start.files where
  holds := by
    intro n file present
    obtain ⟨file_type, created⟩ | ⟨-, absent, -⟩ := files_created
    · rw [← Option.some.inj (created.symm.trans present)]
      exact holds_created n file_type _
    · cases absent.symm.trans present
  missing _ _ := rfl
  linked _ _ some := absurd rfl some
  additional := by
    intro n next map isLinked
    obtain ⟨file, present, isNext, -⟩ := files_of_links isLinked
    obtain ⟨file_type, created⟩ | ⟨-, absent, -⟩ := files_created
    · rw [← Option.some.inj (created.symm.trans present)] at isNext
      exact Or.inl isNext.symm
    · cases absent.symm.trans present
  first := by
    intro n small isNone
    obtain ⟨file_type, created⟩ | ⟨large, -⟩ := files_created
    · cases created.symm.trans (files_eq_none_iff.mp isNone)
    · exact absurd small (Nat.not_lt.mpr large)
  mapped := by
    intro n opened isNone
    obtain ⟨file_type, created⟩ | ⟨-, -, unopened⟩ := files_created
    · cases created.symm.trans (files_eq_none_iff.mp isNone)
    · exact absurd (unopened.symm.trans opened) Bool.false_ne_true

variable {files : BlockFiles} {live : Nat -> List (Nat × Nat)}

theorem holding_crashed (holding : Holding live files) : Holding live files.crashed :=
  { holding with
    mapped := nofun }

/-- Without a new block the other ones are live. -/
theorem holding_unstored (holding : Holding (stored live value) files) : Holding live files := by
  cases value with
  | none => exact holding
  | some addr =>
    have fewer : (live addr.fileNumber).Sublist (stored live (some addr) addr.fileNumber) := by
      rw [stored, update_self]
      exact sublist_cons_self _ _
    have forgotten := holding.forget fewer
    rw [stored, update_idem, update_eq_self] at forgotten
    exact forgotten

/-- A stop of an operation that deletes no block. -/
theorem holding_stopped {op : Operation}
    (holding : Holding live files) (notDeleting : ∀ addr, op ≠ .deleteBlock addr) :
    Holding live ((op.program env).stopped files writes) := by
  have satisfied : (op.program env).Satisfies files
      (Holding live) fun _ left => Holding live left := by
    cases op with
    | init =>
      exact .bind ((init_keeps env files holding).imp
        (fun _ holding => holding) fun _ _ holding => .pure holding)
    | createBlock block_type block_count =>
      exact (createBlock_satisfies env
        holding).imp (fun _ holding => holding) fun _ _ holding => holding_unstored holding
    | deleteBlock addr => exact absurd rfl (notDeleting addr)
  obtain same | crashed | same := satisfied.stopped writes
  · rwa [same]
  · exact crashed
  · rw [same]
    exact satisfied.final

theorem Performed.holding {s next : Session} (performed : Performed s call next)
    (holding : Holding s.live s.files) :
    Holding next.live next.files := by
  cases performed with
  | init env ok => exact (init_keeps env _ holding).final
  | createBlock env block_type block_count ok =>
    exact (createBlock_satisfies env holding).final
  | deleteBlock env addr ok =>
    exact (deleteBlock_satisfies env holding ok.2).final.holding
  | stop env op writes ok notDeleting =>
    apply holding_crashed
    exact holding_stopped holding notDeleting
  | stopDeleting env addr writes live ok isLive =>
    apply holding_crashed
    have satisfied := deleteBlock_satisfies env holding ok.2
    have deleting : Deleting s.live addr
        ((BlockFiles.deleteBlock env addr).stopped s.files writes) := by
      obtain same | crashed | same := satisfied.stopped writes
      · rw [same]
        exact Or.inl holding
      · exact crashed
      · rw [same]
        exact satisfied.final
    obtain rfl | ⟨rfl, next, map, isLinked, marked⟩ := isLive
    · exact deleting.holding
    · obtain holds | ⟨-, cleared⟩ := deleting
      · exact holds
      · have pos : 0 < addr.num_blocks := by
          cases present : s.files.files addr.fileNumber with
          | none =>
            have mem := ok.2
            rw [holding.missing _ present] at mem
            exact absurd mem not_mem_nil
          | some file => exact ((holding.holds _ file present).placed _ ok.2).1
        have isSet := marked addr.start_block ⟨Nat.le_refl _, by omega⟩
        rw [cleared next map isLinked] at isSet
        exact absurd isSet Bool.false_ne_true

/-- In every run of operations on the block files, with stops after any of
their writes and the reopening that follows, the file of every live block
exists, has the bits of the block and counts at least its live blocks, and is
linked when it is not the first one of its chain. A file that counts no
entries has no bit of a live block. -/
theorem liveBlocks_kept {calls : List (Environment × Operation × Option Nat)} {last : Session}
    (run : Run Performed start calls last) :
    (∀ number, last.live number ≠ [] -> ∃ file, last.files.files number = some file ∧
        ((last.live number).length : Int) <= file.header.num_entries ∧
        (∀ block ∈ last.live number, ∀ pos, InRange block.1 block.2 pos ->
            Bitmap.bit file.header.allocation_map pos = true) ∧
        (kFirstAdditionalBlockFile ≤ number → ∃ other before, last.files.files other = some before ∧
            before.header.next_file = number)) ∧
      ∀ number file, last.files.files number = some file ->
        file.header.num_entries = 0 -> ¬ ∃ block ∈ last.live number, ∃ pos,
            InRange block.1 block.2 pos ∧ Bitmap.bit file.header.allocation_map pos = true := by
  have holding := run.invariant (fun s => Holding s.live s.files)
    (fun holding performed => performed.holding holding) start_holding
  constructor
  · intro number some
    cases present : last.files.files number with
    | none => exact absurd (holding.missing number present) some
    | some file =>
      have holds := holding.holds number file present
      refine ⟨file, rfl, holds.counted, holds.bits, ?_⟩
      intro additional
      obtain ⟨other, map, isLinked⟩ := holding.linked number additional some
      obtain ⟨before, found, isNext, -⟩ := files_of_links isLinked
      exact ⟨other, before, found, isNext⟩
  · rintro number file present noEntries ⟨block, member, -⟩
    have counted := (holding.holds number file present).counted
    have some := length_pos_of_mem member
    omega

/-- A file system on which every operation succeeds. -/
def succeeding : Environment where
  opens _ := true
  readsLinks := true
  creates _ := true
  writesHeader _ := true
  deletes _ := true
  lengthSet := true
  rounds := 256

/-- A deletion is stopped after the bits of its block were cleared, and the
files are reopened. -/
theorem liveBlocks_kept_stopped : ∃ last, Run Performed start
        [(succeeding, .createBlock .BLOCK_256 2, none),
          (succeeding, .createBlock .BLOCK_256 1, none),
          (succeeding, .deleteBlock ⟨.BLOCK_256, 2, 1, 0⟩, some 2),
          (succeeding, .init, none)] last ∧ last.live 1 = [(2, 1)] ∧
      ∃ file, last.files.files 1 = some file ∧ (1 : Int) <= file.header.num_entries := by
  have run : ∃ last, Run Performed start [(succeeding, .createBlock .BLOCK_256 2, none),
        (succeeding, .createBlock .BLOCK_256 1, none),
        (succeeding, .deleteBlock ⟨.BLOCK_256, 2, 1, 0⟩, some 2),
        (succeeding, .init, none)] last ∧ last.live 1 = [(2, 1)] := by
    refine ⟨_, .cons (.createBlock _ _ _ _ ?_) (.cons (.createBlock _ _ _ _ ?_) (.cons
        (.stopDeleting _ _ _ _ _ ?_ (Or.inl rfl)) (.single (.init _ _ ?_)))), ?_⟩
    · rfl
    · change BlockFiles.init_ _ = true
      decide +kernel
    · constructor
      · decide +kernel
      · decide +kernel
    · rfl
    · decide +kernel
  obtain ⟨last, run, live⟩ := run
  refine ⟨last, run, live, ?_⟩
  obtain ⟨file, present, counted, -⟩ := (liveBlocks_kept run).1 1 (by rw [live]; exact nofun)
  rw [live] at counted
  exact ⟨file, present, counted⟩

end Session

end BlockFiles

end Chromium.DiskCache
