import Chromium.Library.Netting
import Chromium.SafeBrowsing.Store
import Mathlib.Data.Prod.Lex
import Mathlib.Data.List.Lex

/-!
# What SBProcessSubs leaves in the store

The in-place passes refine the parallel walks over sorted lists, so every add
prefix and sub prefix of the same key cancel one for one, and the full hashes
of the cancelled keys are gone.
-/

namespace Chromium.SafeBrowsing

open List
open Library StoreItem HashItem

/-- The chunk and prefix of the add an item is or cancels. -/
def addKey [StoreItem α] (item : α) : Int32 × SBPrefix := (getAddChunkId item, getAddPrefix item)

/-- The key of an item as a pair of integers in lexicographic order. -/
def orderKey [StoreItem α] (item : α) : Lex (ℤ × ℤ) :=
  toLex ((getAddChunkId item).toInt, (getAddPrefix item).toInt)

theorem orderKey_eq_iff [StoreItem α] [StoreItem β] {a : α} {b : β} :
    orderKey a = orderKey b ↔ addKey a = addKey b := by
  simp [orderKey, addKey, Int32.toInt_inj]

/-- The store's order compares the keys. -/
theorem sBAddPrefixLess_iff [StoreItem α] [StoreItem β] {a : α} {b : β} :
    sBAddPrefixLess a b = true ↔ orderKey a < orderKey b := by
  rw [orderKey, orderKey, Prod.Lex.toLex_lt_toLex, sBAddPrefixLess]
  simp only [← Int32.lt_iff_toInt_lt, Int32.toInt_inj]
  split
  · rename_i differ
    simp [differ]
  · rename_i same
    rw [not_ne_iff] at same
    simp [same, Int32.lt_irrefl]

/-- The finer order of the full hashes never goes against the keys. -/
theorem not_less_of_not_hashLess [HashItem α] {a b : α}
    (notLess : sBAddPrefixHashLess b a = false) :
    orderKey a <= orderKey b := by
  rw [← not_lt, ← sBAddPrefixLess_iff]
  intro less
  simp [sBAddPrefixHashLess, less] at notLess

theorem StdSort.sortedBy [StoreItem α] (order : StdSort fun a b : α => sBAddPrefixLess a b)
    (items : List α) :
    SortedBy orderKey (order.sort items) := by
  apply (order.sorted items).imp
  intro a b notLess
  rw [← not_lt, ← sBAddPrefixLess_iff, notLess]
  exact Bool.false_ne_true

theorem StdSort.sortedBy_hash [HashItem α] (order : StdSort fun a b : α => sBAddPrefixHashLess a b)
    (items : List α) :
    SortedBy orderKey (order.sort items) :=
  (order.sorted items).imp not_less_of_not_hashLess

/-- The key of a full hash and its bytes, in lexicographic order. -/
def orderHashKey [HashItem α] (item : α) : Lex (Lex (ℤ × ℤ) × List ℕ) :=
  toLex (orderKey item, (fullHash item).bytes)

theorem sBAddPrefixHashLess_iff [HashItem α] {a b : α} :
    sBAddPrefixHashLess a b = true ↔ orderHashKey a < orderHashKey b := by
  rw [orderHashKey, orderHashKey, Prod.Lex.toLex_lt_toLex, sBAddPrefixHashLess]
  split
  · rename_i less
    exact iff_of_true rfl (.inl (sBAddPrefixLess_iff.mp less))
  · rename_i notLess
    rw [sBAddPrefixLess_iff] at notLess
    split
    · rename_i greater
      rw [sBAddPrefixLess_iff] at greater
      simp [notLess, ne_of_gt greater]
    · rename_i notGreater
      rw [sBAddPrefixLess_iff] at notGreater
      simp [le_antisymm (not_lt.mp notGreater) (not_lt.mp notLess), SBFullHash.memcmpLess]

/-- A merge sort does what `std::sort` promises, for an order that compares
keys. -/
def StdSort.ofKey {κ : Type} [LinearOrder κ] (less : α -> α -> Bool) (key : α -> κ)
    (compares : ∀ {a b}, less a b = true ↔ key a < key b) :
    StdSort less where
  sort items := items.mergeSort fun a b => !less b a
  perm items := List.mergeSort_perm items _
  sorted items := by
    have notLess : ∀ {a b}, (!less b a) = true ↔ key a <= key b := by
      intro a b
      rw [Bool.not_eq_true', ← Bool.not_eq_true, compares, not_lt]
    have sorted : (items.mergeSort fun a b => !less b a).Pairwise
          fun a b => (!less b a) = true := by
      apply List.pairwise_mergeSort
      · intro a b c ab bc
        exact notLess.mpr (le_trans (notLess.mp ab) (notLess.mp bc))
      · intro a b
        rw [Bool.or_eq_true]
        exact (le_total (key a) (key b)).imp notLess.mpr notLess.mpr
    exact sorted.imp fun {a b} ordered => by simpa using ordered

/-- Sorts for the four vectors. -/
def mergeSorts : StdSorts where
  addPrefixes := .ofKey _ orderKey sBAddPrefixLess_iff
  subPrefixes := .ofKey _ orderKey sBAddPrefixLess_iff
  addFullHashes := .ofKey _ orderHashKey sBAddPrefixHashLess_iff
  subFullHashes := .ofKey _ orderHashKey sBAddPrefixHashLess_iff

/-- The vectors of a knockout under way: what is retained of either and what
is still to be read. -/
structure Knockout.Underway (state : Knockout S A) (subsKept subsRest : List S)
    (addsKept addsRest : List A) : Prop where
  subs : Compacting state.subs state.subOut state.subIter subsKept subsRest
  adds : Compacting state.adds state.addOut state.addIter addsKept addsRest

/-- The in-place loop retains and records what the walk over the unread parts
does. -/
theorem Knockout.loop_eq [StoreItem S] [StoreItem A]
    (subsRest : List S) (addsRest : List A) {s : Knockout S A}
    (underway : s.Underway subsKept subsRest addsKept addsRest) :
    let final := s.loop sBAddPrefixLess sBAddPrefixLess
    let netted := strikeOut orderKey orderKey subsRest addsRest
    final.subs.take final.subOut ++ final.subs.drop final.subIter = subsKept ++ netted.left ∧
      final.adds.take final.addOut ++ final.adds.drop final.addIter = addsKept ++ netted.right ∧
      final.addsRemoved = s.addsRemoved ++ netted.struck := by
  fun_induction strikeOut orderKey orderKey subsRest addsRest
    generalizing s subsKept addsKept with
  | case1 addsRest =>
    obtain ⟨subs, adds⟩ := underway
    have ended := subs.length_le
    rw [Knockout.loop, dif_neg (by omega)]
    exact ⟨subs.erase, adds.erase, (append_nil _).symm⟩
  | case2 subsRest =>
    obtain ⟨subs, adds⟩ := underway
    have ended := adds.length_le
    rw [Knockout.loop, dif_neg (by omega)]
    exact ⟨subs.erase, adds.erase, (append_nil _).symm⟩
  | case3 sub subsRest add addsRest less ih =>
    obtain ⟨subs, adds⟩ := underway
    have next : (s.retainSub sub).Underway (subsKept ++ [sub]) subsRest
          addsKept (add :: addsRest) :=
      ⟨subs.keep, adds⟩
    rw [Knockout.loop, dif_pos ⟨adds.lt_length, subs.lt_length⟩]
    simp only [adds.getElem_eq, subs.getElem_eq, sBAddPrefixLess_iff.mpr less, if_true]
    simpa [Knockout.retainSub, Netted.keepLeft] using ih next
  | case4 sub subsRest add addsRest notLess greater ih =>
    obtain ⟨subs, adds⟩ := underway
    have next : (s.retainAdd add).Underway subsKept (sub :: subsRest)
          (addsKept ++ [add]) addsRest :=
      ⟨subs, adds.keep⟩
    rw [Knockout.loop, dif_pos ⟨adds.lt_length, subs.lt_length⟩]
    simp only [adds.getElem_eq, subs.getElem_eq,
      mt sBAddPrefixLess_iff.mp notLess, sBAddPrefixLess_iff.mpr greater,
      if_true]
    simpa [Knockout.retainAdd, Netted.keepRight] using ih next
  | case5 sub subsRest add addsRest notLess notGreater ih =>
    obtain ⟨subs, adds⟩ := underway
    have next : (s.dropBoth add).Underway subsKept subsRest addsKept addsRest :=
      ⟨subs.skip, adds.skip⟩
    rw [Knockout.loop, dif_pos ⟨adds.lt_length, subs.lt_length⟩]
    simp only [adds.getElem_eq, subs.getElem_eq, mt sBAddPrefixLess_iff.mp notLess,
      mt sBAddPrefixLess_iff.mp notGreater]
    simpa [Knockout.dropBoth, Netted.strike] using ih next

/-- `KnockoutSubs` is the walk that strikes out pairs. -/
theorem knockoutSubs_eq [StoreItem S] [StoreItem A] (subs : List S) (adds : List A) :
    knockoutSubs sBAddPrefixLess sBAddPrefixLess subs adds =
      let netted := strikeOut orderKey orderKey subs adds
      (netted.left, netted.right, netted.struck) := by
  have begins : Knockout.Underway ⟨subs, adds, 0, 0, 0, 0, []⟩ [] subs [] adds :=
    ⟨Compacting.start subs, Compacting.start adds⟩
  obtain ⟨subsEq, addsEq, removedEq⟩ := Knockout.loop_eq subs adds begins
  unfold knockoutSubs
  dsimp only at subsEq addsEq removedEq ⊢
  rw [subsEq, addsEq, removedEq]
  rfl

/-- The inner loop skips the items that are not above the removal. -/
theorem drop_skipHits [StoreItem T] (remove : SBAddPrefix) (fullHashes : List T) (hashIter : Nat) :
    fullHashes.drop (skipHits remove fullHashes hashIter) =
      (fullHashes.drop (hashIter + 1)).dropWhile fun other =>
        !decide (orderKey remove < orderKey other) := by
  fun_induction skipHits remove fullHashes hashIter with
  | case1 hashIter inside hit ih =>
    have notLess : ¬orderKey remove < orderKey fullHashes[hashIter + 1] := by
      rw [← sBAddPrefixLess_iff]
      simpa using hit
    rw [ih, drop_eq_getElem_cons inside, dropWhile_cons_of_pos (by simpa using notLess)]
  | case2 hashIter inside miss =>
    have less : orderKey remove < orderKey fullHashes[hashIter + 1] := by
      rw [← sBAddPrefixLess_iff]
      simpa using miss
    rw [drop_eq_getElem_cons inside, dropWhile_cons_of_neg (by simpa using less)]
  | case3 hashIter outside =>
    rw [drop_eq_nil_of_le (by omega)]
    rfl

/-- A removal under way. -/
structure Removal.Underway [StoreItem T]
    (removes : List SBAddPrefix) (state : Removal T) (kept : List T)
    (removesRest : List SBAddPrefix)
    (rest : List T) : Prop where
  hashes : Compacting state.fullHashes state.out state.hashIter kept rest
  removals : removes.drop state.removeIter = removesRest

/-- A removal with something left to read from either list. -/
theorem Removal.Underway.inside [StoreItem T] {s : Removal T} {hash : T}
    (underway : s.Underway removes kept (remove :: removesRest) (hash :: rest)) :
    s.hashIter < s.fullHashes.length ∧ ∃ lt : s.removeIter < removes.length,
        removes[s.removeIter] = remove ∧ removes.drop (s.removeIter + 1) = removesRest := by
  have lt : s.removeIter < removes.length := by
    by_contra outside
    have ended := underway.removals
    rw [drop_eq_nil_of_le (Nat.le_of_not_lt outside)] at ended
    exact cons_ne_nil _ _ ended.symm
  have split := underway.removals
  rw [drop_eq_getElem_cons lt] at split
  injection split with head tail
  exact ⟨underway.hashes.lt_length, lt, head, tail⟩

/-- The in-place loop keeps what the walk over the unread parts keeps. -/
theorem Removal.loop_eq [StoreItem T]
    (removes removesRest : List SBAddPrefix) (rest : List T) {s : Removal T}
    (underway : s.Underway removes kept removesRest rest) :
    let final := s.loop removes
    final.fullHashes.take final.out ++ final.fullHashes.drop final.hashIter =
      kept ++ removeKeys orderKey orderKey removesRest rest := by
  fun_induction removeKeys orderKey orderKey removesRest rest generalizing s kept with
  | case1 removesRest =>
    have ended := underway.hashes.length_le
    rw [Removal.loop, dif_neg (by omega)]
    exact underway.hashes.erase
  | case2 rest =>
    have ended : removes.length <= s.removeIter := by
      have emptied := underway.removals
      rwa [drop_eq_nil_iff] at emptied
    rw [Removal.loop, dif_neg (by omega)]
    exact underway.hashes.erase
  | case3 remove removesRest hash rest less ih =>
    obtain ⟨hashInside, removeInside, removeEq, -⟩ := underway.inside
    have next : Removal.Underway removes { s with
            fullHashes := s.fullHashes.set s.out hash
            out := s.out + 1
            hashIter := s.hashIter + 1 }
          (kept ++ [hash]) (remove :: removesRest) rest :=
      ⟨underway.hashes.keep, underway.removals⟩
    rw [Removal.loop, dif_pos ⟨hashInside, removeInside⟩]
    simp only [underway.hashes.getElem_eq, removeEq, sBAddPrefixLess_iff.mpr less, if_true]
    simpa using ih next
  | case4 remove removesRest hash rest notLess greater ih =>
    obtain ⟨hashInside, removeInside, removeEq, following⟩ := underway.inside
    have next : Removal.Underway removes { s with removeIter := s.removeIter + 1 }
          kept removesRest (hash :: rest) :=
      ⟨underway.hashes, following⟩
    rw [Removal.loop, dif_pos ⟨hashInside, removeInside⟩]
    simp only [underway.hashes.getElem_eq, removeEq,
      mt sBAddPrefixLess_iff.mp notLess, sBAddPrefixLess_iff.mpr greater,
      if_true]
    simpa using ih next
  | case5 remove removesRest hash rest notLess notGreater ih =>
      obtain ⟨hashInside, removeInside, removeEq, following⟩ := underway.inside
      have skipped := drop_skipHits remove s.fullHashes s.hashIter
      rw [underway.hashes.skip.rest_eq] at skipped
      have further := lt_skipHits remove s.fullHashes s.hashIter
      have next : Removal.Underway removes { s with
              hashIter := skipHits remove s.fullHashes s.hashIter
              removeIter := s.removeIter + 1 }
            kept removesRest
            (rest.dropWhile fun other => !decide (orderKey remove < orderKey other)) :=
        ⟨skipped ▸ underway.hashes.jump (Nat.le_of_lt further), following⟩
      rw [Removal.loop, dif_pos ⟨hashInside, removeInside⟩]
      simp only [underway.hashes.getElem_eq, removeEq, mt sBAddPrefixLess_iff.mp notLess,
        mt sBAddPrefixLess_iff.mp notGreater]
      simpa using ih next

/-- `RemoveMatchingPrefixes` drops exactly the items of the removed keys. -/
theorem removeMatchingPrefixes_eq [StoreItem T] {fullHashes : List T}
    (removesSorted : SortedBy orderKey removes) (sorted : SortedBy orderKey fullHashes) :
    removeMatchingPrefixes removes fullHashes =
      withoutKeys orderKey orderKey removes fullHashes := by
  have begins : Removal.Underway removes ⟨fullHashes, 0, 0, 0⟩ [] removes fullHashes :=
    ⟨Compacting.start fullHashes, rfl⟩
  rw [← removeKeys_eq removesSorted sorted]
  exact Removal.loop_eq removes removes fullHashes begins

/-- The items of the chunks that are not deleted. -/
def notDeleted [StoreItem T] (delSet : Finset Int32) (items : List T) : List T :=
  items.filter fun item => decide (chunkId item ∉ delSet)

/-- The scan keeps the items that are not deleted. -/
theorem removeDeletedStep_foldl [StoreItem T] (delSet : Finset Int32) {rest : List T}
    (compacting : Compacting items out input kept rest) :
    let final := (range' input rest.length).foldl (removeDeletedStep delSet) (items, out)
    final.1.take final.2 = kept ++ notDeleted delSet rest := by
  induction rest generalizing items out input kept with
  | nil =>
    rw [notDeleted, filter_nil, append_nil]
    exact compacting.kept_eq
  | cons item rest ih =>
    have hit : items[input]? = some item := compacting.read
    dsimp only
    rw [length_cons, range'_succ, foldl_cons, removeDeletedStep]
    simp only [hit]
    split
    · rename_i retained
      rw [ih compacting.keep, notDeleted, notDeleted, filter_cons_of_pos (by simpa using retained),
        append_assoc, singleton_append]
    · rename_i deleted
      rw [ih compacting.skip, notDeleted, notDeleted, filter_cons_of_neg (by simpa using deleted)]

/-- `RemoveDeleted` drops exactly the items of deleted chunks. -/
theorem removeDeleted_eq [StoreItem T] (items : List T) :
    removeDeleted items delSet = notDeleted delSet items := by
  rw [removeDeleted, range_eq_range']
  exact removeDeletedStep_foldl delSet (Compacting.start items)

/-- How many items of a vector have a key. -/
def countKey [StoreItem T] (items : List T) (key : Int32 × SBPrefix) : Nat :=
  items.countP fun item => decide (addKey item = key)

/-- A key is knocked out when it has an add and a sub. -/
def KnockedOut (items : StoreItems) (key : Int32 × SBPrefix) : Prop :=
  0 < countKey items.addPrefixes key ∧ 0 < countKey items.subPrefixes key

instance (items : StoreItems) (key : Int32 × SBPrefix) : Decidable (KnockedOut items key) :=
  inferInstanceAs (Decidable (_ ∧ _))

theorem countKey_perm [StoreItem T] {left right : List T} (rearranged : left.Perm right) :
    countKey left key = countKey right key :=
  rearranged.countP_eq _

/-- Counting by the key of an add is counting by its place in the order. -/
theorem countKey_eq [StoreItem T] (items : List T) (chunk : Int32) :
    countKey items (chunk, addPrefix) =
      keyCount orderKey items (toLex (chunk.toInt, addPrefix.toInt)) := by
  unfold countKey keyCount
  congr 1
  funext item
  simp [orderKey, addKey, Int32.toInt_inj]

/-- What `KnockoutSubs` leaves of sorted vectors: of every key the excess of
either side, and one removed add for each pair. -/
theorem knockoutSubs_counts [StoreItem S] [StoreItem A]
    {subs : List S} {adds : List A} (subsSorted : SortedBy orderKey subs)
    (addsSorted : SortedBy orderKey adds)
    (key : Int32 × SBPrefix) :
    let left := knockoutSubs sBAddPrefixLess sBAddPrefixLess subs adds
    countKey left.1 key = countKey subs key - countKey adds key ∧
      countKey left.2.1 key = countKey adds key - countKey subs key ∧
      countKey left.2.2 key = min (countKey subs key) (countKey adds key) := by
  obtain ⟨chunk, addPrefix⟩ := key
  rw [knockoutSubs_eq]
  simp only [countKey_eq]
  exact keyCount_strikeOut subsSorted addsSorted _

/-- `KnockoutSubs` only leaves items it was given, in their order. -/
theorem knockoutSubs_sublist [StoreItem S] [StoreItem A] (subs : List S) (adds : List A) :
    let left := knockoutSubs sBAddPrefixLess sBAddPrefixLess subs adds
    left.1.Sublist subs ∧ left.2.1.Sublist adds ∧ left.2.2.Sublist adds := by
  rw [knockoutSubs_eq]
  exact strikeOut_sublist

/-- A full hash survives the removal of the struck adds unless its key was
knocked out. -/
theorem withoutKeys_removed [StoreItem T] {removed : List SBAddPrefix} {items : StoreItems}
    (counts : ∀ key, countKey removed key =
        min (countKey items.subPrefixes key) (countKey items.addPrefixes key))
    (fullHashes : List T) :
    withoutKeys orderKey orderKey removed fullHashes = fullHashes.filter fun item =>
        decide (¬KnockedOut items (addKey item)) := by
  apply filter_congr
  intro item _
  have occurs : (∃ removal ∈ removed, addKey removal = addKey item) ↔
        KnockedOut items (addKey item) := by
    have pos : 0 < countKey removed (addKey item) ↔
        ∃ removal ∈ removed, addKey removal = addKey item := by
      simp [countKey, countP_pos_iff]
    rw [← pos, counts, Nat.lt_min, KnockedOut, and_comm]
  simp [← occurs, orderKey_eq_iff, not_exists]

/-- The first part of `SBProcessSubs` nets the prefixes of every key and
removes the full hashes of the knocked-out ones. -/
theorem factorSubs_netted (sorts : StdSorts) (items : StoreItems) :
    let factored := factorSubs sorts items
    (factored.addPrefixes.Subperm items.addPrefixes ∧
      factored.subPrefixes.Subperm items.subPrefixes) ∧
    (∀ key, countKey factored.addPrefixes key =
          countKey items.addPrefixes key - countKey items.subPrefixes key ∧
        countKey factored.subPrefixes key =
          countKey items.subPrefixes key - countKey items.addPrefixes key) ∧
    factored.addFullHashes.Perm (items.addFullHashes.filter fun item =>
        decide (¬KnockedOut items (addKey item))) ∧
    factored.subFullHashes.Perm (items.subFullHashes.filter fun item =>
        decide (¬KnockedOut items (addKey item))) := by
  have addsPerm := sorts.addPrefixes.perm items.addPrefixes
  have subsPerm := sorts.subPrefixes.perm items.subPrefixes
  have addsSorted := sorts.addPrefixes.sortedBy items.addPrefixes
  have subsSorted := sorts.subPrefixes.sortedBy items.subPrefixes
  obtain ⟨subsSublist, addsSublist, removedSublist⟩ :=
    knockoutSubs_sublist (sorts.subPrefixes.sort items.subPrefixes)
      (sorts.addPrefixes.sort items.addPrefixes)
  have removedSorted := addsSorted.sublist removedSublist
  have counts := fun key => knockoutSubs_counts subsSorted addsSorted key
  simp only [countKey_perm addsPerm, countKey_perm subsPerm] at counts
  have removedCounts := fun key => (counts key).2.2
  refine ⟨⟨?_, ?_⟩, ?_, ?_, ?_⟩
  · exact addsSublist.subperm.trans addsPerm.subperm
  · exact subsSublist.subperm.trans subsPerm.subperm
  · intro key
    exact ⟨(counts key).2.1, (counts key).1⟩
  · dsimp only [factorSubs]
    rw [removeMatchingPrefixes_eq removedSorted
      (sorts.addFullHashes.sortedBy_hash items.addFullHashes),
      withoutKeys_removed removedCounts]
    exact (sorts.addFullHashes.perm items.addFullHashes).filter _
  · dsimp only [factorSubs]
    rw [removeMatchingPrefixes_eq removedSorted
      (sorts.subFullHashes.sortedBy_hash items.subFullHashes),
      withoutKeys_removed removedCounts]
    exact (sorts.subFullHashes.perm items.subFullHashes).filter _

/-- The second part of `SBProcessSubs` drops the items of deleted chunks. -/
theorem sBProcessSubs_eq (sorts : StdSorts) (items : StoreItems)
    (addChunksDeleted subChunksDeleted : Finset Int32) :
    let factored := factorSubs sorts items
    sBProcessSubs sorts items addChunksDeleted subChunksDeleted =
      ⟨notDeleted addChunksDeleted factored.addPrefixes,
        notDeleted subChunksDeleted factored.subPrefixes,
        notDeleted addChunksDeleted factored.addFullHashes,
        notDeleted subChunksDeleted factored.subFullHashes⟩ := by
  simp only [sBProcessSubs, removeDeleted_eq]

/-- Add prefixes are told apart by their key alone. -/
theorem addPrefixes_perm {left right : List SBAddPrefix}
    (counts : ∀ key, countKey left key = countKey right key) :
    left.Perm right := by
  apply perm_iff_count.mpr
  intro item
  have byKey : ∀ items : List SBAddPrefix, items.count item = countKey items (addKey item) := by
    intro items
    rw [List.count, countKey]
    congr 1
    funext other
    obtain ⟨chunk, addPrefix⟩ := item
    obtain ⟨otherChunk, otherPrefix⟩ := other
    rw [Bool.eq_iff_iff]
    simp [addKey, getAddChunkId, getAddPrefix]
  rw [byKey, byKey, counts]

/-- The same items in another order. -/
structure Rearranged (left right : StoreItems) : Prop where
  addPrefixes : left.addPrefixes.Perm right.addPrefixes
  subPrefixes : left.subPrefixes.Perm right.subPrefixes
  addFullHashes : left.addFullHashes.Perm right.addFullHashes
  subFullHashes : left.subFullHashes.Perm right.subFullHashes

/-- However the vectors are ordered and whatever `std::sort` makes of equal
items: the subs of a key cancel its adds one for one, the full hashes of a
knocked-out key go and all others stay, then exactly the items of deleted
chunks are dropped, and the order of the input decides nothing about the add
prefixes and the full hashes that result. -/
theorem sBProcessSubs_nets (sorts : StdSorts) (items : StoreItems)
    (addChunksDeleted subChunksDeleted : Finset Int32) :
    let factored := factorSubs sorts items
    let result := sBProcessSubs sorts items addChunksDeleted subChunksDeleted
    (factored.addPrefixes.Subperm items.addPrefixes ∧
      factored.subPrefixes.Subperm items.subPrefixes) ∧
    (∀ key, countKey factored.addPrefixes key =
          countKey items.addPrefixes key - countKey items.subPrefixes key ∧
        countKey factored.subPrefixes key =
          countKey items.subPrefixes key - countKey items.addPrefixes key ∧
        (countKey factored.addPrefixes key = 0 ∨ countKey factored.subPrefixes key = 0)) ∧
    factored.addFullHashes.Perm (items.addFullHashes.filter fun item =>
        decide (¬KnockedOut items (addKey item))) ∧
    factored.subFullHashes.Perm (items.subFullHashes.filter fun item =>
        decide (¬KnockedOut items (addKey item))) ∧
    result = ⟨notDeleted addChunksDeleted factored.addPrefixes,
        notDeleted subChunksDeleted factored.subPrefixes,
        notDeleted addChunksDeleted factored.addFullHashes,
        notDeleted subChunksDeleted factored.subFullHashes⟩ ∧
    ∀ (otherSorts : StdSorts) (others : StoreItems), Rearranged items others ->
      let other := sBProcessSubs otherSorts others addChunksDeleted subChunksDeleted
      result.addPrefixes.Perm other.addPrefixes ∧ result.addFullHashes.Perm other.addFullHashes ∧
        result.subFullHashes.Perm other.subFullHashes := by
  intro factored result
  obtain ⟨kept, counts, addHashes, subHashes⟩ := factorSubs_netted sorts items
  have processed := sBProcessSubs_eq sorts items addChunksDeleted subChunksDeleted
  refine ⟨kept, ?_, addHashes, subHashes, processed, ?_⟩
  · intro key
    obtain ⟨adds, subs⟩ := counts key
    refine ⟨adds, subs, ?_⟩
    change countKey factored.addPrefixes key = _ at adds
    change countKey factored.subPrefixes key = _ at subs
    omega
  · intro otherSorts others same
    dsimp only
    obtain ⟨-, otherCounts, otherAddHashes, otherSubHashes⟩ := factorSubs_netted otherSorts others
    have knockedOut : ∀ key, KnockedOut others key ↔ KnockedOut items key := by
      intro key
      rw [KnockedOut, KnockedOut, countKey_perm same.addPrefixes, countKey_perm same.subPrefixes]
    simp only [knockedOut] at otherAddHashes otherSubHashes
    have addPrefixes : factored.addPrefixes.Perm (factorSubs otherSorts others).addPrefixes := by
      apply addPrefixes_perm
      intro key
      rw [(counts key).1, (otherCounts key).1,
        countKey_perm same.addPrefixes, countKey_perm same.subPrefixes]
    have addFullHashes : factored.addFullHashes.Perm (factorSubs otherSorts others).addFullHashes :=
      (addHashes.trans (same.addFullHashes.filter _)).trans otherAddHashes.symm
    have subFullHashes : factored.subFullHashes.Perm (factorSubs otherSorts others).subFullHashes :=
      (subHashes.trans (same.subFullHashes.filter _)).trans otherSubHashes.symm
    rw [show result = _ from processed, sBProcessSubs_eq]
    exact ⟨addPrefixes.filter _, addFullHashes.filter _, subFullHashes.filter _⟩

theorem sBProcessSubs_nets_repeatedAdd :
    let items : StoreItems := ⟨[⟨1, 5⟩, ⟨2, 7⟩, ⟨1, 5⟩], [⟨9, 1, 5⟩], [], []⟩
    countKey (factorSubs mergeSorts items).addPrefixes (1, 5) =
      countKey items.addPrefixes (1, 5) - countKey items.subPrefixes (1, 5) :=
  ((sBProcessSubs_nets mergeSorts ⟨[⟨1, 5⟩, ⟨2, 7⟩, ⟨1, 5⟩], [⟨9, 1, 5⟩], [], []⟩ ∅ ∅).2.1 (1, 5)).1

theorem countKey_le [StoreItem T] {left right : List T} (sublist : left <+ right)
    (key : Int32 × SBPrefix) :
    countKey left key <= countKey right key :=
  sublist.countP_le

/-- Items that leave out none of any key are all of them. -/
theorem eq_of_sublist [StoreItem T] {left right : List T} (sublist : left <+ right)
    (counts : ∀ key, countKey left key = countKey right key) :
    left = right := by
  induction sublist with
  | slnil => rfl
  | @cons left right item sublist ih =>
    have fewer := countKey_le sublist (addKey item)
    have same := counts (addKey item)
    rw [countKey, countKey, countP_cons_of_pos (by simp)] at same
    exact absurd same (Nat.ne_of_lt (Nat.lt_succ_of_le fewer))
  | cons_cons item sublist ih =>
    rw [ih fun key => by simpa [countKey, countP_cons] using counts key]

theorem perm_of_counts [StoreItem T] {left right : List T} (subperm : left.Subperm right)
    (counts : ∀ key, countKey left key = countKey right key) :
    left.Perm right := by
  obtain ⟨hit, perm, sublist⟩ := subperm
  rw [← eq_of_sublist sublist fun key => (countKey_perm perm).trans (counts key)]
  exact perm.symm

/-- Processing what was processed removes nothing but the items of deleted chunks. -/
theorem sBProcessSubs_again (sorts otherSorts : StdSorts) (items : StoreItems)
    (addChunksDeleted subChunksDeleted otherAdds otherSubs : Finset Int32) :
    let result := sBProcessSubs sorts items addChunksDeleted subChunksDeleted
    Rearranged (sBProcessSubs otherSorts result otherAdds otherSubs)
      ⟨notDeleted otherAdds result.addPrefixes, notDeleted otherSubs result.subPrefixes,
        notDeleted otherAdds result.addFullHashes, notDeleted otherSubs result.subFullHashes⟩ := by
  intro result
  obtain ⟨-, netted, -, -⟩ := factorSubs_netted sorts items
  obtain ⟨⟨adds, subs⟩, counts, addHashes, subHashes⟩ := factorSubs_netted otherSorts result
  -- Deleting chunks leaves a netted key on one side.
  have fewer : (result.addPrefixes <+ (factorSubs sorts items).addPrefixes) ∧
      result.subPrefixes <+ (factorSubs sorts items).subPrefixes := by
    rw [show result = _ from sBProcessSubs_eq sorts items _ _]
    exact ⟨filter_sublist, filter_sublist⟩
  have oneSide : ∀ key,
      countKey result.addPrefixes key = 0 ∨ countKey result.subPrefixes key = 0 := by
    intro key
    have addsLeft := countKey_le fewer.1 key
    have subsLeft := countKey_le fewer.2 key
    rw [(netted key).1] at addsLeft
    rw [(netted key).2] at subsLeft
    omega
  have none : ∀ key, ¬KnockedOut result key := fun key => by
    rw [KnockedOut]
    have := oneSide key
    omega
  simp only [none, not_false_eq_true, decide_true, filter_true] at addHashes subHashes
  rw [sBProcessSubs_eq]
  refine ⟨(perm_of_counts adds fun key => ?_).filter _, (perm_of_counts subs fun key => ?_).filter _,
    addHashes.filter _, subHashes.filter _⟩
  all_goals
    have := counts key
    have := oneSide key
    omega

end Chromium.SafeBrowsing
