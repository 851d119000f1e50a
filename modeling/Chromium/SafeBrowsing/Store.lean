import Chromium.SafeBrowsing.Util
import Mathlib.Data.Finset.Basic

/-!
# Netting the adds and subs of the safe-browsing store

The items of the store, their two orders, and the in-place passes that
`SBProcessSubs` makes over the four vectors.
-/

namespace Chromium.SafeBrowsing

structure SBAddPrefix where
  chunkId : Int32
  addPrefix : SBPrefix
  deriving DecidableEq

structure SBSubPrefix where
  chunkId : Int32
  addChunkId : Int32
  addPrefix : SBPrefix
  deriving DecidableEq

structure SBAddFullHash where
  chunkId : Int32
  received : Int32
  fullHash : SBFullHash
  deriving DecidableEq

structure SBSubFullHash where
  chunkId : Int32
  addChunkId : Int32
  fullHash : SBFullHash
  deriving DecidableEq

/-- What the templates of the store use of an item: its own chunk, and the
chunk and prefix of the add it is or cancels. -/
class StoreItem (α : Type) where
  chunkId : α -> Int32
  getAddChunkId : α -> Int32
  getAddPrefix : α -> SBPrefix

/-- An item that carries a full hash. -/
class HashItem (α : Type) extends StoreItem α where
  fullHash : α -> SBFullHash

instance : StoreItem SBAddPrefix where
  chunkId := SBAddPrefix.chunkId
  getAddChunkId := SBAddPrefix.chunkId
  getAddPrefix := SBAddPrefix.addPrefix

instance : StoreItem SBSubPrefix where
  chunkId := SBSubPrefix.chunkId
  getAddChunkId := SBSubPrefix.addChunkId
  getAddPrefix := SBSubPrefix.addPrefix

instance : HashItem SBAddFullHash where
  chunkId := SBAddFullHash.chunkId
  getAddChunkId := SBAddFullHash.chunkId
  getAddPrefix item := item.fullHash.itsPrefix
  fullHash := SBAddFullHash.fullHash

instance : HashItem SBSubFullHash where
  chunkId := SBSubFullHash.chunkId
  getAddChunkId := SBSubFullHash.addChunkId
  getAddPrefix item := item.fullHash.itsPrefix
  fullHash := SBSubFullHash.fullHash

open StoreItem HashItem

/-- `SBAddPrefixLess`. -/
def sBAddPrefixLess [StoreItem α] [StoreItem β] (a : α) (b : β) : Bool :=
  if getAddChunkId a ≠ getAddChunkId b then decide (getAddChunkId a < getAddChunkId b)
  else decide (getAddPrefix a < getAddPrefix b)

/-- `SBAddPrefixHashLess`. -/
def sBAddPrefixHashLess [HashItem α] [HashItem β] (a : α) (b : β) : Bool :=
  if sBAddPrefixLess a b then true
  else if sBAddPrefixLess b a then false
  else (fullHash a).memcmpLess (fullHash b)

/-- What `std::sort` promises: a rearrangement in which no element is smaller
than one before it. It promises nothing about the order of elements neither
of which is smaller. -/
structure StdSort (less : α -> α -> Bool) where
  sort : List α -> List α
  perm : ∀ items, (sort items).Perm items
  sorted : ∀ items, (sort items).Pairwise fun a b => less b a = false

/-- The vectors and iterators of `KnockoutSubs`. -/
structure Knockout (S A : Type) where
  subs : List S
  adds : List A
  subOut : Nat
  addOut : Nat
  subIter : Nat
  addIter : Nat
  addsRemoved : List A

namespace Knockout

/-- Retain the sub. -/
def retainSub (state : Knockout S A) (sub : S) : Knockout S A :=
  { state with
    subs := state.subs.set state.subOut sub
    subOut := state.subOut + 1
    subIter := state.subIter + 1 }

/-- Retain the add. -/
def retainAdd (state : Knockout S A) (add : A) : Knockout S A :=
  { state with
    adds := state.adds.set state.addOut add
    addOut := state.addOut + 1
    addIter := state.addIter + 1 }

/-- Record equal items and drop them. -/
def dropBoth (state : Knockout S A) (add : A) : Knockout S A :=
  { state with
    addsRemoved := state.addsRemoved ++ [add]
    addIter := state.addIter + 1
    subIter := state.subIter + 1 }

/-- The loop of `KnockoutSubs`. -/
def loop (predAS : A → S → Bool) (predSA : S → A → Bool) (state : Knockout S A) : Knockout S A :=
  if inside : state.addIter < state.adds.length ∧ state.subIter < state.subs.length then
    let add := state.adds[state.addIter]
    let sub := state.subs[state.subIter]
    if predSA sub add then loop predAS predSA (state.retainSub sub)
    else if predAS add sub then loop predAS predSA (state.retainAdd add)
    else loop predAS predSA (state.dropBoth add)
  else state
termination_by (state.adds.length - state.addIter) + (state.subs.length - state.subIter)
decreasing_by
  all_goals
    simp only [retainSub, retainAdd, dropBoth, List.length_set]
    omega

end Knockout

/-- `KnockoutSubs`: the subs, the adds and the removed adds. -/
def knockoutSubs (predAS : A -> S -> Bool) (predSA : S -> A -> Bool) (subs : List S)
    (adds : List A) : List S × List A × List A :=
  let state := Knockout.loop predAS predSA ⟨subs, adds, 0, 0, 0, 0, []⟩
  (state.subs.take state.subOut ++ state.subs.drop state.subIter,
    state.adds.take state.addOut ++ state.adds.drop state.addIter,
    state.addsRemoved)

/-- The inner loop of `RemoveMatchingPrefixes`: the position of the first
item after an equal one that is not equal to it. -/
def skipHits [StoreItem T] (remove : SBAddPrefix) (fullHashes : List T) (hashIter : Nat) : Nat :=
  if inside : hashIter + 1 < fullHashes.length then
    if !sBAddPrefixLess remove fullHashes[hashIter + 1] then
      skipHits remove fullHashes (hashIter + 1)
    else hashIter + 1
  else hashIter + 1
termination_by fullHashes.length - hashIter

theorem lt_skipHits [StoreItem T] (remove : SBAddPrefix) (fullHashes : List T) (hashIter : Nat) :
    hashIter < skipHits remove fullHashes hashIter := by
  fun_induction skipHits remove fullHashes hashIter with
  | case1 hashIter inside hit ih => omega
  | case2 hashIter inside miss => omega
  | case3 hashIter outside => omega

/-- The vector and iterators of `RemoveMatchingPrefixes`. -/
structure Removal (T : Type) where
  fullHashes : List T
  out : Nat
  hashIter : Nat
  removeIter : Nat

/-- The loop of `RemoveMatchingPrefixes`. -/
def Removal.loop [StoreItem T] (removes : List SBAddPrefix) (state : Removal T) : Removal T :=
  if inside : state.hashIter < state.fullHashes.length ∧ state.removeIter < removes.length then
    let hash := state.fullHashes[state.hashIter]
    let remove := removes[state.removeIter]
    if sBAddPrefixLess hash remove then
      loop removes { state with
          fullHashes := state.fullHashes.set state.out hash
          out := state.out + 1
          hashIter := state.hashIter + 1 }
    else if sBAddPrefixLess remove hash then
      loop removes { state with removeIter := state.removeIter + 1 }
    else
      loop removes { state with
          hashIter := skipHits remove state.fullHashes state.hashIter
          removeIter := state.removeIter + 1 }
  else state
termination_by (state.fullHashes.length - state.hashIter) + (removes.length - state.removeIter)
decreasing_by
  · simp only [List.length_set]
    omega
  · omega
  · have := lt_skipHits removes[state.removeIter] state.fullHashes state.hashIter
    omega

/-- `RemoveMatchingPrefixes`. -/
def removeMatchingPrefixes [StoreItem T] (removes : List SBAddPrefix)
    (fullHashes : List T) : List T :=
  let state := Removal.loop removes ⟨fullHashes, 0, 0, 0⟩
  state.fullHashes.take state.out ++ state.fullHashes.drop state.hashIter

/-- The vector and the output position of `RemoveDeleted` after one more item
was read. -/
def removeDeletedStep [StoreItem T] (delSet : Finset Int32) (state : List T × Nat)
    (iter : Nat) : List T × Nat :=
  match state.1[iter]? with
  | none => state
  | some item =>
    if chunkId item ∉ delSet then (state.1.set state.2 item, state.2 + 1)
    else state

/-- `RemoveDeleted`. -/
def removeDeleted [StoreItem T] (items : List T) (delSet : Finset Int32) : List T :=
  let state := (List.range items.length).foldl (removeDeletedStep delSet) (items, 0)
  state.1.take state.2

/-- The four vectors of the store. -/
structure StoreItems where
  addPrefixes : List SBAddPrefix
  subPrefixes : List SBSubPrefix
  addFullHashes : List SBAddFullHash
  subFullHashes : List SBSubFullHash
  deriving DecidableEq

/-- The sorts that `SBProcessSubs` calls. -/
structure StdSorts where
  addPrefixes : StdSort fun a b : SBAddPrefix => sBAddPrefixLess a b
  subPrefixes : StdSort fun a b : SBSubPrefix => sBAddPrefixLess a b
  addFullHashes : StdSort fun a b : SBAddFullHash => sBAddPrefixHashLess a b
  subFullHashes : StdSort fun a b : SBSubFullHash => sBAddPrefixHashLess a b

/-- The first part of `SBProcessSubs`: sort the vectors, knock out the adds
that have a sub, and remove their full hashes. -/
def factorSubs (sorts : StdSorts) (items : StoreItems) : StoreItems :=
  let addPrefixes := sorts.addPrefixes.sort items.addPrefixes
  let subPrefixes := sorts.subPrefixes.sort items.subPrefixes
  let addFullHashes := sorts.addFullHashes.sort items.addFullHashes
  let subFullHashes := sorts.subFullHashes.sort items.subFullHashes
  let (subPrefixes, addPrefixes, removedAdds) :=
    knockoutSubs sBAddPrefixLess sBAddPrefixLess subPrefixes addPrefixes
  { addPrefixes := addPrefixes
    subPrefixes := subPrefixes
    addFullHashes := removeMatchingPrefixes removedAdds addFullHashes
    subFullHashes := removeMatchingPrefixes removedAdds subFullHashes }

/-- `SBProcessSubs`. -/
def sBProcessSubs (sorts : StdSorts) (items : StoreItems)
    (addChunksDeleted subChunksDeleted : Finset Int32) : StoreItems :=
  let factored := factorSubs sorts items
  { addPrefixes := removeDeleted factored.addPrefixes addChunksDeleted
    subPrefixes := removeDeleted factored.subPrefixes subChunksDeleted
    addFullHashes := removeDeleted factored.addFullHashes addChunksDeleted
    subFullHashes := removeDeleted factored.subFullHashes subChunksDeleted }

end Chromium.SafeBrowsing
