import Chromium.Library.DeltaBins
import Chromium.Library.Lists
import Chromium.SafeBrowsing.PrefixSet
import Mathlib.Data.List.Dedup
import Mathlib.Data.List.Induction

/-!
# The layout of a prefix set

The index and deltas of a prefix set code increasing bins of prefixes. The
constructor keeps this layout at every prefix, and the membership test, the
enumeration and the accessors read the bins back.
-/

namespace Chromium.SafeBrowsing.PrefixSet

open List
open Library

/-- The bins of a prefix set. -/
abbrev Bins := List (Bin SBPrefix UInt16)

/-- The prefixes of a list of bins. -/
abbrev Bins.prefixes (bins : Bins) : List SBPrefix := Bin.represented advance bins

/-- An index and deltas that code increasing bins. -/
structure Encodes (index : List (SBPrefix × Nat)) (deltas : List UInt16) (bins : Bins) : Prop where
  index_eq : index = Bin.starts 0 bins
  deltas_eq : deltas = Bin.allDeltas bins
  increasing : bins.prefixes.Pairwise (· < ·)

variable {front back bins : Bins} {deltas : List UInt16} {set : PrefixSet} {current : SBPrefix}

/-- A difference that survives the cut to 16 bits leads from one prefix to
the other. -/
theorem advance_delta
    (fits : (item - current).toUInt32 = (item - current).toUInt32.toUInt16.toUInt32) :
    advance current (item - current).toUInt32.toUInt16 = item := by
  rw [advance, ← fits, Int32.toInt32_toUInt32]
  grind

/-- A delta is a small nonnegative number. -/
theorem toInt_delta (delta : UInt16) : delta.toUInt32.toInt32.toInt = delta.toNat := by
  have small : 2 * delta.toUInt32.toBitVec.toNat < 2 ^ 32 := by
    have := delta.toNat_lt
    simp only [UInt32.toNat_toBitVec, UInt16.toNat_toUInt32]
    omega
  calc
    delta.toUInt32.toInt32.toInt = delta.toUInt32.toBitVec.toInt := rfl
    _ = delta.toUInt32.toBitVec.toNat := BitVec.toInt_eq_toNat_of_lt small
    _ = delta.toNat := by
      rw [UInt32.toNat_toBitVec, UInt16.toNat_toUInt32]

/-- A prefix that follows another by a delta is larger by that delta. -/
theorem toInt_advance (larger : current < advance current delta) :
    (advance current delta).toInt = current.toInt + delta.toNat := by
  have lower := current.le_toInt
  have small := delta.toNat_lt
  unfold advance at larger ⊢
  rw [Int32.lt_iff_toInt_lt, Int32.toInt_add, toInt_delta] at larger
  rw [Int32.toInt_add, toInt_delta]
  rw [Int.bmod_eq_of_le] <;> grind

/-- The constructor's state after it has seen a list of prefixes. -/
structure Built (building : Building) (seen : List SBPrefix) : Prop where
  encodes : ∃ front base deltas,
      Encodes building.index building.deltas (front ++ [⟨base, deltas⟩]) ∧
      (∀ item, item ∈ Bins.prefixes (front ++ [⟨base, deltas⟩]) ↔ item ∈ seen) ∧
      building.prevPrefix = deltas.foldl advance base

/-- The last prefix of a list of bins. -/
theorem getLast?_prefixes (front : Bins) (bin : Bin SBPrefix UInt16) :
    (Bins.prefixes (front ++ [bin])).getLast? = some (bin.deltas.foldl advance bin.base) := by
  simp [Bin.getLast?_values]

/-- In an increasing list everything lies below or at the last element. -/
theorem lt_getLast {list : List SBPrefix} (rising : list.Pairwise (· < ·))
    (last : list.getLast? = some final) (mem : item ∈ list) :
    item < final ∨ item = final := by
  obtain ⟨front, rfl⟩ := getLast?_eq_some_iff.mp last
  rcases mem_append.mp mem with early | final
  · exact .inl ((pairwise_append.mp rising).2.2 item early _ (mem_singleton_self _))
  · exact .inr (mem_singleton.mp final)

/-- An increasing list is extended by anything above its last element. -/
theorem pairwise_snoc {list : List SBPrefix} (rising : list.Pairwise (· < ·))
    (last : list.getLast? = some final) (larger : final < item) :
    (list ++ [item]).Pairwise (· < ·) := by
  refine pairwise_append.mpr ⟨rising, pairwise_singleton _ _, ?_⟩
  intro elem mem other same
  rw [mem_singleton.mp same]
  rcases lt_getLast rising last mem with below | rfl
  · exact Int32.lt_trans below larger
  · exact larger

theorem start_built : Built (Building.start first) [first] := by
  refine ⟨[], first, [], ⟨rfl, rfl, ?_⟩, ?_, rfl⟩
  · exact pairwise_singleton _ _
  · intro item
    exact Iff.rfl

section

variable (built : Built building seen)
include built

/-- A new index entry keeps the layout. -/
theorem Built.pushIndex (larger : building.prevPrefix < item) :
    Built (building.pushIndex item) (seen ++ [item]) := by
  obtain ⟨front, base, deltas, encodes, members, prev⟩ := built.encodes
  have last := getLast?_prefixes front ⟨base, deltas⟩
  rw [← prev] at last
  have extended : Bins.prefixes (front ++ [⟨base, deltas⟩] ++ [⟨item, []⟩]) =
        Bins.prefixes (front ++ [⟨base, deltas⟩]) ++ [item] := by
    rw [Bins.prefixes, Bin.represented_append]
    rfl
  refine ⟨front ++ [⟨base, deltas⟩], item, [], ⟨?_, ?_, ?_⟩, ?_, rfl⟩
  · rw [Bin.starts_append]
    simp [Building.pushIndex, encodes.index_eq, encodes.deltas_eq, Bin.starts]
  · simp [Building.pushIndex, encodes.deltas_eq]
  · rw [extended]
    exact pairwise_snoc encodes.increasing last larger
  · intro other
    rw [extended, mem_append, mem_append, members]

theorem Built.pushDelta (larger : building.prevPrefix < item)
    (leads : advance building.prevPrefix delta = item) :
    Built (building.pushDelta item delta) (seen ++ [item]) := by
  obtain ⟨front, base, deltas, encodes, members, prev⟩ := built.encodes
  have last := getLast?_prefixes front ⟨base, deltas⟩
  rw [← prev] at last
  have extended : Bins.prefixes (front ++ [⟨base, deltas ++ [delta]⟩]) =
        Bins.prefixes (front ++ [⟨base, deltas⟩]) ++ [item] := by
    simp only [Bins.prefixes, Bin.represented_append, Bin.represented_cons,
      Bin.represented_nil, append_nil, Bin.values_snoc, ← prev,
      leads, append_assoc]
  refine ⟨front, base, deltas ++ [delta], ⟨?_, ?_, ?_⟩, ?_, ?_⟩
  · rw [Bin.starts_snoc_deltas 0 front base (deltas ++ [delta])]
    exact encodes.index_eq
  · simp [Building.pushDelta, encodes.deltas_eq]
  · rw [extended]
    exact pairwise_snoc encodes.increasing last larger
  · intro other
    rw [extended, mem_append, mem_append, members]
  · rw [foldl_append, ← prev]
    exact leads.symm

/-- One round of the constructor keeps the layout. -/
theorem Built.step (sorted : ∀ earlier ∈ seen, earlier <= item) :
    Built (building.step item) (seen ++ [item]) := by
  obtain ⟨front, base, deltas, encodes, members, prev⟩ := built.encodes
  have last := getLast?_prefixes front ⟨base, deltas⟩
  rw [← prev] at last
  have prevSeen : building.prevPrefix ∈ seen := (members _).mp (mem_of_getLast? last)
  unfold Building.step
  split
  · rename_i duplicate
    refine ⟨front, base, deltas, encodes, ?_, prev⟩
    intro other
    rw [members, mem_append, mem_singleton]
    constructor
    · exact .inl
    · rintro (known | rfl)
      · exact known
      · exact duplicate ▸ prevSeen
  · rename_i fresh
    have larger : building.prevPrefix < item := by grind
    dsimp only
    split
    · exact built.pushIndex larger
    · rename_i coded
      push Not at coded
      exact built.pushDelta larger (advance_delta coded.1)

/-- The loop of the constructor keeps the layout. -/
theorem Built.foldl (sorted : (seen ++ rest).Pairwise (· <= ·)) :
    Built (rest.foldl Building.step building) (seen ++ rest) := by
  induction rest generalizing building seen with
  | nil => simpa using built
  | cons item rest ih =>
    have below : ∀ earlier ∈ seen, earlier <= item := by
      intro earlier mem
      exact (pairwise_append.mp sorted).2.2 earlier mem item mem_cons_self
    have next := built.step below
    rw [show seen ++ item :: rest = seen ++ [item] ++ rest by simp] at sorted ⊢
    exact ih next sorted

end

/-- The constructor codes the distinct prefixes it was given. -/
theorem ofSortedPrefixes_encodes (sorted : sortedPrefixes.Pairwise (· <= ·)) :
    ∃ bins : Bins, Encodes (ofSortedPrefixes sortedPrefixes).index
        (ofSortedPrefixes sortedPrefixes).deltas bins ∧ bins.prefixes = sortedPrefixes.dedup := by
  have coded : ∃ bins : Bins, Encodes (ofSortedPrefixes sortedPrefixes).index
          (ofSortedPrefixes sortedPrefixes).deltas bins ∧
        ∀ item, item ∈ bins.prefixes ↔ item ∈ sortedPrefixes := by
    cases sortedPrefixes with
    | nil =>
      refine ⟨[], ⟨rfl, rfl, List.Pairwise.nil⟩, ?_⟩
      intro item
      exact Iff.rfl
    | cons first rest =>
      have built : Built (rest.foldl Building.step (Building.start first)) ([first] ++ rest) :=
        start_built.foldl sorted
      obtain ⟨front, base, deltas, encodes, members, -⟩ := built.encodes
      exact ⟨_, encodes, members⟩
  obtain ⟨bins, encodes, members⟩ := coded
  refine ⟨bins, encodes, ?_⟩
  have nodup : bins.prefixes.Nodup := encodes.increasing.imp fun less same => by grind
  have rising : bins.prefixes.Pairwise (· <= ·) :=
    encodes.increasing.imp fun less => Int32.le_of_lt less
  have sameMembers : bins.prefixes.Perm sortedPrefixes.dedup := by
    apply (perm_ext_iff_of_nodup nodup (nodup_dedup sortedPrefixes)).mpr
    intro item
    rw [members, mem_dedup]
  refine List.Perm.eq_of_pairwise ?_ rising
    (sorted.sublist (dedup_sublist sortedPrefixes)) sameMembers
  intro left right _ _ leftLe rightLe
  exact Int32.le_antisymm leftLe rightLe

/-- Behind the first bins the deltas of the next bin start. -/
theorem Encodes.deltasAt (encodes : Encodes set.index set.deltas (front ++ back)) :
    set.deltasAt front.length = (Bin.allDeltas front).length := by
  rw [PrefixSet.deltasAt, encodes.index_eq, Bin.getElem?_starts_append, encodes.deltas_eq]
  cases back <;> simp

section

variable (encodes : Encodes set.index set.deltas (front ++ bin :: back))
include encodes

theorem Encodes.entry :
    set.index[front.length]? = some (bin.base, (Bin.allDeltas front).length) := by
  rw [encodes.index_eq, Bin.getElem?_starts_append]
  rfl

/-- The deltas of a bin end where those of the next one start. -/
theorem Encodes.deltasEnd :
    set.deltasAt (front.length + 1) = (Bin.allDeltas front).length + bin.deltas.length := by
  rw [show front ++ bin :: back = (front ++ [bin]) ++ back by simp] at encodes
  simpa using encodes.deltasAt

/-- The stored deltas from a bin's first one. -/
theorem Encodes.drop_deltas :
    set.deltas.drop (Bin.allDeltas front).length = bin.deltas ++ Bin.allDeltas back := by
  rw [encodes.deltas_eq]
  simp

end

theorem Encodes.length_index (encodes : Encodes set.index set.deltas bins) :
    set.index.length = bins.length := by
  rw [encodes.index_eq, Bin.length_starts]

theorem getD_of_drop (rest : deltas.drop di = delta :: others) :
    deltas.getD di 0 = delta ∧ deltas.drop (di + 1) = others := by
  have lt : di < deltas.length := by
    by_contra outside
    rw [drop_eq_nil_of_le (Nat.le_of_not_lt outside)] at rest
    exact cons_ne_nil _ _ rest.symm
  rw [drop_eq_getElem_cons lt] at rest
  injection rest with head tail
  refine ⟨?_, tail⟩
  rw [getD_eq_getElem?_getD, List.getElem?_eq_getElem lt, head]
  rfl

/-- The inner loop of `GetPrefixes` pushes the values of a run of deltas. -/
theorem pushDeltas_eq (stored : deltas.drop di = run ++ others) :
    current :: pushDeltas deltas (di + run.length) current di = run.scanl advance current := by
  induction run generalizing di current with
  | nil =>
    rw [pushDeltas, if_neg (by simp)]
    rfl
  | cons delta run ih =>
    obtain ⟨read, rest⟩ := getD_of_drop stored
    rw [pushDeltas, if_pos (by simp), read, scanl_cons, ← ih rest, length_cons,
      show di + (run.length + 1) = di + 1 + run.length by omega]

/-- `GetPrefixes` pushes the values of each bin. -/
theorem Encodes.binPrefixes (encodes : Encodes set.index set.deltas (front ++ bin :: back)) :
    set.binPrefixes front.length = bin.values advance := by
  rw [PrefixSet.binPrefixes, encodes.entry, encodes.deltasEnd]
  exact pushDeltas_eq encodes.drop_deltas

/-- `GetPrefixes` enumerates the prefixes of the bins in their order. -/
theorem Encodes.getPrefixes (encodes : Encodes set.index set.deltas bins) :
    set.getPrefixes = bins.prefixes := by
  have enumerated : ∀ n ≤ bins.length, (List.range n).flatMap set.binPrefixes =
        Bins.prefixes (bins.take n) := by
    intro n bound
    induction n with
    | zero => rfl
    | succ n ih =>
      have lt : n < bins.length := bound
      have split : bins = bins.take n ++ bins[n] :: bins.drop (n + 1) := by simp
      have cur : set.binPrefixes n = bins[n].values advance := by
        have located := encodes
        rw [split] at located
        have read := located.binPrefixes
        rwa [length_take, Nat.min_eq_left (Nat.le_of_lt lt)] at read
      rw [range_succ, flatMap_append, ih (Nat.le_of_lt lt), take_add_one,
        List.getElem?_eq_getElem lt, Bins.prefixes, Bins.prefixes,
        Bin.represented_append]
      simp [cur]
  rw [PrefixSet.getPrefixes, encodes.length_index,
    enumerated bins.length (Nat.le_refl _), take_length]

/-- The accumulating loop meets exactly the values of an increasing run. -/
theorem accumulate_eq_iff (stored : deltas.drop di = run ++ others)
    (rising : (run.scanl advance current).Pairwise (· < ·)) :
    accumulate deltas item (di + run.length) current di = item ↔
      item ∈ run.scanl advance current := by
  induction run generalizing di current with
  | nil =>
    rw [accumulate, if_neg (by simp)]
    simp [eq_comm]
  | cons delta run ih =>
    obtain ⟨read, rest⟩ := getD_of_drop stored
    rw [scanl_cons] at rising ⊢
    obtain ⟨below, tail⟩ := pairwise_cons.mp rising
    rw [accumulate]
    split
    · rename_i continues
      rw [read, length_cons, show di + (run.length + 1) = di + 1 + run.length by omega,
        ih rest tail, mem_cons]
      have ne : item ≠ current := by grind
      simp [ne]
    · rename_i stops
      have reached : ¬current < item := by
        intro less
        exact stops ⟨by simp, less⟩
      rw [mem_cons]
      constructor
      · intro same
        exact .inl same.symm
      · rintro (same | later)
        · exact same.symm
        · exact absurd (below item later) reached

/-- Every prefix of a bin list lies at or above the base of its first bin. -/
theorem base_le (rising : (Bins.prefixes (bin :: bins)).Pairwise (· < ·))
    (mem : item ∈ Bins.prefixes (bin :: bins)) :
    bin.base <= item := by
  have first : ∃ rest, Bins.prefixes (bin :: bins) = bin.base :: rest := by
    obtain ⟨base, deltas⟩ := bin
    cases deltas <;> simp [Bins.prefixes, Bin.values]
  obtain ⟨rest, first⟩ := first
  rw [first] at rising mem
  rcases mem_cons.mp mem with rfl | later
  · exact Int32.le_refl _
  · exact Int32.le_of_lt ((pairwise_cons.mp rising).1 item later)

/-- Behind the found position there is no candidate. -/
theorem not_mem_of_lt_base (rising : bins.prefixes.Pairwise (· < ·))
    (above : ∀ bin ∈ bins.head?, item < bin.base) :
    item ∉ bins.prefixes := by
  intro mem
  cases bins with
  | nil => simp at mem
  | cons bin bins =>
    have atLeast := base_le rising mem
    grind

/-- `Exists` answers whether a prefix is in one of the bins. -/
theorem Encodes.exists_iff (encodes : Encodes set.index set.deltas bins) :
    set.exists item = true ↔ item ∈ bins.prefixes := by
  obtain ⟨front, back, rfl, hit, before, after⟩ :=
    exists_append_of_findIdx (fun bin : Bin SBPrefix UInt16 => decide (item < bin.base)) bins
  have pos : set.upperBound item = front.length := by
    rw [upperBound, encodes.index_eq, Bin.findIdx_starts (fun base => decide (item < base)), hit]
  have rising := encodes.increasing
  rw [Bins.prefixes, Bin.represented_append] at rising
  obtain ⟨frontIncreasing, backIncreasing, -⟩ := pairwise_append.mp rising
  have notBehind : item ∉ Bins.prefixes back := by
    apply not_mem_of_lt_base backIncreasing
    intro bin isHead
    exact of_decide_eq_true (after bin isHead)
  have inFront : item ∈ Bins.prefixes (front ++ back) ↔ item ∈ Bins.prefixes front := by
    simp [notBehind]
  rw [inFront, PrefixSet.exists]
  cases front using reverseRecOn with
  | nil =>
    have begins : set.upperBound item = 0 := pos
    rw [begins]
    simp
  | append_singleton front bin =>
    rw [append_assoc, singleton_append] at encodes
    have ne : set.index.isEmpty = false := by
      rw [encodes.index_eq, Bin.starts_append]
      simp [Bin.starts]
    have binIncreasing : (bin.deltas.scanl advance bin.base).Pairwise (· < ·) := by
      simp only [Bin.represented_append, Bin.represented_cons,
        Bin.represented_nil, append_nil] at frontIncreasing
      exact (pairwise_append.mp frontIncreasing).2.1
    have notEarlier : item ∉ Bins.prefixes front := by
      intro mem
      simp only [Bin.represented_append, Bin.represented_cons,
        Bin.represented_nil, append_nil] at frontIncreasing
      have below := (pairwise_append.mp frontIncreasing).2.2 item mem
        bin.base (Bin.base_mem_values advance bin)
      grind
    have inBin : item ∈ Bins.prefixes (front ++ [bin]) ↔
          item ∈ bin.deltas.scanl advance bin.base := by
      simp only [Bins.prefixes, Bin.represented_append,
        Bin.represented_cons, Bin.represented_nil, append_nil,
        mem_append]
      constructor
      · rintro (earlier | here)
        · exact absurd earlier notEarlier
        · exact here
      · exact .inr
    rw [inBin, ne, pos, length_append, length_singleton]
    dsimp only
    rw [Nat.add_sub_cancel, encodes.entry, encodes.deltasEnd]
    have scanned : accumulate set.deltas item
            ((Bin.allDeltas front).length + bin.deltas.length) bin.base
            (Bin.allDeltas front).length = item ↔
          item ∈ bin.deltas.scanl advance bin.base :=
      accumulate_eq_iff encodes.drop_deltas binIncreasing
    have base := Bin.base_mem_values advance bin
    simp only [Bool.false_eq_true, if_false, Nat.succ_ne_zero]
    split
    · rename_i same
      exact iff_of_true rfl (same ▸ base)
    · rw [beq_iff_eq]
      exact scanned

/-- A logical index lies in a bin. -/
def BinContains (set : PrefixSet) (i targetIndex : Nat) : Prop :=
  i < set.index.length ∧ set.logicalStart i <= targetIndex ∧ targetIndex < set.logicalStart (i + 1)

/-- A bin starts behind all prefixes of the bins before it. -/
theorem Encodes.logicalStart (encodes : Encodes set.index set.deltas (front ++ back)) :
    set.logicalStart front.length = (Bins.prefixes front).length := by
  rw [PrefixSet.logicalStart, encodes.deltasAt, Bin.length_represented]

section

variable (encodes : Encodes set.index set.deltas bins)
include encodes

theorem Encodes.getSize : set.getSize = bins.prefixes.length := by
  rw [PrefixSet.getSize, encodes.length_index, encodes.deltas_eq, Bin.length_represented]

theorem Encodes.logicalStart_mono (le : i <= j) (inside : j <= bins.length) :
    set.logicalStart i <= set.logicalStart j := by
  have start : ∀ k ≤ bins.length, set.logicalStart k = (Bins.prefixes (bins.take k)).length := by
    intro k bound
    have located := encodes
    rw [← take_append_drop k bins] at located
    have place := located.logicalStart
    rwa [length_take, Nat.min_eq_left bound] at place
  rw [start i (Nat.le_trans le inside), start j inside,
    Bin.length_represented, Bin.length_represented, length_take,
    length_take]
  have shorter : (Bin.allDeltas (bins.take i)).length <= (Bin.allDeltas (bins.take j)).length := by
    rw [← take_append_drop i (bins.take j), take_take,
      Nat.min_eq_left le, Bin.allDeltas_append, length_append]
    exact Nat.le_add_right _ _
  omega

theorem Encodes.logicalStart_lt (lt : i < set.index.length) :
    set.logicalStart i < set.logicalStart (i + 1) := by
  rw [encodes.length_index] at lt
  obtain ⟨bin, hit⟩ : ∃ bin, bins[i]? = some bin := ⟨_, List.getElem?_eq_getElem lt⟩
  obtain ⟨front, back, rfl, rfl⟩ := exists_append_of_getElem? hit
  rw [PrefixSet.logicalStart, PrefixSet.logicalStart, encodes.deltasAt, encodes.deltasEnd]
  omega

end

/-- The binary search ends in the bin that contains its target. -/
theorem indexBinLoop_spec (ne : lo < hi) (lower : set.logicalStart lo <= targetIndex)
    (upper : targetIndex < set.logicalStart hi) :
    set.indexBinLoop targetIndex lo hi < hi ∧
      set.logicalStart (set.indexBinLoop targetIndex lo hi) <= targetIndex ∧
      targetIndex < set.logicalStart (set.indexBinLoop targetIndex lo hi + 1) := by
  fun_induction indexBinLoop set targetIndex lo hi with
  | case1 lo hi wide i below ih =>
    obtain ⟨inside, starts, ends⟩ := ih (by omega) lower below
    exact ⟨by omega, starts, ends⟩
  | case2 lo hi wide i above ih => exact ih (by omega) (Nat.le_of_not_lt above) upper
  | case3 lo hi narrow =>
    have adjacent : lo + 1 = hi := by omega
    exact ⟨ne, lower, adjacent ▸ upper⟩

section

variable (encodes : Encodes set.index set.deltas bins)
include encodes

/-- The search finds a bin that contains its target. -/
theorem Encodes.indexBinFor_contains (lt : targetIndex < set.getSize) :
    set.BinContains (set.indexBinFor targetIndex) targetIndex := by
  have starts : set.logicalStart 0 = 0 := by
    have none : Encodes set.index set.deltas ([] ++ bins) := encodes
    exact none.logicalStart
  have ends : set.logicalStart set.index.length = set.getSize := by
    have all : Encodes set.index set.deltas (bins ++ []) := by rwa [append_nil]
    rw [encodes.length_index, all.logicalStart, encodes.getSize]
  have ne : 0 < set.index.length := by
    rcases Nat.eq_zero_or_pos set.index.length with none | some
    · rw [none] at ends
      omega
    · exact some
  refine indexBinLoop_spec ne ?_ (ends ▸ lt)
  rw [starts]
  exact Nat.zero_le _

/-- No two bins contain the same logical index. -/
theorem Encodes.binContains_unique (left : set.BinContains i targetIndex)
    (right : set.BinContains j targetIndex) :
    i = j := by
  have len := encodes.length_index
  obtain ⟨iInside, iStarts, iEnds⟩ := left
  obtain ⟨jInside, jStarts, jEnds⟩ := right
  rcases Nat.lt_trichotomy i j with less | same | greater
  · have later : set.logicalStart (i + 1) <= set.logicalStart j :=
      encodes.logicalStart_mono less (by omega)
    omega
  · exact same
  · have later : set.logicalStart (j + 1) <= set.logicalStart i :=
      encodes.logicalStart_mono greater (by omega)
    omega

/-- A bin that contains a logical index splits the bins, and the index counts
the prefixes before the bin and some of the bin's deltas. -/
theorem Encodes.exists_bin (contains : set.BinContains i targetIndex) :
    ∃ front bin back off, bins = front ++ bin :: back ∧ front.length = i ∧
      targetIndex = set.logicalStart i + off ∧ off <= bin.deltas.length := by
  obtain ⟨inside, starts, ends⟩ := contains
  rw [encodes.length_index] at inside
  obtain ⟨bin, hit⟩ : ∃ bin, bins[i]? = some bin := ⟨_, List.getElem?_eq_getElem inside⟩
  obtain ⟨front, back, rfl, rfl⟩ := exists_append_of_getElem? hit
  refine ⟨front, bin, back, targetIndex - set.logicalStart front.length, rfl, rfl, by omega, ?_⟩
  rw [PrefixSet.logicalStart, encodes.deltasAt] at starts ⊢
  rw [PrefixSet.logicalStart, encodes.deltasEnd] at ends
  omega

/-- Inside a bin the delta to a prefix is its difference to the one before
it. -/
theorem Encodes.deltaAt_eq (lt : targetIndex < set.getSize)
    (isDelta : set.logicalStart (set.indexBinFor targetIndex) < targetIndex) :
    ∃ delta prev cur, set.deltaAt targetIndex = some delta ∧
      bins.prefixes[targetIndex - 1]? = some prev ∧ bins.prefixes[targetIndex]? = some cur ∧
      (delta.toNat : Int) = cur.toInt - prev.toInt := by
  obtain ⟨front, bin, back, off, rfl, place, target, bound⟩ :=
    encodes.exists_bin (encodes.indexBinFor_contains lt)
  rw [← place] at isDelta target
  have startEq := encodes.logicalStart
  obtain ⟨step, rfl⟩ : ∃ step, off = step + 1 := Nat.exists_eq_add_one.mpr (by omega)
  have stepInside : step < bin.deltas.length := bound
  obtain ⟨prev, readPrevious, readCurrent⟩ := Bin.values_step advance bin stepInside
  -- The prefixes of the bin follow those of the bins before it.
  have read : ∀ i val, (bin.values advance)[i]? = some val ->
      (Bins.prefixes (front ++ bin :: back))[
        (Bins.prefixes front).length + i]? = some val := by
    intro i val hit
    have within := (List.getElem?_eq_some_iff.mp hit).1
    rw [Bins.prefixes, Bin.represented_append, Bin.represented_cons,
      getElem?_append_right (Nat.le_add_right _ _),
      Nat.add_sub_cancel_left, getElem?_append_left within, hit]
  have foundPrevious := read step prev readPrevious
  have foundCurrent := read (step + 1) _ readCurrent
  have larger : prev < advance prev bin.deltas[step] := by
    obtain ⟨previousInside, previousEq⟩ := List.getElem?_eq_some_iff.mp foundPrevious
    obtain ⟨currentInside, currentEq⟩ := List.getElem?_eq_some_iff.mp foundCurrent
    rw [← currentEq, ← previousEq]
    exact pairwise_iff_getElem.mp encodes.increasing _ _ _ _ (by omega)
  refine ⟨bin.deltas[step], prev, advance prev bin.deltas[step], ?_, ?_, ?_, ?_⟩
  · have stored : set.deltas[(Bin.allDeltas front).length + step]? = some bin.deltas[step] := by
      rw [encodes.deltas_eq, Bin.allDeltas_append, Bin.allDeltas_cons,
        getElem?_append_right (by omega), Nat.add_sub_cancel_left,
        getElem?_append_left stepInside,
        List.getElem?_eq_getElem stepInside]
    rw [deltaAt, if_pos lt, ← place, if_pos isDelta, target,
      PrefixSet.logicalStart, encodes.deltasAt, ← stored]
    congr 1
    omega
  · rw [← foundPrevious, target, startEq]
    congr 1
  · rw [← foundCurrent, target, startEq]
  · rw [toInt_advance larger]
    omega

/-- The base of a bin is the prefix at the bin's logical start. -/
theorem Encodes.entry_eq (lt : i < set.index.length) :
    ∃ entry, set.index[i]? = some entry ∧ bins.prefixes[set.logicalStart i]? = some entry.1 := by
  rw [encodes.length_index] at lt
  obtain ⟨bin, hit⟩ : ∃ bin, bins[i]? = some bin := ⟨_, List.getElem?_eq_getElem lt⟩
  obtain ⟨front, back, rfl, rfl⟩ := exists_append_of_getElem? hit
  refine ⟨_, encodes.entry, ?_⟩
  rw [encodes.logicalStart, Bins.prefixes, Bin.represented_append,
    Bin.represented_cons, getElem?_append_right (Nat.le_refl _),
    Nat.sub_self]
  obtain ⟨base, deltas⟩ := bin
  cases deltas <;> simp [Bin.values]

end

/-- Built from any sorted vector of prefixes, the set answers membership
exactly, gives back the distinct prefixes, and finds for every logical index
the one bin that contains it: an index is no delta exactly when it is the
place of an index entry, which then holds its prefix, and any other index has
the difference to the prefix before it as its delta. -/
theorem prefixSet_faithful (sortedPrefixes : List SBPrefix)
    (sorted : sortedPrefixes.Pairwise (· <= ·)) :
    let set := ofSortedPrefixes sortedPrefixes
    let distinct := sortedPrefixes.dedup
    (∀ item, set.exists item = true ↔ item ∈ sortedPrefixes) ∧
    set.getPrefixes = distinct ∧
    set.getSize = distinct.length ∧
    ∀ targetIndex < set.getSize,
      (∀ i, set.BinContains i targetIndex ↔ i = set.indexBinFor targetIndex) ∧
      (set.isDeltaAt targetIndex = some false ↔
        ∃ i entry, set.index[i]? = some entry ∧ set.logicalStart i = targetIndex ∧
          distinct[targetIndex]? = some entry.1) ∧
      (set.isDeltaAt targetIndex ≠ some false -> set.isDeltaAt targetIndex = some true ∧
        ∃ delta previous current, set.deltaAt targetIndex = some delta ∧ 0 < targetIndex ∧
          distinct[targetIndex - 1]? = some previous ∧
          distinct[targetIndex]? = some current ∧
          (delta.toNat : Int) = current.toInt - previous.toInt) := by
  intro set distinct
  obtain ⟨bins, encodes, represents⟩ : ∃ bins : Bins,
        Encodes set.index set.deltas bins ∧ bins.prefixes = distinct :=
    ofSortedPrefixes_encodes sorted
  refine ⟨?_, ?_, ?_, ?_⟩
  · intro item
    rw [encodes.exists_iff, represents, mem_dedup]
  · rw [encodes.getPrefixes, represents]
  · rw [encodes.getSize, represents]
  · intro targetIndex inside
    have contains := encodes.indexBinFor_contains inside
    have isDelta : set.isDeltaAt targetIndex = some (decide
          (targetIndex > set.logicalStart (set.indexBinFor targetIndex))) :=
      if_pos inside
    refine ⟨?_, ?_, ?_⟩
    · intro i
      constructor
      · intro here
        exact encodes.binContains_unique here contains
      · rintro rfl
        exact contains
    · rw [isDelta, Option.some.injEq, decide_eq_false_iff_not]
      constructor
      · intro notAbove
        obtain ⟨entry, found, base⟩ := encodes.entry_eq contains.1
        have here : set.logicalStart (set.indexBinFor targetIndex) = targetIndex :=
          Nat.le_antisymm contains.2.1 (Nat.le_of_not_lt notAbove)
        refine ⟨_, entry, found, here, ?_⟩
        rw [← here, ← represents]
        exact base
      · rintro ⟨i, entry, found, here, -⟩
        have within : i < set.index.length := (List.getElem?_eq_some_iff.mp found).1
        have holds : set.BinContains i targetIndex := by
          refine ⟨within, Nat.le_of_eq here, ?_⟩
          rw [← here]
          exact encodes.logicalStart_lt within
        have same := encodes.binContains_unique holds contains
        rw [← same, here]
        exact Nat.lt_irrefl _
    · rw [isDelta]
      intro above
      have greater : set.logicalStart (set.indexBinFor targetIndex) < targetIndex := by
        simpa using above
      obtain ⟨delta, previous, current, read, before, here, difference⟩ :=
        encodes.deltaAt_eq inside greater
      rw [represents] at before here
      refine ⟨?_, delta, previous, current, read, by omega, before, here, difference⟩
      rw [decide_eq_true greater]

theorem prefixSet_faithful_wideGap :
    let set := ofSortedPrefixes [-2147483648, -5, -5, 20, 65556, 2147483647]
    let distinct := [-2147483648, -5, -5, 20, 65556, 2147483647].dedup
    (∀ item, set.exists item = true ↔ item ∈ [-2147483648, -5, -5, 20, 65556, 2147483647]) ∧
    set.getPrefixes = distinct ∧
    set.getSize = distinct.length :=
  have faithful := prefixSet_faithful [-2147483648, -5, -5, 20, 65556, 2147483647] (by decide)
  ⟨faithful.1, faithful.2.1, faithful.2.2.1⟩

theorem foldl_xor (val : α -> UInt32) (start : UInt32) (elements : List α) :
    elements.foldl (fun checksum elem => checksum ^^^ val elem) start =
      start ^^^ elements.foldl (fun checksum elem => checksum ^^^ val elem) 0 := by
  induction elements generalizing start with
  | nil => simp
  | cons elem elements ih =>
    rw [foldl_cons, foldl_cons, ih, ih (0 ^^^ _), UInt32.zero_xor, UInt32.xor_assoc]

/-- The checksum under construction is that of the index and the deltas. -/
def Building.Sums (building : Building) : Prop :=
  building.checksum = recomputed building.index building.deltas

theorem Building.Sums.step {building : Building} (sums : building.Sums) :
    (building.step item).Sums := by
  rw [Sums] at sums
  unfold Building.step
  dsimp only
  split_ifs
  · exact sums
  · simp only [Sums, pushIndex, sums, recomputed, foldl_append, foldl_cons, foldl_nil]
    rw [foldl_xor, foldl_xor UInt16.toUInt32 (_ ^^^ _ ^^^ _)]
    grind
  · simp only [Sums, pushDelta, sums, recomputed, foldl_append, foldl_cons, foldl_nil]

/-- The checksum that the constructor computes on its way is the one that
`CheckChecksum` computes from what was built. -/
theorem checkChecksum_ofSortedPrefixes (first : SBPrefix) (rest : List SBPrefix) :
    (ofSortedPrefixes (first :: rest)).checkChecksum = true := by
  have sums : (Building.start first).Sums := by simp [Building.Sums, Building.start, recomputed]
  exact beq_iff_eq.mpr (congrArg some (foldlRecOn rest _ sums fun _ sums _ _ => sums.step))

end Chromium.SafeBrowsing.PrefixSet
