import Chromium.Remoting.CompoundBuffer

/-!
# Runs of compound buffers

Calls on any number of compound buffers are compared with the same operations on
plain byte strings. They agree as long as the chunks of a buffer that is
prepended to another have the same concatenation in reverse order, and no buffer
gets `2 ^ 31` bytes.
-/

namespace Chromium.Remoting

open List Option Function
open CompoundBuffer
open Library (Throughout Always)

/-- The functions that change a buffer. Other buffers are told by number. -/
inductive Change where
  | append (buffer : Bytes) (start size : Int)
  | appendBuffer (source : Nat)
  | appendCopyOf (data : Bytes)
  | prepend (buffer : Bytes) (start size : Int)
  | prependBuffer (source : Nat)
  | prependCopyOf (data : Bytes)
  | cropFront (bytes : Int)
  | cropBack (bytes : Int)
  | copyFrom (source : Nat) (start end_ : Int)
  | clear
  | lock
deriving DecidableEq

namespace Change

/-- The buffer after a change. -/
def perform (buffers : Nat -> CompoundBuffer) (target : Nat) : Change -> Option CompoundBuffer
  | append buffer start size => (buffers target).append buffer start size
  | appendBuffer source => (buffers target).appendBuffer (buffers source)
  | appendCopyOf data => (buffers target).appendCopyOf data
  | prepend buffer start size => (buffers target).prepend buffer start size
  | prependBuffer source => (buffers target).prependBuffer (buffers source)
  | prependCopyOf data => (buffers target).prependCopyOf data
  | cropFront bytes => (buffers target).cropFront bytes
  | cropBack bytes => (buffers target).cropBack bytes
  | copyFrom source start end_ => Remoting.copyFrom buffers target source start end_
  | clear => (buffers target).clear
  | lock => some (buffers target).lock

/-- The change of a plain byte string. -/
def result (strings : Nat -> Bytes) (target : Nat) : Change -> Bytes
  | append buffer start size => strings target ++ (buffer.drop start.toNat).take size.toNat
  | appendBuffer source => strings target ++ strings source
  | appendCopyOf data => strings target ++ data
  | prepend buffer start size => (buffer.drop start.toNat).take size.toNat ++ strings target
  | prependBuffer source => strings source ++ strings target
  | prependCopyOf data => data ++ strings target
  | cropFront bytes => (strings target).drop bytes.toNat
  | cropBack bytes => (strings target).take ((strings target).length - bytes.toNat)
  | copyFrom source start end_ => ((strings source).take end_.toNat).drop start.toNat
  | clear => []
  | lock => strings target

/-- A chunk lies in its buffer, and another buffer is another one. -/
def Fits (target : Nat) : Change -> Prop
  | append buffer start size | prepend buffer start size => start + size <= buffer.length
  | appendBuffer source | prependBuffer source => source ≠ target
  | _ => True

instance (target : Nat) : ∀ change : Change, Decidable (change.Fits target)
  | append buffer start size | prepend buffer start size =>
    inferInstanceAs (Decidable (start + size <= (buffer.length : Int)))
  | appendBuffer source | prependBuffer source => inferInstanceAs (Decidable (source ≠ target))
  | appendCopyOf _ | prependCopyOf _ | cropFront _ | cropBack _
  | copyFrom _ _ _ | clear | lock => isTrue trivial

end Change

/-- A change of one of the buffers. -/
structure Call where
  target : Nat
  change : Change

/-- Compound buffers with the byte strings that they are to have. -/
structure World where
  buffers : Nat -> CompoundBuffer := fun _ => {}
  strings : Nat -> Bytes := fun _ => []

namespace World

def perform (world : World) (call : Call) : Option World :=
  (call.change.perform world.buffers call.target).map fun next =>
    { buffers := Function.update world.buffers call.target next
      strings := Function.update world.strings call.target
        (call.change.result world.strings call.target) }

/-- The checks hold. -/
def Permitted (world : World) (call : Call) : Prop :=
  (world.perform call).isSome ∧ call.change.Fits call.target

instance (world : World) (call : Call) : Decidable (world.Permitted call) :=
  inferInstanceAs (Decidable (_ ∧ _))

/-- The string stays shorter than `2 ^ 31` bytes, and the chunks of a buffer that
is prepended have the same concatenation in reverse order. -/
def Meets (world : World) (call : Call) : Prop :=
  (call.change.result world.strings call.target).length < 2 ^ 31 ∧
    ∀ source, call.change = .prependBuffer source ->
      (world.buffers source).reversedBytes = chunkBytes (world.buffers source).chunks_

/-- A buffer behaves as a byte string. -/
structure Represented (buffer : CompoundBuffer) (string : Bytes) : Prop where
  isBytes : chunkBytes buffer.chunks_ = string
  total : buffer.total_bytes_ = string.length
  nonempty : ∀ chunk ∈ buffer.chunks_, 0 < chunk.size ∧ chunk.bytes ≠ []
  copies : ∀ size, buffer.total_bytes_ <= size -> buffer.copyTo size = some string
  converts : buffer.toIOBufferWithSize = some string

/-- All buffers behave as the byte strings that they are to have. -/
def Represents (world : World) : Prop :=
  ∀ index, Represented (world.buffers index) (world.strings index)

/-- What the calls keep. -/
def Kept (world : World) : Prop := ∀ index, (world.buffers index).Holds (world.strings index)

theorem represents_of_kept {world : World} (kept : world.Kept) : world.Represents := by
  intro i
  have inv := kept i
  exact ⟨inv.isBytes, inv.total, fun chunk mem => ⟨(inv.sound chunk mem).nonempty,
      DataChunk.bytes_ne_nil (inv.sound chunk mem)⟩,
    fun size fits => copyTo_of_holds inv fits,
    copyTo_of_holds inv (Int.le_refl _)⟩

variable {world next : World} {call : Call} {calls : List Call}

/-- What a buffer has after a call: the result, but for the order of the chunks of
a buffer that is prepended. -/
def outcome (world : World) (call : Call) : Bytes :=
  match call.change with
  | .prependBuffer source => (world.buffers source).reversedBytes ++ world.strings call.target
  | change => change.result world.strings call.target

/-- A chunk that is given lies in its buffer. -/
theorem sound_of_checked {start size : Int}
    (checked : 0 <= start ∧ 0 < size ∧ locked = false) (fits : start + size <= buf.length) :
    DataChunk.Sound ⟨buf, start, size⟩ :=
  ⟨checked.1, checked.2.1, fits⟩

/-- The buffer that is changed has the outcome if that is short. -/
theorem holds_outcome (kept : world.Kept) (ok : world.Permitted call)
    (short : (call.change.result world.strings call.target).length < 2 ^ 31)
    (runs : call.change.perform world.buffers call.target = some buffer) :
    buffer.Holds (world.outcome call) := by
  obtain ⟨target, change⟩ := call
  obtain ⟨-, fits⟩ := ok
  have inv := kept target
  cases change with
  | append data start size =>
    have checked := (append_eq_some_iff.mp runs).1
    rw [Change.result, length_append] at short
    exact @holds_append _ _ _ ⟨data, start, size⟩ inv (sound_of_checked checked fits) short runs
  | appendBuffer source =>
    rw [Change.result, length_append] at short
    exact holds_appendBuffer inv (kept source) short runs
  | appendCopyOf data =>
    rw [Change.result, length_append] at short
    exact holds_appendCopyOf inv short runs
  | prepend data start size =>
    have checked := (prepend_eq_some_iff.mp runs).1
    rw [Change.result, length_append, Nat.add_comm] at short
    exact @holds_prepend _ _ _ ⟨data, start, size⟩ inv (sound_of_checked checked fits) short runs
  | prependBuffer source =>
    rw [Change.result, length_append, Nat.add_comm] at short
    exact holds_prependBuffer inv (kept source) short runs
  | prependCopyOf data =>
    rw [Change.result, length_append, Nat.add_comm] at short
    exact holds_prependCopyOf inv short runs
  | cropFront bytes => exact holds_cropFront inv runs
  | cropBack bytes => exact holds_cropBack inv runs
  | copyFrom source start end_ => exact holds_copyFrom (kept source) runs
  | clear => exact holds_clear runs
  | lock =>
    cases runs
    exact ⟨inv.sound, inv.isBytes, inv.total, inv.short⟩

/-- No call makes the number of bytes leave its range. -/
theorem total_lt (kept : world.Kept)
    (runs : call.change.perform world.buffers call.target = some buf) :
    buf.total_bytes_ < 2 ^ 31 := by
  obtain ⟨target, change⟩ := call
  have inv := kept target
  have total : (world.buffers target).total_bytes_ < 2 ^ 31 := by
    rw [inv.total]
    exact_mod_cast inv.short
  have bound : ∀ {buf : CompoundBuffer} {string : Bytes},
      buf.Holds string -> buf.total_bytes_ < 2 ^ 31 := by
    intro buf string held
    rw [held.total]
    exact_mod_cast held.short
  cases change with
  | append data start size => exact total_lt_of_append runs
  | appendBuffer source => exact total_lt_of_foldlM total_lt_of_append total runs
  | appendCopyOf data => exact total_lt_of_append runs
  | prepend data start size => exact total_lt_of_prepend runs
  | prependBuffer source => exact total_lt_of_foldlM total_lt_of_prepend total runs
  | prependCopyOf data => exact total_lt_of_prepend runs
  | cropFront bytes => exact bound (holds_cropFront inv runs)
  | cropBack bytes => exact bound (holds_cropBack inv runs)
  | copyFrom source start end_ => exact bound (holds_copyFrom (kept source) runs)
  | clear => exact bound (holds_clear runs)
  | lock =>
    cases runs
    exact total

/-- A call that meets its condition does what it does to the strings. -/
theorem kept_perform (kept : world.Kept) (ok : world.Permitted call)
    (meets : world.Meets call) :
    ∃ next, world.perform call = some next ∧ next.Kept := by
  obtain ⟨next, runs⟩ := isSome_iff_exists.mp ok.1
  refine ⟨next, runs, fun i => ?_⟩
  obtain ⟨buf, changes, rfl⟩ := map_eq_some_iff.mp runs
  have inv := holds_outcome kept ok meets.1 changes
  dsimp only
  by_cases same : i = call.target
  · subst same
    rw [update_self, update_self]
    have isResult : world.outcome call = call.change.result world.strings call.target := by
      rw [outcome]
      split
      · rename_i source isPrepend
        rw [meets.2 source isPrepend, (kept source).isBytes, isPrepend]
        rfl
      · rfl
    rwa [isResult] at inv
  · rw [update_of_ne same, update_of_ne same]
    exact kept i

/-- A call that does not, does something else. -/
theorem not_represents_perform (kept : world.Kept) (ok : world.Permitted call)
    (fails : ¬ world.Meets call) (runs : world.perform call = some next) :
    ¬ next.Represents := by
  intro represents
  obtain ⟨buf, changes, rfl⟩ := map_eq_some_iff.mp runs
  have represented := represents call.target
  dsimp only at represented
  rw [update_self, update_self] at represented
  refine fails ⟨?_, fun source isPrepend => ?_⟩
  · -- The number of bytes would be too large.
    have small := total_lt kept changes
    have isTotal := represented.total
    omega
  · have small := total_lt kept changes
    have isTotal := represented.total
    have inv := holds_outcome kept ok (by omega) changes
    have same := inv.isBytes.symm.trans represented.isBytes
    rw [outcome, isPrepend] at same
    rw [(kept source).isBytes]
    exact append_cancel_right same

/-- In every run, the buffers behave as byte strings all along if and only if
every call meets its condition. -/
theorem compoundBuffers_run_iff (ok : Throughout perform Permitted {} calls) :
    Always perform Represents {} calls ↔ Throughout perform Meets {} calls :=
  Library.always_iff_throughout represents_of_kept kept_perform
    not_represents_perform (fun _ => holds_empty) ok

/-- Buffers of one chunk each are put together. -/
def singleChunks : List Call :=
  [⟨0, .appendCopyOf [1, 2]⟩, ⟨1, .append [3, 4, 5] 1 2⟩,
    ⟨1, .prependBuffer 0⟩, ⟨1, .cropFront 1⟩, ⟨0, .copyFrom 1 1 3⟩]

theorem compoundBuffers_run_iff_singleChunks : Always perform Represents {} singleChunks ↔
      Throughout perform Meets {} singleChunks := by
  exact compoundBuffers_run_iff (by decide)

/-- The chunks of a buffer that is prepended change places. -/
theorem prepend_of_two_chunks : ∃ next, [⟨0, .appendCopyOf [1]⟩, ⟨0, .appendCopyOf [2]⟩,
        ⟨1, .prependBuffer 0⟩].foldlM perform {} = some next ∧
      chunkBytes (next.buffers 1).chunks_ = [2, 1] ∧ next.strings 1 = [1, 2] :=
  ⟨_, rfl, by decide, by decide⟩

end World
end Chromium.Remoting
