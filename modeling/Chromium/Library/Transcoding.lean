import Mathlib.Data.List.Flatten
import Mathlib.Data.List.Basic

/-!
# Transcoding

The symbols of a list are read one after another, and written to another list.
What cannot be read is written as a replacement.
-/

namespace Chromium.Library

open List

section Transcoding

variable {α β γ : Type*} (read : List α → Option γ × List α) (write : γ → List β) (replacement : γ)

/-- Read and write as many symbols as there are, but no more than given. -/
def transcodeFor : Nat -> List α -> List β
  | 0, _ => []
  | _ + 1, [] => []
  | fuel + 1, first :: source =>
    write ((read (first :: source)).1.getD replacement) ++
      transcodeFor fuel (read (first :: source)).2

/-- Read all symbols, each of which has an element at least. -/
def transcode (source : List α) : List β := transcodeFor read write replacement source.length source

variable {read write replacement}

@[simp] theorem transcodeFor_nil : transcodeFor read write replacement fuel [] = [] := by
  cases fuel <;> rfl

/-- Symbols that are encoded so that each is read back are transcoded one by
one. -/
theorem transcodeFor_flatMap {symbols : List γ}
    (reads : ∀ symbol ∈ symbols, ∀ rest, read (encode symbol ++ rest) = (some symbol, rest))
    (some_ : ∀ symbol ∈ symbols, encode symbol ≠ []) (fuel : Nat)
    (enough : (symbols.flatMap encode).length <= fuel) :
    transcodeFor read write replacement fuel (symbols.flatMap encode) = symbols.flatMap write := by
  induction symbols generalizing fuel with
  | nil => exact transcodeFor_nil
  | cons symbol symbols ih =>
    have isRead := reads symbol mem_cons_self (symbols.flatMap encode)
    rw [flatMap_cons] at enough ⊢
    rcases isEncoded : encode symbol with _ | ⟨first, others⟩
    · exact absurd isEncoded (some_ symbol mem_cons_self)
    · rw [isEncoded] at enough isRead
      rw [cons_append] at enough isRead ⊢
      cases fuel with
      | zero => exact absurd enough (Nat.not_succ_le_zero _)
      | succ fuel =>
        have rest := ih ((forall_mem_cons.mp reads).2) ((forall_mem_cons.mp some_).2) fuel (by
            rw [length_cons, length_append] at enough
            omega)
        rw [transcodeFor, isRead, Option.getD_some, rest, flatMap_cons]

theorem transcode_flatMap {encode : γ -> List α} {symbols : List γ}
    (reads : ∀ symbol ∈ symbols, ∀ rest, read (encode symbol ++ rest) = (some symbol, rest))
    (some_ : ∀ symbol ∈ symbols, encode symbol ≠ []) :
    transcode read write replacement (symbols.flatMap encode) = symbols.flatMap write :=
  transcodeFor_flatMap reads some_ _ (Nat.le_refl _)

/-- Only symbols that were read, and replacements, are written. -/
theorem transcodeFor_eq_flatMap (fuel : Nat) (source : List α) : ∃ symbols : List γ,
      transcodeFor read write replacement fuel source = symbols.flatMap write ∧
        ∀ symbol ∈ symbols, symbol = replacement ∨ ∃ rest, (read rest).1 = some symbol := by
  induction fuel generalizing source with
  | zero => exact ⟨[], rfl, by simp⟩
  | succ fuel ih =>
    cases source with
    | nil => exact ⟨[], rfl, by simp⟩
    | cons first source =>
      obtain ⟨symbols, isWritten, known⟩ := ih (read (first :: source)).2
      refine ⟨(read (first :: source)).1.getD replacement :: symbols,
        congrArg (write _ ++ ·) isWritten, forall_mem_cons.mpr ⟨?_, known⟩⟩
      cases isRead : (read (first :: source)).1 with
      | none => exact .inl rfl
      | some symbol => exact .inr ⟨_, isRead⟩

/-- Where each element is a symbol of its own, the elements are transcoded one
by one. -/
theorem transcode_single {symbol : α -> Option γ}
    (reads : ∀ first rest, read (first :: rest) = (symbol first, rest)) (source : List α) :
    transcode read write replacement source =
      source.flatMap fun first => write ((symbol first).getD replacement) := by
  have anyFuel : ∀ fuel, source.length <= fuel -> transcodeFor read write replacement fuel source =
        source.flatMap fun first => write ((symbol first).getD replacement) := by
    induction source with
    | nil => exact fun fuel _ => transcodeFor_nil
    | cons first source ih =>
      intro fuel enough
      cases fuel with
      | zero => exact absurd enough (Nat.not_succ_le_zero _)
      | succ fuel => rw [transcodeFor, reads, flatMap_cons, ih fuel (Nat.le_of_succ_le_succ enough)]
  exact anyFuel _ (Nat.le_refl _)

end Transcoding

end Chromium.Library
