/-
Ignoring the sentences with large numbers.

The sentences are removed from the list that the loop traverses, so the sentence behind a
removed one is never tested.
-/

import DataSelection.Library.ErasingScan
import Mathlib.Data.Nat.Notation

namespace Mining

open Library

abbrev Sentence := List Char

/-- The match of `[0-9]{5,}`, which is anchored at the start of the sentence only. -/
def too_big (sentence : Sentence) : Bool :=
  5 ≤ (sentence.takeWhile Char.isDigit).length

def ignoreLargeNumbers (mined_text : List Sentence) : List Sentence :=
  eraseScan too_big mined_text 0

/-- No sentence with a large number remains, and the others are left as they were. -/
structure FilteredCompletely (sentences remaining : List Sentence) : Prop where
  removed : ∀ sentence ∈ remaining, too_big sentence = false
  kept : remaining.filter (fun sentence => !too_big sentence) =
    sentences.filter (fun sentence => !too_big sentence)

theorem FilteredCompletely.eq_filter {sentences remaining : List Sentence}
    (complete : FilteredCompletely sentences remaining) :
    remaining = sentences.filter (fun sentence => !too_big sentence) := by
  rw [← complete.kept, List.filter_eq_self.mpr]
  intro sentence member
  rw [complete.removed sentence member]
  rfl

/-- The filter is complete exactly for the lists in which no two sentences with a large
number stand side by side. -/
theorem ignoreLargeNumbers_complete_iff (sentences : List Sentence) :
    FilteredCompletely sentences (ignoreLargeNumbers sentences) ↔
      sentences.IsChain (fun sentence next =>
        ¬ (too_big sentence = true ∧ too_big next = true)) := by
  rw [← eraseScan_complete_iff]
  constructor
  · exact FilteredCompletely.removed
  · intro removed
    exact ⟨removed, filter_eraseScan sentences 0⟩

theorem neighbour_remains :
    ¬ FilteredCompletely ["12345".toList, "67890".toList]
        (ignoreLargeNumbers ["12345".toList, "67890".toList]) := by
  intro complete
  have apart := (eraseScan_complete_iff ["12345".toList, "67890".toList]).mp complete.removed
  revert apart
  decide

end Mining
