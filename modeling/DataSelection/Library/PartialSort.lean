/-
Copying the first items of a sorted range.

The interface leaves open in which order tied items are copied, and which of them are
copied when not all of them can be.
-/

import DataSelection.Library.PriorityQueue
import Mathlib.Data.List.Sort

namespace Library

variable {α : Type}

theorem mergeSort_key_pairwise {β : Type} [LinearOrder β] (key : α → β) (items : List α) :
    (items.mergeSort (fun left right => decide (key left ≤ key right))).Pairwise
      (fun left right => key left ≤ key right) := by
  have sorted := @List.pairwise_mergeSort α (fun left right => decide (key left ≤ key right))
    (fun first second third below above => by
      simp only [decide_eq_true_eq] at below above ⊢
      exact below.trans above)
    (fun first second => by
      simp only [Bool.or_eq_true, decide_eq_true_eq]
      exact le_total _ _) items
  simpa only [decide_eq_true_eq] using sorted

/-- A call of `partial_sort_copy` with a result range of a given length. -/
structure PartialSort (less : α → α → Bool) where
  copy : Nat → List α → List α
  length : ∀ count items, (copy count items).length = min count items.length
  sorted : WeakOrder less → ∀ count items,
    (copy count items).Pairwise (fun first second => less second first = false)
  first : WeakOrder less → ∀ count items, ∃ rest, (copy count items ++ rest).Perm items ∧
    ∀ copied ∈ copy count items, ∀ other ∈ rest, less other copied = false

namespace PartialSort

variable {less : α → α → Bool}

theorem subperm (partialSort : PartialSort less) (order : WeakOrder less) (count : Nat)
    (items : List α) : (partialSort.copy count items).Subperm items := by
  rcases partialSort.first order count items with ⟨rest, perm, _⟩
  exact (List.sublist_append_left _ rest).subperm.trans perm.subperm

theorem mergeSort_pairwise (order : WeakOrder less) (items : List α) :
    (items.mergeSort (fun left right => !less right left)).Pairwise
      (fun first second => less second first = false) := by
  have sorted := @List.pairwise_mergeSort α (fun left right => !less right left)
    (fun left middle right first second => by
      simp only [Bool.not_eq_true'] at first second ⊢
      exact order.negTrans right middle left second first)
    (fun left right => by
      cases below : less right left with
      | false => rfl
      | true =>
          rw [order.asymm right left below]
          rfl) items
  simpa only [Bool.not_eq_true'] using sorted

/-- Sorting everything and keeping the front. -/
def ofMergeSort (less : α → α → Bool) : PartialSort less :=
  { copy := fun count items => (items.mergeSort (fun left right => !less right left)).take count
    length := by
      intro count items
      rw [List.length_take, List.length_mergeSort]
    sorted := by
      intro order count items
      exact (mergeSort_pairwise order items).sublist (List.take_sublist count _)
    first := by
      intro order count items
      have sorted := mergeSort_pairwise order items
      rw [← List.take_append_drop count (items.mergeSort _), List.pairwise_append] at sorted
      refine ⟨_, ?_, sorted.2.2⟩
      rw [List.take_append_drop]
      exact List.mergeSort_perm items _ }

end PartialSort

end Library
