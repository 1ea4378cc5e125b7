/-
One item from each of several lists.

The choices are enumerated slot by slot, each earlier choice being continued with
every item of the next slot.
-/

import Mathlib.Algebra.BigOperators.Group.List.Basic
import Mathlib.Data.List.Forall2
import Mathlib.Data.List.Induction

namespace Library

variable {α : Type}

def extendChoices (found : List (List α)) (slot : List α) : List (List α) :=
  found.flatMap (fun front => slot.map (fun item => front ++ [item]))

def choices (slots : List (List α)) : List (List α) := slots.foldl extendChoices [[]]

theorem choices_concat (slots : List (List α)) (slot : List α) :
    choices (slots ++ [slot]) = extendChoices (choices slots) slot := by
  unfold choices
  rw [List.foldl_append, List.foldl_cons, List.foldl_nil]

/-- One item of each slot, in the order of the slots. -/
abbrev Chosen (items : List α) (slots : List (List α)) : Prop :=
  List.Forall₂ (fun item slot => item ∈ slot) items slots

theorem chosen_concat {items : List α} {item : α} {slots : List (List α)} {slot : List α} :
    Chosen (items ++ [item]) (slots ++ [slot]) ↔ Chosen items slots ∧ item ∈ slot := by
  constructor
  · intro chosen
    have lengths := chosen.length_eq
    rw [List.length_append, List.length_append, List.length_singleton,
      List.length_singleton] at lengths
    have front := List.forall₂_take items.length chosen
    have last := List.forall₂_drop items.length chosen
    have same : items.length = slots.length := by omega
    rw [List.take_left] at front
    rw [List.drop_left] at last
    rw [same, List.take_left] at front
    rw [same, List.drop_left] at last
    cases last with
    | cons member _ => exact ⟨front, member⟩
  · intro both
    exact List.rel_append both.1 (List.Forall₂.cons both.2 List.Forall₂.nil)

theorem mem_choices {items : List α} {slots : List (List α)} :
    items ∈ choices slots ↔ Chosen items slots := by
  induction slots using List.reverseRecOn generalizing items with
  | nil =>
      change items ∈ [[]] ↔ _
      rw [List.mem_singleton]
      exact List.forall₂_nil_right_iff.symm
  | append_singleton slots slot ih =>
      rw [choices_concat, extendChoices]
      simp only [List.mem_flatMap, List.mem_map]
      constructor
      · intro found
        rcases found with ⟨front, inChoices, item, inSlot, rfl⟩
        exact chosen_concat.mpr ⟨ih.mp inChoices, inSlot⟩
      · intro chosen
        rcases List.eq_nil_or_concat items with empty | ⟨front, item, rfl⟩
        · subst empty
          have lengths := chosen.length_eq
          simp at lengths
        · rw [List.concat_eq_append] at chosen ⊢
          rcases chosen_concat.mp chosen with ⟨isFront, inSlot⟩
          exact ⟨front, ih.mpr isFront, item, inSlot, rfl⟩

theorem length_choices (slots : List (List α)) :
    (choices slots).length = (slots.map List.length).prod := by
  induction slots using List.reverseRecOn with
  | nil => rfl
  | append_singleton slots slot ih =>
      have widths : ∀ front ∈ choices slots,
          (slot.map (fun item => front ++ [item])).length = slot.length :=
        fun _front _member => List.length_map _
      rw [choices_concat, extendChoices, List.length_flatMap, List.map_congr_left widths,
        List.map_const', List.sum_replicate_nat, ih, List.map_append, List.prod_append,
        List.map_singleton, List.prod_singleton]

end Library
