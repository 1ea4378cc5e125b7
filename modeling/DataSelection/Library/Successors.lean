/-
Successors of a history in a text.

A history that does not end the text is followed by some item at each of its
occurrences, so its occurrences are those of the runs one item longer.
-/

import DataSelection.Library.Windows
import Mathlib.Algebra.BigOperators.Ring.Finset
import Mathlib.Data.List.Infix

namespace Library

variable {α : Type}

theorem mem_windows_iff_isInfix {window items : List α} :
    window ∈ windows window.length items ↔ window <:+: items := by
  constructor
  · intro member
    rcases mem_windows.mp member with ⟨start, _bound, same⟩
    rw [← same]
    exact (List.take_prefix _ _).isInfix.trans (List.drop_suffix _ _).isInfix
  · rintro ⟨before, behind, rfl⟩
    refine mem_windows.mpr ⟨before.length, ?_, ?_⟩
    · simp only [List.length_append]
      omega
    · rw [List.append_assoc, List.drop_left, List.take_left]

theorem mem_dropLast_of_isInfix {history items : List α} {item : α}
    (isRun : history ++ [item] <:+: items) {earlier : α} (member : earlier ∈ history) :
    earlier ∈ items.dropLast := by
  rcases isRun with ⟨before, behind, rfl⟩
  have regrouped : before ++ (history ++ [item]) ++ behind =
      (before ++ history) ++ item :: behind := by simp
  rw [regrouped, List.dropLast_append_of_ne_nil (List.cons_ne_nil item behind)]
  exact List.mem_append_left _ (List.mem_append_right before member)

theorem mem_tail_of_isInfix {history items : List α} {item : α} (nonempty : history ≠ [])
    (isRun : history ++ [item] <:+: items) : item ∈ items.tail := by
  rcases isRun with ⟨before, behind, rfl⟩
  have regrouped : before ++ (history ++ [item]) ++ behind =
      (before ++ history) ++ item :: behind := by simp
  have filled : before ++ history ≠ [] := fun empty => nonempty (List.append_eq_nil_iff.mp empty).2
  rw [regrouped, List.tail_append_of_ne_nil filled]
  exact List.mem_append_right _ List.mem_cons_self

/-- The elements that satisfy a predicate, counted by the value they are the image of. -/
theorem countP_eq_sum {β : Type} [DecidableEq α] {items : List α} {image : β → α}
    {values : Finset β} {accept : α → Prop} [DecidablePred accept]
    (injective : Function.Injective image)
    (covers : ∀ item ∈ items, accept item ↔ ∃ value ∈ values, item = image value) :
    items.countP (fun item => accept item) =
      ∑ value ∈ values, items.countP (fun item => item = image value) := by
  induction items with
  | nil => simp
  | cons item rest ih =>
      have restCovers := ih (fun other member => covers other (List.mem_cons_of_mem item member))
      have here : (∑ value ∈ values, if item = image value then 1 else 0) =
          if accept item then 1 else 0 := by
        by_cases accepted : accept item
        · rcases (covers item List.mem_cons_self).mp accepted with ⟨value, inside, rfl⟩
          rw [if_pos accepted, Finset.sum_eq_single_of_mem value inside, if_pos rfl]
          intro other _inside different
          exact if_neg (fun same => different (injective same).symm)
        · rw [if_neg accepted]
          apply Finset.sum_eq_zero
          intro value inside
          exact if_neg (fun same =>
            accepted ((covers item List.mem_cons_self).mpr ⟨value, inside, same⟩))
      simp only [List.countP_cons, decide_eq_true_eq]
      rw [Finset.sum_add_distrib, here, restCovers]

variable [DecidableEq α]

theorem occurrences_eq_sum {history items : List α} {successors : Finset α}
    (notLast : ¬ history <:+ items)
    (covers : ∀ item, history ++ [item] <:+: items → item ∈ successors) :
    occurrences history items =
      ∑ item ∈ successors, occurrences (history ++ [item]) items := by
  have longer : ∀ item, (history ++ [item]).length = history.length + 1 := by simp
  by_cases fits : history.length ≤ items.length
  · have notEnd : items.drop (items.length - history.length) ≠ history := by
      intro same
      exact notLast (same ▸ List.drop_suffix _ _)
    have injective : Function.Injective (fun item : α => history ++ [item]) := by
      intro left right same
      exact List.singleton_inj.mp (List.append_cancel_left same)
    simp only [occurrences_eq_countP, longer]
    have covered : ∀ window ∈ windows (history.length + 1) items,
        window.take history.length = history ↔
          ∃ item ∈ successors, window = history ++ [item] := by
      intro window member
      have wide := length_of_mem_windows member
      constructor
      · intro same
        have split : history ++ window.drop history.length = window := by
          conv_rhs => rw [← List.take_append_drop history.length window, same]
        have single : (window.drop history.length).length = 1 := by
          rw [List.length_drop, wide]
          omega
        rcases List.length_eq_one_iff.mp single with ⟨item, isItem⟩
        rw [isItem] at split
        rw [← split, ← longer item, mem_windows_iff_isInfix] at member
        exact ⟨item, covers item member, split.symm⟩
      · rintro ⟨item, _inside, rfl⟩
        exact List.take_left
    rw [windows_eq_map_take_append fits, List.countP_append, List.countP_map,
      List.countP_singleton, if_neg (by simpa using notEnd), Nat.add_zero,
      ← countP_eq_sum injective covered]
    rfl
  · have short := Nat.lt_of_not_le fits
    simp only [occurrences_eq_countP, longer]
    rw [windows_of_short short, windows_of_short (Nat.lt_succ_of_lt short)]
    simp

end Library
