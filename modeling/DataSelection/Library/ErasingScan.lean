/-
Removing items from a list while it is being traversed.

The traversal counts positions, so the item behind a removed one moves into its place and
is not visited.  What is removed is the first item equal to the visited one.
-/

import Mathlib.Data.List.Basic

namespace Library

variable {α : Type}

/-- The selected items that a traversal of the rest does not visit. -/
def skipped (selected : α → Bool) : List α → Nat
  | [] => 0
  | [_] => 0
  | item :: next :: rest =>
      if selected item then (if selected next then 1 else 0) + skipped selected rest
      else skipped selected (next :: rest)

variable {selected : α → Bool}

theorem skipped_eq_zero_iff (items : List α) :
    skipped selected items = 0 ↔
      items.IsChain (fun item next => ¬ (selected item = true ∧ selected next = true)) := by
  induction items using skipped.induct selected with
  | case1 => simp [skipped]
  | case2 item => simp [skipped]
  | case3 item next rest found ih =>
      rw [skipped, if_pos found, List.isChain_cons_cons, Nat.add_eq_zero_iff, ih]
      cases nextFound : selected next with
      | true => simp [found]
      | false =>
          have apart : (next :: rest).IsChain
                (fun item next => ¬ (selected item = true ∧ selected next = true)) ↔
              rest.IsChain (fun item next => ¬ (selected item = true ∧ selected next = true)) := by
            cases rest with
            | nil => simp
            | cons other others => simp [List.isChain_cons_cons, nextFound]
          rw [apart]
          simp
  | case4 item next rest notFound ih =>
      rw [skipped, if_neg notFound, List.isChain_cons_cons, ih]
      simp [notFound]

variable [DecidableEq α]

/-- The loop `for item in items: if selected(item): items.remove(item)`. -/
def eraseScan (selected : α → Bool) (items : List α) (index : Nat) : List α :=
  if inside : index < items.length then
    let item := items[index]
    eraseScan selected (if selected item then items.erase item else items) (index + 1)
  else items
termination_by items.length - index
decreasing_by
  split
  · have shorter := List.length_erase_le (a := items[index]) (l := items)
    omega
  · omega

theorem eraseScan_done (items : List α) : eraseScan selected items items.length = items := by
  rw [eraseScan, dif_neg (Nat.lt_irrefl _)]

theorem eraseScan_visit (front : List α) (item : α) (rest : List α) :
    eraseScan selected (front ++ item :: rest) front.length =
      eraseScan selected
        (if selected item then (front ++ item :: rest).erase item else front ++ item :: rest)
        (front.length + 1) := by
  have inside : front.length < (front ++ item :: rest).length := by
    rw [List.length_append, List.length_cons]
    omega
  rw [eraseScan, dif_pos inside, List.getElem_append_right (Nat.le_refl _)]
  simp only [Nat.sub_self, List.getElem_cons_zero]

theorem eraseScan_pass (front : List α) {item : α} (rest : List α)
    (passes : selected item = false) :
    eraseScan selected (front ++ item :: rest) front.length =
      eraseScan selected (front ++ [item] ++ rest) (front ++ [item]).length := by
  rw [eraseScan_visit, if_neg (by rw [passes]; exact Bool.false_ne_true), List.append_assoc,
    List.singleton_append, List.length_append, List.length_singleton]

theorem erase_front (front : List α) (item : α) (rest : List α) :
    (front ++ item :: rest).erase item = (front ++ [item]).erase item ++ rest := by
  have present : item ∈ front ++ [item] := List.mem_append_right front List.mem_cons_self
  rw [← List.singleton_append, ← List.append_assoc, List.erase_append_left rest present]

theorem length_erase_front (front : List α) (item : α) :
    ((front ++ [item]).erase item).length = front.length := by
  have present : item ∈ front ++ [item] := List.mem_append_right front List.mem_cons_self
  rw [List.length_erase_of_mem present, List.length_append, List.length_singleton,
    Nat.add_sub_cancel]

theorem eraseScan_remove_last (front : List α) {item : α} (removed : selected item = true) :
    eraseScan selected (front ++ [item]) front.length = (front ++ [item]).erase item := by
  have behind : ¬ front.length + 1 < ((front ++ [item]).erase item).length := by
    rw [length_erase_front]
    omega
  rw [eraseScan_visit, if_pos removed, eraseScan, dif_neg behind]

theorem eraseScan_remove (front : List α) {item : α} (next : α) (rest : List α)
    (removed : selected item = true) :
    eraseScan selected (front ++ item :: next :: rest) front.length =
      eraseScan selected ((front ++ [item]).erase item ++ [next] ++ rest)
        ((front ++ [item]).erase item ++ [next]).length := by
  rw [eraseScan_visit, if_pos removed, erase_front, List.append_assoc, List.singleton_append,
    List.length_append, length_erase_front, List.length_singleton]

theorem countP_erase_front (front : List α) {item : α} (removed : selected item = true) :
    ((front ++ [item]).erase item).countP selected = front.countP selected := by
  have present : item ∈ front ++ [item] := List.mem_append_right front List.mem_cons_self
  have counts := (List.perm_cons_erase present).countP_eq selected
  rw [List.countP_append, List.countP_singleton, if_pos removed,
    List.countP_cons_of_pos removed] at counts
  exact (Nat.succ.inj counts).symm

/-- Each visited item that is selected costs one removal, so the skipped ones stay. -/
theorem countP_eraseScan (front rest : List α) :
    (eraseScan selected (front ++ rest) front.length).countP selected =
      front.countP selected + skipped selected rest := by
  induction rest using skipped.induct selected generalizing front with
  | case1 => rw [List.append_nil, eraseScan_done, skipped, Nat.add_zero]
  | case2 item =>
      rw [skipped, Nat.add_zero]
      cases found : selected item with
      | true => rw [eraseScan_remove_last front found, countP_erase_front front found]
      | false =>
          have done : eraseScan selected (front ++ [item]) (front ++ [item]).length =
              front ++ [item] := eraseScan_done _
          rw [eraseScan_pass front [] found, List.append_nil, done, List.countP_append,
            List.countP_singleton, found]
          rfl
  | case3 item next rest found ih =>
      rw [eraseScan_remove front next rest found, ih, List.countP_append,
        countP_erase_front front found, List.countP_singleton, skipped, if_pos found,
        Nat.add_assoc]
  | case4 item next rest notFound ih =>
      have passes : selected item = false := Bool.eq_false_iff.mpr notFound
      rw [eraseScan_pass front (next :: rest) passes, ih, List.countP_append,
        List.countP_singleton, passes, skipped, if_neg notFound]
      rfl

theorem filter_erase_selected {item : α} (items : List α) (removed : selected item = true) :
    (items.erase item).filter (fun other => !selected other) =
      items.filter (fun other => !selected other) := by
  have absent : item ∉ items.filter (fun other => !selected other) := by
    intro member
    have passes := (List.mem_filter.mp member).2
    rw [removed] at passes
    cases passes
  rw [← List.erase_filter, List.erase_of_not_mem absent]

theorem filter_eraseScan (items : List α) (index : Nat) :
    (eraseScan selected items index).filter (fun item => !selected item) =
      items.filter (fun item => !selected item) := by
  fun_induction eraseScan selected items index with
  | case1 items index inside item ih =>
      simp only [dite_eq_ite] at ih
      rw [ih]
      cases found : selected item with
      | true => exact filter_erase_selected items found
      | false => rfl
  | case2 items index outside => rfl

/-- No selected item is left exactly when no two of them stand side by side. -/
theorem eraseScan_complete_iff (items : List α) :
    (∀ item ∈ eraseScan selected items 0, selected item = false) ↔
      items.IsChain (fun item next => ¬ (selected item = true ∧ selected next = true)) := by
  have counted := @countP_eraseScan α selected _ [] items
  rw [List.nil_append, List.length_nil, List.countP_nil, Nat.zero_add] at counted
  rw [← skipped_eq_zero_iff, ← counted, List.countP_eq_zero]
  simp only [Bool.not_eq_true]

end Library
