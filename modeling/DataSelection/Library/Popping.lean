/-
Taking items out of a list by their positions, one after the other.

Each position is one of the list that is left.  Taken in descending order the positions
are those of the original list, and in no other order.
-/

import Mathlib.Data.List.Perm.Basic
import Mathlib.Algebra.Order.BigOperators.Group.List
import Mathlib.Algebra.Order.Ring.Nat

namespace Library

variable {α β : Type}

/-- What is taken out, and what is left; a position behind the end is an error. -/
def popAll : List α → List Nat → Option (List α × List α)
  | items, [] => some ([], items)
  | items, position :: positions => do
      let item ← items[position]?
      let (popped, rest) ← popAll (items.eraseIdx position) positions
      some (item :: popped, rest)

theorem popAll_cons_cases {items popped rest : List α} {position : Nat} {positions : List Nat}
    (ran : popAll items (position :: positions) = some (popped, rest)) :
    ∃ item others, items[position]? = some item ∧
      popAll (items.eraseIdx position) positions = some (others, rest) ∧
      popped = item :: others := by
  rw [popAll] at ran
  cases found : items[position]? with
  | none => simp [found] at ran
  | some item =>
      cases later : popAll (items.eraseIdx position) positions with
      | none => simp [found, later] at ran
      | some pair =>
          rcases pair with ⟨others, left⟩
          simp only [found, later, Option.bind_eq_bind, Option.bind_some, Option.some.injEq,
            Prod.mk.injEq] at ran
          rcases ran with ⟨rfl, rfl⟩
          exact ⟨item, others, rfl, rfl, rfl⟩

theorem popAll_perm {items popped rest : List α} {positions : List Nat}
    (ran : popAll items positions = some (popped, rest)) : (popped ++ rest).Perm items := by
  induction positions generalizing items popped with
  | nil =>
      cases ran
      exact List.Perm.refl _
  | cons position positions ih =>
      rcases popAll_cons_cases ran with ⟨item, others, found, later, rfl⟩
      rcases List.getElem?_eq_some_iff.mp found with ⟨inside, rfl⟩
      exact ((ih later).cons _).trans (List.getElem_cons_eraseIdx_perm inside)

theorem eraseIdx_map (f : α → β) (items : List α) (position : Nat) :
    (items.map f).eraseIdx position = (items.eraseIdx position).map f := by
  rw [List.eraseIdx_eq_take_drop_succ, List.eraseIdx_eq_take_drop_succ, List.map_append,
    List.map_take, List.map_drop]

theorem popAll_map (f : α → β) (items : List α) (positions : List Nat) :
    popAll (items.map f) positions =
      (popAll items positions).map (fun pair => (pair.1.map f, pair.2.map f)) := by
  induction positions generalizing items with
  | nil => rfl
  | cons position positions ih =>
      rw [popAll, popAll, List.getElem?_map, eraseIdx_map, ih]
      cases items[position]? with
      | none => rfl
      | some item =>
          cases popAll (items.eraseIdx position) positions with
          | none => rfl
          | some pair => rfl

/-- Positions in descending order are those of the original list. -/
theorem popAll_descending {items : List α} {positions : List Nat} {value : Nat → α}
    (descending : positions.Pairwise (· > ·))
    (values : ∀ position ∈ positions, items[position]? = some (value position)) :
    ∃ rest, popAll items positions = some (positions.map value, rest) := by
  induction positions generalizing items with
  | nil => exact ⟨items, rfl⟩
  | cons position positions ih =>
      rw [List.pairwise_cons] at descending
      have later : ∀ other ∈ positions,
          (items.eraseIdx position)[other]? = some (value other) := by
        intro other member
        rw [List.getElem?_eraseIdx_of_lt (descending.1 other member)]
        exact values other (List.mem_cons_of_mem position member)
      rcases ih descending.2 later with ⟨rest, ran⟩
      refine ⟨rest, ?_⟩
      rw [popAll, values position List.mem_cons_self, ran]
      rfl

/-! ### Lists of numbers -/

def Rises (items : List Nat) : Prop := ∀ (position : Nat) value, items[position]? = some value →
  position ≤ value

def RisesFrom (start : Nat) (items : List Nat) : Prop :=
  ∀ (position : Nat) value, start ≤ position → items[position]? = some value → position < value

theorem rises_range (n : Nat) : Rises (List.range n) := by
  intro position value found
  rcases List.getElem?_eq_some_iff.mp found with ⟨inside, rfl⟩
  exact (List.getElem_range inside).ge

theorem Rises.eraseIdx {items : List Nat} (rises : Rises items) (erased : Nat) :
    Rises (items.eraseIdx erased) := by
  intro position value found
  by_cases before : position < erased
  · rw [List.getElem?_eraseIdx_of_lt before] at found
    exact rises position value found
  · rw [List.getElem?_eraseIdx_of_ge (Nat.le_of_not_lt before)] at found
    exact Nat.le_of_succ_le (rises (position + 1) value found)

theorem RisesFrom.eraseIdx {start : Nat} {items : List Nat} (rises : RisesFrom start items)
    (erased : Nat) : RisesFrom start (items.eraseIdx erased) := by
  intro position value behind found
  by_cases before : position < erased
  · rw [List.getElem?_eraseIdx_of_lt before] at found
    exact rises position value behind found
  · rw [List.getElem?_eraseIdx_of_ge (Nat.le_of_not_lt before)] at found
    have above := rises (position + 1) value (Nat.le_succ_of_le behind) found
    omega

theorem Rises.risesFrom {items : List Nat} (rises : Rises items) (erased : Nat) :
    RisesFrom erased (items.eraseIdx erased) := by
  intro position value behind found
  rw [List.getElem?_eraseIdx_of_ge behind] at found
  exact rises (position + 1) value found

theorem Rises.popAll_le {items popped rest : List Nat} {positions : List Nat}
    (rises : Rises items) (ran : popAll items positions = some (popped, rest)) :
    List.Forall₂ (· ≤ ·) positions popped := by
  induction positions generalizing items popped with
  | nil =>
      cases ran
      exact .nil
  | cons position positions ih =>
      rcases popAll_cons_cases ran with ⟨item, others, found, later, rfl⟩
      exact .cons (rises position item found) (ih (rises.eraseIdx position) later)

theorem RisesFrom.lt_of_popAll {start : Nat} {items rest : List Nat} {positions : List Nat}
    (rises : RisesFrom start items) (ran : popAll items positions = some (positions, rest)) :
    ∀ position ∈ positions, position < start := by
  induction positions generalizing items with
  | nil =>
      intro position member
      cases member
  | cons first positions ih =>
      rcases popAll_cons_cases ran with ⟨item, others, found, later, same⟩
      cases same
      intro position member
      rcases List.mem_cons.mp member with rfl | member
      · by_contra behind
        exact Nat.lt_irrefl _ (rises position position (Nat.le_of_not_lt behind) found)
      · exact ih (rises.eraseIdx first) later position member

/-- When every number is found at its own position, the positions descend. -/
theorem Rises.descending_of_popAll {items rest : List Nat} {positions : List Nat}
    (rises : Rises items) (ran : popAll items positions = some (positions, rest)) :
    positions.Pairwise (· > ·) := by
  induction positions generalizing items with
  | nil => exact .nil
  | cons first positions ih =>
      rcases popAll_cons_cases ran with ⟨item, others, _, later, same⟩
      cases same
      exact .cons ((rises.risesFrom first).lt_of_popAll later) (ih (rises.eraseIdx first) later)

theorem eq_of_forall₂_of_sum {first second : List Nat}
    (below : List.Forall₂ (· ≤ ·) first second) (sums : first.sum = second.sum) :
    first = second := by
  induction below with
  | nil => rfl
  | @cons one other firsts seconds here later ih =>
      have rest := later.sum_le_sum
      rw [List.sum_cons, List.sum_cons] at sums
      have same : one = other := by omega
      subst same
      rw [ih (by omega)]

/-- The numbers at the given positions are taken out of a range exactly when the positions
descend. -/
theorem descending_of_popAll_range {n : Nat} {positions popped rest : List Nat}
    (ran : popAll (List.range n) positions = some (popped, rest)) (same : popped.Perm positions) :
    positions.Pairwise (· > ·) := by
  have below := (rises_range n).popAll_le ran
  cases eq_of_forall₂_of_sum below same.sum_eq.symm
  exact (rises_range n).descending_of_popAll ran

theorem popAll_range {n : Nat} {positions : List Nat} (descending : positions.Pairwise (· > ·))
    (inside : ∀ position ∈ positions, position < n) :
    ∃ rest, popAll (List.range n) positions = some (positions, rest) := by
  have values : ∀ position ∈ positions, (List.range n)[position]? = some (id position) :=
    fun position member => List.getElem?_range (inside position member)
  rcases popAll_descending descending values with ⟨rest, ran⟩
  rw [List.map_id] at ran
  exact ⟨rest, ran⟩

end Library
