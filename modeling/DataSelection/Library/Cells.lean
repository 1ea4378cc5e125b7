/-
Counters in rows.

A sum over the counted cells of a table gains the worth of a cell each time that the cell is
counted, and does not depend on what the other cells are worth.
-/

import Mathlib.Algebra.BigOperators.Group.Finset.Piecewise

namespace Library

/-- A cell of a table, with a default outside. -/
def cell {α : Type} (rows : List (List α)) (row column : Nat) (default : α) : α :=
  (rows.getD row []).getD column default

def countAt (counts : List (List Nat)) (row column : Nat) : List (List Nat) :=
  counts.modify row (fun inRow => inRow.modify column (· + 1))

def sumCells {K : Type} [AddCommMonoid K] (counts : List (List Nat)) (term : Nat → Nat → Nat → K) : K :=
  ∑ row ∈ Finset.range counts.length,
    ∑ column ∈ Finset.range (counts.getD row []).length, term row column (cell counts row column 0)

/-- Whether a counted cell has a property. -/
def anyCounted (counts : List (List Nat)) (property : Nat → Nat → Bool) : Bool :=
  (List.range counts.length).any (fun row => (List.range (counts.getD row []).length).any
    (fun column => decide (cell counts row column 0 > 0) && property row column))

/-- A cell that a table has. -/
def Inside (counts : List (List Nat)) (row column : Nat) : Prop := column < (counts.getD row []).length

section

variable {counts : List (List Nat)} {row column : Nat}

theorem length_countAt : (countAt counts row column).length = counts.length := by
  rw [countAt, List.length_modify]

theorem getD_countAt (other : Nat) :
    (countAt counts row column).getD other [] =
      if row = other then (counts.getD other []).modify column (· + 1) else counts.getD other [] := by
  rw [countAt, List.getD_eq_getElem?_getD, List.getD_eq_getElem?_getD]
  by_cases same : row = other
  · subst same
    rw [if_pos rfl, List.getElem?_modify_eq]
    cases counts[row]? with
    | none => rw [Option.getD_none, List.modify_nil]; rfl
    | some inRow => rfl
  · rw [if_neg same, List.getElem?_modify_ne _ _ same]

theorem length_getD_countAt (other : Nat) :
    ((countAt counts row column).getD other []).length = (counts.getD other []).length := by
  rw [getD_countAt]
  split
  · exact List.length_modify _ _ _
  · rfl

theorem map_length_countAt :
    (countAt counts row column).map List.length = counts.map List.length := by
  refine List.ext_getElem? ?_
  intro other
  have same := @length_getD_countAt counts row column other
  rw [List.getElem?_map, List.getElem?_map]
  by_cases inside : other < counts.length
  · have isAfter := List.getElem?_eq_getElem (length_countAt.symm ▸ inside :
      other < (countAt counts row column).length)
    have isBefore := List.getElem?_eq_getElem inside
    rw [List.getD_eq_getElem?_getD, List.getD_eq_getElem?_getD, isAfter, isBefore] at same
    rw [isAfter, isBefore]
    exact congrArg some same
  · rw [List.getElem?_eq_none (by rw [length_countAt]; omega), List.getElem?_eq_none (by omega)]

/-- The lengths of the rows say what is inside. -/
theorem inside_of_lengths {lengths : List Nat} (areLengths : counts.map List.length = lengths)
    (within : column < lengths.getD row 0) : Inside counts row column := by
  rw [← areLengths, List.getD_eq_getElem?_getD, List.getElem?_map] at within
  rw [Inside, List.getD_eq_getElem?_getD]
  cases isRow : counts[row]? with
  | none =>
      rw [isRow] at within
      cases within
  | some inRow =>
      rw [isRow] at within
      exact within

theorem Inside.row_lt (inside : Inside counts row column) : row < counts.length := by
  by_contra outside
  rw [Inside, List.getD_eq_getElem?_getD, List.getElem?_eq_none (Nat.le_of_not_lt outside)] at inside
  cases inside

theorem inside_of_counted (counted : 0 < cell counts row column 0) : Inside counts row column := by
  by_contra outside
  rw [cell, List.getD_eq_getElem?_getD, List.getElem?_eq_none (Nat.le_of_not_lt outside)] at counted
  cases counted

theorem cell_countAt (inside : Inside counts row column) (otherRow otherColumn : Nat) :
    cell (countAt counts row column) otherRow otherColumn 0 =
      cell counts otherRow otherColumn 0 +
        if row = otherRow ∧ column = otherColumn then 1 else 0 := by
  rw [cell, getD_countAt, cell]
  by_cases sameRow : row = otherRow
  · subst sameRow
    rw [Inside] at inside
    generalize counts.getD row [] = inRow at inside
    rw [if_pos rfl, List.getD_eq_getElem?_getD, List.getD_eq_getElem?_getD]
    by_cases sameColumn : column = otherColumn
    · subst sameColumn
      rw [if_pos ⟨rfl, rfl⟩, List.getElem?_modify_eq, List.getElem?_eq_getElem inside]
      rfl
    · rw [if_neg (fun both => sameColumn both.2), List.getElem?_modify_ne _ _ sameColumn]
      rfl
  · rw [if_neg sameRow, if_neg (fun both => sameRow both.1), Nat.add_zero]

theorem sumCells_countAt {K : Type} [AddCommMonoid K] (inside : Inside counts row column)
    {term : Nat → Nat → Nat → K} {gain : K}
    (gained : ∀ count, term row column (count + 1) = term row column count + gain) :
    sumCells (countAt counts row column) term = sumCells counts term + gain := by
  have each : ∀ otherRow otherColumn,
      term otherRow otherColumn (cell (countAt counts row column) otherRow otherColumn 0) =
        term otherRow otherColumn (cell counts otherRow otherColumn 0) +
          if otherRow = row then (if otherColumn = column then gain else 0) else 0 := by
    intro otherRow otherColumn
    rw [cell_countAt inside]
    by_cases sameRow : otherRow = row
    · by_cases sameColumn : otherColumn = column
      · subst sameRow sameColumn
        rw [if_pos ⟨rfl, rfl⟩, if_pos rfl, if_pos rfl, gained]
      · rw [if_neg (fun both => sameColumn both.2.symm), if_pos sameRow, if_neg sameColumn,
          Nat.add_zero, add_zero]
    · rw [if_neg (fun both => sameRow both.1.symm), if_neg sameRow, Nat.add_zero, add_zero]
  have inRow : ∀ otherRow ∈ Finset.range counts.length,
      ∑ otherColumn ∈ Finset.range (counts.getD otherRow []).length,
        (if otherRow = row then (if otherColumn = column then gain else 0) else 0) =
          if otherRow = row then gain else 0 := by
    intro otherRow _
    by_cases sameRow : otherRow = row
    · subst sameRow
      simp only [if_true]
      rw [Finset.sum_ite_eq' (Finset.range (counts.getD otherRow []).length) column,
        if_pos (Finset.mem_range.mpr inside)]
    · simp only [if_neg sameRow]
      exact Finset.sum_const_zero
  simp only [sumCells, length_countAt, length_getD_countAt, each, Finset.sum_add_distrib]
  rw [Finset.sum_congr rfl inRow, Finset.sum_ite_eq' (Finset.range counts.length) row,
    if_pos (Finset.mem_range.mpr inside.row_lt)]

/-- Only counted cells matter. -/
theorem sumCells_congr {K : Type} [AddCommMonoid K] {term other : Nat → Nat → Nat → K}
    (same : ∀ row column, term row column (cell counts row column 0) =
      other row column (cell counts row column 0)) : sumCells counts term = sumCells counts other := by
  simp only [sumCells, same]

theorem anyCounted_iff {property : Nat → Nat → Bool} : anyCounted counts property = true ↔
    ∃ row column, 0 < cell counts row column 0 ∧ property row column = true := by
  simp only [anyCounted, List.any_eq_true, List.mem_range, Bool.and_eq_true, decide_eq_true_eq]
  constructor
  · rintro ⟨row, _, column, _, counted, holds⟩
    exact ⟨row, column, counted, holds⟩
  · rintro ⟨row, column, counted, holds⟩
    have inside := inside_of_counted counted
    exact ⟨row, inside.row_lt, column, inside, counted, holds⟩

theorem anyCounted_countAt (inside : Inside counts row column) {property : Nat → Nat → Bool} :
    anyCounted (countAt counts row column) property = true ↔
      anyCounted counts property = true ∨ property row column = true := by
  rw [anyCounted_iff, anyCounted_iff]
  constructor
  · rintro ⟨otherRow, otherColumn, counted, holds⟩
    rw [cell_countAt inside] at counted
    by_cases same : row = otherRow ∧ column = otherColumn
    · obtain ⟨rfl, rfl⟩ := same
      exact Or.inr holds
    · rw [if_neg same] at counted
      exact Or.inl ⟨otherRow, otherColumn, counted, holds⟩
  · intro either
    rcases either with ⟨otherRow, otherColumn, counted, holds⟩ | holds
    · refine ⟨otherRow, otherColumn, ?_, holds⟩
      rw [cell_countAt inside]
      omega
    · refine ⟨row, column, ?_, holds⟩
      rw [cell_countAt inside, if_pos ⟨rfl, rfl⟩]
      exact Nat.succ_pos _

end

end Library
