/-
Lists that are only computed where a mask says so.

What is read must be marked before it is read: then a computation that leaves everything else as
it was agrees with the whole computation on the mask.
-/

import DataSelection.Library.Binning

namespace Library

/-- Both lists have the same items at the places of a mask. -/
def AgreeOn {α : Type} (mask : List Bool) (left right : List α) : Prop :=
  ∀ index, mask.getD index false = true → left[index]? = right[index]?

/-- Marks the indices of the selected places. -/
def mark (selected : List Bool) (indices : List Nat) (mask : List Bool) : List Bool :=
  (selected.zip indices).foldl (fun mask pair => if pair.1 then mask.set pair.2 true else mask) mask

/-- Adds each weight to the bin of its index if the bin is in the mask. -/
def maskedBinWeight {K : Type} [Add K] (mask : List Bool) (indices : List Nat) (weights bins : List K) :
    List K :=
  (indices.zip weights).foldl
    (fun bins pair => if mask.getD pair.1 false then bins.modify pair.1 (· + pair.2) else bins) bins

/-! ### Marks -/

theorem inside_of_marked {mask : List Bool} {place : Nat} (marked : mask.getD place false = true) :
    place < mask.length := by
  by_contra outside
  rw [List.getD_eq_getElem?_getD, List.getElem?_eq_none (Nat.le_of_not_lt outside)] at marked
  cases marked

theorem inside_of_marked_order {masks : List (List Bool)} {order place : Nat}
    (marked : (masks.getD order []).getD place false = true) : order < masks.length := by
  by_contra outside
  have isEmpty : masks.getD order [] = [] := by
    rw [List.getD_eq_getElem?_getD, List.getElem?_eq_none (Nat.le_of_not_lt outside), Option.getD_none]
  rw [isEmpty] at marked
  cases marked

theorem length_mark (selected : List Bool) (indices : List Nat) (mask : List Bool) :
    (mark selected indices mask).length = mask.length := by
  rw [mark]
  induction selected.zip indices generalizing mask with
  | nil => rfl
  | cons pair pairs ih =>
      rw [List.foldl_cons, ih]
      split
      · exact List.length_set
      · rfl

theorem getD_set_of_getD {mask : List Bool} {place : Nat} (marked : mask.getD place false = true)
    (index : Nat) : (mask.set index true).getD place false = true := by
  have inside := inside_of_marked marked
  rw [List.getD_eq_getElem?_getD] at marked ⊢
  rw [List.getElem?_set]
  split
  · next same =>
      rw [if_pos (by omega)]
      rfl
  · exact marked

theorem getD_mark_of_getD {mask : List Bool} {place : Nat} (marked : mask.getD place false = true)
    (selected : List Bool) (indices : List Nat) :
    (mark selected indices mask).getD place false = true := by
  rw [mark]
  induction selected.zip indices generalizing mask with
  | nil => exact marked
  | cons pair pairs ih =>
      rw [List.foldl_cons]
      apply ih
      split
      · exact getD_set_of_getD marked pair.2
      · exact marked

theorem getD_mark {selected : List Bool} {indices : List Nat} {mask : List Bool} {place index : Nat}
    (isSelected : selected.getD place false = true) (isIndex : indices[place]? = some index)
    (inside : index < mask.length) : (mark selected indices mask).getD index false = true := by
  induction selected generalizing indices mask place with
  | nil => cases isSelected
  | cons first selected ih =>
      cases indices with
      | nil => cases isIndex
      | cons head indices =>
          rw [mark, List.zip_cons_cons, List.foldl_cons]
          cases place with
          | zero =>
              cases isIndex
              have isFirst : first = true := isSelected
              rw [if_pos isFirst]
              refine getD_mark_of_getD ?_ selected indices
              rw [List.getD_eq_getElem?_getD, List.getElem?_set_self inside, Option.getD_some]
          | succ place =>
              refine ih isSelected isIndex ?_
              split
              · rw [List.length_set]
                exact inside
              · exact inside

/-! ### Agreement -/

theorem AgreeOn.getD {α : Type} {mask : List Bool} {left right : List α}
    (agree : AgreeOn mask left right) {index : Nat} (marked : mask.getD index false = true)
    (default : α) : left.getD index default = right.getD index default := by
  rw [List.getD_eq_getElem?_getD, List.getD_eq_getElem?_getD, agree index marked]

theorem length_maskedBinWeight {K : Type} [Add K] (mask : List Bool) (indices : List Nat)
    (weights bins : List K) : (maskedBinWeight mask indices weights bins).length = bins.length := by
  rw [maskedBinWeight]
  induction indices.zip weights generalizing bins with
  | nil => rfl
  | cons pair pairs ih =>
      rw [List.foldl_cons, ih]
      split
      · exact List.length_modify _ _ _
      · rfl

/-- The bins of a mask hold what all of the weights give them. -/
theorem agreeOn_maskedBinWeight {K : Type} [Add K] {mask : List Bool} {indices : List Nat}
    {weights others : List K} (sameLength : weights.length = others.length)
    (agree : ∀ (place : Nat) index, indices[place]? = some index → mask.getD index false = true →
      weights[place]? = others[place]?)
    {bins plain : List K} (agreeBins : AgreeOn mask bins plain) :
    AgreeOn mask (maskedBinWeight mask indices weights bins) (binWeight indices others plain) := by
  induction indices generalizing weights others bins plain with
  | nil => exact agreeBins
  | cons index indices ih =>
      cases weights with
      | nil =>
          obtain rfl := List.length_eq_zero_iff.mp sameLength.symm
          exact agreeBins
      | cons weight weights =>
          cases others with
          | nil => cases sameLength
          | cons other others =>
              rw [maskedBinWeight, binWeight, List.zip_cons_cons, List.zip_cons_cons,
                List.foldl_cons, List.foldl_cons]
              refine ih (Nat.succ.inj sameLength)
                (fun place index isIndex => agree (place + 1) index isIndex) ?_
              intro place marked
              by_cases same : index = place
              · subst same
                have isWeight := Option.some.inj (agree 0 index rfl marked)
                rw [if_pos marked, List.getElem?_modify_eq, List.getElem?_modify_eq, isWeight,
                  agreeBins index marked]
              · rw [List.getElem?_modify_ne _ _ same, ← agreeBins place marked]
                split
                · exact List.getElem?_modify_ne _ _ same
                · rfl

end Library
