/-
Weights in bins.

Each weight is added to the bin that its index names, so a bin holds the sum of the weights
that belong to it.  Where the indices are the first parts of distinct pairs, the weights of a
bin can be summed over the second parts.
-/

import Mathlib.Algebra.BigOperators.Group.Finset.Basic
import Mathlib.Algebra.BigOperators.Group.Finset.Sigma

namespace Library

/-- Adds each weight to the bin of its index. -/
def binWeight {K : Type} [Add K] (indices : List Nat) (weights bins : List K) : List K :=
  (indices.zip weights).foldl (fun bins pair => bins.modify pair.1 (· + pair.2)) bins

section

variable {K : Type} [AddCommMonoid K]

/-- The sum over the places whose index names a bin. -/
def binSum (indices : List Nat) (bin : Nat) (weight : Nat → K) : K :=
  ∑ place ∈ Finset.range indices.length, if indices.getD place 0 = bin then weight place else 0

theorem length_binWeight (indices : List Nat) (weights bins : List K) :
    (binWeight indices weights bins).length = bins.length := by
  rw [binWeight]
  induction indices.zip weights generalizing bins with
  | nil => rfl
  | cons pair pairs ih => rw [List.foldl_cons, ih, List.length_modify]

theorem getD_modify_add {bins : List K} {bin index : Nat} (inside : bin < bins.length) (weight : K) :
    (bins.modify index (· + weight)).getD bin 0 =
      bins.getD bin 0 + if index = bin then weight else 0 := by
  rw [List.getD_eq_getElem?_getD, List.getD_eq_getElem?_getD, List.getElem?_modify,
    List.getElem?_eq_getElem inside]
  split
  · rfl
  · exact (add_zero _).symm

theorem getD_binWeight {indices : List Nat} {weights : List K}
    (sameLength : indices.length = weights.length) {bins : List K} {bin : Nat}
    (inside : bin < bins.length) :
    (binWeight indices weights bins).getD bin 0 =
      bins.getD bin 0 + binSum indices bin (fun place => weights.getD place 0) := by
  unfold binSum
  induction indices generalizing weights bins with
  | nil => rw [binWeight, List.zip_nil_left, List.foldl_nil, List.length_nil, Finset.sum_range_zero,
      add_zero]
  | cons index indices ih =>
      cases weights with
      | nil => cases sameLength
      | cons weight weights =>
          have insideModified : bin < (bins.modify index (· + weight)).length := by
            rw [List.length_modify]
            exact inside
          have later := ih (Nat.succ.inj sameLength) insideModified
          rw [binWeight, List.zip_cons_cons, List.foldl_cons]
          rw [binWeight] at later
          rw [later, getD_modify_add inside, add_assoc, List.length_cons, Finset.sum_range_succ']
          simp only [List.getD_cons_zero, List.getD_cons_succ]
          rw [add_comm (ite _ _ _)]

/-- Bins that start empty hold the sums of their weights. -/
theorem getElem?_binWeight {indices : List Nat} {weights : List K}
    (sameLength : indices.length = weights.length) {size bin : Nat} (inside : bin < size) :
    (binWeight indices weights (List.replicate size 0))[bin]? =
      some (binSum indices bin (fun place => weights.getD place 0)) := by
  have inBins : bin < (List.replicate size (0 : K)).length := by
    rw [List.length_replicate]
    exact inside
  have isBin := List.getElem?_eq_getElem
    (show bin < (binWeight indices weights (List.replicate size 0)).length by
      rw [length_binWeight]
      exact inBins)
  have isSum := getD_binWeight sameLength inBins
  have isZero : (List.replicate size (0 : K)).getD bin 0 = 0 := by
    rw [List.getD_eq_getElem?_getD, List.getElem?_replicate, if_pos inside, Option.getD_some]
  rw [isZero, zero_add, List.getD_eq_getElem?_getD, isBin, Option.getD_some] at isSum
  rw [isBin, isSum]

/-- The pair at a place of a bin. -/
theorem exists_pair_of_bin {pairs : List (Nat × Nat)} {bin place : Nat}
    (member : place ∈ (Finset.range pairs.length).filter
      (fun place => (pairs.map Prod.fst).getD place 0 = bin)) :
    pairs[place]? = some (bin, (pairs.getD place (0, 0)).2) := by
  obtain ⟨isPlace, isBin⟩ := Finset.mem_filter.mp member
  have isPair := List.getElem?_eq_getElem (Finset.mem_range.mp isPlace)
  rw [List.getD_eq_getElem?_getD, List.getElem?_map, isPair] at isBin
  rw [List.getD_eq_getElem?_getD, isPair, ← isBin]
  rfl

/-- The places whose pair begins with an index are found by the second parts of the pairs. -/
theorem binSum_pairs {pairs : List (Nat × Nat)} (distinct : pairs.Nodup) {size : Nat}
    (inside : ∀ pair ∈ pairs, pair.2 < size) (bin : Nat) (weight : Nat → K) :
    binSum (pairs.map Prod.fst) bin weight =
      ∑ second ∈ (Finset.range size).filter (fun second => (bin, second) ∈ pairs),
        weight (pairs.idxOf (bin, second)) := by
  have found : ∀ place ∈ (Finset.range pairs.length).filter
      (fun place => (pairs.map Prod.fst).getD place 0 = bin),
      pairs.idxOf (bin, (pairs.getD place (0, 0)).2) = place := by
    intro place member
    have isPair := exists_pair_of_bin member
    have isPlace := List.mem_of_getElem? isPair
    exact (List.getElem?_inj (List.idxOf_lt_length_of_mem isPlace) distinct).mp
      ((List.getElem?_idxOf isPlace).trans isPair.symm)
  rw [binSum, List.length_map, ← Finset.sum_filter]
  refine Finset.sum_nbij' (fun place => (pairs.getD place (0, 0)).2)
    (fun second => pairs.idxOf (bin, second)) ?_ ?_ found ?_ ?_
  · intro place member
    have isPair := List.mem_of_getElem? (exists_pair_of_bin member)
    exact Finset.mem_filter.mpr ⟨Finset.mem_range.mpr (inside (bin, _) isPair), isPair⟩
  · intro second member
    have isPair := (Finset.mem_filter.mp member).2
    have isPlace := List.idxOf_lt_length_of_mem isPair
    refine Finset.mem_filter.mpr ⟨Finset.mem_range.mpr isPlace, ?_⟩
    rw [List.getD_eq_getElem?_getD, List.getElem?_map, List.getElem?_idxOf isPair]
    rfl
  · intro second member
    rw [List.getD_eq_getElem?_getD, List.getElem?_idxOf (Finset.mem_filter.mp member).2]
    rfl
  · intro place member
    rw [found place member]

end

end Library
