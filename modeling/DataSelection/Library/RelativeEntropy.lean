/-
Gains of a logarithmic score under added mass.

Adding the masses `c` to the masses `p` of some items raises the score
`∑ p * log p` by at most what one item holding the whole mass `n` would gain.
-/

import Mathlib.Algebra.BigOperators.Field
import Mathlib.Algebra.Order.BigOperators.Group.Finset
import Mathlib.Analysis.SpecialFunctions.Log.Basic

namespace Library

variable {ι : Type} {items : Finset ι} {p c : ι → ℝ} {n : ℝ}

/-- One item against the common growth factor `a`. -/
theorem mul_log_ratio_le {mass added a : ℝ} (positive : 0 < mass) (nonneg : 0 ≤ added)
    (growth : 0 < a) :
    mass * Real.log ((mass + added) / mass) ≤
      mass * Real.log a + ((mass + added) / a - mass) := by
  have ratio : 0 < (mass + added) / mass := by positivity
  have scaled : 0 < (mass + added) / mass / a := by positivity
  have bound := Real.log_le_sub_one_of_pos scaled
  rw [Real.log_div ratio.ne' growth.ne'] at bound
  have weighted := mul_le_mul_of_nonneg_left bound positive.le
  have expand : mass * ((mass + added) / mass / a - 1) = (mass + added) / a - mass := by
    field_simp
  rw [expand, mul_sub] at weighted
  linarith

theorem sum_mul_log_ratio_le (positive : ∀ item ∈ items, 0 < p item)
    (nonneg : ∀ item ∈ items, 0 ≤ c item) (mass : 0 < n) (within : ∑ item ∈ items, p item ≤ n) :
    ∑ item ∈ items, p item * Real.log ((p item + c item) / p item) ≤
      n * Real.log ((n + ∑ item ∈ items, c item) / n) := by
  have added : 0 ≤ ∑ item ∈ items, c item := Finset.sum_nonneg nonneg
  have grown : 0 < n + ∑ item ∈ items, c item := by linarith
  have growth : 0 < (n + ∑ item ∈ items, c item) / n := div_pos grown mass
  have itemwise : ∑ item ∈ items, p item * Real.log ((p item + c item) / p item) ≤
      ∑ item ∈ items,
        (p item * Real.log ((n + ∑ item ∈ items, c item) / n) +
          ((p item + c item) / ((n + ∑ item ∈ items, c item) / n) - p item)) :=
    Finset.sum_le_sum (fun item member =>
      mul_log_ratio_le (positive item member) (nonneg item member) growth)
  have collected : ∑ item ∈ items,
        (p item * Real.log ((n + ∑ item ∈ items, c item) / n) +
          ((p item + c item) / ((n + ∑ item ∈ items, c item) / n) - p item)) =
      (∑ item ∈ items, p item) * Real.log ((n + ∑ item ∈ items, c item) / n) +
        (((∑ item ∈ items, p item) + ∑ item ∈ items, c item) /
          ((n + ∑ item ∈ items, c item) / n) - ∑ item ∈ items, p item) := by
    rw [Finset.sum_add_distrib, Finset.sum_sub_distrib, ← Finset.sum_mul, ← Finset.sum_div,
      Finset.sum_add_distrib]
  have logBound := Real.one_sub_inv_le_log_of_pos growth
  have slack := mul_le_mul_of_nonneg_left logBound (sub_nonneg.mpr within)
  have balance : (n - ∑ item ∈ items, p item) *
        (1 - ((n + ∑ item ∈ items, c item) / n)⁻¹) -
      (((∑ item ∈ items, p item) + ∑ item ∈ items, c item) /
          ((n + ∑ item ∈ items, c item) / n) - ∑ item ∈ items, p item) = 0 := by
    field_simp
    ring
  rw [collected] at itemwise
  rw [sub_mul] at slack
  linarith

end Library
