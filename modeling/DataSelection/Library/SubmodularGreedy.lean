/-
Monotone submodular set functions and the ratio greedy algorithm.

The picks of the algorithm are only required to have the best gain per unit of
cost at the moment they are made.  The bound compares them with an arbitrary set
that respects the budget, and the picks may overshoot it.
-/

import Mathlib.Analysis.SpecialFunctions.Exp
import Mathlib.Analysis.Complex.Exponential
import Mathlib.Algebra.BigOperators.Group.Finset.Basic
import Mathlib.Algebra.Order.BigOperators.Group.Finset
import Mathlib.Tactic.Linarith
import Mathlib.Tactic.Ring
import Mathlib.Tactic.FieldSimp
import Mathlib.Tactic.Positivity

namespace Library

variable {ι : Type} [DecidableEq ι]

def marginal (value : Finset ι → ℝ) (chosen : Finset ι) (item : ι) : ℝ :=
  value (insert item chosen) - value chosen

/-- Normalised, monotone and with diminishing returns. -/
structure Submodular (value : Finset ι → ℝ) : Prop where
  empty : value ∅ = 0
  mono : ∀ small large, small ⊆ large → value small ≤ value large
  diminishing : ∀ small large item, small ⊆ large → item ∉ large →
    marginal value large item ≤ marginal value small item

namespace Submodular

variable {value : Finset ι → ℝ}

theorem nonneg (submodular : Submodular value) (chosen : Finset ι) : 0 ≤ value chosen := by
  rw [← submodular.empty]
  exact submodular.mono ∅ chosen (Finset.empty_subset chosen)

theorem union_le (submodular : Submodular value) (chosen others : Finset ι) :
    value (chosen ∪ others) ≤
      value chosen + ∑ item ∈ others \ chosen, marginal value chosen item := by
  induction others using Finset.induction_on with
  | empty => simp
  | insert item rest fresh ih =>
      by_cases already : item ∈ chosen
      · rw [Finset.union_insert, Finset.insert_eq_of_mem (Finset.mem_union_left rest already),
          Finset.insert_sdiff_of_mem rest already]
        exact ih
      · have outside : item ∉ chosen ∪ rest := by
          rw [Finset.mem_union]
          exact fun either => either.elim already fresh
        have step := submodular.diminishing chosen (chosen ∪ rest) item
          Finset.subset_union_left outside
        have separate : item ∉ rest \ chosen := fun inside => fresh (Finset.mem_sdiff.mp inside).1
        rw [Finset.union_insert, Finset.insert_sdiff_of_notMem rest already,
          Finset.sum_insert separate]
        unfold marginal at step ih ⊢
        linarith

end Submodular

/-- In every prefix of `picks` the next pick has the best gain per unit of cost
among the available items that are not picked yet. -/
def BestRatio (value : Finset ι → ℝ) (cost : ι → ℝ) (available : Finset ι)
    (picks : List ι) : Prop :=
  ∀ before pick after, picks = before ++ pick :: after →
    ∀ other ∈ available, other ∉ before →
      marginal value before.toFinset other * cost pick ≤
        marginal value before.toFinset pick * cost other

theorem BestRatio.of_append {value : Finset ι → ℝ} {cost : ι → ℝ} {available : Finset ι}
    {picks more : List ι} (best : BestRatio value cost available (picks ++ more)) :
    BestRatio value cost available picks := by
  intro before pick after split
  apply best before pick (after ++ more)
  rw [split, List.append_assoc, List.cons_append]

theorem BestRatio.nil {value : Finset ι → ℝ} {cost : ι → ℝ} {available : Finset ι} :
    BestRatio value cost available [] := by
  intro before pick after split
  cases before with
  | nil => cases split
  | cons head rest => cases split

theorem BestRatio.concat {value : Finset ι → ℝ} {cost : ι → ℝ} {available : Finset ι}
    {picks : List ι} {last : ι} (best : BestRatio value cost available picks)
    (bestLast : ∀ other ∈ available, other ∉ picks →
      marginal value picks.toFinset other * cost last ≤
        marginal value picks.toFinset last * cost other) :
    BestRatio value cost available (picks ++ [last]) := by
  intro before pick after split
  rcases List.eq_nil_or_concat after with rfl | ⟨earlier, final, rfl⟩
  · obtain ⟨rfl, same⟩ := List.append_inj' split rfl
    obtain rfl := List.singleton_inj.mp same
    exact bestLast
  · rw [List.concat_eq_append, ← List.cons_append, ← List.append_assoc] at split
    obtain ⟨same, _lastSame⟩ := List.append_inj' split rfl
    exact best before pick earlier same

section Guarantee

variable {value : Finset ι → ℝ} {cost : ι → ℝ} {available target : Finset ι} {budget : ℝ}

/-- One pick closes at least the share `cost pick / budget` of the gap. -/
theorem gap_step (submodular : Submodular value) (costNonneg : ∀ item, 0 ≤ cost item)
    (inside : target ⊆ available)
    (affordable : ∑ item ∈ target, cost item ≤ budget) (chosen : Finset ι) (pick : ι)
    (best : ∀ other ∈ available, other ∉ chosen →
      marginal value chosen other * cost pick ≤ marginal value chosen pick * cost other) :
    cost pick * (value target - value chosen) ≤ budget * marginal value chosen pick := by
  have gainNonneg : 0 ≤ marginal value chosen pick := by
    unfold marginal
    have grows := submodular.mono chosen (insert pick chosen) (Finset.subset_insert pick chosen)
    linarith
  have covered : value target ≤ value (chosen ∪ target) :=
    submodular.mono target _ Finset.subset_union_right
  have spread := submodular.union_le chosen target
  have gains : cost pick * ∑ item ∈ target \ chosen, marginal value chosen item ≤
      marginal value chosen pick * ∑ item ∈ target \ chosen, cost item := by
    rw [Finset.mul_sum, Finset.mul_sum]
    apply Finset.sum_le_sum
    intro item member
    rcases Finset.mem_sdiff.mp member with ⟨inTarget, notChosen⟩
    rw [mul_comm (cost pick)]
    exact best item (inside inTarget) notChosen
  have costs : ∑ item ∈ target \ chosen, cost item ≤ budget := by
    have fewer : ∑ item ∈ target \ chosen, cost item ≤ ∑ item ∈ target, cost item :=
      Finset.sum_le_sum_of_subset_of_nonneg Finset.sdiff_subset
        (fun item _ _ => costNonneg item)
    exact fewer.trans affordable
  calc cost pick * (value target - value chosen)
      ≤ cost pick * ∑ item ∈ target \ chosen, marginal value chosen item := by
        apply mul_le_mul_of_nonneg_left _ (costNonneg pick)
        linarith
    _ ≤ marginal value chosen pick * ∑ item ∈ target \ chosen, cost item := gains
    _ ≤ marginal value chosen pick * budget := mul_le_mul_of_nonneg_left costs gainNonneg
    _ = budget * marginal value chosen pick := mul_comm _ _

/-- After any number of greedy picks the gap has shrunk exponentially in the
money spent. -/
theorem gap_le_exp (submodular : Submodular value) (costNonneg : ∀ item, 0 ≤ cost item)
    (budgetPositive : 0 < budget) (inside : target ⊆ available)
    (affordable : ∑ item ∈ target, cost item ≤ budget) (picks : List ι)
    (best : BestRatio value cost available picks) :
    value target - value picks.toFinset ≤
      Real.exp (-((picks.map cost).sum / budget)) * value target := by
  induction picks using List.reverseRecOn with
  | nil => simp [submodular.empty]
  | append_singleton before pick ih =>
      have gapBefore := ih best.of_append
      have step := gap_step submodular costNonneg inside affordable
        before.toFinset pick (by
          intro other isAvailable notBefore
          exact best before pick [] rfl other isAvailable
            (fun present => notBefore (List.mem_toFinset.mpr present)))
      have grown : (before ++ [pick]).toFinset = insert pick before.toFinset := by
        ext item
        simp
      have spent : ((before ++ [pick]).map cost).sum = (before.map cost).sum + cost pick := by
        simp
      have targetNonneg := submodular.nonneg target
      have share : cost pick / budget * (value target - value before.toFinset) ≤
          marginal value before.toFinset pick := by
        rw [div_mul_eq_mul_div, div_le_iff₀ budgetPositive, mul_comm (marginal _ _ _)]
        exact step
      rw [grown, spent]
      by_cases reached : value target - value before.toFinset ≤ 0
      · have grows := submodular.mono _ _ (Finset.subset_insert pick before.toFinset)
        have bound : 0 ≤ Real.exp (-(((before.map cost).sum + cost pick) / budget)) *
            value target := mul_nonneg (Real.exp_nonneg _) targetNonneg
        linarith
      · have gapNonneg : 0 ≤ value target - value before.toFinset := by linarith
        have linear : 1 - cost pick / budget ≤ Real.exp (-(cost pick / budget)) := by
          have tangent := Real.add_one_le_exp (-(cost pick / budget))
          linarith
        calc value target - value (insert pick before.toFinset)
            = (value target - value before.toFinset) -
                marginal value before.toFinset pick := by unfold marginal; ring
          _ ≤ (1 - cost pick / budget) * (value target - value before.toFinset) := by linarith
          _ ≤ Real.exp (-(cost pick / budget)) * (value target - value before.toFinset) :=
              mul_le_mul_of_nonneg_right linear gapNonneg
          _ ≤ Real.exp (-(cost pick / budget)) *
                (Real.exp (-((before.map cost).sum / budget)) * value target) :=
              mul_le_mul_of_nonneg_left gapBefore (Real.exp_nonneg _)
          _ = Real.exp (-(((before.map cost).sum + cost pick) / budget)) * value target := by
              rw [← mul_assoc, ← Real.exp_add]
              congr 2
              ring

/-- The guarantee once the budget is spent. -/
theorem ratioGreedy_guarantee (submodular : Submodular value) (costNonneg : ∀ item, 0 ≤ cost item)
    (budgetPositive : 0 < budget) (inside : target ⊆ available)
    (affordable : ∑ item ∈ target, cost item ≤ budget) (picks : List ι)
    (best : BestRatio value cost available picks) (spent : budget ≤ (picks.map cost).sum) :
    (1 - (Real.exp 1)⁻¹) * value target ≤ value picks.toFinset := by
  have gap := gap_le_exp submodular costNonneg budgetPositive inside affordable picks best
  have targetNonneg := submodular.nonneg target
  have ratio : 1 ≤ (picks.map cost).sum / budget := (one_le_div budgetPositive).mpr spent
  have shrunk : Real.exp (-((picks.map cost).sum / budget)) ≤ (Real.exp 1)⁻¹ := by
    rw [← Real.exp_neg]
    apply Real.exp_le_exp.mpr
    linarith
  have product := mul_le_mul_of_nonneg_right shrunk targetNonneg
  linarith

end Guarantee

end Library
