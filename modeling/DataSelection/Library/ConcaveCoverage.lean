/-
Weighted sums of a concave function of modular functions.

Such a sum is monotone and submodular: what an item adds to a feature is fixed,
and a concave function rises less from a higher starting point.
-/

import DataSelection.Library.SubmodularGreedy
import Mathlib.Analysis.Convex.SpecificFunctions.Pow
import Mathlib.Analysis.Convex.Slope

namespace Library

/-- A normalised, non-decreasing, concave function of non-negative arguments. -/
structure Saturating (φ : ℝ → ℝ) : Prop where
  zero : φ 0 = 0
  mono : ∀ low high, 0 ≤ low → low ≤ high → φ low ≤ φ high
  concave : ConcaveOn ℝ (Set.Ici 0) φ

/-- A concave function rises less from a higher starting point. -/
theorem Saturating.increment_anti {φ : ℝ → ℝ} (saturating : Saturating φ)
    {low high rise : ℝ} (lowNonneg : 0 ≤ low) (ordered : low ≤ high) (riseNonneg : 0 ≤ rise) :
    φ (high + rise) - φ high ≤ φ (low + rise) - φ low := by
  rcases eq_or_lt_of_le riseNonneg with rfl | risePositive
  · simp
  · -- `high` and `low + rise` are mirrored mixtures of the two outer points
    have widthPositive : 0 < high - low + rise := by linarith
    have inLow : low ∈ Set.Ici (0 : ℝ) := lowNonneg
    have inTop : high + rise ∈ Set.Ici (0 : ℝ) := by
      rw [Set.mem_Ici]
      linarith
    have shareNonneg : 0 ≤ rise / (high - low + rise) := by positivity
    have otherNonneg : 0 ≤ (high - low) / (high - low + rise) :=
      div_nonneg (by linarith) widthPositive.le
    have sharesSum : rise / (high - low + rise) + (high - low) / (high - low + rise) = 1 := by
      field_simp
      ring
    have first := saturating.concave.2 inLow inTop shareNonneg otherNonneg sharesSum
    have second := saturating.concave.2 inLow inTop otherNonneg shareNonneg
      ((add_comm _ _).trans sharesSum)
    have middle : rise / (high - low + rise) * low +
        (high - low) / (high - low + rise) * (high + rise) = high := by
      field_simp
      ring
    have mirrored : (high - low) / (high - low + rise) * low +
        rise / (high - low + rise) * (high + rise) = low + rise := by
      field_simp
      ring
    simp only [smul_eq_mul] at first second
    rw [middle] at first
    rw [mirrored] at second
    have total : (rise / (high - low + rise) * φ low +
        (high - low) / (high - low + rise) * φ (high + rise)) +
        ((high - low) / (high - low + rise) * φ low +
        rise / (high - low + rise) * φ (high + rise)) = φ low + φ (high + rise) := by
      calc _ = (rise / (high - low + rise) + (high - low) / (high - low + rise)) *
            (φ low + φ (high + rise)) := by ring
        _ = φ low + φ (high + rise) := by rw [sharesSum, one_mul]
    linarith

theorem saturating_sqrt : Saturating Real.sqrt :=
  { zero := Real.sqrt_zero
    mono := fun _ _ _ ordered => Real.sqrt_le_sqrt ordered
    concave := Real.strictConcaveOn_sqrt.concaveOn }

variable {ι υ : Type} [DecidableEq ι]

/-- The value of a set of items over a list of weighted features. -/
def coverage (φ : ℝ → ℝ) (features : List υ) (weight : υ → ℝ) (relevance : υ → ι → ℝ)
    (chosen : Finset ι) : ℝ :=
  (features.map (fun feature =>
    weight feature * φ (∑ item ∈ chosen, relevance feature item))).sum

theorem marginal_coverage (φ : ℝ → ℝ) (features : List υ) (weight : υ → ℝ)
    (relevance : υ → ι → ℝ) (chosen : Finset ι) {item : ι} (fresh : item ∉ chosen) :
    marginal (coverage φ features weight relevance) chosen item =
      (features.map (fun feature => weight feature *
        (φ (∑ other ∈ chosen, relevance feature other + relevance feature item) -
          φ (∑ other ∈ chosen, relevance feature other)))).sum := by
  induction features with
  | nil => simp [marginal, coverage]
  | cons feature rest ih =>
      unfold marginal coverage at ih ⊢
      simp only [List.map_cons, List.sum_cons]
      rw [← ih, Finset.sum_insert fresh, add_comm (relevance feature item)]
      ring

theorem coverage_submodular {φ : ℝ → ℝ} (saturating : Saturating φ) (features : List υ)
    {weight : υ → ℝ} (weightNonneg : ∀ feature ∈ features, 0 ≤ weight feature)
    {relevance : υ → ι → ℝ}
    (relevanceNonneg : ∀ feature ∈ features, ∀ item, 0 ≤ relevance feature item) :
    Submodular (coverage φ features weight relevance) := by
  have totalNonneg (chosen : Finset ι) : ∀ feature ∈ features,
      0 ≤ ∑ item ∈ chosen, relevance feature item :=
    fun feature member => Finset.sum_nonneg (fun item _ => relevanceNonneg feature member item)
  have totalMono (small large : Finset ι) (inside : small ⊆ large) : ∀ feature ∈ features,
      ∑ item ∈ small, relevance feature item ≤ ∑ item ∈ large, relevance feature item :=
    fun feature member => Finset.sum_le_sum_of_subset_of_nonneg inside
      (fun item _ _ => relevanceNonneg feature member item)
  refine ⟨?_, ?_, ?_⟩
  · simp [coverage, saturating.zero]
  · intro small large inside
    apply List.sum_le_sum
    intro feature member
    apply mul_le_mul_of_nonneg_left _ (weightNonneg feature member)
    exact saturating.mono _ _ (totalNonneg small feature member)
      (totalMono small large inside feature member)
  · intro small large item inside fresh
    rw [marginal_coverage φ features weight relevance large fresh,
      marginal_coverage φ features weight relevance small (fun present => fresh (inside present))]
    apply List.sum_le_sum
    intro feature member
    apply mul_le_mul_of_nonneg_left _ (weightNonneg feature member)
    exact saturating.increment_anti (totalNonneg small feature member)
      (totalMono small large inside feature member) (relevanceNonneg feature member item)

end Library
