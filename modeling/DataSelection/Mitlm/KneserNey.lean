/-
Smoothed models are probability models.

What an order takes off the counts behind a history is the weight of the order below, so the
probabilities behind a history add up if those of the order below do.  A discount never is
larger than its count, whatever the parameters that are accepted.
-/

import DataSelection.Library.BackOff
import DataSelection.Mitlm.CorpusCounts
import DataSelection.Mitlm.Smoothing
import Mathlib.Algebra.BigOperators.Group.Finset.Piecewise
import Mathlib.Algebra.Order.Field.Basic
import Mathlib.Tactic.Linarith

namespace Mitlm

open Library

namespace KneserNeySmoothing

/-! ### Discounts -/

/-- No discount is negative or larger than the count that it belongs to. -/
def Bounded (discParams : List (Option Rat)) : Prop :=
  ∀ (i : Nat) disc, discParams.getD i none = some disc → 0 ≤ disc ∧ disc ≤ i

theorem clip_bounds {disc upper : Rat} (positive : 0 ≤ upper) :
    0 ≤ (if (if disc < 0 then 0 else disc) > upper then upper else if disc < 0 then 0 else disc) ∧
      (if (if disc < 0 then 0 else disc) > upper then upper else if disc < 0 then 0 else disc) ≤
        upper := by
  have atLeast : 0 ≤ if disc < 0 then 0 else disc := by
    split
    · exact le_refl _
    · next notLess => exact le_of_not_gt notLess
  generalize (if disc < 0 then 0 else disc) = raised at atLeast
  split
  · exact ⟨positive, le_refl _⟩
  · next within => exact ⟨atLeast, le_of_not_gt within⟩

theorem discParam_bounds {n : List Nat} {i : Nat} {disc : Rat} (isDisc : discParam n i = some disc) :
    0 ≤ disc ∧ disc ≤ i := by
  rw [discParam] at isDisc
  split at isDisc
  · cases isDisc
    exact ⟨Nat.cast_nonneg i, le_refl _⟩
  · split at isDisc
    · cases isDisc
    · rw [← Option.some.inj isDisc]
      exact clip_bounds (Nat.cast_nonneg i)

theorem bounded_of_listed {discOrder : Nat} {disc : Nat → Option Rat}
    (each : ∀ i < discOrder, ∀ value, disc i = some value → 0 ≤ value ∧ value ≤ (i + 1 : Nat)) :
    Bounded (some 0 :: (List.range discOrder).map disc) := by
  intro i value isValue
  cases i with
  | zero =>
      cases isValue
      exact ⟨le_refl _, le_of_eq Nat.cast_zero.symm⟩
  | succ i =>
      rw [List.getD_cons_succ, List.getD_eq_getElem?_getD, List.getElem?_map] at isValue
      by_cases inside : i < discOrder
      · rw [List.getElem?_range inside] at isValue
        exact each i inside value isValue
      · rw [List.getElem?_eq_none (by rw [List.length_range]; omega)] at isValue
        cases isValue

variable {smoothing : KneserNeySmoothing}

theorem bounded_initializeOrder {lowerSize : Nat} {level : Level} {backoffs : List Nat}
    {higher : Option (Level × List Nat)} :
    Bounded (smoothing.initializeOrder lowerSize level backoffs higher).discParams :=
  bounded_of_listed (fun _ _ _ isValue => discParam_bounds isValue)

theorem bounded_unpack {initialized : Initialized} (bounded : Bounded initialized.discParams)
    {params : List Rat} {discParams : List (Option Rat)}
    (unpacked : smoothing.unpack initialized params = some discParams) : Bounded discParams := by
  rw [unpack] at unpacked
  split at unpacked
  · split at unpacked
    · next inBounds =>
        cases unpacked
        refine bounded_of_listed ?_
        intro i inside value isValue
        cases isValue
        have here := List.all_eq_true.mp inBounds i (List.mem_range.mpr inside)
        rw [Bool.and_eq_true, Bool.not_eq_true', Bool.not_eq_true', decide_eq_false_iff_not,
          decide_eq_false_iff_not] at here
        rw [Nat.cast_succ]
        exact ⟨le_of_not_gt here.1, le_of_not_gt here.2⟩
    · cases unpacked
  · cases unpacked
    exact bounded

theorem discounts_spec {discParams : List (Option Rat)} (bounded : Bounded discParams)
    {effCounts : List Nat} {discounted : List Rat}
    (ran : smoothing.discounts discParams effCounts = some discounted) :
    effCounts.length = discounted.length ∧
      ∀ index, 0 ≤ discounted.getD index 0 ∧ discounted.getD index 0 ≤ effCounts.getD index 0 := by
  rw [discounts] at ran
  induction effCounts generalizing discounted with
  | nil =>
      obtain rfl := Option.some.inj ran
      refine ⟨rfl, ?_⟩
      intro index
      exact ⟨le_refl _, Nat.cast_nonneg _⟩
  | cons effCount effCounts ih =>
      rw [List.mapM_cons] at ran
      obtain ⟨disc, isDisc, ranLater⟩ := Option.bind_eq_some_iff.mp ran
      obtain ⟨later, isLater, isAll⟩ := Option.bind_eq_some_iff.mp ranLater
      cases isAll
      obtain ⟨sameLength, each⟩ := ih isLater
      refine ⟨congrArg Nat.succ sameLength, ?_⟩
      intro index
      cases index with
      | zero =>
          obtain ⟨atLeast, atMost⟩ := bounded _ _ isDisc
          exact ⟨atLeast, le_trans atMost (Nat.cast_le.mpr (Nat.min_le_left _ _))⟩
      | succ index => exact each index

/-! ### Histories -/

theorem length_leftBranches (size : Nat) (hoCounts hoBackoffs : List Nat) :
    (leftBranches size hoCounts hoBackoffs).length = size := by
  have kept : ∀ (pairs : List (Nat × Nat)) (start : List Nat),
      (pairs.foldl (fun effCounts pair =>
        if pair.1 > 0 then effCounts.modify pair.2 (· + 1) else effCounts) start).length =
          start.length := by
    intro pairs
    induction pairs with
    | nil => exact fun start => rfl
    | cons pair pairs ih =>
        intro start
        rw [List.foldl_cons, ih]
        split
        · exact List.length_modify _ _ _
        · rfl
  rw [leftBranches, kept, List.length_replicate]

theorem length_effCounts {level : Level} (exact : level.counts.length = level.vector.size)
    (higher : Option (Level × List Nat)) :
    (effCounts level higher).length = level.vector.size := by
  cases higher with
  | none => exact exact
  | some higher =>
      rw [effCounts, List.length_zipWith, length_leftBranches, exact, Nat.min_self]

theorem effCounts_pos {level : Level} (exact : level.counts.length = level.vector.size)
    (higher : Option (Level × List Nat)) {index : Nat} (counted : 0 < level.counts.getD index 0) :
    0 < (effCounts level higher).getD index 0 := by
  cases higher with
  | none => exact counted
  | some higher =>
      have inside : index < level.counts.length := by
        by_contra outside
        rw [List.getD_eq_getElem?_getD, List.getElem?_eq_none (Nat.le_of_not_lt outside)] at counted
        cases counted
      have isBranch := List.getElem?_eq_getElem
        (show index < (leftBranches level.vector.size higher.1.counts higher.2).length by
          rw [length_leftBranches, ← exact]
          exact inside)
      rw [List.getD_eq_getElem?_getD, List.getElem?_eq_getElem inside] at counted
      rw [effCounts, List.getD_eq_getElem?_getD, List.getElem?_zipWith, isBranch,
        List.getElem?_eq_getElem inside]
      show 0 < if _ = 0 then _ else _
      split
      · exact counted
      · next branched => exact Nat.pos_of_ne_zero branched

section

variable {lowerSize hist : Nat} {hists counts : List Nat} (inside : hist < lowerSize)

include inside

theorem getElem?_invHistCounts (sameLength : hists.length = counts.length) {histCount : Nat}
    (isHistCount : binSum hists hist (fun place => counts.getD place 0) = histCount) :
    (invHistCounts lowerSize hists counts)[hist]? =
      some (if histCount = 0 then 0 else 1 / (histCount : Rat)) := by
  rw [invHistCounts, List.getElem?_map, getElem?_binWeight sameLength inside, isHistCount,
    Option.map_some]

theorem getElem?_backoffWeights {initialized : Initialized} (isHists : initialized.hists = hists)
    (isLength : initialized.invHistCounts.length = lowerSize) {discounted : List Rat}
    (sameLength : hists.length = discounted.length) {inverse : Rat}
    (isInverse : initialized.invHistCounts[hist]? = some inverse) :
    (backoffWeights initialized discounted)[hist]? =
      some (if inverse = 0 then 1
        else binSum hists hist (fun place => discounted.getD place 0) * inverse) := by
  rw [backoffWeights, isHists, isLength, List.getElem?_zipWith, isInverse,
    getElem?_binWeight sameLength inside]

end

/-- What is taken off the counts of a history is its weight. -/
theorem mass_of_history {hists : List Nat} {hist : Nat} {counts : Nat → Nat}
    {discounted own : Nat → Rat} (each : ∀ place, 0 ≤ discounted place ∧ discounted place ≤ counts place)
    {histCount : Nat} (isHistCount : binSum hists hist counts = histCount) {inverse weight : Rat}
    (isInverse : inverse = if histCount = 0 then 0 else 1 / (histCount : Rat))
    (isWeight : weight = if inverse = 0 then 1 else binSum hists hist discounted * inverse)
    (isOwn : ∀ place, hists.getD place 0 = hist → own place =
      if counts place = 0 then 0 else (counts place - discounted place) * inverse) :
    binSum hists hist own + weight = 1 := by
  have shares : binSum hists hist own = (histCount - binSum hists hist discounted) * inverse := by
    rw [← isHistCount, binSum, binSum, binSum, Nat.cast_sum, ← Finset.sum_sub_distrib,
      Finset.sum_mul]
    refine Finset.sum_congr rfl ?_
    intro place _
    split
    · next here =>
        rw [isOwn place here]
        split
        · next isZero =>
            obtain ⟨atLeast, atMost⟩ := each place
            rw [isZero, Nat.cast_zero] at atMost
            rw [isZero, le_antisymm atMost atLeast, Nat.cast_zero, sub_zero, zero_mul]
        · rfl
    · rw [Nat.cast_zero, sub_zero, zero_mul]
  rw [shares, isWeight]
  by_cases unused : histCount = 0
  · rw [if_pos unused] at isInverse
    rw [if_pos isInverse, isInverse, mul_zero, zero_add]
  · rw [if_neg unused] at isInverse
    have filled : (histCount : Rat) ≠ 0 := Nat.cast_ne_zero.mpr unused
    rw [if_neg (isInverse ▸ one_div_ne_zero filled), ← add_mul, sub_add_cancel, isInverse,
      mul_one_div_cancel filled]

/-! ### Orders -/

/-- What an order gives its n-grams beside their share of the order below. -/
structure Shares (level : Level) (lowerSize : Nat) (backoffs : List Nat)
    (boProbs probs bows : List Rat) (own : Nat → Rat) : Prop where
  lengthProbs : probs.length = level.vector.size
  lengthBows : bows.length = lowerSize
  own_nonneg : ∀ index, 0 ≤ own index
  bows_nonneg : ∀ hist, 0 ≤ bows.getD hist 1
  shares : ∀ (index : Nat) hist word, level.vector.entries[index]? = some (hist, word) →
    probs.getD index 0 =
      own index + boProbs.getD (backoffs.getD index 0) 0 * bows.getD hist 1
  mass : ∀ hist < lowerSize,
    binSum (level.vector.entries.map Prod.fst) hist own + bows.getD hist 1 = 1

section

variable {level : Level} {initialized : Initialized} {lowerSize : Nat} {discounted : List Rat}
  (isHists : initialized.hists = level.vector.entries.map Prod.fst)
  (isInverse : initialized.invHistCounts =
    invHistCounts lowerSize initialized.hists initialized.effCounts)
  (isSize : initialized.effCounts.length = level.vector.size)
  (sameLength : initialized.effCounts.length = discounted.length)
  (each : ∀ index, 0 ≤ discounted.getD index 0 ∧
    discounted.getD index 0 ≤ initialized.effCounts.getD index 0)
  (inside : ∀ ngram ∈ level.vector.entries, ngram.1 < lowerSize)

include isHists isInverse isSize sameLength

/-- The weight of a history is what the counts behind it lose. -/
theorem weight_of_history {hist : Nat} (isHist : hist < lowerSize) :
    ∃ inverse, initialized.invHistCounts[hist]? = some inverse ∧ 0 ≤ inverse ∧
      ∃ histCount, binSum initialized.hists hist
          (fun place => initialized.effCounts.getD place 0) = histCount ∧
        inverse = (if histCount = 0 then 0 else 1 / (histCount : Rat)) ∧
        (backoffWeights initialized discounted)[hist]? =
          some (if inverse = 0 then 1
            else binSum initialized.hists hist (fun place => discounted.getD place 0) * inverse) := by
  have lengthHists : initialized.hists.length = initialized.effCounts.length := by
    rw [isHists, List.length_map, isSize, HashVector.size]
  have lengthInverse : initialized.invHistCounts.length = lowerSize := by
    rw [isInverse, invHistCounts, List.length_map, length_binWeight, List.length_replicate]
  have isInv := getElem?_invHistCounts isHist lengthHists rfl
  rw [← isInverse] at isInv
  refine ⟨_, isInv, ?_, _, rfl, rfl,
    getElem?_backoffWeights isHist rfl lengthInverse (lengthHists.trans sameLength) isInv⟩
  split
  · exact le_refl _
  · exact one_div_nonneg.mpr (Nat.cast_nonneg _)

include each inside

theorem interpolate_shares {isUnigram : Bool} {boProbs : List Rat}
    (counted : isUnigram = true → ∀ index < level.vector.size,
      0 < initialized.effCounts.getD index 0) :
    Shares level lowerSize initialized.backoffs boProbs
      ((List.range initialized.effCounts.length).map
        (interpolate isUnigram initialized discounted boProbs (backoffWeights initialized discounted)))
      (backoffWeights initialized discounted)
      (fun index => if initialized.effCounts.getD index 0 = 0 then 0
        else (initialized.effCounts.getD index 0 - discounted.getD index 0) *
          initialized.invHistCounts.getD (initialized.hists.getD index 0) 0) := by
  have weights := fun hist (isHist : hist < lowerSize) =>
    weight_of_history isHists isInverse isSize sameLength isHist
  have lengthInverse : initialized.invHistCounts.length = lowerSize := by
    rw [isInverse, invHistCounts, List.length_map, length_binWeight, List.length_replicate]
  have lengthBows : (backoffWeights initialized discounted).length = lowerSize := by
    rw [backoffWeights, List.length_zipWith, length_binWeight, List.length_replicate, Nat.min_self,
      lengthInverse]
  constructor
  · rw [List.length_map, List.length_range, isSize]
  · exact lengthBows
  · intro index
    split
    · exact le_refl _
    · refine mul_nonneg (sub_nonneg.mpr (each index).2) ?_
      by_cases isHist : initialized.hists.getD index 0 < lowerSize
      · obtain ⟨inverse, isInv, nonneg, _⟩ := weights _ isHist
        rw [getD_of_getElem? isInv]
        exact nonneg
      · rw [List.getD_eq_getElem?_getD, List.getElem?_eq_none (by omega), Option.getD_none]
  · intro hist
    by_cases isHist : hist < lowerSize
    · obtain ⟨inverse, _, nonneg, _, _, _, isWeight⟩ := weights hist isHist
      rw [getD_of_getElem? isWeight]
      split
      · exact zero_le_one
      · refine mul_nonneg (Finset.sum_nonneg ?_) nonneg
        intro place _
        split
        · exact (each place).1
        · exact le_refl _
    · rw [List.getD_eq_getElem?_getD, List.getElem?_eq_none (by omega), Option.getD_none]
      exact zero_le_one
  · intro index hist word isEntry
    have isIndex : index < initialized.effCounts.length := by
      rw [isSize]
      exact (List.getElem?_eq_some_iff.mp isEntry).1
    have isHist : initialized.hists.getD index 0 = hist := by
      rw [isHists, List.getD_eq_getElem?_getD, List.getElem?_map, isEntry]
      rfl
    obtain ⟨_, _, _, _, _, _, isWeight⟩ := weights hist (inside _ (List.mem_of_getElem? isEntry))
    rw [List.getD_eq_getElem?_getD, List.getElem?_map, List.getElem?_range isIndex, Option.map_some,
      Option.getD_some, interpolate, isHist, getD_of_getElem? isWeight, getD_of_getElem? isWeight]
    refine if_neg ?_
    intro unused
    rw [Bool.and_eq_true, decide_eq_true_eq] at unused
    have positive := counted unused.1 index (isSize ▸ isIndex)
    omega
  · intro hist isHist
    obtain ⟨inverse, isInv, _, histCount, isCount, isValue, isWeight⟩ := weights hist isHist
    rw [getD_of_getElem? isWeight, ← isHists]
    refine mass_of_history each isCount isValue rfl ?_
    intro place here
    rw [here, getD_of_getElem? isInv]

end

/-- The estimation of an order, the first of which has counts for all of its words. -/
theorem estimate_shares {smoothing : KneserNeySmoothing} {isUnigram : Bool} {lowerSize : Nat}
    {level : Level} {backoffs : List Nat} {higher : Option (Level × List Nat)}
    (viewed : level.hists = level.vector.entries.map Prod.fst)
    (exact : level.counts.length = level.vector.size)
    (inside : ∀ ngram ∈ level.vector.entries, ngram.1 < lowerSize)
    (counted : isUnigram = true → ∀ index < level.vector.size, 0 < level.counts.getD index 0)
    {params boProbs probs bows : List Rat}
    (ran : smoothing.estimate isUnigram
      (smoothing.initializeOrder lowerSize level backoffs higher) params boProbs =
        some (probs, bows)) :
    ∃ own, Shares level lowerSize backoffs boProbs probs bows own := by
  obtain ⟨discParams, unpacked, ranDiscounts⟩ := Option.bind_eq_some_iff.mp ran
  obtain ⟨discounted, isDiscounted, isAll⟩ := Option.bind_eq_some_iff.mp ranDiscounts
  obtain ⟨sameLength, each⟩ :=
    discounts_spec (bounded_unpack bounded_initializeOrder unpacked) isDiscounted
  cases isAll
  have shares := @interpolate_shares level
    (smoothing.initializeOrder lowerSize level backoffs higher) lowerSize discounted viewed rfl
    (length_effCounts exact higher) sameLength each inside isUnigram boProbs
    (fun first index isIndex => effCounts_pos exact higher (counted first index isIndex))
  exact ⟨_, shares⟩

theorem le_binSum {K : Type} [AddCommMonoid K] [PartialOrder K] [IsOrderedAddMonoid K]
    {indices : List Nat} {bin place : Nat} (weight : Nat → K) (nonneg : ∀ other, 0 ≤ weight other)
    (isBin : indices[place]? = some bin) : weight place ≤ binSum indices bin weight := by
  have inside := (List.getElem?_eq_some_iff.mp isBin).1
  have isTerm : (if indices.getD place 0 = bin then weight place else 0) = weight place := by
    rw [List.getD_eq_getElem?_getD, isBin, Option.getD_some, if_pos rfl]
  rw [← isTerm, binSum]
  refine Finset.single_le_sum (f := fun other => if indices.getD other 0 = bin then weight other else 0)
    ?_ (Finset.mem_range.mpr inside)
  intro other _
  split
  · exact nonneg other
  · exact le_refl _

/-- An n-gram with a count is likely if its backoff is: it keeps a part of its count, or its history
has all that it lost. -/
theorem estimate_pos {smoothing : KneserNeySmoothing} {isUnigram : Bool} {lowerSize : Nat}
    {level : Level} {backoffs : List Nat} {higher : Option (Level × List Nat)}
    (viewed : level.hists = level.vector.entries.map Prod.fst)
    (exact : level.counts.length = level.vector.size)
    (inside : ∀ ngram ∈ level.vector.entries, ngram.1 < lowerSize)
    {params boProbs probs bows : List Rat}
    (ran : smoothing.estimate isUnigram
      (smoothing.initializeOrder lowerSize level backoffs higher) params boProbs =
        some (probs, bows)) {index : Nat} (counted : 0 < level.counts.getD index 0)
    (isIndex : index < level.vector.size)
    (likely : 0 < boProbs.getD (backoffs.getD index 0) 0) : 0 < probs.getD index 0 := by
  obtain ⟨discParams, unpacked, ranDiscounts⟩ := Option.bind_eq_some_iff.mp ran
  obtain ⟨discounted, isDiscounted, isAll⟩ := Option.bind_eq_some_iff.mp ranDiscounts
  obtain ⟨sameLength, each⟩ :=
    discounts_spec (bounded_unpack bounded_initializeOrder unpacked) isDiscounted
  cases isAll
  obtain ⟨initialized, isInitialized⟩ : ∃ initialized,
      initialized = smoothing.initializeOrder lowerSize level backoffs higher := ⟨_, rfl⟩
  rw [← isInitialized] at each sameLength ⊢
  have isHists : initialized.hists = level.vector.entries.map Prod.fst := by
    rw [isInitialized]
    exact viewed
  have isSize : initialized.effCounts.length = level.vector.size := by
    rw [isInitialized]
    exact length_effCounts exact higher
  have isBackoffs : initialized.backoffs = backoffs := by rw [isInitialized]; rfl
  have positive : 0 < initialized.effCounts.getD index 0 := by
    rw [isInitialized]
    exact effCounts_pos exact higher counted
  obtain ⟨ngram, isEntry⟩ : ∃ ngram, level.vector.entries[index]? = some ngram :=
    ⟨_, List.getElem?_eq_getElem isIndex⟩
  have isHist : initialized.hists[index]? = some ngram.1 := by
    rw [isHists, List.getElem?_map, isEntry]
    rfl
  obtain ⟨inverse, isInverse, _, histCount, isCount, isValue, isWeight⟩ :=
    weight_of_history isHists (by rw [isInitialized]; rfl) isSize sameLength
      (inside ngram (List.mem_of_getElem? isEntry))
  have hasCount : 0 < histCount := by
    have atLeast := le_binSum (fun place => initialized.effCounts.getD place 0)
      (fun _ => Nat.zero_le _) isHist
    omega
  have inversePos : 0 < inverse := by
    rw [isValue, if_neg hasCount.ne']
    exact one_div_pos.mpr (Nat.cast_pos.mpr hasCount)
  rw [if_neg inversePos.ne'] at isWeight
  have isProb : ((List.range initialized.effCounts.length).map (interpolate isUnigram initialized
      discounted boProbs (backoffWeights initialized discounted))).getD index 0 =
        (initialized.effCounts.getD index 0 - discounted.getD index 0) * inverse +
          boProbs.getD (backoffs.getD index 0) 0 *
            (binSum initialized.hists ngram.1 (fun place => discounted.getD place 0) * inverse) := by
    rw [List.getD_eq_getElem?_getD, List.getElem?_map, List.getElem?_range (by omega),
      Option.map_some, Option.getD_some, interpolate, isBackoffs, getD_of_getElem? isHist,
      getD_of_getElem? isInverse, getD_of_getElem? isWeight, if_neg positive.ne']
    refine if_neg ?_
    intro unused
    rw [Bool.and_eq_true, decide_eq_true_eq] at unused
    omega
  have weightNonneg := le_binSum (fun place => discounted.getD place 0)
    (fun place => (each place).1) isHist
  have lost := (each index).1
  rw [isProb]
  by_cases kept : discounted.getD index 0 < initialized.effCounts.getD index 0
  · refine add_pos_of_pos_of_nonneg (mul_pos (sub_pos.mpr kept) inversePos) ?_
    exact mul_nonneg likely.le (mul_nonneg (le_trans lost weightNonneg) inversePos.le)
  · have isAll : discounted.getD index 0 = initialized.effCounts.getD index 0 :=
      le_antisymm (each index).2 (le_of_not_gt kept)
    have weightPos : 0 < binSum initialized.hists ngram.1 (fun place => discounted.getD place 0) := by
      refine lt_of_lt_of_le ?_ weightNonneg
      rw [isAll]
      exact Nat.cast_pos.mpr positive
    rw [isAll, sub_self, zero_mul, zero_add]
    exact mul_pos likely (mul_pos weightPos inversePos)

/-! ### Parameters -/

theorem isInBounds_iff {params : List Rat} : smoothing.isInBounds params = true ↔
    ∀ i < smoothing.discOrder, 0 ≤ params.getD i 0 ∧ params.getD i 0 ≤ (i : Rat) + 1 := by
  rw [isInBounds, List.all_eq_true]
  simp only [List.mem_range, Bool.and_eq_true, Bool.not_eq_true', decide_eq_false_iff_not, not_lt,
    gt_iff_lt]

theorem exists_mapM {α β : Type} {f : α → Option β} {items : List α}
    (each : ∀ item ∈ items, ∃ value, f item = some value) : ∃ values, items.mapM f = some values := by
  induction items with
  | nil => exact ⟨[], rfl⟩
  | cons item items ih =>
      obtain ⟨value, isValue⟩ := each item List.mem_cons_self
      obtain ⟨values, areValues⟩ := ih (fun other member => each other (List.mem_cons_of_mem item member))
      refine ⟨value :: values, ?_⟩
      rw [List.mapM_cons, isValue, areValues]
      rfl

/-- Discounts that are parameters have a value for every count. -/
theorem exists_discounts_of_tuned (params : List Rat) (effCounts : List Nat) :
    ∃ discounted, smoothing.discounts
      (some 0 :: (List.range smoothing.discOrder).map (fun i => some (params.getD i 0))) effCounts =
        some discounted := by
  refine exists_mapM ?_
  intro effCount _
  cases isPlace : min effCount smoothing.discOrder with
  | zero => exact ⟨0, rfl⟩
  | succ place =>
      refine ⟨params.getD place 0, ?_⟩
      rw [List.getD_cons_succ, List.getD_eq_getElem?_getD, List.getElem?_map,
        List.getElem?_range (by omega)]
      rfl

theorem exists_discounts {initialized : Initialized} (defined : smoothing.IsDefined initialized)
    {params : List Rat} {discParams : List (Option Rat)}
    (unpacked : smoothing.unpack initialized params = some discParams) :
    ∃ discounted, smoothing.discounts discParams initialized.effCounts = some discounted := by
  cases tuned : smoothing.tuneParams with
  | true =>
      rw [unpack, if_pos tuned] at unpacked
      split at unpacked
      · cases unpacked
        exact exists_discounts_of_tuned params initialized.effCounts
      · cases unpacked
  | false =>
      rw [unpack, tuned, if_neg Bool.false_ne_true] at unpacked
      cases unpacked
      exact Option.isSome_iff_exists.mp (defined tuned)

/-- An order has an estimation for parameters in bounds, if its discounts are numbers. -/
theorem exists_estimate_iff {isUnigram : Bool} {initialized : Initialized}
    {params boProbs : List Rat} :
    (∃ vectors, smoothing.estimate isUnigram initialized params boProbs = some vectors) ↔
      (smoothing.tuneParams = true → smoothing.isInBounds params = true) ∧
        smoothing.IsDefined initialized := by
  constructor
  · intro ⟨vectors, ran⟩
    obtain ⟨discParams, unpacked, ranDiscounts⟩ := Option.bind_eq_some_iff.mp ran
    obtain ⟨discounted, isDiscounted, _⟩ := Option.bind_eq_some_iff.mp ranDiscounts
    rw [unpack] at unpacked
    constructor
    · intro tuned
      rw [if_pos tuned] at unpacked
      split at unpacked
      · assumption
      · cases unpacked
    · intro fixed
      rw [fixed, if_neg Bool.false_ne_true] at unpacked
      cases unpacked
      rw [isDiscounted]
      rfl
  · intro ⟨inBounds, defined⟩
    obtain ⟨discParams, unpacked⟩ : ∃ discParams,
        smoothing.unpack initialized params = some discParams := by
      rw [unpack]
      split
      · next tuned => exact ⟨_, if_pos (inBounds tuned)⟩
      · exact ⟨_, rfl⟩
    obtain ⟨discounted, isDiscounted⟩ := exists_discounts defined unpacked
    simp only [estimate, unpacked, isDiscounted, Option.bind_eq_bind, Option.bind_some]
    exact ⟨_, rfl⟩

/-- The default of a count is undefined if n-grams have it but none the counts 1 and 2. -/
theorem discParam_eq_none_iff {n : List Nat} {i : Nat} :
    discParam n i = none ↔ n.getD i 0 ≠ 0 ∧ n.getD 1 0 = 0 ∧ n.getD 2 0 = 0 := by
  rw [discParam]
  split
  · next isZero => exact iff_of_false (Option.some_ne_none _) (fun all => all.1 isZero)
  · next nonzero =>
      split
      · next isZero => exact iff_of_true rfl ⟨nonzero, by omega, by omega⟩
      · next filled => exact iff_of_false (Option.some_ne_none _) (fun all => filled (by omega))

theorem isInBounds_defParams (tuned : smoothing.tuneParams = true) {lowerSize : Nat} {level : Level}
    {backoffs : List Nat} {higher : Option (Level × List Nat)} {params : List Rat}
    (defaults : smoothing.defParams (smoothing.initializeOrder lowerSize level backoffs higher) =
      params.map some) :
    params.length = smoothing.numParams ∧ smoothing.isInBounds params = true := by
  rw [defParams, if_pos tuned] at defaults
  have lengths := congrArg List.length defaults
  rw [initializeOrder, List.drop_one, List.tail_cons, List.length_map, List.length_map,
    List.length_range] at lengths
  refine ⟨by rw [numParams, if_pos tuned, lengths], isInBounds_iff.mpr ?_⟩
  intro i inside
  have isParam := List.getElem?_eq_getElem (lengths ▸ inside)
  have isDefault := congrArg (fun list => list.getD i none) defaults
  simp only [List.getD_eq_getElem?_getD, List.getElem?_drop, List.getElem?_map, isParam,
    Option.map_some, Option.getD_some] at isDefault
  rw [Nat.add_comm, ← List.getD_eq_getElem?_getD] at isDefault
  have bounds := bounded_initializeOrder (i + 1) _ isDefault
  rw [getD_of_getElem? isParam]
  rw [Nat.cast_succ] at bounds
  exact bounds

end KneserNeySmoothing

end Mitlm
