/-
The objective in exact arithmetic and its incremental evaluation.

The objective of a list of sentences is a weighted sum, over all features, of the
square root of the feature's total relevance.  Evaluating a sentence touches only
the sentence's own features, which is enough because the others gain nothing.
-/

import DataSelection.Filter.Steps
import DataSelection.Filter.Statistics

namespace Filter

open Library

def ParsedSentence.countOf (sentence : ParsedSentence) (gram : Ngram) : Nat :=
  ((sentence.features.zip sentence.counts).lookup gram).getD 0

/-- Term frequency times inverse document frequency. -/
noncomputable def relevance (features : FeatureMap ℝ) (gram : Ngram)
    (sentence : ParsedSentence) : ℝ :=
  (sentence.countOf gram : ℝ) / (sentence.length : ℝ) * (features.value gram).idf

noncomputable def totalRelevance (features : FeatureMap ℝ) (picks : List ParsedSentence)
    (gram : Ngram) : ℝ :=
  (picks.map (relevance features gram)).sum

/-- The defining formula of the submodular function. -/
noncomputable def objective (features : FeatureMap ℝ) (picks : List ParsedSentence) : ℝ :=
  (features.keys.map (fun gram =>
    (features.value gram).weight * Real.sqrt (totalRelevance features picks gram))).sum

theorem ParsedSentence.countOf_of_notMem {sentence : ParsedSentence} {gram : Ngram}
    (absent : gram ∉ sentence.features) : sentence.countOf gram = 0 := by
  unfold countOf
  have missing : (sentence.features.zip sentence.counts).lookup gram = none := by
    rw [List.lookup_eq_none_iff]
    intro entry member
    rw [bne_iff_ne]
    intro same
    exact absent (same ▸ (List.of_mem_zip member).1)
  rw [missing, Option.getD_none]

private theorem lookup_of_mem {entries : List (Ngram × Nat)} {entry : Ngram × Nat}
    (distinct : (entries.map Prod.fst).Nodup) (member : entry ∈ entries) :
    entries.lookup entry.1 = some entry.2 := by
  induction entries with
  | nil => cases member
  | cons head rest ih =>
      rcases List.nodup_cons.mp distinct with ⟨headFresh, restDistinct⟩
      rcases List.mem_cons.mp member with same | inRest
      · rw [same, List.lookup_cons, beq_self_eq_true]
      · have different : entry.1 ≠ head.1 := by
          intro same
          exact headFresh (same ▸ List.mem_map_of_mem inRest)
        rw [List.lookup_cons, beq_eq_false_iff_ne.mpr different]
        exact ih restDistinct inRest

theorem ParsedSentence.WellFormed.countOf_eq {keys : List Ngram} {sentence : ParsedSentence}
    (wellFormed : sentence.WellFormed keys) {entry : Ngram × Nat}
    (member : entry ∈ sentence.features.zip sentence.counts) :
    sentence.countOf entry.1 = entry.2 := by
  have distinct : ((sentence.features.zip sentence.counts).map Prod.fst).Nodup := by
    rw [wellFormed.map_fst_zip]
    exact wellFormed.distinct
  unfold countOf
  rw [lookup_of_mem distinct member, Option.getD_some]

/-! ### One evaluation -/

private theorem foldl_evaluateFeature (features : FeatureMap ℝ) (length : Nat)
    (entries : List (Ngram × Nat)) (state : Evaluation ℝ) :
    (entries.foldl (evaluateFeature features length) state).1 =
      state.1 + (entries.map (fun entry =>
        (features.value entry.1).weight *
          (Real.sqrt ((entry.2 : ℝ) / (length : ℝ) * (features.value entry.1).idf +
              (features.value entry.1).prevTotalRelevance) -
            Real.sqrt (features.value entry.1).prevTotalRelevance))).sum := by
  induction entries generalizing state with
  | nil => simp
  | cons entry rest ih =>
      rw [List.foldl_cons, ih, List.map_cons, List.sum_cons]
      simp only [evaluateFeature, sqrt_exact]
      ring

/-- A run of additions over a sentence's own features is one over all features,
as long as the others contribute nothing. -/
private theorem sum_over_features {keys sub : List Ngram} (keysDistinct : keys.Nodup)
    (subDistinct : sub.Nodup) (inside : ∀ gram ∈ sub, gram ∈ keys) (term : Ngram → ℝ)
    (zero : ∀ gram, gram ∉ sub → term gram = 0) :
    (sub.map term).sum = (keys.map term).sum := by
  rw [← List.sum_toFinset term subDistinct, ← List.sum_toFinset term keysDistinct]
  apply Finset.sum_subset
  · intro gram member
    exact List.mem_toFinset.mpr (inside gram (List.mem_toFinset.mp member))
  · intro gram _inKeys notInSub
    exact zero gram (fun member => notInSub (List.mem_toFinset.mpr member))

noncomputable def gain (features : FeatureMap ℝ) (sentence : ParsedSentence) : ℝ :=
  (features.keys.map (fun gram => (features.value gram).weight *
    (Real.sqrt (relevance features gram sentence + (features.value gram).prevTotalRelevance) -
      Real.sqrt (features.value gram).prevTotalRelevance))).sum

section

variable {features : FeatureMap ℝ} {sentence : Sentence ℝ}
  (wellFormed : sentence.toParsedSentence.WellFormed features.keys) (prevFuncValue : ℝ)

include wellFormed

theorem evaluate_value :
    (evaluate features sentence prevFuncValue).2.1 =
      prevFuncValue + gain features sentence.toParsedSentence := by
  refine (foldl_evaluateFeature features sentence.length
    (sentence.features.zip sentence.counts) (prevFuncValue, .empty)).trans ?_
  congr 1
  unfold gain
  rw [← sum_over_features features.nodup wellFormed.distinct wellFormed.known]
  · conv_rhs => rw [← wellFormed.map_fst_zip]
    rw [List.map_map]
    congr 1
    apply List.map_congr_left
    intro entry member
    simp only [Function.comp_apply, relevance, wellFormed.countOf_eq member]
  · intro gram absent
    simp only [relevance, ParsedSentence.countOf_of_notMem absent]
    simp

theorem maxMarginalGain_refresh :
    (refresh features prevFuncValue sentence).maxMarginalGain =
      gain features sentence.toParsedSentence / (sentence.length : ℝ) := by
  have value := evaluate_value wellFormed prevFuncValue
  have stored : (refresh features prevFuncValue sentence).maxMarginalGain =
      ((evaluate features sentence prevFuncValue).2.1 - prevFuncValue) /
        (sentence.length : ℝ) := rfl
  rw [stored, value, add_sub_cancel_left]

theorem value_commit {gram : Ngram} :
    (commit features prevFuncValue sentence).value gram =
      { features.value gram with
        prevTotalRelevance := relevance features gram sentence.toParsedSentence +
          (features.value gram).prevTotalRelevance } := by
  by_cases member : gram ∈ sentence.features
  · rcases wellFormed.mem_features_iff.mp member with ⟨entry, inZip, rfl⟩
    rw [value_commit_of_mem wellFormed prevFuncValue inZip]
    simp only [updatedFeature, relevance, wellFormed.countOf_eq inZip]
  · rw [value_commit_of_notMem wellFormed prevFuncValue member]
    simp only [relevance, ParsedSentence.countOf_of_notMem member]
    simp

end

end Filter
