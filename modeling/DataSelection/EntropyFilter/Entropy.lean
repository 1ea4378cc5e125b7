/-
Whether a kept sentence lowers the relative entropy.

With the seed's own counts as the selected counts, no sentence lowers the
relative entropy: its trigrams are fewer than its words, and adding mass to some
of the trigrams cannot gain more than adding it to a single one.
-/

import DataSelection.Library.RelativeEntropy
import DataSelection.Library.Successors
import DataSelection.EntropyFilter.Tracking

namespace EntropyFilter

open Library
open WittenBell (Word isSpace split strip readLines split_strip)

/-- The seed distribution has a smaller relative entropy from the selected text
with the sentence than without it. -/
def LowersEntropy (P : Counts) (state : State) (words : List Word) : Prop :=
  Real.log (((state.N + words.length : Nat) : ℝ) / (state.N : ℝ)) <
    ∑ gram ∈ (windows 3 words).toFinset ∩ state.W.keys.toFinset,
      (P.value gram : ℝ) / (P.total : ℝ) *
        Real.log (((state.W.value gram + occurrences gram words : Nat) : ℝ) /
          (state.W.value gram : ℝ))

theorem sum_occurrences_le {width : Nat} (words : List Word) {grams : Finset Gram}
    (widths : ∀ gram ∈ grams, gram.length = width) :
    ∑ gram ∈ grams, occurrences gram words ≤ words.length + 1 - width := by
  have counted : (windows width words).countP (fun gram => gram ∈ grams) =
      ∑ gram ∈ grams, (windows width words).countP (fun window => window = gram) :=
    countP_eq_sum (fun _ _ same => same) (fun gram _member => by simp)
  have same : ∀ gram ∈ grams, occurrences gram words =
      (windows width words).countP (fun window => window = gram) := by
    intro gram member
    rw [occurrences_eq_countP, widths gram member]
  rw [Finset.sum_congr rfl same, ← counted, ← length_windows]
  exact List.countP_le_length

theorem sum_value_le_total (tally : Counts) {grams : Finset Gram}
    (included : ∀ gram ∈ grams, gram ∈ tally.keys) :
    ∑ gram ∈ grams, tally.value gram ≤ tally.total := by
  have whole : tally.total = ∑ gram ∈ tally.keys.toFinset, tally.value gram :=
    (List.sum_toFinset tally.value tally.nodup).symm
  rw [whole]
  apply Finset.sum_le_sum_of_subset
  intro gram member
  exact List.mem_toFinset.mpr (included gram member)

theorem weighted_improvement_le (tally : Counts) (counted : tally.Counted)
    (filled : 0 < tally.total) {grams : Finset Gram} (known : ∀ gram ∈ grams, gram ∈ tally.keys)
    (added : Gram → Nat) :
    ∑ gram ∈ grams, (tally.value gram : ℝ) / (tally.total : ℝ) *
        Real.log (((tally.value gram + added gram : Nat) : ℝ) / (tally.value gram : ℝ)) ≤
      Real.log (((tally.total : ℝ) + ∑ gram ∈ grams, (added gram : ℝ)) / (tally.total : ℝ)) := by
  have mass : (0 : ℝ) < (tally.total : ℝ) := Nat.cast_pos.mpr filled
  have within : ∑ gram ∈ grams, (tally.value gram : ℝ) ≤ (tally.total : ℝ) := by
    exact_mod_cast sum_value_le_total tally known
  have gain := sum_mul_log_ratio_le
    (p := fun gram => (tally.value gram : ℝ)) (c := fun gram => (added gram : ℝ))
    (fun gram member => Nat.cast_pos.mpr (counted gram (known gram member)))
    (fun gram _member => Nat.cast_nonneg _) mass within
  have pulled : ∑ gram ∈ grams, (tally.value gram : ℝ) / (tally.total : ℝ) *
        Real.log (((tally.value gram + added gram : Nat) : ℝ) / (tally.value gram : ℝ)) =
      (∑ gram ∈ grams, (tally.value gram : ℝ) *
        Real.log (((tally.value gram : ℝ) + (added gram : ℝ)) / (tally.value gram : ℝ))) /
          (tally.total : ℝ) := by
    rw [Finset.sum_div]
    apply Finset.sum_congr rfl
    intro gram _member
    push_cast
    ring
  rw [pulled]
  calc
    _ ≤ (tally.total : ℝ) * Real.log (((tally.total : ℝ) + ∑ gram ∈ grams, (added gram : ℝ)) /
          (tally.total : ℝ)) / (tally.total : ℝ) := div_le_div_of_nonneg_right gain mass.le
    _ = _ := mul_div_cancel_left₀ _ mass.ne'

theorem AtSeed.not_lowersEntropy {seed_file : List Char} {state : State}
    (atSeed : AtSeed seed_file 3 state) (filled : 0 < getTotalCount (getCounts seed_file 3))
    (words : List Word) : ¬ LowersEntropy (getCounts seed_file 3) state words := by
  rw [getTotalCount_eq] at filled
  unfold LowersEntropy
  rw [atSeed.N, atSeed.W, getTotalCount_eq, not_lt]
  have known : ∀ gram ∈ (windows 3 words).toFinset ∩ (getCounts seed_file 3).keys.toFinset,
      gram ∈ (getCounts seed_file 3).keys := by
    intro gram member
    exact List.mem_toFinset.mp (Finset.mem_inter.mp member).2
  have widths : ∀ gram ∈ (windows 3 words).toFinset ∩ (getCounts seed_file 3).keys.toFinset,
      gram.length = 3 := by
    intro gram member
    exact length_of_mem_windows (List.mem_toFinset.mp (Finset.mem_inter.mp member).1)
  generalize (windows 3 words).toFinset ∩ (getCounts seed_file 3).keys.toFinset = grams
    at known widths ⊢
  have mass : (0 : ℝ) < ((getCounts seed_file 3).total : ℝ) := Nat.cast_pos.mpr filled
  have fewer : ∑ gram ∈ grams, (occurrences gram words : ℝ) ≤ (words.length : ℝ) := by
    have shorter : ∑ gram ∈ grams, occurrences gram words ≤ words.length :=
      (sum_occurrences_le words widths).trans (by omega)
    exact_mod_cast shorter
  have added : (0 : ℝ) ≤ ∑ gram ∈ grams, (occurrences gram words : ℝ) :=
    Finset.sum_nonneg (fun gram _member => Nat.cast_nonneg _)
  have improvement := weighted_improvement_le (getCounts seed_file 3)
    (getCounts_counted seed_file 3) filled known (fun gram => occurrences gram words)
  refine improvement.trans (Real.log_le_log (div_pos (by linarith) mass) ?_)
  apply div_le_div_of_nonneg_right _ mass.le
  push_cast
  linarith

theorem keeps_blank (traversal : TraversalOrder) (tuning : ℝ) (P W : Counts) (N : Nat) :
    keeps traversal tuning P W N 3 [] ≠ some true := by
  have noGrams : (countGrams 3 DefaultDict.empty []).keys = [] := rfl
  have noKeys : traversal.order [] = [] := List.perm_nil.mp (traversal.perm [])
  unfold keeps T1 T2
  rw [noGrams, noKeys]
  by_cases empty : N = 0
  · simp [divide, empty]
  · have nonzero : (N : ℝ) ≠ 0 := Nat.cast_ne_zero.mpr empty
    simp [divide, empty, nonzero, log10_exact, lt_exact]

theorem refused_iff {traversal : TraversalOrder} {tuning : ℝ} {seed_file sentence : List Char} :
    Refused traversal tuning seed_file 3 sentence ↔
      keeps traversal tuning (getCounts seed_file 3) (getCounts seed_file 3)
        (getTotalCount (getCounts seed_file 3)) 3 (split sentence) ≠ some true := by
  constructor
  · intro refused
    rcases refused with blank | turnedDown
    · rw [blank]
      exact keeps_blank traversal tuning _ _ _
    · exact turnedDown
  · exact Or.inr

/-- Every sentence kept lowers the relative entropy exactly when no sentence of
the stream passes the test against the counts of the seed, so that none is kept. -/
theorem incrementalFilter_lowersEntropy_iff (traversal : TraversalOrder) (seed_file : List Char)
    (tuning_parameter : ℝ) (sentences : List (List Char)) :
    (∀ processed sentence rest state, sentences = processed ++ sentence :: rest →
        incrementalFilter traversal seed_file tuning_parameter 3 processed = some state →
        keeps traversal tuning_parameter (getCounts seed_file 3) state.W state.N 3
          (split sentence) = some true →
        LowersEntropy (getCounts seed_file 3) state (split sentence)) ↔
      ∀ sentence ∈ sentences,
        keeps traversal tuning_parameter (getCounts seed_file 3) (getCounts seed_file 3)
          (getTotalCount (getCounts seed_file 3)) 3 (split sentence) ≠ some true := by
  constructor
  · intro lowered sentence member
    rw [← refused_iff]
    by_contra passes
    rcases first_kept (by decide) member passes with
      ⟨before, first, after, state, parts, _, ranBefore, atSeed, kept, _⟩
    have filled : 0 < getTotalCount (getCounts seed_file 3) := by
      rw [← atSeed.N]
      apply Nat.pos_of_ne_zero
      intro empty
      rw [empty, keeps_eq_none_of_zero] at kept
      cases kept
    exact atSeed.not_lowersEntropy filled (split first)
      (lowered before first after state parts ranBefore kept)
  · intro refused processed sentence rest state parts ran kept
    have refusedBefore : ∀ other ∈ processed,
        Refused traversal tuning_parameter seed_file 3 other := by
      intro other member
      apply refused_iff.mpr
      apply refused
      rw [parts]
      exact List.mem_append_left _ member
    have atSeed := atSeed_of_refused (by decide) refusedBefore ran
    rw [atSeed.W, atSeed.N] at kept
    have here : sentence ∈ sentences := by
      rw [parts]
      exact List.mem_append_right _ List.mem_cons_self
    exact absurd kept (refused sentence here)

/-- The sample sentence is kept although the relative entropy grows. -/
theorem sampleSentence_raisesEntropy :
    keeps insertionOrder (0 : ℝ) (getCounts sampleSeed 3) (start sampleSeed 3).W
        (start sampleSeed 3).N 3 (split sampleSentence) = some true ∧
      ¬ LowersEntropy (getCounts sampleSeed 3) (start sampleSeed 3) (split sampleSentence) := by
  have filled : 0 < getTotalCount (getCounts sampleSeed 3) := by
    rw [sampleSeed_counts.2.2]
    exact Nat.succ_pos 2
  constructor
  · exact sampleSentence_kept
  · exact (atSeed_start sampleSeed 3).not_lowersEntropy filled _

end EntropyFilter
