/-
Diminishing returns of the stored gains.

An evaluation divides the gain of a sentence by its length, which no commit changes,
so the gain that it stores only falls from a list of committed sentences to any list
that includes it.
-/

import DataSelection.Filter.LazyGreedy

namespace Filter

open Library

section

variable {R : Type} [DoubleArithmetic R]

/-- What the end of the loop's body does to the features and to the value. -/
def LoopState.commit (state : LoopState R) (sentence : Sentence R) : LoopState R :=
  let result := (evaluate state.features sentence state.prevSubmodValue).2
  { state with
    prevSubmodValue := result.1
    features := updateFeatures state.features result.2 }

def LoopState.commitAll (state : LoopState R) (picks : List (Sentence R)) : LoopState R :=
  picks.foldl LoopState.commit state

/-- The value that `evaluate` stores in the sentence. -/
def LoopState.storedGain (state : LoopState R) (sentence : Sentence R) : R :=
  (evaluate state.features sentence state.prevSubmodValue).1.maxMarginalGain

theorem LoopState.commitAll_append (state : LoopState R) (picks : List (Sentence R))
    (pick : Sentence R) :
    state.commitAll (picks ++ [pick]) = (state.commitAll picks).commit pick := by
  unfold commitAll
  rw [List.foldl_append, List.foldl_cons, List.foldl_nil]

theorem Selects.commitAll {queue : PriorityQueue (Sentence.less (R := R))} {counters : Counters}
    {fuel : Nat} {start state : LoopState R} {picks : List ParsedSentence}
    (run : Selects queue counters fuel start picks state) :
    ∃ sentences : List (Sentence R), sentences.map Sentence.toParsedSentence = picks ∧
      state.features = (start.commitAll sentences).features ∧
      state.prevSubmodValue = (start.commitAll sentences).prevSubmodValue := by
  induction run with
  | refl => exact ⟨[], rfl, rfl, rfl⟩
  | @select picks before after sentence run step ih =>
      rcases ih with ⟨sentences, same, features, value⟩
      have selected := iterate_selected queue step
      refine ⟨sentences ++ [sentence], ?_, ?_, ?_⟩
      · rw [List.map_append, same, List.map_singleton]
      · rw [LoopState.commitAll_append, selected.features, features, value]
        rfl
      · rw [LoopState.commitAll_append, selected.prevSubmodValue, features, value]
        rfl

end

theorem Tracks.commitAll {base : FeatureMap ℝ} {state : LoopState ℝ} (tracks : Tracks base [] state)
    {picks : List (Sentence ℝ)} (wellFormed : ∀ pick ∈ picks, pick.WellFormed base.keys) :
    Tracks base (picks.map Sentence.toParsedSentence) (state.commitAll picks) := by
  induction picks using List.reverseRecOn with
  | nil => exact tracks
  | append_singleton picks pick ih =>
      have earlier := ih (fun other member => wellFormed other (List.mem_append_left _ member))
      have last := wellFormed pick (List.mem_append_right _ (List.mem_singleton_self pick))
      rw [LoopState.commitAll_append, List.map_append, List.map_singleton]
      exact earlier.commit last rfl rfl

theorem Tracks.storedGain_eq {base : FeatureMap ℝ} {picks : List ParsedSentence}
    {state : LoopState ℝ} (tracks : Tracks base picks state) {sentence : Sentence ℝ}
    (wellFormed : sentence.WellFormed base.keys) :
    state.storedGain sentence =
      gain state.features sentence.toParsedSentence / (sentence.length : ℝ) := by
  rw [← tracks.keys] at wellFormed
  exact maxMarginalGain_refresh wellFormed state.prevSubmodValue

/-- `more` extends `fewer` in particular when it goes on where `fewer` ends. -/
theorem storedGain_diminishes (queue : PriorityQueue (Sentence.less (R := ℝ)))
    (counters : Counters) (fuel : Nat) (seedCorpus minedCorpus : List Char)
    (start : LoopState ℝ) (fewer more : List (Sentence ℝ)) (sentence : Sentence ℝ)
    (enough : enoughFuel seedCorpus minedCorpus ≤ fuel)
    (prepared : prepare queue counters fuel seedCorpus minedCorpus = some start)
    (included : fewer.Subperm more)
    (available : ∀ pick ∈ sentence :: more, pick.toParsedSentence ∈ start.available) :
    (start.commitAll more).storedGain sentence ≤ (start.commitAll fewer).storedGain sentence ∧
      0 ≤ (start.commitAll fewer).storedGain sentence ∧
      0 ≤ (start.commitAll more).storedGain sentence := by
  have entered := entered_of_prepare queue enough prepared
  have nonnegative := nonnegative_of_prepare enough prepared
  have known : ∀ pick ∈ sentence :: more, pick.WellFormed start.features.keys :=
    fun pick member => entered.wellFormed _ (available pick member)
  have candidate := known sentence List.mem_cons_self
  have afterMore := entered.tracks.commitAll
    (fun pick member => known pick (List.mem_cons_of_mem sentence member))
  have afterFewer := entered.tracks.commitAll
    (fun pick member => known pick (List.mem_cons_of_mem sentence (included.subset member)))
  have parsedIncluded : (fewer.map Sentence.toParsedSentence).Subperm
      (more.map Sentence.toParsedSentence) := by
    rcases included with ⟨reordered, permuted, sub⟩
    exact ⟨reordered.map _, permuted.map _, sub.map _⟩
  have length : (0 : ℝ) ≤ (sentence.length : ℝ) := Nat.cast_nonneg _
  rw [afterMore.storedGain_eq candidate, afterFewer.storedGain_eq candidate]
  refine ⟨?_, ?_, ?_⟩
  · exact div_le_div_of_nonneg_right (afterFewer.gain_anti nonnegative afterMore
      parsedIncluded sentence.toParsedSentence) length
  · exact div_nonneg (afterFewer.gain_nonneg nonnegative sentence.toParsedSentence) length
  · exact div_nonneg (afterMore.gain_nonneg nonnegative sentence.toParsedSentence) length

theorem storedGain_diminishes_twoLines :
    ∃ (start : LoopState ℝ) (sentence : Sentence ℝ),
      prepare (sortedQueue _) .machine 8 ['a'] ['a', '\n', 'a'] = some start ∧
      sentence ∈ start.availableSentences ∧
      (start.commitAll [sentence]).storedGain sentence ≤ start.storedGain sentence := by
  obtain ⟨start, prepared, two⟩ := prepare_twoLines (sortedQueue (Sentence.less (R := ℝ))) .machine
  have filled : 0 < start.availableSentences.length := by
    rw [two]
    exact Nat.zero_lt_two
  rcases List.exists_mem_of_length_pos filled with ⟨sentence, member⟩
  have available : ∀ pick ∈ [sentence, sentence], pick.toParsedSentence ∈ start.available := by
    intro pick listed
    have same : pick = sentence := by simpa using listed
    exact same ▸ List.mem_map_of_mem member
  exact ⟨start, sentence, prepared, member, (storedGain_diminishes (sortedQueue _) .machine 8 ['a']
    ['a', '\n', 'a'] start [] [sentence] sentence (by decide) prepared
    (List.nil_sublist _).subperm available).1⟩

end Filter
