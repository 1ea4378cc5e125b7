/-
The incremental state of the budget loop equals the defining formula.

Features are only ever changed by committing a selected sentence.  Evaluations of
other sentences work on copies, so between two commits the state does not move.
-/

import DataSelection.Filter.Objective
import DataSelection.Filter.Start

namespace Filter

open Library

/-! ### The invariant -/

/-- The state after the sentences `picks` have been committed to `base`. -/
structure Tracks (base : FeatureMap ℝ) (picks : List ParsedSentence) (state : LoopState ℝ) :
    Prop where
  keys : state.features.keys = base.keys
  features : ∀ gram, state.features.value gram =
    { base.value gram with prevTotalRelevance := totalRelevance base picks gram }
  objective : state.prevSubmodValue = objective base picks

theorem totalRelevance_append (features : FeatureMap ℝ) (picks : List ParsedSentence)
    (pick : ParsedSentence) (gram : Ngram) :
    totalRelevance features (picks ++ [pick]) gram =
      totalRelevance features picks gram + relevance features gram pick := by
  unfold totalRelevance
  rw [List.map_append, List.sum_append, List.map_singleton, List.sum_singleton]

theorem Tracks.relevance_eq {base : FeatureMap ℝ} {picks : List ParsedSentence}
    {state : LoopState ℝ} (tracks : Tracks base picks state) (gram : Ngram)
    (sentence : ParsedSentence) :
    relevance state.features gram sentence = relevance base gram sentence := by
  unfold relevance
  rw [tracks.features gram]

theorem Tracks.gain_eq {base : FeatureMap ℝ} {picks : List ParsedSentence}
    {state : LoopState ℝ} (tracks : Tracks base picks state) (sentence : ParsedSentence) :
    gain state.features sentence =
      Filter.objective base (picks ++ [sentence]) - Filter.objective base picks := by
  unfold gain Filter.objective
  rw [tracks.keys]
  induction base.keys with
  | nil => simp
  | cons gram rest ih =>
      simp only [List.map_cons, List.sum_cons]
      rw [ih, tracks.relevance_eq, tracks.features gram, totalRelevance_append,
        add_comm (relevance base gram sentence)]
      ring

theorem Tracks.commit {base : FeatureMap ℝ} {picks : List ParsedSentence}
    {before after : LoopState ℝ} {sentence : Sentence ℝ} (tracks : Tracks base picks before)
    (wellFormed : sentence.WellFormed base.keys)
    (features : after.features = commit before.features before.prevSubmodValue sentence)
    (prevSubmodValue : after.prevSubmodValue =
      (evaluate before.features sentence before.prevSubmodValue).2.1) :
    Tracks base (picks ++ [sentence.toParsedSentence]) after := by
  have known : sentence.WellFormed before.features.keys := by
    rw [tracks.keys]
    exact wellFormed
  refine ⟨?_, ?_, ?_⟩
  · rw [features, keys_commit known, tracks.keys]
  · intro gram
    rw [features, value_commit known, tracks.relevance_eq, totalRelevance_append,
      tracks.features gram, add_comm (relevance base gram _)]
  · rw [prevSubmodValue, evaluate_value known, tracks.gain_eq, tracks.objective]
    ring

theorem Tracks.step {base : FeatureMap ℝ} {picks : List ParsedSentence}
    {queue : PriorityQueue (Sentence.less (R := ℝ))} {counters : Counters} {fuel : Nat}
    {before after : LoopState ℝ} {sentence : Sentence ℝ} (tracks : Tracks base picks before)
    (wellFormed : sentence.WellFormed base.keys)
    (step : SelectStep queue counters fuel before sentence after) :
    Tracks base (picks ++ [sentence.toParsedSentence]) after :=
  tracks.commit wellFormed step.features step.prevSubmodValue

theorem Entered.tracks {start : LoopState ℝ} (entered : Entered start) :
    Tracks start.features [] start := by
  refine ⟨rfl, ?_, ?_⟩
  · intro gram
    have blank := entered.blank gram
    unfold totalRelevance
    rw [List.map_nil, List.sum_nil, ← blank]
  · rw [entered.prevSubmodValue]
    unfold Filter.objective totalRelevance
    simp

theorem Entered.tracks_run {queue : PriorityQueue (Sentence.less (R := ℝ))}
    {counters : Counters} {fuel : Nat} {start state : LoopState ℝ}
    {picks : List ParsedSentence} (entered : Entered start)
    (run : Selects queue counters fuel start picks state) :
    Tracks start.features picks state := by
  induction run with
  | refl => exact entered.tracks
  | @select picks before after sentence run step ih =>
      have selected := iterate_selected queue step
      have member : sentence.toParsedSentence ∈ before.available :=
        (selected.available_perm queue).mem_iff.mp List.mem_cons_self
      exact ih.step ((entered.wellFormed_of_run queue run).2 _ member) selected

/-- After every selecting iteration of every run, the maintained value is the
objective of the selected sentences, every feature holds their total relevance, and
its other fields are those it had when the loop was entered. -/
theorem budgetLoop_incremental (queue : PriorityQueue (Sentence.less (R := ℝ)))
    (counters : Counters) (fuel : Nat) (seedCorpus minedCorpus : List Char)
    (start state : LoopState ℝ) (picks : List ParsedSentence)
    (enough : enoughFuel seedCorpus minedCorpus ≤ fuel)
    (prepared : prepare queue counters fuel seedCorpus minedCorpus = some start)
    (run : Selects queue counters fuel start picks state) :
    state.chosen = picks.map (fun pick => pick.index) ∧
    state.prevSubmodValue = objective start.features picks ∧
    state.features.keys = start.features.keys ∧
    ∀ gram, state.features.value gram =
      { start.features.value gram with
        prevTotalRelevance := (picks.map (fun pick =>
          (pick.countOf gram : ℝ) / (pick.length : ℝ) *
            (start.features.value gram).idf)).sum } := by
  have entered := entered_of_prepare queue enough prepared
  have tracks := entered.tracks_run run
  refine ⟨?_, tracks.objective, tracks.keys, tracks.features⟩
  rw [(run.account queue).2, entered.chosen, List.nil_append]

theorem budgetLoop_incremental_twoLines :
    ∃ start pick state,
      prepare (sortedQueue _) .machine 8 ['a'] ['a', '\n', 'a'] = some start ∧
      Selects (sortedQueue _) .machine 8 start [pick] state ∧
      state.prevSubmodValue = objective start.features [pick] := by
  obtain ⟨start, prepared, two⟩ := prepare_twoLines (sortedQueue (Sentence.less (R := ℝ))) .machine
  obtain ⟨pick, state, run⟩ := selects_of_several _ ordersDoubles_exact (by decide) prepared
    (by rw [two]; exact Nat.one_lt_two)
  exact ⟨start, pick, state, prepared, run, (budgetLoop_incremental _ .machine 8 ['a']
    ['a', '\n', 'a'] start state [pick] (by decide) prepared run).2.1⟩

end Filter
