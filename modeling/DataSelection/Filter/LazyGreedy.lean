/-
The lazy queue selects what plain greedy selection would.

Stored gains are values from earlier states.  Gains only fall while sentences are
committed, so a stored gain never understates the current one, and the search in
the queue ends with a sentence of greatest current gain per word.
-/

import DataSelection.Filter.Incremental
import DataSelection.Library.ConcaveCoverage

namespace Filter

open Library

/-! ### Signs -/

/-- Weights and inverse document frequencies are not negative. -/
structure Nonnegative (features : FeatureMap ℝ) : Prop where
  weight : ∀ gram ∈ features.keys, 0 ≤ (features.value gram).weight
  idf : ∀ gram ∈ features.keys, 0 ≤ (features.value gram).idf

theorem nonnegative_startState (queue : PriorityQueue (Sentence.less (R := ℝ)))
    {counters : Counters} {seedCorpus minedCorpus : List Char} {features : FeatureMap ℝ}
    {sentences : List (Sentence ℝ)}
    (parsed : Parsed counters seedCorpus minedCorpus features sentences)
    (fits : counters.Fits sentences.length) :
    Nonnegative (startState queue counters features sentences).features := by
  refine ⟨?_, ?_⟩
  · intro gram known
    have isKey : gram ∈ features.keys := known
    change 0 ≤ ((calculateFeatureStats features _).value gram).weight
    rw [value_calculateFeatureStats isKey]
    exact Real.sqrt_nonneg _
  · intro gram known
    have isKey : gram ∈ features.keys := known
    change 0 ≤ ((calculateFeatureStats features _).value gram).idf
    have documents : (features.value gram).idf = (documentCount (seedWordids seedCorpus)
        (shortLines (linesOf minedCorpus)) gram : ℝ) := by
      rw [parsed.counted gram isKey]
      exact iterate_add_one_exact _
    have bound : (documentCount (seedWordids seedCorpus)
        (shortLines (linesOf minedCorpus)) gram : ℝ) ≤ (sentences.length : ℝ) :=
      Nat.cast_le.mpr (parsed.documentCount_le isKey)
    rw [value_calculateFeatureStats isKey, fits, documents]
    change 0 ≤ Real.log _
    -- a feature that only over-long lines contain is in no sentence; its quotient is read as 0
    have counted : (0 : ℝ) ≤ (documentCount (seedWordids seedCorpus)
        (shortLines (linesOf minedCorpus)) gram : ℝ) := Nat.cast_nonneg _
    rcases counted.eq_or_lt with zero | positive
    · rw [← zero, div_zero, Real.log_zero]
    · exact Real.log_nonneg ((one_le_div positive).mpr bound)

theorem nonnegative_of_prepare {queue : PriorityQueue (Sentence.less (R := ℝ))}
    {counters : Counters} {fuel : Nat} {seedCorpus minedCorpus : List Char}
    {start : LoopState ℝ} (enough : enoughFuel seedCorpus minedCorpus ≤ fuel)
    (prepared : prepare queue counters fuel seedCorpus minedCorpus = some start) :
    Nonnegative start.features := by
  obtain ⟨features, sentences, _parse, parsed, started⟩ :=
    prepare_eq queue counters fuel seedCorpus minedCorpus enough
  rcases (started start).mp prepared with ⟨fits, rfl⟩
  exact nonnegative_startState queue parsed fits

theorem relevance_nonneg {features : FeatureMap ℝ} (nonnegative : Nonnegative features)
    {gram : Ngram} (known : gram ∈ features.keys) (sentence : ParsedSentence) :
    0 ≤ relevance features gram sentence := by
  have idf := nonnegative.idf gram known
  unfold relevance
  positivity

theorem totalRelevance_nonneg {features : FeatureMap ℝ} (nonnegative : Nonnegative features)
    {gram : Ngram} (known : gram ∈ features.keys) (picks : List ParsedSentence) :
    0 ≤ totalRelevance features picks gram := by
  unfold totalRelevance
  apply List.sum_nonneg
  intro term member
  rcases List.mem_map.mp member with ⟨pick, _isPick, rfl⟩
  exact relevance_nonneg nonnegative known pick

/-! ### Gains fall -/

theorem totalRelevance_mono {features : FeatureMap ℝ} (nonnegative : Nonnegative features)
    {gram : Ngram} (known : gram ∈ features.keys) {fewer more : List ParsedSentence}
    (included : fewer.Subperm more) :
    totalRelevance features fewer gram ≤ totalRelevance features more gram := by
  rcases included with ⟨reordered, permuted, sub⟩
  unfold totalRelevance
  rw [← (permuted.map _).sum_eq]
  apply (sub.map _).sum_le_sum
  intro term member
  rcases List.mem_map.mp member with ⟨pick, _isPick, rfl⟩
  exact relevance_nonneg nonnegative known pick

section

variable {base : FeatureMap ℝ} (nonnegative : Nonnegative base) {fewer more : List ParsedSentence}
  {before after : LoopState ℝ}

include nonnegative

theorem Tracks.gain_anti (tracks : Tracks base fewer before) (tracksAfter : Tracks base more after)
    (included : fewer.Subperm more) (other : ParsedSentence) :
    gain after.features other ≤ gain before.features other := by
  unfold gain
  rw [tracks.keys, tracksAfter.keys]
  apply List.sum_le_sum
  intro gram known
  rw [tracks.relevance_eq, tracksAfter.relevance_eq, tracks.features gram,
    tracksAfter.features gram]
  apply mul_le_mul_of_nonneg_left _ (nonnegative.weight gram known)
  dsimp only
  rw [add_comm (relevance base gram other), add_comm (relevance base gram other)]
  exact saturating_sqrt.increment_anti (totalRelevance_nonneg nonnegative known fewer)
    (totalRelevance_mono nonnegative known included) (relevance_nonneg nonnegative known other)

theorem Tracks.gain_nonneg (tracks : Tracks base fewer before) (sentence : ParsedSentence) :
    0 ≤ gain before.features sentence := by
  unfold gain
  rw [tracks.keys]
  apply List.sum_nonneg
  intro term member
  rcases List.mem_map.mp member with ⟨gram, known, rfl⟩
  rw [tracks.relevance_eq, tracks.features gram]
  have rises : Real.sqrt (totalRelevance base fewer gram) ≤
      Real.sqrt (relevance base gram sentence + totalRelevance base fewer gram) :=
    Real.sqrt_le_sqrt (le_add_of_nonneg_left (relevance_nonneg nonnegative known sentence))
  exact mul_nonneg (nonnegative.weight gram known) (sub_nonneg.mpr rises)

end

/-! ### The invariant of the queue -/

/-- At the head of an iteration the queue is a heap of upper bounds. -/
structure LazyQueue (queue : PriorityQueue (Sentence.less (R := ℝ))) (base : FeatureMap ℝ)
    (picks : List ParsedSentence) (state : LoopState ℝ) : Prop where
  tracks : Tracks base picks state
  heap : queue.Heap state.availableSentences
  bounds : Overestimates Sentence.less (refresh state.features state.prevSubmodValue)
    state.availableSentences
  wellFormed : ∀ sentence ∈ state.available, sentence.WellFormed base.keys

theorem less_exact_eq_false {left right : Sentence ℝ} :
    left.less right = false ↔ right.maxMarginalGain ≤ left.maxMarginalGain := by
  unfold Sentence.less
  rw [lt_exact, decide_eq_false_iff_not, not_lt]

theorem LazyQueue.maxMarginalGain_refresh {queue : PriorityQueue (Sentence.less (R := ℝ))}
    {base : FeatureMap ℝ} {picks : List ParsedSentence} {state : LoopState ℝ}
    (lazyQueue : LazyQueue queue base picks state) {sentence : Sentence ℝ}
    (member : sentence.toParsedSentence ∈ state.available) :
    (refresh state.features state.prevSubmodValue sentence).maxMarginalGain =
      gain state.features sentence.toParsedSentence / (sentence.length : ℝ) := by
  apply Filter.maxMarginalGain_refresh
  rw [lazyQueue.tracks.keys]
  exact lazyQueue.wellFormed _ member

theorem LazyQueue.search {queue : PriorityQueue (Sentence.less (R := ℝ))}
    {base : FeatureMap ℝ} {picks : List ParsedSentence} {counters : Counters} {fuel : Nat}
    {before after : LoopState ℝ} {sentence : Sentence ℝ}
    (lazyQueue : LazyQueue queue base picks before)
    (step : SelectStep queue counters fuel before sentence after) :
    Searching queue (refresh before.features before.prevSubmodValue) sentence
        after.availableSentences ∧
      Overestimates Sentence.less (refresh before.features before.prevSubmodValue)
        after.availableSentences ∧
      ∀ other ∈ after.availableSentences,
        sentence.less (refresh before.features before.prevSubmodValue other) = false := by
  rcases step.found with ⟨top, rest, available, _several, search⟩
  have heap := lazyQueue.heap
  have bounds := lazyQueue.bounds
  rw [available] at heap bounds
  have order := Sentence.less_weakOrder ordersDoubles_exact
  have searching : Searching queue (refresh before.features before.prevSubmodValue)
      (refresh before.features before.prevSubmodValue top) (queue.pop (top :: rest)) :=
    ⟨refresh_refresh before.features before.prevSubmodValue,
      refresh_refresh before.features before.prevSubmodValue top,
      queue.heap_pop order top rest heap⟩
  have popBounds : Overestimates Sentence.less
      (refresh before.features before.prevSubmodValue) (queue.pop (top :: rest)) := by
    intro item member
    exact bounds item (List.mem_cons_of_mem top
      ((queue.pop_perm top rest).mem_iff.mp member))
  exact ⟨lazySelect_searching queue order _ fuel _ _ _ _ searching search,
    lazySelect_greatest queue order _ fuel _ _ _ _ searching popBounds search⟩

theorem LazyQueue.step {queue : PriorityQueue (Sentence.less (R := ℝ))}
    {base : FeatureMap ℝ} (nonnegative : Nonnegative base) {picks : List ParsedSentence}
    {counters : Counters} {fuel : Nat} {before after : LoopState ℝ} {sentence : Sentence ℝ}
    (lazyQueue : LazyQueue queue base picks before)
    (step : SelectStep queue counters fuel before sentence after) :
    LazyQueue queue base (picks ++ [sentence.toParsedSentence]) after := by
  have permuted := step.available_perm queue
  have taken := permuted.mem_iff.mp List.mem_cons_self
  have tracks := lazyQueue.tracks.step (lazyQueue.wellFormed _ taken) step
  have stays : ∀ other ∈ after.available, other ∈ before.available :=
    fun other member => permuted.mem_iff.mp (List.mem_cons_of_mem _ member)
  have wellFormed : ∀ other ∈ after.available, other.WellFormed base.keys :=
    fun other member => lazyQueue.wellFormed other (stays other member)
  obtain ⟨searching, bounds, _greatest⟩ := lazyQueue.search step
  refine ⟨tracks, searching.heap, ?_, wellFormed⟩
  intro other member
  have isAvailable : other.toParsedSentence ∈ after.available := List.mem_map_of_mem member
  have known : other.WellFormed after.features.keys := by
    rw [tracks.keys]
    exact wellFormed _ isAvailable
  have stored := less_exact_eq_false.mp (bounds other member)
  rw [lazyQueue.maxMarginalGain_refresh (stays _ isAvailable)] at stored
  have falls := lazyQueue.tracks.gain_anti nonnegative tracks
    (List.sublist_append_left picks _).subperm other.toParsedSentence
  rw [less_exact_eq_false, Filter.maxMarginalGain_refresh known]
  refine le_trans ?_ stored
  exact div_le_div_of_nonneg_right falls (Nat.cast_nonneg _)

theorem lazyQueue_of_prepare {queue : PriorityQueue (Sentence.less (R := ℝ))}
    {counters : Counters} {fuel : Nat} {seedCorpus minedCorpus : List Char}
    {start : LoopState ℝ} (enough : enoughFuel seedCorpus minedCorpus ≤ fuel)
    (prepared : prepare queue counters fuel seedCorpus minedCorpus = some start) :
    LazyQueue queue start.features [] start := by
  have entered := entered_of_prepare queue enough prepared
  obtain ⟨features, sentences, _parse, parsed, started⟩ :=
    prepare_eq queue counters fuel seedCorpus minedCorpus enough
  rcases (started start).mp prepared with ⟨_fits, rfl⟩
  have order := Sentence.less_weakOrder ordersDoubles_exact
  refine ⟨entered.tracks, queue.heap_ofList order _, ?_, entered.wellFormed⟩
  intro item member
  obtain ⟨original, _isSentence, rfl⟩ :=
    List.mem_map.mp ((queue.ofList_perm _).mem_iff.mp member)
  have exactGain := refresh_refresh (startState queue counters features sentences).features
    (startState queue counters features sentences).prevSubmodValue original
  exact (congrArg (Sentence.less _) exactGain).trans (order.irrefl _)

theorem lazyQueue_run {queue : PriorityQueue (Sentence.less (R := ℝ))} {counters : Counters}
    {fuel : Nat} {start state : LoopState ℝ} {picks : List ParsedSentence}
    (nonnegative : Nonnegative start.features)
    (entered : LazyQueue queue start.features [] start)
    (run : Selects queue counters fuel start picks state) :
    LazyQueue queue start.features picks state := by
  induction run with
  | refl => exact entered
  | select _run step ih => exact ih.step nonnegative (iterate_selected queue step)

/-- The gain per word that a sentence would have after `picks`. -/
noncomputable def gainPerWord (features : FeatureMap ℝ) (picks : List ParsedSentence)
    (sentence : ParsedSentence) : ℝ :=
  (objective features (picks ++ [sentence]) - objective features picks) /
    (sentence.length : ℝ)

theorem LazyQueue.selected_greatest {queue : PriorityQueue (Sentence.less (R := ℝ))}
    {base : FeatureMap ℝ} {picks : List ParsedSentence} {counters : Counters} {fuel : Nat}
    {before after : LoopState ℝ} {sentence : Sentence ℝ}
    (lazyQueue : LazyQueue queue base picks before)
    (step : SelectStep queue counters fuel before sentence after) :
    ∀ other ∈ after.available,
      gainPerWord base picks other ≤ gainPerWord base picks sentence.toParsedSentence := by
  obtain ⟨searching, _bounds, greatest⟩ := lazyQueue.search step
  have permuted := step.available_perm queue
  have taken := permuted.mem_iff.mp List.mem_cons_self
  intro other member
  rcases List.mem_map.mp member with ⟨stored, inQueue, rfl⟩
  have staysAvailable := permuted.mem_iff.mp (List.mem_cons_of_mem _ member)
  have compared := less_exact_eq_false.mp (greatest stored inQueue)
  rw [← searching.fresh, lazyQueue.maxMarginalGain_refresh staysAvailable,
    lazyQueue.maxMarginalGain_refresh taken, lazyQueue.tracks.gain_eq,
    lazyQueue.tracks.gain_eq] at compared
  exact compared

/-- Every iteration that a run can reach ends, and what it selects has the greatest
gain per word of all sentences that are still in the queue. -/
theorem iterate_selects_greatest (queue : PriorityQueue (Sentence.less (R := ℝ)))
    (counters : Counters) (fuel : Nat) (seedCorpus minedCorpus : List Char)
    (start before : LoopState ℝ) (picks : List ParsedSentence)
    (enough : enoughFuel seedCorpus minedCorpus ≤ fuel)
    (prepared : prepare queue counters fuel seedCorpus minedCorpus = some start)
    (run : Selects queue counters fuel start picks before) :
    (∃ after, iterate queue counters fuel before = some (.exhausted after) ∧
        after.availableSentences = []) ∨
      ∃ sentence after, iterate queue counters fuel before = some (.selected sentence after) ∧
        ∀ other ∈ after.availableSentences,
          gainPerWord start.features picks other.toParsedSentence ≤
            gainPerWord start.features picks sentence.toParsedSentence := by
  have lazyQueue := lazyQueue_run (nonnegative_of_prepare enough prepared)
    (lazyQueue_of_prepare enough prepared) run
  obtain ⟨features, sentences, _parse, parsed, started⟩ :=
    prepare_eq queue counters fuel seedCorpus minedCorpus enough
  rcases (started start).mp prepared with ⟨_fits, same⟩
  have size : before.availableSentences.length + 1 ≤ fuel := by
    have lengths := (run.account queue).1.length_eq
    have startLength : start.availableSentences.length = sentences.length := by
      rw [← same]
      exact (queue.length_ofList _).trans (List.length_map _)
    have few := parsed.length_le
    simp only [LoopState.available, List.length_append, List.length_map] at lengths
    unfold enoughFuel at enough
    omega
  obtain ⟨iteration, step⟩ := iterate_ends queue ordersDoubles_exact counters lazyQueue.heap size
  cases iteration with
  | exhausted after => exact Or.inl ⟨after, step, (iterate_exhausted queue step).2.1⟩
  | selected sentence after =>
      refine Or.inr ⟨sentence, after, step, ?_⟩
      intro other member
      exact lazyQueue.selected_greatest (iterate_selected queue step) _
        (List.mem_map_of_mem member)

theorem iterate_selects_greatest_twoLines :
    ∃ start sentence after,
      prepare (sortedQueue _) .machine 8 ['a'] ['a', '\n', 'a'] = some start ∧
      iterate (sortedQueue _) .machine 8 start = some (.selected sentence after) ∧
      ∀ other ∈ after.availableSentences,
        gainPerWord start.features [] other.toParsedSentence ≤
          gainPerWord start.features [] sentence.toParsedSentence := by
  obtain ⟨start, prepared, two⟩ := prepare_twoLines (sortedQueue (Sentence.less (R := ℝ))) .machine
  rcases iterate_selects_greatest (sortedQueue _) .machine 8 ['a'] ['a', '\n', 'a'] start start []
      (by decide) prepared .refl with ⟨after, step, _emptied⟩ | ⟨sentence, after, step, greatest⟩
  · have few := (iterate_exhausted _ step).1
    rw [two] at few
    exact absurd few (by decide)
  · exact ⟨start, sentence, after, prepared, step, greatest⟩

end Filter
