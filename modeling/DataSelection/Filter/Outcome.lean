/-
What a whole run of the filter leaves behind.

For every budget the selected and the remaining sentences together are the
available ones, and the loop ends with none remaining or with the budget spent.
-/

import DataSelection.Filter.Start

namespace Filter

open Library

/-! ### Line indices -/

/-- Line numbers below `lines` are stored as they are. -/
def Counters.Indexes (counters : Counters) (lines : Nat) : Prop :=
  ∀ position < lines, counters.uint position = position

theorem Counters.indexes_unbounded (lines : Nat) : Counters.unbounded.Indexes lines :=
  fun _ _ => rfl

theorem Counters.indexes_of_le (counters : Counters) {lines : Nat} (few : lines ≤ 2 ^ 32) :
    counters.Indexes lines :=
  fun _ inside => counters.uint_of_lt (Nat.lt_of_lt_of_le inside few)

variable {R : Type} [DoubleArithmetic R]

theorem lineSentences_ordered {counters : Counters} (wordids : WordMap) (keys : List Ngram)
    (first : Nat) (lines : List (List Char)) (indexes : counters.Indexes (first + lines.length)) :
    ((lineSentences counters wordids keys first lines : List (Sentence R)).map
      (fun sentence => sentence.index)).Pairwise (· < ·) := by
  unfold lineSentences
  rw [List.map_map, List.pairwise_map]
  apply List.Pairwise.filter
  have numbered : (lines.zipIdx first).Pairwise (fun left right => left.2 < right.2) := by
    rw [← List.pairwise_map, List.zipIdx_map_snd]
    exact List.pairwise_lt_range'
  refine numbered.imp_of_mem ?_
  intro left right inLeft inRight before
  have leftBound := (List.mem_zipIdx inLeft).2.1
  have rightBound := (List.mem_zipIdx inRight).2.1
  change counters.uint left.2 < counters.uint right.2
  rw [indexes left.2 leftBound, indexes right.2 rightBound]
  exact before

section

variable {counters : Counters} {seedCorpus minedCorpus : List Char} {features : FeatureMap R}
  {sentences : List (Sentence R)}
  (parsed : Parsed counters seedCorpus minedCorpus features sentences)
  (indexes : counters.Indexes (linesOf minedCorpus).length)

include parsed indexes

theorem Parsed.ordered :
    ((sentences.map Sentence.toParsedSentence).map
      (fun sentence => sentence.index)).Pairwise (· < ·) := by
  have numbered : counters.Indexes (0 + (linesOf minedCorpus).length) := by
    rw [Nat.zero_add]
    exact indexes
  have ordered := lineSentences_ordered (R := R) (seedWordids seedCorpus) features.keys 0
    (linesOf minedCorpus) numbered
  rw [← parsed.sentences] at ordered
  rw [List.map_map]
  exact ordered

theorem Parsed.indices_nodup :
    ((sentences.map Sentence.toParsedSentence).map (fun sentence => sentence.index)).Nodup :=
  (parsed.ordered indexes).imp (fun before => Nat.ne_of_lt before)

end

theorem Parsed.index_lt {counters : Counters} {seedCorpus minedCorpus : List Char}
    {features : FeatureMap R} {sentences : List (Sentence R)}
    (parsed : Parsed counters seedCorpus minedCorpus features sentences)
    {sentence : Sentence R} (member : sentence ∈ sentences) :
    sentence.index < (linesOf minedCorpus).length := by
  rw [parsed.sentences] at member
  rcases mem_lineSentences.mp member with ⟨entry, inLines, _available, rfl⟩
  have inside := (List.mem_zipIdx inLines).2.1
  rw [Nat.zero_add] at inside
  exact Nat.lt_of_le_of_lt (counters.uint_le entry.2) inside

def chosenSentences (sentences : List ParsedSentence) (chosen : List Nat) :
    List ParsedSentence :=
  sentences.filter (fun sentence => sentence.index ∈ chosen)

theorem chosenSentences_perm {sentences picks left : List ParsedSentence}
    (indexed : (sentences.map (fun sentence => sentence.index)).Nodup)
    (account : (picks ++ left).Perm sentences) :
    (chosenSentences sentences (picks.map (fun pick => pick.index))).Perm picks := by
  have distinct := indexed.of_map
  have picksDistinct := (List.nodup_append.mp (account.nodup_iff.mpr distinct)).1
  have inside : ∀ pick ∈ picks, pick ∈ sentences :=
    fun pick picked => account.mem_iff.mp (List.mem_append_left left picked)
  apply (List.perm_ext_iff_of_nodup (distinct.filter _) picksDistinct).mpr
  intro sentence
  rw [List.mem_filter, decide_eq_true_iff, List.mem_map]
  constructor
  · rintro ⟨isSentence, pick, picked, sameIndex⟩
    rwa [← List.inj_on_of_nodup_map indexed (inside pick picked) isSentence sameIndex]
  · intro picked
    exact ⟨inside sentence picked, sentence, picked, rfl⟩

/-! ### Ends of runs -/

variable (queue : PriorityQueue (Sentence.less (R := R)))

theorem available_startState (counters : Counters) (features : FeatureMap R)
    (sentences : List (Sentence R)) :
    (startState queue counters features sentences).available.Perm
      (sentences.map Sentence.toParsedSentence) := by
  have permuted := (queue.ofList_perm (sentences.map (refresh (calculateFeatureStats features
    (counters.uint sentences.length)) 0))).map Sentence.toParsedSentence
  rw [List.map_map] at permuted
  exact permuted

/-- `picks` were chosen from the available sentences, `left` remain in the queue, and
the loop has stopped for one of its two reasons. -/
structure Outcome (budget : Nat) (available picks left : List ParsedSentence)
    (chosen : List Nat) : Prop where
  chosen : chosen = picks.map (fun pick => pick.index)
  account : (picks ++ left).Perm available
  ended : left = [] ∨ budget ≤ (picks.map cost).sum

theorem budgetLoop_outcome {counters : Counters} {inner budget fuel : Nat}
    {start final : LoopState R} (entered : Entered start)
    (loop : budgetLoop queue counters inner budget fuel start = some final) :
    ∃ picks, Outcome budget start.available picks final.available final.chosen ∧
      (final.available = [] ∨ Selects queue counters inner start picks final) := by
  obtain ⟨picks, state, run, reason⟩ := budgetLoop_selects queue fuel loop
  obtain ⟨permuted, chosen⟩ := run.account queue
  rw [entered.chosen, List.nil_append] at chosen
  rcases reason with ⟨rfl, spent⟩ | ⟨_below, step⟩
  · rw [run.totalCost queue entered.totalCost] at spent
    exact ⟨picks, ⟨chosen, permuted, Or.inr (spent.trans (counters.uint_le _))⟩, Or.inr run⟩
  · obtain ⟨_few, emptied, last⟩ := iterate_exhausted queue step
    have nothing : final.available = [] := List.map_eq_nil_iff.mpr emptied
    refine ⟨picks ++ state.available, ⟨?_, ?_, Or.inl nothing⟩, Or.inl nothing⟩
    · rw [last, chosen, List.map_append]
      unfold LoopState.available
      rw [List.map_map]
      rfl
    · rw [nothing, List.append_nil]
      exact permuted

theorem select_eq_some_iff {counters : Counters} {fuel : Nat}
    {seedCorpus minedCorpus : List Char} {budget : Nat} {final : LoopState R} :
    select queue counters fuel seedCorpus minedCorpus budget = some final ↔
      ∃ start, prepare queue counters fuel seedCorpus minedCorpus = some start ∧
        budgetLoop queue counters fuel budget fuel start = some final := by
  unfold select
  exact Option.bind_eq_some_iff

/-- With a sound comparison of gains the program ends for every budget. -/
theorem budgetLoop_ends_of_prepare (order : OrdersDoubles R) {counters : Counters} {fuel : Nat}
    {seedCorpus minedCorpus : List Char} {start : LoopState R}
    (enough : enoughFuel seedCorpus minedCorpus ≤ fuel)
    (prepared : prepare queue counters fuel seedCorpus minedCorpus = some start)
    (budget : Nat) :
    ∃ final, budgetLoop queue counters fuel budget fuel start = some final := by
  obtain ⟨features, sentences, _parse, parsed, started⟩ :=
    prepare_eq queue counters fuel seedCorpus minedCorpus enough
  rcases (started start).mp prepared with ⟨_fits, rfl⟩
  have few := parsed.length_le
  have size : (startState queue counters features sentences).availableSentences.length =
      sentences.length := (queue.length_ofList _).trans (List.length_map _)
  unfold enoughFuel at enough
  exact budgetLoop_ends queue order counters budget fuel
    (queue.heap_ofList (Sentence.less_weakOrder order) _) (by omega) (by omega)

/-- Whether the program ends and what it then has chosen, in terms of the sentences
that parsing returns. -/
theorem select_outcome (counters : Counters) {fuel : Nat} {seedCorpus minedCorpus : List Char}
    (enough : enoughFuel seedCorpus minedCorpus ≤ fuel) :
    ∃ (features : FeatureMap R) (sentences : List (Sentence R)),
      parseCorpora counters fuel seedCorpus minedCorpus = some (features, sentences) ∧
      Parsed counters seedCorpus minedCorpus features sentences ∧
      (OrdersDoubles R → counters.Fits sentences.length → ∀ budget,
        ∃ final, select queue counters fuel seedCorpus minedCorpus budget = some final) ∧
      ∀ budget final, select queue counters fuel seedCorpus minedCorpus budget = some final →
        ∃ picks, Outcome budget (sentences.map Sentence.toParsedSentence) picks
          final.available final.chosen := by
  obtain ⟨features, sentences, parse, parsed, started⟩ :=
    prepare_eq queue counters fuel seedCorpus minedCorpus enough
  refine ⟨features, sentences, parse, parsed, ?_, ?_⟩
  · intro order fits budget
    have prepared := (started _).mpr ⟨fits, rfl⟩
    obtain ⟨final, loop⟩ := budgetLoop_ends_of_prepare queue order enough prepared budget
    exact ⟨final, (select_eq_some_iff queue).mpr ⟨_, prepared, loop⟩⟩
  · intro budget final ran
    rcases (select_eq_some_iff queue).mp ran with ⟨start, prepared, loop⟩
    have entered := entered_of_prepare queue enough prepared
    rcases (started start).mp prepared with ⟨_fits, rfl⟩
    obtain ⟨picks, outcome, _run⟩ := budgetLoop_outcome queue entered loop
    exact ⟨picks, outcome.chosen,
      outcome.account.trans (available_startState queue counters features sentences),
      outcome.ended⟩

end Filter
