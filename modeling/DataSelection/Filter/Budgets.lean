/-
How the budget shapes a run.

The budget only decides where the loop stops on a path that does not depend on it.
A larger budget therefore continues the selection of a smaller one, and a selection
stays within its budget exactly when the path stops on the budget or ends before it.
-/

import DataSelection.Filter.Output

namespace Filter

open Library

variable {R : Type} [DoubleArithmetic R] (queue : PriorityQueue (Sentence.less (R := R)))

/-! ### Two budgets -/

theorem budgetLoop_chosen_prefix {counters : Counters} {inner budget : Nat} (fuel : Nat)
    {start final : LoopState R}
    (loop : budgetLoop queue counters inner budget fuel start = some final) :
    start.chosen <+: final.chosen := by
  obtain ⟨picks, state, run, reason⟩ := budgetLoop_selects queue fuel loop
  have grown : start.chosen <+: state.chosen := by
    rw [(run.account queue).2]
    exact List.prefix_append _ _
  cases reason with
  | inl stopped =>
      rw [stopped.1]
      exact grown
  | inr exhausted =>
      rw [(iterate_exhausted queue exhausted.2).2.2]
      exact grown.trans (List.prefix_append _ _)

/-- Where the loop ends for a larger budget, it has ended or passed for a smaller one. -/
theorem budgetLoop_prefix {counters : Counters} {inner budget larger : Nat}
    (le : budget ≤ larger) (fuel : Nat) {start final : LoopState R}
    (loop : budgetLoop queue counters inner larger fuel start = some final) :
    ∃ earlier, budgetLoop queue counters inner budget fuel start = some earlier ∧
      earlier.chosen <+: final.chosen := by
  induction fuel generalizing start with
  | zero => cases loop
  | succ fuel ih =>
      by_cases below : start.totalCost < budget
      · have belowLarger : start.totalCost < larger := Nat.lt_of_lt_of_le below le
        rw [budgetLoop, if_pos belowLarger] at loop
        rw [budgetLoop, if_pos below]
        cases step : iterate queue counters inner start with
        | none =>
            rw [step] at loop
            cases loop
        | some iteration =>
            rw [step] at loop
            cases iteration with
            | exhausted after => exact ⟨final, loop, List.prefix_refl _⟩
            | selected sentence after => exact ih loop
      · have stopped : budgetLoop queue counters inner budget (fuel + 1) start = some start := by
          rw [budgetLoop, if_neg below]
        exact ⟨start, stopped, budgetLoop_chosen_prefix queue (fuel + 1) loop⟩

theorem outputSentences_sublist {corpus : List Char} {fewer chosen : List Nat}
    (shorter : fewer <+: chosen) (inRange : ∀ index ∈ chosen, index < (linesOf corpus).length) :
    (outputSentences corpus fewer).Sublist (outputSentences corpus chosen) := by
  have fewerInRange : ∀ index ∈ fewer, index < (linesOf corpus).length :=
    fun index member => inRange index (shorter.subset member)
  have included : (fewer.mergeSort (· ≤ ·)).Subperm (chosen.mergeSort (· ≤ ·)) :=
    ((List.mergeSort_perm fewer _).subperm.trans shorter.sublist.subperm).trans
      (List.mergeSort_perm chosen _).symm.subperm
  rw [outputSentences_eq inRange, outputSentences_eq fewerInRange]
  exact (List.sublist_of_subperm_of_pairwise included (List.pairwise_mergeSort' (· ≤ ·) fewer)
    (List.pairwise_mergeSort' (· ≤ ·) chosen)).map _

/-- The selection for a budget is a prefix of the selection for a larger one, and
its output is part of the other's, in the same order. -/
theorem select_prefix (counters : Counters) (seedCorpus minedCorpus : List Char)
    (budget larger more : Nat) (le : budget ≤ larger) :
    ∃ (features : FeatureMap R) (sentences : List (Sentence R)),
      parseCorpora counters (enoughFuel seedCorpus minedCorpus + more) seedCorpus minedCorpus =
        some (features, sentences) ∧
      (OrdersDoubles R → counters.Fits sentences.length → ∃ final,
        select queue counters (enoughFuel seedCorpus minedCorpus + more) seedCorpus minedCorpus
          larger = some final) ∧
      ∀ final, select queue counters (enoughFuel seedCorpus minedCorpus + more) seedCorpus
          minedCorpus larger = some final →
        ∃ earlier, select queue counters (enoughFuel seedCorpus minedCorpus + more) seedCorpus
            minedCorpus budget = some earlier ∧
          earlier.chosen <+: final.chosen ∧
          (outputSentences minedCorpus earlier.chosen).Sublist
            (outputSentences minedCorpus final.chosen) := by
  have enough := Nat.le_add_right (enoughFuel seedCorpus minedCorpus) more
  obtain ⟨features, sentences, parse, parsed, ends, outcomes⟩ :=
    select_outcome queue counters enough
  refine ⟨features, sentences, parse, fun order fits => ends order fits larger, ?_⟩
  intro final ran
  obtain ⟨picks, outcome⟩ := outcomes larger final ran
  rcases (select_eq_some_iff queue).mp ran with ⟨start, prepared, loop⟩
  obtain ⟨earlier, stopped, shorter⟩ := budgetLoop_prefix queue le _ loop
  exact ⟨earlier, (select_eq_some_iff queue).mpr ⟨start, prepared, stopped⟩, shorter,
    outputSentences_sublist shorter (outcome.index_lt parsed)⟩

theorem select_one {counters : Counters} {fuel : Nat} {seedCorpus minedCorpus : List Char}
    (enough : enoughFuel seedCorpus minedCorpus ≤ fuel) (small : ∀ count, counters.uint count = count)
    {start final : LoopState R} (prepared : prepare queue counters fuel seedCorpus minedCorpus = some start)
    (several : 1 < start.availableSentences.length)
    (ran : select queue counters fuel seedCorpus minedCorpus 1 = some final) :
    final.chosen.length = 1 := by
  have entered := entered_of_prepare queue enough prepared
  obtain ⟨other, isPrepared, loop⟩ := (select_eq_some_iff queue).mp ran
  obtain rfl := Option.some.inj (prepared.symm.trans isPrepared)
  cases fuel with
  | zero => cases loop
  | succ fuel =>
      rw [budgetLoop, if_pos (by rw [entered.totalCost]; exact Nat.one_pos)] at loop
      cases step : iterate queue counters (fuel + 1) start with
      | none =>
          rw [step] at loop
          cases loop
      | some iteration =>
          rw [step] at loop
          cases iteration with
          | exhausted after =>
              exact absurd (iterate_exhausted queue step).1 (Nat.not_le.mpr several)
          | selected sentence after =>
              have run : Selects queue counters (fuel + 1) start [sentence.toParsedSentence] after :=
                Selects.refl.select step
              have charged : 0 < cost sentence.toParsedSentence :=
                ((entered.wellFormed_of_run queue run).1 _ List.mem_cons_self).positive
              have spent : ¬after.totalCost < 1 := by
                rw [run.totalCost queue entered.totalCost, small, List.map_singleton,
                  List.sum_singleton]
                omega
              cases fuel with
              | zero => cases loop
              | succ fuel =>
                  simp only [budgetLoop, if_neg spent] at loop
                  cases loop
                  rw [(run.account queue).2, entered.chosen]
                  rfl

/-- Of two lines with the only word of the seed, a budget of one word takes one and a budget of two
words takes both. -/
theorem select_prefix_twoLines :
    ∃ final earlier : LoopState ℝ,
      select (sortedQueue _) .unbounded 8 ['a'] ['a', '\n', 'a'] 2 = some final ∧
      select (sortedQueue _) .unbounded 8 ['a'] ['a', '\n', 'a'] 1 = some earlier ∧
      earlier.chosen <+: final.chosen ∧ earlier.chosen.length = 1 ∧ final.chosen.length = 2 := by
  obtain ⟨_, _, _parse, ends, shorter⟩ :=
    select_prefix (sortedQueue (Sentence.less (R := ℝ))) .unbounded ['a'] ['a', '\n', 'a'] 1 2 0
      (Nat.le_succ 1)
  obtain ⟨final, ran⟩ := ends ordersDoubles_exact (Counters.fits_unbounded _)
  obtain ⟨earlier, stopped, before, _output⟩ := shorter final ran
  obtain ⟨start, prepared, two⟩ := prepare_twoLines (sortedQueue (Sentence.less (R := ℝ))) .unbounded
  refine ⟨final, earlier, ran, stopped, before, ?_, ?_⟩
  · exact select_one (sortedQueue _) (by decide) (fun _ => rfl) prepared
      (by rw [two]; exact Nat.one_lt_two) stopped
  · obtain ⟨other, isPrepared, loop⟩ := (select_eq_some_iff (sortedQueue _)).mp ran
    obtain rfl := Option.some.inj (prepared.symm.trans isPrepared)
    obtain ⟨features, sentences, _, parsed, started⟩ := prepare_eq
      (sortedQueue (Sentence.less (R := ℝ))) .unbounded 8 ['a'] ['a', '\n', 'a'] (by decide)
    obtain ⟨_, isStart⟩ := (started start).mp prepared
    have entered := entered_of_prepare (sortedQueue _) (by decide) prepared
    obtain ⟨picks, outcome, _⟩ := budgetLoop_outcome (sortedQueue _) entered loop
    have lines : ∀ entry ∈ (linesOf ['a', '\n', 'a']).zipIdx 0, (words entry.1).length = 1 := by decide
    have oneWord : ∀ pick ∈ picks, cost pick = 1 := by
      intro pick member
      have isAvailable := outcome.account.subset (List.mem_append_left _ member)
      rw [← isStart] at isAvailable
      obtain ⟨sentence, isSentence, rfl⟩ := List.mem_map.mp
        ((available_startState (sortedQueue _) _ _ _).subset isAvailable)
      rw [parsed.sentences] at isSentence
      obtain ⟨entry, isLine, _, rfl⟩ := mem_lineSentences.mp isSentence
      exact lines entry isLine
    have isSum : (picks.map cost).sum = picks.length := by
      rw [List.map_congr_left oneWord, List.map_const', List.sum_replicate, smul_eq_mul, mul_one]
    have account := outcome.account.length_eq
    have isTwo : start.available.length = 2 := (List.length_map _).trans two
    rw [List.length_append, isTwo] at account
    rw [outcome.chosen, List.length_map]
    rcases outcome.ended with nothing | spent
    · rw [nothing, List.length_nil] at account
      omega
    · rw [isSum] at spent
      omega

/-! ### Staying within the budget -/

theorem budgetLoop_follows {counters : Counters} {inner budget fuel : Nat}
    {start state final : LoopState R} {picks : List ParsedSentence}
    (entered : Entered start) (run : Selects queue counters inner start picks state)
    (within : (picks.map cost).sum ≤ budget)
    (loop : budgetLoop queue counters inner budget fuel start = some final) :
    ∃ remaining, budgetLoop queue counters inner budget remaining state = some final := by
  induction run with
  | refl => exact ⟨fuel, loop⟩
  | @select picks before after sentence run step ih =>
      rw [List.map_append, List.sum_append, List.map_singleton, List.sum_singleton] at within
      have charged : 0 < cost sentence.toParsedSentence :=
        ((entered.wellFormed_of_run queue (run.select step)).1 _
          (List.mem_append_right picks (List.mem_singleton_self _))).positive
      obtain ⟨remaining, continued⟩ := ih (by omega)
      have spent : before.totalCost ≤ (picks.map cost).sum := by
        rw [run.totalCost queue entered.totalCost]
        exact counters.uint_le _
      cases remaining with
      | zero => cases continued
      | succ remaining =>
          rw [budgetLoop, if_pos (by omega), step] at continued
          exact ⟨remaining, continued⟩

/-- The path without a budget passes through a point where exactly `budget` is spent. -/
def ReachesCost (counters : Counters) (inner : Nat) (start : LoopState R) (budget : Nat) : Prop :=
  ∃ picks state, Selects queue counters inner start picks state ∧ (picks.map cost).sum = budget

theorem budgetLoop_withinBudget_iff {counters : Counters} {inner budget fuel : Nat}
    {start final : LoopState R} (entered : Entered start) (fits : counters.Fits budget)
    (loop : budgetLoop queue counters inner budget fuel start = some final) :
    ∃ picks, Outcome budget start.available picks final.available final.chosen ∧
      ((picks.map cost).sum ≤ budget ↔
        (start.available.map cost).sum ≤ budget ∨
          ReachesCost queue counters inner start budget) := by
  by_cases reaches : ReachesCost queue counters inner start budget
  · rcases reaches with ⟨picks, state, run, exact⟩
    obtain ⟨permuted, chosen⟩ := run.account queue
    obtain ⟨remaining, continued⟩ := budgetLoop_follows queue entered run (Nat.le_of_eq exact) loop
    have spent : state.totalCost = budget := by
      rw [run.totalCost queue entered.totalCost, exact, fits]
    have same : final = state := by
      cases remaining with
      | zero => cases continued
      | succ remaining =>
          rw [budgetLoop, if_neg (by omega)] at continued
          exact (Option.some.inj continued).symm
    subst same
    rw [entered.chosen, List.nil_append] at chosen
    exact ⟨picks, ⟨chosen, permuted, Or.inr (Nat.le_of_eq exact.symm)⟩,
      fun _ => Or.inr ⟨picks, final, run, exact⟩, fun _ => Nat.le_of_eq exact⟩
  · obtain ⟨picks, outcome, path⟩ := budgetLoop_outcome queue entered loop
    have total := (outcome.account.map cost).sum_eq
    rw [List.map_append, List.sum_append] at total
    refine ⟨picks, outcome, ?_⟩
    constructor
    · intro within
      refine Or.inl ?_
      cases path with
      | inl nothing =>
          rw [nothing, List.map_nil, List.sum_nil] at total
          omega
      | inr run =>
          cases outcome.ended with
          | inl nothing =>
              rw [nothing, List.map_nil, List.sum_nil] at total
              omega
          | inr spent => exact (reaches ⟨picks, final, run, Nat.le_antisymm within spent⟩).elim
    · intro either
      have affordable := either.resolve_right reaches
      omega

/-- A selection stays within its budget exactly when all available sentences do, or
when the lengths of the sentences that the loop takes first add up to the budget. -/
theorem select_withinBudget_iff (seedCorpus minedCorpus : List Char) (budget more : Nat)
    (small : budget < 2 ^ 32) :
    ∃ (features : FeatureMap R) (sentences : List (Sentence R)),
      parseCorpora .machine (enoughFuel seedCorpus minedCorpus + more) seedCorpus minedCorpus =
        some (features, sentences) ∧
      (OrdersDoubles R → sentences.length < 2 ^ 32 → ∃ final,
        select queue .machine (enoughFuel seedCorpus minedCorpus + more) seedCorpus minedCorpus
          budget = some final) ∧
      ∀ final, select queue .machine (enoughFuel seedCorpus minedCorpus + more) seedCorpus
          minedCorpus budget = some final →
        ∃ start picks,
          prepare queue .machine (enoughFuel seedCorpus minedCorpus + more) seedCorpus
            minedCorpus = some start ∧
          Outcome budget (sentences.map Sentence.toParsedSentence) picks final.available
            final.chosen ∧
          ((picks.map cost).sum ≤ budget ↔
            ((sentences.map Sentence.toParsedSentence).map cost).sum ≤ budget ∨
              ReachesCost queue .machine (enoughFuel seedCorpus minedCorpus + more) start
                budget) := by
  have enough := Nat.le_add_right (enoughFuel seedCorpus minedCorpus) more
  generalize enoughFuel seedCorpus minedCorpus + more = fuel at enough ⊢
  obtain ⟨features, sentences, parse, parsed, started⟩ :=
    prepare_eq queue .machine fuel seedCorpus minedCorpus enough
  refine ⟨features, sentences, parse, ?_, ?_⟩
  · intro order few
    have prepared := (started _).mpr ⟨Counters.fits_machine_iff.mpr few, rfl⟩
    obtain ⟨final, loop⟩ := budgetLoop_ends_of_prepare queue order enough prepared budget
    exact ⟨final, (select_eq_some_iff queue).mpr ⟨_, prepared, loop⟩⟩
  · intro final ran
    rcases (select_eq_some_iff queue).mp ran with ⟨start, prepared, loop⟩
    have entered := entered_of_prepare queue enough prepared
    obtain ⟨picks, outcome, within⟩ :=
      budgetLoop_withinBudget_iff queue entered (Counters.fits_machine_iff.mpr small) loop
    have listed : start.available.Perm (sentences.map Sentence.toParsedSentence) := by
      rcases (started start).mp prepared with ⟨_fits, rfl⟩
      exact available_startState queue .machine features sentences
    rw [(listed.map cost).sum_eq] at within
    exact ⟨start, picks, prepared,
      ⟨outcome.chosen, outcome.account.trans listed, outcome.ended⟩, within⟩

theorem select_withinBudget_iff_twoLines :
    ∃ (features : FeatureMap ℝ) (sentences : List (Sentence ℝ)),
      parseCorpora .machine 8 ['a'] ['a', '\n', 'a'] = some (features, sentences) ∧
      (OrdersDoubles ℝ → sentences.length < 2 ^ 32 → ∃ final : LoopState ℝ,
        select (sortedQueue _) .machine 8 ['a'] ['a', '\n', 'a'] 1 = some final) ∧
      ∀ final : LoopState ℝ,
        select (sortedQueue _) .machine 8 ['a'] ['a', '\n', 'a'] 1 = some final →
        ∃ (start : LoopState ℝ) (picks : List ParsedSentence),
          prepare (sortedQueue _) .machine 8 ['a'] ['a', '\n', 'a'] = some start ∧
          Outcome 1 (sentences.map Sentence.toParsedSentence) picks final.available
            final.chosen ∧
          ((picks.map cost).sum ≤ 1 ↔
            ((sentences.map Sentence.toParsedSentence).map cost).sum ≤ 1 ∨
              ReachesCost (sortedQueue _) .machine 8 start 1) :=
  select_withinBudget_iff (sortedQueue _) ['a'] ['a', '\n', 'a'] 1 0 (by decide)

theorem oneWordLine_triple : OneWordLine ['a', ' ', 'a', ' ', 'a'] :=
  ⟨by decide, by decide, mem_lineGrams.mpr ⟨⟨by decide, by decide, by decide⟩, by decide⟩⟩

theorem singleLine_exceedsBudget :
    ∃ (features : FeatureMap ℝ) (sentences : List (Sentence ℝ)) (final : LoopState ℝ),
      parseCorpora .machine 10 ['a'] ['a', ' ', 'a', ' ', 'a'] = some (features, sentences) ∧
      select (sortedQueue _) .machine 10 ['a'] ['a', ' ', 'a', ' ', 'a'] 1 = some final ∧
      ¬ ((chosenSentences (sentences.map Sentence.toParsedSentence) final.chosen).map
        cost).sum ≤ 1 := by
  obtain ⟨features, final, parse, ran, chosen⟩ := select_blankThen oneWordLine_triple
    (sortedQueue _) ordersDoubles_exact .machine 0 (Nat.le_refl 10)
  refine ⟨features, _, final, parse, ran, ?_⟩
  rw [chosen]
  have wholeFile : chosenSentences (([lineSentence .machine (seedWordids ['a']) features.keys
        (Counters.machine.uint 0) ['a', ' ', 'a', ' ', 'a']] :
      List (Sentence ℝ)).map Sentence.toParsedSentence) [Counters.machine.uint 0] =
      [(lineSentence .machine (seedWordids ['a']) features.keys (Counters.machine.uint 0)
        ['a', ' ', 'a', ' ', 'a'] : Sentence ℝ).toParsedSentence] :=
    List.filter_cons_of_pos (decide_eq_true (List.mem_singleton_self _))
  rw [wholeFile, List.map_singleton, List.sum_singleton]
  change ¬ Counters.machine.uchar (words ['a', ' ', 'a', ' ', 'a']).length ≤ 1
  decide

end Filter
