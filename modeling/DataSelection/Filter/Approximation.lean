/-
The approximation guarantee of the filter.

The objective is a weighted coverage function with a concave profile, hence
monotone and submodular, and the lazy queue makes every charged pick a best one per
word.  A run that stops on its budget has spent it, and one that does not has taken
every sentence.
-/

import DataSelection.Filter.LazyGreedy
import DataSelection.Filter.Outcome

namespace Filter

open Library

noncomputable def setObjective (features : FeatureMap ℝ) : Finset ParsedSentence → ℝ :=
  coverage Real.sqrt features.keys (fun gram => (features.value gram).weight)
    (relevance features)

theorem setObjective_toFinset (features : FeatureMap ℝ) {picks : List ParsedSentence}
    (distinct : picks.Nodup) : setObjective features picks.toFinset = objective features picks := by
  unfold setObjective coverage objective totalRelevance
  congr 1
  apply List.map_congr_left
  intro gram _known
  rw [List.sum_toFinset (relevance features gram) distinct]

theorem setObjective_submodular {features : FeatureMap ℝ} (nonnegative : Nonnegative features) :
    Submodular (setObjective features) :=
  coverage_submodular saturating_sqrt features.keys nonnegative.weight
    (fun _gram known sentence => relevance_nonneg nonnegative known sentence)

theorem marginal_setObjective (features : FeatureMap ℝ) {picks : List ParsedSentence}
    {next : ParsedSentence} (distinct : picks.Nodup) (fresh : next ∉ picks) :
    marginal (setObjective features) picks.toFinset next =
      objective features (picks ++ [next]) - objective features picks := by
  have grown : (picks ++ [next]).Nodup :=
    distinct.append (List.nodup_singleton next) (List.disjoint_singleton.mpr fresh)
  have inserted : insert next picks.toFinset = (picks ++ [next]).toFinset := by
    ext sentence
    simp
  unfold marginal
  rw [inserted, setObjective_toFinset features distinct, setObjective_toFinset features grown]

theorem bestRatio_of_run {queue : PriorityQueue (Sentence.less (R := ℝ))}
    {counters : Counters} {fuel : Nat} {start state : LoopState ℝ} {picks : List ParsedSentence}
    (nonnegative : Nonnegative start.features)
    (entered : LazyQueue queue start.features [] start) (distinct : start.available.Nodup)
    (run : Selects queue counters fuel start picks state) :
    BestRatio (setObjective start.features) (fun sentence => (cost sentence : ℝ))
      start.available.toFinset picks := by
  induction run with
  | refl => exact BestRatio.nil
  | @select picks before after sentence run step ih =>
      have lazyQueue := lazyQueue_run nonnegative entered run
      have selected := iterate_selected queue step
      have account := (run.account queue).1
      have takenFrom := selected.available_perm queue
      have apart := account.nodup_iff.mpr distinct
      have picksDistinct := (List.nodup_append.mp apart).1
      have outside : ∀ other ∈ before.available, other ∉ picks :=
        fun other member picked => (List.nodup_append.mp apart).2.2 other picked other member rfl
      have positive : ∀ other ∈ before.available, (0 : ℝ) < (other.length : ℝ) :=
        fun other member => Nat.cast_pos.mpr (lazyQueue.wellFormed other member).positive
      have sentenceIn := takenFrom.mem_iff.mp List.mem_cons_self
      apply ih.concat
      intro other isAvailable notPicked
      have stillThere : other ∈ before.available := by
        have either := account.mem_iff.mpr (List.mem_toFinset.mp isAvailable)
        exact (List.mem_append.mp either).resolve_left notPicked
      rw [marginal_setObjective start.features picksDistinct notPicked,
        marginal_setObjective start.features picksDistinct (outside _ sentenceIn)]
      rcases List.mem_cons.mp (takenFrom.mem_iff.mpr stillThere) with rfl | left
      · exact le_refl _
      · have compared := lazyQueue.selected_greatest selected other left
        unfold gainPerWord at compared
        exact (div_le_div_iff₀ (positive other stillThere) (positive _ sentenceIn)).mp compared

/-! ### The guarantee -/

theorem share_le {value most : ℝ} (nonneg : 0 ≤ value) (le : value ≤ most) :
    (1 - (Real.exp 1)⁻¹) * value ≤ most := by
  have share : (0 : ℝ) ≤ (Real.exp 1)⁻¹ := inv_nonneg.mpr (Real.exp_nonneg 1)
  have lost := mul_nonneg share nonneg
  linarith

theorem budgetLoop_approximates {queue : PriorityQueue (Sentence.less (R := ℝ))}
    {inner budget fuel : Nat} {start final : LoopState ℝ} {sentences : List ParsedSentence}
    (nonnegative : Nonnegative start.features)
    (lazyQueue : LazyQueue queue start.features [] start) (entered : Entered start)
    (listed : start.available.Perm sentences)
    (indexed : (sentences.map (fun sentence => sentence.index)).Nodup)
    (loop : budgetLoop queue .unbounded inner budget fuel start = some final)
    (target : Finset ParsedSentence) (inside : ∀ sentence ∈ target, sentence ∈ sentences)
    (affordable : ∑ sentence ∈ target, cost sentence ≤ budget) :
    (1 - (Real.exp 1)⁻¹) * setObjective start.features target ≤
      setObjective start.features (chosenSentences sentences final.chosen).toFinset := by
  have submodular := setObjective_submodular nonnegative
  have distinct : start.available.Nodup := listed.nodup_iff.mpr indexed.of_map
  obtain ⟨picks, state, run, reason⟩ := budgetLoop_selects queue fuel loop
  obtain ⟨permuted, chosen⟩ := run.account queue
  rw [entered.chosen, List.nil_append] at chosen
  have taken := permuted.trans listed
  rcases reason with ⟨rfl, spent⟩ | ⟨_below, step⟩
  · rw [chosen, List.toFinset_eq_of_perm _ _ (chosenSentences_perm indexed taken)]
    rw [run.totalCost queue entered.totalCost] at spent
    rcases Nat.eq_zero_or_pos budget with rfl | positive
    · have noTarget : target = ∅ := by
        apply Finset.eq_empty_of_forall_notMem
        intro sentence member
        have wellFormed := entered.wellFormed sentence (listed.mem_iff.mpr (inside _ member))
        have least := Finset.single_le_sum (fun other _ => Nat.zero_le (cost other)) member
        exact absurd (least.trans affordable) (Nat.not_le.mpr wellFormed.positive)
      rw [noTarget, submodular.empty, mul_zero]
      exact submodular.nonneg _
    · have best := bestRatio_of_run nonnegative lazyQueue distinct run
      have targetInside : target ⊆ start.available.toFinset := fun sentence member =>
        List.mem_toFinset.mpr (listed.mem_iff.mpr (inside sentence member))
      refine ratioGreedy_guarantee submodular (fun sentence => Nat.cast_nonneg (cost sentence))
        (Nat.cast_pos.mpr positive) targetInside ?_ picks best ?_
      · exact_mod_cast affordable
      · have charged : (budget : ℝ) ≤ (((picks.map cost).sum : Nat) : ℝ) :=
          Nat.cast_le.mpr spent
        rw [Nat.cast_list_sum, List.map_map] at charged
        exact charged
  · obtain ⟨_few, _emptied, last⟩ := iterate_exhausted queue step
    have everything : final.chosen =
        (picks ++ state.available).map (fun sentence => sentence.index) := by
      rw [last, chosen, List.map_append]
      unfold LoopState.available
      rw [List.map_map]
      rfl
    have all : (picks ++ state.available ++ []).Perm sentences := by
      rw [List.append_nil]
      exact taken
    rw [everything, List.toFinset_eq_of_perm _ _ (chosenSentences_perm indexed all)]
    apply share_le (submodular.nonneg target)
    apply submodular.mono
    intro sentence member
    exact List.mem_toFinset.mpr
      (permuted.mem_iff.mpr (listed.mem_iff.mpr (inside sentence member)))

/-- The selected sentences are worth at least the share `1 - 1/e` of any set of
available sentences that the budget pays for. -/
theorem select_approximates (queue : PriorityQueue (Sentence.less (R := ℝ)))
    (seedCorpus minedCorpus : List Char) (budget more : Nat) :
    ∃ (features : FeatureMap ℝ) (sentences : List (Sentence ℝ)) (final : LoopState ℝ),
      parseCorpora .unbounded (enoughFuel seedCorpus minedCorpus + more) seedCorpus
        minedCorpus = some (features, sentences) ∧
      select queue .unbounded (enoughFuel seedCorpus minedCorpus + more) seedCorpus
        minedCorpus budget = some final ∧
      ∀ target : Finset ParsedSentence,
        (∀ sentence ∈ target, sentence ∈ sentences.map Sentence.toParsedSentence) →
        ∑ sentence ∈ target, cost sentence ≤ budget →
        (1 - (Real.exp 1)⁻¹) *
            objective (calculateFeatureStats features sentences.length) target.toList ≤
          objective (calculateFeatureStats features sentences.length)
            (chosenSentences (sentences.map Sentence.toParsedSentence) final.chosen) := by
  have enough := Nat.le_add_right (enoughFuel seedCorpus minedCorpus) more
  obtain ⟨features, sentences, parse, parsed, started⟩ :=
    prepare_eq queue .unbounded _ seedCorpus minedCorpus enough
  have prepared := (started (startState queue .unbounded features sentences)).mpr
    ⟨Counters.fits_unbounded _, rfl⟩
  obtain ⟨final, loop⟩ :=
    budgetLoop_ends_of_prepare queue ordersDoubles_exact enough prepared budget
  have indexed := parsed.indices_nodup (Counters.indexes_unbounded _)
  refine ⟨features, sentences, final, parse,
    (select_eq_some_iff queue).mpr ⟨_, prepared, loop⟩, ?_⟩
  intro target inside affordable
  have bound := budgetLoop_approximates (nonnegative_of_prepare enough prepared)
    (lazyQueue_of_prepare enough prepared) (entered_of_prepare queue enough prepared)
    (available_startState queue .unbounded features sentences) indexed loop target inside
    affordable
  have targetValue := setObjective_toFinset
    (calculateFeatureStats features sentences.length) target.nodup_toList
  have chosenValue := setObjective_toFinset
    (calculateFeatureStats features sentences.length)
    (indexed.of_map.filter (fun sentence => sentence.index ∈ final.chosen))
  rw [Finset.toList_toFinset] at targetValue
  rw [← targetValue]
  exact bound.trans_eq chosenValue

end Filter
