/-
When the weights and inverse document frequencies are numbers.

The feature set is taken from all mined lines, the counts only from those of at
most 255 tokens, so a feature of over-long lines alone is counted nowhere.  The
counts are 32 bits wide and can also come round to zero.
-/

import DataSelection.Library.CheckedReals
import DataSelection.Filter.Deletion

namespace Filter

open Library
open Library.Checked (number number_div partially partially_number partially_eq_number_iff)

noncomputable scoped instance checkedArithmetic : DoubleArithmetic Checked :=
  { sqrt := Checked.partially (fun x => 0 ≤ x) Real.sqrt
    log := Checked.partially (fun x => 0 < x) Real.log
    lt := Checked.lt }

/-- The counts of a feature, and what is computed from them, are well defined. -/
structure WellDefined (counters : Counters) (features : FeatureMap Checked)
    (sentences : List (Sentence Checked)) (gram : Ngram) : Prop where
  minedCount : 1 ≤ (features.value gram).minedCount
  documents : ∃ documents : Nat, (features.value gram).idf = number documents ∧
    1 ≤ documents ∧ documents ≤ sentences.length
  weight : ∃ weight : ℝ, 0 < weight ∧
    ((calculateFeatureStats features (counters.uint sentences.length)).value gram).weight =
      number weight
  idf : ∃ idf : ℝ, 0 ≤ idf ∧
    ((calculateFeatureStats features (counters.uint sentences.length)).value gram).idf =
      number idf

def IsShared (seedCorpus minedCorpus : List Char) (gram : Ngram) : Prop :=
  (∃ line ∈ linesOf seedCorpus, gram ∈ lineGrams (seedWordids seedCorpus) line) ∧
    ∃ line ∈ linesOf minedCorpus, gram ∈ lineGrams (seedWordids seedCorpus) line

/-- The n-gram is counted in both corpora, and no counter that it depends on comes
round to zero or below the number of lines it is in. -/
structure SurvivesCounting (counters : Counters) (seedCorpus minedCorpus : List Char)
    (gram : Ngram) : Prop where
  seed : counters.uint (gramTotal (seedWordids seedCorpus) (linesOf seedCorpus) gram) ≠ 0
  mined : counters.uint
    (gramTotal (seedWordids seedCorpus) (shortLines (linesOf minedCorpus)) gram) ≠ 0
  documents : documentCount (seedWordids seedCorpus) (shortLines (linesOf minedCorpus)) gram ≤
    counters.uint (selectableLines seedCorpus minedCorpus).length

theorem gramTotal_pos_iff {wordids : WordMap} {lines : List (List Char)} {gram : Ngram} :
    0 < gramTotal wordids lines gram ↔ ∃ line ∈ lines, gram ∈ lineGrams wordids line := by
  unfold gramTotal
  rw [Nat.pos_iff_ne_zero, ne_eq, List.sum_eq_zero_iff]
  simp only [List.mem_map, forall_exists_index, and_imp, forall_apply_eq_imp_iff₂,
    List.count_eq_zero, not_forall, not_not, exists_prop]

theorem documentCount_pos_iff {wordids : WordMap} {lines : List (List Char)} {gram : Ngram} :
    0 < documentCount wordids lines gram ↔ ∃ line ∈ lines, gram ∈ lineGrams wordids line := by
  unfold documentCount
  rw [List.countP_pos_iff]
  simp only [decide_eq_true_eq]

section

variable {counters : Counters} {seedCorpus minedCorpus : List Char}
  {features : FeatureMap Checked} {sentences : List (Sentence Checked)}
  (parsed : Parsed counters seedCorpus minedCorpus features sentences) {gram : Ngram}
  (known : gram ∈ features.keys)

include parsed

theorem Parsed.length_selectableLines :
    sentences.length = (selectableLines seedCorpus minedCorpus).length := by
  rw [parsed.sentences_eq, length_lineSentences, selectableLines, List.countP_eq_length_filter]
  rfl

include known

theorem Parsed.seedCount_eq : (features.value gram).seedCount =
    counters.uint (gramTotal (seedWordids seedCorpus) (linesOf seedCorpus) gram) := by
  rw [parsed.counted gram known]
  exact counters.next_iterate_zero _

theorem Parsed.minedCount_eq : (features.value gram).minedCount = counters.uint
    (gramTotal (seedWordids seedCorpus) (shortLines (linesOf minedCorpus)) gram) := by
  rw [parsed.counted gram known]
  exact counters.next_iterate_zero _

theorem Parsed.idf_eq : (features.value gram).idf = number
    (documentCount (seedWordids seedCorpus) (shortLines (linesOf minedCorpus)) gram) := by
  rw [parsed.counted gram known]
  exact Checked.iterate_add_one _

theorem Parsed.stats_eq :
    ((calculateFeatureStats features (counters.uint sentences.length)).value gram).weight =
        partially (fun x => 0 ≤ x) Real.sqrt (number (features.value gram).seedCount /
          number (features.value gram).minedCount) ∧
      ((calculateFeatureStats features (counters.uint sentences.length)).value gram).idf =
        partially (fun x => 0 < x) Real.log (number (counters.uint sentences.length) /
          number (documentCount (seedWordids seedCorpus) (shortLines (linesOf minedCorpus))
            gram)) := by
  rw [value_calculateFeatureStats known, parsed.idf_eq known]
  exact ⟨rfl, rfl⟩

theorem Parsed.wellDefined_of_survives
    (survives : SurvivesCounting counters seedCorpus minedCorpus gram) :
    WellDefined counters features sentences gram := by
  have mined : 1 ≤ (features.value gram).minedCount := by
    rw [parsed.minedCount_eq known]
    exact Nat.pos_of_ne_zero survives.mined
  have seed : 1 ≤ (features.value gram).seedCount := by
    rw [parsed.seedCount_eq known]
    exact Nat.pos_of_ne_zero survives.seed
  have total : 0 < gramTotal (seedWordids seedCorpus) (shortLines (linesOf minedCorpus)) gram :=
    Nat.lt_of_lt_of_le (Nat.pos_of_ne_zero survives.mined) (counters.uint_le _)
  have inSome : 0 < documentCount (seedWordids seedCorpus) (shortLines (linesOf minedCorpus))
      gram := documentCount_pos_iff.mpr (gramTotal_pos_iff.mp total)
  have few := survives.documents
  rw [← parsed.length_selectableLines] at few
  have minedReal : (0 : ℝ) < ((features.value gram).minedCount : ℝ) := Nat.cast_pos.mpr mined
  have seedReal : (0 : ℝ) < ((features.value gram).seedCount : ℝ) := Nat.cast_pos.mpr seed
  have docsReal : (0 : ℝ) < (documentCount (seedWordids seedCorpus)
      (shortLines (linesOf minedCorpus)) gram : ℝ) := Nat.cast_pos.mpr inSome
  have atLeast : (1 : ℝ) ≤ (counters.uint sentences.length : ℝ) /
      (documentCount (seedWordids seedCorpus) (shortLines (linesOf minedCorpus)) gram : ℝ) := by
    rw [one_le_div docsReal]
    exact Nat.cast_le.mpr few
  rcases parsed.stats_eq known with ⟨weight, idf⟩
  constructor
  · exact mined
  · exact ⟨_, parsed.idf_eq known, inSome, parsed.documentCount_le known⟩
  · refine ⟨_, Real.sqrt_pos.mpr (div_pos seedReal minedReal), ?_⟩
    rw [weight, number_div minedReal.ne', partially_number (div_pos seedReal minedReal).le]
  · refine ⟨_, Real.log_nonneg atLeast, ?_⟩
    rw [idf, number_div docsReal.ne', partially_number (lt_of_lt_of_le one_pos atLeast)]

theorem Parsed.survives_of_wellDefined (wellDefined : WellDefined counters features sentences gram) :
    SurvivesCounting counters seedCorpus minedCorpus gram := by
  rcases parsed.stats_eq known with ⟨weightEq, idfEq⟩
  have mined := wellDefined.minedCount
  have minedReal : (0 : ℝ) < ((features.value gram).minedCount : ℝ) := Nat.cast_pos.mpr mined
  constructor
  · rw [← parsed.seedCount_eq known]
    intro zero
    rcases wellDefined.weight with ⟨weight, positive, same⟩
    rw [weightEq, zero, number_div minedReal.ne', Nat.cast_zero, zero_div,
      partially_number le_rfl, Real.sqrt_zero] at same
    exact absurd (Checked.number.inj same) positive.ne
  · rw [← parsed.minedCount_eq known]
    exact Nat.ne_of_gt mined
  · rw [← parsed.length_selectableLines]
    rcases wellDefined.documents with ⟨documents, same, inSome, _⟩
    rw [parsed.idf_eq known] at same
    have counted : documentCount (seedWordids seedCorpus) (shortLines (linesOf minedCorpus)) gram =
        documents := Nat.cast_injective (Checked.number.inj same)
    have docsReal : (0 : ℝ) < (documents : ℝ) := Nat.cast_pos.mpr inSome
    rcases wellDefined.idf with ⟨idf, nonneg, stored⟩
    rw [idfEq, counted, number_div docsReal.ne', partially_eq_number_iff] at stored
    rcases stored with ⟨positive, rfl⟩
    have atLeast : (1 : ℝ) ≤ (counters.uint sentences.length : ℝ) / (documents : ℝ) := by
      by_contra less
      exact absurd nonneg (not_le.mpr (Real.log_neg positive (not_le.mp less)))
    rw [one_le_div docsReal] at atLeast
    rw [counted]
    exact Nat.cast_le.mp atLeast

end

theorem Parsed.mem_keys_iff_shared {counters : Counters} {seedCorpus minedCorpus : List Char}
    {features : FeatureMap Checked} {sentences : List (Sentence Checked)}
    (parsed : Parsed counters seedCorpus minedCorpus features sentences) {gram : Ngram} :
    gram ∈ features.keys ↔ IsShared seedCorpus minedCorpus gram := parsed.keys gram

/-- The statistics of all features are well defined exactly when every n-gram that
the corpora share survives the counting. -/
theorem calculateFeatureStats_wellDefined_iff (counters : Counters) (fuel : Nat)
    (seedCorpus minedCorpus : List Char) (enough : enoughFuel seedCorpus minedCorpus ≤ fuel) :
    ∃ (features : FeatureMap Checked) (sentences : List (Sentence Checked)),
      parseCorpora counters fuel seedCorpus minedCorpus = some (features, sentences) ∧
      ((∀ gram ∈ features.keys, WellDefined counters features sentences gram) ↔
        ∀ gram, IsShared seedCorpus minedCorpus gram →
          SurvivesCounting counters seedCorpus minedCorpus gram) := by
  unfold enoughFuel at enough
  obtain ⟨features, sentences, parse, parsed⟩ := parseCorpora_parsed (R := Checked) counters fuel
    seedCorpus minedCorpus (by omega) (by omega)
  refine ⟨features, sentences, parse, ?_⟩
  constructor
  · intro wellDefined gram shared
    have known := parsed.mem_keys_iff_shared.mpr shared
    exact parsed.survives_of_wellDefined known (wellDefined gram known)
  · intro survives gram known
    exact parsed.wellDefined_of_survives known (survives gram (parsed.mem_keys_iff_shared.mp known))

/-- While the counters do not wrap, one mined line of at most 255 tokens is enough. -/
theorem survivesCounting_unbounded_iff {seedCorpus minedCorpus : List Char} {gram : Ngram}
    (shared : IsShared seedCorpus minedCorpus gram) :
    SurvivesCounting .unbounded seedCorpus minedCorpus gram ↔
      ∃ line ∈ shortLines (linesOf minedCorpus),
        gram ∈ lineGrams (seedWordids seedCorpus) line := by
  constructor
  · intro survives
    exact gramTotal_pos_iff.mp (Nat.pos_of_ne_zero survives.mined)
  · intro counted
    constructor
    · exact Nat.ne_of_gt (gramTotal_pos_iff.mpr shared.1)
    · exact Nat.ne_of_gt (gramTotal_pos_iff.mpr counted)
    · obtain ⟨features, sentences, _parse, parsed⟩ := parseCorpora_parsed (R := Checked)
        .unbounded (enoughFuel seedCorpus minedCorpus) seedCorpus minedCorpus
        (by unfold enoughFuel; omega) (by unfold enoughFuel; omega)
      have bound := parsed.documentCount_le (parsed.mem_keys_iff_shared.mpr shared)
      rw [parsed.length_selectableLines] at bound
      exact bound

theorem calculateFeatureStats_wellDefined_iff_twoLines :
    ∃ (features : FeatureMap Checked) (sentences : List (Sentence Checked)),
      parseCorpora .machine 8 ['a'] ['a', '\n', 'a'] = some (features, sentences) ∧
      ((∀ gram ∈ features.keys, WellDefined .machine features sentences gram) ↔
        ∀ gram, IsShared ['a'] ['a', '\n', 'a'] gram →
          SurvivesCounting .machine ['a'] ['a', '\n', 'a'] gram) :=
  calculateFeatureStats_wellDefined_iff .machine 8 ['a'] ['a', '\n', 'a'] (by decide)

def longLine : List Char := (List.replicate 256 ['a', ' ']).flatten

/-- The only line with the word is over-long, so the word is counted nowhere. -/
theorem longLine_undefined :
    ∃ (features : FeatureMap Checked) (sentences : List (Sentence Checked)),
      parseCorpora .machine (enoughFuel ['a'] longLine) ['a'] longLine =
        some (features, sentences) ∧
      [1] ∈ features.keys ∧ (features.value [1]).minedCount = 0 ∧
      ((calculateFeatureStats features (Counters.machine.uint sentences.length)).value
        [1]).weight = Checked.undefined ∧
      ¬ WellDefined .machine features sentences [1] := by
  obtain ⟨features, sentences, parse, parsed⟩ := parseCorpora_parsed (R := Checked) .machine
    (enoughFuel ['a'] longLine) ['a'] longLine (by unfold enoughFuel; omega)
    (by unfold enoughFuel; omega)
  have uncounted : shortLines (linesOf longLine) = [] := by decide +kernel
  have oneLine : linesOf longLine = [longLine] := by decide +kernel
  have shared : IsShared ['a'] longLine [1] := by
    constructor
    · exact ⟨['a'], by decide, oneWordLine_single.hasWord⟩
    · refine ⟨longLine, ?_, mem_lineGrams.mpr ⟨⟨by decide, by decide, by decide⟩, by decide +kernel⟩⟩
      rw [oneLine]
      exact List.mem_singleton_self _
  have known := parsed.mem_keys_iff_shared.mpr shared
  have never : (features.value [1]).minedCount = 0 := by
    rw [parsed.minedCount_eq known, uncounted]
    rfl
  refine ⟨features, sentences, parse, known, never, ?_, ?_⟩
  · rw [(parsed.stats_eq known).1, never, Nat.cast_zero, Checked.div_zero]
    rfl
  · intro wellDefined
    have counted := wellDefined.minedCount
    omega

end Filter
