/-
The 8-bit counters of a sentence.

A line that is counted has at most 255 tokens and an n-gram occurs at most once
per position, so neither the length nor any count of a stored sentence wraps.
-/

import DataSelection.Filter.Start

namespace Filter

open Library

/-- The length and the counts of a stored sentence are those of the line, and they
can be divided by. -/
structure CountsLine (wordids : WordMap) (keys : List Ngram) (line : List Char)
    (sentence : ParsedSentence) : Prop where
  length : sentence.length = (tokenize line wordids false).1.length
  positive : 1 ≤ sentence.length
  short : sentence.length ≤ 255
  distinct : sentence.features.Nodup
  known : ∀ gram ∈ sentence.features, gram ∈ keys
  orders : ∀ gram ∈ sentence.features, 1 ≤ gram.length ∧ gram.length ≤ 3
  counts : sentence.counts = sentence.features.map
    (fun gram => occurrences gram (tokenize line wordids false).1)
  bounded : ∀ count ∈ sentence.counts, 1 ≤ count ∧ count ≤ sentence.length
  frequency : ∀ entry ∈ sentence.features.zip sentence.counts,
    0 < (entry.2 : ℝ) / (sentence.length : ℝ) ∧ (entry.2 : ℝ) / (sentence.length : ℝ) ≤ 1
  cost : cost sentence ≠ 0

theorem IsGram.occurrences_le {gram : Ngram} (isGram : IsGram gram) (wordids : WordMap)
    (line : List Char) : occurrences gram (idsOf wordids line) ≤ (words line).length := by
  have bound : occurrences gram (idsOf wordids line) ≤ (idsOf wordids line).length :=
    occurrences_le_length (List.ne_nil_of_length_pos isGram.1)
  rwa [length_idsOf] at bound

variable {R : Type} [DoubleArithmetic R]

section

variable (counters : Counters) {wordids : WordMap} {keys : List Ngram} (index : Nat)
  {line : List Char}

theorem mem_features_lineSentence {gram : Ngram}
    (member : gram ∈ (lineSentence counters wordids keys index line : Sentence R).features) :
    gram ∈ keys ∧ IsGram gram ∧ 0 < occurrences gram (idsOf wordids line) := by
  have counted := countsGrams_lineSentence (R := R) counters wordids keys index line
  rcases List.mem_filter.mp ((counted.members gram).mp member) with ⟨inLine, isKey⟩
  exact ⟨of_decide_eq_true isKey, mem_lineGrams.mp inLine⟩

variable (available : isAvailable wordids keys line = true)

include available

theorem length_lineSentence :
    (lineSentence counters wordids keys index line : Sentence R).length = (words line).length := by
  have short := (isAvailable_iff.mp available).1
  unfold maxSentLength at short
  exact counters.uchar_of_lt (by omega)

theorem counts_lineSentence :
    (lineSentence counters wordids keys index line : Sentence R).counts =
      (lineSentence counters wordids keys index line : Sentence R).features.map
        (fun gram => occurrences gram (idsOf wordids line)) := by
  have counted := countsGrams_lineSentence (R := R) counters wordids keys index line
  have short := (isAvailable_iff.mp available).1
  unfold maxSentLength at short
  rw [counted.counts]
  apply List.map_congr_left
  intro gram member
  rcases mem_features_lineSentence counters index member with ⟨isKey, isGram, _occurs⟩
  have unfiltered : ((lineGrams wordids line).filter (fun gram => gram ∈ keys)).count gram =
      (lineGrams wordids line).count gram := List.count_filter (decide_eq_true isKey)
  have exactly : (lineGrams wordids line).count gram = occurrences gram (idsOf wordids line) :=
    count_getNgrams isGram
  have bound := isGram.occurrences_le wordids line
  rw [unfiltered, exactly]
  exact counters.uchar_of_lt (by omega)

theorem countsLine_lineSentence :
    CountsLine wordids keys line
      (lineSentence counters wordids keys index line : Sentence R).toParsedSentence := by
  have counted := countsGrams_lineSentence (R := R) counters wordids keys index line
  have length : (lineSentence counters wordids keys index line : Sentence R).length =
      (words line).length := length_lineSentence counters index available
  have counts := counts_lineSentence (R := R) counters index available
  have short := (isAvailable_iff.mp available).1
  have positive := (lineSentence_wellFormed (R := R) counters index available).positive
  have bounded : ∀ count ∈ (lineSentence counters wordids keys index line : Sentence R).counts,
      1 ≤ count ∧ count ≤ (lineSentence counters wordids keys index line : Sentence R).length := by
    intro count member
    rw [counts] at member
    rcases List.mem_map.mp member with ⟨gram, isFeature, rfl⟩
    rcases mem_features_lineSentence counters index isFeature with ⟨_isKey, isGram, occurs⟩
    rw [length]
    exact ⟨occurs, isGram.occurrences_le wordids line⟩
  constructor
  · rw [tokenize_false, length_idsOf]
    exact length
  · exact positive
  · rw [length]
    exact short
  · exact counted.nodup
  · exact fun gram member => (mem_features_lineSentence counters index member).1
  · intro gram member
    have isGram := (mem_features_lineSentence counters index member).2.1
    exact ⟨isGram.1, isGram.2.1⟩
  · rw [tokenize_false]
    exact counts
  · exact bounded
  · intro entry member
    have range := bounded entry.2 (List.of_mem_zip member).2
    have wholePositive : (0 : ℝ) <
        ((lineSentence counters wordids keys index line : Sentence R).length : ℝ) :=
      Nat.cast_pos.mpr positive
    constructor
    · exact div_pos (Nat.cast_pos.mpr range.1) wholePositive
    · exact (div_le_one wholePositive).mpr (Nat.cast_le.mpr range.2)
  · exact Nat.ne_of_gt positive

end

/-- Every sentence that a pass over the mined corpus stores has the index of a line
and its exact counts, whatever features are counted. -/
theorem countFeatures_countsLines (fuel : Nat) (features : FeatureMap R)
    (minedCorpus : List Char) (earlier : List (Sentence R)) (wordids : WordMap)
    (enough : minedCorpus.length + 2 ≤ fuel) :
    ∃ (counted : FeatureMap R) (pushed : List (Sentence R)),
      countFeatures .machine fuel features minedCorpus earlier .mined wordids =
        some (counted, earlier ++ pushed) ∧
      ∀ sentence ∈ pushed, ∃ entry ∈ (linesOf minedCorpus).zipIdx,
        sentence.index = Counters.machine.uint entry.2 ∧
        CountsLine wordids features.keys entry.1 sentence.toParsedSentence := by
  obtain ⟨_keys, sentences, _values⟩ := countLines_mined .machine wordids (linesOf minedCorpus) 0
    { features := features, sentences := earlier, lineIndex := 0 }
    (Counters.machine.uint_of_lt (Nat.two_pow_pos 32)).symm
  let after := (linesOf minedCorpus).foldl
    (fun state line => countLine .machine .mined wordids line state)
    { features := features, sentences := earlier, lineIndex := 0 }
  refine ⟨after.features, lineSentences .machine wordids features.keys 0 (linesOf minedCorpus), ?_, ?_⟩
  · rw [countFeatures_eq .machine features earlier .mined wordids enough, sentences]
  · intro sentence member
    rcases mem_lineSentences.mp member with ⟨entry, inLines, available, rfl⟩
    exact ⟨entry, inLines, rfl, countsLine_lineSentence _ _ available⟩

theorem countFeatures_countsLines_twoLines :
    ∃ (counted : FeatureMap ℝ) (pushed : List (Sentence ℝ)),
      countFeatures .machine 5 (DefaultDict.empty.set [1] default) ['a', '\n', 'a'] [] .mined
        (seedWordids ['a']) = some (counted, [] ++ pushed) ∧
      ∀ sentence ∈ pushed, ∃ entry ∈ (linesOf ['a', '\n', 'a']).zipIdx,
        sentence.index = Counters.machine.uint entry.2 ∧
        CountsLine (seedWordids ['a']) [[1]] entry.1 sentence.toParsedSentence :=
  countFeatures_countsLines 5 (DefaultDict.empty.set [1] default) ['a', '\n', 'a'] [] (seedWordids ['a'])
    (by decide)

end Filter
