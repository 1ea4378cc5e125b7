/-
The state in which the budget loop is entered.

Every available sentence carries the gain it has when nothing is chosen.  The loop
that stores these gains counts in 32 bits and ends only if that suffices.
-/

import DataSelection.Filter.Steps
import DataSelection.Filter.Statistics

namespace Filter

open Library

variable {R : Type} [DoubleArithmetic R]

/-- The 32-bit index can reach the end of a vector of this length. -/
def Counters.Fits (counters : Counters) (length : Nat) : Prop := counters.uint length = length

theorem Counters.fits_unbounded (length : Nat) : Counters.unbounded.Fits length := rfl

theorem Counters.fits_machine_iff {length : Nat} :
    Counters.machine.Fits length ↔ length < 2 ^ 32 := by
  constructor
  · intro fits
    rw [← fits]
    exact Nat.mod_lt length (Nat.two_pow_pos 32)
  · exact fun small => Nat.mod_eq_of_lt small

theorem Counters.Fits.of_le {counters : Counters} {length shorter : Nat}
    (fits : counters.Fits length) (le : shorter ≤ length) : counters.Fits shorter := by
  cases counters with
  | machine =>
      exact Counters.fits_machine_iff.mpr
        (Nat.lt_of_le_of_lt le (Counters.fits_machine_iff.mp fits))
  | unbounded => rfl

theorem Counters.fits_uint (counters : Counters) (count : Nat) :
    counters.Fits (counters.uint count) := by
  cases counters with
  | machine => exact Nat.mod_mod count _
  | unbounded => rfl

/-! ### The initial gains -/

theorem initialGains_some {counters : Counters} {features : FeatureMap R} (fuel i : Nat)
    {sentences result : List (Sentence R)}
    (loop : initialGains counters features fuel i sentences = some result)
    (indexFits : counters.Fits i)
    (stored : ∀ position (inRange : position < sentences.length), position < i →
      refresh features 0 sentences[position] = sentences[position]) :
    result = sentences.map (refresh features 0) ∧ counters.Fits sentences.length := by
  induction fuel generalizing i sentences with
  | zero => cases loop
  | succ fuel ih =>
      rw [initialGains] at loop
      by_cases inside : i < sentences.length
      · rw [if_pos inside] at loop
        obtain ⟨same, fits⟩ := ih _ loop (counters.fits_uint (i + 1)) (by
          intro position inRange before
          rw [List.length_modify] at inRange
          rw [List.getElem_modify]
          by_cases here : i = position
          · rw [if_pos here]
            exact refresh_refresh features 0 _
          · rw [if_neg here]
            have le := counters.uint_le (i + 1)
            exact stored position inRange (by omega))
        rw [List.length_modify] at fits
        refine ⟨?_, fits⟩
        rw [same]
        apply List.ext_getElem
        · simp
        · intro position left right
          rw [List.getElem_map, List.getElem_map, List.getElem_modify]
          by_cases here : i = position
          · rw [if_pos here]
            exact refresh_refresh features 0 _
          · rw [if_neg here]
      · rw [if_neg inside] at loop
        have all := Nat.le_of_not_lt inside
        refine ⟨?_, indexFits.of_le all⟩
        obtain rfl := Option.some.inj loop
        apply List.ext_getElem
        · simp
        · intro position left right
          rw [List.getElem_map]
          exact (stored position left (Nat.lt_of_lt_of_le left all)).symm

theorem initialGains_ends {counters : Counters} (features : FeatureMap R) (fuel i : Nat)
    {sentences : List (Sentence R)} (fits : counters.Fits sentences.length)
    (enough : sentences.length + 1 ≤ fuel + i) (inside : i ≤ sentences.length) :
    ∃ result, initialGains counters features fuel i sentences = some result := by
  induction fuel generalizing i sentences with
  | zero => omega
  | succ fuel ih =>
      rw [initialGains]
      by_cases more : i < sentences.length
      · have next : counters.uint (i + 1) = i + 1 := fits.of_le more
        rw [if_pos more, next]
        apply ih
        · rw [List.length_modify]
          exact fits
        · rw [List.length_modify]
          omega
        · rw [List.length_modify]
          exact more
      · exact ⟨sentences, if_neg more⟩

/-! ### Feature statistics -/

theorem value_calculateFeatureStats {features : FeatureMap R} {gram : Ngram}
    (known : gram ∈ features.keys) (sentenceCount : Nat) :
    (calculateFeatureStats features sentenceCount).value gram =
      { features.value gram with
        weight := DoubleArithmetic.sqrt (((features.value gram).seedCount : R) /
          ((features.value gram).minedCount : R))
        idf := DoubleArithmetic.log ((sentenceCount : R) / (features.value gram).idf) } :=
  DefaultDict.value_mapValues_of_mem _ known

/-! ### Parsed sentences -/

theorem mem_lineSentences {counters : Counters} {wordids : WordMap} {keys : List Ngram}
    {first : Nat} {lines : List (List Char)} {sentence : Sentence R} :
    sentence ∈ (lineSentences counters wordids keys first lines : List (Sentence R)) ↔
      ∃ entry ∈ lines.zipIdx first, isAvailable wordids keys entry.1 = true ∧
        lineSentence counters wordids keys (counters.uint entry.2) entry.1 = sentence := by
  unfold lineSentences
  rw [List.mem_map]
  simp only [List.mem_filter, and_assoc]

theorem lineSentence_wellFormed (counters : Counters) {wordids : WordMap} {keys : List Ngram}
    (index : Nat) {line : List Char} (available : isAvailable wordids keys line = true) :
    (lineSentence counters wordids keys index line : Sentence R).WellFormed keys := by
  have counted := countsGrams_lineSentence (R := R) counters wordids keys index line
  rcases isAvailable_iff.mp available with ⟨short, gram, inLine, _known⟩
  refine ⟨counted.nodup, ?_, ?_, ?_⟩
  · intro feature member
    exact of_decide_eq_true (List.mem_filter.mp ((counted.members feature).mp member)).2
  · rw [counted.counts, List.length_map]
  · have occurs := (mem_lineGrams.mp inLine).2
    have isGram := (mem_lineGrams.mp inLine).1
    have bound : occurrences gram (idsOf wordids line) ≤ (idsOf wordids line).length :=
      occurrences_le_length (List.ne_nil_of_length_pos isGram.1)
    rw [length_idsOf] at bound
    change 0 < counters.uchar (words line).length
    unfold maxSentLength at short
    rw [counters.uchar_of_lt (by omega)]
    omega

theorem Parsed.wellFormed {counters : Counters} {seedCorpus minedCorpus : List Char}
    {features : FeatureMap R} {sentences : List (Sentence R)}
    (parsed : Parsed counters seedCorpus minedCorpus features sentences) :
    ∀ sentence ∈ sentences, sentence.WellFormed features.keys := by
  intro sentence member
  rw [parsed.sentences] at member
  rcases mem_lineSentences.mp member with ⟨entry, _inLines, available, rfl⟩
  exact lineSentence_wellFormed counters _ available

theorem length_lineSentences (counters : Counters) (wordids : WordMap) (keys : List Ngram)
    (first : Nat) (lines : List (List Char)) :
    (lineSentences counters wordids keys first lines : List (Sentence R)).length =
      lines.countP (isAvailable wordids keys) := by
  unfold lineSentences
  rw [List.length_map, ← List.countP_eq_length_filter]
  conv_rhs => rw [← List.zipIdx_map_fst first lines]
  rw [List.countP_map]
  rfl

theorem Parsed.length_sentences {counters : Counters} {seedCorpus minedCorpus : List Char}
    {features : FeatureMap R} {sentences : List (Sentence R)}
    (parsed : Parsed counters seedCorpus minedCorpus features sentences) :
    sentences.length =
      (linesOf minedCorpus).countP (isAvailable (seedWordids seedCorpus) features.keys) := by
  rw [parsed.sentences, length_lineSentences]

/-- Every counted line that contains a feature is an available sentence. -/
theorem Parsed.documentCount_le {counters : Counters} {seedCorpus minedCorpus : List Char}
    {features : FeatureMap R} {sentences : List (Sentence R)}
    (parsed : Parsed counters seedCorpus minedCorpus features sentences) {gram : Ngram}
    (known : gram ∈ features.keys) :
    documentCount (seedWordids seedCorpus) (shortLines (linesOf minedCorpus)) gram ≤
      sentences.length := by
  rw [parsed.length_sentences, documentCount, shortLines, List.countP_filter]
  apply List.countP_mono_left
  intro line _member both
  rw [Bool.and_eq_true, decide_eq_true_iff, decide_eq_true_iff] at both
  exact isAvailable_iff.mpr ⟨both.2, gram, both.1, known⟩

theorem Parsed.length_le {counters : Counters} {seedCorpus minedCorpus : List Char}
    {features : FeatureMap R} {sentences : List (Sentence R)}
    (parsed : Parsed counters seedCorpus minedCorpus features sentences) :
    sentences.length ≤ minedCorpus.length + 1 := by
  rw [parsed.length_sentences]
  exact List.countP_le_length.trans (linesOf_length_le minedCorpus)

/-! ### Entering the loop -/

/-- Enough for every loop of the program on these files. -/
def enoughFuel (seedCorpus minedCorpus : List Char) : Nat :=
  seedCorpus.length + minedCorpus.length + 4

variable (queue : PriorityQueue (Sentence.less (R := R)))

def startState (counters : Counters) (features : FeatureMap R)
    (sentences : List (Sentence R)) : LoopState R :=
  let stats := calculateFeatureStats features (counters.uint sentences.length)
  { features := stats
    availableSentences := queue.ofList (sentences.map (refresh stats 0))
    chosen := []
    prevSubmodValue := 0
    totalCost := 0 }

theorem prepare_eq (counters : Counters) (fuel : Nat) (seedCorpus minedCorpus : List Char)
    (enough : enoughFuel seedCorpus minedCorpus ≤ fuel) :
    ∃ (features : FeatureMap R) (sentences : List (Sentence R)),
      parseCorpora counters fuel seedCorpus minedCorpus = some (features, sentences) ∧
      Parsed counters seedCorpus minedCorpus features sentences ∧
      (∀ start, prepare queue counters fuel seedCorpus minedCorpus = some start ↔
        counters.Fits sentences.length ∧ startState queue counters features sentences = start) := by
  unfold enoughFuel at enough
  obtain ⟨features, sentences, parse, parsed⟩ := parseCorpora_parsed (R := R) counters fuel
    seedCorpus minedCorpus (by omega) (by omega)
  have size := parsed.length_le
  refine ⟨features, sentences, parse, parsed, ?_⟩
  intro start
  unfold prepare
  rw [parse]
  dsimp only [Option.bind_eq_bind, Option.bind_some]
  constructor
  · intro prepared
    rcases Option.bind_eq_some_iff.mp prepared with ⟨gains, loop, same⟩
    obtain ⟨rfl, fits⟩ := initialGains_some fuel 0 loop
      (counters.uint_of_lt (Nat.two_pow_pos 32)) (fun _ _ before => by omega)
    exact ⟨fits, Option.some.inj same⟩
  · rintro ⟨fits, same⟩
    obtain ⟨gains, loop⟩ := initialGains_ends
      (calculateFeatureStats features (counters.uint sentences.length)) fuel 0 fits (by omega)
      (Nat.zero_le _)
    obtain ⟨rfl, _⟩ := initialGains_some fuel 0 loop
      (counters.uint_of_lt (Nat.two_pow_pos 32)) (fun _ _ before => by omega)
    rw [loop]
    exact congrArg some same

structure Entered (start : LoopState R) : Prop where
  chosen : start.chosen = []
  prevSubmodValue : start.prevSubmodValue = 0
  totalCost : start.totalCost = 0
  blank : ∀ gram, (start.features.value gram).prevTotalRelevance = 0
  wellFormed : ∀ sentence ∈ start.available, sentence.WellFormed start.features.keys

theorem entered_startState {counters : Counters} {seedCorpus minedCorpus : List Char}
    {features : FeatureMap R} {sentences : List (Sentence R)}
    (parsed : Parsed counters seedCorpus minedCorpus features sentences) :
    Entered (startState queue counters features sentences) := by
  refine ⟨rfl, rfl, rfl, ?_, ?_⟩
  · intro gram
    by_cases known : gram ∈ features.keys
    · change ((calculateFeatureStats features _).value gram).prevTotalRelevance = 0
      rw [value_calculateFeatureStats known, parsed.counted gram known]
      rfl
    · change ((calculateFeatureStats features _).value gram).prevTotalRelevance = 0
      rw [(calculateFeatureStats features _).absent gram known]
      rfl
  · intro sentence member
    rcases List.mem_map.mp member with ⟨stored, inQueue, rfl⟩
    have inSentences := (queue.ofList_perm _).mem_iff.mp inQueue
    rcases List.mem_map.mp inSentences with ⟨original, isSentence, rfl⟩
    exact parsed.wellFormed original isSentence

theorem entered_of_prepare {counters : Counters} {fuel : Nat}
    {seedCorpus minedCorpus : List Char} {start : LoopState R}
    (enough : enoughFuel seedCorpus minedCorpus ≤ fuel)
    (prepared : prepare queue counters fuel seedCorpus minedCorpus = some start) :
    Entered start := by
  obtain ⟨features, sentences, _parse, parsed, started⟩ :=
    prepare_eq queue counters fuel seedCorpus minedCorpus enough
  rcases (started start).mp prepared with ⟨_fits, rfl⟩
  exact entered_startState queue parsed

theorem Entered.wellFormed_of_run {counters : Counters} {fuel : Nat} {start state : LoopState R}
    {picks : List ParsedSentence} (entered : Entered start)
    (run : Selects queue counters fuel start picks state) :
    (∀ pick ∈ picks, pick.WellFormed start.features.keys) ∧
      ∀ sentence ∈ state.available, sentence.WellFormed start.features.keys := by
  have permuted := (run.account queue).1
  constructor
  · intro pick member
    exact entered.wellFormed pick (permuted.mem_iff.mp (List.mem_append_left _ member))
  · intro sentence member
    exact entered.wellFormed sentence (permuted.mem_iff.mp (List.mem_append_right _ member))

theorem selects_of_several (order : OrdersDoubles R) {counters : Counters} {fuel : Nat}
    {seedCorpus minedCorpus : List Char} {start : LoopState R}
    (enough : enoughFuel seedCorpus minedCorpus ≤ fuel)
    (prepared : prepare queue counters fuel seedCorpus minedCorpus = some start)
    (several : 1 < start.availableSentences.length) :
    ∃ pick state, Selects queue counters fuel start [pick] state := by
  obtain ⟨features, sentences, _parse, parsed, started⟩ :=
    prepare_eq queue counters fuel seedCorpus minedCorpus enough
  rcases (started start).mp prepared with ⟨_fits, rfl⟩
  have few := parsed.length_le
  have size : (startState queue counters features sentences).availableSentences.length =
      sentences.length := (queue.length_ofList _).trans (List.length_map _)
  unfold enoughFuel at enough
  have roomy : (startState queue counters features sentences).availableSentences.length + 1 ≤
      fuel := by omega
  obtain ⟨iteration, step⟩ := iterate_ends queue order counters
    (queue.heap_ofList (Sentence.less_weakOrder order) _) roomy
  cases iteration with
  | exhausted after => exact absurd (iterate_exhausted queue step).1 (Nat.not_le.mpr several)
  | selected sentence after => exact ⟨_, after, Selects.refl.select step⟩

theorem prepare_twoLines (counters : Counters) :
    ∃ start, prepare queue counters 8 ['a'] ['a', '\n', 'a'] = some start ∧
      start.availableSentences.length = 2 := by
  obtain ⟨features, sentences, _parse, parsed, started⟩ :=
    prepare_eq queue counters 8 ['a'] ['a', '\n', 'a'] (by decide)
  have inLine : [1] ∈ lineGrams (seedWordids ['a']) ['a'] :=
    mem_lineGrams.mpr ⟨⟨by decide, by decide, by decide⟩, by decide⟩
  have known : [1] ∈ features.keys :=
    (parsed.keys [1]).mpr ⟨⟨['a'], by decide, inLine⟩, ['a'], by decide, inLine⟩
  have available : isAvailable (seedWordids ['a']) features.keys ['a'] = true :=
    isAvailable_iff.mpr ⟨by decide, [1], inLine, known⟩
  have two : sentences.length = 2 := by
    rw [parsed.length_sentences, show linesOf ['a', '\n', 'a'] = [['a'], ['a']] by decide]
    simp [available]
  refine ⟨_, (started _).mpr ⟨counters.uint_of_lt (by omega), rfl⟩, ?_⟩
  exact ((queue.length_ofList _).trans (List.length_map _)).trans two

end Filter
