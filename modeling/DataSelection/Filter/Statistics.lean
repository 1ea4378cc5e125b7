/-
The corpus statistics that parsing returns.

The passes over the two files agree on one word table, so the feature map and the
sentences are functions of the lines: which n-grams both files have, how often
they occur in the lines that count, and which lines are available.
-/

import DataSelection.Filter.Counting

namespace Filter

open Library

variable {R : Type} [DoubleArithmetic R]

def lineGrams (wordids : WordMap) (line : List Char) : List Ngram :=
  getNgrams (idsOf wordids line)

def shortLines (lines : List (List Char)) : List (List Char) :=
  lines.filter (fun line => (words line).length ≤ maxSentLength)

def gramTotal (wordids : WordMap) (lines : List (List Char)) (gram : Ngram) : Nat :=
  (lines.map (fun line => (lineGrams wordids line).count gram)).sum

def documentCount (wordids : WordMap) (lines : List (List Char)) (gram : Ngram) : Nat :=
  lines.countP (fun line => gram ∈ lineGrams wordids line)

def isAvailable (wordids : WordMap) (keys : List Ngram) (line : List Char) : Bool :=
  decide ((words line).length ≤ maxSentLength) &&
    (lineGrams wordids line).any (fun gram => gram ∈ keys)

def lineSentence (counters : Counters) (wordids : WordMap) (keys : List Ngram) (index : Nat)
    (line : List Char) : Sentence R :=
  { ((lineGrams wordids line).filter (fun gram => gram ∈ keys)).foldl
      (fun sentence gram => sentence.incCount counters gram) Sentence.new with
    index := index
    length := counters.uchar (words line).length }

theorem length_idsOf (wordids : WordMap) (line : List Char) :
    (idsOf wordids line).length = (words line).length := List.length_map _

/-! ### One line -/

theorem countLine_seed (counters : Counters) (wordids : WordMap) (line : List Char)
    (state : CorpusCount R) :
    countLine counters .seed wordids line state =
      { features := ((lineGrams wordids line).foldl (countGram counters .seed)
          (LineCount.start state.features)).features
        sentences := state.sentences
        lineIndex := counters.uint (state.lineIndex + 1) } := by
  unfold countLine
  rw [tokenize_false, if_neg (fun both => CountType.noConfusion both.1)]
  dsimp only
  rw [if_neg (fun both => CountType.noConfusion both.1)]
  rfl

theorem countLine_long (counters : Counters) (wordids : WordMap) {line : List Char}
    (long : maxSentLength < (words line).length) (state : CorpusCount R) :
    countLine counters .mined wordids line state =
      { state with lineIndex := counters.uint (state.lineIndex + 1) } := by
  unfold countLine
  rw [tokenize_false]
  dsimp only
  rw [length_idsOf, if_pos ⟨rfl, long⟩]

private theorem counts_pos_iff (counters : Counters) (grams : List Ngram) :
    0 < (grams.foldl (fun sentence gram => sentence.incCount counters gram)
      (Sentence.new : Sentence R)).counts.length ↔ grams ≠ [] := by
  have counted := countsGrams_foldl (R := R) counters grams
  rw [counted.counts, List.length_map, List.length_pos_iff]
  constructor
  · intro nonempty empty
    apply nonempty
    apply List.eq_nil_iff_forall_not_mem.mpr
    intro feature present
    rw [counted.members, empty] at present
    cases present
  · intro nonempty empty
    obtain ⟨gram, rest, same⟩ := List.exists_cons_of_ne_nil nonempty
    have present := (counted.members gram).mpr (by rw [same]; exact List.mem_cons_self)
    rw [empty] at present
    cases present

theorem countLine_short (counters : Counters) (wordids : WordMap) {line : List Char}
    (short : (words line).length ≤ maxSentLength) (state : CorpusCount R) :
    countLine counters .mined wordids line state =
      { features := ((lineGrams wordids line).foldl (countGram counters .mined)
          (LineCount.start state.features)).features
        sentences := state.sentences ++
          if isAvailable wordids state.features.keys line then
            [lineSentence counters wordids state.features.keys state.lineIndex line]
          else []
        lineIndex := counters.uint (state.lineIndex + 1) } := by
  unfold countLine
  rw [tokenize_false]
  dsimp only
  rw [length_idsOf, if_neg (fun both => Nat.not_lt.mpr short both.2)]
  have sentence : ((lineGrams wordids line).foldl (countGram counters .mined)
      (LineCount.start state.features)).sentence =
      ((lineGrams wordids line).filter (fun gram => gram ∈ state.features.keys)).foldl
        (fun sentence gram => sentence.incCount counters gram) Sentence.new :=
    sentence_foldl_countGram_mined counters (lineGrams wordids line)
      (LineCount.start state.features)
  have filled : 0 < ((lineGrams wordids line).foldl (countGram counters .mined)
      (LineCount.start state.features)).sentence.counts.length ↔
      isAvailable wordids state.features.keys line = true := by
    rw [sentence]
    refine (counts_pos_iff counters _).trans ?_
    rw [isAvailable, decide_eq_true short, Bool.true_and, ne_eq, List.filter_eq_nil_iff,
      List.any_eq_true]
    simp only [not_forall, not_not, exists_prop]
  by_cases available : isAvailable wordids state.features.keys line = true
  · rw [if_pos available]
    have condition := And.intro (rfl : CountType.mined = .mined) (filled.mpr available)
    unfold lineGrams at condition sentence
    rw [if_pos condition]
    congr 1
    simp only [lineSentence, lineGrams, sentence]
  · rw [if_neg available, List.append_nil]
    have condition := fun both : CountType.mined = .mined ∧ _ => available (filled.mp both.2)
    unfold lineGrams at condition
    rw [if_neg condition]
    rfl

/-! ### A pass over the lines -/

theorem countLines_seed (counters : Counters) (wordids : WordMap) (lines : List (List Char))
    (state : CorpusCount R) :
    (lines.foldl (fun state line => countLine counters .seed wordids line state)
        state).features.keys = state.features.keys ∧
    (lines.foldl (fun state line => countLine counters .seed wordids line state)
        state).sentences = state.sentences ∧
    ∀ gram ∈ state.features.keys,
      (lines.foldl (fun state line =>
          countLine counters .seed wordids line state) state).features.value gram =
        (state.features.value gram).advance counters (gramTotal wordids lines gram) 0 0 := by
  induction lines generalizing state with
  | nil => exact ⟨rfl, rfl, fun _ _ => rfl⟩
  | cons line rest ih =>
      rw [List.foldl_cons, countLine_seed]
      obtain ⟨keys, sentences, values⟩ := ih
        { features := ((lineGrams wordids line).foldl (countGram counters .seed)
            (LineCount.start state.features)).features
          sentences := state.sentences
          lineIndex := counters.uint (state.lineIndex + 1) }
      have sameKeys := keys_foldl_countGram counters .seed (lineGrams wordids line)
        (LineCount.start state.features)
      refine ⟨keys.trans sameKeys, sentences, ?_⟩
      intro gram known
      have counted := value_foldl_countGram_seed counters (lineGrams wordids line)
        (LineCount.start state.features) known
      rw [values gram (by rw [sameKeys]; exact known), counted, Feature.advance_advance]
      unfold gramTotal
      rw [List.map_cons, List.sum_cons, Nat.add_comm]
      rfl

/-- The sentences of the available lines, numbered from `first`. -/
def lineSentences (counters : Counters) (wordids : WordMap) (keys : List Ngram) (first : Nat)
    (lines : List (List Char)) : List (Sentence R) :=
  ((lines.zipIdx first).filter (fun entry => isAvailable wordids keys entry.1)).map
    (fun entry => lineSentence counters wordids keys (counters.uint entry.2) entry.1)

private theorem lineSentences_cons (counters : Counters) (wordids : WordMap)
    (keys : List Ngram) (first : Nat) (line : List Char) (rest : List (List Char)) :
    (lineSentences counters wordids keys first (line :: rest) : List (Sentence R)) =
      (if isAvailable wordids keys line then
        [lineSentence counters wordids keys (counters.uint first) line] else []) ++
        lineSentences counters wordids keys (first + 1) rest := by
  unfold lineSentences
  rw [List.zipIdx_cons, List.filter_cons]
  by_cases available : isAvailable wordids keys line = true
  · rw [if_pos available, if_pos available, List.map_cons, List.singleton_append]
  · rw [if_neg available, if_neg available, List.nil_append]

theorem shortLines_cons_short {line : List Char} {rest : List (List Char)}
    (short : (words line).length ≤ maxSentLength) :
    shortLines (line :: rest) = line :: shortLines rest := by
  unfold shortLines
  rw [List.filter_cons, if_pos (decide_eq_true short)]

theorem shortLines_cons_long {line : List Char} {rest : List (List Char)}
    (long : maxSentLength < (words line).length) :
    shortLines (line :: rest) = shortLines rest := by
  unfold shortLines
  rw [List.filter_cons, if_neg (fun kept => Nat.not_le_of_lt long (of_decide_eq_true kept))]

theorem countLines_mined (counters : Counters) (wordids : WordMap) (lines : List (List Char))
    (first : Nat) (state : CorpusCount R) (numbered : state.lineIndex = counters.uint first) :
    (lines.foldl (fun state line => countLine counters .mined wordids line state)
        state).features.keys = state.features.keys ∧
    (lines.foldl (fun state line => countLine counters .mined wordids line state)
        state).sentences =
      state.sentences ++ lineSentences counters wordids state.features.keys first lines ∧
    ∀ gram ∈ state.features.keys,
      (lines.foldl (fun state line =>
          countLine counters .mined wordids line state) state).features.value gram =
        (state.features.value gram).advance counters 0
          (gramTotal wordids (shortLines lines) gram)
          (documentCount wordids (shortLines lines) gram) := by
  induction lines generalizing state first with
  | nil =>
      refine ⟨rfl, ?_, fun _ _ => rfl⟩
      simp [lineSentences]
  | cons line rest ih =>
      have nextNumber : counters.uint (state.lineIndex + 1) = counters.uint (first + 1) := by
        rw [numbered, counters.uint_add]
      rw [List.foldl_cons, lineSentences_cons]
      by_cases short : (words line).length ≤ maxSentLength
      · rw [countLine_short counters wordids short]
        have sameKeys := keys_foldl_countGram counters .mined (lineGrams wordids line)
          (LineCount.start state.features)
        obtain ⟨keys, sentences, values⟩ := ih (first + 1)
          { features := ((lineGrams wordids line).foldl (countGram counters .mined)
              (LineCount.start state.features)).features
            sentences := state.sentences ++
              if isAvailable wordids state.features.keys line then
                [lineSentence counters wordids state.features.keys state.lineIndex line]
              else []
            lineIndex := counters.uint (state.lineIndex + 1) } nextNumber
        refine ⟨keys.trans sameKeys, ?_, ?_⟩
        · rw [sentences, sameKeys, numbered, List.append_assoc]
          rfl
        · intro gram known
          have counted := value_foldl_countGram_mined counters (lineGrams wordids line)
            (LineCount.start state.features) known
          rw [values gram (by rw [sameKeys]; exact known), counted, Feature.advance_advance,
            shortLines_cons_short short]
          unfold gramTotal documentCount
          rw [List.map_cons, List.sum_cons, List.countP_cons, Nat.add_comm (List.count _ _)]
          simp [LineCount.start]
      · have long := Nat.lt_of_not_le short
        rw [countLine_long counters wordids long]
        obtain ⟨keys, sentences, values⟩ := ih (first + 1)
          { state with lineIndex := counters.uint (state.lineIndex + 1) } nextNumber
        have unavailable : isAvailable wordids state.features.keys line = false := by
          unfold isAvailable
          rw [decide_eq_false short, Bool.false_and]
        refine ⟨keys, ?_, ?_⟩
        · rw [sentences, unavailable, if_neg Bool.false_ne_true, List.nil_append]
        · intro gram known
          rw [values gram known, shortLines_cons_long long]

/-- With enough fuel a pass handles the lines of the file. -/
theorem countFeatures_eq (counters : Counters) {fuel : Nat} {corpus : List Char}
    (features : FeatureMap R) (sentences : List (Sentence R)) (countType : CountType)
    (wordids : WordMap) (enough : corpus.length + 2 ≤ fuel) :
    countFeatures counters fuel features corpus sentences countType wordids =
      some (((linesOf corpus).foldl
          (fun state line => countLine counters countType wordids line state)
          { features := features, sentences := sentences, lineIndex := 0 }).features,
        ((linesOf corpus).foldl
          (fun state line => countLine counters countType wordids line state)
          { features := features, sentences := sentences, lineIndex := 0 }).sentences) := by
  unfold countFeatures
  rw [IFStream.eofLoop_opened _ fuel corpus [] _ enough]
  rfl

/-! ### The four passes together -/

/-- What parsing returns, as a function of the lines of the two files. -/
structure Parsed (counters : Counters) (seedCorpus minedCorpus : List Char)
    (features : FeatureMap R) (sentences : List (Sentence R)) : Prop where
  keys : ∀ gram, gram ∈ features.keys ↔
    (∃ line ∈ linesOf seedCorpus, gram ∈ lineGrams (seedWordids seedCorpus) line) ∧
    (∃ line ∈ linesOf minedCorpus, gram ∈ lineGrams (seedWordids seedCorpus) line)
  counted : ∀ gram ∈ features.keys,
    features.value gram =
      (default : Feature R).advance counters
        (gramTotal (seedWordids seedCorpus) (linesOf seedCorpus) gram)
        (gramTotal (seedWordids seedCorpus) (shortLines (linesOf minedCorpus)) gram)
        (documentCount (seedWordids seedCorpus) (shortLines (linesOf minedCorpus)) gram)
  sentences : sentences =
    lineSentences counters (seedWordids seedCorpus) features.keys 0 (linesOf minedCorpus)

private theorem intersectFeatures_step (minedFeatures : List Ngram)
    (seedFeatures : List Ngram) (features : FeatureMap R)
    (blank : ∀ gram, features.value gram = default) :
    (∀ gram, gram ∈ (seedFeatures.foldl (fun features gram =>
        if gram ∈ minedFeatures then features.set gram default else features)
        features).keys ↔
      (gram ∈ seedFeatures ∧ gram ∈ minedFeatures) ∨ gram ∈ features.keys) ∧
    ∀ gram, (seedFeatures.foldl (fun features gram =>
        if gram ∈ minedFeatures then features.set gram default else features)
        features).value gram = default := by
  induction seedFeatures generalizing features with
  | nil => exact ⟨fun gram => by simp, blank⟩
  | cons head rest ih =>
      rw [List.foldl_cons]
      by_cases common : head ∈ minedFeatures
      · rw [if_pos common]
        obtain ⟨keys, values⟩ := ih (features.set head default) (by
          intro gram
          rw [DefaultDict.value_set, blank gram, ite_self])
        refine ⟨?_, values⟩
        intro gram
        rw [keys gram, DefaultDict.keys_set, DefaultDict.mem_keys_touch, List.mem_cons]
        constructor
        · intro either
          rcases either with both | same | old
          · exact Or.inl ⟨Or.inr both.1, both.2⟩
          · exact Or.inl ⟨Or.inl same, same ▸ common⟩
          · exact Or.inr old
        · intro either
          rcases either with ⟨same | inRest, inMined⟩ | old
          · exact Or.inr (Or.inl same)
          · exact Or.inl ⟨inRest, inMined⟩
          · exact Or.inr (Or.inr old)
      · rw [if_neg common]
        obtain ⟨keys, values⟩ := ih features blank
        refine ⟨?_, values⟩
        intro gram
        rw [keys gram, List.mem_cons]
        constructor
        · intro either
          rcases either with both | old
          · exact Or.inl ⟨Or.inr both.1, both.2⟩
          · exact Or.inr old
        · intro either
          rcases either with ⟨same | inRest, inMined⟩ | old
          · exact (common (same ▸ inMined)).elim
          · exact Or.inl ⟨inRest, inMined⟩
          · exact Or.inr old

theorem getFeatureSet_eq (fuel : Nat) (seedCorpus minedCorpus : List Char)
    (seedEnough : seedCorpus.length + 2 ≤ fuel) (minedEnough : minedCorpus.length + 2 ≤ fuel) :
    ∃ features : FeatureMap R,
      getFeatureSet fuel seedCorpus minedCorpus .empty =
        some (features, seedWordids seedCorpus) ∧
      (∀ gram, gram ∈ features.keys ↔
        (∃ line ∈ linesOf seedCorpus, gram ∈ lineGrams (seedWordids seedCorpus) line) ∧
        (∃ line ∈ linesOf minedCorpus, gram ∈ lineGrams (seedWordids seedCorpus) line)) ∧
      ∀ gram, features.value gram = default := by
  obtain ⟨seedFeatures, seedRead, seedMembers⟩ :=
    getFeatures_eq true fuel seedCorpus .empty seedEnough
  obtain ⟨minedFeatures, minedRead, minedMembers⟩ :=
    getFeatures_eq false fuel minedCorpus (seedWordids seedCorpus) minedEnough
  obtain ⟨keys, values⟩ := intersectFeatures_step (R := R) minedFeatures seedFeatures .empty
    (fun _ => rfl)
  refine ⟨intersectFeatures seedFeatures minedFeatures, ?_, ?_, values⟩
  · unfold getFeatureSet
    rw [seedRead]
    exact congrArg (fun read : Option (List Ngram × WordMap) => read.bind (fun result =>
      some (intersectFeatures seedFeatures result.1, result.2))) minedRead
  · intro gram
    refine (keys gram).trans ?_
    rw [seedMembers gram, minedMembers gram, DefaultDict.keys_empty]
    simp only [List.not_mem_nil, or_false]
    rfl

theorem parseCorpora_parsed (counters : Counters) (fuel : Nat)
    (seedCorpus minedCorpus : List Char) (seedEnough : seedCorpus.length + 2 ≤ fuel)
    (minedEnough : minedCorpus.length + 2 ≤ fuel) :
    ∃ (features : FeatureMap R) (sentences : List (Sentence R)),
      parseCorpora counters fuel seedCorpus minedCorpus = some (features, sentences) ∧
        Parsed counters seedCorpus minedCorpus features sentences := by
  obtain ⟨blank, read, keys, values⟩ :=
    getFeatureSet_eq (R := R) fuel seedCorpus minedCorpus seedEnough minedEnough
  let afterSeed := (linesOf seedCorpus).foldl
    (fun state line => countLine counters .seed (seedWordids seedCorpus) line state)
    { features := blank, sentences := [], lineIndex := 0 }
  let afterMined := (linesOf minedCorpus).foldl
    (fun state line => countLine counters .mined (seedWordids seedCorpus) line state)
    { features := afterSeed.features, sentences := afterSeed.sentences, lineIndex := 0 }
  obtain ⟨seedKeys, seedSentences, seedValues⟩ := countLines_seed counters
    (seedWordids seedCorpus) (linesOf seedCorpus)
    { features := blank, sentences := [], lineIndex := 0 }
  obtain ⟨minedKeys, minedSentences, minedValues⟩ := countLines_mined counters
    (seedWordids seedCorpus) (linesOf minedCorpus) 0
    { features := afterSeed.features, sentences := afterSeed.sentences, lineIndex := 0 }
    (counters.uint_of_lt (Nat.two_pow_pos 32)).symm
  have sameKeys : afterMined.features.keys = blank.keys := minedKeys.trans seedKeys
  refine ⟨afterMined.features, afterMined.sentences, ?_, ?_, ?_, ?_⟩
  · have seedPass : countFeatures counters fuel blank seedCorpus [] .seed
        (seedWordids seedCorpus) = some (afterSeed.features, afterSeed.sentences) :=
      countFeatures_eq counters blank [] .seed (seedWordids seedCorpus) seedEnough
    have minedPass : countFeatures counters fuel afterSeed.features minedCorpus
        afterSeed.sentences .mined (seedWordids seedCorpus) =
        some (afterMined.features, afterMined.sentences) :=
      countFeatures_eq counters afterSeed.features afterSeed.sentences .mined
        (seedWordids seedCorpus) minedEnough
    unfold parseCorpora
    rw [read]
    dsimp only [Option.bind_eq_bind, Option.bind_some]
    rw [seedPass]
    dsimp only [Option.bind_some]
    exact minedPass
  · intro gram
    rw [sameKeys]
    exact keys gram
  · intro gram known
    rw [sameKeys] at known
    have knownAfterSeed : gram ∈ afterSeed.features.keys := by
      rw [show afterSeed.features.keys = blank.keys from seedKeys]
      exact known
    have minedValue : afterMined.features.value gram = _ := minedValues gram knownAfterSeed
    have seedValue : afterSeed.features.value gram = _ := seedValues gram known
    rw [minedValue, seedValue, values gram, Feature.advance_advance, Nat.zero_add]
    rfl
  · have listed : afterMined.sentences = _ := minedSentences
    rw [listed, show afterSeed.sentences = [] from seedSentences, List.nil_append,
      show afterSeed.features.keys = blank.keys from seedKeys, sameKeys]

/-! ### Exact statistics -/

/-- What the record of an available line holds. -/
structure RecordsLine (wordids : WordMap) (keys : List Ngram) (line : List Char) (index : Nat)
    (sentence : ParsedSentence) : Prop where
  index : sentence.index = index
  length : sentence.length = (tokenize line wordids false).1.length
  distinct : sentence.features.Nodup
  features : ∀ gram, gram ∈ sentence.features ↔
    gram ∈ keys ∧ 0 < occurrences gram (tokenize line wordids false).1
  counts : sentence.counts = sentence.features.map
    (fun gram => occurrences gram (tokenize line wordids false).1)

/-- The statistics as sums over the lines of the two files. -/
structure ExactStatistics (wordids : WordMap) (seedCorpus minedCorpus : List Char)
    (features : FeatureMap ℝ) (sentences : List (Sentence ℝ)) : Prop where
  keys : ∀ gram, gram ∈ features.keys ↔ IsGram gram ∧
    (∃ line ∈ linesOf seedCorpus, 0 < occurrences gram (tokenize line wordids false).1) ∧
    (∃ line ∈ linesOf minedCorpus, 0 < occurrences gram (tokenize line wordids false).1)
  seedCount : ∀ gram ∈ features.keys, (features.value gram).seedCount =
    ((linesOf seedCorpus).map
      (fun line => occurrences gram (tokenize line wordids false).1)).sum
  minedCount : ∀ gram ∈ features.keys, (features.value gram).minedCount =
    (((linesOf minedCorpus).filter
        (fun line => (tokenize line wordids false).1.length ≤ 255)).map
      (fun line => occurrences gram (tokenize line wordids false).1)).sum
  idf : ∀ gram ∈ features.keys, (features.value gram).idf =
    (((linesOf minedCorpus).filter
        (fun line => (tokenize line wordids false).1.length ≤ 255)).countP
      (fun line => 0 < occurrences gram (tokenize line wordids false).1) : ℝ)
  sentences : List.Forall₂
    (fun entry sentence =>
      RecordsLine wordids features.keys entry.1 entry.2 sentence.toParsedSentence)
    ((linesOf minedCorpus).zipIdx.filter (fun entry =>
      (tokenize entry.1 wordids false).1.length ≤ 255 ∧
        ∃ gram ∈ features.keys, 0 < occurrences gram (tokenize entry.1 wordids false).1))
    sentences

theorem mem_lineGrams {wordids : WordMap} {line : List Char} {gram : Ngram} :
    gram ∈ lineGrams wordids line ↔ IsGram gram ∧ 0 < occurrences gram (idsOf wordids line) :=
  mem_getNgrams

theorem iterate_add_one_exact (steps : Nat) : (· + 1)^[steps] (0 : ℝ) = (steps : ℝ) := by
  induction steps with
  | zero => simp
  | succ steps ih => rw [Function.iterate_succ_apply', ih, Nat.cast_succ]

theorem isAvailable_iff {wordids : WordMap} {keys : List Ngram} {line : List Char} :
    isAvailable wordids keys line = true ↔
      (words line).length ≤ maxSentLength ∧ ∃ gram ∈ lineGrams wordids line, gram ∈ keys := by
  unfold isAvailable
  rw [Bool.and_eq_true, decide_eq_true_iff, List.any_eq_true]
  simp only [decide_eq_true_eq]

theorem countsGrams_lineSentence (counters : Counters) (wordids : WordMap) (keys : List Ngram)
    (index : Nat) (line : List Char) :
    CountsGrams counters ((lineGrams wordids line).filter (fun gram => gram ∈ keys))
      (lineSentence counters wordids keys index line : Sentence R) := by
  have counted := countsGrams_foldl (R := R) counters
    ((lineGrams wordids line).filter (fun gram => gram ∈ keys))
  exact ⟨counted.nodup, counted.members, counted.counts⟩

private theorem recordsLine_lineSentence (wordids : WordMap) (keys : List Ngram)
    (grams : ∀ gram ∈ keys, IsGram gram) (index : Nat) (line : List Char) :
    RecordsLine wordids keys line index
      (lineSentence .unbounded wordids keys index line : Sentence R).toParsedSentence := by
  have counted := countsGrams_lineSentence (R := R) .unbounded wordids keys index line
  have members : ∀ gram,
      gram ∈ (lineSentence .unbounded wordids keys index line : Sentence R).features ↔
        gram ∈ keys ∧ 0 < occurrences gram (idsOf wordids line) := by
    intro gram
    rw [counted.members, List.mem_filter, decide_eq_true_iff, mem_lineGrams]
    constructor
    · exact fun both => ⟨both.2, both.1.2⟩
    · exact fun both => ⟨⟨grams gram both.1, both.2⟩, both.1⟩
  refine ⟨rfl, ?_, counted.nodup, ?_, ?_⟩
  · rw [tokenize_false, length_idsOf]
    rfl
  · rw [tokenize_false]
    exact members
  · rw [tokenize_false, counted.counts]
    apply List.map_congr_left
    intro gram member
    have isKey := ((members gram).mp member).1
    have unfiltered : ((lineGrams wordids line).filter (fun gram => gram ∈ keys)).count gram =
        (lineGrams wordids line).count gram := List.count_filter (decide_eq_true isKey)
    rw [unfiltered]
    exact count_getNgrams (grams gram isKey)

theorem Parsed.mem_keys_iff_occurs {counters : Counters} {seedCorpus minedCorpus : List Char}
    {features : FeatureMap R} {sentences : List (Sentence R)}
    (parsed : Parsed counters seedCorpus minedCorpus features sentences) (gram : Ngram) :
    gram ∈ features.keys ↔ IsGram gram ∧
      (∃ line ∈ linesOf seedCorpus,
        0 < occurrences gram (idsOf (seedWordids seedCorpus) line)) ∧
      (∃ line ∈ linesOf minedCorpus,
        0 < occurrences gram (idsOf (seedWordids seedCorpus) line)) := by
  rw [parsed.keys gram]
  simp only [mem_lineGrams]
  constructor
  · rintro ⟨⟨seedLine, inSeed, isGram, inSeedLine⟩, minedLine, inMined, _, inMinedLine⟩
    exact ⟨isGram, ⟨seedLine, inSeed, inSeedLine⟩, ⟨minedLine, inMined, inMinedLine⟩⟩
  · rintro ⟨isGram, ⟨seedLine, inSeed, inSeedLine⟩, minedLine, inMined, inMinedLine⟩
    exact ⟨⟨seedLine, inSeed, isGram, inSeedLine⟩, minedLine, inMined, isGram, inMinedLine⟩

theorem gramTotal_eq {gram : Ngram} (isGram : IsGram gram) (wordids : WordMap)
    (lines : List (List Char)) :
    gramTotal wordids lines gram =
      (lines.map (fun line => occurrences gram (idsOf wordids line))).sum := by
  unfold gramTotal
  congr 1
  apply List.map_congr_left
  intro line _member
  exact count_getNgrams isGram

theorem documentCount_eq {gram : Ngram} (isGram : IsGram gram) (wordids : WordMap)
    (lines : List (List Char)) :
    documentCount wordids lines gram =
      lines.countP (fun line => 0 < occurrences gram (idsOf wordids line)) := by
  unfold documentCount
  apply List.countP_congr
  intro line _member
  simp only [decide_eq_true_eq, mem_lineGrams]
  exact and_iff_right isGram

theorem isAvailable_iff_occurs {wordids : WordMap} {keys : List Ngram}
    (grams : ∀ gram ∈ keys, IsGram gram) {line : List Char} :
    isAvailable wordids keys line = true ↔
      (words line).length ≤ maxSentLength ∧
        ∃ gram ∈ keys, 0 < occurrences gram (idsOf wordids line) := by
  rw [isAvailable_iff]
  apply and_congr_right
  intro _short
  simp only [mem_lineGrams]
  constructor
  · rintro ⟨gram, ⟨_isGram, occurs⟩, known⟩
    exact ⟨gram, known, occurs⟩
  · rintro ⟨gram, known, occurs⟩
    exact ⟨gram, ⟨grams gram known, occurs⟩, known⟩

private theorem records_lineSentences {wordids : WordMap} {keys : List Ngram}
    (grams : ∀ gram ∈ keys, IsGram gram) (lines : List (List Char)) :
    List.Forall₂
      (fun entry sentence => RecordsLine wordids keys entry.1 entry.2 sentence.toParsedSentence)
      (lines.zipIdx.filter (fun entry => (tokenize entry.1 wordids false).1.length ≤ 255 ∧
        ∃ gram ∈ keys, 0 < occurrences gram (tokenize entry.1 wordids false).1))
      (lineSentences .unbounded wordids keys 0 lines : List (Sentence R)) := by
  have sameLines : lines.zipIdx.filter (fun entry =>
      (tokenize entry.1 wordids false).1.length ≤ 255 ∧
        ∃ gram ∈ keys, 0 < occurrences gram (tokenize entry.1 wordids false).1) =
      lines.zipIdx.filter (fun entry => isAvailable wordids keys entry.1) := by
    apply List.filter_congr
    intro entry _member
    rw [Bool.eq_iff_iff, decide_eq_true_iff, isAvailable_iff_occurs grams]
    simp only [tokenize_false, length_idsOf]
    rfl
  unfold lineSentences
  rw [sameLines, List.forall₂_map_right_iff, List.forall₂_same]
  intro entry _member
  exact recordsLine_lineSentence wordids keys grams entry.2 entry.1

private theorem Parsed.exactStatistics {seedCorpus minedCorpus : List Char}
    {features : FeatureMap ℝ} {sentences : List (Sentence ℝ)}
    (parsed : Parsed .unbounded seedCorpus minedCorpus features sentences) :
    ExactStatistics (seedWordids seedCorpus) seedCorpus minedCorpus features sentences := by
  have grams : ∀ gram ∈ features.keys, IsGram gram :=
    fun gram known => ((parsed.mem_keys_iff_occurs gram).mp known).1
  have short : (linesOf minedCorpus).filter
      (fun line => (tokenize line (seedWordids seedCorpus) false).1.length ≤ 255) =
      shortLines (linesOf minedCorpus) := by
    simp only [tokenize_false, length_idsOf]
    rfl
  constructor
  · simp only [tokenize_false]
    exact parsed.mem_keys_iff_occurs
  · intro gram known
    rw [parsed.counted gram known]
    simp only [tokenize_false]
    exact (Counters.next_iterate_zero .unbounded _).trans (gramTotal_eq (grams gram known) _ _)
  · intro gram known
    rw [parsed.counted gram known, short]
    simp only [tokenize_false]
    exact (Counters.next_iterate_zero .unbounded _).trans (gramTotal_eq (grams gram known) _ _)
  · intro gram known
    rw [parsed.counted gram known, short]
    simp only [tokenize_false]
    rw [← documentCount_eq (grams gram known)]
    exact iterate_add_one_exact _
  · rw [parsed.sentences]
    exact records_lineSentences grams (linesOf minedCorpus)

theorem parseCorpora_exact (fuel : Nat) (seedCorpus minedCorpus : List Char)
    (seedEnough : seedCorpus.length + 2 ≤ fuel) (minedEnough : minedCorpus.length + 2 ≤ fuel) :
    ∃ (seedFeatures : List Ngram) (wordids : WordMap) (features : FeatureMap ℝ)
      (sentences : List (Sentence ℝ)),
      getFeatures fuel seedCorpus .empty true = some (seedFeatures, wordids) ∧
      parseCorpora .unbounded fuel seedCorpus minedCorpus = some (features, sentences) ∧
      ExactStatistics wordids seedCorpus minedCorpus features sentences := by
  obtain ⟨seedFeatures, seedRead, _members⟩ :=
    getFeatures_eq true fuel seedCorpus .empty seedEnough
  obtain ⟨features, sentences, parse, parsed⟩ := parseCorpora_parsed (R := ℝ) .unbounded fuel
    seedCorpus minedCorpus seedEnough minedEnough
  exact ⟨seedFeatures, seedWordids seedCorpus, features, sentences, seedRead, parse,
    parsed.exactStatistics⟩

theorem parseCorpora_exact_example :
    ∃ (seedFeatures : List Ngram) (wordids : WordMap) (features : FeatureMap ℝ)
      (sentences : List (Sentence ℝ)),
      getFeatures 6 ['a', ' ', 'b'] .empty true = some (seedFeatures, wordids) ∧
      parseCorpora .unbounded 6 ['a', ' ', 'b'] ['b', '\n', 'c', '\n'] =
        some (features, sentences) ∧
      ExactStatistics wordids ['a', ' ', 'b'] ['b', '\n', 'c', '\n'] features sentences :=
  parseCorpora_exact 6 ['a', ' ', 'b'] ['b', '\n', 'c', '\n'] (by decide) (by decide)

end Filter
