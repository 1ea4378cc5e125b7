/-
What the program prints.

The second scan of the mined file counts lines as the first one did, so each chosen
index brings back the line it was given to.
-/

import DataSelection.Filter.Outcome
import Mathlib.Data.List.NodupEquivFin

namespace Filter

open Library

def lineAt (corpus : List Char) (index : Nat) : List Char := (linesOf corpus)[index]?.getD []

theorem lineAt_eq {corpus : List Char} {index : Nat}
    (inRange : index < (linesOf corpus).length) :
    lineAt corpus index = (linesOf corpus)[index] := by
  unfold lineAt
  rw [List.getElem?_eq_getElem inRange, Option.getD_some]

/-! ### The output scan -/

def OutputScan.At (corpus : List Char) (scan : OutputScan) : Prop :=
  scan.position = IFStream.advance (scan.current + 1) ([], .opened corpus)

theorem OutputScan.At.printChosen {corpus : List Char} {scan : OutputScan}
    (correct : scan.At corpus) {next : Nat} (ahead : scan.current ≤ next)
    (inRange : next < (linesOf corpus).length) :
    (printChosen scan next).At corpus ∧ (printChosen scan next).current = next ∧
      (printChosen scan next).printed = scan.printed ++ [lineAt corpus next] := by
  have arrived : scan.current + (next - scan.current) = next := Nat.add_sub_of_le ahead
  have position : IFStream.advance (next - scan.current) scan.position =
      IFStream.advance (next + 1) ([], .opened corpus) := by
    rw [correct, ← IFStream.advance_add]
    congr 1
    omega
  refine ⟨?_, arrived, ?_⟩
  · unfold At Filter.printChosen
    dsimp only
    rw [position, arrived]
  · unfold Filter.printChosen
    dsimp only
    rw [position, IFStream.advance_opened corpus [] next inRange, lineAt_eq inRange]

theorem printed_foldl_printChosen {corpus : List Char} (indices : List Nat) {scan : OutputScan}
    (correct : scan.At corpus) (ordered : (scan.current :: indices).Pairwise (· ≤ ·))
    (inRange : ∀ index ∈ indices, index < (linesOf corpus).length) :
    (indices.foldl printChosen scan).printed =
      scan.printed ++ indices.map (lineAt corpus) := by
  induction indices generalizing scan with
  | nil => simp
  | cons next rest ih =>
      rcases List.pairwise_cons.mp ordered with ⟨ahead, restOrdered⟩
      obtain ⟨after, current, printed⟩ := correct.printChosen (ahead next List.mem_cons_self)
        (inRange next List.mem_cons_self)
      rw [List.foldl_cons, ih after (by rw [current]; exact restOrdered)
        (fun index member => inRange index (List.mem_cons_of_mem next member)), printed,
        List.map_cons, List.append_assoc, List.singleton_append]

theorem outputSentences_eq {corpus : List Char} {chosen : List Nat}
    (inRange : ∀ index ∈ chosen, index < (linesOf corpus).length) :
    outputSentences corpus chosen = (chosen.mergeSort (· ≤ ·)).map (lineAt corpus) := by
  have ordered : (0 :: chosen.mergeSort (· ≤ ·)).Pairwise (· ≤ ·) :=
    List.pairwise_cons.mpr ⟨fun index _ => Nat.zero_le index, List.pairwise_mergeSort' (· ≤ ·) _⟩
  have correct : OutputScan.At corpus
      { position := (IFStream.opened corpus).getline []
        current := 0
        printed := [] } := rfl
  unfold outputSentences
  rw [printed_foldl_printChosen (chosen.mergeSort (· ≤ ·)) correct ordered
    (fun index member => inRange index ((List.mergeSort_perm chosen _).mem_iff.mp member)),
    List.nil_append]

def chosenLines (corpus : List Char) (chosen : List Nat) : List (List Char) :=
  ((linesOf corpus).zipIdx.filter (fun entry => entry.2 ∈ chosen)).map (fun entry => entry.1)

/-- Sorting the chosen numbers is running through the file and keeping them. -/
theorem mergeSort_eq_filter {α : Type} {items : List α} {chosen : List Nat}
    (distinct : chosen.Nodup) (inRange : ∀ index ∈ chosen, index < items.length) :
    chosen.mergeSort (· ≤ ·) =
      (items.zipIdx.filter (fun entry => entry.2 ∈ chosen)).map (fun entry => entry.2) := by
  have sameMembers := List.mergeSort_perm chosen (· ≤ ·)
  have sorted : (chosen.mergeSort (· ≤ ·)).Pairwise (· < ·) := by
    have increasing := (List.pairwise_mergeSort' (· ≤ ·) chosen).and
      (sameMembers.nodup_iff.mpr distinct)
    exact increasing.imp (fun both => Nat.lt_of_le_of_ne both.1 both.2)
  have numbered : ((items.zipIdx.filter (fun entry => entry.2 ∈ chosen)).map
      (fun entry => entry.2)).Pairwise (· < ·) := by
    rw [List.pairwise_map]
    apply List.Pairwise.filter
    rw [← List.pairwise_map, List.zipIdx_map_snd]
    exact List.pairwise_lt_range'
  apply List.Pairwise.eq_of_mem_iff sorted numbered
  intro index
  rw [sameMembers.mem_iff, List.mem_map]
  constructor
  · intro isChosen
    have inside := inRange index isChosen
    refine ⟨(items[index], index), List.mem_filter.mpr ⟨?_, decide_eq_true isChosen⟩, rfl⟩
    exact List.mk_mem_zipIdx_iff_getElem?.mpr (List.getElem?_eq_getElem inside)
  · rintro ⟨entry, member, rfl⟩
    exact of_decide_eq_true (List.mem_filter.mp member).2

theorem outputSentences_eq_chosenLines {corpus : List Char} {chosen : List Nat}
    (distinct : chosen.Nodup) (inRange : ∀ index ∈ chosen, index < (linesOf corpus).length) :
    outputSentences corpus chosen = chosenLines corpus chosen := by
  rw [outputSentences_eq inRange, mergeSort_eq_filter distinct inRange, List.map_map, chosenLines]
  apply List.map_congr_left
  intro entry member
  have stored := List.mem_zipIdx_iff_getElem?.mp (List.mem_filter.mp member).1
  simp only [Function.comp_apply, lineAt, stored, Option.getD_some]

/-! ### The printed lines -/

section

variable {R : Type} [DoubleArithmetic R] {counters : Counters}
  {seedCorpus minedCorpus : List Char} {features : FeatureMap R} {sentences : List (Sentence R)}

omit [DoubleArithmetic R] in
theorem Outcome.exists_sentence {budget : Nat} {picks left : List ParsedSentence}
    {chosen : List Nat}
    (outcome : Outcome budget (sentences.map Sentence.toParsedSentence) picks left chosen)
    {index : Nat} (isChosen : index ∈ chosen) :
    ∃ sentence ∈ sentences, sentence.index = index := by
  rw [outcome.chosen] at isChosen
  rcases List.mem_map.mp isChosen with ⟨pick, picked, rfl⟩
  have listed := outcome.account.mem_iff.mp (List.mem_append_left left picked)
  rcases List.mem_map.mp listed with ⟨sentence, member, rfl⟩
  exact ⟨sentence, member, rfl⟩

theorem Outcome.index_lt {budget : Nat} {picks left : List ParsedSentence} {chosen : List Nat}
    (outcome : Outcome budget (sentences.map Sentence.toParsedSentence) picks left chosen)
    (parsed : Parsed counters seedCorpus minedCorpus features sentences) :
    ∀ index ∈ chosen, index < (linesOf minedCorpus).length := by
  intro index isChosen
  obtain ⟨sentence, member, rfl⟩ := outcome.exists_sentence isChosen
  exact parsed.index_lt member

/-- The line that a sentence is numbered after is the one it was read from. -/
theorem Parsed.isAvailable_lineAt
    (parsed : Parsed counters seedCorpus minedCorpus features sentences)
    (indexes : counters.Indexes (linesOf minedCorpus).length) {sentence : Sentence R}
    (member : sentence ∈ sentences) :
    isAvailable (seedWordids seedCorpus) features.keys (lineAt minedCorpus sentence.index) =
      true := by
  rw [parsed.sentences] at member
  rcases mem_lineSentences.mp member with ⟨entry, inLines, available, rfl⟩
  have inside := (List.mem_zipIdx inLines).2.1
  rw [Nat.zero_add] at inside
  have stored := List.mem_zipIdx_iff_getElem?.mp inLines
  change isAvailable _ _ (lineAt minedCorpus (counters.uint entry.2)) = true
  rw [indexes entry.2 inside, lineAt, stored]
  exact available

theorem mem_chosenLines {corpus : List Char} {chosen : List Nat} {line : List Char}
    (member : line ∈ chosenLines corpus chosen) : ∃ index ∈ chosen, lineAt corpus index = line := by
  rcases List.mem_map.mp member with ⟨entry, kept, rfl⟩
  rcases List.mem_filter.mp kept with ⟨inLines, isChosen⟩
  refine ⟨entry.2, of_decide_eq_true isChosen, ?_⟩
  rw [lineAt, List.mem_zipIdx_iff_getElem?.mp inLines, Option.getD_some]

theorem lineAt_mem_chosenLines {corpus : List Char} {chosen : List Nat} {index : Nat}
    (isChosen : index ∈ chosen) (inRange : index < (linesOf corpus).length) :
    lineAt corpus index ∈ chosenLines corpus chosen := by
  rw [lineAt_eq inRange]
  refine List.mem_map.mpr ⟨((linesOf corpus)[index], index), ?_, rfl⟩
  refine List.mem_filter.mpr ⟨?_, decide_eq_true isChosen⟩
  exact List.mk_mem_zipIdx_iff_getElem?.mpr (List.getElem?_eq_getElem inRange)

/-- The text is that of the selected lines, which are short and contain a feature,
and the selection is complete or has used up the budget. -/
structure PrintsChosen (seedCorpus minedCorpus : List Char) (budget : Nat)
    (features : FeatureMap R) (sentences : List (Sentence R)) (chosen : List Nat)
    (printed : List Char) : Prop where
  distinct : chosen.Nodup
  known : ∀ index ∈ chosen, ∃ sentence ∈ sentences, sentence.index = index
  text : printed = (chosenLines minedCorpus chosen).flatMap (fun line => line ++ ['\n'])
  lines : ∀ line ∈ chosenLines minedCorpus chosen, (words line).length ≤ 255 ∧
    ∃ gram ∈ features.keys, gram ∈ lineGrams (seedWordids seedCorpus) line
  ended : (∀ sentence ∈ sentences, sentence.index ∈ chosen) ∨
    budget ≤ ((chosenSentences (sentences.map Sentence.toParsedSentence) chosen).map cost).sum

theorem Outcome.printsChosen {budget : Nat} {picks left : List ParsedSentence}
    {chosen : List Nat}
    (outcome : Outcome budget (sentences.map Sentence.toParsedSentence) picks left chosen)
    (parsed : Parsed counters seedCorpus minedCorpus features sentences)
    (indexes : counters.Indexes (linesOf minedCorpus).length) :
    PrintsChosen seedCorpus minedCorpus budget features sentences chosen
      ((outputSentences minedCorpus chosen).flatMap (fun line => line ++ ['\n'])) := by
  have indexed := parsed.indices_nodup indexes
  have distinct : chosen.Nodup := by
    have allDistinct := (outcome.account.map (fun sentence => sentence.index)).nodup_iff.mpr indexed
    rw [List.map_append] at allDistinct
    rw [outcome.chosen]
    exact (List.nodup_append.mp allDistinct).1
  refine ⟨distinct, fun index => outcome.exists_sentence, ?_, ?_, ?_⟩
  · rw [outputSentences_eq_chosenLines distinct (outcome.index_lt parsed)]
  · intro line member
    obtain ⟨index, isChosen, rfl⟩ := mem_chosenLines member
    obtain ⟨sentence, isSentence, rfl⟩ := outcome.exists_sentence isChosen
    obtain ⟨short, gram, inLine, known⟩ :=
      isAvailable_iff.mp (parsed.isAvailable_lineAt indexes isSentence)
    exact ⟨short, gram, known, inLine⟩
  · rcases outcome.ended with nothing | spent
    · subst nothing
      refine Or.inl (fun sentence member => ?_)
      have listed := outcome.account.mem_iff.mpr (List.mem_map_of_mem member)
      rw [List.append_nil] at listed
      rw [outcome.chosen]
      exact List.mem_map_of_mem listed
    · refine Or.inr (spent.trans (Nat.le_of_eq ?_))
      have sameSentences := chosenSentences_perm indexed outcome.account
      rw [outcome.chosen]
      exact (sameSentences.map cost).sum_eq.symm

end

/-- On every file whose lines a 32-bit index can number, the program prints the
selected lines and nothing else, each once and in file order. -/
theorem main_printsChosen {R : Type} [DoubleArithmetic R]
    (queue : PriorityQueue (Sentence.less (R := R))) (seedCorpus minedCorpus : List Char)
    (budget more : Nat) (numbered : (linesOf minedCorpus).length ≤ 2 ^ 32) :
    ∃ (features : FeatureMap R) (sentences : List (Sentence R)),
      parseCorpora .machine (enoughFuel seedCorpus minedCorpus + more) seedCorpus minedCorpus =
        some (features, sentences) ∧
      (OrdersDoubles R → sentences.length < 2 ^ 32 → ∃ final,
        select queue .machine (enoughFuel seedCorpus minedCorpus + more) seedCorpus minedCorpus
          budget = some final) ∧
      ∀ final, select queue .machine (enoughFuel seedCorpus minedCorpus + more) seedCorpus
          minedCorpus budget = some final →
        ∃ printed, main queue .machine (enoughFuel seedCorpus minedCorpus + more) seedCorpus
            minedCorpus budget = some printed ∧
          PrintsChosen seedCorpus minedCorpus budget features sentences final.chosen printed := by
  have enough := Nat.le_add_right (enoughFuel seedCorpus minedCorpus) more
  obtain ⟨features, sentences, parse, parsed, ends, outcomes⟩ :=
    select_outcome queue .machine enough
  refine ⟨features, sentences, parse, ?_, ?_⟩
  · intro order few
    exact ends order (Counters.fits_machine_iff.mpr few) budget
  · intro final ran
    obtain ⟨picks, outcome⟩ := outcomes budget final ran
    refine ⟨_, ?_, outcome.printsChosen parsed (Counters.machine.indexes_of_le numbered)⟩
    unfold main
    rw [ran]
    rfl

theorem main_printsChosen_twoLines :
    ∃ (features : FeatureMap ℝ) (sentences : List (Sentence ℝ)),
      parseCorpora .machine 8 ['a'] ['a', '\n', 'a'] = some (features, sentences) ∧
      (OrdersDoubles ℝ → sentences.length < 2 ^ 32 → ∃ final : LoopState ℝ,
        select (sortedQueue _) .machine 8 ['a'] ['a', '\n', 'a'] 1 = some final) ∧
      ∀ final : LoopState ℝ,
        select (sortedQueue _) .machine 8 ['a'] ['a', '\n', 'a'] 1 = some final →
        ∃ printed, main (R := ℝ) (sortedQueue _) .machine 8 ['a'] ['a', '\n', 'a'] 1 =
            some printed ∧
          PrintsChosen ['a'] ['a', '\n', 'a'] 1 features sentences final.chosen printed :=
  main_printsChosen (sortedQueue _) ['a'] ['a', '\n', 'a'] 1 0 (by decide)

/-! ### Past the range of the index -/

/-- A line after blank lines. -/
def blankThen (count : Nat) (line : List Char) : List Char := List.replicate count '\n' ++ line

theorem linesOf_blankThen (count : Nat) {line : List Char} (clean : '\n' ∉ line) :
    linesOf (blankThen count line) = List.replicate count [] ++ [line] := by
  induction count with
  | zero => exact linesOf_of_noNewline clean
  | succ count ih =>
      unfold blankThen at ih ⊢
      rw [List.replicate_succ, List.cons_append, List.replicate_succ, List.cons_append, ← ih]
      exact linesOf_append_newline [] _ List.not_mem_nil

theorem notMem_lineGrams_nil (wordids : WordMap) (gram : Ngram) :
    gram ∉ lineGrams wordids [] := by
  intro inLine
  rcases mem_lineGrams.mp inLine with ⟨isGram, occurs⟩
  have few : occurrences gram (idsOf wordids []) ≤ (idsOf wordids []).length :=
    occurrences_le_length (List.ne_nil_of_length_pos isGram.1)
  rw [length_idsOf] at few
  exact absurd (Nat.lt_of_lt_of_le occurs few) (Nat.lt_irrefl 0)

theorem isAvailable_nil (wordids : WordMap) (keys : List Ngram) :
    isAvailable wordids keys [] = false := by
  rw [Bool.eq_false_iff]
  intro available
  rcases isAvailable_iff.mp available with ⟨_short, gram, inLine, _known⟩
  exact notMem_lineGrams_nil wordids gram inLine

/-- A line that a seed corpus of one word makes available. -/
structure OneWordLine (line : List Char) : Prop where
  clean : '\n' ∉ line
  short : (words line).length ≤ maxSentLength
  hasWord : [1] ∈ lineGrams (seedWordids ['a']) line

theorem oneWordLine_single : OneWordLine ['a'] :=
  ⟨by decide, by decide, mem_lineGrams.mpr ⟨⟨by decide, by decide, by decide⟩, by decide⟩⟩

section

variable {R : Type} [DoubleArithmetic R] {line : List Char} (oneWord : OneWordLine line)

include oneWord

theorem sentences_blankThen {counters : Counters} {count : Nat} {features : FeatureMap R}
    {sentences : List (Sentence R)}
    (parsed : Parsed counters ['a'] (blankThen count line) features sentences) :
    sentences =
      [lineSentence counters (seedWordids ['a']) features.keys (counters.uint count) line] := by
  have lines := linesOf_blankThen count oneWord.clean
  have known : [1] ∈ features.keys := by
    refine (parsed.keys [1]).mpr
      ⟨⟨['a'], by decide, oneWordLine_single.hasWord⟩, line, ?_, oneWord.hasWord⟩
    rw [lines]
    exact List.mem_append_right _ (List.mem_singleton_self _)
  have available : isAvailable (seedWordids ['a']) features.keys line = true :=
    isAvailable_iff.mpr ⟨oneWord.short, [1], oneWord.hasWord, known⟩
  have blank : (((List.replicate count []).zipIdx).filter
      (fun entry => isAvailable (seedWordids ['a']) features.keys entry.1)) = [] := by
    rw [List.filter_eq_nil_iff]
    intro entry member
    have empty := List.eq_of_mem_replicate (List.fst_mem_of_mem_zipIdx member)
    rw [empty, isAvailable_nil]
    exact Bool.false_ne_true
  rw [parsed.sentences, lineSentences, lines, List.zipIdx_append, List.filter_append, blank,
    List.nil_append, List.length_replicate, List.zipIdx_singleton, List.filter_singleton]
  simp [available]

theorem select_blankThen (queue : PriorityQueue (Sentence.less (R := R)))
    (order : OrdersDoubles R) (counters : Counters) (count : Nat) {fuel : Nat}
    (enough : enoughFuel ['a'] (blankThen count line) ≤ fuel) :
    ∃ (features : FeatureMap R) (final : LoopState R),
      parseCorpora counters fuel ['a'] (blankThen count line) = some (features,
        [lineSentence counters (seedWordids ['a']) features.keys (counters.uint count) line]) ∧
      select queue counters fuel ['a'] (blankThen count line) 1 = some final ∧
      final.chosen = [counters.uint count] := by
  obtain ⟨features, sentences, parse, parsed, ends, outcomes⟩ :=
    select_outcome queue counters enough
  have single := sentences_blankThen oneWord parsed
  have one : sentences.length = 1 := by
    rw [single, List.length_singleton]
  obtain ⟨final, ran⟩ := ends order (counters.uint_of_lt (by omega)) 1
  refine ⟨features, final, single ▸ parse, ran, ?_⟩
  obtain ⟨picks, outcome⟩ := outcomes 1 final ran
  have account := outcome.account
  rw [single, List.map_singleton, List.perm_singleton, List.append_eq_singleton_iff] at account
  rw [outcome.chosen]
  cases account with
  | inl remains =>
      cases outcome.ended with
      | inl nothing => exact absurd (nothing.symm.trans remains.2) (List.cons_ne_nil _ _).symm
      | inr spent =>
          rw [remains.1] at spent
          exact absurd spent (by decide)
  | inr taken =>
      rw [taken.1]
      rfl

omit [DoubleArithmetic R] in
theorem outputSentences_blankThen (counters : Counters) (count : Nat) :
    outputSentences (blankThen count line) [counters.uint count] =
      [lineAt (blankThen count line) (counters.uint count)] := by
  rw [outputSentences_eq, List.mergeSort_singleton, List.map_singleton]
  intro index isChosen
  rw [List.mem_singleton.mp isChosen, linesOf_blankThen count oneWord.clean, List.length_append,
    List.length_replicate, List.length_singleton]
  exact Nat.lt_succ_of_le (counters.uint_le count)

theorem main_blankThen (queue : PriorityQueue (Sentence.less (R := R)))
    (order : OrdersDoubles R) (counters : Counters) (count : Nat) {fuel : Nat}
    (enough : enoughFuel ['a'] (blankThen count line) ≤ fuel) :
    main queue counters fuel ['a'] (blankThen count line) 1 =
      some (lineAt (blankThen count line) (counters.uint count) ++ ['\n']) := by
  obtain ⟨_features, final, _parse, ran, chosen⟩ :=
    select_blankThen oneWord queue order counters count enough
  unfold main
  rw [ran, Option.map_some, chosen, outputSentences_blankThen oneWord]
  exact congrArg some (List.append_nil _)

end

theorem lineAt_blankThen_zero {count : Nat} (positive : 0 < count) {line : List Char}
    (clean : '\n' ∉ line) : lineAt (blankThen count line) 0 = [] := by
  obtain ⟨fewer, rfl⟩ := Nat.exists_eq_succ_of_ne_zero (Nat.ne_of_gt positive)
  rw [lineAt, linesOf_blankThen _ clean]
  rfl

/-- With 2^32 blank lines before it, the only available line gets index 0, and the
program prints the first line of the file instead. -/
theorem wrappedIndex_printsBlank :
    ∃ (features : FeatureMap ℝ) (sentences : List (Sentence ℝ)) (final : LoopState ℝ),
      parseCorpora .machine (enoughFuel ['a'] (blankThen (2 ^ 32) ['a'])) ['a']
        (blankThen (2 ^ 32) ['a']) = some (features, sentences) ∧
      select (sortedQueue _) .machine (enoughFuel ['a'] (blankThen (2 ^ 32) ['a'])) ['a']
        (blankThen (2 ^ 32) ['a']) 1 = some final ∧
      main (R := ℝ) (sortedQueue _) .machine (enoughFuel ['a'] (blankThen (2 ^ 32) ['a'])) ['a']
        (blankThen (2 ^ 32) ['a']) 1 = some ['\n'] ∧
      ¬ PrintsChosen ['a'] (blankThen (2 ^ 32) ['a']) 1 features sentences final.chosen
        ['\n'] := by
  have wraps : Counters.machine.uint (2 ^ 32) = 0 := Nat.mod_self _
  have first := lineAt_blankThen_zero (Nat.two_pow_pos 32) oneWordLine_single.clean
  have printed := main_blankThen oneWordLine_single (sortedQueue (Sentence.less (R := ℝ)))
    ordersDoubles_exact .machine (2 ^ 32) (Nat.le_refl _)
  rw [wraps, first] at printed
  obtain ⟨features, final, parse, ran, chosen⟩ :=
    select_blankThen oneWordLine_single (sortedQueue _) ordersDoubles_exact .machine (2 ^ 32)
      (Nat.le_refl _)
  rw [wraps] at chosen
  refine ⟨features, _, final, parse, ran, printed, ?_⟩
  intro prints
  have inRange : 0 < (linesOf (blankThen (2 ^ 32) ['a'])).length :=
    List.length_pos_of_ne_nil (linesOf_ne_nil _)
  have isChosen : 0 ∈ final.chosen := by
    rw [chosen]
    exact List.mem_singleton_self 0
  have isPrinted := lineAt_mem_chosenLines isChosen inRange
  rw [first] at isPrinted
  obtain ⟨_short, gram, _known, inLine⟩ := prints.lines [] isPrinted
  exact notMem_lineGrams_nil _ gram inLine

end Filter
