/-
Mined lines that cannot be selected have no influence.

The statistics and the sentences are functions of the seed corpus and of the
available lines.  Other lines only shift the numbers that the available lines have,
and neither the selection nor the output depends on these numbers.
-/

import DataSelection.Filter.Output
import DataSelection.Filter.Renumbering

namespace Filter

open Library

variable {R : Type} [DoubleArithmetic R]

def seedGrams (seedCorpus : List Char) : List Ngram :=
  (linesOf seedCorpus).flatMap (lineGrams (seedWordids seedCorpus))

def isSelectable (seedCorpus : List Char) (line : List Char) : Bool :=
  isAvailable (seedWordids seedCorpus) (seedGrams seedCorpus) line

def selectableLines (seedCorpus minedCorpus : List Char) : List (List Char) :=
  (linesOf minedCorpus).filter (isSelectable seedCorpus)

/-! ### The statistics -/

section

variable {counters : Counters} {seedCorpus minedCorpus : List Char} {features : FeatureMap R}
  {sentences : List (Sentence R)}
  (parsed : Parsed counters seedCorpus minedCorpus features sentences)

include parsed

theorem Parsed.mem_keys_iff {line : List Char} (inMined : line ∈ linesOf minedCorpus)
    {gram : Ngram} (inLine : gram ∈ lineGrams (seedWordids seedCorpus) line) :
    gram ∈ features.keys ↔ gram ∈ seedGrams seedCorpus := by
  unfold seedGrams
  rw [parsed.keys gram, List.mem_flatMap]
  exact and_iff_left ⟨line, inMined, inLine⟩

theorem Parsed.isAvailable_eq {line : List Char} (inMined : line ∈ linesOf minedCorpus) :
    isAvailable (seedWordids seedCorpus) features.keys line = isSelectable seedCorpus line := by
  unfold isSelectable
  rw [Bool.eq_iff_iff, isAvailable_iff, isAvailable_iff]
  apply and_congr_right
  intro _short
  apply exists_congr
  intro gram
  exact and_congr_right (fun inLine => parsed.mem_keys_iff inMined inLine)

/-- Over-long lines that share n-grams with the seed add keys, which no sentence has. -/
theorem Parsed.sentences_eq :
    sentences = lineSentences counters (seedWordids seedCorpus) (seedGrams seedCorpus) 0
      (linesOf minedCorpus) := by
  have sameLines : (linesOf minedCorpus).zipIdx.filter
        (fun entry => isAvailable (seedWordids seedCorpus) features.keys entry.1) =
      (linesOf minedCorpus).zipIdx.filter
        (fun entry => isAvailable (seedWordids seedCorpus) (seedGrams seedCorpus) entry.1) := by
    apply List.filter_congr
    intro entry member
    exact parsed.isAvailable_eq (List.fst_mem_of_mem_zipIdx member)
  rw [parsed.sentences]
  unfold lineSentences
  rw [sameLines]
  apply List.map_congr_left
  intro entry member
  have inMined := List.fst_mem_of_mem_zipIdx (List.mem_filter.mp member).1
  have sameGrams : (lineGrams (seedWordids seedCorpus) entry.1).filter
        (fun gram => gram ∈ features.keys) =
      (lineGrams (seedWordids seedCorpus) entry.1).filter
        (fun gram => gram ∈ seedGrams seedCorpus) := by
    apply List.filter_congr
    intro gram inLine
    exact decide_eq_decide.mpr (parsed.mem_keys_iff inMined inLine)
  unfold lineSentence
  rw [sameGrams]

end

theorem isSelectable_of_gram {seedCorpus line : List Char}
    (short : (words line).length ≤ maxSentLength) {gram : Ngram} (known : gram ∈ seedGrams seedCorpus)
    (inLine : gram ∈ lineGrams (seedWordids seedCorpus) line) :
    isSelectable seedCorpus line = true :=
  isAvailable_iff.mpr ⟨short, gram, inLine, known⟩

theorem short_of_isSelectable {seedCorpus line : List Char}
    (selectable : isSelectable seedCorpus line = true) : (words line).length ≤ maxSentLength :=
  (isAvailable_iff.mp selectable).1

theorem gramTotal_selectable {seedCorpus : List Char} {gram : Ngram}
    (known : gram ∈ seedGrams seedCorpus) (lines : List (List Char)) :
    gramTotal (seedWordids seedCorpus) (shortLines lines) gram =
      gramTotal (seedWordids seedCorpus) (lines.filter (isSelectable seedCorpus)) gram := by
  induction lines with
  | nil => rfl
  | cons line rest ih =>
      unfold shortLines gramTotal at ih ⊢
      rw [List.filter_cons, List.filter_cons]
      by_cases selectable : isSelectable seedCorpus line = true
      · rw [if_pos (decide_eq_true (short_of_isSelectable selectable)), if_pos selectable,
          List.map_cons, List.map_cons, List.sum_cons, List.sum_cons, ih]
      · rw [if_neg selectable, ← ih]
        by_cases short : (words line).length ≤ maxSentLength
        · have absent : (lineGrams (seedWordids seedCorpus) line).count gram = 0 :=
            List.count_eq_zero.mpr
              (fun inLine => selectable (isSelectable_of_gram short known inLine))
          rw [if_pos (decide_eq_true short), List.map_cons, List.sum_cons, absent, Nat.zero_add]
        · rw [if_neg (fun kept => short (of_decide_eq_true kept))]

theorem documentCount_selectable {seedCorpus : List Char} {gram : Ngram}
    (known : gram ∈ seedGrams seedCorpus) (lines : List (List Char)) :
    documentCount (seedWordids seedCorpus) (shortLines lines) gram =
      documentCount (seedWordids seedCorpus) (lines.filter (isSelectable seedCorpus)) gram := by
  unfold documentCount shortLines
  rw [List.countP_filter, List.countP_filter]
  apply List.countP_congr
  intro line _member
  simp only [Bool.and_eq_true, decide_eq_true_eq]
  apply and_congr_right
  intro inLine
  exact ⟨fun short => isSelectable_of_gram short known inLine, short_of_isSelectable⟩

/-- The features that take part, and their data as a function of the selectable lines. -/
def TakesPart (seedCorpus : List Char) (lines : List (List Char)) (gram : Ngram) : Prop :=
  gram ∈ seedGrams seedCorpus ∧
    ∃ line ∈ lines, gram ∈ lineGrams (seedWordids seedCorpus) line

def Describes (counters : Counters) (seedCorpus : List Char) (lines : List (List Char))
    (features : FeatureMap R) : Prop :=
  ∀ gram, TakesPart seedCorpus lines gram → gram ∈ features.keys ∧
    features.value gram = (default : Feature R).advance counters
      (gramTotal (seedWordids seedCorpus) (linesOf seedCorpus) gram)
      (gramTotal (seedWordids seedCorpus) lines gram)
      (documentCount (seedWordids seedCorpus) lines gram)

theorem Parsed.describes {counters : Counters} {seedCorpus minedCorpus : List Char}
    {features : FeatureMap R} {sentences : List (Sentence R)}
    (parsed : Parsed counters seedCorpus minedCorpus features sentences) :
    Describes counters seedCorpus (selectableLines seedCorpus minedCorpus) features := by
  intro gram takesPart
  rcases takesPart with ⟨known, line, selectable, inLine⟩
  have inMined := (List.mem_filter.mp selectable).1
  have isKey := (parsed.mem_keys_iff inMined inLine).mpr known
  refine ⟨isKey, ?_⟩
  rw [parsed.counted gram isKey, gramTotal_selectable known, documentCount_selectable known]
  rfl

theorem Describes.agreeOn {counters : Counters} {seedCorpus : List Char}
    {lines : List (List Char)} {left right : FeatureMap R}
    (describesLeft : Describes counters seedCorpus lines left)
    (describesRight : Describes counters seedCorpus lines right) :
    AgreeOn (TakesPart seedCorpus lines) left right := by
  intro gram takesPart
  rw [(describesLeft gram takesPart).2, (describesRight gram takesPart).2]

/-! ### The numbers -/

def selectableEntries (seedCorpus minedCorpus : List Char) : List (List Char × Nat) :=
  (linesOf minedCorpus).zipIdx.filter (fun entry => isSelectable seedCorpus entry.1)

/-- The number in the file of the selectable line with a given rank. -/
def lineNumber (seedCorpus minedCorpus : List Char) (rank : Nat) : Nat :=
  (((selectableEntries seedCorpus minedCorpus)[rank]?).map (fun entry => entry.2)).getD 0

section

variable (seedCorpus minedCorpus : List Char)

theorem map_fst_selectableEntries :
    (selectableEntries seedCorpus minedCorpus).map (fun entry => entry.1) =
      selectableLines seedCorpus minedCorpus := by
  unfold selectableEntries selectableLines
  conv_rhs => rw [← List.zipIdx_map_fst 0 (linesOf minedCorpus), List.filter_map]
  rfl

theorem length_selectableEntries :
    (selectableEntries seedCorpus minedCorpus).length =
      (selectableLines seedCorpus minedCorpus).length := by
  rw [← map_fst_selectableEntries, List.length_map]

variable {seedCorpus minedCorpus}

theorem lineNumber_eq {rank : Nat}
    (inRange : rank < (selectableEntries seedCorpus minedCorpus).length) :
    lineNumber seedCorpus minedCorpus rank =
      (selectableEntries seedCorpus minedCorpus)[rank].2 := by
  unfold lineNumber
  rw [List.getElem?_eq_getElem inRange, Option.map_some, Option.getD_some]

theorem stored_selectableEntry {rank : Nat}
    (inRange : rank < (selectableEntries seedCorpus minedCorpus).length) :
    (linesOf minedCorpus)[(selectableEntries seedCorpus minedCorpus)[rank].2]? =
      some (selectableEntries seedCorpus minedCorpus)[rank].1 :=
  List.mem_zipIdx_iff_getElem?.mp (List.mem_filter.mp (List.getElem_mem inRange)).1

theorem lineNumber_lt {rank : Nat}
    (inRange : rank < (selectableLines seedCorpus minedCorpus).length) :
    lineNumber seedCorpus minedCorpus rank < (linesOf minedCorpus).length := by
  rw [← length_selectableEntries] at inRange
  rw [lineNumber_eq inRange]
  exact (List.getElem?_eq_some_iff.mp (stored_selectableEntry inRange)).1

theorem lineAt_lineNumber {rank : Nat}
    (inRange : rank < (selectableLines seedCorpus minedCorpus).length) :
    lineAt minedCorpus (lineNumber seedCorpus minedCorpus rank) =
      ((selectableLines seedCorpus minedCorpus)[rank]?).getD [] := by
  have inEntries := inRange
  rw [← length_selectableEntries] at inEntries
  rw [lineNumber_eq inEntries, lineAt, stored_selectableEntry inEntries,
    ← map_fst_selectableEntries, List.getElem?_map, List.getElem?_eq_getElem inEntries]
  rfl

theorem lineNumber_le {first second : Nat} (le : first ≤ second)
    (inRange : second < (selectableLines seedCorpus minedCorpus).length) :
    lineNumber seedCorpus minedCorpus first ≤ lineNumber seedCorpus minedCorpus second := by
  rw [← length_selectableEntries] at inRange
  have ordered : (selectableEntries seedCorpus minedCorpus).Pairwise
      (fun left right => left.2 < right.2) := by
    apply List.Pairwise.filter
    rw [← List.pairwise_map, List.zipIdx_map_snd]
    exact List.pairwise_lt_range'
  rw [lineNumber_eq (Nat.lt_of_le_of_lt le inRange), lineNumber_eq inRange]
  cases le.eq_or_lt with
  | inl same =>
      subst same
      exact Nat.le_refl _
  | inr before =>
      exact Nat.le_of_lt (List.pairwise_iff_getElem.mp ordered first second _ inRange before)

theorem outputSentences_lineNumber {ranks : List Nat}
    (inRange : ∀ rank ∈ ranks, rank < (selectableLines seedCorpus minedCorpus).length) :
    outputSentences minedCorpus (ranks.map (lineNumber seedCorpus minedCorpus)) =
      (ranks.mergeSort (· ≤ ·)).map
        (fun rank => ((selectableLines seedCorpus minedCorpus)[rank]?).getD []) := by
  have sortedRange : ∀ rank ∈ ranks.mergeSort (· ≤ ·),
      rank < (selectableLines seedCorpus minedCorpus).length :=
    fun rank member => inRange rank ((List.mergeSort_perm ranks _).mem_iff.mp member)
  have sorted : (ranks.map (lineNumber seedCorpus minedCorpus)).mergeSort (· ≤ ·) =
      (ranks.mergeSort (· ≤ ·)).map (lineNumber seedCorpus minedCorpus) := by
    apply List.Perm.eq_of_pairwise' (r := fun first second : Nat => first ≤ second)
    · exact List.pairwise_mergeSort' (· ≤ ·) _
    · rw [List.pairwise_map]
      refine (List.pairwise_mergeSort' (· ≤ ·) ranks).imp_of_mem ?_
      intro first second _inFirst inSecond le
      exact lineNumber_le le (sortedRange second inSecond)
    · exact (List.mergeSort_perm _ _).trans ((List.mergeSort_perm ranks _).symm.map _)
  rw [outputSentences_eq, sorted, List.map_map]
  · apply List.map_congr_left
    intro rank member
    exact lineAt_lineNumber (sortedRange rank member)
  · intro index member
    rcases List.mem_map.mp member with ⟨rank, isRank, rfl⟩
    exact lineNumber_lt (inRange rank isRank)

theorem lineSentence_renumber (counters : Counters) (wordids : WordMap) (keys : List Ngram)
    (number : Nat → Nat) (index : Nat) (line : List Char) :
    Sentence.renumber number (lineSentence counters wordids keys index line : Sentence R) =
      lineSentence counters wordids keys (number index) line := rfl

theorem lineSentences_renumber {counters : Counters}
    (indexes : counters.Indexes (linesOf minedCorpus).length) :
    (lineSentences counters (seedWordids seedCorpus) (seedGrams seedCorpus) 0
        (linesOf minedCorpus) : List (Sentence R)) =
      (lineSentences counters (seedWordids seedCorpus) (seedGrams seedCorpus) 0
        (selectableLines seedCorpus minedCorpus)).map
        (Sentence.renumber (lineNumber seedCorpus minedCorpus)) := by
  have all : (selectableLines seedCorpus minedCorpus).zipIdx.filter (fun entry =>
        isAvailable (seedWordids seedCorpus) (seedGrams seedCorpus) entry.1) =
      (selectableLines seedCorpus minedCorpus).zipIdx := by
    apply List.filter_eq_self.mpr
    intro entry member
    exact (List.mem_filter.mp (List.fst_mem_of_mem_zipIdx member)).2
  unfold lineSentences
  rw [all, List.map_map]
  change (selectableEntries seedCorpus minedCorpus).map _ = _
  apply List.ext_getElem
  · rw [List.length_map, List.length_map, List.length_zipIdx, length_selectableEntries]
  · intro rank inLeft inRight
    rw [List.length_map] at inLeft
    have sameLine : (selectableLines seedCorpus minedCorpus)[rank]? =
        some (selectableEntries seedCorpus minedCorpus)[rank].1 := by
      rw [← map_fst_selectableEntries, List.getElem?_map, List.getElem?_eq_getElem inLeft]
      rfl
    obtain ⟨inLines, line⟩ := List.getElem?_eq_some_iff.mp sameLine
    have below := lineNumber_lt inLines
    have few := lineNumber_eq inLeft
    have rankFits : counters.uint rank = rank := by
      apply indexes
      refine Nat.lt_of_lt_of_le inLines ?_
      exact List.length_filter_le _ _
    rw [few] at below
    rw [List.getElem_map, List.getElem_map, List.getElem_zipIdx, line, Function.comp_apply,
      Nat.zero_add, rankFits, indexes _ below, ← few]
    exact (lineSentence_renumber counters _ _ _ rank _).symm

end

/-! ### The program -/

section

variable {counters : Counters} {seedCorpus minedCorpus : List Char}

def rankedSentences (counters : Counters) (seedCorpus : List Char) (lines : List (List Char)) :
    List (Sentence R) :=
  lineSentences counters (seedWordids seedCorpus) (seedGrams seedCorpus) 0 lines

theorem rankedSentences_within (counters : Counters) (seedCorpus minedCorpus : List Char) :
    ∀ sentence ∈ (rankedSentences counters seedCorpus
        (selectableLines seedCorpus minedCorpus) : List (Sentence R)),
      sentence.Within (TakesPart seedCorpus (selectableLines seedCorpus minedCorpus))
        (selectableLines seedCorpus minedCorpus).length := by
  intro sentence member
  rcases mem_lineSentences.mp member with ⟨entry, inLines, _available, rfl⟩
  have rankRange := (List.mem_zipIdx inLines).2.1
  rw [Nat.zero_add] at rankRange
  refine ⟨?_, Nat.lt_of_le_of_lt (counters.uint_le entry.2) rankRange⟩
  intro gram isFeature
  have counted := countsGrams_lineSentence (R := R) counters (seedWordids seedCorpus)
    (seedGrams seedCorpus) (counters.uint entry.2) entry.1
  obtain ⟨inLine, known⟩ := List.mem_filter.mp ((counted.members gram).mp isFeature)
  exact ⟨of_decide_eq_true known, entry.1, List.fst_mem_of_mem_zipIdx inLines, inLine⟩

/-- A run over ranks prints the lines that the run over line numbers prints. -/
theorem printed_of_renumbered (queue : PriorityQueue (Sentence.less (R := R)))
    {inside : Ngram → Prop} {left right : LoopState R}
    (related : Renumbered (lineNumber seedCorpus minedCorpus) inside
      (selectableLines seedCorpus minedCorpus).length left right)
    (inner budget fuel : Nat) :
    (budgetLoop queue counters inner budget fuel right).map (fun final =>
        (outputSentences minedCorpus final.chosen).flatMap (fun line => line ++ ['\n'])) =
      (budgetLoop queue counters inner budget fuel left).map (fun final =>
        ((final.chosen.mergeSort (· ≤ ·)).map (fun rank =>
          ((selectableLines seedCorpus minedCorpus)[rank]?).getD [])).flatMap
            (fun line => line ++ ['\n'])) := by
  have ends := related.budgetLoop queue counters inner budget fuel
  revert ends
  generalize budgetLoop queue counters inner budget fuel right = final
  generalize budgetLoop queue counters inner budget fuel left = ranked
  intro ends
  cases ends with
  | none => rfl
  | some finished =>
      rw [Option.map_some, Option.map_some, finished.chosen,
        outputSentences_lineNumber finished.inRange]

/-- What the program prints as a function of the selectable lines, for any feature map
that describes them. -/
theorem main_of_selectable (queue : PriorityQueue (Sentence.less (R := R))) {fuel : Nat}
    (enough : enoughFuel seedCorpus minedCorpus ≤ fuel) (budget : Nat)
    (indexes : counters.Indexes (linesOf minedCorpus).length) {lines : List (List Char)}
    (selectable : selectableLines seedCorpus minedCorpus = lines) {base : FeatureMap R}
    (describes : Describes counters seedCorpus lines base) :
    main queue counters fuel seedCorpus minedCorpus budget =
      if counters.uint lines.length = lines.length then
        (budgetLoop queue counters fuel budget fuel
          (startState queue counters base (rankedSentences counters seedCorpus lines))).map
          (fun final => ((final.chosen.mergeSort (· ≤ ·)).map
            (fun rank => (lines[rank]?).getD [])).flatMap (fun line => line ++ ['\n']))
      else none := by
  subst selectable
  obtain ⟨features, sentences, _parse, parsed, started⟩ :=
    prepare_eq queue counters fuel seedCorpus minedCorpus enough
  have renumbered : sentences = (rankedSentences counters seedCorpus
      (selectableLines seedCorpus minedCorpus)).map
        (Sentence.renumber (lineNumber seedCorpus minedCorpus)) :=
    parsed.sentences_eq.trans (lineSentences_renumber indexes)
  have size : sentences.length = (selectableLines seedCorpus minedCorpus).length := by
    rw [renumbered, List.length_map, rankedSentences, length_lineSentences]
    exact List.countP_eq_length.mpr (fun line member => (List.mem_filter.mp member).2)
  have related : Renumbered (lineNumber seedCorpus minedCorpus)
      (TakesPart seedCorpus (selectableLines seedCorpus minedCorpus))
      (selectableLines seedCorpus minedCorpus).length
      (startState queue counters base (rankedSentences counters seedCorpus
        (selectableLines seedCorpus minedCorpus)))
      (startState queue counters features sentences) := by
    rw [renumbered]
    exact renumbered_startState queue counters (describes.agreeOn parsed.describes)
      (fun gram takesPart => ⟨(describes gram takesPart).1, (parsed.describes gram takesPart).1⟩)
      (rankedSentences_within counters seedCorpus minedCorpus)
  by_cases fits : counters.uint (selectableLines seedCorpus minedCorpus).length =
      (selectableLines seedCorpus minedCorpus).length
  · rw [if_pos fits]
    have prepared := (started _).mpr ⟨size ▸ fits, rfl⟩
    unfold main select
    rw [prepared]
    dsimp only [Option.bind_eq_bind, Option.bind_some]
    exact printed_of_renumbered queue related fuel budget fuel
  · rw [if_neg fits]
    unfold main select
    cases prepared : prepare queue counters fuel seedCorpus minedCorpus with
    | none => rfl
    | some start =>
        have fitsAll := ((started start).mp prepared).1
        rw [size] at fitsAll
        exact (fits fitsAll).elim

end

/-! ### Deleting lines -/

/-- Too long to be selected, or without any word of the seed corpus. -/
def Irrelevant (seedCorpus line : List Char) : Prop :=
  255 < (words line).length ∨ ∀ word ∈ words line, word ∉ corpusWords seedCorpus

/-- The lines of a file after some of its irrelevant lines have been deleted.  Without
its last line a file ends in the newline before it, or is empty. -/
inductive DeletesLines (seedCorpus : List Char) : List (List Char) → List (List Char) → Prop
  | nil : DeletesLines seedCorpus [] []
  | keep {lines kept : List (List Char)} (line : List Char)
      (rest : DeletesLines seedCorpus lines kept) :
      DeletesLines seedCorpus (line :: lines) (line :: kept)
  | delete {lines kept : List (List Char)} {line : List Char}
      (irrelevant : Irrelevant seedCorpus line) (rest : DeletesLines seedCorpus lines kept) :
      DeletesLines seedCorpus (line :: lines) kept
  | last {line : List Char} (irrelevant : Irrelevant seedCorpus line) :
      DeletesLines seedCorpus [line] [[]]

theorem idsOf_unknown {seedCorpus line : List Char}
    (unknown : ∀ word ∈ words line, word ∉ corpusWords seedCorpus) :
    ∀ id ∈ idsOf (seedWordids seedCorpus) line, id = missingWordId := by
  intro id member
  rcases List.mem_map.mp member with ⟨word, inLine, rfl⟩
  apply value_of_notMem
  rw [mem_keys_seedWordids]
  exact unknown word inLine

theorem Irrelevant.notSelectable {seedCorpus line : List Char}
    (irrelevant : Irrelevant seedCorpus line) : isSelectable seedCorpus line = false := by
  rw [Bool.eq_false_iff]
  intro selectable
  rcases isAvailable_iff.mp selectable with ⟨short, gram, inLine, _known⟩
  cases irrelevant with
  | inl long => exact absurd short (Nat.not_le.mpr long)
  | inr unknown =>
      rcases mem_lineGrams.mp inLine with ⟨isGram, occurs⟩
      obtain ⟨id, inGram⟩ := List.exists_mem_of_length_pos isGram.1
      have inIds := subset_of_mem_windows (occurrences_pos_iff.mp occurs) inGram
      rw [idsOf_unknown unknown id inIds] at inGram
      exact isGram.2.2 inGram

theorem DeletesLines.filter_eq {seedCorpus : List Char} {lines kept : List (List Char)}
    (deletes : DeletesLines seedCorpus lines kept) :
    lines.filter (isSelectable seedCorpus) = kept.filter (isSelectable seedCorpus) ∧
      kept.length ≤ lines.length := by
  induction deletes with
  | nil => exact ⟨rfl, Nat.le_refl 0⟩
  | keep line _rest ih =>
      rcases ih with ⟨same, shorter⟩
      exact ⟨by rw [List.filter_cons, List.filter_cons, same], Nat.succ_le_succ shorter⟩
  | delete irrelevant _rest ih =>
      rcases ih with ⟨same, shorter⟩
      refine ⟨?_, shorter.trans (Nat.le_succ _)⟩
      rw [List.filter_cons_of_neg (Bool.eq_false_iff.mp irrelevant.notSelectable), same]
  | last irrelevant =>
      refine ⟨?_, Nat.le_refl 1⟩
      have blank : isSelectable seedCorpus [] = false := isAvailable_nil _ _
      rw [List.filter_cons_of_neg (Bool.eq_false_iff.mp irrelevant.notSelectable),
        List.filter_cons_of_neg (Bool.eq_false_iff.mp blank)]

/-- Deleting irrelevant mined lines does not change the printed text. -/
theorem main_deletesLines (queue : PriorityQueue (Sentence.less (R := R))) (fuel : Nat)
    (seedCorpus minedCorpus shortened : List Char) (budget : Nat)
    (enough : enoughFuel seedCorpus minedCorpus ≤ fuel)
    (shortenedEnough : enoughFuel seedCorpus shortened ≤ fuel)
    (numbered : (linesOf minedCorpus).length ≤ 2 ^ 32)
    (deletes : DeletesLines seedCorpus (linesOf minedCorpus) (linesOf shortened)) :
    main queue .machine fuel seedCorpus shortened budget =
      main queue .machine fuel seedCorpus minedCorpus budget := by
  rcases deletes.filter_eq with ⟨sameLines, shorter⟩
  have same : selectableLines seedCorpus shortened = selectableLines seedCorpus minedCorpus :=
    sameLines.symm
  obtain ⟨features, _sentences, _parse, parsed, _started⟩ :=
    prepare_eq queue .machine fuel seedCorpus minedCorpus enough
  have describes := parsed.describes
  rw [main_of_selectable queue enough budget
      (Counters.machine.indexes_of_le numbered) rfl describes,
    main_of_selectable queue shortenedEnough budget
      (Counters.machine.indexes_of_le (shorter.trans numbered)) same describes]

theorem main_deletesLines_unknownWord :
    main (R := ℝ) (sortedQueue _) .machine 8 ['a'] ['a'] 1 =
      main (R := ℝ) (sortedQueue _) .machine 8 ['a'] ['b', '\n', 'a'] 1 := by
  have unknown : Irrelevant ['a'] ['b'] := Or.inr (by decide)
  have before : linesOf ['b', '\n', 'a'] = [['b'], ['a']] := by decide
  have after : linesOf ['a'] = [['a']] := by decide
  apply main_deletesLines (sortedQueue _) 8 ['a'] ['b', '\n', 'a'] ['a'] 1 (by decide) (by decide)
  · rw [before]
    decide
  · rw [before, after]
    exact .delete unknown (.keep ['a'] .nil)

theorem deletes_blanks (seedCorpus : List Char) (count : Nat) (line : List Char) :
    DeletesLines seedCorpus (List.replicate count [] ++ [line]) [line] := by
  induction count with
  | zero => exact .keep line .nil
  | succ count ih =>
      rw [List.replicate_succ, List.cons_append]
      exact .delete (Or.inr (fun word member => by cases member)) ih

private theorem deletionMatters {count : Nat} (positive : 0 < count)
    (wraps : Counters.machine.uint count = 0) {fuel : Nat}
    (enough : enoughFuel ['a'] (blankThen count ['a']) ≤ fuel) :
    DeletesLines ['a'] (linesOf (blankThen count ['a'])) (linesOf ['a']) ∧
      main (R := ℝ) (sortedQueue _) .machine fuel ['a'] ['a'] 1 = some ['a', '\n'] ∧
      main (R := ℝ) (sortedQueue _) .machine fuel ['a'] (blankThen count ['a']) 1 =
        some ['\n'] := by
  have shorter : enoughFuel ['a'] (blankThen 0 ['a']) ≤ fuel := by
    refine le_trans ?_ enough
    unfold enoughFuel blankThen
    simp only [List.length_append, List.length_replicate]
    omega
  refine ⟨?_, ?_, ?_⟩
  · rw [linesOf_blankThen _ oneWordLine_single.clean,
      linesOf_of_noNewline oneWordLine_single.clean]
    exact deletes_blanks ['a'] count ['a']
  · exact main_blankThen oneWordLine_single (sortedQueue (Sentence.less (R := ℝ)))
      ordersDoubles_exact .machine 0 shorter
  · have printed := main_blankThen oneWordLine_single (sortedQueue (Sentence.less (R := ℝ)))
      ordersDoubles_exact .machine count enough
    rw [wraps, lineAt_blankThen_zero positive oneWordLine_single.clean] at printed
    exact printed

/-- Blank lines that use up the range of the index matter: without them the line that
is printed is the one that was chosen. -/
theorem wrappedIndex_deletionMatters :
    DeletesLines ['a'] (linesOf (blankThen (2 ^ 32) ['a'])) (linesOf ['a']) ∧
      main (R := ℝ) (sortedQueue _) .machine (enoughFuel ['a'] (blankThen (2 ^ 32) ['a'])) ['a']
        ['a'] 1 = some ['a', '\n'] ∧
      main (R := ℝ) (sortedQueue _) .machine (enoughFuel ['a'] (blankThen (2 ^ 32) ['a'])) ['a']
        (blankThen (2 ^ 32) ['a']) 1 = some ['\n'] :=
  deletionMatters (Nat.two_pow_pos 32) (Nat.mod_self _) (Nat.le_refl _)

end Filter
