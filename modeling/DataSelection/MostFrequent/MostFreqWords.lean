/-
Printing the most frequent words of a text.

The vector of the words to print is created with the requested length.  Where the text has
fewer distinct words, the entries behind them stay empty and are printed as well.
-/

import DataSelection.Library.PartialSort
import DataSelection.Library.Tally
import DataSelection.WittenBell.Corpus
import Mathlib.Data.Char
import Mathlib.Data.List.Lex

namespace MostFrequent

open Library
open WittenBell (Word isSpace split cleanWord_of_mem_split)

/-- The greatest `int`. -/
def intMax : Nat := 2 ^ 31 - 1

/-- The words that `f >> word` reads one after the other. -/
def words (text : List Char) : List Word := split text

/-- `++wordCounts[word]`, which is undefined when the sum does not fit. -/
def countWord (wordCounts : Tally Word) (word : Word) : Option (Tally Word) :=
  if wordCounts.value word < intMax then some (wordCounts.increment word) else none

def moreFrequent (x y : Word × Nat) : Bool := decide (x.2 > y.2)

/-- The entries of the map, in the order of its keys. -/
def entries (wordCounts : Tally Word) : List (Word × Nat) :=
  (wordCounts.keys.mergeSort (fun left right => left ≤ right)).map
    (fun word => (word, wordCounts.value word))

def writeEntry (printCounts : Bool) (entry : Word × Nat) : List Char :=
  entry.1 ++ (if printCounts then '\t' :: Nat.toDigits 10 entry.2 else []) ++ ['\n']

def printMostFreq (partialSort : PartialSort moreFrequent) (text : List Char) (numWords : Nat)
    (printCounts : Bool) : Option (List Char) := do
  let wordCounts ← (words text).foldlM countWord DefaultDict.empty
  let copied := partialSort.copy numWords (entries wordCounts)
  let wordVector := copied ++ List.replicate (numWords - copied.length) ([], 0)
  some ((wordVector.take numWords).flatMap (writeEntry printCounts))

/-- The most frequent words of a text with the numbers of their occurrences. -/
structure TopList (text : List Char) (numWords : Nat) (printed : List (Word × Nat)) : Prop where
  length : printed.length = min numWords (words text).dedup.length
  distinct : (printed.map Prod.fst).Nodup
  counted : ∀ entry ∈ printed, entry.1 ∈ words text ∧ entry.2 = (words text).count entry.1
  sorted : printed.Pairwise (fun first second => second.2 ≤ first.2)
  greatest : ∀ word ∈ words text, word ∉ printed.map Prod.fst →
    ∀ entry ∈ printed, (words text).count word ≤ entry.2

def PrintsTopList (partialSort : PartialSort moreFrequent) (text : List Char) (numWords : Nat)
    (printCounts : Bool) : Prop :=
  ∃ printed, TopList text numWords printed ∧
    printMostFreq partialSort text numWords printCounts =
      some (printed.flatMap (writeEntry printCounts))

/-! ### Counting -/

theorem moreFrequent_weakOrder : WeakOrder moreFrequent :=
  { asymm := by
      intro left right above
      simp only [moreFrequent, decide_eq_true_eq, decide_eq_false_iff_not] at above ⊢
      omega
    negTrans := by
      intro left middle right first second
      simp only [moreFrequent, decide_eq_false_iff_not] at first second ⊢
      omega }

theorem value_increment_count (wordCounts : Tally Word) (word other : Word) (found : List Word) :
    (wordCounts.increment word).value other + found.count other =
      wordCounts.value other + (word :: found).count other := by
  rw [Tally.value_increment, List.count_cons]
  by_cases same : other = word
  · subst same
    simp only [beq_self_eq_true, if_true]
    omega
  · simp only [beq_iff_eq, Ne.symm same, same, if_false, Nat.add_zero]

/-- Counting succeeds when every number of occurrences is an `int`. -/
theorem foldlM_countWord {found : List Word} {wordCounts : Tally Word}
    (small : ∀ word, wordCounts.value word + found.count word ≤ intMax) :
    found.foldlM countWord wordCounts = some (wordCounts.incrementAll found) := by
  induction found generalizing wordCounts with
  | nil => rfl
  | cons word found ih =>
      have here := small word
      rw [List.count_cons_self] at here
      have fits : countWord wordCounts word = some (wordCounts.increment word) :=
        if_pos (by omega)
      rw [List.foldlM_cons, fits]
      apply ih
      intro other
      rw [value_increment_count]
      exact small other

theorem small_of_foldlM {found : List Word} {wordCounts counted : Tally Word}
    (ran : found.foldlM countWord wordCounts = some counted)
    (small : ∀ word, wordCounts.value word ≤ intMax) :
    ∀ word, wordCounts.value word + found.count word ≤ intMax := by
  induction found generalizing wordCounts with
  | nil =>
      intro word
      rw [List.count_nil, Nat.add_zero]
      exact small word
  | cons first found ih =>
      rw [List.foldlM_cons] at ran
      rcases Option.bind_eq_some_iff.mp ran with ⟨next, stepped, others⟩
      unfold countWord at stepped
      split at stepped
      · next fits =>
          cases stepped
          intro word
          rw [← value_increment_count]
          apply ih others
          intro other
          rw [Tally.value_increment]
          by_cases same : other = first
          · subst same
            rw [if_pos rfl]
            exact fits
          · rw [if_neg same, Nat.add_zero]
            exact small other
      · cases stepped

/-- The counts of the words of a text. -/
def wordTally (text : List Char) : Tally Word :=
  Tally.incrementAll DefaultDict.empty (words text)

theorem value_wordTally (text : List Char) (word : Word) :
    (wordTally text).value word = (words text).count word := by
  have start : (DefaultDict.empty : Tally Word).value word = 0 := rfl
  rw [wordTally, Tally.value_incrementAll, start, Nat.zero_add, List.count_eq_countP]
  exact List.countP_congr (fun other _ => by rw [decide_eq_true_eq, beq_iff_eq])

theorem keys_wordTally_perm (text : List Char) :
    (wordTally text).keys.Perm (words text).dedup := by
  rw [List.perm_ext_iff_of_nodup (wordTally text).nodup (List.nodup_dedup _)]
  intro word
  rw [wordTally, Tally.mem_keys_incrementAll, List.mem_dedup]
  exact or_iff_left List.not_mem_nil

theorem countWords_iff (text : List Char) (wordCounts : Tally Word) :
    (words text).foldlM countWord DefaultDict.empty = some wordCounts ↔
      wordCounts = wordTally text ∧ ∀ word, (words text).count word ≤ intMax := by
  have start : ∀ word, (DefaultDict.empty : Tally Word).value word = 0 := fun _ => rfl
  constructor
  · intro ran
    have small := small_of_foldlM ran (fun word => Nat.zero_le _)
    have counted := foldlM_countWord small
    rw [ran] at counted
    refine ⟨Option.some.inj counted, fun word => ?_⟩
    have fits := small word
    rw [start, Nat.zero_add] at fits
    exact fits
  · rintro ⟨rfl, small⟩
    apply foldlM_countWord
    intro word
    rw [start, Nat.zero_add]
    exact small word

/-! ### The printed list -/

theorem mem_entries {wordCounts : Tally Word} {entry : Word × Nat} :
    entry ∈ entries wordCounts ↔
      entry.1 ∈ wordCounts.keys ∧ entry.2 = wordCounts.value entry.1 := by
  unfold entries
  rw [List.mem_map]
  constructor
  · rintro ⟨word, present, rfl⟩
    exact ⟨List.mem_mergeSort.mp present, rfl⟩
  · rintro ⟨present, isValue⟩
    exact ⟨entry.1, List.mem_mergeSort.mpr present, Prod.ext rfl isValue.symm⟩

theorem entries_words_perm (wordCounts : Tally Word) :
    ((entries wordCounts).map Prod.fst).Perm wordCounts.keys := by
  have same : (entries wordCounts).map Prod.fst =
      wordCounts.keys.mergeSort (fun left right => left ≤ right) := by
    rw [entries, List.map_map]
    exact List.map_id _
  rw [same]
  exact List.mergeSort_perm _ _

theorem length_entries (text : List Char) :
    (entries (wordTally text)).length = (words text).dedup.length := by
  have perm := (entries_words_perm (wordTally text)).trans (keys_wordTally_perm text)
  rw [← List.length_map Prod.fst, perm.length_eq]

theorem mem_entries_wordTally {text : List Char} {entry : Word × Nat} :
    entry ∈ entries (wordTally text) ↔
      entry.1 ∈ words text ∧ entry.2 = (words text).count entry.1 := by
  rw [mem_entries, (keys_wordTally_perm text).mem_iff, List.mem_dedup, value_wordTally]

/-- What is copied is the top of the list, of whatever length. -/
theorem topList_copy (partialSort : PartialSort moreFrequent) (text : List Char) (numWords : Nat) :
    TopList text numWords (partialSort.copy numWords (entries (wordTally text))) := by
  rcases partialSort.first moreFrequent_weakOrder numWords (entries (wordTally text)) with
    ⟨rest, perm, behind⟩
  have inEntries : ∀ entry ∈ partialSort.copy numWords (entries (wordTally text)),
      entry ∈ entries (wordTally text) :=
    fun entry member => perm.mem_iff.mp (List.mem_append_left rest member)
  constructor
  · rw [partialSort.length, length_entries]
  · have nodup := (((perm.map Prod.fst).trans (entries_words_perm _)).nodup_iff).mpr
      (wordTally text).nodup
    rw [List.map_append] at nodup
    exact (List.nodup_append.mp nodup).1
  · intro entry member
    exact mem_entries_wordTally.mp (inEntries entry member)
  · refine (partialSort.sorted moreFrequent_weakOrder numWords _).imp ?_
    intro first second below
    exact Nat.le_of_not_lt (of_decide_eq_false below)
  · intro word present left entry member
    have listed : (word, (words text).count word) ∈ entries (wordTally text) :=
      mem_entries_wordTally.mpr ⟨present, rfl⟩
    rcases List.mem_append.mp (perm.mem_iff.mpr listed) with copied | notCopied
    · exact absurd (List.mem_map_of_mem copied) left
    · exact Nat.le_of_not_lt (of_decide_eq_false (behind entry member _ notCopied))

/-- The lines of the output are counted by their ends. -/
theorem count_newline_writeEntry (printCounts : Bool) {entry : Word × Nat}
    (clean : '\n' ∉ entry.1) : (writeEntry printCounts entry).count '\n' = 1 := by
  have digits : '\n' ∉ Nat.toDigits 10 entry.2 := by
    intro member
    have isDigit := Nat.isDigit_of_mem_toDigits (by decide) (by decide) member
    cases isDigit
  unfold writeEntry
  rw [List.count_append, List.count_append, List.count_eq_zero_of_not_mem clean]
  cases printCounts with
  | false => rfl
  | true =>
      rw [if_pos rfl, List.count_cons_of_ne (by decide), List.count_eq_zero_of_not_mem digits]
      rfl

theorem count_newline_flatMap (printCounts : Bool) {printed : List (Word × Nat)}
    (clean : ∀ entry ∈ printed, '\n' ∉ entry.1) :
    (printed.flatMap (writeEntry printCounts)).count '\n' = printed.length := by
  induction printed with
  | nil => rfl
  | cons entry printed ih =>
      rw [List.flatMap_cons, List.count_append,
        count_newline_writeEntry printCounts (clean entry List.mem_cons_self),
        ih (fun other member => clean other (List.mem_cons_of_mem entry member)),
        List.length_cons, Nat.add_comm]

theorem TopList.clean {text : List Char} {numWords : Nat} {printed : List (Word × Nat)}
    (top : TopList text numWords printed) : ∀ entry ∈ printed, '\n' ∉ entry.1 :=
  fun entry member => (cleanWord_of_mem_split (top.counted entry member).1).newline_notMem

/-- The top list is printed exactly when the text has as many distinct words as asked for,
and every number of occurrences is an `int`. -/
theorem printMostFreq_topList_iff (partialSort : PartialSort moreFrequent) (text : List Char)
    (numWords : Nat) (printCounts : Bool) :
    PrintsTopList partialSort text numWords printCounts ↔
      numWords ≤ (words text).dedup.length ∧ ∀ word, (words text).count word ≤ intMax := by
  unfold PrintsTopList printMostFreq
  constructor
  · rintro ⟨printed, top, output⟩
    rcases Option.bind_eq_some_iff.mp output with ⟨wordCounts, counted, written⟩
    rcases (countWords_iff text wordCounts).mp counted with ⟨rfl, small⟩
    refine ⟨?_, small⟩
    have copied := topList_copy partialSort text numWords
    have short : (partialSort.copy numWords (entries (wordTally text))).length ≤ numWords := by
      rw [copied.length]
      exact Nat.min_le_left _ _
    have clean := copied.clean
    have same := congrArg (List.count '\n') (Option.some.inj written)
    rw [count_newline_flatMap printCounts top.clean, count_newline_flatMap] at same
    · rw [List.length_take, List.length_append, List.length_replicate, top.length] at same
      omega
    · intro entry member
      rcases List.mem_append.mp (List.mem_of_mem_take member) with inCopied | empty
      · exact clean entry inCopied
      · rw [(List.mem_replicate.mp empty).2]
        exact List.not_mem_nil
  · rintro ⟨enough, small⟩
    have copied := topList_copy partialSort text numWords
    have full : (partialSort.copy numWords (entries (wordTally text))).length = numWords := by
      rw [copied.length]
      exact Nat.min_eq_left enough
    refine ⟨_, copied, ?_⟩
    rw [(countWords_iff text (wordTally text)).mpr ⟨rfl, small⟩, Option.bind_eq_bind,
      Option.bind_some]
    dsimp only
    rw [full, Nat.sub_self, List.replicate_zero, List.append_nil,
      List.take_of_length_le full.le]

/-- One distinct word, and two entries asked for. -/
theorem shortText_printsEmptyEntry :
    printMostFreq (PartialSort.ofMergeSort moreFrequent) "a a".toList 2 true =
        some "a\t2\n\t0\n".toList ∧
      ¬ PrintsTopList (PartialSort.ofMergeSort moreFrequent) "a a".toList 2 true := by
  have output : printMostFreq (PartialSort.ofMergeSort moreFrequent) "a a".toList 2 true =
      some "a\t2\n\t0\n".toList := by
    decide +kernel
  refine ⟨output, ?_⟩
  rintro ⟨printed, top, written⟩
  rw [output] at written
  have lines := congrArg (List.count '\n') (Option.some.inj written)
  have words : (words "a a".toList).dedup.length = 1 := by decide
  rw [count_newline_flatMap true top.clean, top.length, words] at lines
  revert lines
  decide

end MostFrequent
