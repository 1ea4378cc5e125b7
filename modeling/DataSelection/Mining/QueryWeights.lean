/-
The weights of the search queries.

A trigram is the more likely to be a query the closer its probability is to the median.
The trigrams at the median are marked with -1 at first, and then get one and a half times
the greatest weight found.
-/

import DataSelection.Library.DefaultDict
import DataSelection.Library.PartialSort
import Mathlib.Algebra.Order.Field.Basic
import Mathlib.Algebra.Order.Field.Rat
import Mathlib.Tactic.Linarith

namespace Mining

open Library

section Sorting

variable {Trigram R : Type} [LinearOrder R] [Inhabited R]

/-- `sorted(dictionary.iteritems(), key=operator.itemgetter(1))`. -/
def sortedItems (dictionary : DefaultDict Trigram R) : List (Trigram × R) :=
  (dictionary.keys.map (fun key => (key, dictionary.value key))).mergeSort
    (fun left right => left.2 ≤ right.2)

def median_prob (dictionary : DefaultDict Trigram R) : Option R :=
  let sorted_probs := sortedItems dictionary
  (sorted_probs[sorted_probs.length / 2]?).map Prod.snd

def next_highest (dictionary : DefaultDict Trigram R) : Option R :=
  let sorted_probs := sortedItems dictionary
  (sorted_probs[sorted_probs.length - 1]?).map Prod.snd

variable (dictionary : DefaultDict Trigram R)

theorem mem_sortedItems {dictionary : DefaultDict Trigram R} {item : Trigram × R} :
    item ∈ sortedItems dictionary ↔
      item.1 ∈ dictionary.keys ∧ item.2 = dictionary.value item.1 := by
  unfold sortedItems
  rw [List.mem_mergeSort, List.mem_map]
  constructor
  · rintro ⟨key, present, rfl⟩
    exact ⟨present, rfl⟩
  · rintro ⟨present, isValue⟩
    exact ⟨item.1, present, Prod.ext rfl isValue.symm⟩

theorem length_sortedItems : (sortedItems dictionary).length = dictionary.keys.length := by
  rw [sortedItems, List.length_mergeSort, List.length_map]

theorem sortedItems_pairwise :
    (sortedItems dictionary).Pairwise (fun left right => left.2 ≤ right.2) :=
  mergeSort_key_pairwise Prod.snd _

theorem median_prob_mem (filled : dictionary.keys ≠ []) :
    ∃ key ∈ dictionary.keys, median_prob dictionary = some (dictionary.value key) := by
  have positive := List.length_pos_of_ne_nil filled
  have inside : (sortedItems dictionary).length / 2 < (sortedItems dictionary).length := by
    rw [length_sortedItems]
    omega
  have member := mem_sortedItems.mp (List.getElem_mem inside)
  refine ⟨_, member.1, ?_⟩
  unfold median_prob
  dsimp only
  rw [List.getElem?_eq_getElem inside, Option.map_some, member.2]

/-- The last item of the sorted ones has the greatest value. -/
theorem next_highest_greatest (filled : dictionary.keys ≠ []) :
    ∃ highest, next_highest dictionary = some highest ∧
      (∃ key ∈ dictionary.keys, dictionary.value key = highest) ∧
      ∀ key ∈ dictionary.keys, dictionary.value key ≤ highest := by
  have positive := List.length_pos_of_ne_nil filled
  have inside : (sortedItems dictionary).length - 1 < (sortedItems dictionary).length := by
    rw [length_sortedItems]
    omega
  have member := mem_sortedItems.mp (List.getElem_mem inside)
  refine ⟨(sortedItems dictionary)[(sortedItems dictionary).length - 1].2, ?_,
    ⟨_, member.1, member.2.symm⟩, ?_⟩
  · unfold next_highest
    dsimp only
    rw [List.getElem?_eq_getElem inside, Option.map_some]
  · intro key present
    have item : (key, dictionary.value key) ∈ sortedItems dictionary :=
      mem_sortedItems.mpr ⟨present, rfl⟩
    rcases List.getElem_of_mem item with ⟨index, bound, found⟩
    rcases Nat.lt_or_eq_of_le (Nat.le_sub_one_of_lt bound) with before | last
    · have below := List.pairwise_iff_getElem.mp (sortedItems_pairwise dictionary) index _
        bound inside before
      rw [found] at below
      exact below
    · subst last
      rw [found]

end Sorting

section Marks

variable {R : Type} [Field R] [LinearOrder R]

/-- The weight of a probability, and -1 for the median itself. -/
def markMedian (median value : R) : R :=
  if median - value = 0 then -1 else 1 / |median - value|

def replaceMark (estimated_value weight : R) : R :=
  if weight = -1 then estimated_value else weight

theorem markMedian_self (median : R) : markMedian median median = -1 := by
  rw [markMedian, if_pos (sub_self median)]

variable [IsStrictOrderedRing R]

theorem markMedian_of_ne {median value : R} (different : value ≠ median) :
    markMedian median value = 1 / |median - value| ∧ 0 < markMedian median value := by
  have distant : median - value ≠ 0 := sub_ne_zero.mpr different.symm
  have weight : markMedian median value = 1 / |median - value| := by
    rw [markMedian, if_neg distant]
  refine ⟨weight, ?_⟩
  rw [weight]
  exact one_div_pos.mpr (abs_pos.mpr distant)

theorem replaceMark_of_pos (estimated_value : R) {weight : R} (positive : 0 < weight) :
    replaceMark estimated_value weight = weight := by
  have unmarked : weight ≠ -1 := by
    rintro rfl
    exact absurd positive (not_lt.mpr (neg_nonpos.mpr zero_le_one))
  rw [replaceMark, if_neg unmarked]

end Marks

section Reweighting

variable {Trigram R : Type} [Field R] [LinearOrder R] [Inhabited R]

/-- Every weight is positive, and a probability closer to the median has the greater one. -/
structure FavoursMiddle (median : R) (probabilities weights : DefaultDict Trigram R) : Prop where
  positive : ∀ key ∈ probabilities.keys, 0 < weights.value key
  closer : ∀ a ∈ probabilities.keys, ∀ b ∈ probabilities.keys,
    |median - probabilities.value a| < |median - probabilities.value b| →
      weights.value b < weights.value a

/-- With a probability off the median the greatest weight is one of a real distance. -/
theorem favoursMiddle_of_ne [IsStrictOrderedRing R]
    {dictionary weights : DefaultDict Trigram R} {median highest : R}
    {far : Trigram} (present : far ∈ dictionary.keys) (different : dictionary.value far ≠ median)
    (greatest : ∀ key ∈ dictionary.keys,
      markMedian median (dictionary.value key) ≤ highest)
    (values : ∀ key ∈ dictionary.keys, weights.value key =
      replaceMark (3 / 2 * highest) (markMedian median (dictionary.value key))) :
    FavoursMiddle median dictionary weights := by
  have positive : 0 < highest := (markMedian_of_ne different).2.trans_le (greatest far present)
  have above : highest < 3 / 2 * highest := by linarith
  have atMedian : ∀ key ∈ dictionary.keys, dictionary.value key = median →
      weights.value key = 3 / 2 * highest := by
    intro key member same
    rw [values key member, same, markMedian_self, replaceMark, if_pos rfl]
  have offMedian : ∀ key ∈ dictionary.keys, dictionary.value key ≠ median →
      weights.value key = markMedian median (dictionary.value key) := by
    intro key member other
    rw [values key member, replaceMark_of_pos _ (markMedian_of_ne other).2]
  constructor
  · intro key member
    by_cases same : dictionary.value key = median
    · rw [atMedian key member same]
      exact positive.trans above
    · rw [offMedian key member same]
      exact (markMedian_of_ne same).2
  · intro a memberA b memberB closer
    have offB : dictionary.value b ≠ median := by
      intro same
      rw [same, sub_self, abs_zero] at closer
      exact absurd closer (not_lt.mpr (abs_nonneg _))
    rw [offMedian b memberB offB]
    by_cases sameA : dictionary.value a = median
    · rw [atMedian a memberA sameA]
      exact (greatest b memberB).trans_lt above
    · rw [offMedian a memberA sameA, (markMedian_of_ne sameA).1, (markMedian_of_ne offB).1]
      exact one_div_lt_one_div_of_lt (abs_pos.mpr (sub_ne_zero.mpr (Ne.symm sameA))) closer

/-- When all probabilities are equal, the greatest weight is the mark itself. -/
theorem not_favoursMiddle_of_equal [IsStrictOrderedRing R]
    {dictionary weights : DefaultDict Trigram R} {median highest : R} {top : Trigram}
    (equal : ∀ key ∈ dictionary.keys, dictionary.value key = median)
    (present : top ∈ dictionary.keys)
    (atTop : markMedian median (dictionary.value top) = highest)
    (values : ∀ key ∈ dictionary.keys, weights.value key =
      replaceMark (3 / 2 * highest) (markMedian median (dictionary.value key))) :
    ¬ FavoursMiddle median dictionary weights := by
  intro favours
  have marked : highest = -1 := by rw [← atTop, equal top present, markMedian_self]
  have negative := favours.positive top present
  rw [values top present, equal top present, markMedian_self, replaceMark, if_pos rfl,
    marked] at negative
  linarith

variable [DecidableEq Trigram]

def reweight (dictionary : DefaultDict Trigram R) : Option (DefaultDict Trigram R) := do
  let median ← median_prob dictionary
  let marked := dictionary.mapValues (markMedian median)
  let highest ← next_highest marked
  some (marked.mapValues (replaceMark (3 / 2 * highest)))

/-- The weights after the traversals, and the greatest value between the two. -/
theorem reweight_eq {dictionary : DefaultDict Trigram R} {median : R}
    (isMedian : median_prob dictionary = some median) (filled : dictionary.keys ≠ []) :
    ∃ highest weights, reweight dictionary = some weights ∧
      (∃ key ∈ dictionary.keys, markMedian median (dictionary.value key) = highest) ∧
      (∀ key ∈ dictionary.keys, markMedian median (dictionary.value key) ≤ highest) ∧
      ∀ key ∈ dictionary.keys, weights.value key =
        replaceMark (3 / 2 * highest) (markMedian median (dictionary.value key)) := by
  have marks : ∀ key ∈ dictionary.keys, (dictionary.mapValues (markMedian median)).value key =
      markMedian median (dictionary.value key) :=
    fun key present => DefaultDict.value_mapValues_of_mem (markMedian median) present
  rcases next_highest_greatest (dictionary.mapValues (markMedian median)) filled with
    ⟨highest, isHighest, ⟨top, topPresent, atTop⟩, greatest⟩
  refine ⟨highest, (dictionary.mapValues (markMedian median)).mapValues
    (replaceMark (3 / 2 * highest)), ?_, ⟨top, topPresent, ?_⟩, ?_, ?_⟩
  · rw [reweight, isMedian, Option.bind_eq_bind, Option.bind_some]
    dsimp only
    rw [isHighest]
    rfl
  · rw [← marks top topPresent, atTop]
  · intro key present
    rw [← marks key present]
    exact greatest key present
  · intro key present
    rw [← marks key present]
    exact DefaultDict.value_mapValues_of_mem (replaceMark (3 / 2 * highest)) present

/-- Every non-empty table is reweighted, and the middle is favoured exactly when two of the
probabilities differ. -/
theorem reweight_favoursMiddle_iff [IsStrictOrderedRing R]
    (dictionary : DefaultDict Trigram R) (filled : dictionary.keys ≠ []) :
    ∃ median weights, median_prob dictionary = some median ∧ reweight dictionary = some weights ∧
      (FavoursMiddle median dictionary weights ↔
        ∃ a ∈ dictionary.keys, ∃ b ∈ dictionary.keys, dictionary.value a ≠ dictionary.value b) := by
  rcases median_prob_mem dictionary filled with ⟨middle, middlePresent, isMedian⟩
  rcases reweight_eq isMedian filled with ⟨highest, weights, ran, ⟨top, topPresent, atTop⟩,
    greatest, values⟩
  refine ⟨_, weights, isMedian, ran, ?_⟩
  constructor
  · intro favours
    by_contra equal
    push Not at equal
    exact not_favoursMiddle_of_equal
      (fun key present => equal key present middle middlePresent) topPresent atTop values favours
  · rintro ⟨a, memberA, b, memberB, different⟩
    by_cases sameA : dictionary.value a = dictionary.value middle
    · have offB : dictionary.value b ≠ dictionary.value middle :=
        fun sameB => different (sameA.trans sameB.symm)
      exact favoursMiddle_of_ne memberB offB greatest values
    · exact favoursMiddle_of_ne memberA sameA greatest values

end Reweighting

def equalProbabilities : DefaultDict (List Char) ℚ :=
  DefaultDict.empty.set ['a'] (1 / 2)

def differentProbabilities : DefaultDict (List Char) ℚ :=
  (DefaultDict.empty.set ['a'] (1 / 2)).set ['b'] (1 / 4)

theorem reweight_favoursMiddle_iff_different :
    ∃ median weights, median_prob differentProbabilities = some median ∧
      reweight differentProbabilities = some weights ∧
      FavoursMiddle median differentProbabilities weights := by
  rcases reweight_favoursMiddle_iff differentProbabilities (by decide) with
    ⟨median, weights, isMedian, ran, favours⟩
  exact ⟨median, weights, isMedian, ran, favours.mpr ⟨['a'], by decide, ['b'], by decide, by
    decide +kernel⟩⟩

/-- The only probability is the median, and its weight becomes negative. -/
theorem equalProbabilities_negative :
    ∃ median weights, median_prob equalProbabilities = some median ∧
      reweight equalProbabilities = some weights ∧
      ¬ FavoursMiddle median equalProbabilities weights := by
  have isMedian : median_prob equalProbabilities = some (1 / 2) := by decide +kernel
  have equal : ∀ key ∈ equalProbabilities.keys, equalProbabilities.value key = 1 / 2 := by
    decide +kernel
  rcases reweight_eq isMedian (by decide) with ⟨_, weights, ran, ⟨_, present, atTop⟩, _, values⟩
  exact ⟨1 / 2, weights, isMedian, ran, not_favoursMiddle_of_equal equal present atTop values⟩

end Mining
