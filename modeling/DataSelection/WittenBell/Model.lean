/-
The smoothed dictionary is a probability model.

Every back-off weight spreads the mass left behind a history over the words that were
not seen there, so the distribution of every history sums to one if that of the shorter
history does.
-/

import DataSelection.WittenBell.Mass

namespace WittenBell

open Library Dictionary

/-- The stored probability of a seen n-gram, and otherwise that of the shorter history
times the back-off weight. -/
def backOffProbability (dictionary : Dictionary) : List Word → Word → ℚ
  | [], word => (dictionary.gram [word]).probability
  | first :: rest, word =>
      if dictionary.Seen (first :: rest ++ [word]) then
        (dictionary.gram (first :: rest ++ [word])).probability
      else (dictionary.gram (first :: rest)).backoff * backOffProbability dictionary rest word

/-- Every stored n-gram has a probability, every history a back-off weight, and the
distributions over the vocabulary sum to one. -/
structure ProbabilityModel (model : Dictionary) : Prop where
  probability : ∀ entry, model.Seen entry →
    0 < (model.gram entry).probability ∧ (model.gram entry).probability ≤ 1
  backoff : ∀ history, IsHistory history → model.Seen history → 0 < (model.gram history).backoff
  unigrams : ∑ word ∈ vocabulary model, (model.gram [word]).probability = 1
  histories : ∀ history, IsHistory history → model.Seen history →
    ∑ word ∈ vocabulary model, backOffProbability model history word = 1

theorem backOffProbability_seen {dictionary : Dictionary} {history : List Word} {word : Word}
    (seen : dictionary.Seen (history ++ [word])) :
    backOffProbability dictionary history word =
      (dictionary.gram (history ++ [word])).probability := by
  cases history with
  | nil => rfl
  | cons first rest =>
      rw [backOffProbability, if_pos seen]

/-- The script looks up a pair of known words by their back-off probability. -/
theorem getProb_backOffProbability {dictionary : Dictionary} (clean : Clean dictionary)
    {w1 w2 : Word} (first : dictionary.Seen [w1]) (second : dictionary.Seen [w2]) :
    ∃ after, getProb [w1, w2] dictionary = some (backOffProbability dictionary [w1] w2, after) ∧
      Same dictionary after := by
  by_cases seen : dictionary.Seen [w1, w2]
  · have stored : backOffProbability dictionary [w1] w2 =
        (dictionary.gram [w1, w2]).probability := backOffProbability_seen seen
    rw [stored]
    exact getProb_seen seen
  · have spread : backOffProbability dictionary [w1] w2 =
        (dictionary.gram [w1]).backoff * (dictionary.gram [w2]).probability := if_neg seen
    rw [spread]
    exact getProb_unseen (clean [w1] first w1 List.mem_cons_self)
      (clean [w2] second w2 List.mem_cons_self) seen first second

section

variable {before model : Dictionary} (normalised : Normalised before)
  (weighted : Weighted before model)

include normalised

theorem successors_subset_vocabulary {history : List Word} (isHistory : IsHistory history) :
    successors before history ⊆ vocabulary before := by
  intro word member
  have isSeen := (mem_successors isHistory).mp member
  have shorter := normalised.closed history word isHistory isSeen
  rw [mem_vocabulary]
  cases one_or_two isHistory with
  | inl isOne =>
      rcases isOne with ⟨w1, rfl⟩
      exact shorter
  | inr isTwo =>
      rcases isTwo with ⟨w1, w2, rfl⟩
      exact normalised.closed [w2] word (isHistory_one w2) shorter

theorem weight_pos {history : List Word} (isHistory : IsHistory history) :
    0 < weight before history :=
  div_pos (normalised.left history isHistory) (normalised.baseLeft history isHistory)

include weighted

theorem sum_backOffProbability_cons {first : Word} {rest : List Word}
    (isHistory : IsHistory (first :: rest)) (isSeen : before.Seen (first :: rest))
    (shorter : ∑ word ∈ vocabulary before, backOffProbability model rest word = 1) :
    ∑ word ∈ vocabulary before, backOffProbability model (first :: rest) word = 1 := by
  have agrees : ∀ word ∈ successors before (first :: rest),
      (before.gram (rest ++ [word])).probability = backOffProbability model rest word := by
    intro word member
    have isNext : before.Seen (rest ++ [word]) :=
      normalised.closed (first :: rest) word isHistory ((mem_successors isHistory).mp member)
    rw [backOffProbability_seen ((weighted.seen _).mpr isNext), weighted.probability]
  have base : ∑ word ∈ successors before (first :: rest),
      (before.gram (rest ++ [word])).probability =
      ∑ word ∈ successors before (first :: rest), backOffProbability model rest word :=
    Finset.sum_congr rfl agrees
  have isWeight : (model.gram (first :: rest)).backoff =
      backOffWeight (successors before (first :: rest))
        (fun word => (before.gram (first :: rest ++ [word])).probability)
        (backOffProbability model rest) := by
    rw [weighted.backoff _ isHistory isSeen, weight, backOffWeight, backOffWeight,
      List.tail_cons, base]
  have spread : ∀ word, backOffProbability model (first :: rest) word =
      backOff (successors before (first :: rest))
        (fun word => (before.gram (first :: rest ++ [word])).probability)
        (backOffProbability model rest) (model.gram (first :: rest)).backoff word := by
    intro word
    rw [backOffProbability, backOff, weighted.probability]
    simp only [mem_successors isHistory, weighted.seen]
  have left : 1 - ∑ word ∈ successors before (first :: rest),
      backOffProbability model rest word ≠ 0 := by
    rw [← base]
    exact (normalised.baseLeft (first :: rest) isHistory).ne'
  simp only [spread]
  rw [isWeight]
  exact sum_backOff (successors_subset_vocabulary normalised isHistory) shorter left

theorem Weighted.probabilityModel : ProbabilityModel model := by
  have words := vocabulary_congr weighted.seen
  have unigrams : ∑ word ∈ vocabulary before, backOffProbability model [] word = 1 := by
    have stored : ∀ word, backOffProbability model [] word = (before.gram [word]).probability :=
      fun word => weighted.probability [word]
    simp only [stored]
    exact normalised.unigrams
  have pairs : ∀ w1, before.Seen [w1] →
      ∑ word ∈ vocabulary before, backOffProbability model [w1] word = 1 :=
    fun w1 isSeen =>
      sum_backOffProbability_cons normalised weighted (isHistory_one w1) isSeen unigrams
  constructor
  · intro entry isSeen
    rw [weighted.probability]
    exact normalised.probability entry ((weighted.seen entry).mp isSeen)
  · intro history isHistory isSeen
    rw [weighted.backoff history isHistory ((weighted.seen history).mp isSeen)]
    exact weight_pos normalised isHistory
  · rw [words]
    exact unigrams
  · intro history isHistory isSeen
    rw [words]
    have earlier := (weighted.seen history).mp isSeen
    cases one_or_two isHistory with
    | inl isOne =>
        rcases isOne with ⟨w1, rfl⟩
        exact pairs w1 earlier
    | inr isTwo =>
        rcases isTwo with ⟨w1, w2, rfl⟩
        have second : before.Seen [w2] :=
          normalised.closed [w1] w2 (isHistory_one w1) earlier
        exact sum_backOffProbability_cons normalised weighted isHistory earlier (pairs w2 second)

end

/-! ### The script -/

theorem smooth_estimateBOs_probabilityModel (corpus : Corpus) (nonempty : corpus.lines ≠ [])
    (unmarked : Unmarked corpus.lines) :
    ∃ smoothed model, smooth corpus = some smoothed ∧
      estimateBOs smoothed.unigrams smoothed.bigrams smoothed.dictionary = some model ∧
      (∀ entry, model.Seen entry ↔ IsEntry entry ∧ 0 < total corpus.lines entry) ∧
      ProbabilityModel model := by
  rcases smooth_estimateBOs_weighted corpus nonempty unmarked with
    ⟨smoothed, model, smoothing, weighing, seen, normalised, weighted⟩
  exact ⟨smoothed, model, smoothing, weighing, seen, weighted.probabilityModel normalised⟩

theorem smooth_estimateBOs_probabilityModel_twoWords :
    ∃ smoothed model, smooth (.str ['a', ' ', 'b']) = some smoothed ∧
      estimateBOs smoothed.unigrams smoothed.bigrams smoothed.dictionary = some model ∧
      (∀ entry, model.Seen entry ↔
        IsEntry entry ∧ 0 < total (Corpus.str ['a', ' ', 'b']).lines entry) ∧
      ProbabilityModel model :=
  smooth_estimateBOs_probabilityModel (.str ['a', ' ', 'b']) (by decide)
    (by unfold Unmarked; decide)

end WittenBell
