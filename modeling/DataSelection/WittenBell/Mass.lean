/-
The mass that the estimates leave for the back-off.

The discounted counts leave mass behind every history.  The words behind a history
leave mass to the shorter one because the start symbol is none of them.
-/

import DataSelection.WittenBell.Histories
import DataSelection.WittenBell.Weights

namespace WittenBell

open Library Dictionary

def vocabulary (dictionary : Dictionary) : Finset Word := dictionary.unigrams.keys.toFinset

theorem mem_vocabulary {dictionary : Dictionary} {word : Word} :
    word ∈ vocabulary dictionary ↔ dictionary.Seen [word] := List.mem_toFinset

theorem vocabulary_congr {before after : Dictionary}
    (seen : ∀ entry, after.Seen entry ↔ before.Seen entry) :
    vocabulary after = vocabulary before := by
  ext word
  rw [mem_vocabulary, mem_vocabulary, seen]

/-! ### The counts -/

namespace Populated

variable {lines : List (List Char)} {dictionary : Dictionary} {uniCount : Nat}
  (populated : Populated lines dictionary uniCount)

include populated

theorem clean : Clean dictionary := by
  intro entry isSeen
  exact cleanWord_of_total_pos ((populated.seen entry).mp isSeen).2

theorem seen_of_isInfix {entry part : List Word} (isEntry : IsEntry part)
    (isPart : part <:+: entry) (isSeen : dictionary.Seen entry) : dictionary.Seen part :=
  (populated.seen part).mpr
    ⟨isEntry, total_pos_of_isInfix isPart ((populated.seen entry).mp isSeen).2⟩

theorem closedUnderHistory : ClosedUnderHistory dictionary := by
  intro history word isHistory isSeen
  exact populated.seen_of_isInfix ⟨isHistory.1, isHistory.2.trans (Nat.le_succ 2)⟩
    (List.prefix_append history [word]).isInfix isSeen

theorem closedUnderTail : ClosedUnderTail dictionary := by
  intro history word isHistory isSeen
  apply populated.seen_of_isInfix _ _ isSeen
  · have bounds := isHistory
    unfold IsHistory at bounds
    unfold IsEntry
    rw [List.length_append, List.length_tail, List.length_singleton]
    omega
  · exact ((List.suffix_append_inj_of_length_eq rfl).mpr ⟨List.tail_suffix history, rfl⟩).isInfix

theorem seen_concat_iff {history : List Word} (isHistory : IsHistory history) (word : Word) :
    dictionary.Seen (history ++ [word]) ↔ 0 < total lines (history ++ [word]) := by
  rw [populated.seen, and_iff_right]
  have bounds := isHistory
  unfold IsHistory at bounds
  unfold IsEntry
  rw [List.length_append, List.length_singleton]
  omega

theorem count_pos {entry : List Word} (isSeen : dictionary.Seen entry) :
    0 < (dictionary.gram entry).count := by
  rw [populated.count entry isSeen.isEntry]
  exact ((populated.seen entry).mp isSeen).2

theorem sum_count : ∑ word ∈ vocabulary dictionary, (dictionary.gram [word]).count = uniCount := by
  have counted : ∀ word, (dictionary.gram [word]).count = total lines [word] :=
    fun word => populated.count [word] ⟨Nat.one_pos, Nat.le_add_left 1 2⟩
  simp only [counted]
  rw [populated.uniCount]
  exact List.sum_toFinset _ dictionary.unigrams.nodup

theorem seen_startSymbol (nonempty : lines ≠ []) : dictionary.Seen [startSymbol] :=
  (populated.seen [startSymbol]).mpr
    ⟨⟨Nat.one_pos, Nat.le_add_left 1 2⟩, total_startSymbol_pos nonempty⟩

theorem uniCount_pos (nonempty : lines ≠ []) : 0 < uniCount := by
  have isSeen := populated.seen_startSymbol nonempty
  rw [← populated.sum_count]
  exact Finset.sum_pos' (fun _ _ => Nat.zero_le _)
    ⟨startSymbol, mem_vocabulary.mpr isSeen, populated.count_pos isSeen⟩

variable (unmarked : Unmarked lines) {history : List Word} (isHistory : IsHistory history)

include unmarked isHistory

theorem exhausts (followed : (successors dictionary history).Nonempty) :
    ∑ word ∈ successors dictionary history, (dictionary.gram (history ++ [word])).count =
      (dictionary.gram history).count := by
  have isNext : ∀ word, word ∈ successors dictionary history ↔
      0 < total lines (history ++ [word]) := by
    intro word
    rw [mem_successors isHistory, populated.seen_concat_iff isHistory]
  have counted : ∀ word ∈ successors dictionary history,
      (dictionary.gram (history ++ [word])).count = total lines (history ++ [word]) := by
    intro word member
    exact populated.count _ ((mem_successors isHistory).mp member).isEntry
  rcases followed with ⟨next, member⟩
  rw [Finset.sum_congr rfl counted,
    populated.count history ⟨isHistory.1, isHistory.2.trans (Nat.le_succ 2)⟩]
  exact (total_eq_sum unmarked (List.ne_nil_of_length_pos isHistory.1)
    ⟨next, (isNext next).mp member⟩ (fun word => (isNext word).mpr)).symm

theorem startSymbol_notMem_successors : startSymbol ∉ successors dictionary history := by
  intro member
  rw [mem_successors isHistory, populated.seen_concat_iff isHistory] at member
  exact ne_startSymbol_of_follows unmarked (List.ne_nil_of_length_pos isHistory.1) member rfl

end Populated

/-! ### The estimates -/

/-- A dictionary whose stored probabilities are distributions that leave some mass. -/
structure Normalised (dictionary : Dictionary) : Prop where
  probability : ∀ entry, dictionary.Seen entry →
    0 < (dictionary.gram entry).probability ∧ (dictionary.gram entry).probability ≤ 1
  unigrams : ∑ word ∈ vocabulary dictionary, (dictionary.gram [word]).probability = 1
  left : ∀ history, IsHistory history →
    0 < 1 - ∑ word ∈ successors dictionary history,
      (dictionary.gram (history ++ [word])).probability
  baseLeft : ∀ history, IsHistory history → 0 < baseLeft dictionary history
  closed : ClosedUnderTail dictionary

section

variable {lines : List (List Char)} {dictionary estimated : Dictionary} {uniCount : Nat}
  (populated : Populated lines dictionary uniCount) (nonempty : lines ≠ [])
  (unmarked : Unmarked lines) (estimates : Estimated uniCount dictionary estimated)

include populated

section

include nonempty

theorem estimate_word_bounds {word : Word} (isSeen : dictionary.Seen [word]) :
    0 < estimate dictionary uniCount [word] ∧ estimate dictionary uniCount [word] ≤ 1 := by
  have positive := populated.count_pos isSeen
  have most : (dictionary.gram [word]).count ≤ uniCount := by
    rw [← populated.sum_count]
    exact Finset.single_le_sum (f := fun word => (dictionary.gram [word]).count)
      (fun _ _ => Nat.zero_le _) (mem_vocabulary.mpr isSeen)
  have all : (0 : ℚ) < uniCount := Nat.cast_pos.mpr (populated.uniCount_pos nonempty)
  rw [estimate_singleton]
  exact ⟨div_pos (Nat.cast_pos.mpr positive) all, (div_le_one all).mpr (Nat.cast_le.mpr most)⟩

theorem sum_estimate_words :
    ∑ word ∈ vocabulary dictionary, estimate dictionary uniCount [word] = 1 := by
  have all : (uniCount : ℚ) ≠ 0 :=
    Nat.cast_ne_zero.mpr (populated.uniCount_pos nonempty).ne'
  simp only [estimate_singleton]
  rw [← Finset.sum_div, ← Nat.cast_sum, populated.sum_count, div_self all]

end

section

include unmarked

theorem estimate_concat_bounds {history : List Word} {word : Word} (isHistory : IsHistory history)
    (isSeen : dictionary.Seen (history ++ [word])) :
    0 < estimate dictionary uniCount (history ++ [word]) ∧
      estimate dictionary uniCount (history ++ [word]) ≤ 1 := by
  have member := (mem_successors isHistory).mpr isSeen
  have most : (dictionary.gram (history ++ [word])).count ≤ (dictionary.gram history).count := by
    rw [← populated.exhausts unmarked isHistory ⟨word, member⟩]
    exact Finset.single_le_sum (f := fun word => (dictionary.gram (history ++ [word])).count)
      (fun _ _ => Nat.zero_le _) member
  rw [estimate_concat _ _ isHistory]
  exact ⟨discounted_pos member (populated.count_pos isSeen), discounted_le_one member most⟩

theorem left_estimate_pos {history : List Word} (isHistory : IsHistory history) :
    0 < 1 - ∑ word ∈ successors dictionary history,
      estimate dictionary uniCount (history ++ [word]) := by
  simp only [estimate_concat _ _ isHistory]
  exact left_discounted_pos (populated.exhausts unmarked isHistory)

end

section

include nonempty unmarked

theorem estimate_bounds {entry : List Word} (isSeen : dictionary.Seen entry) :
    0 < estimate dictionary uniCount entry ∧ estimate dictionary uniCount entry ≤ 1 := by
  rcases List.eq_nil_or_concat' entry with rfl | ⟨history, word, rfl⟩
  · cases isSeen
  · by_cases empty : history = []
    · subst empty
      exact estimate_word_bounds populated nonempty isSeen
    · have bounds := isSeen.isEntry.2
      rw [List.length_append, List.length_singleton] at bounds
      have isHistory : IsHistory history := ⟨List.length_pos_of_ne_nil empty, by omega⟩
      exact estimate_concat_bounds populated unmarked isHistory isSeen

/-- Of the mass of all words the start symbol is left. -/
theorem baseLeft_word_pos (w1 : Word) :
    0 < 1 - ∑ word ∈ successors dictionary [w1], estimate dictionary uniCount [word] := by
  have inside : successors dictionary [w1] ⊆ vocabulary dictionary := by
    intro word member
    exact mem_vocabulary.mpr (populated.closedUnderTail [w1] word (isHistory_one w1)
      ((mem_successors (isHistory_one w1)).mp member))
  have start := populated.seen_startSymbol nonempty
  rw [← sum_estimate_words populated nonempty, sub_pos]
  apply Finset.sum_lt_sum_of_subset inside (mem_vocabulary.mpr start)
  · exact populated.startSymbol_notMem_successors unmarked (isHistory_one w1)
  · exact (estimate_word_bounds populated nonempty start).1
  · intro word member _notNext
    exact (estimate_word_bounds populated nonempty (mem_vocabulary.mp member)).1.le

theorem baseLeft_pair_pos (w1 w2 : Word) :
    0 < 1 - ∑ word ∈ successors dictionary [w1, w2], estimate dictionary uniCount [w2, word] := by
  have inside : successors dictionary [w1, w2] ⊆ successors dictionary [w2] := by
    intro word member
    exact (mem_successors (isHistory_one w2)).mpr
      (populated.closedUnderTail [w1, w2] word (isHistory_two w1 w2)
        ((mem_successors (isHistory_two w1 w2)).mp member))
  have fewer : ∑ word ∈ successors dictionary [w1, w2], estimate dictionary uniCount [w2, word] ≤
      ∑ word ∈ successors dictionary [w2], estimate dictionary uniCount [w2, word] := by
    apply Finset.sum_le_sum_of_subset_of_nonneg inside
    intro word member _notNext
    have isSeen := (mem_successors (isHistory_one w2)).mp member
    exact (estimate_bounds populated nonempty unmarked isSeen).1.le
  have rest := left_estimate_pos populated unmarked (isHistory_one w2)
  exact rest.trans_le (sub_le_sub_left fewer 1)

include estimates

theorem Estimated.normalised : Normalised estimated := by
  have same : ∀ {history : List Word}, IsHistory history →
      successors estimated history = successors dictionary history :=
    fun isHistory => successors_congr estimates.seen isHistory
  have follows : ∀ {history : List Word}, IsHistory history →
      ∀ word ∈ successors dictionary history, dictionary.Seen (history ++ [word]) :=
    fun isHistory word member => (mem_successors isHistory).mp member
  constructor
  · intro entry isSeen
    have earlier := (estimates.seen entry).mp isSeen
    rw [estimates.probability entry earlier]
    exact estimate_bounds populated nonempty unmarked earlier
  · have stored : ∀ word ∈ vocabulary dictionary,
        (estimated.gram [word]).probability = estimate dictionary uniCount [word] :=
      fun word member => estimates.probability [word] (mem_vocabulary.mp member)
    rw [vocabulary_congr estimates.seen, Finset.sum_congr rfl stored]
    exact sum_estimate_words populated nonempty
  · intro history isHistory
    have stored : ∀ word ∈ successors dictionary history,
        (estimated.gram (history ++ [word])).probability =
          estimate dictionary uniCount (history ++ [word]) :=
      fun word member => estimates.probability _ (follows isHistory word member)
    rw [same isHistory, Finset.sum_congr rfl stored]
    exact left_estimate_pos populated unmarked isHistory
  · intro history isHistory
    have stored : ∀ word ∈ successors dictionary history,
        (estimated.gram (history.tail ++ [word])).probability =
          estimate dictionary uniCount (history.tail ++ [word]) :=
      fun word member => estimates.probability _
        (populated.closedUnderTail history word isHistory (follows isHistory word member))
    unfold baseLeft
    rw [same isHistory, Finset.sum_congr rfl stored]
    cases one_or_two isHistory with
    | inl isOne =>
        rcases isOne with ⟨w1, rfl⟩
        exact baseLeft_word_pos populated nonempty unmarked w1
    | inr isTwo =>
        rcases isTwo with ⟨w1, w2, rfl⟩
        exact baseLeft_pair_pos populated nonempty unmarked w1 w2
  · intro history word isHistory isSeen
    exact (estimates.seen _).mpr
      (populated.closedUnderTail history word isHistory ((estimates.seen _).mp isSeen))

end

end

/-! ### The smoothed dictionary -/

/-- What `smooth` returns: the estimates, and the lists of the n-grams that were counted. -/
theorem smooth_estimated (corpus : Corpus) (nonempty : corpus.lines ≠ []) :
    ∃ dictionary uniCount estimated,
      populateDictionary corpus.lines = some (dictionary, uniCount) ∧
      smooth corpus = some { dictionary := estimated
                             unigrams := getGrams 1 dictionary
                             bigrams := getGrams 2 dictionary
                             trigrams := getGrams 3 dictionary } ∧
      Populated corpus.lines dictionary uniCount ∧ Estimated uniCount dictionary estimated := by
  rcases populateDictionary_populated nonempty with ⟨dictionary, uniCount, counted, populated⟩
  rcases estimateProbs_estimated populated.clean populated.closedUnderHistory
    (populated.uniCount_pos nonempty).ne' with ⟨estimated, ran, estimates⟩
  refine ⟨dictionary, uniCount, estimated, counted, ?_, populated, estimates⟩
  unfold smooth
  rw [counted, Option.bind_eq_bind, Option.bind_some]
  dsimp only
  rw [ran]
  rfl

/-- Where no line holds a sentence symbol, the back-off weights exist. -/
theorem smooth_estimateBOs_weighted (corpus : Corpus) (nonempty : corpus.lines ≠ [])
    (unmarked : Unmarked corpus.lines) :
    ∃ smoothed model, smooth corpus = some smoothed ∧
      estimateBOs smoothed.unigrams smoothed.bigrams smoothed.dictionary = some model ∧
      (∀ entry, model.Seen entry ↔ IsEntry entry ∧ 0 < total corpus.lines entry) ∧
      Normalised smoothed.dictionary ∧ Weighted smoothed.dictionary model := by
  rcases smooth_estimated corpus nonempty with
    ⟨dictionary, uniCount, estimated, _, smoothing, populated, estimates⟩
  have normalised := estimates.normalised populated nonempty unmarked
  rcases estimateBOs_weighted populated.clean estimates.seen normalised.closed
    (fun history isHistory _seen => (normalised.baseLeft history isHistory).ne') with
    ⟨model, weighed, weighted⟩
  refine ⟨_, model, smoothing, weighed, ?_, normalised, weighted⟩
  intro entry
  rw [weighted.seen, estimates.seen, populated.seen]

end WittenBell
