/-
The backoffs of a sorted model.

The backoff of an n-gram is looked up from the backoff of its history.  Whatever is found is the
n-gram without its first word; and all are found where the levels below are in order and no
n-gram is counted without its end.
-/

import DataSelection.Mitlm.Ordering

namespace Mitlm

open Library

/-! ### Lookups -/

theorem findAll_spec {vector : NgramVector} {ngrams : List Ngram} {indices : List Nat}
    (ran : findAll vector ngrams = some indices) :
    List.Forall₂ (fun ngram (index : Nat) => vector.entries[index]? = some ngram) ngrams indices := by
  induction ngrams generalizing indices with
  | nil =>
      cases ran
      exact List.Forall₂.nil
  | cons ngram ngrams ih =>
      rw [findAll] at ran
      split at ran
      · next index found =>
          obtain ⟨later, ranLater, rfl⟩ := Option.map_eq_some_iff.mp ran
          exact List.Forall₂.cons (ProbeTable.getElem?_of_find found) (ih ranLater)
      · cases ran

theorem exists_findAll {vector : NgramVector} (valid : vector.Valid ngramHash) {ngrams : List Ngram}
    (listed : ∀ ngram ∈ ngrams, ngram ∈ vector.entries) :
    ∃ indices, findAll vector ngrams = some indices := by
  induction ngrams with
  | nil => exact ⟨[], rfl⟩
  | cons ngram ngrams ih =>
      obtain ⟨later, ran⟩ := ih (fun other member => listed other (List.mem_cons_of_mem ngram member))
      obtain ⟨index, found⟩ := valid.exists_find (listed ngram List.mem_cons_self)
      refine ⟨index :: later, ?_⟩
      rw [findAll, found]
      simp only [ran, Option.map_some]

/-! ### Levels -/

/-- The backoffs of n-grams, among those of the order below. -/
def Tails (below grams : List (List Word)) (backoffs : List Nat) : Prop :=
  ∀ (index : Nat) gram, grams[index]? = some gram →
    ∃ backoff, backoffs[index]? = some backoff ∧ below[backoff]? = some gram.tail

def LevelsBacked (words : List Word) : List (List Word) → List Level → List (List Nat) → Prop
  | _, [], [] => True
  | below, level :: levels, backoffs :: later =>
      Tails below (gramsOf words below level.vector) backoffs ∧
        LevelsBacked words (gramsOf words below level.vector) levels later
  | _, _, _ => False

section

variable {words : List Word} {tally : List Word → Nat} {lower : List (List Word)} {below level : Level}
  {loBackoffs : List Nat}

theorem lookup_tail (formed : level.Formed words (gramsOf words lower below.vector))
    (tails : Tails lower (gramsOf words lower below.vector) loBackoffs)
    {index hist word : Nat} (isEntry : level.vector.entries[index]? = some (hist, word)) :
    ∃ front last, (gramsOf words lower below.vector)[hist]? = some front ∧
      words[word]? = some last ∧ lower[loBackoffs.getD hist 0]? = some front.tail := by
  have member := List.mem_of_getElem? isEntry
  have isFront := List.getElem?_eq_getElem (formed.hist _ member)
  have isLast := List.getElem?_eq_getElem (formed.word _ member)
  obtain ⟨backoff, isBackoff, isTail⟩ := tails _ _ isFront
  refine ⟨_, _, isFront, isLast, ?_⟩
  rw [getD_of_getElem? isBackoff]
  exact isTail

theorem tails_of_findAll (formed : level.Formed words (gramsOf words lower below.vector))
    (tails : Tails lower (gramsOf words lower below.vector) loBackoffs)
    (filled : ∀ front ∈ gramsOf words lower below.vector, front ≠ []) {backoffs : List Nat}
    (ran : findAll below.vector
      (level.vector.entries.map (fun ngram => (loBackoffs.getD ngram.1 0, ngram.2))) =
        some backoffs) :
    Tails (gramsOf words lower below.vector)
      (gramsOf words (gramsOf words lower below.vector) level.vector) backoffs := by
  have found := findAll_spec ran
  intro index gram isGram
  obtain ⟨hist, word, front, last, isEntry, isFront, isLast, rfl⟩ := formed.exists_of_getElem? isGram
  have isPair : (level.vector.entries.map (fun ngram =>
      (loBackoffs.getD ngram.1 0, ngram.2)))[index]? = some (loBackoffs.getD hist 0, word) := by
    rw [List.getElem?_map, isEntry]
    rfl
  have inside := (List.getElem?_eq_some_iff.mp isPair).1
  have isBackoff := List.getElem?_eq_getElem (found.length_eq ▸ inside)
  refine ⟨_, isBackoff, ?_⟩
  have there := found.get inside (found.length_eq ▸ inside)
  rw [List.get_eq_getElem, List.get_eq_getElem, (List.getElem?_eq_some_iff.mp isPair).2] at there
  obtain ⟨otherFront, otherLast, isOther, isOtherLast, isTail⟩ := lookup_tail formed tails isEntry
  obtain rfl : front = otherFront := Option.some.inj (isFront.symm.trans isOther)
  obtain rfl : last = otherLast := Option.some.inj (isLast.symm.trans isOtherLast)
  rw [List.tail_append_of_ne_nil (filled front (List.mem_of_getElem? isFront))]
  exact getElem?_gramsOf there isTail isLast

theorem backed_of_higherBackoffs {levels : List Level} {order : Nat}
    (listed : LevelsListed words tally order (gramsOf words lower below.vector) levels)
    (tails : Tails lower (gramsOf words lower below.vector) loBackoffs)
    (filled : ∀ front ∈ gramsOf words lower below.vector, front ≠ [])
    {backoffs : List (List Nat)} (ran : higherBackoffs below loBackoffs levels = some backoffs) :
    LevelsBacked words (gramsOf words lower below.vector) levels backoffs := by
  induction levels generalizing lower below loBackoffs order backoffs with
  | nil =>
      cases ran
      trivial
  | cons level levels ih =>
      rw [higherBackoffs] at ran
      obtain ⟨first, isFirst, ranLater⟩ := Option.bind_eq_some_iff.mp ran
      obtain ⟨later, isLater, isAll⟩ := Option.bind_eq_some_iff.mp ranLater
      cases isAll
      have tailsFirst := tails_of_findAll listed.1.formed tails filled isFirst
      refine ⟨tailsFirst, ih listed.2 tailsFirst ?_ isLater⟩
      intro front member
      obtain ⟨ngram, _, rfl⟩ := List.mem_map.mp member
      exact List.append_ne_nil_of_right_ne_nil _ (List.cons_ne_nil _ _)

theorem exists_higherBackoffs
    (closed : ∀ gram : List Word, 0 < tally gram → 2 ≤ gram.length → 0 < tally gram.tail)
    {levels : List Level} {limit order : Nat} (atLeast : 2 ≤ order) (base : Base words (order - 1) lower)
    (listedBelow : below.Listed words lower (order - 1) tally)
    (validBelow : levels ≠ [] → below.vector.Valid ngramHash)
    (sorted : LevelsSorted words tally limit order (gramsOf words lower below.vector) levels)
    (within : levels.length ≤ limit + 1)
    (tails : Tails lower (gramsOf words lower below.vector) loBackoffs) :
    ∃ backoffs, higherBackoffs below loBackoffs levels = some backoffs := by
  induction levels generalizing lower below loBackoffs limit order with
  | nil => exact ⟨[], rfl⟩
  | cons level levels ih =>
      obtain ⟨listed, ordered, sortedLater⟩ := sorted
      have baseHere := listedBelow.formed.base base
      have filled : ∀ front ∈ gramsOf words lower below.vector, front ≠ [] := by
        intro front member
        obtain ⟨ngram, _, rfl⟩ := List.mem_map.mp member
        exact List.append_ne_nil_of_right_ne_nil _ (List.cons_ne_nil _ _)
      have present : ∀ ngram ∈ level.vector.entries.map
          (fun ngram => (loBackoffs.getD ngram.1 0, ngram.2)), ngram ∈ below.vector.entries := by
        intro ngram member
        obtain ⟨⟨hist, word⟩, isEntry, rfl⟩ := List.mem_map.mp member
        obtain ⟨index, isHere⟩ := List.mem_iff_getElem?.mp isEntry
        obtain ⟨front, last, isFront, isLast, isTail⟩ := lookup_tail listed.formed tails isHere
        have isGram := List.mem_of_getElem? (getElem?_gramsOf isHere isFront isLast)
        have isLong := baseHere.lengths front (List.mem_of_getElem? isFront)
        have isLength : (front ++ [last]).length = order := by
          rw [List.length_append, List.length_singleton]
          omega
        have counted : 0 < tally (front ++ [last]) := by
          rcases listed.seen _ isGram with counted | isEnd
          · exact counted
          · rw [isEnd, List.length_singleton] at isLength
            omega
        have tailCounted := closed _ counted (by omega)
        have isFilled := filled front (List.mem_of_getElem? isFront)
        have tailListed := listedBelow.listed _ (by rw [List.length_tail]; omega) tailCounted
        rw [List.tail_append_of_ne_nil isFilled] at tailListed
        exact (listedBelow.formed.mem_entries_iff base isTail isLast).mpr tailListed
      obtain ⟨first, isFirst⟩ :=
        exists_findAll (validBelow (List.cons_ne_nil _ _)) present
      have tailsFirst := tails_of_findAll listed.formed tails filled isFirst
      rw [List.length_cons] at within
      have isOrder : order - 1 + 1 = order := by omega
      rw [isOrder] at baseHere
      obtain ⟨later, isLater⟩ :=
        ih (by omega : 2 ≤ order + 1) baseHere listed
          (fun more => (ordered (by
            have := List.length_pos_of_ne_nil more
            omega)).valid) sortedLater (by omega) tailsFirst
      refine ⟨first :: later, ?_⟩
      rw [higherBackoffs, isFirst]
      simp only [isLater, Option.bind_eq_bind, Option.bind_some]

end

/-! ### A model -/

/-- The backoffs of bigrams are looked up like those of the higher orders. -/
theorem computeBackoffs_cons (first : Level) (levels : List Level) :
    computeBackoffs (first :: levels) =
      (higherBackoffs first (List.replicate first.vector.size 0) levels).map
        (fun later => List.replicate first.vector.size 0 :: later) := by
  cases levels with
  | nil => rfl
  | cons second levels =>
      have isZero : ∀ ngram : Ngram, (List.replicate first.vector.size 0).getD ngram.1 0 = 0 := by
        intro ngram
        rw [List.getD_eq_getElem?_getD, List.getElem?_replicate]
        split
        · rfl
        · rfl
      rw [computeBackoffs, higherBackoffs]
      simp only [isZero]
      cases findAll first.vector (second.vector.entries.map (fun ngram => (0, ngram.2))) with
      | none => rfl
      | some backoffs =>
          simp only [Option.bind_eq_bind, Option.bind_some]
          cases higherBackoffs second backoffs levels with
          | none => rfl
          | some later => rfl

section

variable {words : List Word} {tally : List Word → Nat} {level : Level} {levels : List Level}

theorem tails_unigrams (formed : level.Formed words [[]]) :
    Tails [[]] (gramsOf words [[]] level.vector) (List.replicate level.vector.size 0) := by
  intro index gram isGram
  obtain ⟨hist, word, front, last, isEntry, isFront, _, rfl⟩ := formed.exists_of_getElem? isGram
  have isNil : front = [] := List.mem_singleton.mp (List.mem_of_getElem? isFront)
  have inside : index < level.vector.size := (List.getElem?_eq_some_iff.mp isEntry).1
  refine ⟨0, ?_, ?_⟩
  · rw [List.getElem?_replicate, if_pos inside]
  · rw [isNil]
    rfl

theorem backed_of_computeBackoffs (listed : LevelsListed words tally 1 [[]] levels)
    {backoffs : List (List Nat)} (ran : computeBackoffs levels = some backoffs) :
    LevelsBacked words [[]] levels backoffs := by
  cases levels with
  | nil =>
      cases ran
      trivial
  | cons level levels =>
      rw [computeBackoffs_cons] at ran
      obtain ⟨later, ranLater, rfl⟩ := Option.map_eq_some_iff.mp ran
      have tails := tails_unigrams listed.1.formed
      refine ⟨tails, backed_of_higherBackoffs listed.2 tails ?_ ranLater⟩
      intro front member
      obtain ⟨ngram, _, rfl⟩ := List.mem_map.mp member
      exact List.append_ne_nil_of_right_ne_nil _ (List.cons_ne_nil _ _)

theorem exists_computeBackoffs (distinct : words.Nodup)
    (closed : ∀ gram : List Word, 0 < tally gram → 2 ≤ gram.length → 0 < tally gram.tail)
    {limit : Nat} (sorted : LevelsSorted words tally limit 1 [[]] levels)
    (within : levels.length ≤ limit + 1) :
    ∃ backoffs, computeBackoffs levels = some backoffs := by
  cases levels with
  | nil => exact ⟨[], rfl⟩
  | cons level levels =>
      obtain ⟨listed, ordered, sortedLater⟩ := sorted
      rw [List.length_cons] at within
      obtain ⟨later, ran⟩ := exists_higherBackoffs closed (Nat.le_refl 2) (base_nil distinct) listed
        (fun more => (ordered (by
          have := List.length_pos_of_ne_nil more
          omega)).valid) sortedLater (by omega) (tails_unigrams listed.formed)
      refine ⟨List.replicate level.vector.size 0 :: later, ?_⟩
      rw [computeBackoffs_cons, ran, Option.map_some]

end

/-- A model whose levels count what a tally has met. -/
structure Tallied (order : Nat) (tally : List Word → Nat) (model : NgramModel) : Prop where
  isOpen : model.vocab.Open
  levels : LevelsHold model.vocab.words.entries tally 1 [[]] model.levels
  orders : model.levels.length = order

/-- A sorted model, the first levels of it in order. -/
structure NgramModel.Sorted (limit order : Nat) (tally : List Word → Nat) (model : NgramModel) :
    Prop where
  isOpen : model.vocab.Open
  levels : LevelsSorted model.vocab.words.entries tally limit 1 [[]] model.levels
  orders : model.levels.length = order
  backed : LevelsBacked model.vocab.words.entries [[]] model.levels model.backoffs

/-- For each order up to a limit the tally has met an n-gram that begins no sentence. -/
def Mixed (limit : Nat) (tally : List Word → Nat) : Prop :=
  ∀ width, 0 < width → width ≤ limit →
    ∃ gram : List Word, gram.length = width ∧ 0 < tally gram ∧ ¬Starts gram

theorem sortLevels_of_empty {vocabMap boNgramMap : List Nat} {levels : List Level} {level : Level}
    (member : level ∈ levels) (empty : level.vector.entries = []) :
    sortLevels vocabMap boNgramMap levels = none := by
  induction levels generalizing boNgramMap with
  | nil => cases member
  | cons first levels ih =>
      rcases List.mem_cons.mp member with rfl | later
      · have isSize : level.vector.size = 0 := by rw [HashVector.size, empty, List.length_nil]
        have unsorted : NgramVector.sort vocabMap boNgramMap level.vector = none := by
          rw [NgramVector.sort, isSize]
          rfl
        rw [sortLevels, unsorted]
        rfl
      · cases ran : NgramVector.sort vocabMap boNgramMap first.vector with
        | none =>
            rw [sortLevels, ran]
            rfl
        | some result =>
            simp only [sortLevels, ran, ih later, Option.bind_eq_bind, Option.bind_some,
              Option.bind_none]

/-- The sort of a vocabulary without a word of its own reads past the end. -/
theorem sort_of_few {vocab : Vocab} (isOpen : vocab.Open) (few : vocab.words.size < 2) :
    vocab.sort = none := by
  have isEmpty : (List.range vocab.words.size).drop 1 = [] := by
    rw [List.drop_eq_nil_iff, List.length_range]
    omega
  rw [Vocab.sort, isOpen.known]
  simp only [Option.isNone_none, if_true, isEmpty]
  rfl

theorem moves_empty_gram : Moves ([[]] : List (List Word)) [[]] [0] := by
  constructor
  · exact List.Perm.refl _
  · intro index inside
    have isZero : index = 0 := Nat.lt_one_iff.mp inside
    rw [isZero]
    rfl

section

variable {order : Nat} {tally : List Word → Nat} {model : NgramModel}
  (tallied : Tallied order tally model)

include tallied

theorem Tallied.sort_levels (several : 2 ≤ model.vocab.words.size)
    (nonempty : ∀ level ∈ model.levels, level.vector.entries ≠ []) {limit : Nat}
    (mixed : Mixed limit tally) :
    ∃ vocab levels, vocab.Open ∧
      LevelsSorted vocab.words.entries tally limit 1 [[]] levels ∧ levels.length = order ∧
      model.sort = (computeBackoffs levels).map (fun backoffs =>
        { vocab := vocab, levels := levels, backoffs := backoffs }) := by
  have distinct : model.vocab.words.entries.Nodup := tallied.isOpen.valid.holds.distinct
  obtain ⟨_, vocab, vocabMap, isSorted, isOpen, perm, moved⟩ := tallied.isOpen.sort_eq several
  have wordsMove : Moves model.vocab.words.entries vocab.words.entries vocabMap := ⟨perm, moved⟩
  have mixedHere : ∀ width, 1 ≤ width → width < 1 + limit →
      ∃ gram : List Word, gram.length = width ∧ 0 < tally gram ∧ ¬Starts gram :=
    fun width atLeast below => mixed width atLeast (by omega)
  obtain ⟨levels, areSorted, sorted, sameLength⟩ :=
    tallied.levels.sortLevels_eq (base_nil distinct) nonempty wordsMove moves_empty_gram
      isOpen.first (fun _ => Or.inl rfl) mixedHere
  refine ⟨vocab, levels, isOpen, sorted, sameLength.trans tallied.orders, ?_⟩
  simp only [NgramModel.sort, isSorted, areSorted, Option.bind_eq_bind, Option.bind_some]
  cases computeBackoffs levels with
  | none => rfl
  | some backoffs => rfl

/-- A model with n-grams from within sentences, up to the last order but one, is sorted. -/
theorem Tallied.sort_eq (several : 2 ≤ model.vocab.words.size)
    (nonempty : ∀ level ∈ model.levels, level.vector.entries ≠ []) {limit : Nat}
    (within : order ≤ limit + 1) (mixed : Mixed limit tally)
    (closed : ∀ gram : List Word, 0 < tally gram → 2 ≤ gram.length → 0 < tally gram.tail) :
    ∃ sorted, model.sort = some sorted ∧ sorted.Sorted limit order tally := by
  obtain ⟨vocab, levels, isOpen, sorted, isLength, isSort⟩ :=
    tallied.sort_levels several nonempty mixed
  obtain ⟨backoffs, ran⟩ := exists_computeBackoffs isOpen.valid.holds.distinct closed sorted
    (by omega)
  refine ⟨{ vocab := vocab, levels := levels, backoffs := backoffs }, ?_, isOpen, sorted, isLength,
    backed_of_computeBackoffs sorted.listed ran⟩
  rw [isSort, ran, Option.map_some]

theorem Tallied.filled_of_sort {sorted : NgramModel} (ran : model.sort = some sorted) :
    2 ≤ model.vocab.words.size ∧ ∀ level ∈ model.levels, level.vector.entries ≠ [] := by
  constructor
  · by_contra few
    rw [NgramModel.sort, sort_of_few tallied.isOpen (by omega)] at ran
    cases ran
  · intro level member empty
    rw [NgramModel.sort] at ran
    obtain ⟨result, _, ranLevels⟩ := Option.bind_eq_some_iff.mp ran
    obtain ⟨levels, isSorted, _⟩ := Option.bind_eq_some_iff.mp ranLevels
    rw [sortLevels_of_empty member empty] at isSorted
    cases isSorted

/-- Whenever a sort succeeds, the levels list what they counted and the backoffs are right. -/
theorem Tallied.sorted_of_sort {sorted : NgramModel} (ran : model.sort = some sorted) :
    sorted.Sorted 0 order tally := by
  obtain ⟨several, nonempty⟩ := tallied.filled_of_sort ran
  obtain ⟨vocab, levels, isOpen, sortedLevels, isLength, isSort⟩ :=
    tallied.sort_levels several nonempty
      (fun width positive within => absurd within (Nat.not_le_of_lt positive))
  rw [isSort] at ran
  obtain ⟨backoffs, isBackoffs, rfl⟩ := Option.map_eq_some_iff.mp ran
  exact ⟨isOpen, sortedLevels, isLength, backed_of_computeBackoffs sortedLevels.listed isBackoffs⟩

end

end Mitlm
