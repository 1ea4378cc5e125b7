/-
The rows of a model whose levels list a tally.

An index stands for the words that its levels spell one below the other; the rows of an order
are then its n-grams with their counts.
-/

import DataSelection.Mitlm.Sorting

namespace Mitlm

open Library

/-! ### The n-grams behind an index -/

/-- The n-grams of an order; those of order 0 are `below`. -/
def gramsAt (words : List Word) : Nat → List (List Word) → List Level → List (List Word)
  | 0, below, _ => below
  | order + 1, below, level :: levels =>
      gramsAt words order (gramsOf words below level.vector) levels
  | _ + 1, _, [] => []

section

variable {words : List Word} {tally : List Word → Nat}

theorem gramsAt_succ {below : List (List Word)} {levels : List Level} {order : Nat} {level : Level}
    (isLevel : levels[order]? = some level) :
    gramsAt words (order + 1) below levels =
      gramsOf words (gramsAt words order below levels) level.vector := by
  induction levels generalizing below order with
  | nil => cases isLevel
  | cons first levels ih =>
      cases order with
      | zero =>
          cases isLevel
          rfl
      | succ order => exact ih isLevel

theorem LevelsListed.level {order : Nat} {below : List (List Word)} {levels : List Level}
    (listed : LevelsListed words tally order below levels) {place : Nat} {level : Level}
    (isLevel : levels[place]? = some level) :
    level.Listed words (gramsAt words place below levels) (order + place) tally := by
  induction levels generalizing order below place with
  | nil => cases isLevel
  | cons first levels ih =>
      cases place with
      | zero =>
          cases isLevel
          exact listed.1
      | succ place =>
          have found := ih listed.2 isLevel
          rw [Nat.add_right_comm] at found
          exact found

theorem base_gramsAt (distinct : words.Nodup) {levels : List Level}
    (formed : ∀ (place : Nat) level, levels[place]? = some level →
      level.Formed words (gramsAt words place [[]] levels))
    {order : Nat} (fits : order ≤ levels.length) :
    Base words (order + 1) (gramsAt words order [[]] levels) := by
  induction order with
  | zero => exact base_nil distinct
  | succ order ih =>
      have isLevel := List.getElem?_eq_getElem fits
      rw [gramsAt_succ isLevel]
      exact (formed order _ isLevel).base (ih (by omega))

/-- The word indices behind an index spell the n-gram there. -/
theorem spells_ngramIndices {levels : List Level} (listed : LevelsListed words tally 1 [[]] levels)
    {order : Nat} (fits : order ≤ levels.length) {index : Nat} {gram : List Word}
    (found : (gramsAt words order [[]] levels)[index]? = some gram) :
    Spells words (NgramModel.ngramIndices levels order index) gram := by
  induction order generalizing index gram with
  | zero =>
      have isNil : gram = [] := List.mem_singleton.mp (List.mem_of_getElem? found)
      rw [isNil]
      exact List.Forall₂.nil
  | succ order ih =>
      have isLevel := List.getElem?_eq_getElem fits
      rw [gramsAt_succ isLevel] at found
      obtain ⟨hist, word, front, last, isEntry, isFront, isLast, rfl⟩ :=
        (listed.level isLevel).formed.exists_of_getElem? found
      have isPair := @getD_of_getElem? _ _ _ _ (0, 0) isEntry
      simp only [NgramModel.ngramIndices, isLevel, isPair]
      exact List.rel_append (ih (by omega) isFront) (List.Forall₂.cons isLast List.Forall₂.nil)

theorem LevelsHold.level {order : Nat} {below : List (List Word)} {levels : List Level}
    (holds : LevelsHold words tally order below levels) {place : Nat} {level : Level}
    (isLevel : levels[place]? = some level) :
    level.Holds words (gramsAt words place below levels) (order + place) tally := by
  induction levels generalizing order below place with
  | nil => cases isLevel
  | cons first levels ih =>
      cases place with
      | zero =>
          cases isLevel
          exact holds.1
      | succ place =>
          have found := ih holds.2 isLevel
          rw [Nat.add_right_comm] at found
          exact found

end

/-! ### Rows -/

/-- An n-gram as it is written: in the first place the end of a sentence is its beginning. -/
def shown : List Word → List Word
  | [] => []
  | first :: rest => (if first = Vocab.endSymbol then Vocab.startSymbol else first) :: rest

theorem getNgramWords_eq {model : NgramModel} {order index : Nat} {gram : List Word}
    (distinct : model.vocab.words.entries.Nodup)
    (isFirst : model.vocab.words.entries[Vocab.endOfSentence]? = some Vocab.endSymbol)
    (spells : Spells model.vocab.words.entries
      (NgramModel.ngramIndices model.levels order index) gram) :
    model.getNgramWords order index = shown gram := by
  rw [NgramModel.getNgramWords]
  generalize NgramModel.ngramIndices model.levels order index = ids at spells
  cases spells with
  | nil => rfl
  | @cons id first ids rest isWord later =>
      have sameRest : ids.map (fun index => model.vocab.words.entries.getD index []) = rest := by
        clear isWord
        induction later with
        | nil => rfl
        | cons isNext _ ih => rw [List.map_cons, ih, getD_of_getElem? isNext]
      have isEnd : id = Vocab.endOfSentence ↔ first = Vocab.endSymbol := by
        constructor
        · intro same
          rw [same, isFirst] at isWord
          exact (Option.some.inj isWord).symm
        · intro same
          rw [same] at isWord
          exact (List.getElem?_inj (List.getElem?_eq_some_iff.mp isWord).1 distinct).mp
            (isWord.trans isFirst.symm)
      simp only [shown, sameRest, isEnd, getD_of_getElem? isWord]

theorem countRows_eq {model : NgramModel} {tally : List Word → Nat}
    (distinct : model.vocab.words.entries.Nodup)
    (isFirst : model.vocab.words.entries[Vocab.endOfSentence]? = some Vocab.endSymbol)
    (listed : LevelsListed model.vocab.words.entries tally 1 [[]] model.levels) {order : Nat}
    (fits : order < model.levels.length) :
    model.countRows (order + 1) =
      (gramsAt model.vocab.words.entries (order + 1) [[]] model.levels).map
        (fun gram => (shown gram, tally gram)) := by
  have isLevel := List.getElem?_eq_getElem fits
  have isListed := listed.level isLevel
  have isGrams := @gramsAt_succ model.vocab.words.entries [[]] _ _ _ isLevel
  have sameLength : (gramsAt model.vocab.words.entries (order + 1) [[]] model.levels).length =
      (model.levels[order]).counts.length := by
    rw [isGrams, length_gramsOf, isListed.exact]
  simp only [NgramModel.countRows, Nat.add_sub_cancel, isLevel]
  refine List.ext_getElem? ?_
  intro index
  rw [List.getElem?_map, List.getElem?_map]
  by_cases inside : index < (model.levels[order]).counts.length
  · have isGram := List.getElem?_eq_getElem (sameLength ▸ inside)
    have isCount := isListed.count index _ (by rw [← isGrams]; exact isGram)
    rw [List.getElem?_range inside, isGram, Option.map_some, Option.map_some, isCount,
      getNgramWords_eq distinct isFirst (spells_ngramIndices listed fits isGram)]
  · rw [List.getElem?_eq_none (by rw [List.length_range]; omega),
      List.getElem?_eq_none (by rw [sameLength]; omega), Option.map_none, Option.map_none]

/-- The n-grams behind the rows of a sorted model are those that occur. -/
theorem LevelsListed.mem_gramsAt_iff {words : List Word} {tally : List Word → Nat}
    {levels : List Level} (listed : LevelsListed words tally 1 [[]] levels)
    (distinct : words.Nodup) (isSentence : 0 < tally [Vocab.endSymbol]) {place : Nat}
    (inside : place < levels.length) {gram : List Word} :
    gram ∈ gramsAt words (place + 1) [[]] levels ↔ gram.length = place + 1 ∧ 0 < tally gram := by
  have isLevel := List.getElem?_eq_getElem inside
  have isListed := listed.level isLevel
  have base := base_gramsAt distinct (fun place level isLevel => (listed.level isLevel).formed)
    (show place + 1 ≤ levels.length from inside)
  constructor
  · intro member
    refine ⟨Nat.succ.inj (base.lengths gram member), ?_⟩
    rw [gramsAt_succ isLevel] at member
    rcases isListed.seen gram member with counted | rfl
    · exact counted
    · exact isSentence
  · intro ⟨isLength, counted⟩
    rw [gramsAt_succ isLevel]
    exact isListed.listed gram (by omega) counted

end Mitlm
