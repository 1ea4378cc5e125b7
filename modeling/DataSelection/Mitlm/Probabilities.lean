/-
The probabilities of an estimated model.

A lookup that finds an n-gram also finds it without its first word, at its backoff; so what is
stored is what backing off would add up to, and behind every history the words of the
vocabulary share a probability of one.
-/

import DataSelection.Mitlm.KneserNey

namespace Mitlm

open Library KneserNeySmoothing

/-! ### Lookups -/

theorem idxOf?_eq_some_iff {items : List Ngram} (distinct : items.Nodup) {item : Ngram} {index : Nat} :
    items.idxOf? item = some index ↔ items[index]? = some item := by
  have found : item ∈ items → items.idxOf? item = some (items.idxOf item) := by
    intro member
    obtain ⟨place, isPlace⟩ := Option.isSome_iff_exists.mp (List.isSome_idxOf?.mpr member)
    rw [isPlace, List.idxOf_eq_getD_idxOf?, isPlace, Option.getD_some]
  constructor
  · intro isIndex
    have member : item ∈ items := List.isSome_idxOf?.mp (by rw [isIndex]; rfl)
    rw [found member] at isIndex
    rw [← Option.some.inj isIndex]
    exact List.getElem?_idxOf member
  · intro isItem
    have member := List.mem_of_getElem? isItem
    rw [found member]
    exact congrArg some ((List.getElem?_inj (List.idxOf_lt_length_of_mem member) distinct).mp
      ((List.getElem?_idxOf member).trans isItem.symm))

namespace NgramLM

theorem find_concat (levels : List Level) (hist : Nat) (ngram : List Nat) (word : Nat) :
    find levels hist (ngram ++ [word]) = (find levels hist ngram).bind (fun index =>
      (levels[ngram.length]?).bind (fun level => level.vector.entries.idxOf? (index, word))) := by
  induction ngram generalizing levels hist with
  | nil =>
      cases levels with
      | nil => rfl
      | cons level levels =>
          show _ = level.vector.entries.idxOf? (hist, word)
          rw [List.nil_append, find]
          cases level.vector.entries.idxOf? (hist, word) with
          | none => rfl
          | some index =>
              cases levels with
              | nil => rfl
              | cons second levels => rfl
  | cons first rest ih =>
      cases levels with
      | nil => rfl
      | cons level levels =>
          rw [List.cons_append, find, find]
          cases level.vector.entries.idxOf? (hist, first) with
          | none => rfl
          | some index => exact ih levels index

section

variable {words : List Word} {tally : List Word → Nat} {levels : List Level}
  (distinct : words.Nodup) (listed : LevelsListed words tally 1 [[]] levels)

include distinct listed

theorem find_eq_some_iff {ngram : List Nat} (fits : ngram.length ≤ levels.length) {index : Nat} :
    find levels 0 ngram = some index ↔ (∀ word ∈ ngram, word < words.length) ∧
      (gramsAt words ngram.length [[]] levels)[index]? =
        some (ngram.map (fun word => words.getD word [])) := by
  induction ngram using List.reverseRecOn generalizing index with
  | nil =>
      have isFound : find levels 0 [] = some 0 := by
        cases levels with
        | nil => rfl
        | cons level levels => rfl
      rw [isFound, Option.some.injEq]
      constructor
      · rintro rfl
        exact ⟨fun word member => absurd member List.not_mem_nil, rfl⟩
      · intro ⟨_, isGram⟩
        exact (Nat.lt_one_iff.mp (List.getElem?_eq_some_iff.mp isGram).1).symm
  | append_singleton ngram word ih =>
      rw [List.length_append, List.length_singleton] at fits ⊢
      have isLevel := List.getElem?_eq_getElem fits
      have formed := (listed.level isLevel).formed
      rw [find_concat, gramsAt_succ isLevel, List.map_append, List.map_singleton, isLevel,
        Option.bind_eq_some_iff]
      constructor
      · rintro ⟨hist, isHist, isIndex⟩
        obtain ⟨inside, isFront⟩ := (ih (by omega)).mp isHist
        have isEntry := (idxOf?_eq_some_iff formed.distinct).mp isIndex
        have isWord := formed.word _ (List.mem_of_getElem? isEntry)
        refine ⟨List.forall_mem_append.mpr ⟨inside, List.forall_mem_singleton.mpr isWord⟩, ?_⟩
        have isLast := List.getElem?_eq_getElem isWord
        rw [getD_of_getElem? isLast]
        exact getElem?_gramsOf isEntry isFront isLast
      · intro ⟨inside, isGram⟩
        obtain ⟨hist, last, front, text, isEntry, isFront, isLast, same⟩ :=
          formed.exists_of_getElem? isGram
        obtain ⟨sameFront, sameLast⟩ := List.append_inj' same rfl
        have isWord := List.getElem?_eq_getElem (inside word (List.mem_append_right _
          (List.mem_singleton.mpr rfl)))
        rw [getD_of_getElem? isWord] at sameLast
        rw [← List.singleton_injective sameLast] at isLast
        rw [(List.getElem?_inj (List.getElem?_eq_some_iff.mp isLast).1 distinct).mp
          (isLast.trans isWord.symm)] at isEntry
        refine ⟨hist, (ih (by omega)).mpr ⟨fun other member =>
          inside other (List.mem_append_left _ member), ?_⟩, ?_⟩
        · rw [sameFront]
          exact isFront
        · exact (idxOf?_eq_some_iff formed.distinct).mpr isEntry

/-- An n-gram without its first word is found at the backoff. -/
theorem find_tail {backoffs : List (List Nat)} (backed : LevelsBacked words [[]] levels backoffs)
    {first : Nat} {rest : List Nat} {index : Nat}
    (fits : rest.length < levels.length) (found : find levels 0 (first :: rest) = some index) :
    ∃ here, backoffs[rest.length]? = some here ∧
      find levels 0 rest = some (here.getD index 0) := by
  have isFound := @find_eq_some_iff words tally levels distinct listed (first :: rest) fits index
  obtain ⟨inside, isGram⟩ := isFound.mp found
  obtain ⟨here, isHere, tails⟩ := backed.tails fits
  obtain ⟨backoff, isBackoff, isTail⟩ := tails index _ isGram
  refine ⟨here, isHere, (find_eq_some_iff distinct listed (by omega)).mpr ⟨fun word member =>
    inside word (List.mem_cons_of_mem first member), ?_⟩⟩
  rw [getD_of_getElem? isBackoff]
  exact isTail

omit distinct listed in
theorem find_of_long (hist : Nat) {ngram : List Nat} (long : levels.length < ngram.length) :
    find levels hist ngram = none := by
  induction ngram generalizing levels hist with
  | nil => cases long
  | cons first rest ih =>
      cases levels with
      | nil => rfl
      | cons level levels =>
          rw [find]
          cases level.vector.entries.idxOf? (hist, first) with
          | none => rfl
          | some index => exact ih index (Nat.lt_of_succ_lt_succ long)

end

end NgramLM

/-! ### Estimated orders -/

theorem estimateLevels_shares {levels : List Level} {backoffs : List (List Nat)}
    {smoothings : List KneserNeySmoothing} {isUnigram : Bool} {lowerSize : Nat} {boProbs params : List Rat}
    {vectors : List (List Rat × List Rat)}
    (viewed : ∀ level ∈ levels, level.hists = level.vector.entries.map Prod.fst)
    (exact : ∀ level ∈ levels, level.counts.length = level.vector.size)
    (inside : ∀ (place : Nat) level, levels[place]? = some level → ∀ ngram ∈ level.vector.entries,
      ngram.1 < (lowerSize :: levels.map (fun level => level.vector.size)).getD place 0)
    (counted : isUnigram = true → ∀ level ∈ levels.head?, ∀ index < level.vector.size,
      0 < level.counts.getD index 0)
    (ran : estimateLevels isUnigram lowerSize boProbs levels backoffs smoothings params =
      some vectors) :
    vectors.length = levels.length ∧ ∀ (place : Nat) level, levels[place]? = some level →
      ∃ own, Shares level ((lowerSize :: levels.map (fun level => level.vector.size)).getD place 0)
        (backoffs.getD place []) ((boProbs :: vectors.map Prod.fst).getD place [])
        ((boProbs :: vectors.map Prod.fst).getD (place + 1) [])
        ((vectors.map Prod.snd).getD place []) own := by
  induction levels generalizing backoffs smoothings isUnigram lowerSize boProbs params vectors with
  | nil =>
      cases ran
      refine ⟨rfl, ?_⟩
      intro place level impossible
      cases impossible
  | cons level levels ih =>
      cases backoffs with
      | nil => cases ran
      | cons here later =>
          cases smoothings with
          | nil => cases ran
          | cons smoothing smoothings =>
              obtain ⟨⟨probs, bows⟩, isFirst, ranLater⟩ := Option.bind_eq_some_iff.mp ran
              obtain ⟨higher, isHigher, isAll⟩ := Option.bind_eq_some_iff.mp ranLater
              cases isAll
              obtain ⟨sameLength, sharesLater⟩ := ih
                (fun other member => viewed other (List.mem_cons_of_mem level member))
                (fun other member => exact other (List.mem_cons_of_mem level member))
                (fun place other isLevel => inside (place + 1) other isLevel)
                (fun impossible => absurd impossible Bool.false_ne_true) isHigher
              refine ⟨congrArg Nat.succ sameLength, ?_⟩
              intro place other isLevel
              cases place with
              | zero =>
                  cases isLevel
                  exact estimate_shares (viewed level List.mem_cons_self)
                    (exact level List.mem_cons_self) (inside 0 level rfl)
                    (fun isFirst => counted isFirst level rfl) isFirst
              | succ place => exact sharesLater place other isLevel

/-! ### Probabilities -/

/-- What an estimation leaves in a model whose levels list a tally. -/
structure NgramLM.Estimated (lm : NgramLM) (words : List Word) (tally : List Word → Nat) : Prop where
  distinct : words.Nodup
  listed : LevelsListed words tally 1 [[]] lm.model.levels
  backed : LevelsBacked words [[]] lm.model.levels lm.model.backoffs
  lengthBows : lm.bowVectors.length = lm.model.levels.length
  shares : ∀ (place : Nat) level, lm.model.levels[place]? = some level →
    ∃ own, Shares level (gramsAt words place [[]] lm.model.levels).length
      (lm.model.backoffs.getD place []) (lm.probVectors.getD place [])
      (lm.probVectors.getD (place + 1) []) (lm.bowVectors.getD place []) own
  zeroth : 0 ≤ lm.storedProb []
  total : (words.length : Rat) * lm.storedProb [] = 1

namespace NgramLM.Estimated

variable {lm : NgramLM} {words : List Word} {tally : List Word → Nat}
  (estimated : lm.Estimated words tally)

include estimated

theorem bow_of_long {hist : List Nat} (long : lm.model.levels[hist.length]? = none) :
    lm.bow hist = 1 := by
  have outside := List.getElem?_eq_none_iff.mp long
  rw [← estimated.lengthBows] at outside
  have isEmpty : lm.bowVectors.getD hist.length [] = [] := by
    rw [List.getD_eq_getElem?_getD, List.getElem?_eq_none outside, Option.getD_none]
  rw [bow, isEmpty]
  split
  · rfl
  · rfl

theorem bow_nonneg (hist : List Nat) : 0 ≤ lm.bow hist := by
  cases isLevel : lm.model.levels[hist.length]? with
  | none =>
      rw [estimated.bow_of_long isLevel]
      exact zero_le_one
  | some level =>
      obtain ⟨own, shares⟩ := estimated.shares _ _ isLevel
      rw [bow]
      split
      · exact shares.bows_nonneg _
      · exact zero_le_one

/-- What is stored for an n-gram adds up its own share and that of its backoff. -/
theorem storedProb_concat {hist : List Nat} {word histIndex index : Nat} {level : Level}
    (isLevel : lm.model.levels[hist.length]? = some level)
    (found : find lm.model.levels 0 hist = some histIndex)
    (isEntry : level.vector.entries[index]? = some (histIndex, word)) {lowerSize : Nat}
    {own : Nat → Rat}
    (shares : Shares level lowerSize (lm.model.backoffs.getD hist.length [])
      (lm.probVectors.getD hist.length []) (lm.probVectors.getD (hist.length + 1) [])
      (lm.bowVectors.getD hist.length []) own) :
    find lm.model.levels 0 (hist ++ [word]) = some index ∧
      (∃ backoff, find lm.model.levels 0 (hist ++ [word]).tail = some backoff) ∧
      lm.storedProb (hist ++ [word]) =
        own index + lm.bow hist * lm.storedProb (hist ++ [word]).tail := by
  have inside := (List.getElem?_eq_some_iff.mp isLevel).1
  have isFound : find lm.model.levels 0 (hist ++ [word]) = some index := by
    rw [find_concat, found, isLevel]
    exact (idxOf?_eq_some_iff (estimated.listed.level isLevel).formed.distinct).mpr isEntry
  obtain ⟨first, rest, isNgram⟩ := List.exists_cons_of_ne_nil
    (List.append_ne_nil_of_right_ne_nil hist (List.cons_ne_nil word []))
  have sameLength : rest.length = hist.length := by
    have lengths := congrArg List.length isNgram
    rw [List.length_append, List.length_singleton, List.length_cons] at lengths
    omega
  obtain ⟨backs, isBacks, isTail⟩ := find_tail estimated.distinct estimated.listed estimated.backed
    (sameLength ▸ inside) (isNgram ▸ isFound)
  refine ⟨isFound, ⟨_, by rw [isNgram]; exact isTail⟩, ?_⟩
  have share := shares.shares index histIndex word isEntry
  rw [sameLength] at isBacks
  rw [getD_of_getElem? isBacks] at share
  have isTailProb : lm.storedProb (hist ++ [word]).tail =
      (lm.probVectors.getD hist.length []).getD (backs.getD index 0) 0 := by
    rw [isNgram, List.tail_cons, storedProb, isTail, sameLength]
  have isBow : lm.bow hist = (lm.bowVectors.getD hist.length []).getD histIndex 1 := by
    rw [bow, found]
  rw [isTailProb, isBow, mul_comm, ← share, storedProb, isFound, List.length_append,
    List.length_singleton]

omit estimated in
theorem exists_of_find (listed : LevelsListed words tally 1 [[]] lm.model.levels) {ngram : List Nat}
    (nonempty : ngram ≠ []) {index : Nat} (found : find lm.model.levels 0 ngram = some index) :
    ∃ hist word histIndex level, ngram = hist ++ [word] ∧
      lm.model.levels[hist.length]? = some level ∧
      find lm.model.levels 0 hist = some histIndex ∧
      level.vector.entries[index]? = some (histIndex, word) := by
  rcases List.eq_nil_or_concat ngram with isNil | ⟨hist, word, isConcat⟩
  · exact absurd isNil nonempty
  rw [List.concat_eq_append] at isConcat
  rw [isConcat, find_concat] at found
  obtain ⟨histIndex, isHist, foundLast⟩ := Option.bind_eq_some_iff.mp found
  obtain ⟨level, isLevel, isIndex⟩ := Option.bind_eq_some_iff.mp foundLast
  exact ⟨hist, word, histIndex, level, isConcat, isLevel, isHist,
    (idxOf?_eq_some_iff (listed.level isLevel).formed.distinct).mp isIndex⟩

theorem storedProb_nonneg (ngram : List Nat) : 0 ≤ lm.storedProb ngram := by
  induction ngram with
  | nil => exact estimated.zeroth
  | cons first rest ih =>
      cases found : find lm.model.levels 0 (first :: rest) with
      | none =>
          rw [storedProb, found]
      | some index =>
          obtain ⟨hist, word, histIndex, level, isNgram, isLevel, isHist, isEntry⟩ :=
            exists_of_find estimated.listed (List.cons_ne_nil first rest) found
          obtain ⟨own, shares⟩ := estimated.shares _ _ isLevel
          have stored := (estimated.storedProb_concat isLevel isHist isEntry shares).2.2
          rw [← isNgram] at stored
          rw [stored]
          exact add_nonneg (shares.own_nonneg index) (mul_nonneg (estimated.bow_nonneg hist) ih)

omit estimated in
theorem prob_eq {ngram : List Nat} (nonempty : ngram ≠ []) :
    lm.prob ngram = if lm.storedProb ngram = 0 then lm.prob ngram.tail * lm.bow ngram.dropLast
      else lm.storedProb ngram := by
  cases ngram with
  | nil => exact absurd rfl nonempty
  | cons first rest => rfl

/-- Filling in changes no probability of an n-gram that is found. -/
theorem prob_of_find {ngram : List Nat} {index : Nat}
    (found : find lm.model.levels 0 ngram = some index) : lm.prob ngram = lm.storedProb ngram := by
  induction ngram generalizing index with
  | nil => rfl
  | cons first rest ih =>
      obtain ⟨hist, word, histIndex, level, isNgram, isLevel, isHist, isEntry⟩ :=
        exists_of_find estimated.listed (List.cons_ne_nil first rest) found
      obtain ⟨own, shares⟩ := estimated.shares _ _ isLevel
      obtain ⟨_, ⟨backoff, isTail⟩, stored⟩ :=
        estimated.storedProb_concat isLevel isHist isEntry shares
      rw [← isNgram, List.tail_cons] at isTail stored
      rw [prob_eq (List.cons_ne_nil first rest)]
      split
      · next isZero =>
          have atLeast := shares.own_nonneg index
          have backoffAtLeast := mul_nonneg (estimated.bow_nonneg hist)
            (estimated.storedProb_nonneg rest)
          rw [isZero] at stored
          rw [isZero, List.tail_cons, ih isTail, isNgram, List.dropLast_concat, mul_comm]
          linarith
      · rfl

theorem prob_nonneg (ngram : List Nat) : 0 ≤ lm.prob ngram := by
  induction ngram with
  | nil => exact estimated.zeroth
  | cons first rest ih =>
      rw [prob_eq (List.cons_ne_nil first rest)]
      split
      · exact mul_nonneg ih (estimated.bow_nonneg _)
      · exact estimated.storedProb_nonneg _

omit estimated in
theorem prob_of_missing {hist : List Nat} {word : Nat}
    (missing : find lm.model.levels 0 (hist ++ [word]) = none) :
    lm.prob (hist ++ [word]) = lm.bow hist * lm.prob (hist ++ [word]).tail := by
  have isZero : lm.storedProb (hist ++ [word]) = 0 := by rw [storedProb, missing]
  rw [prob_eq (List.append_ne_nil_of_right_ne_nil hist (List.cons_ne_nil word [])), if_pos isZero,
    List.dropLast_concat, mul_comm]

/-- The probabilities behind a history add up if those that it backs off to do. -/
theorem sum_prob_of_base {hist : List Nat}
    (total : ∑ word ∈ Finset.range words.length, lm.prob (hist ++ [word]).tail = 1) :
    ∑ word ∈ Finset.range words.length, lm.prob (hist ++ [word]) = 1 := by
  have unseen : lm.bow hist = 1 →
      (∀ word, find lm.model.levels 0 (hist ++ [word]) = none) →
        ∑ word ∈ Finset.range words.length, lm.prob (hist ++ [word]) = 1 := by
    intro isOne missing
    rw [← total]
    refine Finset.sum_congr rfl ?_
    intro word _
    rw [prob_of_missing (missing word), isOne, one_mul]
  cases found : find lm.model.levels 0 hist with
  | none =>
      refine unseen ?_ ?_
      · rw [bow, found]
      · intro word
        rw [find_concat, found]
        rfl
  | some histIndex =>
      cases isLevel : lm.model.levels[hist.length]? with
      | none =>
          refine unseen (estimated.bow_of_long isLevel) ?_
          intro word
          rw [find_concat, found, isLevel]
          rfl
      | some level =>
          obtain ⟨own, shares⟩ := estimated.shares _ _ isLevel
          have formed := (estimated.listed.level isLevel).formed
          have isHist : histIndex < (gramsAt words hist.length [[]] lm.model.levels).length := by
            have isFound := (find_eq_some_iff estimated.distinct estimated.listed
              (List.getElem?_eq_some_iff.mp isLevel).1.le).mp found
            exact (List.getElem?_eq_some_iff.mp isFound.2).1
          have isBow : lm.bow hist = (lm.bowVectors.getD hist.length []).getD histIndex 1 := by
            rw [bow, found]
          have interpolated := @sum_interpolated Rat Nat _ _ (Finset.range words.length)
            ((Finset.range words.length).filter
              (fun word => (histIndex, word) ∈ level.vector.entries))
            (fun word => lm.prob (hist ++ [word]))
            (fun word => own (level.vector.entries.idxOf (histIndex, word)))
            (fun word => lm.prob (hist ++ [word]).tail) (lm.bow hist) (Finset.filter_subset _ _) ?_ ?_
          · rw [interpolated, total, mul_one, isBow,
              ← binSum_pairs formed.distinct formed.word histIndex own]
            exact shares.mass histIndex isHist
          · intro word member
            have isEntry := List.getElem?_idxOf (Finset.mem_filter.mp member).2
            obtain ⟨isFound, ⟨backoff, isTail⟩, stored⟩ :=
              estimated.storedProb_concat isLevel found isEntry shares
            rw [estimated.prob_of_find isFound, stored, estimated.prob_of_find isTail]
          · intro word isWord absent
            refine prob_of_missing ?_
            rw [find_concat, found, isLevel]
            refine List.idxOf?_eq_none_iff.mpr ?_
            intro member
            exact absent (Finset.mem_filter.mpr ⟨isWord, member⟩)

theorem sum_prob (hist : List Nat) :
    ∑ word ∈ Finset.range words.length, lm.prob (hist ++ [word]) = 1 := by
  induction hist with
  | nil =>
      refine estimated.sum_prob_of_base ?_
      show ∑ _word ∈ Finset.range words.length, lm.storedProb [] = 1
      rw [Finset.sum_const, Finset.card_range, nsmul_eq_mul]
      exact estimated.total
  | cons first rest ih => exact estimated.sum_prob_of_base ih

end NgramLM.Estimated

/-! ### Estimations -/

theorem Tallied.words_of_sort {order : Nat} {tally : List Word → Nat} {model sorted : NgramModel}
    (tallied : Tallied order tally model) (ran : model.sort = some sorted) :
    sorted.vocab.words.entries.Perm model.vocab.words.entries := by
  obtain ⟨_, vocab, vocabMap, isSorted, _, perm, _⟩ :=
    tallied.isOpen.sort_eq (tallied.filled_of_sort ran).1
  simp only [NgramModel.sort, isSorted, Option.bind_eq_bind, Option.bind_some] at ran
  obtain ⟨levels, _, ranBackoffs⟩ := Option.bind_eq_some_iff.mp ran
  obtain ⟨backoffs, _, isAll⟩ := Option.bind_eq_some_iff.mp ranBackoffs
  cases isAll
  exact perm

def Known (words : List Word) (tally : List Word → Nat) : Prop := ∀ word ∈ words, 0 < tally [word]

section

variable {words : List Word} {tally : List Word → Nat} {level : Level} {levels : List Level}
  (listed : LevelsListed words tally 1 [[]] (level :: levels)) (known : Known words tally)

include listed known

theorem counts_pos {index : Nat} (inside : index < level.vector.size) :
    0 < level.counts.getD index 0 := by
  have isEntry := List.getElem?_eq_getElem (show index < level.vector.entries.length from inside)
  have member := List.getElem_mem (show index < level.vector.entries.length from inside)
  have isHist := List.getElem?_eq_getElem (listed.1.formed.hist _ member)
  have isWord := List.getElem?_eq_getElem (listed.1.formed.word _ member)
  have isNil := List.mem_singleton.mp (List.mem_of_getElem? isHist)
  rw [listed.1.count index _ (getElem?_gramsOf isEntry isHist isWord), isNil, List.nil_append]
  exact known _ (List.mem_of_getElem? isWord)

theorem size_unigrams (distinct : words.Nodup) : level.vector.size = words.length := by
  have base := listed.1.formed.base (base_nil distinct)
  have perm : (gramsOf words [[]] level.vector).Perm (words.map (fun word => [word])) := by
    refine (List.perm_ext_iff_of_nodup base.belowDistinct
      (distinct.map List.singleton_injective)).mpr ?_
    intro gram
    constructor
    · intro member
      obtain ⟨index, isGram⟩ := List.mem_iff_getElem?.mp member
      obtain ⟨hist, word, front, last, _, isFront, isLast, rfl⟩ :=
        listed.1.formed.exists_of_getElem? isGram
      rw [List.mem_singleton.mp (List.mem_of_getElem? isFront), List.nil_append]
      exact List.mem_map_of_mem (List.mem_of_getElem? isLast)
    · intro member
      obtain ⟨word, isWord, rfl⟩ := List.mem_map.mp member
      exact listed.1.listed [word] rfl (known word isWord)
  have sameLength := perm.length_eq
  rw [gramsOf, List.length_map, List.length_map] at sameLength
  exact sameLength

end

/-- In order 0 each word of the vocabulary has the same part. -/
theorem zeroProb_spec {words : List Word} {tally : List Word → Nat} {model : NgramModel} {prob : Rat}
    (distinct : words.Nodup) (listed : LevelsListed words tally 1 [[]] model.levels)
    (known : Known words tally) (isProb : zeroProb model = some prob) :
    0 ≤ prob ∧ (words.length : Rat) * prob = 1 := by
  rw [zeroProb] at isProb
  obtain ⟨unigrams, isFirst, isKnown⟩ := Option.bind_eq_some_iff.mp isProb
  cases isLevels : model.levels with
  | nil =>
      rw [isLevels] at isFirst
      cases isFirst
  | cons first levels =>
      rw [isLevels] at isFirst listed
      cases isFirst
      have allCounted : unigrams.counts.countP (fun count => decide (count > 0)) = words.length := by
        rw [← size_unigrams listed known distinct, ← listed.1.exact, List.countP_eq_length]
        intro count member
        obtain ⟨index, isCount⟩ := List.mem_iff_getElem?.mp member
        have inside := (List.getElem?_eq_some_iff.mp isCount).1
        have positive := counts_pos listed known (listed.1.exact ▸ inside)
        rw [getD_of_getElem? isCount] at positive
        exact decide_eq_true positive
      simp only [allCounted] at isKnown
      split at isKnown
      · cases isKnown
      · next nonzero =>
          cases isKnown
          exact ⟨one_div_nonneg.mpr (Nat.cast_nonneg _),
            mul_one_div_cancel (Nat.cast_ne_zero.mpr nonzero)⟩

theorem NgramLM.setSmoothingAlgs_eq_some_iff {model : NgramModel} {prob : Rat} :
    setSmoothingAlgs model = some prob ↔ inView model = true ∧ zeroProb model = some prob := by
  rw [setSmoothingAlgs]
  split
  · next viewed => exact ⟨fun isProb => ⟨viewed, isProb⟩, fun both => both.2⟩
  · next hidden => exact iff_of_false (Option.some_ne_none prob ·.symm) (fun both => hidden both.1)

theorem NgramLM.hists_of_inView {model : NgramModel} (viewed : inView model = true) :
    ∀ level ∈ model.levels, level.hists = level.vector.entries.map Prod.fst :=
  fun level member => level.hists_eq (of_decide_eq_true (List.all_eq_true.mp viewed level member))

theorem NgramModel.Sorted.inView {order : Nat} {tally : List Word → Nat} {model : NgramModel}
    (sorted : model.Sorted order order tally) : NgramLM.inView model = true := by
  refine List.all_eq_true.mpr ?_
  intro level member
  obtain ⟨place, isLevel⟩ := List.mem_iff_getElem?.mp member
  have inside := (List.getElem?_eq_some_iff.mp isLevel).1
  rw [sorted.orders] at inside
  rw [decide_eq_true_eq, Level.hists, if_pos (sorted.levels.ordered isLevel inside).inView,
    List.length_map, HashVector.size]

/-- There is one n-gram of order 0, and one for each entry of the other orders. -/
theorem length_gramsAt {words : List Word} {levels : List Level} {order : Nat}
    (fits : order ≤ levels.length) :
    (1 :: levels.map (fun level => level.vector.size)).getD order 0 =
      (gramsAt words order [[]] levels).length := by
  cases order with
  | zero => rfl
  | succ order =>
      have isLevel := List.getElem?_eq_getElem fits
      rw [List.getD_cons_succ, List.getD_eq_getElem?_getD, List.getElem?_map, isLevel,
        gramsAt_succ isLevel, gramsOf, List.length_map]
      rfl

theorem LevelsListed.exact {words : List Word} {tally : List Word → Nat} {order : Nat}
    {below : List (List Word)} {levels : List Level}
    (listed : LevelsListed words tally order below levels) :
    ∀ level ∈ levels, level.counts.length = level.vector.size := by
  intro level member
  obtain ⟨place, isLevel⟩ := List.mem_iff_getElem?.mp member
  exact (listed.level isLevel).exact

theorem NgramModel.Sorted.estimated {limit order : Nat} {tally : List Word → Nat}
    {model : NgramModel} (sorted : model.Sorted limit order tally)
    (known : Known model.vocab.words.entries tally) {smoothings : List KneserNeySmoothing}
    {params : List Rat} {lm : NgramLM} (ran : NgramLM.estimate model smoothings params = some lm) :
    lm.model = model ∧ lm.Estimated model.vocab.words.entries tally := by
  have listed := sorted.levels.listed
  have distinct : model.vocab.words.entries.Nodup := sorted.isOpen.valid.holds.distinct
  obtain ⟨prob, isSet, ranLevels⟩ := Option.bind_eq_some_iff.mp ran
  obtain ⟨viewed, isProb⟩ := NgramLM.setSmoothingAlgs_eq_some_iff.mp isSet
  obtain ⟨vectors, isVectors, isAll⟩ := Option.bind_eq_some_iff.mp ranLevels
  cases isAll
  have sizes := @length_gramsAt model.vocab.words.entries model.levels
  have levelInside : ∀ {place : Nat} {level}, model.levels[place]? = some level →
      place ≤ model.levels.length := fun isLevel => (List.getElem?_eq_some_iff.mp isLevel).1.le
  obtain ⟨sameLength, shares⟩ := estimateLevels_shares (NgramLM.hists_of_inView viewed)
    listed.exact
    (fun place level isLevel ngram member => by
      rw [sizes (levelInside isLevel)]
      exact (listed.level isLevel).formed.hist ngram member)
    (fun _ level isFirst index inside => by
      cases isLevels : model.levels with
      | nil =>
          rw [isLevels] at isFirst
          cases isFirst
      | cons first levels =>
          rw [isLevels] at isFirst listed
          cases isFirst
          exact counts_pos listed known inside) isVectors
  have isStored : NgramLM.storedProb
      { model := model, probVectors := [prob] :: vectors.map Prod.fst,
        bowVectors := vectors.map Prod.snd } [] = prob := by
    rw [NgramLM.storedProb]
    cases model.levels with
    | nil => rfl
    | cons level levels => rfl
  refine ⟨rfl, distinct, listed, sorted.backed, ?_, ?_, ?_, ?_⟩
  · show (vectors.map Prod.snd).length = _
    rw [List.length_map, sameLength]
  · intro place level isLevel
    rw [← sizes (levelInside isLevel)]
    exact shares place level isLevel
  · rw [isStored]
    exact (zeroProb_spec distinct listed known isProb).1
  · rw [isStored]
    exact (zeroProb_spec distinct listed known isProb).2

theorem known_of_loadCorpus {order : Nat} (positive : 0 < order) {corpus : List Char}
    {start model : NgramModel} (created : NgramModel.create order = some start)
    (loads : start.loadCorpus corpus = some model) :
    model.Sorted 0 order (total (getlines corpus)) ∧
      Known model.vocab.words.entries (total (getlines corpus)) := by
  obtain ⟨other, state, isOther, loaded, isLoad⟩ := exists_loaded positive corpus
  obtain rfl := Option.some.inj (created.symm.trans isOther)
  rw [isLoad] at loads
  obtain ⟨worded, _, sorted⟩ := loaded.sorted_of_sort positive loads
  obtain ⟨line, isLine, isSentence, _⟩ := worded
  refine ⟨sorted, ?_⟩
  rw [loaded.addVocabulary_eq positive ⟨line, isLine, isSentence⟩, Option.bind_some] at loads
  have perm := loaded.tallied.words_of_sort loads
  intro word member
  rcases loaded.known word (perm.subset member) with rfl | counted
  · exact total_pos isLine
      (lineCount_pos isSentence (List.mem_append_right _ List.mem_cons_self))
  · exact counted

theorem exists_estimateLevels_iff {levels : List Level} {backoffs : List (List Nat)}
    {smoothings : List KneserNeySmoothing} (sameLength : smoothings.length = levels.length)
    (enough : levels.length ≤ backoffs.length) {isUnigram : Bool} {lowerSize : Nat}
    {boProbs params : List Rat} :
    (∃ vectors, estimateLevels isUnigram lowerSize boProbs levels backoffs smoothings params =
      some vectors) ↔ NgramLM.accepts smoothings params = true ∧
        LevelsDefined lowerSize levels backoffs smoothings := by
  induction levels generalizing backoffs smoothings isUnigram lowerSize boProbs params with
  | nil =>
      rw [List.length_eq_zero_iff.mp sameLength]
      exact iff_of_true ⟨[], rfl⟩ ⟨rfl, trivial⟩
  | cons level levels ih =>
      cases backoffs with
      | nil => cases enough
      | cons here later =>
          cases smoothings with
          | nil => cases sameLength
          | cons smoothing smoothings =>
              have isFirst := @exists_estimate_iff smoothing isUnigram
                (smoothing.initializeOrder lowerSize level here (nextOrder levels later))
                (params.take smoothing.numParams) boProbs
              have isLater := fun probs => @ih later smoothings (Nat.succ.inj sameLength)
                (Nat.le_of_succ_le_succ enough) false level.vector.size probs
                  (params.drop smoothing.numParams)
              rw [NgramLM.accepts, Bool.and_eq_true, Bool.or_eq_true, Bool.not_eq_true',
                ← Bool.not_eq_true, ← imp_iff_not_or, LevelsDefined]
              constructor
              · intro ⟨vectors, ran⟩
                obtain ⟨⟨probs, bows⟩, ranFirst, ranLater⟩ := Option.bind_eq_some_iff.mp ran
                obtain ⟨higher, isHigher, _⟩ := Option.bind_eq_some_iff.mp ranLater
                obtain ⟨inBounds, defined⟩ := isFirst.mp ⟨_, ranFirst⟩
                obtain ⟨accepted, definedLater⟩ := (isLater probs).mp ⟨higher, isHigher⟩
                exact ⟨⟨inBounds, accepted⟩, defined, definedLater⟩
              · intro ⟨⟨inBounds, accepted⟩, defined, definedLater⟩
                obtain ⟨⟨probs, bows⟩, ranFirst⟩ := isFirst.mpr ⟨inBounds, defined⟩
                obtain ⟨higher, isHigher⟩ := (isLater probs).mpr ⟨accepted, definedLater⟩
                simp only [estimateLevels, ranFirst, isHigher, Option.bind_eq_bind, Option.bind_some]
                exact ⟨_, rfl⟩

/-- Defaults of all orders are accepted when they are numbers. -/
theorem accepts_defaultParams {levels : List Level} {backoffs : List (List Nat)}
    {smoothings : List KneserNeySmoothing} (sameLength : smoothings.length = levels.length)
    (enough : levels.length ≤ backoffs.length) {lowerSize : Nat} {params : List Rat}
    (defaults : defaultParams lowerSize levels backoffs smoothings = params.map some) :
    NgramLM.accepts smoothings params = true := by
  induction levels generalizing backoffs smoothings lowerSize params with
  | nil =>
      rw [List.length_eq_zero_iff.mp sameLength]
      rfl
  | cons level levels ih =>
      cases backoffs with
      | nil => cases enough
      | cons here later =>
          cases smoothings with
          | nil => cases sameLength
          | cons smoothing smoothings =>
              rw [defaultParams, List.append_eq_map_iff] at defaults
              obtain ⟨first, rest, rfl, isFirst, isRest⟩ := defaults
              have acceptedLater := ih (Nat.succ.inj sameLength) (Nat.le_of_succ_le_succ enough)
                isRest.symm
              rw [NgramLM.accepts, Bool.and_eq_true]
              cases tuned : smoothing.tuneParams with
              | true =>
                  obtain ⟨isLength, inBounds⟩ := isInBounds_defParams tuned isFirst.symm
                  rw [List.take_left' isLength, List.drop_left' isLength]
                  exact ⟨inBounds, acceptedLater⟩
              | false =>
                  rw [defParams, tuned, if_neg Bool.false_ne_true, List.map_eq_nil_iff] at isFirst
                  rw [isFirst, numParams, tuned, if_neg Bool.false_ne_true]
                  exact ⟨rfl, acceptedLater⟩

theorem exists_zeroProb {words : List Word} {tally : List Word → Nat} {model : NgramModel}
    (isOpen : words[Vocab.endOfSentence]? = some Vocab.endSymbol) (distinct : words.Nodup)
    (listed : LevelsListed words tally 1 [[]] model.levels) (known : Known words tally)
    (nonempty : model.levels ≠ []) : ∃ prob, zeroProb model = some prob := by
  cases isLevels : model.levels with
  | nil => exact absurd isLevels nonempty
  | cons first levels =>
      rw [isLevels] at listed
      have filled : 0 < first.vector.size := by
        rw [size_unigrams listed known distinct]
        exact Nat.lt_of_le_of_lt (Nat.zero_le _) (List.getElem?_eq_some_iff.mp isOpen).1
      have isCount := List.getElem_mem (show 0 < first.counts.length by
        rw [listed.1.exact]
        exact filled)
      have positive := counts_pos listed known filled
      rw [List.getD_eq_getElem?_getD,
        List.getElem?_eq_getElem (show 0 < first.counts.length by
          rw [listed.1.exact]
          exact filled), Option.getD_some] at positive
      have nonzero : first.counts.countP (fun count => decide (count > 0)) ≠ 0 :=
        (List.countP_pos_iff.mpr ⟨_, isCount, decide_eq_true positive⟩).ne'
      simp only [zeroProb, isLevels, List.head?_cons, Option.bind_eq_bind, Option.bind_some]
      exact ⟨_, if_neg nonzero⟩

theorem length_backoffs {words : List Word} {below : List (List Word)} {levels : List Level}
    {backoffs : List (List Nat)} (backed : LevelsBacked words below levels backoffs) :
    levels.length = backoffs.length := by
  induction levels generalizing below backoffs with
  | nil =>
      cases backoffs with
      | nil => rfl
      | cons first later => exact backed.elim
  | cons level levels ih =>
      cases backoffs with
      | nil => exact backed.elim
      | cons first later => exact congrArg Nat.succ (ih backed.2)

/-- A corpus has a model of numbers for exactly the parameters that are accepted, if its histories
are in view and its discounts are numbers; and defaults that are numbers are accepted. -/
theorem estimate_isSome_iff {order : Nat} (positive : 0 < order) {corpus : List Char}
    {start model : NgramModel} (created : NgramModel.create order = some start)
    (loads : start.loadCorpus corpus = some model) {smoothings : List KneserNeySmoothing}
    (each : smoothings.length = order) (params : List Rat) :
    ((NgramLM.estimate model smoothings params).isSome ↔ NgramLM.inView model = true ∧
        NgramLM.accepts smoothings params = true ∧
          LevelsDefined 1 model.levels model.backoffs smoothings) ∧
      (NgramLM.defParams model smoothings = params.map some →
        NgramLM.accepts smoothings params = true) := by
  obtain ⟨sorted, known⟩ := known_of_loadCorpus positive created loads
  have sameLength : smoothings.length = model.levels.length := each.trans sorted.orders.symm
  have enough := (length_backoffs sorted.backed).le
  obtain ⟨prob, isProb⟩ := exists_zeroProb sorted.isOpen.first sorted.isOpen.valid.holds.distinct
    sorted.levels.listed known
      (List.ne_nil_of_length_pos (show 0 < model.levels.length by rw [sorted.orders]; exact positive))
  refine ⟨?_, accepts_defaultParams sameLength enough⟩
  have isLevels := @exists_estimateLevels_iff model.levels model.backoffs smoothings sameLength enough
    true 1 [prob] params
  rw [← isLevels]
  constructor
  · intro isSome
    obtain ⟨lm, ran⟩ := Option.isSome_iff_exists.mp isSome
    obtain ⟨other, isSet, ranLevels⟩ := Option.bind_eq_some_iff.mp ran
    obtain ⟨viewed, isOther⟩ := NgramLM.setSmoothingAlgs_eq_some_iff.mp isSet
    obtain rfl := Option.some.inj (isProb.symm.trans isOther)
    obtain ⟨vectors, isVectors, _⟩ := Option.bind_eq_some_iff.mp ranLevels
    exact ⟨viewed, vectors, isVectors⟩
  · intro ⟨viewed, vectors, isVectors⟩
    have isSet := NgramLM.setSmoothingAlgs_eq_some_iff.mpr ⟨viewed, isProb⟩
    simp only [NgramLM.estimate, isSet, isVectors, Option.bind_eq_bind, Option.bind_some]
    rfl

theorem levelsDefined_of_tuned {smoothings : List KneserNeySmoothing}
    (tuned : ∀ smoothing ∈ smoothings, smoothing.tuneParams = true) (lowerSize : Nat)
    (levels : List Level) (backoffs : List (List Nat)) :
    LevelsDefined lowerSize levels backoffs smoothings := by
  induction smoothings generalizing lowerSize levels backoffs with
  | nil =>
      cases levels with
      | nil => trivial
      | cons level levels => cases backoffs <;> trivial
  | cons smoothing smoothings ih =>
      cases levels with
      | nil => trivial
      | cons level levels =>
          cases backoffs with
          | nil => trivial
          | cons here later =>
              refine ⟨?_, ih (fun other member => tuned other (List.mem_cons_of_mem smoothing member))
                level.vector.size levels later⟩
              intro untuned
              rw [tuned smoothing List.mem_cons_self] at untuned
              cases untuned

theorem getlines_two : getlines "a b\n".toList = ["a b".toList] :=
  (getlines_of_short (by decide +kernel)).trans (by decide +kernel)

theorem exists_model_two : ∃ start model, NgramModel.create 2 = some start ∧
    start.loadCorpus "a b\n".toList = some model ∧ Inner 2 (getlines "a b\n".toList) := by
  have inner : Inner 2 (getlines "a b\n".toList) := by
    rw [getlines_two]
    exact ⟨[['a'], ['b']], rfl, by decide +kernel, by unfold Starts; decide⟩
  obtain ⟨start, state, created, loaded, isLoad⟩ := exists_loaded two_pos "a b\n".toList
  obtain ⟨model, isModel, _⟩ := loaded.exists_sort two_pos (inner.worded two_pos) inner.reaches
    (Nat.le_succ 2) inner.mixed
  exact ⟨start, model, created, isLoad.trans isModel, inner⟩

theorem defined_two (model : NgramModel) :
    LevelsDefined 1 model.levels model.backoffs (List.replicate 2 ⟨1, true⟩) := by
  refine levelsDefined_of_tuned ?_ _ _ _
  intro smoothing member
  rw [List.eq_of_mem_replicate member]

theorem exists_estimate_two {start model : NgramModel} (created : NgramModel.create 2 = some start)
    (loads : start.loadCorpus "a b\n".toList = some model)
    (inner : Inner 2 (getlines "a b\n".toList)) {params : List Rat}
    (accepted : NgramLM.accepts (List.replicate 2 ⟨1, true⟩) params = true) :
    ∃ lm, NgramLM.estimate model (List.replicate 2 ⟨1, true⟩) params = some lm := by
  refine Option.isSome_iff_exists.mp
    ((estimate_isSome_iff two_pos created loads List.length_replicate params).1.mpr
      ⟨?_, accepted, defined_two model⟩)
  exact (sorted_of_loadCorpus two_pos created loads inner).inView

/-- An estimated model of a corpus gives the words of the vocabulary probabilities that add up to one
behind every history.  There is one for exactly the parameters that are accepted, if the histories of
all orders are in view and all discounts are numbers. -/
theorem estimate_sums_to_one {order : Nat} (positive : 0 < order) {corpus : List Char}
    {start model : NgramModel} (created : NgramModel.create order = some start)
    (loads : start.loadCorpus corpus = some model) {smoothings : List KneserNeySmoothing}
    (each : smoothings.length = order) (params : List Rat) :
    (∀ lm, NgramLM.estimate model smoothings params = some lm →
      (∀ ngram, 0 ≤ lm.prob ngram) ∧ ∀ hist,
        ∑ word ∈ Finset.range model.vocab.words.size, lm.prob (hist ++ [word]) = 1) ∧
    ((NgramLM.estimate model smoothings params).isSome ↔ NgramLM.inView model = true ∧
      NgramLM.accepts smoothings params = true ∧
        LevelsDefined 1 model.levels model.backoffs smoothings) ∧
    (Inner order (getlines corpus) → NgramLM.inView model = true) ∧
    (NgramLM.defParams model smoothings = params.map some →
      NgramLM.accepts smoothings params = true) := by
  obtain ⟨isSome, defaults⟩ := estimate_isSome_iff positive created loads each params
  refine ⟨?_, isSome, fun inner => (sorted_of_loadCorpus positive created loads inner).inView,
    defaults⟩
  intro lm ran
  obtain ⟨sorted, known⟩ := known_of_loadCorpus positive created loads
  have estimated := (sorted.estimated known ran).2
  exact ⟨estimated.prob_nonneg, estimated.sum_prob⟩

/-- One sentence, and one discount for each order. -/
theorem estimate_sums_to_one_two :
    ∃ start model lm, NgramModel.create 2 = some start ∧
      start.loadCorpus "a b\n".toList = some model ∧
      NgramLM.estimate model (List.replicate 2 ⟨1, true⟩) [1 / 2, 1 / 2] = some lm ∧
      (∀ ngram, 0 ≤ lm.prob ngram) ∧ ∀ hist,
        ∑ word ∈ Finset.range model.vocab.words.size, lm.prob (hist ++ [word]) = 1 := by
  obtain ⟨start, model, created, loads, inner⟩ := exists_model_two
  obtain ⟨lm, ran⟩ := @exists_estimate_two _ _ created loads inner [1 / 2, 1 / 2] (by decide +kernel)
  exact ⟨start, model, lm, created, loads, ran,
    (estimate_sums_to_one two_pos created loads List.length_replicate _).1 lm ran⟩

end Mitlm
