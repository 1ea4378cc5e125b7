/-
The language model of a corpus that was counted on several machines.

The merged counts list the n-grams in another order than the counts of the whole corpus, but
with the same counts.  So both files give models that are estimated alike, for all parameters.
-/

import DataSelection.Mitlm.ByWords
import DataSelection.Mitlm.Limiting

namespace Mitlm

open Library NgramModel

section

variable {order : Nat} {tally : List Word → Nat} {model other : NgramModel}

/-- What an estimation stores, from the likelihood of order 0 on. -/
theorem NgramModel.Sorted.exists_stores (ordered : model.Sorted order order tally)
    (smoothings : List KneserNeySmoothing) (params : List Rat) {prob : Rat}
    (isProb : NgramLM.setSmoothingAlgs model = some prob) :
    ((NgramLM.estimate model smoothings params).isSome ↔
      (estimateLevelsOf tally true (fun _ => prob)
        (gramLists model.vocab.words.entries [[]] model.levels) smoothings params).isSome) ∧
    ∀ lm, NgramLM.estimate model smoothings params = some lm →
      ∃ all, estimateLevelsOf tally true (fun _ => prob)
          (gramLists model.vocab.words.entries [[]] model.levels) smoothings params = some all ∧
        lm.Stores model.vocab.words.entries tally prob all ∧ lm.model = model := by
  have distinct : model.vocab.words.entries.Nodup := ordered.isOpen.valid.holds.distinct
  have isLevels := estimateLevels_eq (base_nil distinct) ordered.levels.listed ordered.backed
    (NgramLM.hists_of_inView ordered.inView) true smoothings params (fun _ => prob)
  have isStart : ([[]] : List (List Word)).map (fun _ => prob) = [prob] := rfl
  rw [isStart, List.length_singleton] at isLevels
  simp only [NgramLM.estimate, isProb, isLevels, Option.bind_eq_bind, Option.bind_some]
  cases isAll : estimateLevelsOf tally true (fun _ => prob)
      (gramLists model.vocab.words.entries [[]] model.levels) smoothings params with
  | none =>
      constructor
      · exact Iff.rfl
      · intro lm impossible
        cases impossible
  | some all =>
      constructor
      · exact iff_of_true rfl rfl
      · intro lm isLM
        cases isLM
        refine ⟨all, rfl, ⟨distinct, ordered.levels.listed, ?_, rfl, rfl⟩, rfl⟩
        rw [length_estimateLevelsOf isAll, length_gramLists]

/-- Models in order that count the same list the same n-grams. -/
theorem NgramModel.Sorted.gramsAt_perm (ordered : model.Sorted order order tally)
    (otherOrdered : other.Sorted order order tally) (endCounted : 0 < tally [Vocab.endSymbol])
    {width : Nat} (within : width ≤ order) :
    (gramsAt model.vocab.words.entries width [[]] model.levels).Perm
      (gramsAt other.vocab.words.entries width [[]] other.levels) := by
  cases width with
  | zero => exact List.Perm.refl _
  | succ width =>
      obtain ⟨distinct, listed⟩ := ordered.grams endCounted within
      obtain ⟨otherDistinct, otherListed⟩ := otherOrdered.grams endCounted within
      refine (List.perm_ext_iff_of_nodup distinct otherDistinct).mpr ?_
      intro gram
      rw [listed, otherListed]

theorem NgramModel.Sorted.lists_iff (ordered : model.Sorted order order tally)
    (otherOrdered : other.Sorted order order tally) (endCounted : 0 < tally [Vocab.endSymbol])
    (gram : List Word) : model.Lists model.vocab.words.entries gram ↔
      other.Lists other.vocab.words.entries gram := by
  rw [NgramModel.Lists, NgramModel.Lists, ordered.orders, otherOrdered.orders]
  exact and_congr_right (fun fits =>
    (ordered.gramsAt_perm otherOrdered endCounted fits).mem_iff)

theorem NgramModel.Sorted.gramLists_perm (ordered : model.Sorted order order tally)
    (otherOrdered : other.Sorted order order tally) (endCounted : 0 < tally [Vocab.endSymbol]) :
    List.Forall₂ List.Perm (gramLists model.vocab.words.entries [[]] model.levels)
      (gramLists other.vocab.words.entries [[]] other.levels) := by
  refine List.forall₂_iff_get.mpr ⟨?_, ?_⟩
  · rw [length_gramLists, length_gramLists, ordered.orders, otherOrdered.orders]
  · intro place inside otherInside
    rw [length_gramLists] at inside otherInside
    have isHere := @getElem?_gramLists model.vocab.words.entries [[]] _ _ inside
    have isThere := @getElem?_gramLists other.vocab.words.entries [[]] _ _ otherInside
    rw [List.get_eq_getElem, List.get_eq_getElem,
      (List.getElem?_eq_some_iff.mp isHere).2, (List.getElem?_eq_some_iff.mp isThere).2]
    exact ordered.gramsAt_perm otherOrdered endCounted (ordered.orders ▸ inside)

theorem NgramModel.Sorted.setSmoothingAlgs_eq (ordered : model.Sorted order order tally)
    (otherOrdered : other.Sorted order order tally) (endCounted : 0 < tally [Vocab.endSymbol])
    (positive : 0 < order) :
    NgramLM.setSmoothingAlgs model = NgramLM.setSmoothingAlgs other := by
  have unigrams : ∀ {model : NgramModel}, model.Sorted order order tally → ∃ level,
      model.levels.head? = some level ∧
        level.counts = (gramsAt model.vocab.words.entries 1 [[]] model.levels).map tally := by
    intro model ordered
    have inside : 0 < model.levels.length := by
      rw [ordered.orders]
      exact positive
    have isLevel := List.getElem?_eq_getElem inside
    refine ⟨_, List.head?_eq_getElem?.trans isLevel, ?_⟩
    rw [(ordered.levels.listed.level isLevel).counts_eq, gramsAt_succ isLevel]
  obtain ⟨level, isLevel, isCounts⟩ := unigrams ordered
  obtain ⟨otherLevel, isOther, otherCounts⟩ := unigrams otherOrdered
  have perm := (ordered.gramsAt_perm otherOrdered endCounted positive).map tally
  rw [NgramLM.setSmoothingAlgs, NgramLM.setSmoothingAlgs, if_pos ordered.inView,
    if_pos otherOrdered.inView]
  simp only [zeroProb, isLevel, isOther, Option.bind_eq_bind, Option.bind_some, isCounts,
    otherCounts, perm.countP_eq]

/-- Models in order that count the same are estimated alike. -/
theorem NgramModel.Sorted.estimate_alike (positive : 0 < order)
    (ordered : model.Sorted order order tally) (otherOrdered : other.Sorted order order tally)
    (endCounted : 0 < tally [Vocab.endSymbol]) (smoothings : List KneserNeySmoothing)
    (params : List Rat) :
    ((NgramLM.estimate model smoothings params).isSome ↔
      (NgramLM.estimate other smoothings params).isSome) ∧
    ∀ lm otherLM, NgramLM.estimate model smoothings params = some lm →
      NgramLM.estimate other smoothings params = some otherLM →
      ∀ gram ids otherIds, Spells model.vocab.words.entries ids gram →
        Spells other.vocab.words.entries otherIds gram → lm.prob ids = otherLM.prob otherIds := by
  have sameZero := ordered.setSmoothingAlgs_eq otherOrdered endCounted positive
  cases isProb : NgramLM.setSmoothingAlgs model with
  | none =>
      have otherNone := sameZero.symm.trans isProb
      simp only [NgramLM.estimate, isProb, otherNone, Option.bind_eq_bind, Option.bind_none]
      constructor
      · trivial
      · intro lm otherLM impossible
        cases impossible
  | some prob =>
      obtain ⟨isSome, stores⟩ := ordered.exists_stores smoothings params isProb
      obtain ⟨otherIsSome, otherStores⟩ :=
        otherOrdered.exists_stores smoothings params (sameZero.symm.trans isProb)
      have sameLevels := estimateLevelsOf_perm tally
        (ordered.gramLists_perm otherOrdered endCounted) true (fun _ => prob) smoothings params
      constructor
      · rw [isSome, otherIsSome, sameLevels]
      · intro lm otherLM ran otherRan gram ids otherIds spells otherSpells
        obtain ⟨all, isAll, stored, isModel⟩ := stores lm ran
        obtain ⟨otherAll, isOtherAll, otherStored, isOtherModel⟩ := otherStores otherLM otherRan
        have sameAll : otherAll = all :=
          Option.some.inj (isOtherAll.symm.trans (sameLevels.symm.trans isAll))
        rw [sameAll] at otherStored
        refine stored.prob_congr otherStored ?_ spells otherSpells
        rw [isModel, isOtherModel]
        exact ordered.lists_iff otherOrdered endCounted

end

theorem Selection.all_counts (counts : List Word → Nat) : Selection.all.counts counts = counts :=
  funext (fun _ => if_pos rfl)

section

variable {order max_threads : Nat} (positive : 0 < order) {dict : Option (List Char)}
  {dict_words : Option (List Word)} (isDict : dict.map dictWords = dict_words.map some)
  {corpus first : List Char} {later : List (List Char)}
  (isSplit : corpusChunks max_threads corpus = some (first :: later))
  (roots : Roots (allowedBy dict_words) order (getlines first))
  (inner : ∀ chunk ∈ first :: later, Inner order (getlines chunk))
  (keeps : ∀ chunk ∈ later, Keeps (allowedBy dict_words) (getlines chunk))
  (readable : Readable (getlines corpus)) (narrow : Narrow order (total (getlines corpus)))

include positive isDict isSplit roots inner keeps readable narrow

/-- The language model that is made of a corpus is the same on any number of machines: the merged
counts are read into a model that is estimated for the same parameters as the model of the counts of
the whole corpus, and with these both give all n-grams the same probabilities. -/
theorem estimate_threads :
    ∃ start merged whole model other, NgramModel.create order = some start ∧
      createCounts max_threads dict order corpus = some merged ∧
      createCounts 1 dict order corpus = some whole ∧
      NgramLM.loadCounts start merged = some model ∧ NgramLM.loadCounts start whole = some other ∧
      NgramLM.inView model = true ∧ NgramLM.inView other = true ∧
      ∀ smoothings params,
        ((NgramLM.estimate model smoothings params).isSome ↔
          (NgramLM.estimate other smoothings params).isSome) ∧
        ∀ lm otherLM, NgramLM.estimate model smoothings params = some lm →
          NgramLM.estimate other smoothings params = some otherLM →
          ∀ gram ids otherIds, Spells model.vocab.words.entries ids gram →
            Spells other.vocab.words.entries otherIds gram → lm.prob ids = otherLM.prob otherIds := by
  obtain ⟨selection, whole, rows, rootsWhole, innerWhole, orderedWhole, single, ran, made⟩ :=
    exists_createCounts positive isDict isSplit roots inner keeps readable narrow
  obtain ⟨start, isStart, ready⟩ := exists_start order
  have countable := countable_total readable
  have endCounted : 0 < selection.counts (total (getlines corpus)) [Vocab.endSymbol] :=
    Selection.counts_pos_iff.mpr ⟨rootsWhole.end_chosen, innerWhole.endCounted⟩
  obtain ⟨other, isOther, otherOrdered, _⟩ := loadFirst_sorted positive ready selection countable
    narrow innerWhole.endCounted rootsWhole.end_chosen orderedWhole rootsWhole.inner_counted
    rootsWhole.opening_counted
  obtain ⟨model, isModel, ordered⟩ : ∃ model, NgramLM.loadCounts start rows = some model ∧
      model.Sorted order order (selection.counts (total (getlines corpus))) := by
    rcases made with same | ⟨merged, orderedMerged, same⟩
    · rw [same]
      exact ⟨other, isOther, otherOrdered⟩
    · have isAll := Selection.all_counts (selection.counts (total (getlines corpus)))
      obtain ⟨model, isModel, ordered, _⟩ := loadFirst_sorted positive ready Selection.all
        (selection.countable countable) (narrow.mono (selection.counts_le _)) endCounted rfl
        orderedMerged
        (by
          rw [isAll]
          exact rootsWhole.inner_counted)
        (by
          rw [isAll]
          exact rootsWhole.opening_counted)
      rw [isAll] at ordered
      have allRows : filterLines Selection.all.row merged.saveCounts = merged.saveCounts :=
        filterLines_all (ended_writeLines _)
      rw [allRows] at isModel
      rw [same]
      exact ⟨model, isModel, ordered⟩
  exact ⟨start, rows, _, model, other, isStart, ran, single, isModel, isOther, ordered.inView,
    otherOrdered.inView,
    fun smoothings params => ordered.estimate_alike positive otherOrdered endCounted smoothings params⟩

end

/-- The model of a corpus of two lines that is made on two machines, with a dictionary without the
last word. -/
theorem estimate_threads_two :
    ∃ start merged whole model other, NgramModel.create 2 = some start ∧
      createCounts 2 (some "<s>\nA a\nb b\n".toList) 2 "a b\nb a c\n".toList = some merged ∧
      createCounts 1 (some "<s>\nA a\nb b\n".toList) 2 "a b\nb a c\n".toList = some whole ∧
      NgramLM.loadCounts start merged = some model ∧ NgramLM.loadCounts start whole = some other ∧
      NgramLM.inView model = true ∧ NgramLM.inView other = true ∧
      ∀ smoothings params,
        ((NgramLM.estimate model smoothings params).isSome ↔
          (NgramLM.estimate other smoothings params).isSome) ∧
        ∀ lm otherLM, NgramLM.estimate model smoothings params = some lm →
          NgramLM.estimate other smoothings params = some otherLM →
          ∀ gram ids otherIds, Spells model.vocab.words.entries ids gram →
            Spells other.vocab.words.entries otherIds gram → lm.prob ids = otherLM.prob otherIds := by
  obtain ⟨isDict, isSplit, roots, inner, keeps, readable, narrow⟩ := threads_two
  exact @estimate_threads 2 2 two_pos (some "<s>\nA a\nb b\n".toList)
    (some [['<', 's', '>'], ['a'], ['b']]) (congrArg some isDict) _ _ _ isSplit roots inner keeps
    readable narrow

end Mitlm
