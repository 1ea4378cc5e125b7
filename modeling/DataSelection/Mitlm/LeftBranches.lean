/-
The adjusted counts of Kneser-Ney smoothing.

The n-grams of the next order that back off to an n-gram are those with one more word in front,
and each of them is listed once; so the branches to the left are the words that were met there.
-/

import DataSelection.Mitlm.Probabilities

namespace Mitlm

open Library KneserNeySmoothing

/-! ### Branches -/

theorem getD_leftBranches {size : Nat} {hoCounts hoBackoffs : List Nat} {index : Nat}
    (inside : index < size) :
    (leftBranches size hoCounts hoBackoffs).getD index 0 =
      (hoCounts.zip hoBackoffs).countP (fun pair => decide (pair.1 > 0 ∧ pair.2 = index)) := by
  have counted : ∀ (pairs : List (Nat × Nat)) (start : List Nat), index < start.length →
      (pairs.foldl (fun effCounts pair =>
        if pair.1 > 0 then effCounts.modify pair.2 (· + 1) else effCounts) start).getD index 0 =
          start.getD index 0 + pairs.countP (fun pair => decide (pair.1 > 0 ∧ pair.2 = index)) := by
    intro pairs
    induction pairs with
    | nil => exact fun start _ => rfl
    | cons pair pairs ih =>
        intro start isStart
        rw [List.foldl_cons, List.countP_cons]
        by_cases positive : pair.1 > 0
        · rw [if_pos positive, ih _ (by rw [List.length_modify]; exact isStart),
            getD_modify_add isStart]
          simp only [positive, true_and, decide_eq_true_eq]
          omega
        · rw [if_neg positive, ih start isStart]
          simp only [positive, false_and, decide_false, Bool.false_eq_true, if_false, Nat.add_zero]
  have isZero : (List.replicate size 0).getD index 0 = 0 := by
    rw [List.getD_eq_getElem?_getD, List.getElem?_replicate, if_pos inside, Option.getD_some]
  rw [leftBranches, counted _ _ (by rw [List.length_replicate]; exact inside), isZero, Nat.zero_add]

/-- The n-grams that back off to one are those with one more word in front. -/
theorem countP_zip_tails {below grams : List (List Word)} {backoffs : List Nat}
    {tally : List Word → Nat} (tails : Tails below grams backoffs) (distinct : below.Nodup)
    {index : Nat} {gram : List Word} (isGram : below[index]? = some gram) :
    ((grams.map tally).zip backoffs).countP (fun pair => decide (pair.1 > 0 ∧ pair.2 = index)) =
      grams.countP (fun other => decide (tally other > 0 ∧ other.tail = gram)) := by
  induction grams generalizing backoffs with
  | nil => rfl
  | cons first rest ih =>
      obtain ⟨backoff, isBackoff, isTail⟩ := tails 0 first rfl
      cases backoffs with
      | nil => cases isBackoff
      | cons head later =>
          obtain rfl := Option.some.inj isBackoff
          have laterTails : Tails below rest later := fun place other isOther =>
            tails (place + 1) other isOther
          have later := ih laterTails
          have same : head = index ↔ first.tail = gram := by
            constructor
            · rintro rfl
              exact Option.some.inj (isTail.symm.trans isGram)
            · rintro rfl
              exact (List.getElem?_inj (List.getElem?_eq_some_iff.mp isTail).1 distinct).mp
                (isTail.trans isGram.symm)
          rw [List.map_cons, List.zip_cons_cons, List.countP_cons, List.countP_cons, later]
          simp only [same]

/-- Each of them stands for its first word. -/
theorem countP_tails {grams : List (List Word)} {words gram : List Word} {tally : List Word → Nat}
    (gramsDistinct : grams.Nodup) (wordsDistinct : words.Nodup)
    (counted : ∀ other, other.length = gram.length + 1 → 0 < tally other → other ∈ grams)
    (filled : ∀ other ∈ grams, other ≠ [])
    (known : ∀ word rest, 0 < tally (word :: rest) → word ∈ words) :
    grams.countP (fun other => decide (tally other > 0 ∧ other.tail = gram)) =
      words.countP (fun word => decide (tally (word :: gram) > 0)) := by
  have perm : (grams.filter (fun other => decide (tally other > 0 ∧ other.tail = gram))).Perm
      ((words.filter (fun word => decide (tally (word :: gram) > 0))).map (fun word => word :: gram)) := by
    refine (List.perm_ext_iff_of_nodup (gramsDistinct.filter _)
      ((wordsDistinct.filter _).map (fun _ _ same => (List.cons.inj same).1))).mpr ?_
    intro other
    rw [List.mem_filter, List.mem_map, decide_eq_true_eq]
    constructor
    · intro ⟨member, positive, isTail⟩
      obtain ⟨word, rest, rfl⟩ := List.exists_cons_of_ne_nil (filled other member)
      obtain rfl : rest = gram := isTail
      exact ⟨word, List.mem_filter.mpr ⟨known word rest positive, decide_eq_true positive⟩, rfl⟩
    · rintro ⟨word, isWord, rfl⟩
      have positive := of_decide_eq_true (List.mem_filter.mp isWord).2
      exact ⟨counted _ List.length_cons positive, positive, rfl⟩
  have sameLength := perm.length_eq
  rw [List.length_map] at sameLength
  rw [List.countP_eq_length_filter, List.countP_eq_length_filter, sameLength]

/-- The counts of a level, n-gram by n-gram. -/
theorem Level.Listed.counts_eq {words : List Word} {below : List (List Word)} {order : Nat}
    {tally : List Word → Nat} {level : Level} (listed : level.Listed words below order tally) :
    level.counts = (gramsOf words below level.vector).map tally := by
  have sameLength : level.counts.length = (gramsOf words below level.vector).length := by
    rw [listed.exact, length_gramsOf]
  refine List.ext_getElem (by rw [sameLength, List.length_map]) ?_
  intro index inside _
  have isGram := List.getElem?_eq_getElem (sameLength ▸ inside)
  have isCount := listed.count index _ isGram
  rw [getD_of_getElem? (List.getElem?_eq_getElem inside)] at isCount
  rw [List.getElem_map]
  exact isCount

/-- Below the last order an n-gram of a corpus is counted for each word that was met before it, or
as often as it occurs if there is none. -/
theorem effCounts_eq {order : Nat} (positive : 0 < order) {corpus : List Char}
    {start model : NgramModel} (created : NgramModel.create order = some start)
    (loads : start.loadCorpus corpus = some model) {place : Nat} (below : place + 1 < order) :
    ∃ level hoLevel hoBackoffs, model.levels[place]? = some level ∧
      model.levels[place + 1]? = some hoLevel ∧ model.backoffs[place + 1]? = some hoBackoffs ∧
      ∀ (index : Nat) gram,
        (gramsAt model.vocab.words.entries (place + 1) [[]] model.levels)[index]? = some gram →
          (effCounts level (some (hoLevel, hoBackoffs))).getD index 0 =
            if model.vocab.words.entries.countP
                (fun word => decide (total (getlines corpus) (word :: gram) > 0)) = 0
            then total (getlines corpus) gram
            else model.vocab.words.entries.countP
              (fun word => decide (total (getlines corpus) (word :: gram) > 0)) := by
  obtain ⟨sorted, known⟩ := known_of_loadCorpus positive created loads
  have listed := sorted.levels.listed
  have distinct : model.vocab.words.entries.Nodup := sorted.isOpen.valid.holds.distinct
  have formed := fun place level isLevel => (@LevelsListed.level _ _ _ _ _ listed place level isLevel).formed
  have inside : place + 1 < model.levels.length := by
    rw [sorted.orders]
    exact below
  have isLevel := List.getElem?_eq_getElem (Nat.lt_of_succ_lt inside)
  have isHigher := List.getElem?_eq_getElem inside
  obtain ⟨hoBackoffs, isBackoffs, tails⟩ := sorted.backed.tails inside
  refine ⟨_, _, hoBackoffs, isLevel, isHigher, isBackoffs, ?_⟩
  intro index gram isGram
  have baseHere := base_gramsAt distinct formed (Nat.lt_of_succ_lt inside)
  have baseHigher := base_gramsAt distinct formed inside
  have isLength : gram.length = place + 1 := Nat.succ.inj (baseHere.lengths gram (List.mem_of_getElem? isGram))
  have listedHere := listed.level isLevel
  have listedHigher := listed.level isHigher
  have isCount := listedHere.count index gram (by rw [← gramsAt_succ isLevel]; exact isGram)
  have isIndex : index < (model.levels[place]).vector.size := by
    have isInside := (List.getElem?_eq_some_iff.mp isGram).1
    rw [gramsAt_succ isLevel, gramsOf, List.length_map] at isInside
    exact isInside
  have branches : (leftBranches (model.levels[place]).vector.size (model.levels[place + 1]).counts
      hoBackoffs).getD index 0 = model.vocab.words.entries.countP
        (fun word => decide (total (getlines corpus) (word :: gram) > 0)) := by
    rw [getD_leftBranches isIndex, listedHigher.counts_eq, ← gramsAt_succ isHigher,
      countP_zip_tails tails baseHere.belowDistinct isGram]
    refine countP_tails baseHigher.belowDistinct distinct ?_ ?_ ?_
    · intro other isLong counted
      rw [gramsAt_succ isHigher]
      exact listedHigher.listed other (by omega) counted
    · intro other member
      refine List.ne_nil_of_length_pos ?_
      have isLong := baseHigher.lengths other member
      omega
    · intro word rest counted
      have single : 0 < total (getlines corpus) [word] := total_take counted (Nat.le_add_left 1 rest.length)
      have isFirst := List.getElem?_eq_getElem (show 0 < model.levels.length by omega)
      have isListed := (listed.level isFirst).listed [word] rfl single
      obtain ⟨ngram, isEntry, same⟩ := List.mem_map.mp isListed
      have isWord := (listed.level isFirst).formed.word ngram isEntry
      have sameLast := (List.append_inj' (show _ ++ _ = [] ++ [word] from same) rfl).2
      rw [getD_of_getElem? (List.getElem?_eq_getElem isWord)] at sameLast
      rw [← List.singleton_injective sameLast]
      exact List.getElem_mem isWord
  have isBranch := List.getElem?_eq_getElem (show index < (leftBranches
      (model.levels[place]).vector.size (model.levels[place + 1]).counts hoBackoffs).length by
    rw [length_leftBranches]
    exact isIndex)
  have isOwn := List.getElem?_eq_getElem
    (show index < (model.levels[place]).counts.length by
      rw [listedHere.exact]
      exact isIndex)
  rw [getD_of_getElem? isBranch] at branches
  rw [getD_of_getElem? isOwn] at isCount
  rw [effCounts, List.getD_eq_getElem?_getD, List.getElem?_zipWith, isBranch, isOwn, branches,
    isCount]
  rfl

theorem effCounts_eq_two : ∃ start model, NgramModel.create 2 = some start ∧
    start.loadCorpus "a b\n".toList = some model ∧
    ∃ level hoLevel hoBackoffs, model.levels[0]? = some level ∧
      model.levels[0 + 1]? = some hoLevel ∧ model.backoffs[0 + 1]? = some hoBackoffs ∧
      ∀ (index : Nat) gram,
        (gramsAt model.vocab.words.entries (0 + 1) [[]] model.levels)[index]? = some gram →
          (effCounts level (some (hoLevel, hoBackoffs))).getD index 0 =
            if model.vocab.words.entries.countP
                (fun word => decide (total (getlines "a b\n".toList) (word :: gram) > 0)) = 0
            then total (getlines "a b\n".toList) gram
            else model.vocab.words.entries.countP
              (fun word => decide (total (getlines "a b\n".toList) (word :: gram) > 0)) := by
  obtain ⟨start, model, created, loads, _⟩ := exists_model_two
  exact ⟨start, model, created, loads,
    effCounts_eq two_pos created loads (show 0 + 1 < 2 from Nat.one_lt_two)⟩

end Mitlm
