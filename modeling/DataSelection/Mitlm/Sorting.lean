/-
Sorting a model renumbers its n-grams without changing them.

Whether or not a level was put in order, it lists the same n-grams as before with the same
counts, over the renumbered words and the renumbered level below.
-/

import DataSelection.Mitlm.Loading

namespace Mitlm

open Library

/-! ### Counts in a new order -/

theorem length_foldl_set (pairs : List (Nat × Nat)) (items : List Nat) :
    (pairs.foldl (fun sorted pair => sorted.set pair.1 pair.2) items).length = items.length := by
  induction pairs generalizing items with
  | nil => rfl
  | cons pair pairs ih => rw [List.foldl_cons, ih, List.length_set]

theorem foldl_set_of_notMem {pairs : List (Nat × Nat)} {key : Nat}
    (absent : key ∉ pairs.map Prod.fst) (items : List Nat) :
    (pairs.foldl (fun sorted pair => sorted.set pair.1 pair.2) items)[key]? = items[key]? := by
  induction pairs generalizing items with
  | nil => rfl
  | cons pair pairs ih =>
      rw [List.map_cons, List.mem_cons, not_or] at absent
      rw [List.foldl_cons, ih absent.2, List.getElem?_set_ne (Ne.symm absent.1)]

theorem foldl_set_of_mem {pairs : List (Nat × Nat)} (distinct : (pairs.map Prod.fst).Nodup)
    {key value : Nat} (member : (key, value) ∈ pairs) {items : List Nat}
    (inside : key < items.length) :
    (pairs.foldl (fun sorted pair => sorted.set pair.1 pair.2) items)[key]? = some value := by
  induction pairs generalizing items with
  | nil => cases member
  | cons pair pairs ih =>
      rw [List.map_cons, List.nodup_cons] at distinct
      rw [List.foldl_cons]
      rcases List.mem_cons.mp member with rfl | later
      · rw [foldl_set_of_notMem distinct.1, List.getElem?_set_self inside]
      · exact ih distinct.2 later (by rw [List.length_set]; exact inside)

theorem getD_applySort {ngramMap data : List Nat} (distinct : ngramMap.Nodup)
    (fits : ngramMap.length ≤ data.length) (bounded : ∀ index ∈ ngramMap, index < ngramMap.length)
    {index : Nat} (inside : index < ngramMap.length) :
    (applySort ngramMap data).getD (ngramMap.getD index 0) 0 = data.getD index 0 := by
  have isTo := List.getElem?_eq_getElem inside
  have dataInside : index < data.length := by omega
  have isValue := List.getElem?_eq_getElem dataInside
  have member : (ngramMap[index], data[index]) ∈ ngramMap.zip data := by
    refine List.mem_of_getElem? (i := index) ?_
    rw [List.getElem?_zip_eq_some]
    exact ⟨isTo, isValue⟩
  have keys : ((ngramMap.zip data).map Prod.fst).Nodup := by
    rw [List.map_fst_zip fits]
    exact distinct
  have room : ngramMap[index] < (List.replicate ngramMap.length 0).length := by
    rw [List.length_replicate]
    exact bounded _ (List.getElem_mem inside)
  rw [getD_of_getElem? isTo, getD_of_getElem? isValue, applySort]
  exact getD_of_getElem? (foldl_set_of_mem keys member room)

/-! ### Levels -/

/-- A level that lists what a tally has met, without the claim that lookups find it.  They do if
its histories are in view. -/
structure Level.Listed (words : List Word) (below : List (List Word)) (order : Nat)
    (tally : List Word → Nat) (level : Level) : Prop where
  formed : level.Formed words below
  exact : level.counts.length = level.vector.size
  count : ∀ (index : Nat) gram, (gramsOf words below level.vector)[index]? = some gram →
    level.counts.getD index 0 = tally gram
  listed : ∀ gram, gram.length = order → 0 < tally gram →
    gram ∈ gramsOf words below level.vector
  seen : ∀ gram ∈ gramsOf words below level.vector, 0 < tally gram ∨ gram = [Vocab.endSymbol]
  viewed : level.hists.length = level.vector.size → level.vector.Valid ngramHash

theorem Level.hists_eq {level : Level} (inView : level.hists.length = level.vector.size) :
    level.hists = level.vector.entries.map Prod.fst := by
  rw [Level.hists] at inView ⊢
  split at inView
  · next viewed => exact if_pos viewed
  · next hidden =>
      have isEmpty : level.vector.entries = [] := List.length_eq_zero_iff.mp inView.symm
      rw [if_neg hidden, isEmpty, List.map_nil]

def LevelsListed (words : List Word) (tally : List Word → Nat) :
    Nat → List (List Word) → List Level → Prop
  | _, _, [] => True
  | order, below, level :: levels =>
      level.Listed words below order tally ∧
        LevelsListed words tally (order + 1) (gramsOf words below level.vector) levels

/-- The same items in another order, each where the map says. -/
structure Moves {α : Type} (before after : List α) (map : List Nat) : Prop where
  perm : after.Perm before
  moved : ∀ index < before.length, after[map.getD index 0]? = before[index]?

theorem getD_of_same {α : Type} {items others : List α} {index other : Nat} {default : α}
    (same : items[index]? = others[other]?) :
    items.getD index default = others.getD other default := by
  rw [List.getD_eq_getElem?_getD, List.getD_eq_getElem?_getD, same]

section

variable {words moreWords : List Word} {below moreBelow : List (List Word)} {order : Nat}
  {tally : List Word → Nat} {level : Level} {vocabMap boNgramMap : List Nat}

/-- Renumbering changes no n-gram. -/
theorem gram_renumber (formed : level.Formed words below) (wordsMove : Moves words moreWords vocabMap)
    (belowMove : Moves below moreBelow boNgramMap) {ngram : Ngram}
    (member : ngram ∈ level.vector.entries) :
    moreBelow.getD (NgramVector.renumber vocabMap boNgramMap ngram).1 [] ++
        [moreWords.getD (NgramVector.renumber vocabMap boNgramMap ngram).2 []] =
      below.getD ngram.1 [] ++ [words.getD ngram.2 []] := by
  have isFront := belowMove.moved ngram.1 (formed.hist ngram member)
  have isLast := wordsMove.moved ngram.2 (formed.word ngram member)
  exact congrArg₂ (fun front last => front ++ [last]) (getD_of_same isFront) (getD_of_same isLast)

theorem nodup_renumber (formed : level.Formed words below) (base : Base words order below)
    (wordsMove : Moves words moreWords vocabMap) (belowMove : Moves below moreBelow boNgramMap) :
    (level.vector.entries.map (NgramVector.renumber vocabMap boNgramMap)).Nodup := by
  refine List.Nodup.map_on ?_ formed.distinct
  intro left isLeft right isRight same
  have sameGram := (gram_renumber formed wordsMove belowMove isLeft).symm.trans
    ((congrArg (fun ngram : Ngram => moreBelow.getD ngram.1 [] ++ [moreWords.getD ngram.2 []])
      same).trans (gram_renumber formed wordsMove belowMove isRight))
  obtain ⟨sameFront, sameLast⟩ := List.append_inj' sameGram rfl
  apply Prod.ext
  · exact getD_injective base.belowDistinct (formed.hist left isLeft) (formed.hist right isRight)
      sameFront
  · exact getD_injective base.wordsDistinct (formed.word left isLeft) (formed.word right isRight)
      (List.singleton_injective sameLast)

theorem moves_gramsOf (formed : level.Formed words below)
    (wordsMove : Moves words moreWords vocabMap) (belowMove : Moves below moreBelow boNgramMap)
    {after : NgramVector} {ngramMap : List Nat}
    (sorted : NgramVector.Sorted
      (level.vector.entries.map (NgramVector.renumber vocabMap boNgramMap)) after ngramMap) :
    Moves (gramsOf words below level.vector) (gramsOf moreWords moreBelow after) ngramMap := by
  constructor
  · have moved := sorted.perm.map
      (fun ngram : Ngram => moreBelow.getD ngram.1 [] ++ [moreWords.getD ngram.2 []])
    rw [List.map_map] at moved
    refine moved.trans (List.Perm.of_eq (List.map_congr_left ?_))
    intro ngram member
    exact gram_renumber formed wordsMove belowMove member
  · intro index inside
    rw [gramsOf, List.length_map] at inside
    have isEntry := List.getElem?_eq_getElem inside
    have isMoved := sorted.moved index (by rw [List.length_map]; exact inside)
    rw [List.getElem?_map, isEntry] at isMoved
    rw [gramsOf, List.getElem?_map, isMoved, gramsOf, List.getElem?_map, isEntry]
    exact congrArg some (gram_renumber formed wordsMove belowMove (List.getElem_mem inside))

theorem formed_of_sorted (formed : level.Formed words below) (base : Base words order below)
    (wordsMove : Moves words moreWords vocabMap) (belowMove : Moves below moreBelow boNgramMap)
    {after : NgramVector} {ngramMap : List Nat}
    (sorted : NgramVector.Sorted
      (level.vector.entries.map (NgramVector.renumber vocabMap boNgramMap)) after ngramMap)
    (counts : List Nat) (isViewed : Bool) :
    Level.Formed moreWords moreBelow
      { vector := after, counts := counts, isViewed := isViewed } := by
  have inside : ∀ ngram ∈ after.entries, ngram.1 < moreBelow.length ∧ ngram.2 < moreWords.length := by
    intro ngram member
    obtain ⟨before, isBefore, rfl⟩ := List.mem_map.mp (sorted.perm.mem_iff.mp member)
    have isFront := belowMove.moved before.1 (formed.hist before isBefore)
    have isLast := wordsMove.moved before.2 (formed.word before isBefore)
    rw [List.getElem?_eq_getElem (formed.hist before isBefore)] at isFront
    rw [List.getElem?_eq_getElem (formed.word before isBefore)] at isLast
    exact ⟨(List.getElem?_eq_some_iff.mp isFront).1, (List.getElem?_eq_some_iff.mp isLast).1⟩
  constructor
  · exact sorted.perm.nodup_iff.mpr (nodup_renumber formed base wordsMove belowMove)
  · exact fun ngram member => (inside ngram member).1
  · exact fun ngram member => (inside ngram member).2

theorem bounded_of_sorted {mapped : List Ngram} {after : NgramVector} {ngramMap : List Nat}
    (sorted : NgramVector.Sorted mapped after ngramMap) :
    ∀ index ∈ ngramMap, index < ngramMap.length := by
  intro target member
  obtain ⟨index, found⟩ := List.mem_iff_getElem?.mp member
  have inside := (List.getElem?_eq_some_iff.mp found).1
  rw [sorted.length] at inside
  have isMoved := sorted.moved index inside
  rw [getD_of_getElem? found, List.getElem?_eq_getElem inside] at isMoved
  have bound := (List.getElem?_eq_some_iff.mp isMoved).1
  rw [sorted.perm.length_eq] at bound
  rw [sorted.length]
  exact bound

theorem nodup_of_sorted {mapped : List Ngram} {after : NgramVector} {ngramMap : List Nat}
    (sorted : NgramVector.Sorted mapped after ngramMap) (distinct : mapped.Nodup) :
    ngramMap.Nodup := by
  rw [List.nodup_iff_getElem?_ne_getElem?]
  intro first second before inside same
  have firstInside : first < mapped.length := by
    rw [← sorted.length]
    omega
  have secondInside : second < mapped.length := by
    rw [← sorted.length]
    exact inside
  have isFirst := sorted.moved first firstInside
  have isSecond := sorted.moved second secondInside
  rw [getD_of_same same, isSecond] at isFirst
  have equal := (List.getElem?_inj secondInside distinct).mp isFirst
  omega

theorem Level.Holds.sort_eq (holds : level.Holds words below order tally)
    (base : Base words order below) (nonempty : level.vector.entries ≠ [])
    (wordsMove : Moves words moreWords vocabMap) (belowMove : Moves below moreBelow boNgramMap) :
    ∃ sorted vector ngramMap,
      NgramVector.sort vocabMap boNgramMap level.vector = some (sorted, vector, ngramMap) ∧
      Moves (gramsOf words below level.vector) (gramsOf moreWords moreBelow vector) ngramMap ∧
      Level.Listed moreWords moreBelow order tally
        { vector := vector
          counts :=
            if sorted then applySort ngramMap level.counts
            else resize ngramMap.length level.counts
          isViewed := sorted } ∧
      (ascends NgramVector.ngramIndexCompare
          (level.vector.entries.map (NgramVector.renumber vocabMap boNgramMap)) = true →
        sorted = true ∧ vector.Valid ngramHash ∧
        vector.entries.Pairwise (fun before after => NgramVector.ngramIndexCompare before after = true)) := by
  have distinct := nodup_renumber holds.formed base wordsMove belowMove
  have isLong : (level.vector.entries.map (NgramVector.renumber vocabMap boNgramMap)).length =
      level.vector.size := by
    rw [List.length_map, HashVector.size]
  have fits : level.vector.size ≤ level.counts.length := by
    have := holds.counted.fits
    rw [gramsOf, List.length_map] at this
    exact this
  obtain ⟨sorted, vector, ngramMap, ran, isSorted, isAscent, whenSorted, whenNot⟩ :=
    NgramVector.sort_eq holds.valid nonempty distinct
  have moves := moves_gramsOf holds.formed wordsMove belowMove isSorted
  have mapLength : ngramMap.length = level.vector.size := isSorted.length.trans isLong
  have sizeAfter : vector.size = level.vector.size := by
    rw [HashVector.size, isSorted.perm.length_eq, isLong]
  have gramsLength := length_gramsOf words below level.vector
  -- each count stands where its n-gram went
  have moved : ∀ index < level.vector.size,
      (if sorted then applySort ngramMap level.counts
        else resize ngramMap.length level.counts).getD (ngramMap.getD index 0) 0 =
          level.counts.getD index 0 := by
    intro index inside
    cases sorted with
    | true =>
        rw [if_pos rfl]
        exact getD_applySort (nodup_of_sorted isSorted distinct) (by omega)
          (bounded_of_sorted isSorted) (by omega)
    | false =>
        rw [if_neg Bool.false_ne_true, (whenNot rfl).2, List.length_range,
          getD_of_getElem? (List.getElem?_range inside), resize, List.getD_eq_getElem?_getD,
          List.getElem?_append_left (by rw [List.length_take]; omega),
          List.getElem?_take_of_lt inside, List.getD_eq_getElem?_getD]
  refine ⟨sorted, vector, ngramMap, ran, moves, ?_, fun rises =>
    ⟨isAscent.trans rises, whenSorted (isAscent.trans rises)⟩⟩
  constructor
  · exact formed_of_sorted holds.formed base wordsMove belowMove isSorted _ _
  · show (if sorted then applySort ngramMap level.counts
      else resize ngramMap.length level.counts).length = vector.size
    rw [sizeAfter, ← mapLength]
    cases sorted with
    | true => rw [if_pos rfl, applySort, length_foldl_set, List.length_replicate]
    | false => rw [if_neg Bool.false_ne_true, length_resize]
  · intro target gram there
    have isGram : gram ∈ gramsOf words below level.vector :=
      moves.perm.mem_iff.mp (List.mem_of_getElem? there)
    obtain ⟨index, found⟩ := List.mem_iff_getElem?.mp isGram
    have inside := (List.getElem?_eq_some_iff.mp found).1
    have isThere := moves.moved index inside
    have distinctGrams : (gramsOf moreWords moreBelow vector).Nodup :=
      moves.perm.nodup_iff.mpr (holds.formed.base base).belowDistinct
    have isTarget : target = ngramMap.getD index 0 :=
      (List.getElem?_inj (List.getElem?_eq_some_iff.mp there).1 distinctGrams).mp
        (there.trans (isThere.trans found).symm)
    show (if sorted then applySort ngramMap level.counts
      else resize ngramMap.length level.counts).getD target 0 = tally gram
    rw [isTarget, moved index (by omega)]
    exact holds.counted.count index gram found
  · intro gram isOrder positive
    exact moves.perm.mem_iff.mpr (holds.counted.listed gram isOrder positive)
  · intro gram member
    exact holds.counted.seen gram (moves.perm.mem_iff.mp member)
  · intro inView
    cases sorted with
    | true => exact (whenSorted rfl).1
    | false =>
        have isEmpty : 0 = vector.size := inView
        have isFilled := List.length_pos_of_ne_nil nonempty
        rw [sizeAfter, HashVector.size] at isEmpty
        omega

end

end Mitlm
