/-
When the sort of a model takes place.

In the levels of a corpus the first n-gram begins a sentence.  If each level also has an
n-gram that does not, every sort of the model orders its levels and rebuilds their index
tables, so the model can go on counting.
-/

import DataSelection.Mitlm.Rows

namespace Mitlm

open Library NgramVector

def Starts (gram : List Word) : Prop := gram.head? = some Vocab.endSymbol

def Fronted (grams : List (List Word)) : Prop :=
  grams.Pairwise (fun former latter => Starts latter → Starts former)

/-- What a sort relies on in the level below: it has the empty n-gram only, or the n-grams from
the beginnings come first. -/
def Opening (below : List (List Word)) : Prop :=
  below = [[]] ∨ Fronted below ∧ ∀ front ∈ below, front ≠ []

theorem starts_append {front : List Word} (nonempty : front ≠ []) (last : List Word) :
    Starts (front ++ last) ↔ Starts front := by
  cases front with
  | nil => exact absurd rfl nonempty
  | cons first rest => exact Iff.rfl

section

variable {words : List Word} {below : List (List Word)}

/-- The order of the pairs puts the beginnings of sentences first. -/
theorem starts_of_compare (distinct : words.Nodup)
    (isFirst : words[Vocab.endOfSentence]? = some Vocab.endSymbol) (opening : Opening below)
    {former latter : Ngram} (formerInside : former.1 < below.length)
    (latterInside : latter.1 < below.length ∧ latter.2 < words.length)
    (less : ngramIndexCompare former latter = true)
    (starts : Starts (below.getD latter.1 [] ++ [words.getD latter.2 []])) :
    Starts (below.getD former.1 [] ++ [words.getD former.2 []]) := by
  have isLess : former.1 < latter.1 ∨ former.1 = latter.1 ∧ former.2 < latter.2 := by
    rw [ngramIndexCompare] at less
    split at less <;> rw [decide_eq_true_eq] at less <;> omega
  rcases opening with rfl | ⟨fronted, nonempty⟩
  · rw [List.length_singleton] at formerInside latterInside
    have isZero : latter.1 = 0 := by omega
    have isWord := List.getElem?_eq_getElem latterInside.2
    rw [isZero, getD_of_getElem? isWord] at starts
    have isEnd : words[latter.2] = Vocab.endSymbol := Option.some.inj starts
    rw [isEnd] at isWord
    have isEndIndex := (List.getElem?_inj latterInside.2 distinct).mp (isWord.trans isFirst.symm)
    rw [Vocab.endOfSentence] at isEndIndex
    omega
  · have isFormer := List.getElem?_eq_getElem formerInside
    have isLatter := List.getElem?_eq_getElem latterInside.1
    rw [getD_of_getElem? isLatter,
      starts_append (nonempty _ (List.getElem_mem latterInside.1))] at starts
    rw [getD_of_getElem? isFormer, starts_append (nonempty _ (List.getElem_mem formerInside))]
    rcases isLess with earlier | ⟨same, _⟩
    · exact List.pairwise_iff_getElem.mp fronted former.1 latter.1 formerInside latterInside.1
        earlier starts
    · simpa only [same] using starts

variable {moreWords : List Word} {moreBelow : List (List Word)} {order : Nat}
  {tally : List Word → Nat} {level : Level} {vocabMap boNgramMap : List Nat}

/-- A level with an n-gram that begins no sentence is sorted. -/
theorem Level.Holds.ascends (holds : level.Holds words below order tally)
    (base : Base words order below) (wordsMove : Moves words moreWords vocabMap)
    (belowMove : Moves below moreBelow boNgramMap)
    (isFirst : moreWords[Vocab.endOfSentence]? = some Vocab.endSymbol)
    (opening : Opening moreBelow)
    (mixed : ∃ gram ∈ gramsOf words below level.vector, ¬Starts gram) :
    ascends ngramIndexCompare
      (level.vector.entries.map (NgramVector.renumber vocabMap boNgramMap)) = true := by
  have distinct := nodup_renumber holds.formed base wordsMove belowMove
  obtain ⟨gram, member, isInner⟩ := mixed
  obtain ⟨inner, isEntry, rfl⟩ := List.mem_map.mp member
  by_contra falls
  have descending := (ascends_eq_false_iff strictOrder_ngramIndexCompare distinct).mp
    (Bool.eq_false_iff.mpr falls)
  cases isEntries : level.vector.entries with
  | nil =>
      rw [isEntries] at isEntry
      cases isEntry
  | cons first rest =>
      have firstEntry : first ∈ level.vector.entries := by
        rw [isEntries]
        exact List.mem_cons_self
      have starts : Starts (below.getD first.1 [] ++ [words.getD first.2 []]) := by
        refine holds.counted.led _ ?_
        rw [gramsOf, isEntries]
        rfl
      have isRest : inner ∈ rest := by
        rw [isEntries] at isEntry
        rcases List.mem_cons.mp isEntry with rfl | isRest
        · exact absurd starts isInner
        · exact isRest
      rw [isEntries, List.map_cons] at descending
      have less := (List.pairwise_cons.mp descending).1 _ (List.mem_map_of_mem isRest)
      have inside : ∀ ngram ∈ level.vector.entries,
          (NgramVector.renumber vocabMap boNgramMap ngram).1 < moreBelow.length ∧
          (NgramVector.renumber vocabMap boNgramMap ngram).2 < moreWords.length := by
        intro ngram isNgram
        have isFront := belowMove.moved ngram.1 (holds.formed.hist ngram isNgram)
        have isLast := wordsMove.moved ngram.2 (holds.formed.word ngram isNgram)
        rw [List.getElem?_eq_getElem (holds.formed.hist ngram isNgram)] at isFront
        rw [List.getElem?_eq_getElem (holds.formed.word ngram isNgram)] at isLast
        exact ⟨(List.getElem?_eq_some_iff.mp isFront).1, (List.getElem?_eq_some_iff.mp isLast).1⟩
      have moreDistinct : moreWords.Nodup := wordsMove.perm.nodup_iff.mpr base.wordsDistinct
      have moved := starts_of_compare moreDistinct isFirst opening (inside inner isEntry).1
        (inside first firstEntry) less
      rw [gram_renumber holds.formed wordsMove belowMove isEntry,
        gram_renumber holds.formed wordsMove belowMove firstEntry] at moved
      exact isInner (moved starts)

/-- A level in order: lookups find its n-grams, their histories are in view, and the beginnings of
sentences come first. -/
structure Level.Ordered (words : List Word) (below : List (List Word)) (order : Nat)
    (tally : List Word → Nat) (level : Level) : Prop where
  listed : level.Listed words below order tally
  valid : level.vector.Valid ngramHash
  inView : level.isViewed = true
  fronted : Fronted (gramsOf words below level.vector)
  led : ∀ gram ∈ (gramsOf words below level.vector).head?, Starts gram

theorem Level.Holds.sort_ordered (holds : level.Holds words below order tally)
    (base : Base words order below) (nonempty : level.vector.entries ≠ [])
    (wordsMove : Moves words moreWords vocabMap) (belowMove : Moves below moreBelow boNgramMap) :
    ∃ sorted vector ngramMap counts,
      NgramVector.sort vocabMap boNgramMap level.vector = some (sorted, vector, ngramMap) ∧
      counts = (if sorted then applySort ngramMap level.counts
        else resize ngramMap.length level.counts) ∧
      Moves (gramsOf words below level.vector) (gramsOf moreWords moreBelow vector) ngramMap ∧
      Level.Listed moreWords moreBelow order tally
        { vector := vector, counts := counts, isViewed := sorted } ∧
      (moreWords[Vocab.endOfSentence]? = some Vocab.endSymbol → Opening moreBelow →
        (∃ gram ∈ gramsOf words below level.vector, ¬Starts gram) →
        Level.Ordered moreWords moreBelow order tally
          { vector := vector, counts := counts, isViewed := sorted }) := by
  obtain ⟨sorted, vector, ngramMap, ran, moves, listed, whenRises⟩ :=
    holds.sort_eq base nonempty wordsMove belowMove
  refine ⟨sorted, vector, ngramMap, _, ran, rfl, moves, listed, ?_⟩
  intro isFirst opening mixed
  obtain ⟨isViewed, valid, ascending⟩ :=
    whenRises (holds.ascends base wordsMove belowMove isFirst opening mixed)
  have moreDistinct : moreWords.Nodup := wordsMove.perm.nodup_iff.mpr base.wordsDistinct
  have fronted : Fronted (gramsOf moreWords moreBelow vector) := by
    refine List.pairwise_map.mpr (ascending.imp_of_mem ?_)
    intro former latter isFormer isLatter less
    exact starts_of_compare moreDistinct isFirst opening (listed.formed.hist former isFormer)
      ⟨listed.formed.hist latter isLatter, listed.formed.word latter isLatter⟩ less
  refine ⟨listed, valid, isViewed, fronted, ?_⟩
  intro gram isHead
  -- some n-gram begins a sentence, and it comes first or behind another one that does
  obtain ⟨started, isStarted, starts⟩ :
      ∃ started ∈ gramsOf words below level.vector, Starts started := by
    cases isGrams : gramsOf words below level.vector with
    | nil =>
        obtain ⟨gram, member, _⟩ := mixed
        rw [isGrams] at member
        cases member
    | cons first rest =>
        exact ⟨first, List.mem_cons_self, holds.counted.led first (by rw [isGrams]; rfl)⟩
  have after := moves.perm.mem_iff.mpr isStarted
  change gram ∈ (gramsOf moreWords moreBelow vector).head? at isHead
  cases isGrams : gramsOf moreWords moreBelow vector with
  | nil =>
      rw [isGrams] at isHead
      cases isHead
  | cons first rest =>
      rw [isGrams] at isHead after fronted
      cases isHead
      rcases List.mem_cons.mp after with rfl | later
      · exact starts
      · exact (List.pairwise_cons.mp fronted).1 started later starts

/-- The levels after a sort, the first ones of them in order. -/
def LevelsSorted (words : List Word) (tally : List Word → Nat) :
    Nat → Nat → List (List Word) → List Level → Prop
  | _, _, _, [] => True
  | limit, order, below, level :: levels =>
      level.Listed words below order tally ∧ (0 < limit → level.Ordered words below order tally) ∧
        LevelsSorted words tally (limit - 1) (order + 1) (gramsOf words below level.vector) levels

/-- The sort of a model puts the levels in order up to the first that has no n-gram but from the
beginnings of sentences. -/
theorem LevelsHold.sortLevels_eq {levels : List Level}
    (holds : LevelsHold words tally order below levels) (base : Base words order below)
    (nonempty : ∀ level ∈ levels, level.vector.entries ≠ [])
    (wordsMove : Moves words moreWords vocabMap) (belowMove : Moves below moreBelow boNgramMap)
    (isFirst : moreWords[Vocab.endOfSentence]? = some Vocab.endSymbol) {limit : Nat}
    (opening : 0 < limit → Opening moreBelow)
    (mixed : ∀ width, order ≤ width → width < order + limit →
      ∃ gram : List Word, gram.length = width ∧ 0 < tally gram ∧ ¬Starts gram) :
    ∃ sorted, sortLevels vocabMap boNgramMap levels = some sorted ∧
      LevelsSorted moreWords tally limit order moreBelow sorted ∧
      sorted.length = levels.length := by
  induction levels generalizing order below moreBelow boNgramMap limit with
  | nil => exact ⟨[], rfl, trivial, rfl⟩
  | cons level levels ih =>
      obtain ⟨holdsLevel, holdsLater⟩ := holds
      obtain ⟨sorted, vector, ngramMap, counts, ran, isCounts, moves, listed, ordered⟩ :=
        holdsLevel.sort_ordered base (nonempty level List.mem_cons_self) wordsMove belowMove
      have isOrdered : 0 < limit → Level.Ordered moreWords moreBelow order tally
          { vector := vector, counts := counts, isViewed := sorted } := by
        intro isLimit
        obtain ⟨gram, isWidth, counted, isInner⟩ := mixed order (Nat.le_refl _) (by omega)
        exact ordered isFirst (opening isLimit)
          ⟨gram, holdsLevel.counted.listed gram isWidth counted, isInner⟩
      have moreOpening : 0 < limit - 1 → Opening (gramsOf moreWords moreBelow vector) := by
        intro isLimit
        refine Or.inr ⟨(isOrdered (by omega)).fronted, ?_⟩
        intro front member
        obtain ⟨ngram, _, rfl⟩ := List.mem_map.mp member
        exact List.append_ne_nil_of_right_ne_nil _ (List.cons_ne_nil _ _)
      obtain ⟨later, ranLater, sortedLater, sameLength⟩ :=
        ih holdsLater (holdsLevel.formed.base base)
          (fun other member => nonempty other (List.mem_cons_of_mem level member)) moves
          moreOpening (fun width atLeast below => mixed width (by omega) (by omega))
      refine ⟨_ :: later, ?_, ⟨listed, isOrdered, sortedLater⟩, congrArg Nat.succ sameLength⟩
      simp only [sortLevels, ran, ranLater, ← isCounts, Option.bind_eq_bind, Option.bind_some]

end

section

variable {words : List Word} {tally : List Word → Nat}

theorem LevelsSorted.listed {limit order : Nat} {below : List (List Word)} {levels : List Level}
    (sorted : LevelsSorted words tally limit order below levels) :
    LevelsListed words tally order below levels := by
  induction levels generalizing limit order below with
  | nil => trivial
  | cons level levels ih => exact ⟨sorted.1, ih sorted.2.2⟩

theorem LevelsSorted.ordered {limit order : Nat} {below : List (List Word)} {levels : List Level}
    (sorted : LevelsSorted words tally limit order below levels) {place : Nat} {level : Level}
    (isLevel : levels[place]? = some level) (within : place < limit) :
    level.Ordered words (gramsAt words place below levels) (order + place) tally := by
  induction levels generalizing limit order below place with
  | nil => cases isLevel
  | cons first levels ih =>
      cases place with
      | zero =>
          cases isLevel
          exact sorted.2.1 within
      | succ place =>
          have found := ih sorted.2.2 isLevel (by omega)
          rw [Nat.add_right_comm] at found
          exact found

theorem Level.Ordered.allocate {below : List (List Word)} {order : Nat} {level : Level}
    (ordered : level.Ordered words below order tally) :
    (allocate level).Holds words below order tally := by
  have isLong : (gramsOf words below level.vector).length = level.counts.length := by
    rw [length_gramsOf, ordered.listed.exact]
  have longer : level.counts.length ≤ max (2 ^ 16) (nextPowerOf2 level.vector.size) := by
    rw [ordered.listed.exact]
    exact (lt_nextPowerOf2 _).le.trans (le_max_right _ _)
  have isLength : (Mitlm.allocate level).counts.length =
      max (2 ^ 16) (nextPowerOf2 level.vector.size) := length_resize _ _
  have same : ∀ index, (Mitlm.allocate level).counts.getD index 0 = level.counts.getD index 0 :=
    fun index => getD_resize longer index
  have formed := ordered.listed.formed
  refine ⟨ordered.valid, ⟨formed.distinct, formed.hist, formed.word⟩, ?_⟩
  constructor
  · rw [isLength]
    exact Nat.lt_of_lt_of_le (by decide : 0 < 2 ^ 16) (le_max_left _ _)
  · rw [isLength]
    exact isLong.le.trans longer
  · intro index outside
    have isShort : level.counts.length ≤ index := by
      rw [← isLong]
      exact outside
    rw [same, List.getD_eq_getElem?_getD, List.getElem?_eq_none isShort, Option.getD_none]
  · intro index gram found
    rw [same]
    exact ordered.listed.count index gram found
  · exact ordered.listed.listed
  · exact ordered.listed.seen
  · exact ordered.led

theorem LevelsSorted.allocate {order : Nat} {below : List (List Word)} {levels : List Level}
    (sorted : LevelsSorted words tally levels.length order below levels) :
    LevelsHold words tally order below (levels.map allocate) := by
  induction levels generalizing order below with
  | nil => trivial
  | cons level levels ih =>
      exact ⟨(sorted.2.1 (Nat.succ_pos _)).allocate, ih sorted.2.2⟩

end

end Mitlm
