/-
What counting an n-gram does to the levels of a model.

The n-grams of a level are lists of words, built from those of the level below.  Each of
them is listed once, and its count is what a tally over such lists says.
-/

import DataSelection.Mitlm.NgramModel

namespace Mitlm

open Library

/-- The n-grams of a level as words, over those of the level below. -/
def gramsOf (words : List Word) (below : List (List Word)) (vector : NgramVector) :
    List (List Word) :=
  vector.entries.map (fun ngram => below.getD ngram.1 [] ++ [words.getD ngram.2 []])

/-- The n-grams below a level: distinct, and all of one length. -/
structure Base (words : List Word) (order : Nat) (below : List (List Word)) : Prop where
  wordsDistinct : words.Nodup
  belowDistinct : below.Nodup
  lengths : ∀ front ∈ below, front.length + 1 = order

structure Level.Formed (words : List Word) (below : List (List Word)) (level : Level) : Prop where
  distinct : level.vector.entries.Nodup
  hist : ∀ ngram ∈ level.vector.entries, ngram.1 < below.length
  word : ∀ ngram ∈ level.vector.entries, ngram.2 < words.length

section

variable {words : List Word} {order : Nat} {below : List (List Word)} {level : Level}

theorem getD_of_getElem? {α : Type} {items : List α} {index : Nat} {item default : α}
    (found : items[index]? = some item) : items.getD index default = item := by
  rw [List.getD_eq_getElem?_getD, found, Option.getD_some]

theorem getD_map_of_getElem? {α β : Type} {items : List α} {index : Nat} {item : α} {default : β}
    (found : items[index]? = some item) (value : α → β) :
    (items.map value).getD index default = value item := by
  rw [List.getD_eq_getElem?_getD, List.getElem?_map, found, Option.map_some, Option.getD_some]

theorem length_gramsOf (words : List Word) (below : List (List Word)) (vector : NgramVector) :
    (gramsOf words below vector).length = vector.size :=
  List.length_map _

theorem getElem?_gramsOf {vector : NgramVector} {index hist word : Nat} {front : List Word}
    {last : Word} (listed : vector.entries[index]? = some (hist, word))
    (isFront : below[hist]? = some front) (isWord : words[word]? = some last) :
    (gramsOf words below vector)[index]? = some (front ++ [last]) := by
  rw [gramsOf, List.getElem?_map, listed, Option.map_some, getD_of_getElem? isFront,
    getD_of_getElem? isWord]

theorem Level.Formed.exists_of_getElem? (formed : level.Formed words below) {index : Nat}
    {gram : List Word} (listed : (gramsOf words below level.vector)[index]? = some gram) :
    ∃ hist word front last, level.vector.entries[index]? = some (hist, word) ∧
      below[hist]? = some front ∧ words[word]? = some last ∧ gram = front ++ [last] := by
  rw [gramsOf, List.getElem?_map, Option.map_eq_some_iff] at listed
  obtain ⟨⟨hist, word⟩, isEntry, rfl⟩ := listed
  have member := List.mem_of_getElem? isEntry
  have isFront := List.getElem?_eq_getElem (formed.hist _ member)
  have isLast := List.getElem?_eq_getElem (formed.word _ member)
  refine ⟨hist, word, _, _, isEntry, isFront, isLast, ?_⟩
  rw [getD_of_getElem? isFront, getD_of_getElem? isLast]

theorem getD_injective {α : Type} {items : List α} (distinct : items.Nodup) {default : α}
    {left right : Nat} (leftInside : left < items.length) (rightInside : right < items.length)
    (same : items.getD left default = items.getD right default) : left = right := by
  rw [getD_of_getElem? (List.getElem?_eq_getElem leftInside),
    getD_of_getElem? (List.getElem?_eq_getElem rightInside)] at same
  exact distinct.getElem_inj_iff.mp same

theorem Level.Formed.base (formed : level.Formed words below) (base : Base words order below) :
    Base words (order + 1) (gramsOf words below level.vector) := by
  constructor
  · exact base.wordsDistinct
  · refine List.Nodup.map_on ?_ formed.distinct
    intro left isLeft right isRight same
    obtain ⟨sameFront, sameLast⟩ := List.append_inj' same rfl
    apply Prod.ext
    · exact getD_injective base.belowDistinct (formed.hist left isLeft) (formed.hist right isRight)
        sameFront
    · exact getD_injective base.wordsDistinct (formed.word left isLeft) (formed.word right isRight)
        (List.singleton_injective sameLast)
  · intro gram member
    obtain ⟨index, listed⟩ := List.mem_iff_getElem?.mp member
    obtain ⟨hist, word, front, last, _, isFront, _, rfl⟩ := formed.exists_of_getElem? listed
    rw [List.length_append, List.length_singleton,
      base.lengths front (List.mem_of_getElem? isFront)]

theorem Level.Formed.gramsOf_longer (formed : level.Formed words below) {moreWords : List Word}
    {moreBelow : List (List Word)} (longerWords : words <+: moreWords)
    (longerBelow : below <+: moreBelow) :
    gramsOf moreWords moreBelow level.vector = gramsOf words below level.vector := by
  apply List.map_congr_left
  intro ngram member
  have isFront := List.getElem?_eq_getElem (formed.hist ngram member)
  have isLast := List.getElem?_eq_getElem (formed.word ngram member)
  rw [getD_of_getElem? isFront, getD_of_getElem? isLast,
    getD_of_getElem? (HashVector.getElem?_of_prefix longerBelow isFront),
    getD_of_getElem? (HashVector.getElem?_of_prefix longerWords isLast)]

theorem Level.Formed.longer (formed : level.Formed words below) {moreWords : List Word}
    {moreBelow : List (List Word)} (longerWords : words <+: moreWords)
    (longerBelow : below <+: moreBelow) : level.Formed moreWords moreBelow := by
  constructor
  · exact formed.distinct
  · intro ngram member
    exact Nat.lt_of_lt_of_le (formed.hist ngram member) longerBelow.length_le
  · intro ngram member
    exact Nat.lt_of_lt_of_le (formed.word ngram member) longerWords.length_le

end

/-! ### Counts -/

structure Level.Counted (grams : List (List Word)) (order : Nat) (tally : List Word → Nat)
    (level : Level) : Prop where
  filled : 0 < level.counts.length
  fits : grams.length ≤ level.counts.length
  unused : ∀ index, grams.length ≤ index → level.counts.getD index 0 = 0
  count : ∀ (index : Nat) gram, grams[index]? = some gram →
    level.counts.getD index 0 = tally gram
  listed : ∀ gram, gram.length = order → 0 < tally gram → gram ∈ grams
  seen : ∀ gram ∈ grams, 0 < tally gram ∨ gram = [Vocab.endSymbol]
  led : ∀ gram ∈ grams.head?, gram.head? = some Vocab.endSymbol

structure Level.Holds (words : List Word) (below : List (List Word)) (order : Nat)
    (tally : List Word → Nat) (level : Level) : Prop where
  valid : level.vector.Valid ngramHash
  formed : level.Formed words below
  counted : level.Counted (gramsOf words below level.vector) order tally

/-- A tally that has met an n-gram more often. -/
structure Raised (before after : List Word → Nat) (order : Nat) (gram : List Word)
    (amount : Nat) : Prop where
  here : after gram = before gram + amount
  others : ∀ other, other.length = order → other ≠ gram → after other = before other

section

variable {words : List Word} {order : Nat} {below : List (List Word)} {level : Level}
  {tally : List Word → Nat}

theorem getD_resize {length : Nat} {counts : List Nat} (longer : counts.length ≤ length)
    (index : Nat) : (resize length counts).getD index 0 = counts.getD index 0 := by
  rw [resize, List.take_of_length_le longer, List.getD_eq_getElem?_getD, List.getD_eq_getElem?_getD,
    List.getElem?_append]
  split
  · rfl
  · next outside =>
      rw [List.getElem?_eq_none_iff.mpr (Nat.le_of_not_lt outside), List.getElem?_replicate]
      split <;> rfl

theorem length_resize (length : Nat) (counts : List Nat) : (resize length counts).length = length := by
  rw [resize, List.length_append, List.length_take, List.length_replicate]
  omega

/-- A count is raised at one index; the vector is long enough for it. -/
theorem increment_eq (amount : Nat) {isNew : Bool} {index : Nat} {counts : List Nat} (filled : 0 < counts.length)
    (inside : isNew = false → index < counts.length) (next : index ≤ counts.length) :
    index < (increment amount isNew index counts).length ∧
      counts.length ≤ (increment amount isNew index counts).length ∧
      ∀ other, (increment amount isNew index counts).getD other 0 =
        counts.getD other 0 + if other = index then amount else 0 := by
  have resized : ∀ longer : List Nat, index < longer.length → counts.length ≤ longer.length →
      (∀ other, longer.getD other 0 = counts.getD other 0) →
      index < (longer.modify index (· + amount)).length ∧
        counts.length ≤ (longer.modify index (· + amount)).length ∧
        ∀ other, (longer.modify index (· + amount)).getD other 0 =
          counts.getD other 0 + if other = index then amount else 0 := by
    intro longer room atLeast same
    refine ⟨by rw [List.length_modify]; exact room, by rw [List.length_modify]; exact atLeast, ?_⟩
    intro other
    rw [← same other, List.getD_eq_getElem?_getD, List.getElem?_modify, List.getD_eq_getElem?_getD]
    by_cases here : index = other
    · subst here
      rw [List.getElem?_eq_getElem room]
      simp
    · have there : ¬other = index := fun equal => here equal.symm
      simp [here, there]
  rw [increment]
  split
  · apply resized
    · rw [length_resize]
      omega
    · rw [length_resize]
      omega
    · intro other
      exact getD_resize (by omega) other
  · next notLonger =>
      have room : index < counts.length := by
        cases isNew with
        | false => exact inside rfl
        | true =>
            rw [Bool.true_and, decide_eq_true_iff] at notLonger
            omega
      exact resized counts room (Nat.le_refl _) (fun other => rfl)

theorem Level.Formed.mem_entries_iff (formed : level.Formed words below)
    (base : Base words order below) {hist word : Nat} {front : List Word} {last : Word}
    (isFront : below[hist]? = some front) (isLast : words[word]? = some last) :
    (hist, word) ∈ level.vector.entries ↔ front ++ [last] ∈ gramsOf words below level.vector := by
  have histInside := (List.getElem?_eq_some_iff.mp isFront).1
  have wordInside := (List.getElem?_eq_some_iff.mp isLast).1
  constructor
  · intro member
    obtain ⟨index, listed⟩ := List.mem_iff_getElem?.mp member
    exact List.mem_of_getElem? (getElem?_gramsOf listed isFront isLast)
  · intro member
    obtain ⟨⟨otherHist, otherWord⟩, isEntry, same⟩ := List.mem_map.mp member
    rw [← @getD_of_getElem? _ _ _ _ [] isFront, ← @getD_of_getElem? _ _ _ _ [] isLast] at same
    obtain ⟨sameFront, sameLast⟩ := List.append_inj' same rfl
    have isHist := getD_injective base.belowDistinct (formed.hist _ isEntry) histInside sameFront
    have isWord := getD_injective base.wordsDistinct (formed.word _ isEntry) wordInside
      (List.singleton_injective sameLast)
    simp only at isHist isWord
    rw [← isHist, ← isWord]
    exact isEntry

theorem Level.Formed.enter (formed : level.Formed words below) (base : Base words order below)
    {vector : NgramVector} {hist word : Nat} {front : List Word} {last : Word}
    (entered : vector.entries = HashVector.enter level.vector.entries (hist, word))
    (isFront : below[hist]? = some front) (isLast : words[word]? = some last) (counts : List Nat) :
    Level.Formed words below { vector := vector, counts := counts } ∧
      gramsOf words below vector =
        HashVector.enter (gramsOf words below level.vector) (front ++ [last]) := by
  have histInside := (List.getElem?_eq_some_iff.mp isFront).1
  have wordInside := (List.getElem?_eq_some_iff.mp isLast).1
  have present := formed.mem_entries_iff base isFront isLast
  refine ⟨?_, ?_⟩
  · constructor
    · rw [entered]
      exact HashVector.nodup_enter formed.distinct
    · intro ngram member
      rw [entered, HashVector.mem_enter] at member
      rcases member with isOld | rfl
      · exact formed.hist ngram isOld
      · exact histInside
    · intro ngram member
      rw [entered, HashVector.mem_enter] at member
      rcases member with isOld | rfl
      · exact formed.word ngram isOld
      · exact wordInside
  · rw [gramsOf, entered, HashVector.enter, HashVector.enter]
    by_cases member : (hist, word) ∈ level.vector.entries
    · rw [if_pos member, if_pos (present.mp member), gramsOf]
    · rw [if_neg member, if_neg (fun isGram => member (present.mpr isGram)), List.map_append,
        List.map_singleton, getD_of_getElem? isFront, getD_of_getElem? isLast, gramsOf]

/-- Counting an n-gram at its index makes the counts those of the raised tally. -/
theorem Level.Counted.raise {grams : List (List Word)} (counted : level.Counted grams order tally)
    (distinct : grams.Nodup) {after : List Word → Nat} {gram : List Word}
    (lengths : ∀ gram ∈ grams, gram.length = order)
    {amount : Nat} (raised : Raised tally after order gram amount) (positive : 0 < amount)
    (isLong : gram.length = order) {index : Nat}
    {isNew : Bool} (isIndex : (HashVector.enter grams gram)[index]? = some gram)
    (fresh : isNew = true ↔ gram ∉ grams)
    (opens : grams = [] → gram.head? = some Vocab.endSymbol) (vector : NgramVector) :
    Level.Counted (HashVector.enter grams gram) order after
      { vector := vector, counts := increment amount isNew index level.counts } := by
  have distinctAfter : (HashVector.enter grams gram).Nodup := HashVector.nodup_enter distinct
  have fits := counted.fits
  have indexInside := (List.getElem?_eq_some_iff.mp isIndex).1
  have lengthAfter := @HashVector.length_enter_le _ _ grams gram
  have oldInside : isNew = false → index < level.counts.length := by
    intro isOld
    have present : gram ∈ grams := by
      by_contra absent
      rw [fresh.mpr absent] at isOld
      cases isOld
    rw [HashVector.enter, if_pos present] at indexInside
    omega
  obtain ⟨room, atLeast, counts⟩ := increment_eq amount counted.filled oldInside (by omega)
  have sameIndex : ∀ other : Nat, (HashVector.enter grams gram)[other]? = some gram → other = index :=
    fun other there => (List.getElem?_inj (List.getElem?_eq_some_iff.mp there).1 distinctAfter).mp
      (there.trans isIndex.symm)
  have newGram : ∀ other ∈ HashVector.enter grams gram, other.length = order := by
    intro other member
    rcases HashVector.mem_enter.mp member with isOld | rfl
    · exact lengths other isOld
    · exact isLong
  constructor
  · exact Nat.lt_of_lt_of_le counted.filled atLeast
  · show (HashVector.enter grams gram).length ≤ (increment amount isNew index level.counts).length
    rcases HashVector.getElem?_enter isIndex with isOld | ⟨_, isLast, _⟩
    · rw [HashVector.enter, if_pos (List.mem_of_getElem? isOld)]
      omega
    · omega
  · intro other outside
    show (increment amount isNew index level.counts).getD other 0 = 0
    have different : other ≠ index := by omega
    have longer : grams.length ≤ (HashVector.enter grams gram).length :=
      (HashVector.prefix_enter : grams <+: _).length_le
    rw [counts, if_neg different, counted.unused other (by omega)]
  · intro other found there
    show (increment amount isNew index level.counts).getD other 0 = after found
    rw [counts]
    rcases HashVector.getElem?_enter there with wasThere | ⟨absent, isLast, isGram⟩
    · by_cases isGram : found = gram
      · subst isGram
        rw [if_pos (sameIndex other there), raised.here, counted.count other found wasThere]
      · have different : other ≠ index := by
          intro same
          rw [same] at there
          exact isGram (Option.some.inj (there.symm.trans isIndex))
        rw [if_neg different, Nat.add_zero, counted.count other found wasThere,
          raised.others found (newGram found (List.mem_of_getElem? there)) isGram]
    · subst isGram
      have isZero : tally found = 0 := by
        by_contra isCounted
        exact absent (counted.listed found isLong (Nat.pos_of_ne_zero isCounted))
      rw [if_pos (sameIndex other there), raised.here, isZero,
        counted.unused other (Nat.le_of_eq isLast.symm)]
  · intro other isOrder isCounted
    by_cases isGram : other = gram
    · exact HashVector.mem_enter.mpr (Or.inr isGram)
    · rw [raised.others other isOrder isGram] at isCounted
      exact HashVector.mem_enter.mpr (Or.inl (counted.listed other isOrder isCounted))
  · intro other member
    by_cases isGram : other = gram
    · left
      rw [isGram, raised.here]
      omega
    · rw [raised.others other (newGram other member) isGram]
      rcases HashVector.mem_enter.mp member with isOld | same
      · exact counted.seen other isOld
      · exact absurd same isGram
  · intro other isHead
    have led := counted.led
    cases grams with
    | nil =>
        cases isHead
        exact opens rfl
    | cons first rest =>
        obtain ⟨more, isEntered⟩ := (HashVector.prefix_enter : first :: rest <+: _)
        rw [← isEntered] at isHead
        exact led other isHead

theorem Level.Holds.raise_eq (holds : level.Holds words below order tally)
    (base : Base words order below) {hist word : Nat} {front : List Word} {last : Word}
    (isFront : below[hist]? = some front) (isLast : words[word]? = some last)
    {after : List Word → Nat} {amount : Nat}
    (raised : Raised tally after order (front ++ [last]) amount) (positive : 0 < amount)
    (opens : gramsOf words below level.vector = [] →
      (front ++ [last]).head? = some Vocab.endSymbol) :
    ∃ added index, level.raise amount hist word = some (added, index) ∧
      added.Holds words below order after ∧
      gramsOf words below level.vector <+: gramsOf words below added.vector ∧
      (gramsOf words below added.vector)[index]? = some (front ++ [last]) := by
  obtain ⟨vector, index, isNew, added, valid, entered, found, fresh⟩ :=
    holds.valid.exists_add (hist, word)
  have present := holds.formed.mem_entries_iff base isFront isLast
  obtain ⟨formed, isGrams⟩ := holds.formed.enter base entered isFront isLast
    (increment amount isNew index level.counts)
  have isAdded : level.vector.add hist word = some (vector, index, isNew) := added
  have isIndex : (HashVector.enter (gramsOf words below level.vector) (front ++ [last]))[index]? =
      some (front ++ [last]) := by
    rw [← isGrams]
    exact getElem?_gramsOf found isFront isLast
  have baseAfter := holds.formed.base base
  refine ⟨{ vector := vector, counts := increment amount isNew index level.counts }, index, ?_,
    ⟨valid, formed, ?_⟩, ?_, ?_⟩
  · simp only [Level.raise, isAdded, Option.bind_eq_bind, Option.bind_some]
  · show Level.Counted (gramsOf words below vector) order after _
    rw [isGrams]
    refine holds.counted.raise baseAfter.belowDistinct ?_ raised positive ?_ isIndex ?_
      opens vector
    · intro gram member
      have := baseAfter.lengths gram member
      omega
    · rw [List.length_append, List.length_singleton]
      exact base.lengths front (List.mem_of_getElem? isFront)
    · rw [fresh, present]
  · show _ <+: gramsOf words below vector
    rw [isGrams]
    exact HashVector.prefix_enter
  · show (gramsOf words below vector)[index]? = _
    rw [isGrams]
    exact isIndex

end

/-! ### All levels -/

/-- The levels from an order on, each over the one below. -/
def LevelsHold (words : List Word) (tally : List Word → Nat) :
    Nat → List (List Word) → List Level → Prop
  | _, _, [] => True
  | order, below, level :: levels =>
      level.Holds words below order tally ∧
        LevelsHold words tally (order + 1) (gramsOf words below level.vector) levels

/-- The histories are the n-grams that end a sentence so far, as far as it is long enough. -/
def HistsHold (words : List Word) (past : List Word) :
    Nat → List (List Word) → List Level → List (Option Nat) → Prop
  | _, _, [], [] => True
  | order, below, level :: levels, last :: hists =>
      (order ≤ past.length → ∃ index, last = some index ∧
        (gramsOf words below level.vector)[index]? = some (past.drop (past.length - order))) ∧
      HistsHold words past (order + 1) (gramsOf words below level.vector) levels hists
  | _, _, _, _ => False

def bump (tally : List Word → Nat) (sentence gram : List Word) : Nat :=
  tally gram + if gram <:+ sentence then 1 else 0

section

variable {words : List Word} {tally : List Word → Nat}

/-- Only what a tally says of the n-grams of its order matters to a level. -/
theorem Level.Holds.congr {after : List Word → Nat} {order : Nat} {below : List (List Word)}
    {level : Level} (holds : level.Holds words below order tally) (base : Base words order below)
    (same : ∀ gram, gram.length = order → after gram = tally gram) :
    level.Holds words below order after := by
  have sameHere : ∀ gram ∈ gramsOf words below level.vector, after gram = tally gram := by
    intro gram member
    have isLength := (holds.formed.base base).lengths gram member
    exact same gram (by omega)
  have counted := holds.counted
  refine ⟨holds.valid, holds.formed, ?_⟩
  constructor
  · exact counted.filled
  · exact counted.fits
  · exact counted.unused
  · intro index gram listed
    rw [sameHere gram (List.mem_of_getElem? listed)]
    exact counted.count index gram listed
  · intro gram isOrder positive
    rw [same gram isOrder] at positive
    exact counted.listed gram isOrder positive
  · intro gram member
    rw [sameHere gram member]
    exact counted.seen gram member
  · exact counted.led

theorem LevelsHold.congr {after : List Word → Nat} {order : Nat} {below : List (List Word)}
    {levels : List Level} (holds : LevelsHold words tally order below levels)
    (base : Base words order below)
    (same : ∀ gram, order ≤ gram.length → gram.length < order + levels.length →
      after gram = tally gram) :
    LevelsHold words after order below levels := by
  induction levels generalizing order below with
  | nil => trivial
  | cons level levels ih =>
      obtain ⟨holdsLevel, holdsLater⟩ := holds
      rw [List.length_cons] at same
      refine ⟨holdsLevel.congr base (fun gram isOrder => same gram isOrder.ge (by omega)),
        ih holdsLater (holdsLevel.formed.base base) ?_⟩
      intro gram long short
      exact same gram (by omega) (by omega)

theorem LevelsHold.longer {order : Nat} {below : List (List Word)} {levels : List Level}
    (holds : LevelsHold words tally order below levels) {moreWords : List Word}
    {moreBelow : List (List Word)} (longerWords : words <+: moreWords)
    (longerBelow : below <+: moreBelow) :
    LevelsHold moreWords tally order moreBelow levels := by
  induction levels generalizing order below moreBelow with
  | nil => trivial
  | cons level levels ih =>
      obtain ⟨holdsLevel, holdsLater⟩ := holds
      have same := holdsLevel.formed.gramsOf_longer longerWords longerBelow
      refine ⟨⟨holdsLevel.valid, holdsLevel.formed.longer longerWords longerBelow, ?_⟩, ?_⟩
      · rw [same]
        exact holdsLevel.counted
      · rw [same]
        exact ih holdsLater (List.prefix_refl _)

theorem HistsHold.longer {past : List Word} {order : Nat} {below : List (List Word)}
    {levels : List Level} {hists : List (Option Nat)}
    (holds : HistsHold words past order below levels hists)
    (formed : LevelsHold words tally order below levels) {moreBelow : List (List Word)}
    (longerBelow : below <+: moreBelow) : HistsHold words past order moreBelow levels hists := by
  cases levels with
  | nil =>
      cases hists with
      | nil => trivial
      | cons last hists => exact holds.elim
  | cons level levels =>
      cases hists with
      | nil => exact holds.elim
      | cons last hists =>
          have same := formed.1.formed.gramsOf_longer (List.prefix_refl words) longerBelow
          rw [HistsHold, same]
          exact holds

theorem HistsHold.short {past longer : List Word} {order : Nat} {below : List (List Word)}
    {levels : List Level} {hists : List (Option Nat)}
    (holds : HistsHold words past order below levels hists) (short : longer.length < order) :
    HistsHold words longer order below levels hists := by
  induction levels generalizing order below hists with
  | nil =>
      cases hists with
      | nil => trivial
      | cons last hists => exact holds.elim
  | cons level levels ih =>
      cases hists with
      | nil => exact holds.elim
      | cons last hists =>
          refine ⟨?_, ih holds.2 (by omega)⟩
          intro fits
          omega

/-- The last words of a sentence, with the next word behind them. -/
theorem drop_concat {past : List Word} {order : Nat} (positive : 1 ≤ order) (word : Word) :
    past.drop (past.length + 1 - order) ++ [word] =
      (past ++ [word]).drop ((past ++ [word]).length - order) := by
  rw [List.length_append, List.length_singleton, List.drop_append_of_le_length (by omega)]

theorem raised_bump (sentence : List Word) (order : Nat) :
    Raised tally (bump tally sentence) order (sentence.drop (sentence.length - order)) 1 := by
  constructor
  · rw [bump, if_pos (List.drop_suffix _ _)]
  · intro other isOrder different
    rw [bump, if_neg, Nat.add_zero]
    intro isSuffix
    have same := List.suffix_iff_eq_drop.mp isSuffix
    rw [isOrder] at same
    exact different same

/-- A word adds the n-grams that end with it, each to the history that ended before. -/
theorem addWord_eq {past : List Word} (led : past.head? = some Vocab.endSymbol) {word : Word}
    {id : Nat} (isWord : words[id]? = some word)
    {levels : List Level} {order limit : Nat} {below : List (List Word)} {hist : Option Nat}
    {hists : List (Option Nat)} (positive : 1 ≤ order) (isLimit : limit + order = past.length + 2)
    (holds : LevelsHold words tally order below levels) (base : Base words order below)
    (histsHold : HistsHold words past order below levels hists)
    (isHist : 0 < limit → ∃ index, hist = some index ∧
      below[index]? = some (past.drop (past.length + 1 - order))) :
    ∃ levelsAfter histsAfter, addWord (some id) limit hist levels hists =
        some (levelsAfter, histsAfter) ∧
      LevelsHold words (bump tally (past ++ [word])) order below levelsAfter ∧
      HistsHold words (past ++ [word]) order below levelsAfter histsAfter ∧
      levelsAfter.length = levels.length := by
  induction levels generalizing order limit below hist hists with
  | nil =>
      cases hists with
      | cons last hists => exact histsHold.elim
      | nil =>
          refine ⟨[], [], ?_, trivial, trivial, rfl⟩
          cases limit with
          | zero => rfl
          | succ limit => rfl
  | cons level levels ih =>
      cases hists with
      | nil => exact histsHold.elim
      | cons last hists =>
          cases limit with
          | zero =>
              have long : (past ++ [word]).length < order := by
                rw [List.length_append, List.length_singleton]
                omega
              refine ⟨level :: levels, last :: hists, rfl, holds.congr base ?_,
                histsHold.short long, rfl⟩
              intro gram isLong _
              rw [bump, if_neg, Nat.add_zero]
              intro isSuffix
              have := isSuffix.length_le
              omega
          | succ limit =>
              obtain ⟨index, rfl, isFront⟩ := isHist (Nat.succ_pos limit)
              obtain ⟨holdsLevel, holdsLater⟩ := holds
              obtain ⟨isLast, histsLater⟩ := histsHold
              have later : limit + (order + 1) = past.length + 2 := by omega
              have raised := @raised_bump tally (past ++ [word]) order
              rw [← drop_concat positive word] at raised
              obtain ⟨added, newIndex, isRaised, holdsAdded, longer, found⟩ :=
                holdsLevel.raise_eq base isFront isWord raised Nat.one_pos (by
                  -- an order that is still empty is that of the whole sentence
                  intro isEmpty
                  have isNext : past.length < order := by
                    by_contra fits
                    obtain ⟨lastIndex, _, isGram⟩ := isLast (Nat.le_of_not_lt fits)
                    rw [isEmpty] at isGram
                    cases isGram
                  have isWhole : past.length + 1 - order = 0 := by omega
                  rw [isWhole, List.drop_zero, List.head?_append, led]
                  rfl)
              have isAdded : level.add (some index) (some id) = some (added, some newIndex) := by
                rw [Level.add, isRaised]
                rfl
              have baseAdded := holdsAdded.formed.base base
              have holdsOver := holdsLater.longer (List.prefix_refl words) longer
              have histsOver := histsLater.longer holdsLater longer
              obtain ⟨levelsAfter, histsAfter, ran, holdsAfter, histsHoldAfter, sameLength⟩ :=
                ih (Nat.le_add_left 1 order) later holdsOver baseAdded histsOver (by
                  intro more
                  obtain ⟨lastIndex, isIndex, isGram⟩ := isLast (by omega)
                  have sameStart : past.length + 1 - (order + 1) = past.length - order := by omega
                  rw [sameStart]
                  exact ⟨lastIndex, isIndex, HashVector.getElem?_of_prefix longer isGram⟩)
              refine ⟨added :: levelsAfter, some newIndex :: histsAfter, ?_,
                ⟨holdsAdded, holdsAfter⟩, ⟨?_, histsHoldAfter⟩, congrArg Nat.succ sameLength⟩
              · simp only [addWord, isAdded, ran, Option.bind_eq_bind, Option.bind_some]
              · intro _
                refine ⟨newIndex, rfl, ?_⟩
                rw [← drop_concat positive word]
                exact found

end

end Mitlm
