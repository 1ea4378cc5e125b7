/-
What the back-off loops store.

The loops run over the words behind a history and subtract the probabilities of the
longer and of the shorter n-grams.  All of these were seen, so nothing is inserted.
-/

import DataSelection.WittenBell.Estimates

namespace WittenBell

open Library Dictionary

def setBackoff (bo : ℚ) (gram : Gram) : Gram := { gram with backoff := bo }

def weight (dictionary : Dictionary) (history : List Word) : ℚ :=
  backOffWeight (successors dictionary history)
    (fun word => (dictionary.gram (history ++ [word])).probability)
    (fun word => (dictionary.gram (history.tail ++ [word])).probability)

/-- The mass that the words behind a history leave to the shorter histories. -/
def baseLeft (dictionary : Dictionary) (history : List Word) : ℚ :=
  1 - ∑ word ∈ successors dictionary history,
    (dictionary.gram (history.tail ++ [word])).probability

section

variable {before after : Dictionary}
  (seen : ∀ entry, after.Seen entry ↔ before.Seen entry)
  (probability : ∀ entry, (after.gram entry).probability = (before.gram entry).probability)
  {history : List Word} (isHistory : IsHistory history)

include seen probability isHistory

theorem weight_congr : weight after history = weight before history := by
  unfold weight
  simp only [successors_congr seen isHistory, probability]

theorem baseLeft_congr : baseLeft after history = baseLeft before history := by
  unfold baseLeft
  simp only [successors_congr seen isHistory, probability]

end

/-! ### One history -/

section

variable {dictionary : Dictionary} {history : List Word} {higher lower : Word → List Word}

theorem foldlM_subtractMass {nextGrams : List Word} {start : Dictionary}
    (same : Same dictionary start)
    (isHigher : ∀ word ∈ nextGrams, higher word = history ++ [word])
    (isLower : ∀ word ∈ nextGrams, lower word = history.tail ++ [word])
    (seenHigher : ∀ word ∈ nextGrams, dictionary.Seen (history ++ [word]))
    (seenLower : ∀ word ∈ nextGrams, dictionary.Seen (history.tail ++ [word])) :
    ∃ mass, nextGrams.foldlM (subtractMass higher lower)
        { numerator := 1
          denominator := 1
          dictionary := start } = some mass ∧
      mass.numerator = 1 - (nextGrams.map
        (fun word => (dictionary.gram (history ++ [word])).probability)).sum ∧
      mass.denominator = 1 - (nextGrams.map
        (fun word => (dictionary.gram (history.tail ++ [word])).probability)).sum ∧
      Same dictionary mass.dictionary := by
  apply foldlM_run (fun (done : List Word) (mass : Mass) =>
    mass.numerator = 1 - (done.map
      (fun word => (dictionary.gram (history ++ [word])).probability)).sum ∧
    mass.denominator = 1 - (done.map
      (fun word => (dictionary.gram (history.tail ++ [word])).probability)).sum ∧
    Same dictionary mass.dictionary)
  · simp [same]
  · rintro done word mass member ⟨numerator, denominator, sameMass⟩
    obtain ⟨first, readHigher, sameFirst⟩ :=
      getProb_seen ((sameMass.seen _).mpr (seenHigher word member))
    have untilFirst := sameMass.trans sameFirst
    obtain ⟨second, readLower, sameSecond⟩ :=
      getProb_seen ((untilFirst.seen _).mpr (seenLower word member))
    refine ⟨{ numerator := mass.numerator - (mass.dictionary.gram (history ++ [word])).probability
              denominator := mass.denominator - (first.gram (history.tail ++ [word])).probability
              dictionary := second }, ?_, ?_, ?_, untilFirst.trans sameSecond⟩
    · unfold subtractMass
      rw [isHigher word member, isLower word member, readHigher]
      dsimp only [Option.bind_eq_bind, Option.bind_some]
      rw [readLower]
      rfl
    · rw [numerator, sameMass.gram, List.map_append, List.sum_append, List.map_singleton,
        List.sum_singleton, sub_sub]
    · rw [denominator, untilFirst.gram, List.map_append, List.sum_append, List.map_singleton,
        List.sum_singleton, sub_sub]

/-- The part that both loops share, once the history is split: the division by the
mass that is left to the shorter histories decides. -/
private theorem estimateBO_divides (isHistory : IsHistory history)
    (isHigher : ∀ word ∈ dictionary.nextWords history, higher word = history ++ [word])
    (isLower : ∀ word ∈ dictionary.nextWords history, lower word = history.tail ++ [word])
    (seenLower : ∀ word ∈ dictionary.nextWords history, dictionary.Seen (history.tail ++ [word])) :
    ∃ read, (do
        let (nextGrams, dictionary) ← getNextGrams history dictionary
        let mass ← nextGrams.foldlM (subtractMass higher lower)
          { numerator := 1
            denominator := 1
            dictionary := dictionary }
        let backoff ← divide mass.numerator mass.denominator
        return setBO history backoff mass.dictionary) =
        (divide (1 - ∑ word ∈ successors dictionary history,
            (dictionary.gram (history ++ [word])).probability)
          (baseLeft dictionary history)).map (fun backoff => setBO history backoff read) ∧
      Same dictionary read := by
  obtain ⟨listed, nextGrams, sameListed⟩ := getNextGrams_eq dictionary isHistory
  obtain ⟨mass, subtracted, numerator, denominator, sameMass⟩ :=
    foldlM_subtractMass sameListed isHigher isLower
      (fun word member => (mem_nextWords isHistory).mp member) seenLower
  refine ⟨mass.dictionary, ?_, sameMass⟩
  have distinct := nodup_nextWords dictionary history
  rw [← List.sum_toFinset _ distinct] at numerator denominator
  rw [nextGrams]
  dsimp only [Option.bind_eq_bind, Option.bind_some]
  rw [subtracted, Option.bind_some, numerator, denominator]
  unfold baseLeft successors
  generalize divide _ _ = quotient
  cases quotient with
  | none => rfl
  | some backoff => rfl

end

/-- What was seen behind a history was also seen behind its last word. -/
def ClosedUnderTail (dictionary : Dictionary) : Prop :=
  ∀ history word, IsHistory history → dictionary.Seen (history ++ [word]) →
    dictionary.Seen (history.tail ++ [word])

def dividedWeight (dictionary : Dictionary) (history : List Word) : Option ℚ :=
  divide (1 - ∑ word ∈ successors dictionary history,
      (dictionary.gram (history ++ [word])).probability) (baseLeft dictionary history)

theorem dividedWeight_eq {dictionary : Dictionary} {history : List Word}
    (left : baseLeft dictionary history ≠ 0) :
    dividedWeight dictionary history = some (weight dictionary history) := divide_eq left

theorem estimateUnigramBO_divides {dictionary : Dictionary} (clean : Clean dictionary)
    (closed : ClosedUnderTail dictionary) {w1 : Word} (seen : dictionary.Seen [w1]) :
    ∃ read, estimateUnigramBO dictionary (join [w1]) =
        (dividedWeight dictionary [w1]).map (fun backoff => setBO [w1] backoff read) ∧
      Same dictionary read := by
  have isSeen : ∀ word ∈ dictionary.nextWords [w1], dictionary.Seen [w1, word] :=
    fun word member => (mem_nextWords (isHistory_one w1)).mp member
  unfold estimateUnigramBO
  rw [split_join (clean [w1] seen)]
  apply estimateBO_divides (isHistory_one w1)
  · intro word member
    rw [join_singleton]
    exact split_join (clean [w1, word] (isSeen word member))
  · intro word member
    have isClean := clean [w1, word] (isSeen word member) word (by simp)
    exact tokens_word isClean.nonempty isClean.clean
  · intro word member
    exact closed [w1] word (isHistory_one w1) (isSeen word member)

theorem estimateBigramBO_divides {dictionary : Dictionary} (clean : Clean dictionary)
    (closed : ClosedUnderTail dictionary) {w1 w2 : Word} (seen : dictionary.Seen [w1, w2]) :
    ∃ read, estimateBigramBO dictionary (join [w1, w2]) =
        (dividedWeight dictionary [w1, w2]).map (fun backoff => setBO [w1, w2] backoff read) ∧
      Same dictionary read := by
  have isSeen : ∀ word ∈ dictionary.nextWords [w1, w2], dictionary.Seen [w1, w2, word] :=
    fun word member => (mem_nextWords (isHistory_two w1 w2)).mp member
  unfold estimateBigramBO
  rw [split_join (clean [w1, w2] seen)]
  apply estimateBO_divides (isHistory_two w1 w2)
  · intro word member
    have joined : join [join [w1, w2], word] = join [w1, w2, word] := by
      simp [join, List.intercalate_cons_cons, List.intercalate_singleton]
    rw [joined]
    exact split_join (clean [w1, w2, word] (isSeen word member))
  · exact fun _ _ => rfl
  · intro word member
    exact closed [w1, w2] word (isHistory_two w1 w2) (isSeen word member)

theorem estimateUnigramBO_eq {dictionary : Dictionary} (clean : Clean dictionary)
    (closed : ClosedUnderTail dictionary) {w1 : Word} (seen : dictionary.Seen [w1])
    (left : baseLeft dictionary [w1] ≠ 0) :
    ∃ read, estimateUnigramBO dictionary (join [w1]) =
        some (setBO [w1] (weight dictionary [w1]) read) ∧ Same dictionary read := by
  rcases estimateUnigramBO_divides clean closed seen with ⟨read, ran, same⟩
  rw [dividedWeight_eq left] at ran
  exact ⟨read, ran, same⟩

theorem estimateBigramBO_eq {dictionary : Dictionary} (clean : Clean dictionary)
    (closed : ClosedUnderTail dictionary) {w1 w2 : Word} (seen : dictionary.Seen [w1, w2])
    (left : baseLeft dictionary [w1, w2] ≠ 0) :
    ∃ read, estimateBigramBO dictionary (join [w1, w2]) =
        some (setBO [w1, w2] (weight dictionary [w1, w2]) read) ∧ Same dictionary read := by
  rcases estimateBigramBO_divides clean closed seen with ⟨read, ran, same⟩
  rw [dividedWeight_eq left] at ran
  exact ⟨read, ran, same⟩

/-! ### The loops -/

/-- Every history with its back-off weight, and everything else as it was. -/
structure Weighted (before after : Dictionary) : Prop where
  seen : ∀ entry, after.Seen entry ↔ before.Seen entry
  probability : ∀ entry, (after.gram entry).probability = (before.gram entry).probability
  backoff : ∀ history, IsHistory history → before.Seen history →
    (after.gram history).backoff = weight before history

theorem foldlM_weights (step : Dictionary → List Char → Option Dictionary)
    {before current : Dictionary} {entries earlier : List (List Word)}
    (seen : ∀ entry ∈ entries, before.Seen entry) (histories : ∀ entry ∈ entries, IsHistory entry)
    (start : Writes setBackoff (weight before) earlier before current)
    (left : ∀ entry ∈ entries, baseLeft before entry ≠ 0)
    (steps : ∀ state : Dictionary, (∀ entry, state.Seen entry ↔ before.Seen entry) →
      ∀ entry ∈ entries, baseLeft state entry ≠ 0 →
        ∃ read, step state (join entry) = some (setBO entry (weight state entry) read) ∧
          Same state read) :
    ∃ after, (entries.map join).foldlM step current = some after ∧
      Writes setBackoff (weight before) (earlier ++ entries) before after := by
  have again : ∀ first second gram,
      setBackoff second (setBackoff first gram) = setBackoff second gram :=
    fun _ _ _ => rfl
  apply foldlM_writes again seen start
  intro done entry state member writes
  have isHistory := histories entry member
  have probability := writes.keeps Gram.probability (fun _ _ => rfl)
  have stateLeft : baseLeft state entry ≠ 0 := by
    rw [baseLeft_congr writes.seen probability isHistory]
    exact left entry member
  obtain ⟨read, stepped, same⟩ := steps state writes.seen entry member stateLeft
  rw [weight_congr writes.seen probability isHistory] at stepped
  exact ⟨read, _, stepped, same, setBO_changes (seen entry member).isEntry read _⟩

theorem estimateBOs_weighted {listed dictionary : Dictionary} (clean : Clean listed)
    (seen : ∀ entry, dictionary.Seen entry ↔ listed.Seen entry)
    (closed : ClosedUnderTail dictionary)
    (left : ∀ history, IsHistory history → dictionary.Seen history →
      baseLeft dictionary history ≠ 0) :
    ∃ after, estimateBOs (getGrams 1 listed) (getGrams 2 listed) dictionary = some after ∧
      Weighted dictionary after := by
  have closedState : ∀ state : Dictionary, (∀ entry, state.Seen entry ↔ dictionary.Seen entry) →
      Clean state ∧ ClosedUnderTail state := by
    intro state same
    constructor
    · exact clean.of_same (fun entry => (same entry).trans (seen entry))
    · intro history word isHistory isSeen
      exact (same _).mpr (closed history word isHistory ((same _).mp isSeen))
  obtain ⟨unigrams, isUnigrams, inUnigrams⟩ := getGrams_eq clean (n := 1) (by decide)
  obtain ⟨bigrams, isBigrams, inBigrams⟩ := getGrams_eq clean (n := 2) (by decide)
  have members : ∀ entry, entry ∈ unigrams ++ bigrams ↔
      dictionary.Seen entry ∧ IsHistory entry := by
    intro entry
    rw [List.mem_append, inUnigrams, inBigrams, seen, ← and_or_left]
    unfold IsHistory
    exact and_congr_right (fun _ => by omega)
  have inFirst : ∀ entry ∈ unigrams, dictionary.Seen entry ∧ IsHistory entry :=
    fun entry member => (members entry).mp (List.mem_append_left bigrams member)
  have inSecond : ∀ entry ∈ bigrams, dictionary.Seen entry ∧ IsHistory entry :=
    fun entry member => (members entry).mp (List.mem_append_right unigrams member)
  obtain ⟨first, ranFirst, writesFirst⟩ := foldlM_weights estimateUnigramBO
    (fun entry member => (inFirst entry member).1) (fun entry member => (inFirst entry member).2)
    (Writes.none dictionary)
    (fun entry member => left entry (inFirst entry member).2 (inFirst entry member).1) (by
      intro state same entry member stateLeft
      rcases (inUnigrams entry).mp member with ⟨isSeen, one⟩
      rcases List.length_eq_one_iff.mp one with ⟨w1, rfl⟩
      exact estimateUnigramBO_eq (closedState state same).1 (closedState state same).2
        ((same _).mpr ((seen _).mpr isSeen)) stateLeft)
  obtain ⟨second, ranSecond, writesSecond⟩ := foldlM_weights estimateBigramBO
    (fun entry member => (inSecond entry member).1)
    (fun entry member => (inSecond entry member).2) writesFirst
    (fun entry member => left entry (inSecond entry member).2 (inSecond entry member).1) (by
      intro state same entry member stateLeft
      rcases (inBigrams entry).mp member with ⟨isSeen, two⟩
      rcases List.length_eq_two.mp two with ⟨w1, w2, rfl⟩
      exact estimateBigramBO_eq (closedState state same).1 (closedState state same).2
        ((same _).mpr ((seen _).mpr isSeen)) stateLeft)
  refine ⟨second, ?_, ?_⟩
  · unfold estimateBOs
    rw [isUnigrams, isBigrams, ranFirst, Option.bind_eq_bind, Option.bind_some, ranSecond]
  · constructor
    · exact writesSecond.seen
    · exact writesSecond.keeps Gram.probability (fun _ _ => rfl)
    · intro history isHistory isSeen
      have listed := (members history).mpr ⟨isSeen, isHistory⟩
      rw [writesSecond.written history listed]
      rfl

/-! ### Loops that may raise -/

/-- Nothing but back-off weights differs. -/
structure Reweighted (before after : Dictionary) : Prop where
  seen : ∀ entry, after.Seen entry ↔ before.Seen entry
  count : ∀ entry, (after.gram entry).count = (before.gram entry).count
  probability : ∀ entry, (after.gram entry).probability = (before.gram entry).probability

theorem Reweighted.trans {first second third : Dictionary} (reweighted : Reweighted first second)
    (next : Reweighted second third) : Reweighted first third :=
  { seen := fun entry => (next.seen entry).trans (reweighted.seen entry)
    count := fun entry => (next.count entry).trans (reweighted.count entry)
    probability := fun entry => (next.probability entry).trans (reweighted.probability entry) }

theorem reweighted_setBO {before read : Dictionary} {entry : List Word} (bo : ℚ)
    (same : Same before read) (seen : before.Seen entry) :
    Reweighted before (setBO entry bo read) := by
  have changes := setBO_changes seen.isEntry read bo
  constructor
  · intro other
    rw [changes.seen, same.seen]
    constructor
    · intro either
      cases either with
      | inl isEntry =>
          rw [isEntry]
          exact seen
      | inr earlier => exact earlier
    · exact Or.inr
  · intro other
    rw [changes.gram, same.gram]
    split <;> rfl
  · intro other
    rw [changes.gram, same.gram]
    split <;> rfl

theorem foldlM_reweights (step : Dictionary → List Char → Option Dictionary)
    {before after : Dictionary} {entries : List (List Word)}
    (seen : ∀ entry ∈ entries, before.Seen entry)
    (steps : ∀ state : Dictionary, (∀ entry, state.Seen entry ↔ before.Seen entry) →
      ∀ entry ∈ entries, ∃ read, step state (join entry) =
          (dividedWeight state entry).map (fun backoff => setBO entry backoff read) ∧
        Same state read)
    (ran : (entries.map join).foldlM step before = some after) : Reweighted before after := by
  rw [List.foldlM_map] at ran
  apply foldlM_followed (fun (_ : List (List Word)) state => Reweighted before state) _ _ ran
  · exact ⟨fun _ => Iff.rfl, fun _ => rfl, fun _ => rfl⟩
  · intro _ entry state next member stepped reweighted
    rcases steps state reweighted.seen entry member with ⟨read, result, same⟩
    rw [result] at stepped
    rcases Option.map_eq_some_iff.mp stepped with ⟨backoff, _, isNext⟩
    subst isNext
    exact reweighted.trans
      (reweighted_setBO backoff same ((reweighted.seen entry).mpr (seen entry member)))

/-- Whenever the back-off loops succeed, they change nothing but back-off weights. -/
theorem estimateBOs_reweighted {listed dictionary after : Dictionary} (clean : Clean listed)
    (seen : ∀ entry, dictionary.Seen entry ↔ listed.Seen entry)
    (closed : ClosedUnderTail dictionary)
    (ran : estimateBOs (getGrams 1 listed) (getGrams 2 listed) dictionary = some after) :
    Reweighted dictionary after := by
  have closedState : ∀ state : Dictionary, (∀ entry, state.Seen entry ↔ dictionary.Seen entry) →
      Clean state ∧ ClosedUnderTail state := by
    intro state same
    constructor
    · exact clean.of_same (fun entry => (same entry).trans (seen entry))
    · intro history word isHistory isSeen
      exact (same _).mpr (closed history word isHistory ((same _).mp isSeen))
  rcases getGrams_eq clean (n := 1) (by decide) with ⟨unigrams, isUnigrams, inUnigrams⟩
  rcases getGrams_eq clean (n := 2) (by decide) with ⟨bigrams, isBigrams, inBigrams⟩
  unfold estimateBOs at ran
  rw [isUnigrams, isBigrams] at ran
  rcases Option.bind_eq_some_iff.mp ran with ⟨middle, ranFirst, ranSecond⟩
  have first : Reweighted dictionary middle := by
    apply foldlM_reweights estimateUnigramBO _ _ ranFirst
    · exact fun entry member => (seen entry).mpr ((inUnigrams entry).mp member).1
    · intro state same entry member
      rcases (inUnigrams entry).mp member with ⟨isSeen, one⟩
      rcases List.length_eq_one_iff.mp one with ⟨w1, rfl⟩
      exact estimateUnigramBO_divides (closedState state same).1 (closedState state same).2
        ((same _).mpr ((seen _).mpr isSeen))
  have second : Reweighted middle after := by
    apply foldlM_reweights estimateBigramBO _ _ ranSecond
    · exact fun entry member => (first.seen entry).mpr
        ((seen entry).mpr ((inBigrams entry).mp member).1)
    · intro state same entry member
      have still := fun other => (same other).trans (first.seen other)
      rcases (inBigrams entry).mp member with ⟨isSeen, two⟩
      rcases List.length_eq_two.mp two with ⟨w1, w2, rfl⟩
      exact estimateBigramBO_divides (closedState state still).1 (closedState state still).2
        ((still _).mpr ((seen _).mpr isSeen))
  exact first.trans second

end WittenBell
