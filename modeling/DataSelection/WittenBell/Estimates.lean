/-
What the probability loops store.

A word gets its share of all words.  A longer n-gram gets its count over the count of
its history, discounted by the number of words seen behind the history.
-/

import DataSelection.Library.BackOff
import DataSelection.WittenBell.Grams
import DataSelection.WittenBell.Smoothing

namespace WittenBell

open Library Dictionary

def setProbability (prob : ℚ) (gram : Gram) : Gram := { gram with probability := prob }

/-- The words seen behind a history, as a set. -/
def successors (dictionary : Dictionary) (history : List Word) : Finset Word :=
  (dictionary.nextWords history).toFinset

theorem card_successors (dictionary : Dictionary) (history : List Word) :
    (successors dictionary history).card = (dictionary.nextWords history).length :=
  List.toFinset_card_of_nodup (nodup_nextWords dictionary history)

theorem mem_successors {dictionary : Dictionary} {history : List Word} {word : Word}
    (isHistory : IsHistory history) :
    word ∈ successors dictionary history ↔ dictionary.Seen (history ++ [word]) := by
  unfold successors
  rw [List.mem_toFinset, mem_nextWords isHistory]

theorem successors_congr {before after : Dictionary}
    (seen : ∀ entry, after.Seen entry ↔ before.Seen entry) {history : List Word}
    (isHistory : IsHistory history) : successors after history = successors before history := by
  ext word
  rw [mem_successors isHistory, mem_successors isHistory, seen]

def estimate (dictionary : Dictionary) (uniCount : Nat) (entry : List Word) : ℚ :=
  if entry.length = 1 then ((dictionary.gram entry).count : ℚ) / (uniCount : ℚ)
  else ((dictionary.gram entry).count : ℚ) /
    (((dictionary.gram entry.dropLast).count +
      (successors dictionary entry.dropLast).card : Nat) : ℚ)

theorem estimate_singleton (dictionary : Dictionary) (uniCount : Nat) (word : Word) :
    estimate dictionary uniCount [word] =
      ((dictionary.gram [word]).count : ℚ) / (uniCount : ℚ) := if_pos rfl

theorem estimate_concat (dictionary : Dictionary) (uniCount : Nat) {history : List Word}
    (isHistory : IsHistory history) (word : Word) :
    estimate dictionary uniCount (history ++ [word]) =
      discounted (successors dictionary history)
        (fun word => (dictionary.gram (history ++ [word])).count)
        (dictionary.gram history).count word := by
  have long : (history ++ [word]).length ≠ 1 := by
    have positive := isHistory.1
    rw [List.length_append, List.length_singleton]
    omega
  unfold estimate discounted
  rw [if_neg long, List.dropLast_concat]

theorem estimate_congr {before after : Dictionary}
    (seen : ∀ entry, after.Seen entry ↔ before.Seen entry)
    (count : ∀ entry, (after.gram entry).count = (before.gram entry).count) (uniCount : Nat)
    {entry : List Word} (isEntry : IsEntry entry) :
    estimate after uniCount entry = estimate before uniCount entry := by
  unfold estimate
  by_cases one : entry.length = 1
  · rw [if_pos one, if_pos one, count]
  · have isHistory : IsHistory entry.dropLast := by
      have bounds := isEntry
      unfold IsEntry at bounds
      unfold IsHistory
      rw [List.length_dropLast]
      omega
    rw [if_neg one, if_neg one, count, count, successors_congr seen isHistory]

/-! ### One n-gram -/

theorem divide_eq {numerator denominator : ℚ} (nonzero : denominator ≠ 0) :
    divide numerator denominator = some (numerator / denominator) := if_neg nonzero

theorem estimateUnigramProb_eq {dictionary : Dictionary} (clean : Clean dictionary)
    {uniCount : Nat} (nonzero : uniCount ≠ 0) {word : Word} (seen : dictionary.Seen [word]) :
    ∃ read, estimateUnigramProb uniCount dictionary (join [word]) =
        some (setProb [word] (estimate dictionary uniCount [word]) read) ∧
      Same dictionary read := by
  obtain ⟨read, counted, same⟩ := read_seen Gram.count seen
  refine ⟨read, ?_, same⟩
  unfold estimateUnigramProb getCount
  rw [split_join (clean [word] seen), counted]
  dsimp only [Option.bind_eq_bind, Option.bind_some]
  rw [divide_eq (Nat.cast_ne_zero.mpr nonzero), estimate_singleton]
  rfl

section

variable {dictionary : Dictionary} {history : List Word} {word : Word}
  (isHistory : IsHistory history) (seenHistory : dictionary.Seen history)
  (seen : dictionary.Seen (history ++ [word]))

include isHistory seenHistory seen

private theorem estimateNext_eq (uniCount : Nat) :
    ∃ read, (do
        let (nextGrams, dictionary) ← getNextGrams history dictionary
        let (historyCount, dictionary) ← getCount history dictionary
        let (count, dictionary) ← getCount (history ++ [word]) dictionary
        let probability ← divide count ((historyCount + nextGrams.length : Nat) : ℚ)
        return setProb (history ++ [word]) probability dictionary) =
        some (setProb (history ++ [word])
          (estimate dictionary uniCount (history ++ [word])) read) ∧
      Same dictionary read := by
  obtain ⟨listed, nextGrams, sameListed⟩ := getNextGrams_eq dictionary isHistory
  obtain ⟨counted, historyCount, sameCounted⟩ :=
    read_seen Gram.count ((sameListed.seen history).mpr seenHistory)
  have untilCounted := sameListed.trans sameCounted
  obtain ⟨read, count, sameRead⟩ :=
    read_seen Gram.count ((untilCounted.seen (history ++ [word])).mpr seen)
  refine ⟨read, ?_, untilCounted.trans sameRead⟩
  have positive := List.length_pos_of_mem ((mem_nextWords isHistory).mpr seen)
  have nonzero : (((dictionary.gram history).count +
      (dictionary.nextWords history).length : Nat) : ℚ) ≠ 0 :=
    Nat.cast_ne_zero.mpr (by omega)
  unfold getCount
  rw [nextGrams]
  dsimp only [Option.bind_eq_bind, Option.bind_some]
  rw [historyCount]
  dsimp only [Option.bind_some]
  rw [count]
  dsimp only [Option.bind_some]
  rw [sameListed.gram, untilCounted.gram, divide_eq nonzero, estimate_concat _ _ isHistory,
    discounted, card_successors]
  rfl

end

theorem estimateBigramProb_eq {dictionary : Dictionary} (clean : Clean dictionary)
    (uniCount : Nat) {w1 w2 : Word} (seenHistory : dictionary.Seen [w1])
    (seen : dictionary.Seen [w1, w2]) :
    ∃ read, estimateBigramProb dictionary (join [w1, w2]) =
        some (setProb [w1, w2] (estimate dictionary uniCount [w1, w2]) read) ∧
      Same dictionary read := by
  have first := clean [w1] seenHistory w1 List.mem_cons_self
  have whole : split w1 = [w1] := tokens_word first.nonempty first.clean
  unfold estimateBigramProb
  rw [split_join (clean [w1, w2] seen)]
  dsimp only [List.getElem?_cons_zero, Option.bind_eq_bind, Option.bind_some]
  rw [whole]
  exact estimateNext_eq (isHistory_one w1) seenHistory seen uniCount

theorem estimateTrigramProb_eq {dictionary : Dictionary} (clean : Clean dictionary)
    (uniCount : Nat) {w1 w2 w3 : Word} (seenHistory : dictionary.Seen [w1, w2])
    (seen : dictionary.Seen [w1, w2, w3]) :
    ∃ read, estimateTrigramProb dictionary (join [w1, w2, w3]) =
        some (setProb [w1, w2, w3] (estimate dictionary uniCount [w1, w2, w3]) read) ∧
      Same dictionary read := by
  unfold estimateTrigramProb
  rw [split_join (clean [w1, w2, w3] seen)]
  exact estimateNext_eq (isHistory_two w1 w2) seenHistory seen uniCount

/-! ### The loops -/

/-- Every n-gram with its probability, and everything else as it was. -/
structure Estimated (uniCount : Nat) (before after : Dictionary) : Prop where
  seen : ∀ entry, after.Seen entry ↔ before.Seen entry
  count : ∀ entry, (after.gram entry).count = (before.gram entry).count
  probability : ∀ entry, before.Seen entry →
    (after.gram entry).probability = estimate before uniCount entry

/-- A part of a seen n-gram that was counted with it. -/
def ClosedUnderHistory (dictionary : Dictionary) : Prop :=
  ∀ history word, IsHistory history → dictionary.Seen (history ++ [word]) →
    dictionary.Seen history

theorem foldlM_estimates (step : Dictionary → List Char → Option Dictionary)
    {before current : Dictionary} (uniCount : Nat) {n : Nat} {entries earlier : List (List Word)}
    (listed : ∀ entry, entry ∈ entries ↔ before.Seen entry ∧ entry.length = n)
    (start : Writes setProbability (estimate before uniCount) earlier before current)
    (steps : ∀ state : Dictionary, (∀ entry, state.Seen entry ↔ before.Seen entry) →
      ∀ entry, before.Seen entry → entry.length = n → ∃ read, step state (join entry) =
          some (setProb entry (estimate state uniCount entry) read) ∧ Same state read) :
    ∃ after, (entries.map join).foldlM step current = some after ∧
      Writes setProbability (estimate before uniCount) (earlier ++ entries) before after := by
  have seen : ∀ entry ∈ entries, before.Seen entry :=
    fun entry member => ((listed entry).mp member).1
  have again : ∀ first second gram,
      setProbability second (setProbability first gram) = setProbability second gram :=
    fun _ _ _ => rfl
  apply foldlM_writes again seen start
  intro done entry state member writes
  have isSeen := seen entry member
  obtain ⟨read, stepped, same⟩ :=
    steps state writes.seen entry isSeen ((listed entry).mp member).2
  have unchanged := estimate_congr writes.seen
    (writes.keeps Gram.count (fun _ _ => rfl)) uniCount isSeen.isEntry
  rw [unchanged] at stepped
  exact ⟨read, _, stepped, same, setProb_changes isSeen.isEntry read _⟩

section

variable {dictionary : Dictionary} (clean : Clean dictionary)
  (closed : ClosedUnderHistory dictionary) {uniCount : Nat} {state : Dictionary}
  (seen : ∀ entry, state.Seen entry ↔ dictionary.Seen entry) {entry : List Word}
  (isSeen : dictionary.Seen entry)

include clean seen isSeen

private theorem unigramProb_step (nonzero : uniCount ≠ 0) (one : entry.length = 1) :
    ∃ read, estimateUnigramProb uniCount state (join entry) =
        some (setProb entry (estimate state uniCount entry) read) ∧ Same state read := by
  rcases List.length_eq_one_iff.mp one with ⟨word, rfl⟩
  exact estimateUnigramProb_eq (clean.of_same seen) nonzero ((seen _).mpr isSeen)

include closed

private theorem bigramProb_step (two : entry.length = 2) :
    ∃ read, estimateBigramProb state (join entry) =
        some (setProb entry (estimate state uniCount entry) read) ∧ Same state read := by
  rcases List.length_eq_two.mp two with ⟨w1, w2, rfl⟩
  have seenHistory := closed [w1] w2 (isHistory_one w1) isSeen
  exact estimateBigramProb_eq (clean.of_same seen) uniCount ((seen _).mpr seenHistory)
    ((seen _).mpr isSeen)

private theorem trigramProb_step (three : entry.length = 3) :
    ∃ read, estimateTrigramProb state (join entry) =
        some (setProb entry (estimate state uniCount entry) read) ∧ Same state read := by
  rcases List.length_eq_three.mp three with ⟨w1, w2, w3, rfl⟩
  have seenHistory := closed [w1, w2] w3 (isHistory_two w1 w2) isSeen
  exact estimateTrigramProb_eq (clean.of_same seen) uniCount ((seen _).mpr seenHistory)
    ((seen _).mpr isSeen)

end

theorem estimateProbs_estimated {dictionary : Dictionary} (clean : Clean dictionary)
    (closed : ClosedUnderHistory dictionary) {uniCount : Nat} (nonzero : uniCount ≠ 0) :
    ∃ after, estimateProbs (getGrams 1 dictionary) (getGrams 2 dictionary)
        (getGrams 3 dictionary) dictionary uniCount = some after ∧
      Estimated uniCount dictionary after := by
  obtain ⟨unigrams, isUnigrams, inUnigrams⟩ := getGrams_eq clean (n := 1) (by decide)
  obtain ⟨bigrams, isBigrams, inBigrams⟩ := getGrams_eq clean (n := 2) (by decide)
  obtain ⟨trigrams, isTrigrams, inTrigrams⟩ := getGrams_eq clean (n := 3) (by decide)
  obtain ⟨first, ranFirst, writesFirst⟩ := foldlM_estimates (estimateUnigramProb uniCount)
    uniCount inUnigrams (Writes.none dictionary)
    (fun _ seen _ isSeen one => unigramProb_step clean seen isSeen nonzero one)
  obtain ⟨second, ranSecond, writesSecond⟩ := foldlM_estimates estimateBigramProb
    uniCount inBigrams writesFirst
    (fun _ seen _ isSeen two => bigramProb_step clean closed seen isSeen two)
  obtain ⟨third, ranThird, writesThird⟩ := foldlM_estimates estimateTrigramProb
    uniCount inTrigrams writesSecond
    (fun _ seen _ isSeen three => trigramProb_step clean closed seen isSeen three)
  refine ⟨third, ?_, ?_⟩
  · unfold estimateProbs
    rw [isUnigrams, isBigrams, isTrigrams, ranFirst, Option.bind_eq_bind, Option.bind_some,
      ranSecond, Option.bind_some, ranThird]
  · constructor
    · exact writesThird.seen
    · exact writesThird.keeps Gram.count (fun _ _ => rfl)
    · intro entry isSeen
      have bounds := isSeen.isEntry
      unfold IsEntry at bounds
      have widths : entry.length = 1 ∨ entry.length = 2 ∨ entry.length = 3 := by omega
      have listed : entry ∈ [] ++ unigrams ++ bigrams ++ trigrams := by
        rw [List.nil_append, List.mem_append, List.mem_append, inUnigrams, inBigrams, inTrigrams]
        simpa only [isSeen, true_and, or_assoc] using widths
      rw [writesThird.written entry listed]
      rfl

end WittenBell
