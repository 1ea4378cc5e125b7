/-
The n-grams that are handed to the printing of an ARPA file.

The lists are closed under taking the shorter n-grams inside a listed one, and every
listed n-gram was counted.  No lookup along the way adds an n-gram to a list, neither
for a plain model nor for a class model expanded into words.
-/

import DataSelection.WittenBell.Classes
import DataSelection.WittenBell.Expanded
import DataSelection.WittenBell.Mass

namespace WittenBell

open Library Dictionary

/-- The arguments of `printArpa`. -/
structure Arpa where
  unigrams : List (List Char)
  bigrams : List (List Char)
  trigrams : List (List Char)
  dictionary : Dictionary

def smoothAndPrint (corpus : Corpus) : Option Arpa := do
  let smoothed ← smooth corpus
  let dictionary ← estimateBOs smoothed.unigrams smoothed.bigrams smoothed.dictionary
  some { unigrams := smoothed.unigrams
         bigrams := smoothed.bigrams
         trigrams := smoothed.trigrams
         dictionary := dictionary }

/-- `main` of the script that expands predefined clusters, from the substituted text on.  The
function of this name has the same steps, but it hands no dictionary to `printArpa`, which
raises there. -/
def createPreclusteredLM (predefinedClusters : Clusters) (corpus : Corpus) : Option Arpa := do
  let smoothed ← smooth corpus
  let (expanded, _) ← expandDictionaryWithClusters smoothed.unigrams smoothed.bigrams
    smoothed.trigrams predefinedClusters smoothed.dictionary
  let unigrams := getGrams 1 expanded
  let bigrams := getGrams 2 expanded
  let dictionary ← estimateBOs unigrams bigrams expanded
  some { unigrams := unigrams
         bigrams := bigrams
         trigrams := getGrams 3 dictionary
         dictionary := dictionary }

/-! ### What the lists satisfy -/

/-- The shorter n-grams of a listed n-gram are listed, and every listed n-gram has a
count and a probability. -/
structure ClosedArpa (arpa : Arpa) : Prop where
  bigrams : ∀ text ∈ arpa.bigrams, ∃ w1 w2, split text = [w1, w2] ∧
    join [w1] ∈ arpa.unigrams ∧ join [w2] ∈ arpa.unigrams
  trigrams : ∀ text ∈ arpa.trigrams, ∃ w1 w2 w3, split text = [w1, w2, w3] ∧
    join [w1, w2] ∈ arpa.bigrams ∧ join [w2, w3] ∈ arpa.bigrams
  counted : ∀ text ∈ arpa.unigrams ++ arpa.bigrams ++ arpa.trigrams,
    1 ≤ (arpa.dictionary.gram (split text)).count ∧
      0 < (arpa.dictionary.gram (split text)).probability

def SameGrams (before after : Dictionary) : Prop :=
  ∀ n text, text ∈ getGrams n after ↔ text ∈ getGrams n before

theorem sameGrams_of_seen {before after : Dictionary}
    (seen : ∀ entry, after.Seen entry ↔ before.Seen entry) : SameGrams before after := by
  intro n text
  by_cases isWidth : 0 < n ∧ n ≤ 3
  · rw [mem_getGrams isWidth, mem_getGrams isWidth]
    simp only [seen]
  · have outside : ∀ dictionary : Dictionary, getGrams n dictionary = [] := by
      intro dictionary
      match n with
      | 0 => simp [getGrams, sorted]
      | 1 => omega
      | 2 => omega
      | 3 => omega
      | _ + 4 => simp [getGrams, sorted]
    rw [outside, outside]

structure Counted (dictionary : Dictionary) : Prop where
  clean : Clean dictionary
  history : ClosedUnderHistory dictionary
  tail : ClosedUnderTail dictionary
  count : ∀ entry, dictionary.Seen entry → 0 < (dictionary.gram entry).count
  probability : ∀ entry, dictionary.Seen entry → 0 < (dictionary.gram entry).probability

theorem Counted.reweighted {before after : Dictionary} (counted : Counted before)
    (reweighted : Reweighted before after) : Counted after := by
  have seen := reweighted.seen
  constructor
  · exact counted.clean.of_same seen
  · intro history word isHistory isSeen
    exact (seen _).mpr (counted.history history word isHistory ((seen _).mp isSeen))
  · intro history word isHistory isSeen
    exact (seen _).mpr (counted.tail history word isHistory ((seen _).mp isSeen))
  · intro entry isSeen
    rw [reweighted.count]
    exact counted.count entry ((seen entry).mp isSeen)
  · intro entry isSeen
    rw [reweighted.probability]
    exact counted.probability entry ((seen entry).mp isSeen)

theorem Counted.closedArpa {arpa : Arpa} (counted : Counted arpa.dictionary)
    {first second third : Dictionary} (unigrams : arpa.unigrams = getGrams 1 first)
    (bigrams : arpa.bigrams = getGrams 2 second) (trigrams : arpa.trigrams = getGrams 3 third)
    (seenFirst : ∀ entry, arpa.dictionary.Seen entry ↔ first.Seen entry)
    (seenSecond : ∀ entry, arpa.dictionary.Seen entry ↔ second.Seen entry)
    (seenThird : ∀ entry, arpa.dictionary.Seen entry ↔ third.Seen entry) : ClosedArpa arpa := by
  have inUnigrams : ∀ text, text ∈ arpa.unigrams ↔
      ∃ entry, arpa.dictionary.Seen entry ∧ entry.length = 1 ∧ join entry = text := by
    intro text
    rw [unigrams, mem_getGrams (by decide)]
    simp only [seenFirst]
  have inBigrams : ∀ text, text ∈ arpa.bigrams ↔
      ∃ entry, arpa.dictionary.Seen entry ∧ entry.length = 2 ∧ join entry = text := by
    intro text
    rw [bigrams, mem_getGrams (by decide)]
    simp only [seenSecond]
  have inTrigrams : ∀ text, text ∈ arpa.trigrams ↔
      ∃ entry, arpa.dictionary.Seen entry ∧ entry.length = 3 ∧ join entry = text := by
    intro text
    rw [trigrams, mem_getGrams (by decide)]
    simp only [seenThird]
  constructor
  · intro text member
    rcases (inBigrams text).mp member with ⟨entry, seen, two, rfl⟩
    rcases List.length_eq_two.mp two with ⟨w1, w2, rfl⟩
    refine ⟨w1, w2, split_join (counted.clean _ seen), ?_, ?_⟩
    · exact (inUnigrams _).mpr ⟨[w1], counted.history [w1] w2 (isHistory_one w1) seen, rfl, rfl⟩
    · exact (inUnigrams _).mpr ⟨[w2], counted.tail [w1] w2 (isHistory_one w1) seen, rfl, rfl⟩
  · intro text member
    rcases (inTrigrams text).mp member with ⟨entry, seen, three, rfl⟩
    rcases List.length_eq_three.mp three with ⟨w1, w2, w3, rfl⟩
    refine ⟨w1, w2, w3, split_join (counted.clean _ seen), ?_, ?_⟩
    · exact (inBigrams _).mpr
        ⟨[w1, w2], counted.history [w1, w2] w3 (isHistory_two w1 w2) seen, rfl, rfl⟩
    · exact (inBigrams _).mpr
        ⟨[w2, w3], counted.tail [w1, w2] w3 (isHistory_two w1 w2) seen, rfl, rfl⟩
  · intro text member
    have listed : ∃ entry, arpa.dictionary.Seen entry ∧ join entry = text := by
      rw [List.mem_append, List.mem_append, inUnigrams, inBigrams, inTrigrams] at member
      rcases member with (isOne | isTwo) | isThree
      · rcases isOne with ⟨entry, seen, _, joined⟩
        exact ⟨entry, seen, joined⟩
      · rcases isTwo with ⟨entry, seen, _, joined⟩
        exact ⟨entry, seen, joined⟩
      · rcases isThree with ⟨entry, seen, _, joined⟩
        exact ⟨entry, seen, joined⟩
    rcases listed with ⟨entry, seen, rfl⟩
    rw [split_join (counted.clean entry seen)]
    exact ⟨counted.count entry seen, counted.probability entry seen⟩

/-! ### The smoothed model -/

theorem estimate_pos {lines : List (List Char)} {dictionary : Dictionary} {uniCount : Nat}
    (populated : Populated lines dictionary uniCount) (nonempty : lines ≠ []) {entry : List Word}
    (seen : dictionary.Seen entry) : 0 < estimate dictionary uniCount entry := by
  have count := populated.count_pos seen
  unfold estimate
  split
  · exact div_pos (Nat.cast_pos.mpr count) (Nat.cast_pos.mpr (populated.uniCount_pos nonempty))
  · rename_i long
    have bounds := seen.isEntry
    unfold IsEntry at bounds
    have split : entry = entry.dropLast ++ [entry.getLast (List.ne_nil_of_length_pos bounds.1)] :=
      (List.dropLast_append_getLast _).symm
    have isHistory : IsHistory entry.dropLast := by
      unfold IsHistory
      rw [List.length_dropLast]
      omega
    rw [split] at seen
    have history := populated.count_pos (populated.closedUnderHistory _ _ isHistory seen)
    exact div_pos (Nat.cast_pos.mpr count) (Nat.cast_pos.mpr (Nat.add_pos_left history _))

theorem counted_of_estimated {lines : List (List Char)} {dictionary estimated : Dictionary}
    {uniCount : Nat} (populated : Populated lines dictionary uniCount) (nonempty : lines ≠ [])
    (estimates : Estimated uniCount dictionary estimated) : Counted estimated := by
  have seen := estimates.seen
  constructor
  · exact populated.clean.of_same seen
  · intro history word isHistory isSeen
    exact (seen _).mpr (populated.closedUnderHistory history word isHistory ((seen _).mp isSeen))
  · intro history word isHistory isSeen
    exact (seen _).mpr (populated.closedUnderTail history word isHistory ((seen _).mp isSeen))
  · intro entry isSeen
    rw [estimates.count]
    exact populated.count_pos ((seen entry).mp isSeen)
  · intro entry isSeen
    have earlier := (seen entry).mp isSeen
    rw [estimates.probability entry earlier]
    exact estimate_pos populated nonempty earlier

structure SmoothedFrom (counted : Dictionary) (smoothed : Smoothed) : Prop where
  unigrams : smoothed.unigrams = getGrams 1 counted
  bigrams : smoothed.bigrams = getGrams 2 counted
  trigrams : smoothed.trigrams = getGrams 3 counted
  clean : Clean counted
  seen : ∀ entry, smoothed.dictionary.Seen entry ↔ counted.Seen entry
  model : Counted smoothed.dictionary

theorem smooth_smoothedFrom (corpus : Corpus) (nonempty : corpus.lines ≠ []) :
    ∃ counted uniCount smoothed, populateDictionary corpus.lines = some (counted, uniCount) ∧
      smooth corpus = some smoothed ∧ SmoothedFrom counted smoothed := by
  rcases smooth_estimated corpus nonempty with
    ⟨counted, uniCount, estimated, counting, smoothing, populated, estimates⟩
  refine ⟨counted, uniCount, _, counting, smoothing, ?_⟩
  exact
    { unigrams := rfl
      bigrams := rfl
      trigrams := rfl
      clean := populated.clean
      seen := estimates.seen
      model := counted_of_estimated populated nonempty estimates }

theorem smoothAndPrint_runs (corpus : Corpus) (nonempty : corpus.lines ≠ [])
    (unmarked : Unmarked corpus.lines) : ∃ arpa, smoothAndPrint corpus = some arpa := by
  rcases smooth_estimateBOs_weighted corpus nonempty unmarked with
    ⟨smoothed, model, smoothing, weighing, _, _, _⟩
  unfold smoothAndPrint
  rw [smoothing, Option.bind_eq_bind, Option.bind_some, weighing]
  exact ⟨_, rfl⟩

/-! ### The expanded model -/

theorem counted_of_expanded {clusters : Clusters} {old : Dictionary} {entries : List (List Word)}
    {result : Dictionary × Dictionary} (counted : Counted old)
    (expanded : Expanded clusters old entries result)
    (listed : ∀ entry, entry ∈ entries ↔ old.Seen entry) : Counted result.1 := by
  constructor
  · intro words seen
    rcases (expanded.seen words).mp seen with ⟨entry, member, expands⟩
    exact expands.clean (counted.clean entry ((listed entry).mp member))
  · intro history word isHistory seen
    rcases (expanded.seen _).mp seen with ⟨entry, member, expands⟩
    rcases expands_split expands with ⟨front, name, rfl, isFront, _⟩
    have isFrontHistory : IsHistory front := by
      unfold IsHistory
      rw [← isFront.length_eq]
      exact isHistory
    exact (expanded.seen _).mpr ⟨front, (listed front).mpr
      (counted.history front name isFrontHistory ((listed _).mp member)), isFront⟩
  · intro history word isHistory seen
    rcases (expanded.seen _).mp seen with ⟨entry, member, expands⟩
    rcases expands_split expands with ⟨front, name, rfl, isFront, inSlot⟩
    have isFrontHistory : IsHistory front := by
      unfold IsHistory
      rw [← isFront.length_eq]
      exact isHistory
    exact (expanded.seen _).mpr ⟨front.tail ++ [name], (listed _).mpr
      (counted.tail front name isFrontHistory ((listed _).mp member)),
      expands_history_tail isFront inSlot⟩
  · intro words seen
    rcases expanded.stats words seen with ⟨entry, member, _, gram⟩
    rw [gram]
    exact counted.count entry ((listed entry).mp member)
  · intro words seen
    rcases expanded.stats words seen with ⟨entry, member, _, gram⟩
    have size := expansionCount_pos (expanded.known entry member)
    rw [gram]
    exact div_pos (counted.probability entry ((listed entry).mp member)) (Nat.cast_pos.mpr size)

section

variable {clusters : Clusters} {old : Dictionary} {entries : List (List Word)}
  {result : Dictionary × Dictionary} (expanded : Expanded clusters old entries result)
  (listed : ∀ entry, entry ∈ entries ↔ old.Seen entry) (counted : Counted old)
  (disjoint : clusters.PairwiseDisjoint) (replaced : Replaced clusters old)
  (known : ∀ entry, old.Seen entry → ∀ word ∈ entry, old.Seen [word])

include expanded listed disjoint replaced known

theorem gram_expanded {words entry : List Word} (seen : old.Seen entry)
    (expands : Expands clusters words entry) :
    result.1.gram words = expandedGram clusters old entry := by
  have isSeen := (expanded.seen words).mpr ⟨entry, (listed entry).mpr seen, expands⟩
  rcases expanded.stats words isSeen with ⟨other, member, expandsOther, gram⟩
  have same := entry_unique disjoint replaced (known other ((listed other).mp member))
    (known entry seen) expandsOther expands
  rw [gram, same]

include counted

theorem sum_slot_le {words classes : List Word} {name : Word}
    (seen : old.Seen (classes ++ [name])) (expands : Expands clusters words classes) :
    ∑ word ∈ (slotOf clusters name).toFinset, (result.1.gram (words ++ [word])).probability ≤
      (old.gram (classes ++ [name])).probability := by
  have positive := counted.probability _ seen
  have isKnown := expanded.known _ ((listed _).mpr seen)
  have size : (1 : ℚ) ≤ (expansionCount clusters classes : ℚ) := by
    have filled := expansionCount_pos
      (fun word member => isKnown word (List.mem_append_left [name] member))
    exact_mod_cast filled
  have slot : (0 : ℚ) < ((slotOf clusters name).length : ℚ) := by
    have filled := List.length_pos_of_ne_nil (slotOf_ne_nil (isKnown name (by simp)))
    exact_mod_cast filled
  have counts : expansionCount clusters (classes ++ [name]) =
      expansionCount clusters classes * (slotOf clusters name).length := by
    simp [expansionCount]
  have shares : ∀ word ∈ (slotOf clusters name).toFinset,
      (result.1.gram (words ++ [word])).probability =
        (old.gram (classes ++ [name])).probability / (expansionCount clusters classes : ℚ) /
          ((slotOf clusters name).length : ℚ) := by
    intro word member
    have isExpansion := expands_concat.mpr ⟨expands, List.mem_toFinset.mp member⟩
    rw [gram_expanded expanded listed disjoint replaced known seen isExpansion, expandedGram,
      counts, Nat.cast_mul, div_div]
  have fewer : ((slotOf clusters name).toFinset.card : ℚ) ≤ ((slotOf clusters name).length : ℚ) :=
    Nat.cast_le.mpr (List.toFinset_card_le _)
  calc ∑ word ∈ (slotOf clusters name).toFinset, (result.1.gram (words ++ [word])).probability
      = ((slotOf clusters name).toFinset.card : ℚ) *
          ((old.gram (classes ++ [name])).probability / (expansionCount clusters classes : ℚ) /
            ((slotOf clusters name).length : ℚ)) := by
        rw [Finset.sum_congr rfl shares, Finset.sum_const, nsmul_eq_mul]
    _ ≤ ((slotOf clusters name).length : ℚ) *
          ((old.gram (classes ++ [name])).probability / (expansionCount clusters classes : ℚ) /
            ((slotOf clusters name).length : ℚ)) := by
        gcongr
    _ = (old.gram (classes ++ [name])).probability / (expansionCount clusters classes : ℚ) :=
        mul_div_cancel₀ _ slot.ne'
    _ ≤ (old.gram (classes ++ [name])).probability := div_le_self positive.le size

/-- An expanded history leaves as much of the shorter mass as its class history, or more. -/
theorem baseLeft_expanded {words classes : List Word} (isHistory : IsHistory classes)
    (seen : old.Seen classes) (expands : Expands clusters words classes) :
    baseLeft old classes ≤ baseLeft result.1 words := by
  have isWords : IsHistory words := by
    unfold IsHistory
    rw [expands.length_eq]
    exact isHistory
  have follows : ∀ name ∈ successors old classes, old.Seen (classes ++ [name]) :=
    fun name member => (mem_successors isHistory).mp member
  have shorter : ∀ name ∈ successors old classes, old.Seen (classes.tail ++ [name]) :=
    fun name member => counted.tail classes name isHistory (follows name member)
  have covered : successors result.1 words ⊆
      (successors old classes).biUnion (fun name => (slotOf clusters name).toFinset) := by
    intro word member
    rcases (expanded.seen _).mp ((mem_successors isWords).mp member) with ⟨entry, inEntries, isEntry⟩
    rcases expands_split isEntry with ⟨front, name, rfl, isFront, inSlot⟩
    have seenEntry := (listed _).mp inEntries
    have same : front = classes := entry_unique disjoint replaced
      (fun other inFront => known _ seenEntry other (List.mem_append_left [name] inFront))
      (known classes seen) isFront expands
    rw [same] at seenEntry
    exact Finset.mem_biUnion.mpr
      ⟨name, (mem_successors isHistory).mpr seenEntry, List.mem_toFinset.mpr inSlot⟩
  have apart : ((successors old classes : Finset Word) : Set Word).PairwiseDisjoint
      (fun name => (slotOf clusters name).toFinset) := by
    intro name inNames other inOthers different
    apply Finset.disjoint_left.mpr
    intro word inName inOther
    exact different (class_unique disjoint replaced
      (known _ (follows name inNames) name (by simp))
      (known _ (follows other inOthers) other (by simp))
      (List.mem_toFinset.mp inName) (List.mem_toFinset.mp inOther))
  have positive : ∀ word ∈ (successors old classes).biUnion
      (fun name => (slotOf clusters name).toFinset),
      0 ≤ (result.1.gram (words.tail ++ [word])).probability := by
    intro word member
    rcases Finset.mem_biUnion.mp member with ⟨name, isName, inSlot⟩
    have isExpansion := expands_history_tail expands (List.mem_toFinset.mp inSlot)
    exact ((counted_of_expanded counted expanded listed).probability _ ((expanded.seen _).mpr
      ⟨_, (listed _).mpr (shorter name isName), isExpansion⟩)).le
  unfold baseLeft
  apply sub_le_sub_left
  calc ∑ word ∈ successors result.1 words, (result.1.gram (words.tail ++ [word])).probability
      ≤ ∑ word ∈ (successors old classes).biUnion (fun name => (slotOf clusters name).toFinset),
          (result.1.gram (words.tail ++ [word])).probability :=
        Finset.sum_le_sum_of_subset_of_nonneg covered (fun word member _ => positive word member)
    _ = ∑ name ∈ successors old classes, ∑ word ∈ (slotOf clusters name).toFinset,
          (result.1.gram (words.tail ++ [word])).probability := Finset.sum_biUnion apart
    _ ≤ ∑ name ∈ successors old classes, (old.gram (classes.tail ++ [name])).probability :=
        Finset.sum_le_sum (fun name member =>
          sum_slot_le expanded listed counted disjoint replaced known (shorter name member)
            expands.tail)

end

/-- Where no word of a known cluster is left, the lists of the words get printed. -/
theorem createPreclusteredLM_runs {corpus : Corpus} {clusters : Clusters}
    (nonempty : corpus.lines ≠ []) (unmarked : Unmarked corpus.lines)
    (disjoint : clusters.PairwiseDisjoint)
    (complete : ∀ smoothed, smooth corpus = some smoothed →
      (∀ entry, smoothed.dictionary.Seen entry → Known clusters entry) ∧
        Replaced clusters smoothed.dictionary) :
    ∃ smoothed result arpa, smooth corpus = some smoothed ∧
      expandDictionaryWithClusters smoothed.unigrams smoothed.bigrams smoothed.trigrams clusters
        smoothed.dictionary = some result ∧ createPreclusteredLM clusters corpus = some arpa := by
  rcases smooth_estimated corpus nonempty with
    ⟨dictionary, uniCount, estimated, _, smoothing, populated, estimates⟩
  have counted := counted_of_estimated populated nonempty estimates
  have normalised := estimates.normalised populated nonempty unmarked
  rcases complete _ smoothing with ⟨known, replaced⟩
  rcases expandDictionaryWithClusters_runs populated.clean estimates.seen known with
    ⟨result, expanding⟩
  rcases expandDictionaryWithClusters_expanded populated.clean estimates.seen expanding with
    ⟨entries, expanded, listed⟩
  have model := counted_of_expanded counted expanded listed
  have words : ∀ entry, estimated.Seen entry → ∀ word ∈ entry, estimated.Seen [word] := by
    intro entry seen word member
    exact (estimates.seen [word]).mpr (populated.seen_of_isInfix (by unfold IsEntry; simp)
      ((List.singleton_infix_iff word entry).mpr member) ((estimates.seen entry).mp seen))
  have left : ∀ history, IsHistory history → result.1.Seen history →
      baseLeft result.1 history ≠ 0 := by
    intro history isHistory seen
    rcases (expanded.seen history).mp seen with ⟨classes, member, expands⟩
    have isClasses : IsHistory classes := by
      unfold IsHistory
      rw [← expands.length_eq]
      exact isHistory
    have more := baseLeft_expanded expanded listed counted disjoint replaced words isClasses
      ((listed classes).mp member) expands
    exact ((normalised.baseLeft classes isClasses).trans_le more).ne'
  rcases estimateBOs_weighted model.clean (fun _ => Iff.rfl) model.tail left with
    ⟨weighted, weighing, _⟩
  have ran : ∃ arpa, createPreclusteredLM clusters corpus = some arpa := by
    unfold createPreclusteredLM
    rw [smoothing, Option.bind_eq_bind, Option.bind_some, expanding, Option.bind_eq_bind,
      Option.bind_some]
    dsimp only
    rw [weighing]
    exact ⟨_, rfl⟩
  rcases ran with ⟨arpa, isArpa⟩
  exact ⟨_, result, arpa, smoothing, expanding, isArpa⟩

/-- The text with the name of one cluster only can be smoothed and expanded. -/
theorem createPreclusteredLM_nameX (text : List Char) (nonempty : split text ≠ [])
    (apart : ∀ word ∈ split text, word ∉ [startSymbol, nameX, endSymbol]) :
    ∃ smoothed expanded read arpa, smooth (.str nameX) = some smoothed ∧
      expandDictionaryWithClusters smoothed.unigrams smoothed.bigrams smoothed.trigrams
        (singleCluster nameX text nonempty) smoothed.dictionary = some (expanded, read) ∧
      createPreclusteredLM (singleCluster nameX text nonempty) (.str nameX) = some arpa ∧
      ∀ word, smoothed.dictionary.Seen [word] ↔ word ∈ [startSymbol, nameX, endSymbol] := by
  have lines : (Corpus.str nameX).lines = [nameX] := by decide
  have words : wordList nameX = [startSymbol, nameX, endSymbol] := by decide
  rcases smooth_estimated (.str nameX) (by decide) with
    ⟨counted, uniCount, estimated, _, isSmoothed, populated, estimates⟩
  rw [lines] at populated
  have seen : ∀ entry, estimated.Seen entry →
      entry <:+: [startSymbol, nameX, endSymbol] := by
    intro entry isSeen
    have occurs := ((populated.seen entry).mp ((estimates.seen entry).mp isSeen)).2
    rcases total_pos_iff_isInfix.mp occurs with ⟨line, inLines, isRun⟩
    rw [List.mem_singleton.mp inLines, words] at isRun
    exact isRun
  have seenWord : ∀ word, estimated.Seen [word] ↔ word ∈ [startSymbol, nameX, endSymbol] := by
    intro word
    constructor
    · intro isSeen
      exact (List.singleton_infix_iff word _).mp (seen [word] isSeen)
    · intro member
      have isRun : [word] <:+: wordList nameX := by
        rw [words]
        exact (List.singleton_infix_iff word _).mpr member
      exact (estimates.seen _).mpr ((populated.seen _).mpr ⟨by unfold IsEntry; simp,
        total_pos_iff_isInfix.mpr ⟨nameX, List.mem_singleton_self nameX, isRun⟩⟩)
  have complete : ∀ smoothed, smooth (.str nameX) = some smoothed →
      (∀ entry, smoothed.dictionary.Seen entry → Known (singleCluster nameX text nonempty) entry) ∧
        Replaced (singleCluster nameX text nonempty) smoothed.dictionary := by
    intro smoothed smoothing
    rw [isSmoothed] at smoothing
    cases smoothing
    constructor
    · intro entry isSeen word member
      have inLine := (seen entry isSeen).subset member
      simp only [List.mem_cons, List.not_mem_nil, or_false] at inLine
      rcases inLine with rfl | rfl | rfl
      · rfl
      · rfl
      · rfl
    · intro name found _ _ isFound word member
      rw [← (singleCluster_members.mp isFound).2] at member
      rw [seenWord]
      exact apart word member
  rcases createPreclusteredLM_runs (by decide) (by rw [lines]; unfold Unmarked; decide)
    singleCluster_pairwiseDisjoint complete with
    ⟨smoothed, ⟨expanded, read⟩, arpa, smoothing, expanding, ran⟩
  rw [isSmoothed] at smoothing
  cases smoothing
  exact ⟨_, expanded, read, arpa, isSmoothed, expanding, ran, seenWord⟩

/-! ### Both scripts -/

/-- The lists that are printed are closed and counted, and no lookup of the
estimation, of the expansion or of the back-off weights changes what is listed. -/
theorem printArpa_closed (corpus : Corpus) (clusters : Clusters) (nonempty : corpus.lines ≠ []) :
    ∃ counted uniCount smoothed, populateDictionary corpus.lines = some (counted, uniCount) ∧
      smooth corpus = some smoothed ∧ SameGrams counted smoothed.dictionary ∧
      (∀ arpa, smoothAndPrint corpus = some arpa →
        ClosedArpa arpa ∧ SameGrams smoothed.dictionary arpa.dictionary) ∧
      (∀ expanded read, expandDictionaryWithClusters smoothed.unigrams smoothed.bigrams
          smoothed.trigrams clusters smoothed.dictionary = some (expanded, read) →
        SameGrams smoothed.dictionary read ∧
          ∀ arpa, createPreclusteredLM clusters corpus = some arpa →
            ClosedArpa arpa ∧ SameGrams expanded arpa.dictionary) := by
  rcases smooth_smoothedFrom corpus nonempty with
    ⟨counted, uniCount, smoothed, counting, smoothing, origin⟩
  refine ⟨counted, uniCount, smoothed, counting, smoothing, sameGrams_of_seen origin.seen, ?_, ?_⟩
  · intro arpa ran
    unfold smoothAndPrint at ran
    rw [smoothing, Option.bind_eq_bind, Option.bind_some] at ran
    rcases Option.bind_eq_some_iff.mp ran with ⟨dictionary, weighing, result⟩
    rw [origin.unigrams, origin.bigrams] at weighing
    have reweighted := estimateBOs_reweighted origin.clean origin.seen origin.model.tail weighing
    cases result
    have seen : ∀ entry, dictionary.Seen entry ↔ counted.Seen entry :=
      fun entry => (reweighted.seen entry).trans (origin.seen entry)
    constructor
    · exact (origin.model.reweighted reweighted).closedArpa origin.unigrams origin.bigrams
        origin.trigrams seen seen seen
    · exact sameGrams_of_seen reweighted.seen
  · intro expanded read expanding
    have expandingLists := expanding
    rw [origin.unigrams, origin.bigrams, origin.trigrams] at expandingLists
    rcases expandDictionaryWithClusters_expanded origin.clean origin.seen expandingLists with
      ⟨entries, expansion, listed⟩
    refine ⟨sameGrams_of_seen expansion.same.seen, ?_⟩
    intro arpa ran
    unfold createPreclusteredLM at ran
    rw [smoothing, Option.bind_eq_bind, Option.bind_some] at ran
    rcases Option.bind_eq_some_iff.mp ran with ⟨result, expandingAgain, rest⟩
    rw [expanding] at expandingAgain
    cases expandingAgain
    rcases Option.bind_eq_some_iff.mp rest with ⟨dictionary, weighing, last⟩
    have model := counted_of_expanded origin.model expansion listed
    have reweighted := estimateBOs_reweighted model.clean (fun _ => Iff.rfl) model.tail weighing
    cases last
    constructor
    · exact (model.reweighted reweighted).closedArpa rfl rfl rfl reweighted.seen reweighted.seen
        (fun _ => Iff.rfl)
    · exact sameGrams_of_seen reweighted.seen

/-- The lists of a text, and of a text with a cluster of two words. -/
theorem printArpa_closed_twoWords :
    (∃ arpa, smoothAndPrint (.str ['a', ' ', 'b']) = some arpa ∧ ClosedArpa arpa) ∧
      ∃ arpa, createPreclusteredLM clusterBC (.str nameX) = some arpa ∧ ClosedArpa arpa := by
  constructor
  · rcases smoothAndPrint_runs (.str ['a', ' ', 'b']) (by decide) (by unfold Unmarked; decide) with
      ⟨arpa, ran⟩
    rcases printArpa_closed (.str ['a', ' ', 'b']) clusterBC (by decide) with
      ⟨_, _, _, _, _, _, printed, _⟩
    exact ⟨arpa, ran, (printed arpa ran).1⟩
  · rcases createPreclusteredLM_nameX ['b', ' ', 'c'] (by decide) (by decide) with
      ⟨smoothed, expanded, read, arpa, smoothing, expanding, ran, _⟩
    rcases printArpa_closed (.str nameX) clusterBC (by decide) with
      ⟨_, _, other, _, smoothingOther, _, _, printed⟩
    rw [smoothing] at smoothingOther
    cases smoothingOther
    exact ⟨arpa, ran, ((printed expanded read expanding).2 arpa ran).1⟩

end WittenBell
