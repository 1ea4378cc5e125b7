/-
The probability mass of the classes after their expansion.

Every expansion gets an equal share of the probability of the class n-gram.  For the
word behind a history that is a share of the conditional probability, but it is divided
by the sizes of the classes of the history as well.
-/

import DataSelection.WittenBell.Arpa

namespace WittenBell

open Library Dictionary

/-- What the substitution leaves: every cluster that occurs has a word which does not
occur itself, as its name has taken the place of that word. -/
def Substituted (clusters : Clusters) (dictionary : Dictionary) : Prop :=
  ∀ name words, isClassName name = true → dictionary.Seen [name] →
    clusters.members name = some words → ∃ word ∈ words, ¬ dictionary.Seen [word]

/-- The words of a class share the probability of the class behind every history, and
behind the empty one. -/
def PreservesMass (clusters : Clusters) (classModel expanded : Dictionary) : Prop :=
  ∀ classes last, classModel.Seen (classes ++ [last]) →
    ∀ words, Expands clusters words classes →
      ∑ word ∈ (slotOf clusters last).toFinset, (expanded.gram (words ++ [word])).probability =
        (classModel.gram (classes ++ [last])).probability

/-- Every cluster that occurs has exactly one word. -/
def SingleWords (clusters : Clusters) (dictionary : Dictionary) : Prop :=
  ∀ name, isClassName name = true → dictionary.Seen [name] →
    ∃ word, clusters.members name = some [word]

theorem slotOf_single {clusters : Clusters} {dictionary : Dictionary}
    (single : SingleWords clusters dictionary) {name : Word} (seen : dictionary.Seen [name]) :
    ∃ word, slotOf clusters name = [word] := by
  by_cases isName : isClassName name = true
  · rcases single name isName seen with ⟨word, found⟩
    exact ⟨word, slotOf_className isName found⟩
  · exact ⟨name, slotOf_plain clusters isName⟩

/-- The one word of a cluster is the one that its name has replaced. -/
theorem replaced_of_single {clusters : Clusters} {dictionary : Dictionary}
    (single : SingleWords clusters dictionary) (substituted : Substituted clusters dictionary) :
    Replaced clusters dictionary := by
  intro name words isName seen found word member
  rcases single name isName seen with ⟨only, isOnly⟩
  rcases substituted name words isName seen found with ⟨absent, inWords, unseen⟩
  rw [found] at isOnly
  cases isOnly
  rw [List.mem_singleton.mp member, ← List.mem_singleton.mp inWords]
  exact unseen

theorem expansionCount_single {clusters : Clusters} {dictionary : Dictionary}
    (single : SingleWords clusters dictionary) {entry : List Word}
    (seen : ∀ word ∈ entry, dictionary.Seen [word]) : expansionCount clusters entry = 1 := by
  unfold expansionCount
  apply List.prod_eq_one
  intro size member
  rcases List.mem_map.mp member with ⟨name, inEntry, rfl⟩
  rcases slotOf_single single (seen name inEntry) with ⟨word, slot⟩
  rw [slot, List.length_singleton]

theorem share_ne {size : Nat} (large : 2 ≤ size) {total : ℚ} (positive : 0 < total) :
    total / (size : ℚ) ≠ total := by
  have several : (1 : ℚ) < (size : ℚ) := by
    exact_mod_cast large
  exact (div_lt_self positive several).ne

/-! ### The expansion of a class model -/

structure ExpandedModel (clusters : Clusters) (classModel expanded : Dictionary) : Prop where
  known : ∀ entry, classModel.Seen entry → Known clusters entry
  seen : ∀ words, expanded.Seen words ↔
    ∃ entry, classModel.Seen entry ∧ Expands clusters words entry
  stats : ∀ words, expanded.Seen words → ∃ entry, classModel.Seen entry ∧
    Expands clusters words entry ∧ expanded.gram words = expandedGram clusters classModel entry
  words : ∀ entry, classModel.Seen entry → ∀ word ∈ entry, classModel.Seen [word]
  followed : ∀ name, isClassName name = true → classModel.Seen [name] →
    ∃ next, classModel.Seen [name, next]
  positive : ∀ entry, classModel.Seen entry → 0 < (classModel.gram entry).probability

theorem ExpandedModel.members {clusters : Clusters} {classModel expanded : Dictionary}
    (model : ExpandedModel clusters classModel expanded) {name : Word}
    (isName : isClassName name = true) (seen : classModel.Seen [name]) :
    ∃ words, clusters.members name = some words :=
  members_of_known isName (model.known [name] seen name (List.mem_singleton_self name))

/-- Clusters of one word are renamed, and keep their mass. -/
theorem preservesMass_of_singleWords {clusters : Clusters} {classModel expanded : Dictionary}
    (model : ExpandedModel clusters classModel expanded) (disjoint : clusters.PairwiseDisjoint)
    (substituted : Substituted clusters classModel) (single : SingleWords clusters classModel) :
    PreservesMass clusters classModel expanded := by
  intro classes last seen words expands
  have inEntry := model.words _ seen
  rcases slotOf_single single (inEntry last (by simp)) with
    ⟨word, slot⟩
  have isExpansion : Expands clusters (words ++ [word]) (classes ++ [last]) :=
    expands_concat.mpr ⟨expands, slot ▸ List.mem_singleton_self word⟩
  rcases model.stats _ ((model.seen _).mpr ⟨_, seen, isExpansion⟩) with
    ⟨entry, seenEntry, expandsEntry, gram⟩
  have same := entry_unique disjoint (replaced_of_single single substituted)
    (model.words _ seenEntry) inEntry expandsEntry isExpansion
  rw [slot, List.toFinset_cons, List.toFinset_nil, insert_empty_eq, Finset.sum_singleton, gram,
    same, expandedGram, expansionCount_single single inEntry,
    Nat.cast_one, div_one]

/-! ### Clusters of several words -/

theorem not_preservesMass_plain {clusters : Clusters} {classModel expanded : Dictionary}
    (model : ExpandedModel clusters classModel expanded) {name word follower : Word}
    (member : word ∈ slotOf clusters name) (large : 2 ≤ (slotOf clusters name).length)
    (isPlain : ¬ isClassName follower = true) (seen : classModel.Seen [name, follower])
    (share : (expanded.gram [word, follower]).probability =
      (classModel.gram [name, follower]).probability /
        (((slotOf clusters name).length * (slotOf clusters follower).length : Nat) : ℚ)) :
    ¬ PreservesMass clusters classModel expanded := by
  intro preserves
  have sum := preserves [name] follower seen [word] (expands_singleton.mpr member)
  rw [slotOf_plain clusters isPlain, List.length_singleton, mul_one] at share
  rw [slotOf_plain clusters isPlain, List.toFinset_cons, List.toFinset_nil, insert_empty_eq,
    Finset.sum_singleton, List.singleton_append, share] at sum
  exact share_ne large (model.positive _ seen) sum

section

variable {clusters : Clusters} {classModel expanded : Dictionary}
  (model : ExpandedModel clusters classModel expanded)
  (disjoint : clusters.PairwiseDisjoint) {name word : Word} (isName : isClassName name = true)
  (member : word ∈ slotOf clusters name) (unseen : ¬ classModel.Seen [word])

include model disjoint isName member unseen

theorem stats_behind {next follower : Word} (seen : classModel.Seen [name, next])
    (inNext : follower ∈ slotOf clusters next) :
    ∃ other, classModel.Seen [name, other] ∧ follower ∈ slotOf clusters other ∧
      (expanded.gram [word, follower]).probability = (classModel.gram [name, other]).probability /
        (((slotOf clusters name).length * (slotOf clusters other).length : Nat) : ℚ) := by
  have expands : Expands clusters [word, follower] [name, next] :=
    expands_pair.mpr ⟨member, inNext⟩
  rcases model.stats _ ((model.seen _).mpr ⟨_, seen, expands⟩) with
    ⟨entry, seenEntry, expandsEntry, gram⟩
  rcases List.length_eq_two.mp expandsEntry.length_eq.symm with ⟨first, other, rfl⟩
  rcases expands_pair.mp expandsEntry with ⟨inFirst, inOther⟩
  have isClass : isClassName first = true := by
    by_contra isPlain
    rw [slotOf_plain clusters isPlain, List.mem_singleton] at inFirst
    subst inFirst
    exact unseen (model.words _ seenEntry word List.mem_cons_self)
  have same := className_unique disjoint isClass isName inFirst member
  subst same
  refine ⟨other, seenEntry, inOther, ?_⟩
  have size : expansionCount clusters [first, other] =
      (slotOf clusters first).length * (slotOf clusters other).length := by
    simp [expansionCount]
  rw [gram, expandedGram, size]

variable (large : 2 ≤ (slotOf clusters name).length)

include large

theorem not_preservesMass_class (distinct : clusters.RepetitionFree) {next : Word}
    (isNext : isClassName next = true) (seen : classModel.Seen [name, next]) :
    ¬ PreservesMass clusters classModel expanded := by
  intro preserves
  by_cases plain : ∃ follower ∈ slotOf clusters next, ¬ isClassName follower = true ∧
      classModel.Seen [name, follower] ∧ (expanded.gram [word, follower]).probability =
        (classModel.gram [name, follower]).probability /
          (((slotOf clusters name).length * (slotOf clusters follower).length : Nat) : ℚ)
  · rcases plain with ⟨follower, _, isPlain, seenFollower, share⟩
    exact not_preservesMass_plain model member large isPlain seenFollower share preserves
  · -- every word of the next class has the share of that class
    have shares : ∀ follower ∈ (slotOf clusters next).toFinset,
        (expanded.gram ([word] ++ [follower])).probability =
          (classModel.gram [name, next]).probability /
            (((slotOf clusters name).length * (slotOf clusters next).length : Nat) : ℚ) := by
      intro follower inFinset
      have inNext := List.mem_toFinset.mp inFinset
      rcases stats_behind model disjoint isName member unseen seen inNext with
        ⟨other, seenOther, inOther, share⟩
      by_cases isOther : isClassName other = true
      · have same := className_unique disjoint isOther isNext inOther inNext
        rw [same] at share
        exact share
      · rw [slotOf_plain clusters isOther, List.mem_singleton] at inOther
        subst inOther
        exact absurd ⟨follower, inNext, isOther, seenOther, share⟩ plain
    have sum := preserves [name] next seen [word] (expands_singleton.mpr member)
    have size := List.toFinset_card_of_nodup (nodup_slotOf distinct next)
    have filled : ((slotOf clusters next).length : ℚ) ≠ 0 := by
      have nonempty := slotOf_ne_nil (model.known _ seen next (by simp))
      exact_mod_cast (List.length_pos_of_ne_nil nonempty).ne'
    rw [Finset.sum_congr rfl shares, Finset.sum_const, size, nsmul_eq_mul, Nat.cast_mul,
      mul_comm ((slotOf clusters name).length : ℚ), ← mul_div_assoc,
      mul_div_mul_left _ _ filled] at sum
    exact share_ne large (model.positive _ seen) sum

/-- A cluster of several words loses mass behind each of its words. -/
theorem not_preservesMass_of_large (distinct : clusters.RepetitionFree)
    (seen : classModel.Seen [name]) : ¬ PreservesMass clusters classModel expanded := by
  rcases model.followed name isName seen with ⟨next, seenNext⟩
  by_cases isNext : isClassName next = true
  · exact not_preservesMass_class model disjoint isName member unseen large distinct isNext seenNext
  · have inNext : next ∈ slotOf clusters next := by
      rw [slotOf_plain clusters isNext]
      exact List.mem_singleton_self next
    rcases stats_behind model disjoint isName member unseen seenNext inNext with
      ⟨other, seenOther, inOther, share⟩
    by_cases isOther : isClassName other = true
    · exact not_preservesMass_class model disjoint isName member unseen large distinct isOther
        seenOther
    · rw [slotOf_plain clusters isOther, List.mem_singleton] at inOther
      subst inOther
      exact not_preservesMass_plain model member large isOther seenOther share

end

theorem singleWords_of_preservesMass {clusters : Clusters} {classModel expanded : Dictionary}
    (model : ExpandedModel clusters classModel expanded) (disjoint : clusters.PairwiseDisjoint)
    (distinct : clusters.RepetitionFree)
    (substituted : Substituted clusters classModel)
    (preserves : PreservesMass clusters classModel expanded) :
    SingleWords clusters classModel := by
  intro name isName seen
  rcases model.members isName seen with ⟨words, found⟩
  rcases substituted name words isName seen found with ⟨word, member, unseen⟩
  cases words with
  | nil => cases member
  | cons first rest =>
      cases rest with
      | nil => exact ⟨first, found⟩
      | cons second others =>
          have slot := slotOf_className isName found
          have large : 2 ≤ (slotOf clusters name).length := by
            rw [slot, List.length_cons, List.length_cons]
            omega
          rw [← slot] at member
          exact absurd preserves (not_preservesMass_of_large model disjoint isName member unseen
            large distinct seen)

/-! ### The script -/

theorem total_follower_pos {lines : List (List Char)} {name : Word} (notEnd : name ≠ endSymbol)
    (occurs : 0 < total lines [name]) : ∃ next, 0 < total lines [name, next] := by
  rcases total_pos_iff_isInfix.mp occurs with ⟨line, inLines, front, behind, parts⟩
  cases behind with
  | nil =>
      rw [List.append_nil, wordList_eq, ← List.cons_append] at parts
      exact absurd (List.singleton_inj.mp (List.append_inj' parts rfl).2) notEnd
  | cons next rest =>
      refine ⟨next, total_pos_iff_isInfix.mpr ⟨line, inLines, front, rest, ?_⟩⟩
      rw [← parts]
      simp

theorem smooth_expandedModel {corpus : Corpus} {clusters : Clusters} {smoothed : Smoothed}
    {expanded read : Dictionary} (nonempty : corpus.lines ≠ [])
    (smoothing : smooth corpus = some smoothed)
    (expanding : expandDictionaryWithClusters smoothed.unigrams smoothed.bigrams
      smoothed.trigrams clusters smoothed.dictionary = some (expanded, read)) :
    ExpandedModel clusters smoothed.dictionary expanded := by
  rcases smooth_estimated corpus nonempty with
    ⟨counted, uniCount, estimated, _, isSmoothed, populated, estimates⟩
  rw [smoothing] at isSmoothed
  cases isSmoothed
  rcases expandDictionaryWithClusters_expanded populated.clean estimates.seen expanding with
    ⟨entries, expansion, listed⟩
  have model := counted_of_estimated populated nonempty estimates
  constructor
  · exact fun entry seen => expansion.known entry ((listed entry).mpr seen)
  · intro words
    rw [expansion.seen]
    simp only [listed]
  · intro words seen
    rcases expansion.stats words seen with ⟨entry, member, expands, gram⟩
    exact ⟨entry, (listed entry).mp member, expands, gram⟩
  · intro entry seen word member
    have occurs := (estimates.seen entry).mp seen
    exact (estimates.seen [word]).mpr (populated.seen_of_isInfix (by unfold IsEntry; simp)
      ((List.singleton_infix_iff word entry).mpr member) occurs)
  · intro name isName seen
    have occurs := ((populated.seen [name]).mp ((estimates.seen [name]).mp seen)).2
    have notEnd : name ≠ endSymbol := by
      intro isEnd
      rw [isEnd] at isName
      exact absurd isName (by decide)
    rcases total_follower_pos notEnd occurs with ⟨next, follows⟩
    exact ⟨next, (estimates.seen _).mpr ((populated.seen _).mpr ⟨by unfold IsEntry; simp, follows⟩)⟩
  · exact model.probability

/-- The expansion of a class model preserves the mass of the classes just when every
cluster that occurs has one word. -/
theorem expandDictionaryWithClusters_preservesMass_iff (corpus : Corpus) (clusters : Clusters)
    (smoothed : Smoothed) (expanded read : Dictionary) (nonempty : corpus.lines ≠ [])
    (disjoint : clusters.PairwiseDisjoint) (distinct : clusters.RepetitionFree)
    (smoothing : smooth corpus = some smoothed)
    (substituted : Substituted clusters smoothed.dictionary)
    (expanding : expandDictionaryWithClusters smoothed.unigrams smoothed.bigrams
      smoothed.trigrams clusters smoothed.dictionary = some (expanded, read)) :
    PreservesMass clusters smoothed.dictionary expanded ↔
      SingleWords clusters smoothed.dictionary := by
  have model := smooth_expandedModel nonempty smoothing expanding
  constructor
  · exact singleWords_of_preservesMass model disjoint distinct substituted
  · exact preservesMass_of_singleWords model disjoint substituted

/-! ### A text of one cluster name -/

theorem expandDictionaryWithClusters_clusterB :
    ∃ smoothed expanded read, smooth (.str nameX) = some smoothed ∧
      expandDictionaryWithClusters smoothed.unigrams smoothed.bigrams smoothed.trigrams
        clusterB smoothed.dictionary = some (expanded, read) ∧
      PreservesMass clusterB smoothed.dictionary expanded := by
  rcases createPreclusteredLM_nameX ['b'] (by decide) (by decide) with
    ⟨smoothed, expanded, read, _, smoothing, expanding, _, seen⟩
  have words : split ['b'] = [['b']] := by decide
  have unseen : ¬ smoothed.dictionary.Seen [['b']] := by
    rw [seen]
    decide
  refine ⟨smoothed, expanded, read, smoothing, expanding, ?_⟩
  apply (expandDictionaryWithClusters_preservesMass_iff (.str nameX) clusterB smoothed expanded
    read (by decide) singleCluster_pairwiseDisjoint (singleCluster_repetitionFree (by decide))
    smoothing ?_ expanding).mpr
  · intro name isName isSeen
    rcases (smooth_expandedModel (by decide) smoothing expanding).members isName isSeen with
      ⟨found, isFound⟩
    refine ⟨['b'], isFound.trans ?_⟩
    rw [← (singleCluster_members.mp isFound).2, words]
  · intro name found _ _ isFound
    rw [← (singleCluster_members.mp isFound).2, words]
    exact ⟨['b'], List.mem_singleton_self _, unseen⟩

/-- Behind `b` the end symbol has half of the probability that it has behind the cluster. -/
theorem expandDictionaryWithClusters_losesMass :
    ∃ smoothed expanded read, clusterBC.PairwiseDisjoint ∧ clusterBC.RepetitionFree ∧
      smooth (.str nameX) = some smoothed ∧ Substituted clusterBC smoothed.dictionary ∧
      expandDictionaryWithClusters smoothed.unigrams smoothed.bigrams smoothed.trigrams
        clusterBC smoothed.dictionary = some (expanded, read) ∧
      ¬ PreservesMass clusterBC smoothed.dictionary expanded := by
  rcases createPreclusteredLM_nameX ['b', ' ', 'c'] (by decide) (by decide) with
    ⟨smoothed, expanded, read, _, smoothing, expanding, _, seen⟩
  have words : split ['b', ' ', 'c'] = [['b'], ['c']] := by decide
  have member : ['b'] ∈ slotOf clusterBC nameX := by decide
  have distinct : clusterBC.RepetitionFree := singleCluster_repetitionFree (by decide)
  have unseen : ¬ smoothed.dictionary.Seen [['b']] := by
    rw [seen]
    decide
  refine ⟨smoothed, expanded, read, singleCluster_pairwiseDisjoint, distinct, smoothing, ?_,
    expanding, ?_⟩
  · intro name found _ _ isFound
    rw [← (singleCluster_members.mp isFound).2, words]
    exact ⟨['b'], List.mem_cons_self, unseen⟩
  · exact not_preservesMass_of_large (smooth_expandedModel (by decide) smoothing expanding)
      singleCluster_pairwiseDisjoint (by decide) member unseen (by decide) distinct
      ((seen nameX).mpr (by decide))

end WittenBell
