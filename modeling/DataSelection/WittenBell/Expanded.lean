/-
What the expanded dictionary holds.

It holds the expansions of the listed class n-grams and nothing else, and each of
them has the count, the back-off weight and the share of the probability of a class
n-gram that it expands.  The old dictionary is read without a trace.
-/

import DataSelection.WittenBell.Expansion
import DataSelection.WittenBell.Estimates

namespace WittenBell

open Library Dictionary

/-! ### Writing one n-gram -/

def GramStats.toGram (stats : GramStats) : Gram :=
  { count := stats.count
    probability := stats.probability
    backoff := stats.backoff }

/-- The given n-grams have been set to one value, and everything else is as it was. -/
structure Sets (value : Gram) (entries : List (List Word)) (before after : Dictionary) :
    Prop where
  written : ∀ entry ∈ entries, after.gram entry = value
  others : ∀ entry, entry ∉ entries → after.gram entry = before.gram entry
  seen : ∀ entry, after.Seen entry ↔ entry ∈ entries ∨ before.Seen entry

theorem setStats_eq {words : List Word} (isEntry : IsEntry words)
    (clean : ∀ word ∈ words, CleanWord word) (stats : GramStats) (before : Dictionary) :
    ∃ after, setStats stats before (join words) = some after ∧
      (∀ entry, after.gram entry =
        if entry = words then stats.toGram else before.gram entry) ∧
      ∀ entry, after.Seen entry ↔ entry = words ∨ before.Seen entry := by
  have withProb := setProb_changes isEntry before stats.probability
  have withBO := setBO_changes isEntry (setProb words stats.probability before) stats.backoff
  rcases setCount_changes isEntry
      (setBO words stats.backoff (setProb words stats.probability before)) stats.count with
    ⟨after, ran, withCount⟩
  refine ⟨after, ?_, ?_, ?_⟩
  · unfold setStats
    rw [split_join clean]
    exact ran
  · intro entry
    rw [withCount.gram, withBO.gram, withProb.gram]
    by_cases same : entry = words
    · simp only [if_pos same, GramStats.toGram]
    · simp only [if_neg same]
  · intro entry
    rw [withCount.seen, withBO.seen, withProb.seen]
    tauto

theorem foldlM_setStats {entries : List (List Word)} (stats : GramStats) (before : Dictionary)
    (isEntry : ∀ words ∈ entries, IsEntry words)
    (clean : ∀ words ∈ entries, ∀ word ∈ words, CleanWord word) :
    ∃ after, (entries.map join).foldlM (setStats stats) before = some after ∧
      Sets stats.toGram entries before after := by
  rw [List.foldlM_map]
  apply foldlM_run (fun done state => Sets stats.toGram done before state)
  · constructor
    · intro entry member
      cases member
    · intro entry _
      rfl
    · intro entry
      simp
  · intro done words state member sets
    rcases setStats_eq (isEntry words member) (clean words member) stats state with
      ⟨next, ran, gram, seen⟩
    refine ⟨next, ran, ?_⟩
    constructor
    · intro entry inList
      rw [gram]
      by_cases same : entry = words
      · rw [if_pos same]
      · have earlier : entry ∈ done := by
          rcases List.mem_append.mp inList with earlier | last
          · exact earlier
          · exact absurd (List.mem_singleton.mp last) same
        rw [if_neg same, sets.written entry earlier]
    · intro entry absent
      rw [List.mem_append, not_or, List.mem_singleton] at absent
      rw [gram, if_neg absent.2, sets.others entry absent.1]
    · intro entry
      rw [seen, sets.seen, List.mem_append, List.mem_singleton]
      tauto

theorem getGramStats_seen {entry : List Word} {dictionary : Dictionary}
    (seen : dictionary.Seen entry) :
    ∃ after, getGramStats entry dictionary =
        some ({ count := (dictionary.gram entry).count
                probability := (dictionary.gram entry).probability
                backoff := (dictionary.gram entry).backoff }, after) ∧
      Same dictionary after := by
  rcases read_seen Gram.count seen with ⟨first, readCount, sameFirst⟩
  rcases read_seen Gram.probability ((sameFirst.seen entry).mpr seen) with
    ⟨second, readProbability, sameSecond⟩
  have untilSecond := sameFirst.trans sameSecond
  rcases read_seen Gram.backoff ((untilSecond.seen entry).mpr seen) with
    ⟨third, readBackoff, sameThird⟩
  refine ⟨third, ?_, untilSecond.trans sameThird⟩
  unfold getGramStats
  rw [readCount]
  dsimp only [Option.bind_eq_bind, Option.bind_some]
  rw [readProbability]
  dsimp only [Option.bind_some]
  rw [readBackoff]
  dsimp only [Option.bind_some]
  rw [sameFirst.gram, untilSecond.gram]

/-! ### Expanding one class n-gram -/

/-- The statistics that the expansions of a class n-gram get. -/
def expandedGram (clusters : Clusters) (dictionary : Dictionary) (entry : List Word) : Gram :=
  { count := (dictionary.gram entry).count
    probability := (dictionary.gram entry).probability / (expansionCount clusters entry : ℚ)
    backoff := (dictionary.gram entry).backoff }

/-- The new dictionary after some of the class n-grams, and the old one. -/
structure Expanded (clusters : Clusters) (old : Dictionary) (done : List (List Word))
    (state : Dictionary × Dictionary) : Prop where
  same : Same old state.2
  known : ∀ entry ∈ done, Known clusters entry
  seen : ∀ words, state.1.Seen words ↔ ∃ entry ∈ done, Expands clusters words entry
  stats : ∀ words, state.1.Seen words → ∃ entry ∈ done, Expands clusters words entry ∧
    state.1.gram words = expandedGram clusters old entry

theorem expanded_nil (clusters : Clusters) (old : Dictionary) :
    Expanded clusters old [] (getEmptyGramDict, old) := by
  have empty : ∀ words, ¬ getEmptyGramDict.Seen words := by
    intro words
    match words with
    | [] => exact fun seen => seen
    | [_] => exact List.not_mem_nil
    | [_, _] => exact List.not_mem_nil
    | [_, _, _] => exact List.not_mem_nil
    | _ :: _ :: _ :: _ :: _ => exact fun seen => seen
  constructor
  · exact ⟨fun _ => rfl, fun _ => Iff.rfl⟩
  · intro entry member
    cases member
  · intro words
    simp [empty words]
  · intro words seen
    exact absurd seen (empty words)

theorem known_of_expandEntry {clusters : Clusters} {old : Dictionary} {n : Nat}
    {state next : Dictionary × Dictionary} {entry : List Word} (clean : Clean old)
    (seenOld : old.Seen entry)
    (ran : expandEntry clusters n state (join entry) = some next) : Known clusters entry := by
  unfold expandEntry fillSlots at ran
  rw [split_join (clean entry seenOld), if_neg (Nat.not_lt.mpr seenOld.isEntry.2)] at ran
  rcases Option.bind_eq_some_iff.mp ran with ⟨slots, slotsRan, _⟩
  rcases Option.map_eq_some_iff.mp slotsRan with ⟨found, foundRan, _⟩
  exact known_of_mapM foundRan

theorem expandEntry_eq {clusters : Clusters} {old : Dictionary}
    {state : Dictionary × Dictionary} {entry : List Word} (clean : Clean old)
    (seenOld : old.Seen entry) (same : Same old state.2) (known : Known clusters entry) :
    ∃ after read,
      expandEntry clusters entry.length state (join entry) = some (after, read) ∧
      Same state.2 read ∧
      Sets (expandedGram clusters old entry) (choices (entry.map (slotOf clusters)))
        state.1 after := by
  have isEntry := seenOld.isEntry
  have filled : entry ≠ [] := List.ne_nil_of_length_pos isEntry.1
  have slots : fillSlots clusters (split (join entry)) =
      some (entry.map (slotOf clusters) ++ List.replicate (3 - entry.length) []) := by
    unfold fillSlots
    rw [split_join (clean entry seenOld), if_neg (Nat.not_lt.mpr isEntry.2),
      mapM_possibilities known]
    rfl
  have combined : combine entry.length
      (entry.map (slotOf clusters) ++ List.replicate (3 - entry.length) []) =
      (choices (entry.map (slotOf clusters))).map join := by
    have general := combine_eq (entry.map (slotOf clusters))
      (List.replicate (3 - entry.length) []) (by simpa using filled)
    rwa [List.length_map] at general
  have size : ((choices (entry.map (slotOf clusters))).map join).length =
      expansionCount clusters entry := by
    rw [List.length_map, length_choices, List.map_map]
    rfl
  rcases getGramStats_seen ((same.seen entry).mpr seenOld) with ⟨read, stats, sameRead⟩
  have nonzero : ((expansionCount clusters entry : Nat) : ℚ) ≠ 0 :=
    Nat.cast_ne_zero.mpr (Nat.ne_of_gt (expansionCount_pos known))
  have shapes : ∀ words ∈ choices (entry.map (slotOf clusters)), IsEntry words := by
    intro words member
    have expands : Expands clusters words entry := mem_choices.mp member
    unfold IsEntry
    rw [expands.length_eq]
    exact isEntry
  have cleanWords : ∀ words ∈ choices (entry.map (slotOf clusters)),
      ∀ word ∈ words, CleanWord word := by
    intro words member
    have expands : Expands clusters words entry := mem_choices.mp member
    exact expands.clean (clean entry seenOld)
  rcases foldlM_setStats
      { count := (state.2.gram entry).count
        probability := (state.2.gram entry).probability / (expansionCount clusters entry : ℚ)
        backoff := (state.2.gram entry).backoff }
      state.1 shapes cleanWords with ⟨after, setRan, sets⟩
  refine ⟨after, read, ?_, sameRead, ?_⟩
  · unfold expandEntry
    rw [slots]
    dsimp only [Option.bind_eq_bind, Option.bind_some]
    rw [combined, size, split_join (clean entry seenOld), stats]
    dsimp only [Option.bind_some]
    rw [divide_eq nonzero]
    dsimp only [Option.bind_some]
    rw [setRan]
    rfl
  · unfold expandedGram
    rw [← same.gram]
    exact sets

theorem Expanded.concat {clusters : Clusters} {old after read : Dictionary}
    {done : List (List Word)} {state : Dictionary × Dictionary} {entry : List Word}
    (expanded : Expanded clusters old done state) (known : Known clusters entry)
    (sameRead : Same state.2 read)
    (sets : Sets (expandedGram clusters old entry) (choices (entry.map (slotOf clusters)))
      state.1 after) : Expanded clusters old (done ++ [entry]) (after, read) := by
  have members : ∀ words, words ∈ choices (entry.map (slotOf clusters)) ↔
      Expands clusters words entry := fun words => mem_choices
  constructor
  · exact expanded.same.trans sameRead
  · intro other member
    rcases List.mem_append.mp member with earlier | last
    · exact expanded.known other earlier
    · rw [List.mem_singleton.mp last]
      exact known
  · intro words
    rw [sets.seen, members, expanded.seen]
    simp only [List.mem_append, List.mem_singleton, or_and_right, exists_or, exists_eq_left]
    exact or_comm
  · intro words isSeen
    by_cases here : words ∈ choices (entry.map (slotOf clusters))
    · exact ⟨entry, List.mem_append_right _ (List.mem_singleton_self entry),
        (members words).mp here, sets.written words here⟩
    · have earlier := ((sets.seen words).mp isSeen).resolve_left here
      rcases expanded.stats words earlier with ⟨other, inDone, expands, gram⟩
      refine ⟨other, List.mem_append_left _ inDone, expands, ?_⟩
      rw [sets.others words here, gram]

theorem expandEntry_expanded {clusters : Clusters} {old : Dictionary} {done : List (List Word)}
    {state next : Dictionary × Dictionary} {entry : List Word} (clean : Clean old)
    (seenOld : old.Seen entry) (expanded : Expanded clusters old done state)
    (ran : expandEntry clusters entry.length state (join entry) = some next) :
    Expanded clusters old (done ++ [entry]) next := by
  have known := known_of_expandEntry clean seenOld ran
  rcases expandEntry_eq clean seenOld expanded.same known with ⟨after, read, result, same, sets⟩
  rw [result] at ran
  cases ran
  exact expanded.concat known same sets

/-! ### The whole expansion -/

theorem foldlM_expandEntry {clusters : Clusters} {old : Dictionary} {n : Nat}
    {entries earlier : List (List Word)} {state after : Dictionary × Dictionary}
    (clean : Clean old)
    (listed : ∀ entry, entry ∈ entries ↔ old.Seen entry ∧ entry.length = n)
    (start : Expanded clusters old earlier state)
    (ran : (entries.map join).foldlM (expandEntry clusters n) state = some after) :
    Expanded clusters old (earlier ++ entries) after := by
  rw [List.foldlM_map] at ran
  apply foldlM_followed (fun done state => Expanded clusters old (earlier ++ done) state) _ _ ran
  · rw [List.append_nil]
    exact start
  · intro done entry current next member stepped expanded
    rcases (listed entry).mp member with ⟨seenOld, width⟩
    subst width
    rw [← List.append_assoc]
    exact expandEntry_expanded clean seenOld expanded stepped

theorem foldlM_expandEntry_runs {clusters : Clusters} {old : Dictionary} {n : Nat}
    {entries earlier : List (List Word)} {state : Dictionary × Dictionary} (clean : Clean old)
    (listed : ∀ entry, entry ∈ entries ↔ old.Seen entry ∧ entry.length = n)
    (known : ∀ entry, old.Seen entry → Known clusters entry)
    (start : Expanded clusters old earlier state) :
    ∃ after, (entries.map join).foldlM (expandEntry clusters n) state = some after ∧
      Expanded clusters old (earlier ++ entries) after := by
  rw [List.foldlM_map]
  apply foldlM_run (fun done state => Expanded clusters old (earlier ++ done) state)
  · rw [List.append_nil]
    exact start
  · intro done entry current member expanded
    rcases (listed entry).mp member with ⟨seenOld, width⟩
    subst width
    rcases expandEntry_eq clean seenOld expanded.same (known entry seenOld) with
      ⟨after, read, ran, same, sets⟩
    refine ⟨(after, read), ran, ?_⟩
    rw [← List.append_assoc]
    exact expanded.concat (known entry seenOld) same sets

/-- A successful expansion has expanded every class n-gram of the old dictionary. -/
theorem expandDictionaryWithClusters_expanded {clusters : Clusters} {listed old : Dictionary}
    {result : Dictionary × Dictionary} (clean : Clean listed)
    (seen : ∀ entry, old.Seen entry ↔ listed.Seen entry)
    (ran : expandDictionaryWithClusters (getGrams 1 listed) (getGrams 2 listed)
      (getGrams 3 listed) clusters old = some result) :
    ∃ entries, Expanded clusters old entries result ∧
      ∀ entry, entry ∈ entries ↔ old.Seen entry := by
  have cleanOld := clean.of_same seen
  rcases getGrams_eq clean (n := 1) (by decide) with ⟨unigrams, isUnigrams, inUnigrams⟩
  rcases getGrams_eq clean (n := 2) (by decide) with ⟨bigrams, isBigrams, inBigrams⟩
  rcases getGrams_eq clean (n := 3) (by decide) with ⟨trigrams, isTrigrams, inTrigrams⟩
  unfold expandDictionaryWithClusters at ran
  rw [isUnigrams, isBigrams, isTrigrams] at ran
  rcases Option.bind_eq_some_iff.mp ran with ⟨first, ranFirst, restFirst⟩
  rcases Option.bind_eq_some_iff.mp restFirst with ⟨second, ranSecond, ranThird⟩
  simp only [← seen] at inUnigrams inBigrams inTrigrams
  have afterFirst := foldlM_expandEntry cleanOld inUnigrams (expanded_nil clusters old) ranFirst
  have afterSecond := foldlM_expandEntry cleanOld inBigrams afterFirst ranSecond
  have afterThird := foldlM_expandEntry cleanOld inTrigrams afterSecond ranThird
  refine ⟨_, afterThird, ?_⟩
  intro entry
  rw [List.nil_append, List.mem_append, List.mem_append, inUnigrams, inBigrams, inTrigrams]
  constructor
  · intro member
    tauto
  · intro isSeen
    have bounds := isSeen.isEntry
    unfold IsEntry at bounds
    have widths : entry.length = 1 ∨ entry.length = 2 ∨ entry.length = 3 := by omega
    tauto

/-- When every cluster that occurs is known, the expansion succeeds. -/
theorem expandDictionaryWithClusters_runs {clusters : Clusters} {listed old : Dictionary}
    (clean : Clean listed) (seen : ∀ entry, old.Seen entry ↔ listed.Seen entry)
    (known : ∀ entry, old.Seen entry → Known clusters entry) :
    ∃ result, expandDictionaryWithClusters (getGrams 1 listed) (getGrams 2 listed)
      (getGrams 3 listed) clusters old = some result := by
  have cleanOld := clean.of_same seen
  rcases getGrams_eq clean (n := 1) (by decide) with ⟨unigrams, isUnigrams, inUnigrams⟩
  rcases getGrams_eq clean (n := 2) (by decide) with ⟨bigrams, isBigrams, inBigrams⟩
  rcases getGrams_eq clean (n := 3) (by decide) with ⟨trigrams, isTrigrams, inTrigrams⟩
  simp only [← seen] at inUnigrams inBigrams inTrigrams
  rcases foldlM_expandEntry_runs cleanOld inUnigrams known (expanded_nil clusters old) with
    ⟨first, ranFirst, afterFirst⟩
  rcases foldlM_expandEntry_runs cleanOld inBigrams known afterFirst with
    ⟨second, ranSecond, afterSecond⟩
  rcases foldlM_expandEntry_runs cleanOld inTrigrams known afterSecond with ⟨third, ranThird, _⟩
  refine ⟨third, ?_⟩
  unfold expandDictionaryWithClusters
  rw [isUnigrams, isBigrams, isTrigrams, ranFirst, Option.bind_eq_bind, Option.bind_some,
    ranSecond]
  exact ranThird

end WittenBell
