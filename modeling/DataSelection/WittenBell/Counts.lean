/-
What is in the dictionary after counting.

Every line of the corpus counts as the list of its words between the two sentence
symbols.  The dictionary holds exactly the one to three words long windows of these
lists, each with the number of its occurrences.
-/

import DataSelection.Library.Windows
import DataSelection.WittenBell.Smoothing

namespace WittenBell

open Library

def total (lines : List (List Char)) (entry : List Word) : Nat :=
  (lines.map (fun line => occurrences entry (wordList line))).sum

theorem total_cons (line : List Char) (lines : List (List Char)) (entry : List Word) :
    total (line :: lines) entry = occurrences entry (wordList line) + total lines entry := rfl

theorem total_pos_iff {lines : List (List Char)} {entry : List Word} :
    0 < total lines entry ↔ ∃ line ∈ lines, entry ∈ windows entry.length (wordList line) := by
  unfold total
  rw [List.sum_pos_iff_exists_pos_nat]
  simp only [List.mem_map, exists_exists_and_eq_and, occurrences_pos_iff]

theorem cleanWord_of_mem_wordList {line : List Char} {word : Word}
    (member : word ∈ wordList line) : CleanWord word := cleanWord_of_mem_split member

theorem cleanWord_of_total_pos {lines : List (List Char)} {entry : List Word}
    (occurs : 0 < total lines entry) : ∀ word ∈ entry, CleanWord word := by
  rcases total_pos_iff.mp occurs with ⟨line, _inLines, isWindow⟩
  exact fun word member => cleanWord_of_mem_wordList (subset_of_mem_windows isWindow member)

/-! ### The first pass -/

theorem mem_keys_countWord (unigrams : DefaultDict Word Nat) (gram word : Word) :
    word ∈ (countWord unigrams gram).keys ↔ word = gram ∨ word ∈ unigrams.keys := by
  unfold countWord
  split
  · exact DefaultDict.mem_keys_modify gram word _ unigrams
  · exact DefaultDict.mem_keys_touch gram word unigrams

theorem value_countWord (unigrams : DefaultDict Word Nat) (gram word : Word) :
    (countWord unigrams gram).value word =
      unigrams.value word + if word = gram then 1 else 0 := by
  unfold countWord
  by_cases known : gram ∈ unigrams.keys
  · rw [if_pos known, DefaultDict.value_modify]
    by_cases same : word = gram
    · rw [if_pos same, if_pos same]
    · rw [if_neg same, if_neg same, Nat.add_zero]
  · rw [if_neg known, DefaultDict.value_set]
    by_cases same : word = gram
    · rw [if_pos same, if_pos same, same, unigrams.absent gram known]
      rfl
    · rw [if_neg same, if_neg same, Nat.add_zero]

theorem foldl_countWord (words : List Word) (unigrams : DefaultDict Word Nat) :
    (∀ word, word ∈ (words.foldl countWord unigrams).keys ↔
      0 < occurrences [word] words ∨ word ∈ unigrams.keys) ∧
    ∀ word, (words.foldl countWord unigrams).value word =
      unigrams.value word + occurrences [word] words := by
  induction words generalizing unigrams with
  | nil => simp [occurrences, windows_one]
  | cons gram rest ih =>
      obtain ⟨keys, values⟩ := ih (countWord unigrams gram)
      rw [List.foldl_cons]
      constructor
      · intro word
        rw [keys, mem_keys_countWord, occurrences_singleton_pos_iff,
          occurrences_singleton_pos_iff, List.mem_cons]
        exact or_left_comm.trans or_assoc.symm
      · intro word
        rw [values, value_countWord, Nat.add_assoc, occurrences_singleton_cons]

theorem foldl_countLines (lines : List (List Char)) (unigrams : DefaultDict Word Nat) :
    (∀ word, word ∈ (lines.foldl (fun unigrams line =>
        (wordList line).foldl countWord unigrams) unigrams).keys ↔
      0 < total lines [word] ∨ word ∈ unigrams.keys) ∧
    ∀ word, (lines.foldl (fun unigrams line =>
        (wordList line).foldl countWord unigrams) unigrams).value word =
      unigrams.value word + total lines [word] := by
  induction lines generalizing unigrams with
  | nil => simp [total]
  | cons line rest ih =>
      obtain ⟨lineKeys, lineValues⟩ := foldl_countWord (wordList line) unigrams
      obtain ⟨keys, values⟩ := ih ((wordList line).foldl countWord unigrams)
      rw [List.foldl_cons]
      constructor
      · intro word
        rw [keys, lineKeys, total_cons, Nat.add_pos_iff_pos_or_pos]
        exact or_left_comm.trans or_assoc.symm
      · intro word
        rw [values, lineValues, total_cons, Nat.add_assoc]

theorem countUnigrams_eq (lines : List (List Char)) :
    (∀ word, word ∈ (countUnigrams lines).keys ↔ 0 < total lines [word]) ∧
    ∀ word, (countUnigrams lines).value word = total lines [word] := by
  obtain ⟨keys, values⟩ := foldl_countLines lines .empty
  constructor
  · intro word
    refine (keys word).trans ?_
    rw [DefaultDict.keys_empty, or_iff_left List.not_mem_nil]
  · intro word
    exact (values word).trans (Nat.zero_add _)

/-! ### The unigrams of the dictionary -/

/-- One more unigram after another, each with its count. -/
structure Adjusts (entries : List (Word × Nat)) (before after : Adjusted) : Prop where
  unigrams : after.unigrams = before.unigrams ++ entries.map Prod.fst
  uniCount : after.uniCount = before.uniCount + (entries.map Prod.snd).sum
  seen : ∀ other, after.dictionary.Seen other ↔
    (∃ entry ∈ entries, other = [entry.1]) ∨ before.dictionary.Seen other
  count : ∀ entry ∈ entries, (after.dictionary.gram [entry.1]).count = entry.2
  others : ∀ other, (∀ entry ∈ entries, other ≠ [entry.1]) →
    after.dictionary.gram other = before.dictionary.gram other

theorem adjust_adjusts (entries : List (Word × Nat)) (before : Adjusted)
    (clean : ∀ entry ∈ entries, CleanWord entry.1) (distinct : (entries.map Prod.fst).Nodup) :
    ∃ after, adjust 0 entries before = some after ∧ Adjusts entries before after := by
  induction entries generalizing before with
  | nil =>
      refine ⟨before, rfl, ?_⟩
      constructor
      · simp
      · simp
      · simp
      · intro entry member
        cases member
      · exact fun _ _ => rfl
  | cons entry rest ih =>
      rcases List.nodup_cons.mp distinct with ⟨fresh, restDistinct⟩
      have isClean := clean entry List.mem_cons_self
      have whole : split entry.1 = [entry.1] := tokens_word isClean.nonempty isClean.clean
      have isEntry : IsEntry [entry.1] := ⟨Nat.one_pos, Nat.le_add_left 1 2⟩
      obtain ⟨counted, written, changes⟩ :=
        setCount_changes isEntry before.dictionary entry.2
      obtain ⟨after, adjusted, adjusts⟩ := ih
        { unigrams := before.unigrams ++ [entry.1]
          dictionary := counted
          uniCount := before.uniCount + entry.2 }
        (fun other member => clean other (List.mem_cons_of_mem entry member)) restDistinct
      refine ⟨after, ?_, ?_, ?_, ?_, ?_, ?_⟩
      · rw [adjust, if_neg (by decide), whole, written]
        exact adjusted
      · rw [adjusts.unigrams, List.append_assoc, List.singleton_append, List.map_cons]
      · rw [adjusts.uniCount, List.map_cons, List.sum_cons, Nat.add_assoc]
      · intro other
        rw [adjusts.seen other, changes.seen other]
        simp only [List.mem_cons, exists_eq_or_imp]
        exact or_left_comm.trans or_assoc.symm
      · intro other member
        cases List.mem_cons.mp member with
        | inl same =>
            subst same
            have notLater : ∀ later ∈ rest, [other.1] ≠ [later.1] := by
              intro later inRest equal
              exact fresh (List.singleton_inj.mp equal ▸ List.mem_map_of_mem inRest)
            rw [adjusts.others _ notLater, changes.gram, if_pos rfl]
        | inr inRest => exact adjusts.count other inRest
      · intro other different
        rw [adjusts.others other (fun later member =>
            different later (List.mem_cons_of_mem entry member)),
          changes.gram, if_neg (different entry List.mem_cons_self)]

/-! ### The second pass -/

theorem foldl_insertGram (entries : List (List Word))
    (long : ∀ entry ∈ entries, entry.length = 2 ∨ entry.length = 3) (state : Dictionary × Nat) :
    (entries.foldl (fun state gram => insertGram gram state.1 state.2) state).2 = state.2 ∧
    (∀ other, (entries.foldl (fun state gram =>
        insertGram gram state.1 state.2) state).1.Seen other ↔
      other ∈ entries ∨ state.1.Seen other) ∧
    ∀ other, ((entries.foldl (fun state gram =>
        insertGram gram state.1 state.2) state).1.gram other).count =
      (state.1.gram other).count + entries.countP (fun entry => entry = other) := by
  induction entries generalizing state with
  | nil => simp
  | cons entry rest ih =>
      have isLong := long entry List.mem_cons_self
      have isEntry : IsEntry entry := ⟨by omega, by omega⟩
      have changes := insertGram_changes isEntry state.1 state.2
      obtain ⟨uniCount, seen, counts⟩ := ih
        (fun other member => long other (List.mem_cons_of_mem entry member))
        (insertGram entry state.1 state.2)
      rw [List.foldl_cons]
      refine ⟨uniCount.trans ?_, ?_, ?_⟩
      · unfold insertGram
        rw [if_neg (show entry.length ≠ 1 by omega)]
      · intro other
        rw [seen, changes.seen other, List.mem_cons]
        exact or_left_comm.trans or_assoc.symm
      · intro other
        rw [counts, changes.gram other, List.countP_cons]
        by_cases same : other = entry
        · subst same
          rw [if_pos rfl, if_pos (decide_eq_true rfl), Nat.add_right_comm, Nat.add_assoc]
        · rw [if_neg same, if_neg (fun equal => same (of_decide_eq_true equal).symm),
            Nat.add_zero]

def lineEntries (line : List Char) : List (List Word) :=
  windows 2 (wordList line) ++ windows 3 (wordList line)

theorem length_of_mem_lineEntries {line : List Char} {entry : List Word}
    (member : entry ∈ lineEntries line) : entry.length = 2 ∨ entry.length = 3 := by
  cases List.mem_append.mp member with
  | inl inBigrams => exact Or.inl (length_of_mem_windows inBigrams)
  | inr inTrigrams => exact Or.inr (length_of_mem_windows inTrigrams)

theorem insertWindows_eq {unigrams wordList : List Word}
    (known : ∀ word ∈ wordList, word ∈ unigrams) (n : Nat) (state : Dictionary × Nat) :
    (List.range (wordList.length + 1 - n)).foldl (insertWindow unigrams wordList n) state =
      (windows n wordList).foldl (fun state gram => insertGram gram state.1 state.2) state := by
  unfold windows
  rw [List.foldl_map]
  apply List.foldl_ext
  intro state i _member
  have none : ((wordList.drop i).take n).any (fun word => word ∉ unigrams) = false := by
    rw [List.any_eq_false]
    intro word member
    rw [decide_eq_true_iff, not_not]
    exact known word (List.mem_of_mem_drop (List.mem_of_mem_take member))
  unfold insertWindow
  dsimp only
  rw [none, if_neg Bool.false_ne_true]

theorem insertLine_eq {unigrams : List Word} {line : List Char}
    (known : ∀ word ∈ wordList line, word ∈ unigrams) (state : Dictionary × Nat) :
    insertLine unigrams state line =
      (lineEntries line).foldl (fun state gram => insertGram gram state.1 state.2) state := by
  unfold insertLine lineEntries
  rw [List.foldl_append, List.foldl_cons, List.foldl_cons, List.foldl_nil,
    insertWindows_eq known, insertWindows_eq known]

theorem insertLines_eq {unigrams : List Word} (lines : List (List Char))
    (known : ∀ line ∈ lines, ∀ word ∈ wordList line, word ∈ unigrams)
    (state : Dictionary × Nat) :
    lines.foldl (insertLine unigrams) state =
      (lines.flatMap lineEntries).foldl
        (fun state gram => insertGram gram state.1 state.2) state := by
  rw [List.foldl_flatMap]
  apply List.foldl_ext
  intro state line member
  exact insertLine_eq (known line member) state

private theorem countP_windows_of_ne {n : Nat} {items entry : List Word}
    (different : entry.length ≠ n) :
    (windows n items).countP (fun window => window = entry) = 0 := by
  rw [List.countP_eq_zero]
  intro window member same
  rw [← of_decide_eq_true same] at different
  exact different (length_of_mem_windows member)

theorem countP_lineEntries {entry : List Word} (long : entry.length = 2 ∨ entry.length = 3)
    (line : List Char) :
    (lineEntries line).countP (fun window => window = entry) =
      occurrences entry (wordList line) := by
  unfold lineEntries
  rw [List.countP_append, occurrences_eq_countP]
  cases long with
  | inl two =>
      rw [countP_windows_of_ne (n := 3) (by omega), Nat.add_zero, two]
  | inr three =>
      rw [countP_windows_of_ne (n := 2) (by omega), Nat.zero_add, three]

/-! ### The dictionary -/

/-- The dictionary holds the windows of the lines, each with its number. -/
structure Populated (lines : List (List Char)) (dictionary : Dictionary) (uniCount : Nat) :
    Prop where
  seen : ∀ entry, dictionary.Seen entry ↔ IsEntry entry ∧ 0 < total lines entry
  count : ∀ entry, IsEntry entry → (dictionary.gram entry).count = total lines entry
  uniCount : uniCount = (dictionary.unigrams.keys.map (fun word => total lines [word])).sum

theorem countP_flatMap_lineEntries {entry : List Word}
    (long : entry.length = 2 ∨ entry.length = 3) (lines : List (List Char)) :
    (lines.flatMap lineEntries).countP (fun window => window = entry) = total lines entry := by
  unfold total
  rw [List.countP_flatMap]
  congr 1
  apply List.map_congr_left
  intro line _member
  exact countP_lineEntries long line

theorem mem_flatMap_lineEntries {lines : List (List Char)} {entry : List Word} :
    entry ∈ lines.flatMap lineEntries ↔
      (entry.length = 2 ∨ entry.length = 3) ∧ 0 < total lines entry := by
  constructor
  · intro member
    rcases List.mem_flatMap.mp member with ⟨line, _inLines, inLine⟩
    have long := length_of_mem_lineEntries inLine
    rw [← countP_flatMap_lineEntries long, List.countP_pos_iff]
    exact ⟨long, entry, member, decide_eq_true rfl⟩
  · intro both
    rw [← countP_flatMap_lineEntries both.1, List.countP_pos_iff] at both
    rcases both.2 with ⟨window, member, same⟩
    rw [← of_decide_eq_true same]
    exact member

theorem sortedUnigrams_eq {lines : List (List Char)} (nonempty : lines ≠ []) :
    ∃ entries, sortedUnigrams lines = some entries ∧ (entries.map Prod.fst).Nodup ∧
      ∀ entry, entry ∈ entries ↔ 0 < total lines [entry.1] ∧ entry.2 = total lines [entry.1] := by
  obtain ⟨keys, values⟩ := countUnigrams_eq lines
  have permuted := List.mergeSort_perm
    ((countUnigrams lines).keys.map (fun word => (word, (countUnigrams lines).value word)))
    (fun left right => decide (left.2 ≤ right.2))
  refine ⟨_, if_neg nonempty, ?_, ?_⟩
  · rw [(permuted.map Prod.fst).nodup_iff, List.map_map]
    exact (List.map_id _).symm ▸ (countUnigrams lines).nodup
  · intro entry
    rw [permuted.mem_iff, List.mem_map]
    constructor
    · rintro ⟨word, isKey, rfl⟩
      exact ⟨(keys word).mp isKey, values word⟩
    · intro both
      refine ⟨entry.1, (keys entry.1).mpr both.1, ?_⟩
      rw [values, ← both.2]

theorem word_or_long {entry : List Word} (isEntry : IsEntry entry) :
    (∃ word, entry = [word]) ∨ entry.length = 2 ∨ entry.length = 3 := by
  rcases isEntry with ⟨positive, bound⟩
  by_cases one : entry.length = 1
  · exact Or.inl (List.length_eq_one_iff.mp one)
  · exact Or.inr (by omega)

theorem word_notMem_flatMap_lineEntries (word : Word) (lines : List (List Char)) :
    [word] ∉ lines.flatMap lineEntries := by
  intro member
  have long := (mem_flatMap_lineEntries.mp member).1
  rw [List.length_singleton] at long
  omega

theorem countP_flatMap_lineEntries_word (word : Word) (lines : List (List Char)) :
    (lines.flatMap lineEntries).countP (fun window => window = [word]) = 0 := by
  rw [List.countP_eq_zero]
  intro window member same
  rw [of_decide_eq_true same] at member
  exact word_notMem_flatMap_lineEntries word lines member

theorem gram_getEmptyGramDict (entry : List Word) : getEmptyGramDict.gram entry = default := by
  match entry with
  | [] => rfl
  | [_] => rfl
  | [_, _] => rfl
  | [_, _, _] => rfl
  | _ :: _ :: _ :: _ :: _ => rfl

theorem not_seen_getEmptyGramDict (entry : List Word) : ¬ getEmptyGramDict.Seen entry := by
  match entry with
  | [] => exact id
  | [_] => exact List.not_mem_nil
  | [_, _] => exact List.not_mem_nil
  | [_, _, _] => exact List.not_mem_nil
  | _ :: _ :: _ :: _ :: _ => exact id

/-- The result of the first pass, and what the second one does to it. -/
structure Passes (lines : List (List Char)) (entries : List (Word × Nat)) (adjusted : Adjusted)
    (state : Dictionary × Nat) : Prop where
  distinct : (entries.map Prod.fst).Nodup
  members : ∀ entry, entry ∈ entries ↔
    0 < total lines [entry.1] ∧ entry.2 = total lines [entry.1]
  adjusts : Adjusts entries
    { unigrams := []
      dictionary := getEmptyGramDict
      uniCount := 0 } adjusted
  uniCount : state.2 = adjusted.uniCount
  seen : ∀ other, state.1.Seen other ↔
    other ∈ lines.flatMap lineEntries ∨ adjusted.dictionary.Seen other
  counts : ∀ other, (state.1.gram other).count = (adjusted.dictionary.gram other).count +
    (lines.flatMap lineEntries).countP (fun entry => entry = other)

namespace Passes

variable {lines : List (List Char)} {entries : List (Word × Nat)} {adjusted : Adjusted}
  {state : Dictionary × Nat} (passes : Passes lines entries adjusted state)

include passes

theorem mem_entries {word : Word} (occurs : 0 < total lines [word]) :
    (word, total lines [word]) ∈ entries := (passes.members _).mpr ⟨occurs, rfl⟩

theorem seen_word (word : Word) : state.1.Seen [word] ↔ 0 < total lines [word] := by
  rw [passes.seen, passes.adjusts.seen, or_iff_right (word_notMem_flatMap_lineEntries word lines),
    or_iff_left (not_seen_getEmptyGramDict [word])]
  constructor
  · rintro ⟨entry, member, same⟩
    rw [List.singleton_inj.mp same]
    exact ((passes.members entry).mp member).1
  · intro occurs
    exact ⟨(word, total lines [word]), passes.mem_entries occurs, rfl⟩

theorem seen_long {entry : List Word} (long : entry.length = 2 ∨ entry.length = 3) :
    state.1.Seen entry ↔ 0 < total lines entry := by
  have notEarlier : ¬ adjusted.dictionary.Seen entry := by
    intro earlier
    cases (passes.adjusts.seen entry).mp earlier with
    | inl isWord =>
        rcases isWord with ⟨other, _member, rfl⟩
        simp at long
    | inr inEmpty => exact not_seen_getEmptyGramDict entry inEmpty
  rw [passes.seen, or_iff_left notEarlier, mem_flatMap_lineEntries, and_iff_right long]

theorem count_word (word : Word) : (state.1.gram [word]).count = total lines [word] := by
  rw [passes.counts, countP_flatMap_lineEntries_word, Nat.add_zero]
  by_cases occurs : 0 < total lines [word]
  · exact passes.adjusts.count (word, total lines [word]) (passes.mem_entries occurs)
  · have notAdjusted : ∀ entry ∈ entries, [word] ≠ [entry.1] := by
      intro entry member same
      rw [List.singleton_inj.mp same] at occurs
      exact occurs ((passes.members entry).mp member).1
    rw [passes.adjusts.others _ notAdjusted, Nat.eq_zero_of_not_pos occurs]
    rfl

theorem count_long {entry : List Word} (long : entry.length = 2 ∨ entry.length = 3) :
    (state.1.gram entry).count = total lines entry := by
  have notAdjusted : ∀ other ∈ entries, entry ≠ [other.1] := by
    rintro other _member rfl
    simp at long
  rw [passes.counts, countP_flatMap_lineEntries long, passes.adjusts.others entry notAdjusted,
    gram_getEmptyGramDict]
  exact Nat.zero_add _

theorem uniCount_eq :
    state.2 = (state.1.unigrams.keys.map (fun word => total lines [word])).sum := by
  have permuted : (entries.map Prod.fst).Perm state.1.unigrams.keys := by
    apply (List.perm_ext_iff_of_nodup passes.distinct state.1.unigrams.nodup).mpr
    intro word
    rw [show word ∈ state.1.unigrams.keys ↔ 0 < total lines [word] from passes.seen_word word]
    constructor
    · intro member
      rcases List.mem_map.mp member with ⟨entry, inEntries, rfl⟩
      exact ((passes.members entry).mp inEntries).1
    · intro occurs
      exact List.mem_map.mpr ⟨(word, total lines [word]), passes.mem_entries occurs, rfl⟩
  rw [passes.uniCount, passes.adjusts.uniCount, Nat.zero_add,
    ← (permuted.map (fun word => total lines [word])).sum_nat, List.map_map]
  congr 1
  apply List.map_congr_left
  intro entry member
  exact ((passes.members entry).mp member).2

theorem populated : Populated lines state.1 state.2 := by
  constructor
  · intro entry
    constructor
    · intro isSeen
      refine ⟨isSeen.isEntry, ?_⟩
      cases word_or_long isSeen.isEntry with
      | inl isWord =>
          rcases isWord with ⟨word, rfl⟩
          exact (passes.seen_word word).mp isSeen
      | inr long => exact (passes.seen_long long).mp isSeen
    · intro both
      cases word_or_long both.1 with
      | inl isWord =>
          rcases isWord with ⟨word, rfl⟩
          exact (passes.seen_word word).mpr both.2
      | inr long => exact (passes.seen_long long).mpr both.2
  · intro entry isEntry
    cases word_or_long isEntry with
    | inl isWord =>
        rcases isWord with ⟨word, rfl⟩
        exact passes.count_word word
    | inr long => exact passes.count_long long
  · exact passes.uniCount_eq

end Passes

theorem populateDictionary_populated {lines : List (List Char)} (nonempty : lines ≠ []) :
    ∃ dictionary uniCount, populateDictionary lines = some (dictionary, uniCount) ∧
      Populated lines dictionary uniCount := by
  obtain ⟨entries, isSorted, distinct, members⟩ := sortedUnigrams_eq nonempty
  have clean : ∀ entry ∈ entries, CleanWord entry.1 := by
    intro entry member
    exact cleanWord_of_total_pos ((members entry).mp member).1 entry.1 List.mem_cons_self
  obtain ⟨adjusted, isAdjusted, adjusts⟩ := adjust_adjusts entries
    { unigrams := []
      dictionary := getEmptyGramDict
      uniCount := 0 } clean distinct
  have known : ∀ line ∈ lines, ∀ word ∈ wordList line, word ∈ adjusted.unigrams := by
    intro line inLines word inLine
    have occurs : 0 < total lines [word] := by
      refine total_pos_iff.mpr ⟨line, inLines, ?_⟩
      exact occurrences_pos_iff.mp (occurrences_singleton_pos_iff.mpr inLine)
    rw [adjusts.unigrams]
    exact List.mem_map.mpr ⟨(word, total lines [word]), (members _).mpr ⟨occurs, rfl⟩, rfl⟩
  have inserted := insertLines_eq lines known (adjusted.dictionary, adjusted.uniCount)
  obtain ⟨uniCount, seen, counts⟩ := foldl_insertGram (lines.flatMap lineEntries)
    (fun entry member => (mem_flatMap_lineEntries.mp member).1)
    (adjusted.dictionary, adjusted.uniCount)
  rw [← inserted] at uniCount seen counts
  refine ⟨(lines.foldl (insertLine adjusted.unigrams)
      (adjusted.dictionary, adjusted.uniCount)).1, (lines.foldl (insertLine adjusted.unigrams)
      (adjusted.dictionary, adjusted.uniCount)).2, ?_, ?_⟩
  · unfold populateDictionary
    rw [isSorted, Option.bind_eq_bind, Option.bind_some, isAdjusted]
    rfl
  · exact Passes.populated ⟨distinct, members, adjusts, uniCount, seen, counts⟩

end WittenBell
