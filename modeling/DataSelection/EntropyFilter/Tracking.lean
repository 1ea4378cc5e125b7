/-
What the filter's counts are counts of.

Until a sentence with words is kept, the counts are those of the seed text.  The
first such sentence adds each of its trigrams once, but its length to the total.
-/

import Mathlib.Data.List.Perm.Subperm
import Mathlib.Data.List.Induction
import DataSelection.EntropyFilter.Incremental

namespace EntropyFilter

open Library
open WittenBell (Word isSpace split strip readLines split_strip)

theorem getTotalCount_eq (dict : Counts) : getTotalCount dict = dict.total := by
  have added : ∀ (entries : List (Gram × Nat)) (ct : Nat),
      entries.foldl (fun ct entry => ct + entry.2) ct = ct + (entries.map Prod.snd).sum := by
    intro entries
    induction entries with
    | nil =>
        intro ct
        rfl
    | cons entry entries ih =>
        intro ct
        rw [List.foldl_cons, ih, List.map_cons, List.sum_cons, Nat.add_assoc]
  have sorted := (List.mergeSort_perm
    (dict.keys.map (fun gram => (gram, dict.value gram)))
    (fun left right => right.2 ≤ left.2)).map Prod.snd
  unfold getTotalCount Tally.total
  rw [added, Nat.zero_add, sorted.sum_nat, List.map_map]
  rfl

theorem split_rstrip (line : List Char) : split (rstrip line) = split line :=
  tokens_rdropWhile line

def fileOccurrences (content : List Char) (gram : Gram) : Nat :=
  ((readLines (content.length + 1) content).map
    (fun line => occurrences gram (split line))).sum

theorem foldl_countGrams (n : Nat) (lines : List (List Char)) (ngrams : Counts)
    (counted : ngrams.Counted) :
    (lines.foldl (fun ngrams line => countGrams n ngrams (split (rstrip line)))
        ngrams).Counted ∧
      ∀ gram : Gram, gram.length = n →
        (lines.foldl (fun ngrams line => countGrams n ngrams (split (rstrip line)))
          ngrams).value gram =
        ngrams.value gram + (lines.map (fun line => occurrences gram (split line))).sum := by
  induction lines generalizing ngrams with
  | nil =>
      constructor
      · exact counted
      · intro gram _width
        rfl
  | cons line lines ih =>
      rcases ih (countGrams n ngrams (split (rstrip line))) (counted.incrementAll _)
        with ⟨still, values⟩
      constructor
      · exact still
      · intro gram width
        have here : (countGrams n ngrams (split (rstrip line))).value gram =
            ngrams.value gram + occurrences gram (split line) := by
          rw [countGrams, Tally.value_incrementAll, split_rstrip, occurrences_eq_countP, width]
        rw [List.foldl_cons, values gram width, here, List.map_cons, List.sum_cons,
          Nat.add_assoc]

theorem getCounts_counted (content : List Char) (n : Nat) : (getCounts content n).Counted :=
  (foldl_countGrams n _ _ Tally.counted_empty).1

theorem getCounts_value (content : List Char) {n : Nat} {gram : Gram} (width : gram.length = n) :
    (getCounts content n).value gram = fileOccurrences content gram := by
  have values := (foldl_countGrams n (readLines (content.length + 1) content) _
    Tally.counted_empty).2 gram width
  have unmet : (DefaultDict.empty : Counts).value gram = 0 := rfl
  rw [unmet, Nat.zero_add] at values
  exact values

theorem mem_countGrams_empty {n : Nat} {gram : Gram} {words : List Word} :
    gram ∈ (countGrams n DefaultDict.empty words).keys ↔ gram ∈ windows n words := by
  rw [countGrams, Tally.mem_keys_incrementAll, DefaultDict.keys_empty]
  simp

theorem length_keys_countGrams_le (n : Nat) (words : List Word) :
    (countGrams n DefaultDict.empty words).keys.length ≤ words.length + 1 - n := by
  have included : (countGrams n DefaultDict.empty words).keys ⊆ windows n words := by
    intro gram member
    exact mem_countGrams_empty.mp member
  have bound := ((countGrams n DefaultDict.empty words).nodup.subperm included).length_le
  rwa [length_windows] at bound

section Tests

variable {R : Type} [FloatArithmetic R]

theorem foldlM_improve_isSome (P W grams : Counts) (counted : W.Counted) (keys : List Gram)
    (T2 : R) : (keys.foldlM (improve P W grams) T2).isSome = true := by
  induction keys generalizing T2 with
  | nil => rfl
  | cons gram keys ih =>
      rw [List.foldlM_cons]
      unfold improve
      by_cases known : gram ∈ W.keys
      · have nonzero : W.value gram ≠ 0 := Nat.ne_of_gt (counted gram known)
        simp only [known, if_true, divide, nonzero, if_false, Option.bind_eq_bind,
          Option.bind_some]
        exact ih _
      · simp only [known, if_false, Option.bind_eq_bind, Option.bind_some]
        exact ih _

theorem keeps_total (traversal : TraversalOrder) (tuning : R) (P : Counts) {W : Counts} {N : Nat}
    (n : Nat) (words : List Word) (counted : W.Counted) (positive : 0 < N) :
    ∃ kept, keeps traversal tuning P W N n words = some kept := by
  have nonzero : N ≠ 0 := Nat.ne_of_gt positive
  have improved := foldlM_improve_isSome (R := R) P W (countGrams n DefaultDict.empty words)
    counted (traversal.order (countGrams n DefaultDict.empty words).keys) 0
  rcases Option.isSome_iff_exists.mp improved with ⟨t_two, ran⟩
  unfold keeps T1 T2
  rw [ran]
  simp [divide, nonzero]

theorem keeps_eq_none_of_zero (traversal : TraversalOrder) (tuning : R) (P W : Counts) (n : Nat)
    (words : List Word) : keeps traversal tuning P W 0 n words = none := by
  unfold keeps T1
  simp [divide]

end Tests

/-! ### Runs in which no sentence with words is kept -/

/-- The counts are those of the seed, and only blank sentences were printed. -/
structure AtSeed (seed_file : List Char) (n : Nat) (state : State) : Prop where
  W : state.W = getCounts seed_file n
  N : state.N = getTotalCount (getCounts seed_file n)
  blank : ∀ sentence ∈ state.printed, split sentence = []

theorem atSeed_start (seed_file : List Char) (n : Nat) : AtSeed seed_file n (start seed_file n) := by
  constructor
  · rfl
  · rfl
  · intro sentence member
    cases member

theorem State.add_blank {n : Nat} (positive : 0 < n) (traversal : TraversalOrder) {state : State}
    {sentence : List Char} (blank : split sentence = []) :
    (state.add n traversal sentence).W = state.W ∧
      (state.add n traversal sentence).N = state.N := by
  have short : windows n ([] : List Word) = [] := windows_of_short positive
  have noGrams : (countGrams n DefaultDict.empty (split (strip sentence))).keys = [] := by
    rw [split_strip, blank, countGrams, short]
    rfl
  have noKeys : traversal.order [] = [] := List.perm_nil.mp (traversal.perm [])
  constructor
  · unfold State.add
    rw [noGrams, noKeys]
    rfl
  · unfold State.add
    rw [split_strip, blank]
    rfl

section Runs

variable {R : Type} [FloatArithmetic R]

/-- The test against the counts of the seed does not keep the sentence, unless it
is blank. -/
def Refused (traversal : TraversalOrder) (tuning : R) (seed_file : List Char) (n : Nat)
    (sentence : List Char) : Prop :=
  split sentence = [] ∨
    keeps traversal tuning (getCounts seed_file n) (getCounts seed_file n)
      (getTotalCount (getCounts seed_file n)) n (split sentence) ≠ some true

theorem process_cases {traversal : TraversalOrder} {tuning : R} {P : Counts} {n : Nat}
    {state next : State} {sentence : List Char}
    (ran : process traversal tuning P n state sentence = some next) :
    (keeps traversal tuning P state.W state.N n (split sentence) = some true ∧
        next = state.add n traversal sentence) ∨
      (keeps traversal tuning P state.W state.N n (split sentence) = some false ∧
        next = state) := by
  unfold process at ran
  rw [split_strip] at ran
  cases tested : keeps traversal tuning P state.W state.N n (split sentence) with
  | none => simp [tested] at ran
  | some kept =>
      cases kept with
      | true =>
          simp only [tested, Option.bind_eq_bind, Option.bind_some, if_true,
            Option.some.injEq] at ran
          exact Or.inl ⟨rfl, ran.symm⟩
      | false =>
          simp only [tested, Option.bind_eq_bind, Option.bind_some, Bool.false_eq_true, if_false,
            Option.some.injEq] at ran
          exact Or.inr ⟨rfl, ran.symm⟩

theorem AtSeed.process {traversal : TraversalOrder} {tuning : R} {seed_file : List Char} {n : Nat}
    {state next : State} {sentence : List Char} (positive : 0 < n)
    (atSeed : AtSeed seed_file n state) (refused : Refused traversal tuning seed_file n sentence)
    (ran : process traversal tuning (getCounts seed_file n) n state sentence = some next) :
    AtSeed seed_file n next := by
  rcases process_cases ran with ⟨kept, rfl⟩ | ⟨_, rfl⟩
  · rw [atSeed.W, atSeed.N] at kept
    have blank : split sentence = [] := by
      rcases refused with blank | turnedDown
      · exact blank
      · exact absurd kept turnedDown
    have same : (state.add n traversal sentence).W = state.W ∧
        (state.add n traversal sentence).N = state.N := State.add_blank positive traversal blank
    rcases same with ⟨sameW, sameN⟩
    constructor
    · rw [sameW, atSeed.W]
    · rw [sameN, atSeed.N]
    · intro printed member
      rcases List.mem_append.mp member with earlier | here
      · exact atSeed.blank printed earlier
      · rw [List.mem_singleton.mp here, split_strip, blank]
  · exact atSeed

theorem incrementalFilter_concat (traversal : TraversalOrder) (seed_file : List Char) (tuning : R)
    (n : Nat) (sentences : List (List Char)) (sentence : List Char) :
    incrementalFilter traversal seed_file tuning n (sentences ++ [sentence]) =
      (incrementalFilter traversal seed_file tuning n sentences).bind
        (fun state => process traversal tuning (getCounts seed_file n) n state sentence) := by
  unfold incrementalFilter
  rw [List.foldlM_append]
  simp

theorem atSeed_of_refused {traversal : TraversalOrder} {seed_file : List Char} {tuning : R} {n : Nat}
    {sentences : List (List Char)} {state : State} (positive : 0 < n)
    (refused : ∀ sentence ∈ sentences, Refused traversal tuning seed_file n sentence)
    (ran : incrementalFilter traversal seed_file tuning n sentences = some state) :
    AtSeed seed_file n state := by
  induction sentences using List.reverseRecOn generalizing state with
  | nil =>
      cases ran
      exact atSeed_start seed_file n
  | append_singleton sentences sentence ih =>
      rw [incrementalFilter_concat] at ran
      rcases Option.bind_eq_some_iff.mp ran with ⟨before, ranBefore, step⟩
      have earlier := ih
        (fun other member => refused other (List.mem_append_left _ member)) ranBefore
      have last := refused sentence (List.mem_append_right _ (List.mem_singleton_self sentence))
      exact earlier.process positive last step

theorem run_of_refused {traversal : TraversalOrder} {seed_file : List Char} {tuning : R} {n : Nat}
    {sentences : List (List Char)} (positive : 0 < n)
    (filled : 0 < getTotalCount (getCounts seed_file n))
    (refused : ∀ sentence ∈ sentences, Refused traversal tuning seed_file n sentence) :
    ∃ state, incrementalFilter traversal seed_file tuning n sentences = some state := by
  induction sentences using List.reverseRecOn with
  | nil => exact ⟨start seed_file n, rfl⟩
  | append_singleton sentences sentence ih =>
      have refusedBefore : ∀ other ∈ sentences, Refused traversal tuning seed_file n other :=
        fun other member => refused other (List.mem_append_left _ member)
      rcases ih refusedBefore with ⟨before, ran⟩
      have atSeed := atSeed_of_refused positive refusedBefore ran
      rcases keeps_total traversal tuning (getCounts seed_file n) n (split (strip sentence))
        (getCounts_counted seed_file n) filled with ⟨kept, tested⟩
      rw [incrementalFilter_concat, ran, Option.bind_some]
      unfold EntropyFilter.process
      rw [atSeed.W, atSeed.N, tested]
      cases kept with
      | true => exact ⟨_, rfl⟩
      | false => exact ⟨_, rfl⟩

theorem first_kept {traversal : TraversalOrder} {seed_file : List Char} {tuning : R} {n : Nat}
    {sentences : List (List Char)} (positive : 0 < n) {sentence : List Char}
    (member : sentence ∈ sentences)
    (passes : ¬ Refused traversal tuning seed_file n sentence) :
    ∃ before first after state, sentences = before ++ first :: after ∧
      split first ≠ [] ∧
      incrementalFilter traversal seed_file tuning n before = some state ∧
      AtSeed seed_file n state ∧
      keeps traversal tuning (getCounts seed_file n) state.W state.N n (split first) =
        some true ∧
      incrementalFilter traversal seed_file tuning n (before ++ [first]) =
        some (state.add n traversal first) := by
  classical
  have found : (sentences.find?
      (fun other => ¬ Refused traversal tuning seed_file n other)).isSome = true := by
    rw [List.find?_isSome]
    exact ⟨sentence, member, decide_eq_true passes⟩
  rcases Option.isSome_iff_exists.mp found with ⟨first, isFirst⟩
  rcases List.find?_eq_some_iff_append.mp isFirst with ⟨chosen, before, after, parts, earlier⟩
  have refusedBefore : ∀ other ∈ before, Refused traversal tuning seed_file n other := by
    intro other inBefore
    simpa using earlier other inBefore
  have unrefused : ¬ Refused traversal tuning seed_file n first := of_decide_eq_true chosen
  have words : split first ≠ [] := fun blank => unrefused (Or.inl blank)
  have kept : keeps traversal tuning (getCounts seed_file n) (getCounts seed_file n)
      (getTotalCount (getCounts seed_file n)) n (split first) = some true := by
    by_contra turnedDown
    exact unrefused (Or.inr turnedDown)
  have filled : 0 < getTotalCount (getCounts seed_file n) := by
    apply Nat.pos_of_ne_zero
    intro empty
    rw [empty, keeps_eq_none_of_zero] at kept
    cases kept
  rcases run_of_refused positive filled refusedBefore with ⟨state, ran⟩
  have atSeed := atSeed_of_refused positive refusedBefore ran
  have keptHere : keeps traversal tuning (getCounts seed_file n) state.W state.N n
      (split first) = some true := by
    rw [atSeed.W, atSeed.N]
    exact kept
  refine ⟨before, first, after, state, parts, words, ran, atSeed, keptHere, ?_⟩
  rw [incrementalFilter_concat, ran, Option.bind_some]
  unfold EntropyFilter.process
  rw [split_strip, keptHere]
  rfl

/-! ### Counts and total of the selected text -/

/-- The counts are those of the seed and the selected sentences together, and the
total is their sum. -/
structure Tracks (seed_file : List Char) (state : State) : Prop where
  counts : ∀ gram : Gram, gram.length = 3 →
    state.W.value gram = fileOccurrences seed_file gram +
      (state.printed.map (fun sentence => occurrences gram (split sentence))).sum
  total : state.N = state.W.total

theorem AtSeed.tracks {seed_file : List Char} {state : State} (atSeed : AtSeed seed_file 3 state) :
    Tracks seed_file state := by
  constructor
  · intro gram width
    have silent : (state.printed.map (fun sentence => occurrences gram (split sentence))).sum =
        0 := by
      apply List.sum_eq_zero
      intro count member
      rcases List.mem_map.mp member with ⟨sentence, printed, rfl⟩
      rw [atSeed.blank sentence printed, occurrences_eq_countP, width,
        windows_of_short (by decide), List.countP_nil]
    rw [atSeed.W, getCounts_value seed_file width, silent, Nat.add_zero]
  · rw [atSeed.N, atSeed.W, getTotalCount_eq]

theorem total_add (traversal : TraversalOrder) (n : Nat) (state : State) (sentence : List Char) :
    (state.add n traversal sentence).W.total ≤
      state.W.total + ((split sentence).length + 1 - n) := by
  have bound := length_keys_countGrams_le n (split (strip sentence))
  rw [split_strip] at bound
  unfold State.add
  rw [Tally.total_incrementAll, (traversal.perm _).length_eq, split_strip]
  omega

/-- The counts follow the selected text in every state of the run exactly when no
sentence with words passes the test against the counts of the seed. -/
theorem incrementalFilter_tracks_iff (traversal : TraversalOrder) (seed_file : List Char)
    (tuning_parameter : R) (sentences : List (List Char)) :
    (∀ processed rest state, sentences = processed ++ rest →
        incrementalFilter traversal seed_file tuning_parameter 3 processed = some state →
        Tracks seed_file state) ↔
      ∀ sentence ∈ sentences, Refused traversal tuning_parameter seed_file 3 sentence := by
  constructor
  · intro tracked sentence member
    by_contra passes
    rcases first_kept (by decide) member passes with
      ⟨before, first, after, state, parts, words, _, atSeed, _, ran⟩
    have regrouped : sentences = (before ++ [first]) ++ after := by
      rw [parts, List.append_assoc, List.singleton_append]
    have tracks := tracked (before ++ [first]) after _ regrouped ran
    have total := tracks.total
    have grown : (state.add 3 traversal first).N = state.W.total + (split first).length := by
      unfold State.add
      rw [split_strip, atSeed.tracks.total]
    have bound := total_add traversal 3 state first
    have positive : 0 < (split first).length := List.length_pos_of_ne_nil words
    omega
  · intro refused processed rest state parts ran
    have refusedHere : ∀ sentence ∈ processed,
        Refused traversal tuning_parameter seed_file 3 sentence := by
      intro sentence member
      apply refused
      rw [parts]
      exact List.mem_append_left rest member
    exact (atSeed_of_refused (by decide) refusedHere ran).tracks

end Runs

theorem keepsFirst {R : Type} [FloatArithmetic R] {traversal : TraversalOrder}
    {seed_file sentence : List Char} {tuning : R} {n : Nat}
    (kept : keeps traversal tuning (getCounts seed_file n) (getCounts seed_file n)
      (getTotalCount (getCounts seed_file n)) n (split sentence) = some true) :
    incrementalFilter traversal seed_file tuning n [sentence] =
      some ((start seed_file n).add n traversal sentence) := by
  have ran := incrementalFilter_concat traversal seed_file tuning n [] sentence
  rw [List.nil_append] at ran
  have started : incrementalFilter traversal seed_file tuning n [] = some (start seed_file n) := rfl
  rw [ran, started, Option.bind_some]
  unfold process
  rw [split_strip]
  unfold start
  rw [kept]
  rfl

def insertionOrder : TraversalOrder :=
  { order := id
    perm := List.Perm.refl }

def sampleSeed : List Char := "a b c\na b c\na b c\n".toList

def sampleSentence : List Char := "a b c".toList

def sampleGram : Gram := [['a'], ['b'], ['c']]

theorem sampleSeed_counts :
    (getCounts sampleSeed 3).keys = [sampleGram] ∧
      (getCounts sampleSeed 3).value sampleGram = 3 ∧
      getTotalCount (getCounts sampleSeed 3) = 3 := by
  rw [getTotalCount_eq]
  decide +kernel

theorem sampleSentence_counts :
    split sampleSentence = [['a'], ['b'], ['c']] ∧
      (countGrams 3 DefaultDict.empty (split sampleSentence)).keys = [sampleGram] ∧
      (countGrams 3 DefaultDict.empty (split sampleSentence)).value sampleGram = 1 := by
  decide +kernel

theorem sampleSentence_kept :
    keeps insertionOrder (0 : ℝ) (getCounts sampleSeed 3) (getCounts sampleSeed 3)
      (getTotalCount (getCounts sampleSeed 3)) 3 (split sampleSentence) = some true := by
  rcases sampleSeed_counts with ⟨seedKeys, seedCount, seedTotal⟩
  rcases sampleSentence_counts with ⟨words, gramKeys, gramCount⟩
  have length : (split sampleSentence).length = 3 := by rw [words]; rfl
  have growth : Real.log ((3 + 3) / 3) < Real.log ((3 + 1) / 3) * 3 := by
    have cubed : Real.log ((3 + 1) / 3) * 3 = Real.log (((3 + 1) / 3) ^ 3) := by
      rw [Real.log_pow]
      push_cast
      ring
    rw [cubed]
    exact Real.log_lt_log (by norm_num) (by norm_num)
  have positive : 0 < Real.log 10 := Real.log_pos (by norm_num)
  have scaled := div_lt_div_of_pos_right growth positive
  unfold keeps T1 T2
  rw [gramKeys, length, seedTotal]
  simp only [insertionOrder, id, List.foldlM_cons, List.foldlM_nil, improve, seedKeys,
    List.mem_singleton, if_true, seedCount, gramCount, divide, getDictCtSafe, log10_exact,
    lt_exact]
  rw [mul_div_right_comm] at scaled
  norm_num at scaled ⊢
  exact scaled

/-- One kept sentence of three words leaves the total at 6 and the counts at 4. -/
theorem sampleSentence_untracked :
    incrementalFilter insertionOrder sampleSeed (0 : ℝ) 3 [sampleSentence] =
        some ((start sampleSeed 3).add 3 insertionOrder sampleSentence) ∧
      ¬ Tracks sampleSeed ((start sampleSeed 3).add 3 insertionOrder sampleSentence) := by
  constructor
  · exact keepsFirst sampleSentence_kept
  · intro tracks
    have total := tracks.total
    have bound := total_add insertionOrder 3 (start sampleSeed 3) sampleSentence
    have words : (split sampleSentence).length = 3 := by decide +kernel
    have grown : ((start sampleSeed 3).add 3 insertionOrder sampleSentence).N =
        (start sampleSeed 3).W.total + 3 := by
      unfold State.add
      rw [split_strip, words]
      unfold start
      rw [getTotalCount_eq]
    omega

end EntropyFilter
