/-
Errors of the filter's arithmetic, and what a kept sentence contains.

The run is repeated in an arithmetic whose numbers remember an error: a quotient
by zero or the logarithm of a number that is not positive.  The counts of a seed
with a trigram keep every state of the run away from both.
-/

import DataSelection.Library.CheckedReals
import DataSelection.Library.Loops
import DataSelection.EntropyFilter.Tracking

namespace EntropyFilter

open Library
open Library.Checked (number natCast_eq number_add number_mul number_div)
open WittenBell (Word isSpace split strip readLines split_strip)

noncomputable scoped instance checkedArithmetic : FloatArithmetic Checked :=
  { log10 := Checked.partially (fun x => 0 < x) exactArithmetic.log10
    lt := Checked.lt }

theorem log10_number {x : ℝ} (positive : 0 < x) :
    FloatArithmetic.log10 (number x) = number (FloatArithmetic.log10 x) :=
  Checked.partially_number positive

theorem lt_number (left right : ℝ) :
    FloatArithmetic.lt (number left) (number right) = FloatArithmetic.lt left right := rfl

theorem divide_number (numerator : ℝ) {denominator : Nat} (positive : 0 < denominator) :
    divide (number numerator) denominator = some (number (numerator / denominator)) ∧
      divide numerator denominator = some (numerator / denominator) := by
  have nonzero : denominator ≠ 0 := Nat.ne_of_gt positive
  have nonzeroReal : (denominator : ℝ) ≠ 0 := Nat.cast_ne_zero.mpr nonzero
  unfold divide
  rw [if_neg nonzero, if_neg nonzero, natCast_eq, number_div nonzeroReal]
  exact ⟨rfl, rfl⟩

theorem T1_checked (tuning : ℝ) {N : Nat} (len : Nat) (positive : 0 < N) :
    ∃ t_one : ℝ, T1 tuning N len = some t_one ∧
      T1 (number tuning) N len = some (number t_one) := by
  have growth := divide_number ((N + len : Nat) : ℝ) positive
  have threshold := divide_number (tuning * (len : ℝ)) positive
  have grows : 0 < ((N + len : Nat) : ℝ) / (N : ℝ) :=
    div_pos (Nat.cast_pos.mpr (Nat.add_pos_left positive len)) (Nat.cast_pos.mpr positive)
  refine ⟨FloatArithmetic.log10 (((N + len : Nat) : ℝ) / (N : ℝ)) + tuning * (len : ℝ) / (N : ℝ),
    ?_, ?_⟩
  · unfold T1
    rw [growth.2, threshold.2]
    rfl
  · unfold T1
    rw [natCast_eq, growth.1, natCast_eq, number_mul, threshold.1]
    simp only [Option.bind_eq_bind, Option.bind_some, log10_number grows, number_add]

theorem improve_checked (P : Counts) {W : Counts} (grams : Counts) (counted : W.Counted)
    (gram : Gram) (total : ℝ) :
    ∃ improved : ℝ, improve P W grams total gram = some improved ∧
      improve P W grams (number total) gram = some (number improved) := by
  unfold improve
  by_cases known : gram ∈ W.keys
  · have positive : 0 < W.value gram := counted gram known
    have ratio := divide_number ((W.value gram + grams.value gram : Nat) : ℝ) positive
    have grows : 0 < ((W.value gram + grams.value gram : Nat) : ℝ) / (W.value gram : ℝ) :=
      div_pos (Nat.cast_pos.mpr (Nat.add_pos_left positive _)) (Nat.cast_pos.mpr positive)
    rw [if_pos known, if_pos known, natCast_eq, ratio.1, ratio.2]
    refine ⟨_, rfl, ?_⟩
    simp only [Option.bind_eq_bind, Option.bind_some, log10_number grows, natCast_eq,
      number_mul, number_add]
  · rw [if_neg known, if_neg known]
    exact ⟨total, rfl, rfl⟩

theorem foldlM_improve_checked (P : Counts) {W : Counts} (grams : Counts) (counted : W.Counted)
    (keys : List Gram) (total : ℝ) :
    ∃ improved : ℝ, keys.foldlM (improve P W grams) total = some improved ∧
      keys.foldlM (improve P W grams) (number total) = some (number improved) := by
  induction keys generalizing total with
  | nil => exact ⟨total, rfl, rfl⟩
  | cons gram keys ih =>
      rcases improve_checked P grams counted gram total with ⟨next, exactly, checked⟩
      rcases ih next with ⟨improved, exactRest, checkedRest⟩
      refine ⟨improved, ?_, ?_⟩
      · rw [List.foldlM_cons, exactly]
        exact exactRest
      · rw [List.foldlM_cons, checked]
        exact checkedRest

theorem T2_checked (traversal : TraversalOrder) (P : Counts) {W : Counts} (grams : Counts)
    (counted : W.Counted) :
    ∃ t_two : ℝ, T2 traversal P W grams = some t_two ∧
      T2 (R := Checked) traversal P W grams = some (number t_two) :=
  foldlM_improve_checked P grams counted _ 0

theorem keeps_checked (traversal : TraversalOrder) (tuning : ℝ) (P : Counts) {W : Counts} {N : Nat}
    (n : Nat) (words : List Word) (counted : W.Counted) (positive : 0 < N) :
    keeps traversal (number tuning) P W N n words = keeps traversal tuning P W N n words := by
  rcases T1_checked tuning words.length positive with ⟨t_one, exactOne, checkedOne⟩
  rcases T2_checked traversal P (countGrams n DefaultDict.empty words) counted with
    ⟨t_two, exactTwo, checkedTwo⟩
  unfold keeps
  rw [exactOne, checkedOne, exactTwo, checkedTwo]
  simp only [Option.bind_eq_bind, Option.bind_some, lt_number]

/-! ### Every state of a run -/

structure Positive (state : State) : Prop where
  counts : state.W.Counted
  total : 0 < state.N

theorem positive_start {seed_file : List Char} {n : Nat}
    (filled : 0 < getTotalCount (getCounts seed_file n)) : Positive (start seed_file n) :=
  ⟨getCounts_counted seed_file n, filled⟩

theorem Positive.add {n : Nat} {state : State} (positive : Positive state)
    (traversal : TraversalOrder) (sentence : List Char) :
    Positive (state.add n traversal sentence) :=
  ⟨positive.counts.incrementAll _, Nat.add_pos_left positive.total _⟩

section Steps

variable {R : Type} [FloatArithmetic R]

theorem Positive.process {traversal : TraversalOrder} {tuning : R} {P : Counts} {n : Nat}
    {state next : State} {sentence : List Char} (positive : Positive state)
    (ran : process traversal tuning P n state sentence = some next) : Positive next := by
  rcases process_cases ran with ⟨_, rfl⟩ | ⟨_, rfl⟩
  · exact positive.add traversal sentence
  · exact positive

end Steps

theorem process_checked (traversal : TraversalOrder) (tuning : ℝ) (P : Counts) (n : Nat)
    {state : State} (sentence : List Char) (positive : Positive state) :
    process traversal (number tuning) P n state sentence =
      process traversal tuning P n state sentence := by
  unfold process
  rw [keeps_checked traversal tuning P n _ positive.counts positive.total]

theorem process_total (traversal : TraversalOrder) (tuning : ℝ) (P : Counts) (n : Nat)
    {state : State} (sentence : List Char) (positive : Positive state) :
    ∃ next, process traversal tuning P n state sentence = some next := by
  rcases keeps_total traversal tuning P n (split (strip sentence)) positive.counts positive.total
    with ⟨kept, tested⟩
  unfold process
  rw [tested]
  cases kept with
  | true => exact ⟨_, rfl⟩
  | false => exact ⟨_, rfl⟩

/-- From counts without zeros the run reaches the end of the stream, in the exact
arithmetic and in the checked one alike. -/
theorem incrementalFilter_checked (traversal : TraversalOrder) {seed_file : List Char} (tuning : ℝ)
    {n : Nat} (sentences : List (List Char))
    (filled : 0 < getTotalCount (getCounts seed_file n)) :
    ∃ state, incrementalFilter traversal seed_file tuning n sentences = some state ∧
      incrementalFilter traversal seed_file (number tuning) n sentences = some state ∧
      Positive state := by
  induction sentences using List.reverseRecOn with
  | nil => exact ⟨start seed_file n, rfl, rfl, positive_start filled⟩
  | append_singleton sentences sentence ih =>
      rcases ih with ⟨before, exactly, checked, positive⟩
      rcases process_total traversal tuning (getCounts seed_file n) n sentence positive with
        ⟨next, step⟩
      refine ⟨next, ?_, ?_, positive.process step⟩
      · rw [incrementalFilter_concat, exactly]
        exact step
      · rw [incrementalFilter_concat, checked, Option.bind_some,
          process_checked traversal tuning _ n sentence positive]
        exact step

/-! ### What a kept sentence contains -/

theorem T1_nonneg {tuning : ℝ} (nonneg : 0 ≤ tuning) {N len : Nat} {t_one : ℝ}
    (ran : T1 tuning N len = some t_one) : 0 ≤ t_one := by
  by_cases empty : N = 0
  · simp [T1, divide, empty] at ran
  · have positive : (0 : ℝ) < (N : ℝ) := Nat.cast_pos.mpr (Nat.pos_of_ne_zero empty)
    simp only [T1, divide, if_neg empty, Option.bind_eq_bind, Option.bind_some,
      Option.some.injEq] at ran
    have grown : (1 : ℝ) ≤ ((N + len : Nat) : ℝ) / (N : ℝ) := by
      rw [one_le_div positive]
      exact Nat.cast_le.mpr (Nat.le_add_right N len)
    have growth : 0 ≤ Real.logb 10 (((N + len : Nat) : ℝ) / (N : ℝ)) :=
      Real.logb_nonneg (by norm_num) grown
    have threshold : 0 ≤ tuning * (len : ℝ) / (N : ℝ) :=
      div_nonneg (mul_nonneg nonneg (Nat.cast_nonneg len)) positive.le
    rw [← ran]
    exact add_nonneg growth threshold

/-- A trigram outside the seed has weight zero, whether or not it has been learned. -/
theorem improve_of_unseen {P W grams : Counts} {gram : Gram} (unseen : P.value gram = 0)
    (counted : W.Counted) (total : ℝ) : improve P W grams total gram = some total := by
  have weight : getDictCtSafe P gram = 0 := by
    unfold getDictCtSafe
    rw [unseen, ite_self]
  unfold improve
  by_cases known : gram ∈ W.keys
  · have nonzero : W.value gram ≠ 0 := Nat.ne_of_gt (counted gram known)
    rw [if_pos known, divide, if_neg nonzero, weight]
    simp only [Option.bind_eq_bind, Option.bind_some, Nat.cast_zero, mul_zero, add_zero]
  · rw [if_neg known]

theorem foldlM_improve_of_unseen {P W grams : Counts} (counted : W.Counted) {keys : List Gram}
    (unseen : ∀ gram ∈ keys, P.value gram = 0) (total : ℝ) :
    keys.foldlM (improve P W grams) total = some total := by
  induction keys with
  | nil => rfl
  | cons gram keys ih =>
      have here : improve P W grams total gram = some total :=
        improve_of_unseen (unseen gram List.mem_cons_self) counted total
      rw [List.foldlM_cons, here]
      exact ih (fun other member => unseen other (List.mem_cons_of_mem gram member))

theorem keeps_sees {traversal : TraversalOrder} {tuning : ℝ} (nonneg : 0 ≤ tuning) {P W : Counts}
    {N n : Nat} {words : List Word} (counted : W.Counted)
    (kept : keeps traversal tuning P W N n words = some true) :
    ∃ gram ∈ windows n words, 0 < P.value gram := by
  by_contra unseen
  have weightless : ∀ gram ∈ traversal.order (countGrams n DefaultDict.empty words).keys,
      P.value gram = 0 := by
    intro gram member
    have window := mem_countGrams_empty.mp ((traversal.perm _).mem_iff.mp member)
    by_contra seen
    exact unseen ⟨gram, window, Nat.pos_of_ne_zero seen⟩
  have t_two : T2 traversal P W (countGrams n DefaultDict.empty words) = some (0 : ℝ) :=
    foldlM_improve_of_unseen counted weightless 0
  cases t_one : T1 tuning N words.length with
  | none => simp [keeps, t_one] at kept
  | some threshold =>
      have lower : 0 ≤ threshold := T1_nonneg nonneg t_one
      simp only [keeps, t_one, t_two, Option.bind_eq_bind, Option.bind_some, lt_exact,
        Option.some.injEq, decide_eq_true_eq] at kept
      exact absurd kept (not_lt.mpr lower)

/-- A sentence of the seed's domain: one of its trigrams occurs in the seed. -/
def SharesTrigram (seed_file sentence : List Char) : Prop :=
  ∃ gram ∈ windows 3 (split sentence), 0 < fileOccurrences seed_file gram

theorem printed_sharesTrigram {traversal : TraversalOrder} {seed_file : List Char} {tuning : ℝ}
    {sentences : List (List Char)} {state : State} (nonneg : 0 ≤ tuning)
    (filled : 0 < getTotalCount (getCounts seed_file 3))
    (ran : incrementalFilter traversal seed_file tuning 3 sentences = some state) :
    ∀ sentence ∈ state.printed, SharesTrigram seed_file sentence := by
  suffices holds : Positive state ∧ ∀ sentence ∈ state.printed, SharesTrigram seed_file sentence from
    holds.2
  refine foldlM_followed
    (fun _done state => Positive state ∧
      ∀ sentence ∈ state.printed, SharesTrigram seed_file sentence) ?start ?steps ran
  case start =>
    constructor
    · exact positive_start filled
    · intro sentence member
      cases member
  case steps =>
    intro _done sentence state next _member step earlier
    rcases earlier with ⟨positive, shared⟩
    refine ⟨positive.process step, ?_⟩
    rcases process_cases step with ⟨kept, rfl⟩ | ⟨_, rfl⟩
    · intro printed member
      rcases List.mem_append.mp member with before | here
      · exact shared printed before
      · rcases keeps_sees nonneg positive.counts kept with ⟨gram, window, seen⟩
        rw [getCounts_value seed_file (length_of_mem_windows window)] at seen
        refine ⟨gram, ?_, seen⟩
        rw [List.mem_singleton.mp here, split_strip]
        exact window
    · exact shared

theorem getTotalCount_pos {seed_file : List Char} {n : Nat} {gram : Gram} (width : gram.length = n)
    (occurs : 0 < fileOccurrences seed_file gram) :
    0 < getTotalCount (getCounts seed_file n) := by
  rw [← getCounts_value seed_file width] at occurs
  have present : gram ∈ (getCounts seed_file n).keys := by
    by_contra missing
    have unmet : (getCounts seed_file n).value gram = 0 :=
      (getCounts seed_file n).absent gram missing
    omega
  have bound : (getCounts seed_file n).value gram ≤ (getCounts seed_file n).total :=
    List.single_le_sum (fun _ _ => Nat.zero_le _) _
      (List.mem_map_of_mem (f := (getCounts seed_file n).value) present)
  rw [getTotalCount_eq]
  exact lt_of_lt_of_le occurs bound

/-- With a trigram in the seed, no state of a run meets an error: the thresholds of
the next sentence are numbers.  Without a negative tuning parameter, every sentence
that is printed contains a trigram of the seed. -/
theorem incrementalFilter_safe (traversal : TraversalOrder) (seed_file : List Char)
    (tuning_parameter : ℝ) (sentences : List (List Char))
    (seeded : ∃ gram : Gram, gram.length = 3 ∧ 0 < fileOccurrences seed_file gram) :
    (∀ processed sentence rest, sentences = processed ++ sentence :: rest →
      ∃ state, ∃ t_one t_two : ℝ,
        incrementalFilter traversal seed_file (number tuning_parameter) 3 processed =
          some state ∧
        T1 (number tuning_parameter) state.N (split sentence).length = some (number t_one) ∧
        T2 traversal (getCounts seed_file 3) state.W
          (countGrams 3 DefaultDict.empty (split sentence)) = some (number t_two)) ∧
    (∃ final,
      incrementalFilter traversal seed_file (number tuning_parameter) 3 sentences = some final ∧
      incrementalFilter traversal seed_file tuning_parameter 3 sentences = some final ∧
      (0 ≤ tuning_parameter →
        ∀ sentence ∈ final.printed, SharesTrigram seed_file sentence)) := by
  rcases seeded with ⟨gram, width, occurs⟩
  have filled := getTotalCount_pos width occurs
  constructor
  · intro processed sentence _rest _parts
    rcases incrementalFilter_checked traversal tuning_parameter processed filled with
      ⟨state, _, checked, positive⟩
    rcases T1_checked tuning_parameter (split sentence).length positive.total with
      ⟨t_one, _, first⟩
    rcases T2_checked traversal (getCounts seed_file 3)
      (countGrams 3 DefaultDict.empty (split sentence)) positive.counts with ⟨t_two, _, second⟩
    exact ⟨state, t_one, t_two, checked, first, second⟩
  · rcases incrementalFilter_checked traversal tuning_parameter sentences filled with
      ⟨final, exactly, checked, _⟩
    exact ⟨final, checked, exactly, fun nonneg => printed_sharesTrigram nonneg filled exactly⟩

/-- The sample seed has a trigram, so all that is printed for it shares one. -/
theorem incrementalFilter_safe_sample :
    (∃ gram : Gram, gram.length = 3 ∧ 0 < fileOccurrences sampleSeed gram) ∧
      ∃ final, incrementalFilter insertionOrder sampleSeed (0 : ℝ) 3 [sampleSentence] =
          some final ∧
        ∀ sentence ∈ final.printed, SharesTrigram sampleSeed sentence := by
  have seeded : ∃ gram : Gram, gram.length = 3 ∧ 0 < fileOccurrences sampleSeed gram :=
    ⟨sampleGram, rfl, by decide +kernel⟩
  rcases incrementalFilter_safe insertionOrder sampleSeed 0 [sampleSentence] seeded with
    ⟨_, final, _, ran, shared⟩
  exact ⟨seeded, final, ran, shared le_rfl⟩

end EntropyFilter
