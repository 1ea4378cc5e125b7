/-
The random split of a corpus into a training and a validation set.

The sentences at the sampled positions are taken out of a shrinking list.  Below a ratio
of one half they are taken in the order in which they were drawn, from the last one on.
-/

import DataSelection.Library.Popping
import DataSelection.Splitting.Psplit
import DataSelection.WittenBell.Corpus
import Mathlib.Algebra.Order.Floor.Ring
import Mathlib.Data.Rat.Floor
import Mathlib.Data.List.Sort

namespace Splitting

open Library
open WittenBell (readLines readline readLines_nil readLines_isLine)

abbrev Sentence := List Char

structure Options where
  ratio : ℚ

/-- The rounding of a result of `float`. -/
structure FloatRounding where
  round : ℚ → ℚ
  nonneg : ∀ x, 0 ≤ x → 0 ≤ round x
  le_double : ∀ x, 0 ≤ x → round x ≤ 2 * x
  le_half : ∀ x, x ≤ 1 / 2 → round x ≤ 1 / 2

/-- Different positions below `n`, in the order in which they were drawn. -/
structure Drawn (n k : Nat) (indices : List Nat) : Prop where
  length : indices.length = k
  nodup : indices.Nodup
  inside : ∀ index ∈ indices, index < n

/-- A call of `random.sample` produces some sample. -/
structure Sampler where
  indices : Nat → Nat → List Nat
  drawn : ∀ n k, k ≤ n → Drawn n k (indices n k)

/-- `random.sample(xrange(n), k)`, which raises for a sample larger than the population. -/
def Sampler.sample (sampler : Sampler) (n : Nat) (k : Int) : Option (List Nat) :=
  if 0 ≤ k ∧ k ≤ n then some (sampler.indices n k.toNat) else none

def truncate (x : ℚ) : Int := if 0 ≤ x then ⌊x⌋ else ⌈x⌉

def training_sentence_count (rounding : FloatRounding) (options : Options)
    (sentence_count : Nat) : Int :=
  truncate (rounding.round (options.ratio * sentence_count))

def validation_sentence_count (rounding : FloatRounding) (options : Options)
    (sentence_count : Nat) : Int :=
  truncate (rounding.round (rounding.round (1 - options.ratio) * sentence_count))

def split {α : Type} (rounding : FloatRounding) (sampler : Sampler) (options : Options)
    (sentences : List α) : Option (List α × List α) :=
  if options.ratio < 1 / 2 then do
    let training_sentence_indices ← sampler.sample sentences.length
      (training_sentence_count rounding options sentences.length)
    let (training, validation) ← popAll sentences training_sentence_indices.reverse
    some (training, validation)
  else do
    let validation_sentence_indices ← sampler.sample sentences.length
      (validation_sentence_count rounding options sentences.length)
    let (validation, training) ← popAll sentences
      (validation_sentence_indices.mergeSort (fun left right => left ≤ right)).reverse
    some (training, validation)

def sentencesOf (corpus : List Char) : List Sentence := readLines (corpus.length + 1) corpus

/-- A sentence still ends with its own newline. -/
def writeSentence (sentence : Sentence) : List Char := sentence ++ ['\n']

/-- The contents of both files.  The option decides, and not the argument. -/
def split_corpus (rounding : FloatRounding) (sampler : Sampler) (options : Options)
    (corpus : List Char) (_ratio : ℚ) : Option (List Char × List Char) := do
  let (training, validation) ← split rounding sampler options (sentencesOf corpus)
  some (training.flatMap writeSentence, validation.flatMap writeSentence)

/-! ### Where the sentences go -/

/-- The line at a position of the corpus and a newline.  A line that ends with a newline in the
corpus keeps it, so that an empty line stands behind it. -/
def writtenLine (corpus : List Char) (position : Nat) : List Char :=
  (textLines corpus).getD position [] ++
    (if position < corpus.count '\n' then ['\n', '\n'] else ['\n'])

def writeAt (corpus : List Char) (positions : List Nat) : List Char :=
  positions.flatMap (writtenLine corpus)

/-- The positions of the sentences of both sets, and what is written of them. -/
structure Partitions (rounding : FloatRounding) (sampler : Sampler) (options : Options)
    (corpus : List Char) (training validation : List Nat) : Prop where
  positions : split rounding sampler options (List.range (textLines corpus).length) =
    some (training, validation)
  written : split_corpus rounding sampler options corpus options.ratio =
    some (writeAt corpus training, writeAt corpus validation)
  once : (training ++ validation).Perm (List.range (textLines corpus).length)
  trained : options.ratio < 1 / 2 →
    (training.length : Int) =
        training_sentence_count rounding options (textLines corpus).length ∧
      training.Perm (sampler.indices (textLines corpus).length training.length)
  validated : ¬ options.ratio < 1 / 2 →
    (validation.length : Int) =
        validation_sentence_count rounding options (textLines corpus).length ∧
      validation.Perm (sampler.indices (textLines corpus).length validation.length)

/-- The sampled sentences go to one side and all others to the other one. -/
def SplitsExactly (rounding : FloatRounding) (sampler : Sampler) (options : Options)
    (corpus : List Char) : Prop :=
  ∃ training validation, Partitions rounding sampler options corpus training validation

section Branches

variable {α : Type} {rounding : FloatRounding} {sampler : Sampler} {options : Options}
  {sentences : List α} {indices : List Nat}

theorem split_small (small : options.ratio < 1 / 2)
    (sampled : sampler.sample sentences.length
      (training_sentence_count rounding options sentences.length) = some indices) :
    split rounding sampler options sentences = popAll sentences indices.reverse := by
  unfold split
  rw [if_pos small, sampled, Option.bind_eq_bind, Option.bind_some]
  cases popAll sentences indices.reverse with
  | none => rfl
  | some pair => rfl

theorem split_large (large : ¬ options.ratio < 1 / 2)
    (sampled : sampler.sample sentences.length
      (validation_sentence_count rounding options sentences.length) = some indices) :
    split rounding sampler options sentences =
      (popAll sentences (indices.mergeSort (fun left right => left ≤ right)).reverse).map
        Prod.swap := by
  unfold split
  rw [if_neg large, sampled, Option.bind_eq_bind, Option.bind_some]
  cases popAll sentences (indices.mergeSort (fun left right => left ≤ right)).reverse with
  | none => rfl
  | some pair => rfl

end Branches

theorem split_map {α β : Type} (rounding : FloatRounding) (sampler : Sampler) (options : Options)
    (f : α → β) (sentences : List α) :
    split rounding sampler options (sentences.map f) =
      (split rounding sampler options sentences).map
        (fun pair => (pair.1.map f, pair.2.map f)) := by
  by_cases small : options.ratio < 1 / 2
  · cases sampled : sampler.sample sentences.length
        (training_sentence_count rounding options sentences.length) with
    | none =>
        unfold split
        rw [if_pos small, if_pos small, List.length_map, sampled]
        rfl
    | some indices =>
        rw [split_small small (by rw [List.length_map, sampled]), split_small small sampled,
          popAll_map]
  · cases sampled : sampler.sample sentences.length
        (validation_sentence_count rounding options sentences.length) with
    | none =>
        unfold split
        rw [if_neg small, if_neg small, List.length_map, sampled]
        rfl
    | some indices =>
        rw [split_large small (by rw [List.length_map, sampled]), split_large small sampled,
          popAll_map, Option.map_map, Option.map_map]
        rfl

/-! ### Lines -/

theorem readLines_eq (fuel : Nat) (unread : List Char) (enough : unread.length < fuel) :
    readLines fuel unread = (textLines unread).mapIdx (fun position line =>
      if position < unread.count '\n' then line ++ ['\n'] else line) := by
  induction fuel generalizing unread with
  | zero => cases enough
  | succ fuel ih =>
      by_cases ended : '\n' ∈ unread
      · obtain ⟨body, rest, rfl, absent⟩ := List.eq_append_cons_of_mem ended
        have shorter : rest.length < fuel := by
          rw [List.length_append, List.length_cons] at enough
          omega
        have isCount : (body ++ '\n' :: rest).count '\n' = rest.count '\n' + 1 := by
          rw [List.count_append, List.count_eq_zero_of_not_mem absent, List.count_cons_self,
            Nat.zero_add]
        have areLines : textLines (body ++ '\n' :: rest) = body :: textLines rest :=
          records_append_cons absent rest
        rw [readLines_isLine absent, ih rest shorter, areLines, List.mapIdx_cons, isCount,
          if_pos (Nat.succ_pos _)]
        simp only [Nat.add_lt_add_iff_right]
      · have last : readline unread = (unread, []) := by
          have kept : unread.dropWhile (· ≠ '\n') = [] := by
            rw [List.dropWhile_eq_nil_iff]
            intro char member
            exact decide_eq_true (fun same => ended (same ▸ member))
          unfold readline
          rw [kept]
        rw [readLines, last, readLines_nil, List.count_eq_zero_of_not_mem ended]
        by_cases empty : unread = []
        · rw [if_pos empty, empty]
          rfl
        · rw [if_neg empty, textLines, records_of_absent ended empty]
          rfl

theorem length_sentencesOf (corpus : List Char) :
    (sentencesOf corpus).length = (textLines corpus).length := by
  rw [sentencesOf, readLines_eq _ _ (Nat.lt_succ_self _), List.length_mapIdx]

theorem map_writeSentence (corpus : List Char) :
    (sentencesOf corpus).map writeSentence =
      (List.range (textLines corpus).length).map (writtenLine corpus) := by
  apply List.ext_getElem
  · rw [List.length_map, length_sentencesOf, List.length_map, List.length_range]
  · intro position inside _
    rw [List.length_map, length_sentencesOf] at inside
    have isLine := List.getElem?_eq_getElem inside
    simp only [List.getElem_map, List.getElem_range, sentencesOf,
      readLines_eq _ _ (Nat.lt_succ_self _), List.getElem_mapIdx, writeSentence, writtenLine,
      List.getD_eq_getElem?_getD, isLine, Option.getD_some]
    split
    · rw [List.append_assoc]
      rfl
    · rfl

theorem split_corpus_eq {rounding : FloatRounding} {sampler : Sampler} {options : Options}
    {corpus : List Char} {training validation : List Nat} (ratio : ℚ)
    (positions : split rounding sampler options (List.range (textLines corpus).length) =
      some (training, validation)) :
    split_corpus rounding sampler options corpus ratio =
      some (writeAt corpus training, writeAt corpus validation) := by
  have written := split_map rounding sampler options writeSentence (sentencesOf corpus)
  rw [map_writeSentence, split_map, positions, Option.map_some] at written
  obtain ⟨⟨trained, validated⟩, isSplit, sides⟩ := Option.map_eq_some_iff.mp written.symm
  rw [Prod.mk.injEq] at sides
  rw [split_corpus, isSplit, writeAt, writeAt, List.flatMap_def, List.flatMap_def, ← sides.1,
    ← sides.2]
  rfl

/-! ### The sizes of the samples -/

theorem truncate_bounds {x : ℚ} {n : Nat} (nonneg : 0 ≤ x) (bounded : x ≤ n) :
    0 ≤ truncate x ∧ truncate x ≤ n := by
  unfold truncate
  rw [if_pos nonneg]
  constructor
  · exact Int.floor_nonneg.mpr nonneg
  · exact_mod_cast (Int.floor_le x).trans bounded

theorem FloatRounding.product_le (rounding : FloatRounding) {factor : ℚ} (nonneg : 0 ≤ factor)
    (half : factor ≤ 1 / 2) (n : Nat) :
    0 ≤ truncate (rounding.round (factor * n)) ∧ truncate (rounding.round (factor * n)) ≤ n := by
  have product : 0 ≤ factor * n := mul_nonneg nonneg (Nat.cast_nonneg n)
  have count : (0 : ℚ) ≤ n := Nat.cast_nonneg n
  have doubled := rounding.le_double (factor * n) product
  refine truncate_bounds (rounding.nonneg _ product) (doubled.trans ?_)
  nlinarith

theorem training_sentence_count_bounds (rounding : FloatRounding) {options : Options}
    (positive : 0 < options.ratio) (small : options.ratio < 1 / 2) (n : Nat) :
    0 ≤ training_sentence_count rounding options n ∧
      training_sentence_count rounding options n ≤ n :=
  rounding.product_le positive.le small.le n

theorem validation_sentence_count_bounds (rounding : FloatRounding) {options : Options}
    (below : options.ratio < 1) (large : ¬ options.ratio < 1 / 2) (n : Nat) :
    0 ≤ validation_sentence_count rounding options n ∧
      validation_sentence_count rounding options n ≤ n := by
  have nonneg : 0 ≤ 1 - options.ratio := by linarith
  have half : 1 - options.ratio ≤ 1 / 2 := by linarith
  exact rounding.product_le (rounding.nonneg _ nonneg) (rounding.le_half _ half) n

theorem Sampler.sample_eq (sampler : Sampler) {n : Nat} {k : Int} (bounds : 0 ≤ k ∧ k ≤ n) :
    sampler.sample n k = some (sampler.indices n k.toNat) ∧
      Drawn n k.toNat (sampler.indices n k.toNat) := by
  constructor
  · exact if_pos bounds
  · exact sampler.drawn n k.toNat (Int.toNat_le.mpr bounds.2)

/-! ### Both branches -/

theorem splitsExactly_small_iff {rounding : FloatRounding} {sampler : Sampler} {options : Options}
    (positive : 0 < options.ratio) (small : options.ratio < 1 / 2) (corpus : List Char) :
    SplitsExactly rounding sampler options corpus ↔
      (sampler.indices (textLines corpus).length
        (training_sentence_count rounding options
          (textLines corpus).length).toNat).Pairwise (· < ·) := by
  have bounds := training_sentence_count_bounds rounding positive small (textLines corpus).length
  rcases sampler.sample_eq bounds with ⟨sampled, drawn⟩
  generalize isCount : training_sentence_count rounding options (textLines corpus).length =
    count at *
  have split_eq : split rounding sampler options (List.range (textLines corpus).length) =
      popAll (List.range (textLines corpus).length)
        (sampler.indices (textLines corpus).length count.toNat).reverse :=
    split_small small (by rw [List.length_range, isCount, sampled])
  constructor
  · rintro ⟨training, validation, partitions⟩
    rcases partitions.trained small with ⟨length, perm⟩
    have count_eq : training.length = count.toNat := by
      rw [← isCount, ← length, Int.toNat_natCast]
    have popped := split_eq.symm.trans partitions.positions
    rw [count_eq] at perm
    have descending := descending_of_popAll_range popped
      (perm.trans (List.reverse_perm _).symm)
    exact List.pairwise_reverse.mp descending
  · intro ascending
    have inside : ∀ position ∈ (sampler.indices (textLines corpus).length count.toNat).reverse,
        position < (textLines corpus).length :=
      fun position member => drawn.inside position (List.mem_reverse.mp member)
    rcases popAll_range (List.pairwise_reverse.mpr ascending) inside with ⟨rest, popped⟩
    have length : (sampler.indices (textLines corpus).length count.toNat).reverse.length =
        count.toNat := by
      rw [List.length_reverse, drawn.length]
    have positions := split_eq.trans popped
    refine ⟨_, rest, ⟨positions, split_corpus_eq _ positions, popAll_perm popped, fun _ => ?_,
      fun large => absurd small large⟩⟩
    rw [length]
    exact ⟨(Int.toNat_of_nonneg bounds.1).trans isCount.symm, List.reverse_perm _⟩

theorem sorted_sample {n k : Nat} {indices : List Nat} (drawn : Drawn n k indices) :
    (indices.mergeSort (fun left right => left ≤ right)).Pairwise (· < ·) := by
  have transitive : ∀ first second third : Nat, decide (first ≤ second) = true →
      decide (second ≤ third) = true → decide (first ≤ third) = true :=
    fun first second third before after =>
      decide_eq_true ((of_decide_eq_true before).trans (of_decide_eq_true after))
  have total : ∀ first second : Nat,
      (decide (first ≤ second) || decide (second ≤ first)) = true := by
    intro first second
    rw [Bool.or_eq_true, decide_eq_true_iff, decide_eq_true_iff]
    exact Nat.le_total first second
  have sorted := List.pairwise_mergeSort transitive total indices
  have distinct : (indices.mergeSort (fun left right => left ≤ right)).Nodup :=
    (List.mergeSort_perm indices _).nodup_iff.mpr drawn.nodup
  exact (sorted.and distinct).imp
    (fun both => lt_of_le_of_ne (of_decide_eq_true both.1) both.2)

theorem splitsExactly_large {rounding : FloatRounding} {sampler : Sampler} {options : Options}
    (below : options.ratio < 1) (large : ¬ options.ratio < 1 / 2) (corpus : List Char) :
    SplitsExactly rounding sampler options corpus := by
  have bounds := validation_sentence_count_bounds rounding below large (textLines corpus).length
  rcases sampler.sample_eq bounds with ⟨sampled, drawn⟩
  generalize isCount : validation_sentence_count rounding options (textLines corpus).length =
    count at *
  have perm := List.mergeSort_perm (sampler.indices (textLines corpus).length count.toNat)
    (fun left right => left ≤ right)
  have inside : ∀ position ∈
      ((sampler.indices (textLines corpus).length count.toNat).mergeSort
        (fun left right => left ≤ right)).reverse, position < (textLines corpus).length :=
    fun position member => drawn.inside position (perm.mem_iff.mp (List.mem_reverse.mp member))
  rcases popAll_range (List.pairwise_reverse.mpr (sorted_sample drawn)) inside with ⟨rest, popped⟩
  have positions : split rounding sampler options (List.range (textLines corpus).length) =
      some (rest, ((sampler.indices (textLines corpus).length count.toNat).mergeSort
        (fun left right => left ≤ right)).reverse) := by
    rw [split_large large (by rw [List.length_range, isCount, sampled]), popped]
    rfl
  have length : ((sampler.indices (textLines corpus).length count.toNat).mergeSort
      (fun left right => left ≤ right)).reverse.length = count.toNat := by
    rw [List.length_reverse, perm.length_eq, drawn.length]
  refine ⟨rest, _, ⟨positions, split_corpus_eq _ positions,
    List.perm_append_comm.trans (popAll_perm popped), fun small => absurd small large,
    fun _ => ?_⟩⟩
  rw [length]
  exact ⟨(Int.toNat_of_nonneg bounds.1).trans isCount.symm, (List.reverse_perm _).trans perm⟩

/-- The split is exact when validation sentences are sampled, or when the training
sentences happen to be drawn in ascending order. -/
theorem splitsExactly_iff (rounding : FloatRounding) (sampler : Sampler) {options : Options}
    (positive : 0 < options.ratio) (below : options.ratio < 1) (corpus : List Char) :
    SplitsExactly rounding sampler options corpus ↔
      1 / 2 ≤ options.ratio ∨
        (sampler.indices (textLines corpus).length
          (training_sentence_count rounding options
            (textLines corpus).length).toNat).Pairwise (· < ·) := by
  by_cases small : options.ratio < 1 / 2
  · rw [splitsExactly_small_iff positive small]
    exact (or_iff_right (not_le.mpr small)).symm
  · exact iff_of_true (splitsExactly_large below small corpus) (Or.inl (not_lt.mp small))

def exactFloats : FloatRounding :=
  { round := id
    nonneg := fun _ nonneg => nonneg
    le_double := by
      intro x nonneg
      dsimp only [id]
      linarith
    le_half := fun _ half => half }

def lastFirst : Sampler :=
  { indices := fun n k => (List.range k).map (fun i => n - 1 - i)
    drawn := by
      intro n k fits
      constructor
      · rw [List.length_map, List.length_range]
      · refine List.Nodup.map_on ?_ List.nodup_range
        intro first inFirst second inSecond same
        have firstBound := List.mem_range.mp inFirst
        have secondBound := List.mem_range.mp inSecond
        omega
      · intro index member
        rcases List.mem_map.mp member with ⟨i, inRange, rfl⟩
        have bound := List.mem_range.mp inRange
        omega }

def sixLines : List Char := "a\nb\nc\nd\ne\nf\n".toList

theorem splitsExactly_iff_sixLines :
    SplitsExactly exactFloats lastFirst { ratio := 3 / 4 } sixLines :=
  (splitsExactly_iff exactFloats lastFirst (by norm_num) (by norm_num) sixLines).mpr
    (Or.inl (by norm_num))

/-- The positions 5 and 4 are sampled; after the one at 4 is taken out, 5 is behind the end. -/
theorem sixLines_raises :
    split_corpus exactFloats lastFirst { ratio := 3 / 8 } sixLines (3 / 8) = none ∧
      ¬ SplitsExactly exactFloats lastFirst { ratio := 3 / 8 } sixLines := by
  have raises : split_corpus exactFloats lastFirst { ratio := 3 / 8 } sixLines (3 / 8) = none := by
    decide +kernel
  refine ⟨raises, ?_⟩
  rintro ⟨training, validation, partitions⟩
  cases raises.symm.trans partitions.written

end Splitting
