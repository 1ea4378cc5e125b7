/-
The split of a corpus into chunks of whole lines.

The numbers of lines are computed with decimals, of which only the integer part is left.  A
share below one line leaves no digit at all, and then the script stops.
-/

import DataSelection.Library.Records

namespace Splitting

open Library

/-- `wc -l`. -/
def wc_l (text : List Char) : Nat := text.count '\n'

/-- The lines of a text without their ends. -/
def textLines (text : List Char) : List (List Char) := records '\n' text

/-- The digits of a decimal number, and how many of them stand behind the point. -/
structure Decimal where
  digits : Nat
  scale : Nat

structure PsplitOptions where
  equal_chunks : Nat
  total_lines : Nat
  percents : List Decimal

/-- What `sed` leaves of a printed number.  A zero is printed as one digit, and a number below
one without a digit before its point. -/
def integerPart (scaled unit : Nat) : Option Nat :=
  if scaled = 0 then some 0 else if scaled < unit then none else some (scaled / unit)

/-- The numbers of lines of all chunks but the last one.  `head -n` stops the script if it is
called without a number. -/
def chunkLines (options : PsplitOptions) (total_lines : Nat) : Option (List Nat) :=
  if 0 < options.equal_chunks then
    (integerPart (total_lines * 10 ^ 5 / options.equal_chunks) (10 ^ 5)).map
      (List.replicate (options.equal_chunks - 1))
  else
    options.percents.mapM (fun percent =>
      integerPart (percent.digits * total_lines) (10 ^ percent.scale))

/-- The contents of the chunks of a shuffled file. -/
def psplit (options : PsplitOptions) (input_file shuffled : List Char) :
    Option (List (List Char)) :=
  let total_lines := if options.total_lines = 0 then wc_l input_file else options.total_lines
  (chunkLines options total_lines).map (fun lines => shareRecords '\n' lines shuffled)

/-! ### Shares -/

theorem integerPart_eq_none_iff {scaled unit : Nat} :
    integerPart scaled unit = none ↔ 0 < scaled ∧ scaled < unit := by
  unfold integerPart
  split
  · next zero => simp [zero]
  · next positive =>
      split
      · next small => simp [Nat.pos_of_ne_zero positive, small]
      · next large => simp [large]

theorem eq_of_integerPart {scaled unit lines : Nat}
    (isPart : integerPart scaled unit = some lines) : lines = scaled / unit := by
  unfold integerPart at isPart
  split at isPart
  · next zero =>
      cases isPart
      rw [zero, Nat.zero_div]
  · split at isPart
    · cases isPart
    · exact (Option.some.inj isPart).symm

/-- The digits behind the point do not matter for whole lines. -/
theorem scaled_div (total chunks unit : Nat) (positive : 0 < unit) :
    total * unit / chunks / unit = total / chunks := by
  rw [Nat.div_div_eq_div_mul, Nat.mul_div_mul_right total chunks positive]

/-- In all modes the chunks are made of the lines of the file in their order; a chunk has as many
lines as it should have, unless the file ends before. -/
theorem psplit_shares {options : PsplitOptions} {input_file shuffled : List Char}
    {chunks : List (List Char)} (isSplit : psplit options input_file shuffled = some chunks) :
    chunks.flatten = shuffled ∧ (chunks.map textLines).flatten = textLines shuffled ∧
      ∃ lines, chunkLines options
          (if options.total_lines = 0 then wc_l input_file else options.total_lines) =
            some lines ∧ chunks.length = lines.length + 1 ∧
        ∀ place count, lines[place]? = some count → ∃ chunk, chunks[place]? = some chunk ∧
          wc_l chunk = min count (wc_l shuffled - (lines.take place).sum) := by
  obtain ⟨lines, areLines, isShared⟩ := Option.map_eq_some_iff.mp isSplit
  rw [← isShared]
  exact ⟨flatten_shareRecords lines shuffled, records_shareRecords lines shuffled, lines, areLines,
    length_shareRecords lines shuffled, fun place count wanted => count_shareRecords shuffled wanted⟩

/-- Equal chunks are the lines of the shuffled file in their order, and all but the last one have
equally many. -/
theorem psplit_equal_chunks {options : PsplitOptions} (equal : 0 < options.equal_chunks)
    (uncounted : options.total_lines = 0) {input_file shuffled : List Char}
    (enough : wc_l input_file ≤ wc_l shuffled) {chunks : List (List Char)}
    (isSplit : psplit options input_file shuffled = some chunks) :
    chunks.length = options.equal_chunks ∧ chunks.flatten = shuffled ∧
      (chunks.map textLines).flatten = textLines shuffled ∧
      ∀ place < options.equal_chunks - 1, ∃ chunk, chunks[place]? = some chunk ∧
        wc_l chunk = wc_l input_file / options.equal_chunks := by
  obtain ⟨whole, sameLines, lines, areLines, isLength, counted⟩ := psplit_shares isSplit
  rw [if_pos uncounted, chunkLines, if_pos equal] at areLines
  obtain ⟨share, isShare, rfl⟩ := Option.map_eq_some_iff.mp areLines
  have isQuotient : share = wc_l input_file / options.equal_chunks := by
    rw [eq_of_integerPart isShare, scaled_div _ _ _ (by decide)]
  refine ⟨?_, whole, sameLines, ?_⟩
  · rw [isLength, List.length_replicate]
    omega
  · intro place inside
    have wanted : (List.replicate (options.equal_chunks - 1) share)[place]? = some share := by
      rw [List.getElem?_replicate, if_pos inside]
    obtain ⟨chunk, isChunk, chunkCounted⟩ := counted place share wanted
    refine ⟨chunk, isChunk, ?_⟩
    -- the chunks up to this one take at most all lines
    have room : (place + 1) * share ≤ wc_l input_file :=
      calc (place + 1) * share ≤ options.equal_chunks * share :=
            Nat.mul_le_mul_right share (by omega)
        _ ≤ wc_l input_file := by
            rw [isQuotient]
            exact Nat.mul_div_le _ _
    have before : ((List.replicate (options.equal_chunks - 1) share).take place).sum =
        place * share := by
      rw [List.take_replicate, List.sum_replicate_nat, Nat.min_eq_left (Nat.le_of_lt inside)]
    rw [Nat.succ_mul] at room
    rw [chunkCounted, before, ← isQuotient]
    omega

/-- Splitting into equal chunks fails exactly for a file with fewer lines than chunks that still
has a hundred-thousandth of a line for each.  Otherwise the chunks are the lines of the shuffled
file in their order, and all but the last one have equally many.  A line is what a newline ends, so
that a shuffle that ends the last line as well has one more than the file. -/
theorem psplit_equal {options : PsplitOptions} (equal : 0 < options.equal_chunks)
    (uncounted : options.total_lines = 0) {input_file shuffled : List Char}
    (enough : wc_l input_file ≤ wc_l shuffled) :
    (psplit options input_file shuffled = none ↔
      wc_l input_file < options.equal_chunks ∧
        options.equal_chunks ≤ wc_l input_file * 10 ^ 5) ∧
      ∀ chunks, psplit options input_file shuffled = some chunks →
        chunks.length = options.equal_chunks ∧ chunks.flatten = shuffled ∧
          (chunks.map textLines).flatten = textLines shuffled ∧
          ∀ place < options.equal_chunks - 1, ∃ chunk, chunks[place]? = some chunk ∧
            wc_l chunk = wc_l input_file / options.equal_chunks := by
  constructor
  · rw [psplit, if_pos uncounted, Option.map_eq_none_iff, chunkLines, if_pos equal,
      Option.map_eq_none_iff, integerPart_eq_none_iff, Nat.div_lt_iff_lt_mul equal,
      Nat.mul_comm (10 ^ 5), Nat.mul_lt_mul_right (by decide), Nat.div_pos_iff]
    constructor
    · intro ⟨⟨_, fits⟩, few⟩
      exact ⟨few, fits⟩
    · intro ⟨few, fits⟩
      exact ⟨⟨equal, fits⟩, few⟩
  · intro chunks isSplit
    exact psplit_equal_chunks equal uncounted enough isSplit

/-- Three lines are too few for four chunks; three lines, the last of them without an end, are two
chunks. -/
theorem psplit_equal_three :
    psplit ⟨4, 0, []⟩ "a\nb\nc\n".toList "c\na\nb\n".toList = none ∧
      ∃ chunks, psplit ⟨2, 0, []⟩ "a\nb\nc".toList "c\na\nb\n".toList = some chunks ∧
        chunks.length = 2 ∧ chunks.flatten = "c\na\nb\n".toList ∧
        (chunks.map textLines).flatten = textLines "c\na\nb\n".toList ∧
        ∀ place < 1, ∃ chunk, chunks[place]? = some chunk ∧ wc_l chunk = 1 := by
  refine ⟨(psplit_equal (Nat.succ_pos 3) rfl (by decide)).1.mpr ⟨by decide, by decide⟩,
    ["c\n".toList, "a\nb\n".toList], by decide, ?_⟩
  exact (@psplit_equal ⟨2, 0, []⟩ Nat.two_pos rfl "a\nb\nc".toList "c\na\nb\n".toList (by decide)).2 _
    (by decide)

end Splitting
