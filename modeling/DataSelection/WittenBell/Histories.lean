/-
Histories and the words behind them.

When no token of the corpus is a sentence symbol, a line starts and ends with one and
has none in between.  So an occurrence of a history is followed by a word unless the
history ends with the end symbol, and no word behind a history is the start symbol.
-/

import DataSelection.Library.Successors
import DataSelection.WittenBell.Counts

namespace WittenBell

open Library

/-- No token of the corpus is one of the sentence symbols. -/
def Unmarked (lines : List (List Char)) : Prop :=
  ∀ line ∈ lines, startSymbol ∉ split line ∧ endSymbol ∉ split line

variable {lines : List (List Char)}

theorem total_pos_iff_isInfix {entry : List Word} :
    0 < total lines entry ↔ ∃ line ∈ lines, entry <:+: wordList line := by
  rw [total_pos_iff]
  simp only [mem_windows_iff_isInfix]

theorem total_pos_of_isInfix {entry part : List Word} (isPart : part <:+: entry)
    (occurs : 0 < total lines entry) : 0 < total lines part := by
  rcases total_pos_iff_isInfix.mp occurs with ⟨line, inLines, isRun⟩
  exact total_pos_iff_isInfix.mpr ⟨line, inLines, isPart.trans isRun⟩

theorem total_startSymbol_pos (nonempty : lines ≠ []) : 0 < total lines [startSymbol] := by
  obtain ⟨line, inLines⟩ := List.exists_mem_of_ne_nil lines nonempty
  refine total_pos_iff_isInfix.mpr ⟨line, inLines, [], split line ++ [endSymbol], ?_⟩
  rw [wordList_eq, List.nil_append, List.singleton_append]

private theorem total_eq_sum_of_lines {history : List Word} {successors : Finset Word}
    (inLine : ∀ line ∈ lines, occurrences history (wordList line) =
      ∑ word ∈ successors, occurrences (history ++ [word]) (wordList line)) :
    total lines history = ∑ word ∈ successors, total lines (history ++ [word]) := by
  induction lines with
  | nil => simp [total]
  | cons line rest ih =>
      have inRest := ih (fun other member => inLine other (List.mem_cons_of_mem line member))
      simp only [total_cons]
      rw [Finset.sum_add_distrib, inLine line List.mem_cons_self, inRest]

section

variable (unmarked : Unmarked lines)

include unmarked

theorem endSymbol_notMem_history {history : List Word} {word : Word}
    (occurs : 0 < total lines (history ++ [word])) : endSymbol ∉ history := by
  intro member
  rcases total_pos_iff_isInfix.mp occurs with ⟨line, inLines, isRun⟩
  have inside := mem_dropLast_of_isInfix isRun member
  rw [wordList_eq, ← List.cons_append, List.dropLast_concat] at inside
  cases List.mem_cons.mp inside with
  | inl isStart => exact absurd isStart (by decide)
  | inr isToken => exact (unmarked line inLines).2 isToken

theorem ne_startSymbol_of_follows {history : List Word} {word : Word} (nonempty : history ≠ [])
    (occurs : 0 < total lines (history ++ [word])) : word ≠ startSymbol := by
  rintro rfl
  rcases total_pos_iff_isInfix.mp occurs with ⟨line, inLines, isRun⟩
  have inside := mem_tail_of_isInfix nonempty isRun
  rw [wordList_eq, List.tail_cons] at inside
  cases List.mem_append.mp inside with
  | inl isToken => exact (unmarked line inLines).1 isToken
  | inr isEnd => exact absurd (List.mem_singleton.mp isEnd) (by decide)

/-- A history that is followed at all is followed at each of its occurrences. -/
theorem total_eq_sum {history : List Word} {successors : Finset Word} (nonempty : history ≠ [])
    (followed : ∃ word, 0 < total lines (history ++ [word]))
    (covers : ∀ word, 0 < total lines (history ++ [word]) → word ∈ successors) :
    total lines history = ∑ word ∈ successors, total lines (history ++ [word]) := by
  rcases followed with ⟨next, occurs⟩
  have noEnd := endSymbol_notMem_history unmarked occurs
  have inLine : ∀ line ∈ lines, occurrences history (wordList line) =
      ∑ word ∈ successors, occurrences (history ++ [word]) (wordList line) := by
    intro line inLines
    apply occurrences_eq_sum
    · intro isSuffix
      have last := isSuffix.getLast nonempty
      have isEnd : (wordList line).getLast
          (isSuffix.ne_nil nonempty) = endSymbol := by
        simp [wordList_eq]
      rw [isEnd] at last
      exact noEnd (last ▸ List.getLast_mem nonempty)
    · intro word isRun
      exact covers word (total_pos_iff_isInfix.mpr ⟨line, inLines, isRun⟩)
  exact total_eq_sum_of_lines inLine

end

end WittenBell
