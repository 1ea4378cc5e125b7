/-
Splitting a text at separators and dropping the empty pieces.
-/

import Mathlib.Data.List.DropRight
import Mathlib.Data.List.TakeWhile

namespace Library

variable {α : Type}

/-- Definitions that look for a text among others refer to the equality of texts by this name. -/
instance lawfulText [DecidableEq α] : LawfulBEq (List α) := List.instLawfulBEq

/-! ### Up to a separator -/

section

variable [DecidableEq α] {separator : α} {text : List α}

theorem passes_of_absent (absent : separator ∉ text) :
    ∀ item ∈ text, decide (item ≠ separator) = true := by
  intro item present
  apply decide_eq_true
  rintro rfl
  exact absent present

theorem takeWhile_of_absent (absent : separator ∉ text) (rest : List α) :
    (text ++ separator :: rest).takeWhile (· ≠ separator) = text := by
  rw [List.takeWhile_append_of_pos (passes_of_absent absent)]
  simp

theorem dropWhile_of_absent (absent : separator ∉ text) (rest : List α) :
    (text ++ separator :: rest).dropWhile (· ≠ separator) = separator :: rest := by
  rw [List.dropWhile_append_of_pos (passes_of_absent absent)]
  simp

end

/-! ### Pieces -/

def tokens (isSeparator : α → Bool) (text : List α) : List (List α) :=
  (text.splitOnP isSeparator).filter (fun piece => !piece.isEmpty)

variable {isSeparator : α → Bool}

theorem tokens_nil : tokens isSeparator ([] : List α) = [] := rfl

theorem tokens_append_cons (left right : List α) {separator : α}
    (separates : isSeparator separator = true) :
    tokens isSeparator (left ++ separator :: right) =
      tokens isSeparator left ++ tokens isSeparator right := by
  unfold tokens
  rw [List.splitOnP_append_cons left right separates, List.filter_append]

theorem tokens_word {word : List α} (nonempty : word ≠ [])
    (clean : ∀ item ∈ word, isSeparator item = false) : tokens isSeparator word = [word] := by
  unfold tokens
  rw [List.splitOnP_eq_singleton clean]
  simp [nonempty]

/-- Words joined by a separator are found again. -/
theorem tokens_intercalate {separator : α} (separates : isSeparator separator = true)
    (found : List (List α)) (nonempty : ∀ word ∈ found, word ≠ [])
    (clean : ∀ word ∈ found, ∀ item ∈ word, isSeparator item = false) :
    tokens isSeparator ([separator].intercalate found) = found := by
  induction found with
  | nil => exact tokens_nil
  | cons word rest ih =>
      have first := tokens_word (nonempty word List.mem_cons_self) (clean word List.mem_cons_self)
      have later := ih (fun other present => nonempty other (List.mem_cons_of_mem word present))
        (fun other present => clean other (List.mem_cons_of_mem word present))
      cases rest with
      | nil =>
          rw [List.intercalate_singleton]
          exact first
      | cons second others =>
          rw [List.intercalate_cons_cons, List.append_assoc, List.singleton_append,
            tokens_append_cons _ _ separates, first, later, List.singleton_append]

theorem ne_nil_of_mem_tokens {text token : List α} (member : token ∈ tokens isSeparator text) :
    token ≠ [] := by
  have filled := (List.mem_filter.mp member).2
  intro empty
  rw [empty] at filled
  cases filled

private theorem clean_of_mem_splitOnP {text piece : List α}
    (member : piece ∈ text.splitOnP isSeparator) : ∀ item ∈ piece, isSeparator item = false := by
  induction text generalizing piece with
  | nil =>
      rw [List.splitOnP_nil, List.mem_singleton] at member
      intro item present
      rw [member] at present
      cases present
  | cons head rest ih =>
      rw [List.splitOnP_cons_eq_if_modifyHead] at member
      cases separates : isSeparator head with
      | true =>
          rw [if_pos separates] at member
          cases List.mem_cons.mp member with
          | inl empty =>
              intro item present
              rw [empty] at present
              cases present
          | inr later => exact ih later
      | false =>
          rw [separates, if_neg Bool.false_ne_true] at member
          cases pieces : rest.splitOnP isSeparator with
          | nil => exact (List.splitOnP_ne_nil isSeparator rest pieces).elim
          | cons first others =>
              rw [pieces, List.modifyHead_cons] at member
              cases List.mem_cons.mp member with
              | inl same =>
                  intro item present
                  rw [same] at present
                  cases List.mem_cons.mp present with
                  | inl isHead =>
                      rw [isHead]
                      exact separates
                  | inr inFirst =>
                      exact ih (by rw [pieces]; exact List.mem_cons_self) item inFirst
              | inr later => exact ih (by rw [pieces]; exact List.mem_cons_of_mem first later)

theorem clean_of_mem_tokens {text token : List α} (member : token ∈ tokens isSeparator text) :
    ∀ item ∈ token, isSeparator item = false :=
  clean_of_mem_splitOnP (List.mem_filter.mp member).1

/-! ### Separators at the ends -/

theorem tokens_dropWhile (text : List α) :
    tokens isSeparator (text.dropWhile isSeparator) = tokens isSeparator text := by
  induction text with
  | nil => rfl
  | cons head rest ih =>
      cases separates : isSeparator head with
      | true =>
          have split := tokens_append_cons [] rest separates
          rw [tokens_nil, List.nil_append, List.nil_append] at split
          rw [List.dropWhile_cons_of_pos separates, ih, split]
      | false => rw [List.dropWhile_cons_of_neg (by rw [separates]; exact Bool.false_ne_true)]

theorem tokens_rdropWhile (text : List α) :
    tokens isSeparator (text.rdropWhile isSeparator) = tokens isSeparator text := by
  induction text using List.reverseRecOn with
  | nil => rfl
  | append_singleton front last ih =>
      cases separates : isSeparator last with
      | true =>
          rw [List.rdropWhile_concat_pos _ _ _ separates, ih, tokens_append_cons front [] separates,
            tokens_nil, List.append_nil]
      | false =>
          rw [List.rdropWhile_concat_neg _ _ _ (by rw [separates]; exact Bool.false_ne_true)]

end Library
