/-
Quoted texts in which a quote is written twice.

A quote that is not followed by another one ends the text.
-/

import Mathlib.Data.List.Basic

namespace Library

def double (quote : Char) (text : List Char) : List Char :=
  text.flatMap (fun char => if char = quote then [quote, quote] else [char])

/-- The text up to the closing quote, and what stands behind the quote. -/
def readDoubled (quote : Char) : List Char → Option (List Char × List Char)
  | [] => none
  | [char] => if char = quote then some ([], []) else none
  | char :: next :: rest =>
      if char = quote then
        if next = quote then
          (readDoubled quote rest).map (fun read => (quote :: read.1, read.2))
        else some ([], next :: rest)
      else (readDoubled quote (next :: rest)).map (fun read => (char :: read.1, read.2))

variable {quote : Char}

theorem double_append (quote : Char) (first second : List Char) :
    double quote (first ++ second) = double quote first ++ double quote second :=
  List.flatMap_append

theorem double_cons_self (quote : Char) (text : List Char) :
    double quote (quote :: text) = quote :: quote :: double quote text := by
  rw [double, List.flatMap_cons, if_pos rfl]
  rfl

theorem double_cons_of_ne {char : Char} (different : char ≠ quote) (text : List Char) :
    double quote (char :: text) = char :: double quote text := by
  rw [double, List.flatMap_cons, if_neg different]
  rfl

theorem double_comm {first second : Char} (different : first ≠ second) (text : List Char) :
    double first (double second text) = double second (double first text) := by
  induction text with
  | nil => rfl
  | cons char text ih =>
      by_cases isFirst : char = first
      · subst isFirst
        rw [double_cons_of_ne different, double_cons_self, double_cons_self,
          double_cons_of_ne different, double_cons_of_ne different, ih]
      · by_cases isSecond : char = second
        · subst isSecond
          rw [double_cons_self, double_cons_of_ne isFirst, double_cons_of_ne isFirst,
            double_cons_of_ne isFirst, double_cons_self, ih]
        · rw [double_cons_of_ne isSecond, double_cons_of_ne isFirst, double_cons_of_ne isFirst,
            double_cons_of_ne isSecond, ih]

theorem mem_double {char : Char} {text : List Char} : char ∈ double quote text ↔ char ∈ text := by
  unfold double
  rw [List.mem_flatMap]
  constructor
  · rintro ⟨other, present, inside⟩
    split at inside
    · next same =>
        subst same
        have isQuote : char = other := by simpa using inside
        exact isQuote ▸ present
    · rw [List.mem_singleton.mp inside]
      exact present
  · intro present
    refine ⟨char, present, ?_⟩
    split
    · next same =>
        rw [same]
        exact List.mem_cons_self
    · exact List.mem_singleton_self char

theorem readDoubled_quotes (quote : Char) (rest : List Char) :
    readDoubled quote (quote :: quote :: rest) =
      (readDoubled quote rest).map (fun read => (quote :: read.1, read.2)) := by
  rw [readDoubled, if_pos rfl, if_pos rfl]

theorem readDoubled_of_ne {char : Char} (different : char ≠ quote) {rest : List Char}
    (more : rest ≠ []) :
    readDoubled quote (char :: rest) =
      (readDoubled quote rest).map (fun read => (char :: read.1, read.2)) := by
  rcases List.exists_cons_of_ne_nil more with ⟨next, others, rfl⟩
  rw [readDoubled, if_neg different]

theorem readDoubled_double (text : List Char) {rest : List Char} (ends : rest.head? ≠ some quote) :
    readDoubled quote (double quote text ++ quote :: rest) = some (text, rest) := by
  induction text with
  | nil =>
      cases rest with
      | nil => exact if_pos rfl
      | cons next others =>
          have different : next ≠ quote := fun same => ends (congrArg some same)
          change readDoubled quote (quote :: next :: others) = _
          rw [readDoubled, if_pos rfl, if_neg different]
  | cons char text ih =>
      by_cases isQuote : char = quote
      · subst isQuote
        rw [double_cons_self, List.cons_append, List.cons_append, readDoubled_quotes, ih]
        rfl
      · rw [double_cons_of_ne isQuote, List.cons_append, readDoubled_of_ne isQuote (by simp), ih]
        rfl

/-- Without a closing quote there is no text. -/
theorem readDoubled_unclosed (text : List Char) : readDoubled quote (double quote text) = none := by
  induction text with
  | nil => rfl
  | cons char text ih =>
      by_cases isQuote : char = quote
      · subst isQuote
        rw [double_cons_self, readDoubled_quotes, ih]
        rfl
      · rw [double_cons_of_ne isQuote]
        cases doubled : double quote text with
        | nil => exact if_neg isQuote
        | cons next others =>
            rw [readDoubled_of_ne isQuote (List.cons_ne_nil next others), ← doubled, ih]
            rfl

end Library
