/-
Replacing every match of a search in a text, from left to right.

A search gives the bounds of the first match of a text, so what lies behind a match is
searched as a text of its own.  A replacement may fail or have effects.
-/

import Mathlib.Data.List.Basic

namespace Library

variable {α : Type}

/-- The bounds of a non-empty part of a text. -/
structure Match (text : List α) where
  start : Nat
  stop : Nat
  nonempty : start < stop
  inside : stop ≤ text.length

def Match.text {text : List α} (found : Match text) : List α :=
  (text.take found.stop).drop found.start

abbrev Search (α : Type) : Type := (text : List α) → Option (Match text)

theorem Match.length_drop_lt {text : List α} (found : Match text) :
    (text.drop found.stop).length < text.length := by
  have nonempty := found.nonempty
  have inside := found.inside
  rw [List.length_drop]
  omega

section

variable {m : Type → Type} [Monad m]

def replaceMatches (search : Search α) (replace : List α → m (List α)) (text : List α) :
    m (List α) :=
  match search text with
  | none => pure text
  | some found => do
      let replacement ← replace found.text
      let rest ← replaceMatches search replace (text.drop found.stop)
      return text.take found.start ++ replacement ++ rest
termination_by text.length
decreasing_by exact found.length_drop_lt

variable {search : Search α} {replace : List α → m (List α)} {text : List α}

theorem replaceMatches_none (absent : search text = none) :
    replaceMatches search replace text = pure text := by
  rw [replaceMatches, absent]

theorem replaceMatches_some {found : Match text} (present : search text = some found) :
    replaceMatches search replace text = (do
      let replacement ← replace found.text
      let rest ← replaceMatches search replace (text.drop found.stop)
      return text.take found.start ++ replacement ++ rest) := by
  rw [replaceMatches, present]

end

/-! ### A match of what follows an offset -/

section

variable {text rest : List α} {offset : Nat} (behind : text.drop offset = rest)

include behind

theorem offset_add_le (found : Match rest) : offset + found.stop ≤ text.length := by
  have nonempty := found.nonempty
  have inside := found.inside
  have length : (text.drop offset).length = rest.length := congrArg List.length behind
  rw [List.length_drop] at length
  omega

theorem length_written (found : Match rest) (replacement : List α) :
    (text.take (offset + found.start) ++ replacement).length =
      offset + found.start + replacement.length := by
  have nonempty := found.nonempty
  have fits := offset_add_le behind found
  rw [List.length_append, List.length_take_of_le (by omega)]

theorem take_offset_add (found : Match rest) :
    text.take (offset + found.start) = text.take offset ++ rest.take found.start := by
  rw [List.take_add, behind]

theorem drop_splice (found : Match rest) (replacement : List α) :
    (text.take (offset + found.start) ++ replacement ++ text.drop (offset + found.stop)).drop
      (offset + found.start + replacement.length) = rest.drop found.stop := by
  rw [← length_written behind found replacement, List.drop_left, ← List.drop_drop, behind]

theorem take_splice (found : Match rest) (replacement : List α) :
    (text.take (offset + found.start) ++ replacement ++ text.drop (offset + found.stop)).take
      (offset + found.start + replacement.length) =
        text.take offset ++ (rest.take found.start ++ replacement) := by
  rw [← length_written behind found replacement, List.take_left, take_offset_add behind found, List.append_assoc]

end

end Library
