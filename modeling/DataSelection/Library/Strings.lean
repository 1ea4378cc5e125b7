/-
Searching and slicing of strings.

An index of -1 stands for a search without a hit, and a negative index counts
from the end of a string.
-/

import Mathlib.Data.List.Infix

namespace Library

/-- The index of the first occurrence of a pattern, or -1. -/
def find (text pattern : List Char) : Int :=
  match text.tails.findIdx? (fun rest => pattern.isPrefixOf rest) with
  | some index => index
  | none => -1

/-- The index of the last occurrence of a character, or -1. -/
def rfind (text : List Char) (char : Char) : Int :=
  match text.reverse.findIdx? (· = char) with
  | some index => text.length - 1 - index
  | none => -1

/-- The text up to an index, which counts from the end when it is negative. -/
def upTo (text : List Char) (index : Int) : List Char :=
  if index < 0 then text.take (text.length + index).toNat
  else text.take index.toNat

theorem find_of_absent {text : List Char} {char : Char} (absent : char ∉ text) :
    find text [char] = -1 := by
  have missed : text.tails.findIdx? (fun rest => [char].isPrefixOf rest) = none := by
    rw [List.findIdx?_eq_none_iff]
    intro rest member
    have inside : rest <:+ text := (List.mem_tails rest text).mp member
    cases rest with
    | nil => rfl
    | cons first others =>
        have different : char ≠ first := by
          intro same
          subst first
          exact absent (inside.subset List.mem_cons_self)
        simp [List.isPrefixOf, different]
  rw [find, missed]

theorem find_append {before rest : List Char} {char : Char} (absent : char ∉ before) :
    find (before ++ char :: rest) [char] = before.length := by
  have found : (before ++ char :: rest).tails.findIdx? (fun rest => [char].isPrefixOf rest) =
      some before.length := by
    induction before with
    | nil => simp [List.findIdx?_cons, List.isPrefixOf]
    | cons first before ih =>
        rcases not_or.mp (fun either => absent (List.mem_cons.mpr either)) with ⟨different, later⟩
        rw [List.cons_append, List.tails_cons, List.findIdx?_cons, ih later]
        simp [List.isPrefixOf, different]
  rw [find, found]

theorem rfind_of_absent {text : List Char} {char : Char} (absent : char ∉ text) :
    rfind text char = -1 := by
  have missed : text.reverse.findIdx? (· = char) = none := by
    rw [List.findIdx?_eq_none_iff]
    intro other member
    have different : other ≠ char := by
      rintro rfl
      exact absent (List.mem_reverse.mp member)
    exact decide_eq_false different
  rw [rfind, missed]

theorem rfind_append (before : List Char) {rest : List Char} {char : Char} (absent : char ∉ rest) :
    rfind (before ++ char :: rest) char = before.length := by
  have missed : ∀ other ∈ rest.reverse, decide (other = char) = false := by
    intro other member
    apply decide_eq_false
    rintro rfl
    exact absent (List.mem_reverse.mp member)
  have behind : rest.reverse.findIdx? (· = char) = none :=
    List.findIdx?_eq_none_iff.mpr missed
  have found : (before ++ char :: rest).reverse.findIdx? (· = char) = some rest.length := by
    rw [List.reverse_append, List.reverse_cons, List.append_assoc, List.findIdx?_append, behind]
    simp [List.findIdx?_cons]
  rw [rfind, found]
  simp only [List.length_append, List.length_cons]
  omega

theorem upTo_append (before rest : List Char) : upTo (before ++ rest) before.length = before := by
  have nonneg : ¬ (before.length : Int) < 0 := by omega
  rw [upTo, if_neg nonneg, Int.toNat_natCast, List.take_left]

end Library
