/-
The English numerals.

A numeral is read by its largest scale word: what stands before it says how many of it are
meant, and what stands behind it is added.  The words and their values are listed apart from
the tables of the scripts.
-/

import DataSelection.WittenBell.Corpus
import Mathlib.Algebra.GroupWithZero.Nat

namespace Numbers

open WittenBell (Word)

def ones : List (Word × Nat) :=
  [("one", 1), ("two", 2), ("three", 3), ("four", 4), ("five", 5), ("six", 6), ("seven", 7),
    ("eight", 8), ("nine", 9)].map (fun entry => (entry.1.toList, entry.2))

def teens : List (Word × Nat) :=
  [("ten", 10), ("eleven", 11), ("twelve", 12), ("thirteen", 13), ("fourteen", 14),
    ("fifteen", 15), ("sixteen", 16), ("seventeen", 17), ("eighteen", 18),
    ("nineteen", 19)].map (fun entry => (entry.1.toList, entry.2))

def tens : List (Word × Nat) :=
  [("twenty", 20), ("thirty", 30), ("forty", 40), ("fifty", 50), ("sixty", 60), ("seventy", 70),
    ("eighty", 80), ("ninety", 90)].map (fun entry => (entry.1.toList, entry.2))

/-- The scale words above hundred, from the largest one on. -/
def scales : List (Word × Nat) :=
  [("vigintillion", 63), ("novemdecillion", 60), ("octodecillion", 57), ("septendecillion", 54),
    ("sexdecillion", 51), ("quindecillion", 48), ("quattuordecillion", 45), ("tredecillion", 42),
    ("duodecillion", 39), ("undecillion", 36), ("decillion", 33), ("nonillion", 30),
    ("octillion", 27), ("septillion", 24), ("sextillion", 21), ("quintillion", 18),
    ("quadrillion", 15), ("trillion", 12), ("billion", 9), ("million", 6),
    ("thousand", 3)].map (fun entry => (entry.1.toList, 10 ^ entry.2))

def zeroWord : Word := "zero".toList

def hundredWord : Word := "hundred".toList

/-- All words that stand for numbers. -/
def cardinalWords : List Word :=
  zeroWord :: hundredWord :: (ones ++ teens ++ tens ++ scales).map Prod.fst

/-! ### The value of a numeral -/

def belowHundred : List Word → Option Nat
  | [word] => (ones ++ teens ++ tens).lookup word
  | [ten, one] => do
      let upper ← tens.lookup ten
      let lower ← ones.lookup one
      some (upper + lower)
  | _ => none

/-- What stands before the first of some words, and behind it. -/
def splitAtWord (name : Word) : List Word → Option (List Word × List Word)
  | [] => none
  | word :: words =>
      if word = name then some ([], words)
      else (splitAtWord name words).map (fun sides => (word :: sides.1, sides.2))

def valueOr (absent : Nat) (value : List Word → Option Nat) : List Word → Option Nat
  | [] => some absent
  | word :: words => value (word :: words)

/-- A scale word alone means one of it. -/
def scaled (smaller : List Word → Option Nat) (name : Word) (unit : Nat) (words : List Word) :
    Option Nat :=
  match splitAtWord name words with
  | none => smaller words
  | some (before, after) => do
      let coefficient ← valueOr 1 smaller before
      let rest ← valueOr 0 smaller after
      some (coefficient * unit + rest)

def belowThousand : List Word → Option Nat := scaled belowHundred hundredWord 100

def numeralBelow : List (Word × Nat) → List Word → Option Nat
  | [] => belowThousand
  | (name, unit) :: smaller => scaled (numeralBelow smaller) name unit

def numeralValue (words : List Word) : Option Nat :=
  if words = [zeroWord] then some 0 else numeralBelow scales words

example : numeralValue (["one", "thousand", "million", "five"].map String.toList) =
    some (10 ^ 9 + 5) := by decide +kernel

/-! ### The words of a number below one hundred -/

def wordOf (table : List (Word × Nat)) (value : Nat) : Option Word :=
  (table.find? (fun entry => decide (entry.2 = value))).map Prod.fst

def cardinal (value : Nat) : List Word :=
  if value = 0 then [zeroWord]
  else
    match wordOf (ones ++ teens ++ tens) value with
    | some word => [word]
    | none => (wordOf tens (value / 10 * 10)).toList ++ (wordOf ones (value % 10)).toList

theorem mem_small_of_tens {entry : Word × Nat} (member : entry ∈ tens) :
    entry ∈ ones ++ teens ++ tens :=
  List.mem_append_right _ member

theorem mem_small_of_ones {entry : Word × Nat} (member : entry ∈ ones) :
    entry ∈ ones ++ teens ++ tens :=
  List.mem_append_left _ (List.mem_append_left _ member)

theorem mem_of_wordOf {table : List (Word × Nat)} {value : Nat} {word : Word}
    (found : wordOf table value = some word) : ∃ entry ∈ table, entry.1 = word := by
  obtain ⟨entry, isEntry, same⟩ := Option.map_eq_some_iff.mp found
  exact ⟨entry, List.mem_of_find?_eq_some isEntry, same⟩

theorem mem_cardinalWords_of_small {entry : Word × Nat} (member : entry ∈ ones ++ teens ++ tens) :
    entry.1 ∈ cardinalWords :=
  List.mem_cons_of_mem _ (List.mem_cons_of_mem _
    (List.mem_map_of_mem (List.mem_append_left scales member)))

theorem mem_cardinalWords {value : Nat} {word : Word} (member : word ∈ cardinal value) :
    word ∈ cardinalWords := by
  unfold cardinal at member
  split at member
  · rw [List.mem_singleton.mp member]
    exact List.mem_cons_self
  · split at member
    · next found =>
        rw [List.mem_singleton.mp member]
        obtain ⟨entry, listed, rfl⟩ := mem_of_wordOf found
        exact mem_cardinalWords_of_small listed
    · rcases List.mem_append.mp member with inTens | inOnes
      · obtain ⟨entry, listed, rfl⟩ := mem_of_wordOf (Option.mem_toList.mp inTens)
        exact mem_cardinalWords_of_small (mem_small_of_tens listed)
      · obtain ⟨entry, listed, rfl⟩ := mem_of_wordOf (Option.mem_toList.mp inOnes)
        exact mem_cardinalWords_of_small (mem_small_of_ones listed)

theorem numeralValue_cardinal : ∀ value < 100, numeralValue (cardinal value) = some value := by
  decide +kernel

/-! ### Plain numerals -/

def hundredsPlain (words : List Word) : Bool :=
  match splitAtWord hundredWord words with
  | none => true
  | some (before, _) => !before.isEmpty

/-- Each scale word has a number of its own before it, and one below a thousand unless the scale
word is hundred. -/
def scalesPlain : List (Word × Nat) → List Word → Bool
  | [], words => hundredsPlain words
  | (name, _) :: smaller, words =>
      match splitAtWord name words with
      | none => scalesPlain smaller words
      | some (before, after) =>
          (belowThousand before).isSome && hundredsPlain before && scalesPlain smaller after

theorem splitAtWord_eq_some {name : Word} {words before after : List Word}
    (isSplit : splitAtWord name words = some (before, after)) :
    words = before ++ name :: after ∧ name ∉ before := by
  induction words generalizing before with
  | nil => cases isSplit
  | cons word words ih =>
      unfold splitAtWord at isSplit
      split at isSplit
      · next same =>
          cases isSplit
          rw [same]
          exact ⟨rfl, List.not_mem_nil⟩
      · next different =>
          obtain ⟨⟨front, behind⟩, isLater, sides⟩ := Option.map_eq_some_iff.mp isSplit
          cases sides
          obtain ⟨whole, absent⟩ := ih isLater
          refine ⟨congrArg (List.cons word) whole, ?_⟩
          rw [List.mem_cons, not_or]
          exact ⟨fun same => different same.symm, absent⟩

theorem splitAtWord_of_absent {name : Word} {words : List Word} (absent : name ∉ words) :
    splitAtWord name words = none := by
  induction words with
  | nil => rfl
  | cons word words ih =>
      rw [List.mem_cons, not_or] at absent
      rw [splitAtWord, if_neg (fun same => absent.1 same.symm), ih absent.2]
      rfl

theorem mem_of_lookup {β : Type} {word : Word} {value : β} {table : List (Word × β)}
    (found : table.lookup word = some value) : (word, value) ∈ table := by
  obtain ⟨before, after, rfl, _⟩ := List.lookup_eq_some_iff.mp found
  exact List.mem_append_right before List.mem_cons_self

theorem belowHundred_cases {words : List Word} {value : Nat}
    (isValue : belowHundred words = some value) :
    (∃ word, words = [word] ∧ (word, value) ∈ ones ++ teens ++ tens) ∨
      ∃ ten one upper lower, words = [ten, one] ∧ (ten, upper) ∈ ones ++ teens ++ tens ∧
        (one, lower) ∈ ones ++ teens ++ tens ∧ value = upper + lower := by
  unfold belowHundred at isValue
  split at isValue
  · next word => exact Or.inl ⟨word, rfl, mem_of_lookup isValue⟩
  · next ten one =>
      obtain ⟨upper, isUpper, isLower⟩ := Option.bind_eq_some_iff.mp isValue
      obtain ⟨lower, found, isSum⟩ := Option.bind_eq_some_iff.mp isLower
      exact Or.inr ⟨ten, one, upper, lower, rfl, mem_small_of_tens (mem_of_lookup isUpper),
        mem_small_of_ones (mem_of_lookup found), (Option.some.inj isSum).symm⟩
  · cases isValue

theorem scaled_cases {smaller : List Word → Option Nat} {name : Word} {unit value : Nat}
    {words : List Word} (isValue : scaled smaller name unit words = some value) :
    (splitAtWord name words = none ∧ smaller words = some value) ∨
      ∃ before after coefficient rest, splitAtWord name words = some (before, after) ∧
        valueOr 1 smaller before = some coefficient ∧ valueOr 0 smaller after = some rest ∧
        value = coefficient * unit + rest := by
  unfold scaled at isValue
  split at isValue
  · next absent => exact Or.inl ⟨absent, isValue⟩
  · next before after isSplit =>
      obtain ⟨coefficient, isCoefficient, isSum⟩ := Option.bind_eq_some_iff.mp isValue
      obtain ⟨rest, isRest, same⟩ := Option.bind_eq_some_iff.mp isSum
      exact Or.inr ⟨before, after, coefficient, rest, isSplit, isCoefficient, isRest,
        (Option.some.inj same).symm⟩

end Numbers
