/-
Spelling numbers as English words, three digits at a time.

Two scripts contain the same algorithm with tables of their own.  They differ in
the words, in the test for zero, and in what happens beyond the last scale word.
-/

import DataSelection.Library.Strings
import DataSelection.WittenBell.Corpus
import Mathlib.Algebra.GroupWithZero.Nat
import Mathlib.Data.Fin.VecNotation

namespace Numbers

open Library (find upTo)
open WittenBell (Word isSpace split strip join)

instance neZeroTen : NeZero 10 := ⟨Nat.succ_ne_zero 9⟩

def digit (char : Char) : Option (Fin 10) :=
  if char.isDigit then some (Fin.ofNat 10 (char.toNat - '0'.toNat)) else none

def natural (digits : List Char) : Option Nat :=
  if digits = [] then none
  else if digits.all Char.isDigit then some (Nat.ofDigitChars 10 digits 0)
  else none

/-- `int` of a string: blanks around the number and a sign are allowed. -/
def int (text : List Char) : Option Int :=
  match strip text with
  | '-' :: digits => (natural digits).map (fun value => -(value : Int))
  | '+' :: digits => (natural digits).map (fun value => (value : Int))
  | digits => (natural digits).map (fun value => (value : Int))

def str : Int → List Char
  | .ofNat value => Nat.toDigits 10 value
  | .negSucc value => '-' :: Nat.toDigits 10 (value + 1)

def zfill (text : List Char) (width : Nat) : List Char :=
  match text with
  | '-' :: rest => '-' :: (List.replicate (width - text.length) '0' ++ rest)
  | '+' :: rest => '+' :: (List.replicate (width - text.length) '0' ++ rest)
  | digits => List.replicate (width - text.length) '0' ++ digits

def removeCommas (previous : Char) : List Char → List Char
  | [] => []
  | [char] => [char]
  | char :: next :: rest =>
      if char = ',' && previous.isDigit && next.isDigit then removeCommas char (next :: rest)
      else char :: removeCommas char (next :: rest)

def removeLeadingZeros (num : List Char) : Option (List Char) :=
  let decimal_index := find num ['.']
  let start := find num ['-'] + 1
  if decimal_index > 0 then
    if decimal_index - start > 1 then
      match int ((upTo num decimal_index).drop start.toNat) with
      | none => none
      | some value =>
          let shortened := str value ++ num.drop decimal_index.toNat
          some (if start = 1 then '-' :: shortened else shortened)
    else some num
  else if decimal_index = -1 then
    match int (num.drop start.toNat) with
    | none => none
    | some value => some (if start = 1 then '-' :: str value else str value)
  else some num

/-- The tables of a speller.  `scale` gives the words that are added for the
scale of a group; a speller may also raise there. -/
structure Vocabulary where
  units : Fin 10 → Word
  teens : Fin 10 → Word
  tens : Fin 10 → Word
  hundred : Word
  zero : Word
  negative : Word
  point : Word
  scale : Nat → Option (List Word)
  isZero : List Char → Bool

section Spelling

variable (vocabulary : Vocabulary)

def spellHundreds (h : Fin 10) : List Word :=
  if h.val ≥ 1 then [vocabulary.units h, vocabulary.hundred] else []

def spellTens (t u : Fin 10) : List Word :=
  if t.val > 1 then
    if u.val ≥ 1 then [vocabulary.tens t, vocabulary.units u] else [vocabulary.tens t]
  else if t.val = 1 then
    if u.val ≥ 1 then [vocabulary.teens u] else [vocabulary.tens t]
  else
    if u.val ≥ 1 then [vocabulary.units u] else []

def spellScale (g : Nat) (h t u : Fin 10) : Option (List Word) :=
  if g ≥ 1 ∧ h.val + t.val + u.val > 0 then vocabulary.scale g else some []

def spellGroup (g : Nat) (h t u : Fin 10) : Option (List Word) :=
  (spellScale vocabulary g h t u).map
    (fun scale => spellHundreds vocabulary h ++ spellTens vocabulary t u ++ scale)

/-- The loop over the groups of a padded number; the last group has index 0. -/
def spellGroups : Nat → List Char → Option (List Word)
  | 0, _ => some []
  | g + 1, h :: t :: u :: rest => do
      let h ← digit h
      let t ← digit t
      let u ← digit u
      let here ← spellGroup vocabulary g h t u
      let others ← spellGroups g rest
      some (here ++ others)
  | _ + 1, _ => none

def spellDecimals (decimalStr : List Char) : Option (List Word) :=
  if decimalStr = [] then some []
  else do
    let digits ← decimalStr.mapM digit
    some (vocabulary.point ::
      digits.map (fun digit => if digit = 0 then vocabulary.zero else vocabulary.units digit))

def spellDigits (num : List Char) : Option (List Word) := do
  let decimal_point_index := find num ['.']
  let decimalStr :=
    if decimal_point_index > -1 then num.drop (decimal_point_index + 1).toNat else []
  let whole := if decimal_point_index > -1 then upTo num decimal_point_index else num
  let groups := (whole.length + 2) / 3
  let words ← spellGroups vocabulary groups (zfill whole (groups * 3))
  let decimals ← spellDecimals vocabulary decimalStr
  some (words ++ decimals)

/-- The words of a number without its sign. -/
def spellUnsigned (num : List Char) : Option (List Word) :=
  if vocabulary.isZero num then some [vocabulary.zero] else spellDigits vocabulary num

def spell (num : List Char) : Option (List Char) :=
  match num with
  | [] => none
  | '-' :: rest =>
      (spellUnsigned vocabulary rest).map (fun words => join (vocabulary.negative :: words))
  | digits => (spellUnsigned vocabulary digits).map join

end Spelling

/-! ### The two spellers -/

def thousands : List Word :=
  ["", "thousand", "million", "billion", "trillion", "quadrillion", "quintillion",
    "sextillion", "septillion", "octillion", "nonillion", "decillion", "undecillion",
    "duodecillion", "tredecillion", "quattuordecillion", "quindecillion", "sexdecillion",
    "septendecillion", "octodecillion", "novemdecillion", "vigintillion"].map String.toList

/-- The prefix test `0*\.?0+`. -/
def startsWithZero : List Char → Bool
  | '0' :: _ => true
  | '.' :: '0' :: _ => true
  | _ => false

/-- The tables of `numToText`; an index beyond the scale words raises. -/
def english : Vocabulary :=
  { units := fun index => (![ "zero", "one", "two", "three", "four", "five", "six", "seven",
      "eight", "nine"] index).toList
    teens := fun index => (!["", "eleven", "twelve", "thirteen", "fourteen", "fifteen", "sixteen",
      "seventeen", "eighteen", "nineteen"] index).toList
    tens := fun index => (!["", "ten", "twenty", "thirty", "forty", "fifty", "sixty", "seventy",
      "eighty", "ninety"] index).toList
    hundred := "hundred".toList
    zero := "zero".toList
    negative := "negative".toList
    point := "point".toList
    scale := fun g => (thousands[g]?).map (fun word => [word])
    isZero := startsWithZero }

def numToText (num : List Char) : Option (List Char) :=
  match removeLeadingZeros (removeCommas ' ' num) with
  | none => none
  | some shortened => spell english shortened

def capitalThousands : List Word :=
  ["", "THOUSAND", "MILLION", "BILLION", "TRILLION", "QUADRILLION", "QUINTILLION",
    "SEXTILLION", "SEPTILLION", "OCTILLION", "NONILLION", "DECILLION", "UNDECILLION",
    "DUODECILLION", "TREDECILLION", "QUATTUORDECILLION", "SEXDECILLION", "SEPTENDECILLION",
    "OCTODECILLION", "NOVEMDECILLION", "VIGINTILLION "].map String.toList

/-- The tables of `numToWordString`; an index beyond the scale words is caught
and adds nothing. -/
def capital : Vocabulary :=
  { units := fun index => (!["", "ONE", "TWO", "THREE", "FOUR", "FIVE", "SIX", "SEVEN",
      "EIGHT", "NINE "] index).toList
    teens := fun index => (!["", "ELEVEN", "TWELVE", "THIRTEEN", "FOURTEEN", "FIFTEEN", "SIXTEEN",
      "SEVENTEEN", "EIGHTEEN", "NINETEEN"] index).toList
    tens := fun index => (!["", "TEN", "TWENTY", "THIRTY", "FORTY", "FIFTY", "SIXTY", "SEVENTY",
      "EIGHTY", "NINETY"] index).toList
    hundred := "HUNDRED".toList
    zero := "ZERO".toList
    negative := "NEGATIVE".toList
    point := "POINT".toList
    scale := fun g => some ((capitalThousands[g]?).toList)
    isZero := fun num => num = "0".toList || num = "0.0".toList }

def numToWordString (numStr : List Char) : Option (List Char) :=
  match removeLeadingZeros numStr with
  | none => none
  | some shortened => spell capital shortened

example : numToText "1,045".toList = some "one thousand forty five".toList := by
  decide +kernel

end Numbers
