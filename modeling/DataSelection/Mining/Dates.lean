/-
Replacing dates by spoken words.

A date is a month, a day and a year with the same separator between them.  A dash is found
but then not taken for the separator, and the halves of a year of four digits are written
one right behind the other.
-/

import DataSelection.Numbers.English
import DataSelection.Numbers.WholeNumbers
import Mathlib.Tactic.IntervalCases

namespace Mining

open Library
open WittenBell (Word isSpace split join CleanWord cleanWord_of_mem_split join_append join_singleton)
open Numbers (int numToWordString capital digit cardinal AllDigits int_digits isDigit_bounds digit_eq)

def months : List Word :=
  ["JANUARY", "FEBRUARY", "MARCH", "APRIL", "MAY", "JUNE", "JULY", "AUGUST", "SEPTEMBER",
    "OCTOBER", "NOVEMBER", "DECEMBER"].map String.toList

def days : List Word :=
  ["FIRST", "SECOND", "THIRD", "FOURTH", "FIFTH", "SIXTH", "SEVENTH", "EIGHTH", "NINETH",
    "TENTH", "ELEVENTH", "TWELFTH", "THIRTEENTH", "FOURTEENTH", "FIFTEENTH", "SIXTEENTH",
    "SEVENTEENTH", "EIGHTEENTH", "NINETEENTH", "TWENTIETH", "TWENTY FIRST", "TWENTY SECOND",
    "TWENTY THIRD", "TWENTY FOURTH", "TWENTY FIFTH", "TWENTY SIXTH", "TWENTY SEVENTH",
    "TWENTY EIGTH", "TWENTY NINTH", "THIRTIETH", "THIRTY FIRST"].map String.toList

/-- The index of the first separator, and the character that is taken for it. -/
def firstSeparator (date : List Char) : Int × Char :=
  if find date ['-'] < 0 then
    if find date ['/'] < 0 then (find date ['\\'], '\\')
    else (find date ['/'], '/')
  else (find date ['-'], '/')

/-- The text that is added for the year. -/
def replaceYear (number : List Char) : Option (List Char) :=
  match number with
  | [tens, units] =>
      if tens = '0' then
        if units = '0' then some "TWO THOUSAND".toList
        else (digit units).map (fun value => 'O' :: ' ' :: capital.units value)
      else numToWordString number
  | _ => do
      let first ← numToWordString (number.take 2)
      let second ← numToWordString (number.drop 2)
      some (first ++ second)

def replaceDate (date : List Char) : Option (List Char) := do
  let (index, separator) := firstSeparator date
  let month ← int (upTo date index)
  if month < 1 then some []
  else if month > 12 then some []
  else
    let rindex := rfind date separator
    if rindex ≤ index then some []
    else
      let day ← int ((upTo date rindex).drop (index + 1).toNat)
      if day < 1 then some []
      else if day > 31 then some []
      else
        let year ← replaceYear (date.drop (rindex + 1).toNat)
        some (months.getD (month - 1).toNat [] ++ ' ' ::
          (days.getD (day - 1).toNat [] ++ ' ' :: year))

/-! ### Matches -/

inductive Separator
  | dash
  | slash
  | backslash
  deriving DecidableEq

def Separator.char : Separator → Char
  | .dash => '-'
  | .slash => '/'
  | .backslash => '\\'

/-- A match of `[0-9]{1,2}(-|/|\\)[0-9]{1,2}\1[0-9]{2}([0-9]{2})?`. -/
structure DateMatch where
  month : List Char
  day : List Char
  year : List Char
  separator : Separator
  monthLength : month.length = 1 ∨ month.length = 2
  dayLength : day.length = 1 ∨ day.length = 2
  yearLength : year.length = 2 ∨ year.length = 4
  monthDigits : AllDigits month
  dayDigits : AllDigits day
  yearDigits : AllDigits year

namespace DateMatch

variable (date : DateMatch)

def text : List Char :=
  date.month ++ date.separator.char :: (date.day ++ date.separator.char :: date.year)

def monthValue : Nat := Nat.ofDigitChars 10 date.month 0

def dayValue : Nat := Nat.ofDigitChars 10 date.day 0

structure InRange : Prop where
  monthFrom : 1 ≤ date.monthValue
  monthTo : date.monthValue ≤ 12
  dayFrom : 1 ≤ date.dayValue
  dayTo : date.dayValue ≤ 31

end DateMatch

/-! ### Spoken dates -/

def monthNames : List Word :=
  ["JANUARY", "FEBRUARY", "MARCH", "APRIL", "MAY", "JUNE", "JULY", "AUGUST", "SEPTEMBER",
    "OCTOBER", "NOVEMBER", "DECEMBER"].map String.toList

def ordinals : List (List Word) :=
  [["FIRST"], ["SECOND"], ["THIRD"], ["FOURTH"], ["FIFTH"], ["SIXTH"], ["SEVENTH"], ["EIGHTH"],
    ["NINTH"], ["TENTH"], ["ELEVENTH"], ["TWELFTH"], ["THIRTEENTH"], ["FOURTEENTH"],
    ["FIFTEENTH"], ["SIXTEENTH"], ["SEVENTEENTH"], ["EIGHTEENTH"], ["NINETEENTH"],
    ["TWENTIETH"], ["TWENTY", "FIRST"], ["TWENTY", "SECOND"], ["TWENTY", "THIRD"],
    ["TWENTY", "FOURTH"], ["TWENTY", "FIFTH"], ["TWENTY", "SIXTH"], ["TWENTY", "SEVENTH"],
    ["TWENTY", "EIGHTH"], ["TWENTY", "NINTH"], ["THIRTIETH"],
    ["THIRTY", "FIRST"]].map (fun words => words.map String.toList)

def number (value : Nat) : List Word := (cardinal value).map (fun word => word.map Char.toUpper)

/-- A year of this century or of the last one. -/
def shortYear (value : Nat) : List Word :=
  if value = 0 then ["TWO".toList, "THOUSAND".toList]
  else if value < 10 then ['O'] :: number value
  else number value

/-- A year is spoken in two halves, unless the second one is zero or has a single digit. -/
def longYear (century rest : Nat) : List Word :=
  if century = 0 then number rest
  else if century % 10 = 0 ∧ rest < 10 then
    number (century / 10) ++ "THOUSAND".toList :: (if rest = 0 then [] else number rest)
  else if rest = 0 then number century ++ ["HUNDRED".toList]
  else if rest < 10 then number century ++ ['O'] :: number rest
  else number century ++ number rest

def yearWords (year : List Char) : List Word :=
  if year.length = 2 then shortYear (Nat.ofDigitChars 10 year 0)
  else longYear (Nat.ofDigitChars 10 (year.take 2) 0) (Nat.ofDigitChars 10 (year.drop 2) 0)

/-- The spoken words of a date, which no separator has a part in. -/
def DateMatch.words (date : DateMatch) : List Word :=
  monthNames.getD (date.monthValue - 1) [] ::
    (ordinals.getD (date.dayValue - 1) [] ++ yearWords date.year)

/-- The phrase is not empty and consists of words with one blank between any two. -/
structure Spoken (date : DateMatch) : Prop where
  returned : replaceDate date.text = some (join date.words)
  filled : join date.words ≠ []
  clean : ∀ word ∈ date.words, CleanWord word

/-- The word for nine carries a blank, and a nineteen has a word of its own. -/
def EndsInNine (tens units : Char) : Prop := units = '9' ∧ tens ≠ '1'

instance (tens units : Char) : Decidable (EndsInNine tens units) :=
  inferInstanceAs (Decidable (units = '9' ∧ tens ≠ '1'))

/-- The years whose words come out with one blank between any two. -/
def YearJoins (year : List Char) : Prop :=
  match year with
  | [tens, units] => ¬ EndsInNine tens units
  | [thousands, hundreds, tens, units] =>
      EndsInNine thousands hundreds ∧ tens ≠ '0' ∧ ¬ EndsInNine tens units
  | _ => False

/-! ### Years -/

def digitChars : List Char := "0123456789".toList

theorem mem_digitChars {char : Char} (isDigit : char.isDigit = true) : char ∈ digitChars := by
  rcases isDigit_bounds isDigit with ⟨lower, upper⟩
  rw [← Char.ofNat_toNat char]
  interval_cases char.toNat <;> decide

def trail (tens units : Char) : List Char := if EndsInNine tens units then [' '] else []

theorem all_digitChars {holds : Char → Prop} [DecidablePred holds]
    (checked : digitChars.all (fun char => decide (holds char)) = true) {char : Char}
    (isDigit : char ∈ digitChars) : holds char :=
  of_decide_eq_true (List.all_eq_true.mp checked char isDigit)

def pairWords (tens units : Char) : List Word := number (Nat.ofDigitChars 10 [tens, units] 0)

theorem numToWordString_twoDigits {tens units : Char} (tensDigit : tens ∈ digitChars)
    (unitsDigit : units ∈ digitChars) :
    numToWordString [tens, units] = some (join (pairWords tens units) ++ trail tens units) ∧
      pairWords tens units ≠ [] := by
  have checked : digitChars.all (fun tens => digitChars.all (fun units =>
      decide (numToWordString [tens, units] =
          some (join (pairWords tens units) ++ trail tens units) ∧
        pairWords tens units ≠ []))) = true := by
    decide +kernel
  exact all_digitChars (List.all_eq_true.mp checked tens tensDigit) unitsDigit

theorem replaceYear_twoDigits {tens units : Char} (tensDigit : tens ∈ digitChars)
    (unitsDigit : units ∈ digitChars) :
    replaceYear [tens, units] = some (join (yearWords [tens, units]) ++ trail tens units) ∧
      yearWords [tens, units] ≠ [] := by
  have checked : digitChars.all (fun tens => digitChars.all (fun units =>
      decide (replaceYear [tens, units] =
          some (join (yearWords [tens, units]) ++ trail tens units) ∧
        yearWords [tens, units] ≠ []))) = true := by
    decide +kernel
  exact all_digitChars (List.all_eq_true.mp checked tens tensDigit) unitsDigit

theorem cleanWord_of_all {word : Word} (filled : word ≠ [])
    (noSpace : word.all (fun char => !isSpace char) = true) : CleanWord word := by
  refine ⟨filled, ?_⟩
  intro char member
  simpa using List.all_eq_true.mp noSpace char member

theorem clean_number (value : Nat) : ∀ word ∈ number value, CleanWord word := by
  have checked : Numbers.cardinalWords.all (fun word => decide (word.map Char.toUpper ≠ []) &&
      (word.map Char.toUpper).all (fun char => !isSpace char)) = true := by
    decide +kernel
  intro word member
  obtain ⟨lower, inCardinal, rfl⟩ := List.mem_map.mp member
  have both := Bool.and_eq_true_iff.mp
    (List.all_eq_true.mp checked lower (Numbers.mem_cardinalWords inCardinal))
  exact cleanWord_of_all (of_decide_eq_true both.1) both.2

theorem clean_yearWords (year : List Char) : ∀ word ∈ yearWords year, CleanWord word := by
  have two : CleanWord "TWO".toList := cleanWord_of_all (by decide) (by decide)
  have thousand : CleanWord "THOUSAND".toList := cleanWord_of_all (by decide) (by decide)
  have hundred : CleanWord "HUNDRED".toList := cleanWord_of_all (by decide) (by decide)
  have zero : CleanWord ['O'] := cleanWord_of_all (by decide) (by decide)
  unfold yearWords
  split
  · unfold shortYear
    split
    · exact List.forall_mem_cons.mpr ⟨two, List.forall_mem_singleton.mpr thousand⟩
    · split
      · exact List.forall_mem_cons.mpr ⟨zero, clean_number _⟩
      · exact clean_number _
  · unfold longYear
    split
    · exact clean_number _
    · split
      · refine List.forall_mem_append.mpr ⟨clean_number _, List.forall_mem_cons.mpr ⟨thousand, ?_⟩⟩
        split
        · exact fun word member => absurd member List.not_mem_nil
        · exact clean_number _
      · split
        · exact List.forall_mem_append.mpr ⟨clean_number _, List.forall_mem_singleton.mpr hundred⟩
        · split
          · exact List.forall_mem_append.mpr
              ⟨clean_number _, List.forall_mem_cons.mpr ⟨zero, clean_number _⟩⟩
          · exact List.forall_mem_append.mpr ⟨clean_number _, clean_number _⟩

theorem join_head {words : List Word} (filled : words ≠ [])
    (clean : ∀ word ∈ words, CleanWord word) :
    ∃ char rest, join words = char :: rest ∧ isSpace char = false := by
  rcases List.exists_cons_of_ne_nil filled with ⟨word, others, rfl⟩
  have cleanWord := clean word List.mem_cons_self
  rcases List.exists_cons_of_ne_nil cleanWord.nonempty with ⟨char, chars, rfl⟩
  have notSpace := cleanWord.clean char List.mem_cons_self
  cases others with
  | nil => exact ⟨char, chars, join_singleton _, notSpace⟩
  | cons second later =>
      have joined := join_append (List.cons_ne_nil (char :: chars) []) (List.cons_ne_nil second later)
      rw [List.singleton_append, join_singleton] at joined
      exact ⟨char, _, joined, notSpace⟩

theorem append_trail_eq_iff (text : List Char) (tens units : Char) :
    text ++ trail tens units = text ↔ ¬ EndsInNine tens units := by
  unfold trail
  split
  · next nine => simp [nine]
  · next other => simp [other]

structure YearText (year text : List Char) : Prop where
  returned : replaceYear year = some text
  filled : yearWords year ≠ []
  joins : text = join (yearWords year) ↔ YearJoins year

theorem yearText_two {tens units : Char} (tensDigit : tens ∈ digitChars)
    (unitsDigit : units ∈ digitChars) :
    YearText [tens, units] (join (yearWords [tens, units]) ++ trail tens units) := by
  rcases replaceYear_twoDigits tensDigit unitsDigit with ⟨returned, filled⟩
  exact ⟨returned, filled, append_trail_eq_iff _ tens units⟩

theorem replaceYear_fourDigits {thousands hundreds tens units : Char}
    (thousandsDigit : thousands ∈ digitChars) (hundredsDigit : hundreds ∈ digitChars)
    (tensDigit : tens ∈ digitChars) (unitsDigit : units ∈ digitChars) :
    replaceYear [thousands, hundreds, tens, units] =
      some (join (pairWords thousands hundreds) ++ trail thousands hundreds ++
        (join (pairWords tens units) ++ trail tens units)) := by
  change ((numToWordString [thousands, hundreds]).bind fun first =>
    (numToWordString [tens, units]).bind fun second => some (first ++ second)) = _
  rw [(numToWordString_twoDigits thousandsDigit hundredsDigit).1,
    (numToWordString_twoDigits tensDigit unitsDigit).1]
  rfl

def singleWords (units : Char) : List Word :=
  if units = '0' then ["HUNDRED".toList] else ['O'] :: pairWords '0' units

theorem yearWords_single {thousands hundreds units : Char} (thousandsDigit : thousands ∈ digitChars)
    (hundredsDigit : hundreds ∈ digitChars) (unitsDigit : units ∈ digitChars)
    (filled : hundreds ≠ '0') :
    yearWords [thousands, hundreds, '0', units] =
      pairWords thousands hundreds ++ singleWords units := by
  have century : Nat.ofDigitChars 10 [thousands, hundreds] 0 % 10 ≠ 0 := by
    have checked : digitChars.all (fun thousands => digitChars.all (fun hundreds =>
        decide (hundreds ≠ '0' → Nat.ofDigitChars 10 [thousands, hundreds] 0 % 10 ≠ 0))) = true := by
      decide +kernel
    exact all_digitChars (List.all_eq_true.mp checked thousands thousandsDigit) hundredsDigit filled
  have rest : Nat.ofDigitChars 10 ['0', units] 0 < 10 ∧
      (Nat.ofDigitChars 10 ['0', units] 0 = 0 ↔ units = '0') :=
    @all_digitChars (fun units => Nat.ofDigitChars 10 ['0', units] 0 < 10 ∧
      (Nat.ofDigitChars 10 ['0', units] 0 = 0 ↔ units = '0')) _ (by decide +kernel) _ unitsDigit
  change longYear (Nat.ofDigitChars 10 [thousands, hundreds] 0)
    (Nat.ofDigitChars 10 ['0', units] 0) = _
  rw [longYear, if_neg (by omega), if_neg (fun both => century both.1), singleWords]
  by_cases isZero : units = '0'
  · rw [if_pos (rest.2.mpr isZero), if_pos isZero]
    rfl
  · rw [if_neg (fun zero => isZero (rest.2.mp zero)), if_pos rest.1, if_neg isZero]
    rfl

/-- The years with a first half of zero, or with a zero in the third place, are not spoken in
their halves. -/
theorem notHalves {thousands hundreds tens units : Char}
    (thousandsDigit : thousands ∈ digitChars) (hundredsDigit : hundreds ∈ digitChars)
    (tensDigit : tens ∈ digitChars) (unitsDigit : units ∈ digitChars)
    (special : thousands = '0' ∧ hundreds = '0' ∨ tens = '0') :
    join (pairWords thousands hundreds) ++ trail thousands hundreds ++
        (join (pairWords tens units) ++ trail tens units) ≠
      join (yearWords [thousands, hundreds, tens, units]) ∧
      yearWords [thousands, hundreds, tens, units] ≠ [] := by
  rcases special with ⟨rfl, rfl⟩ | rfl
  · have checked : digitChars.all (fun tens => digitChars.all (fun units =>
        decide (join (pairWords '0' '0') ++ trail '0' '0' ++
            (join (pairWords tens units) ++ trail tens units) ≠
          join (yearWords ['0', '0', tens, units]) ∧
          yearWords ['0', '0', tens, units] ≠ []))) = true := by
      decide +kernel
    exact all_digitChars (List.all_eq_true.mp checked tens tensDigit) unitsDigit
  · by_cases round : hundreds = '0'
    · rw [round]
      have checked : digitChars.all (fun thousands => digitChars.all (fun units =>
          decide (join (pairWords thousands '0') ++ trail thousands '0' ++
              (join (pairWords '0' units) ++ trail '0' units) ≠
            join (yearWords [thousands, '0', '0', units]) ∧
            yearWords [thousands, '0', '0', units] ≠ []))) = true := by
        decide +kernel
      exact all_digitChars (List.all_eq_true.mp checked thousands thousandsDigit) unitsDigit
    · have filled := (numToWordString_twoDigits thousandsDigit hundredsDigit).2
      obtain ⟨some, different, notSpace⟩ : singleWords units ≠ [] ∧
          join (pairWords '0' units) ++ trail '0' units ≠ join (singleWords units) ∧
          (join (pairWords '0' units) ++ trail '0' units).head? ≠ some ' ' :=
        @all_digitChars (fun units => singleWords units ≠ [] ∧
          join (pairWords '0' units) ++ trail '0' units ≠ join (singleWords units) ∧
          (join (pairWords '0' units) ++ trail '0' units).head? ≠ some ' ') _
          (by decide +kernel) _ unitsDigit
      rw [yearWords_single thousandsDigit hundredsDigit unitsDigit round]
      refine ⟨?_, List.append_ne_nil_of_left_ne_nil filled _⟩
      rw [join_append filled some, List.append_assoc, ne_eq, List.append_cancel_left_eq]
      intro same
      by_cases nine : EndsInNine thousands hundreds
      · rw [trail, if_pos nine, List.singleton_append, List.cons_inj_right] at same
        exact different same
      · rw [trail, if_neg nine, List.nil_append] at same
        rw [same] at notSpace
        exact notSpace rfl

theorem yearWords_halves {thousands hundreds tens units : Char}
    (thousandsDigit : thousands ∈ digitChars) (hundredsDigit : hundreds ∈ digitChars)
    (tensDigit : tens ∈ digitChars) (unitsDigit : units ∈ digitChars)
    (first : ¬ (thousands = '0' ∧ hundreds = '0')) (second : tens ≠ '0') :
    yearWords [thousands, hundreds, tens, units] =
      pairWords thousands hundreds ++ pairWords tens units := by
  have century : Nat.ofDigitChars 10 [thousands, hundreds] 0 ≠ 0 := by
    have checked : digitChars.all (fun thousands => digitChars.all (fun hundreds =>
        decide (¬ (thousands = '0' ∧ hundreds = '0') →
          Nat.ofDigitChars 10 [thousands, hundreds] 0 ≠ 0))) = true := by
      decide +kernel
    exact all_digitChars (List.all_eq_true.mp checked thousands thousandsDigit) hundredsDigit first
  have rest : 10 ≤ Nat.ofDigitChars 10 [tens, units] 0 := by
    have checked : digitChars.all (fun tens => digitChars.all (fun units =>
        decide (tens ≠ '0' → 10 ≤ Nat.ofDigitChars 10 [tens, units] 0))) = true := by
      decide +kernel
    exact all_digitChars (List.all_eq_true.mp checked tens tensDigit) unitsDigit second
  change longYear (Nat.ofDigitChars 10 [thousands, hundreds] 0)
    (Nat.ofDigitChars 10 [tens, units] 0) = _
  rw [longYear, if_neg century, if_neg (by omega), if_neg (by omega), if_neg (by omega)]
  rfl

theorem yearText_four {thousands hundreds tens units : Char}
    (thousandsDigit : thousands ∈ digitChars) (hundredsDigit : hundreds ∈ digitChars)
    (tensDigit : tens ∈ digitChars) (unitsDigit : units ∈ digitChars) :
    YearText [thousands, hundreds, tens, units]
      (join (pairWords thousands hundreds) ++ trail thousands hundreds ++
        (join (pairWords tens units) ++ trail tens units)) := by
  have filledFirst := (numToWordString_twoDigits thousandsDigit hundredsDigit).2
  have filledSecond := (numToWordString_twoDigits tensDigit unitsDigit).2
  have returned := replaceYear_fourDigits thousandsDigit hundredsDigit tensDigit unitsDigit
  by_cases special : thousands = '0' ∧ hundreds = '0' ∨ tens = '0'
  · obtain ⟨different, filled⟩ :=
      notHalves thousandsDigit hundredsDigit tensDigit unitsDigit special
    refine ⟨returned, filled, iff_of_false different ?_⟩
    intro ⟨nine, tensFilled, _⟩
    rcases special with ⟨_, isZero⟩ | isZero
    · rw [isZero] at nine
      exact absurd nine.1 (by decide)
    · exact tensFilled isZero
  · rw [not_or] at special
    have halves :=
      yearWords_halves thousandsDigit hundredsDigit tensDigit unitsDigit special.1 special.2
    refine ⟨returned, halves ▸ List.append_ne_nil_of_left_ne_nil filledFirst _, ?_⟩
    rw [halves, join_append filledFirst filledSecond, List.append_assoc, List.append_cancel_left_eq]
    change _ ↔ EndsInNine thousands hundreds ∧ tens ≠ '0' ∧ ¬ EndsInNine tens units
    rw [← append_trail_eq_iff (join (pairWords tens units)) tens units]
    by_cases nine : EndsInNine thousands hundreds
    · rw [trail, if_pos nine, List.singleton_append, List.cons_inj_right]
      exact ⟨fun same => ⟨nine, special.2, same⟩, fun both => both.2.2⟩
    · rw [trail, if_neg nine, List.nil_append]
      refine iff_of_false ?_ (fun both => nine both.1)
      intro same
      rcases join_head filledSecond (clean_number _) with ⟨char, rest, joined, notSpace⟩
      rw [joined] at same
      rw [(List.cons.inj same).1] at notSpace
      cases notSpace

theorem yearText_exists (date : DateMatch) : ∃ text, YearText date.year text := by
  have digits : ∀ char ∈ date.year, char ∈ digitChars :=
    fun char member => mem_digitChars (date.yearDigits char member)
  rcases date.yearLength with short | long
  · rcases List.length_eq_two.mp short with ⟨tens, units, year⟩
    rw [year] at digits ⊢
    exact ⟨_, yearText_two (digits tens (by simp)) (digits units (by simp))⟩
  · obtain ⟨thousands, hundreds, tens, units, year⟩ : ∃ thousands hundreds tens units,
        date.year = [thousands, hundreds, tens, units] := by
      match date.year, long with
      | [thousands, hundreds, tens, units], _ => exact ⟨thousands, hundreds, tens, units, rfl⟩
    rw [year] at digits ⊢
    exact ⟨_, yearText_four (digits thousands (by simp)) (digits hundreds (by simp))
      (digits tens (by simp)) (digits units (by simp))⟩

/-! ### Months and days -/

theorem months_eq : months = monthNames := rfl

theorem monthNames_clean : ∀ index < 12, CleanWord (monthNames.getD index []) := by
  have checked : ∀ index < 12, monthNames.getD index [] ≠ [] ∧
      (monthNames.getD index []).all (fun char => !isSpace char) = true := by
    decide +kernel
  intro index bound
  exact cleanWord_of_all (checked index bound).1 (checked index bound).2

theorem ordinals_clean : ∀ index < 31, ordinals.getD index [] ≠ [] ∧
    ∀ word ∈ ordinals.getD index [], CleanWord word := by
  have checked : ∀ index < 31, ordinals.getD index [] ≠ [] ∧
      (ordinals.getD index []).all (fun word =>
        decide (word ≠ []) && word.all (fun char => !isSpace char)) = true := by
    decide +kernel
  intro index bound
  refine ⟨(checked index bound).1, ?_⟩
  intro word member
  have both := Bool.and_eq_true_iff.mp (List.all_eq_true.mp (checked index bound).2 word member)
  exact cleanWord_of_all (of_decide_eq_true both.1) both.2

theorem append_ne_append {first second : List Char}
    (different : first.take (min first.length second.length) ≠
      second.take (min first.length second.length)) (rest others : List Char) :
    first ++ rest ≠ second ++ others := by
  intro same
  have starts := congrArg (List.take (min first.length second.length)) same
  rw [List.take_append_of_le_length (Nat.min_le_left _ _),
    List.take_append_of_le_length (Nat.min_le_right _ _)] at starts
  exact different starts

/-- Two of the ordinals are spelled wrong, and no text behind them makes up for it. -/
theorem days_append_iff {index : Nat} (bound : index < 31) {year words : List Char} :
    days.getD index [] ++ ' ' :: year = join (ordinals.getD index []) ++ ' ' :: words ↔
      (index ≠ 8 ∧ index ≠ 27) ∧ year = words := by
  have checked : ∀ index < 31,
      (index ≠ 8 ∧ index ≠ 27 → days.getD index [] = join (ordinals.getD index [])) ∧
      (¬ (index ≠ 8 ∧ index ≠ 27) →
        (days.getD index []).take
            (min (days.getD index []).length (join (ordinals.getD index [])).length) ≠
          (join (ordinals.getD index [])).take
            (min (days.getD index []).length (join (ordinals.getD index [])).length)) := by
    decide +kernel
  obtain ⟨right, wrong⟩ := checked index bound
  by_cases spelled : index ≠ 8 ∧ index ≠ 27
  · rw [right spelled, List.append_cancel_left_eq, List.cons_inj_right]
    exact (and_iff_right spelled).symm
  · exact iff_of_false (append_ne_append (wrong spelled) _ _) (fun both => spelled both.1)

namespace DateMatch

variable {date : DateMatch}

theorem InRange.clean_words (inRange : date.InRange) : ∀ word ∈ date.words, CleanWord word := by
  have from1 := inRange.monthFrom
  have to12 := inRange.monthTo
  have dayFrom := inRange.dayFrom
  have dayTo := inRange.dayTo
  intro word member
  rcases List.mem_cons.mp member with rfl | later
  · exact monthNames_clean _ (by omega)
  · rcases List.mem_append.mp later with inDay | inYear
    · exact (ordinals_clean (date.dayValue - 1) (by omega)).2 word inDay
    · exact clean_yearWords date.year word inYear

theorem InRange.join_words (inRange : date.InRange) (filled : yearWords date.year ≠ []) :
    join date.words = monthNames.getD (date.monthValue - 1) [] ++ ' ' ::
      (join (ordinals.getD (date.dayValue - 1) []) ++ ' ' :: join (yearWords date.year)) := by
  have from1 := inRange.dayFrom
  have to31 := inRange.dayTo
  have filledDay := (ordinals_clean (date.dayValue - 1) (by omega)).1
  have behind : ordinals.getD (date.dayValue - 1) [] ++ yearWords date.year ≠ [] :=
    List.append_ne_nil_of_left_ne_nil filledDay _
  rw [words, ← List.singleton_append, join_append (List.cons_ne_nil _ []) behind,
    join_append filledDay filled, join_singleton]

/-! ### Separators -/

theorem separator_notDigit (separator : Separator) : separator.char.isDigit = false := by
  cases separator with
  | dash => rfl
  | slash => rfl
  | backslash => rfl

theorem notMem_text {char : Char} (notDigit : char.isDigit = false)
    (different : char ≠ date.separator.char) : char ∉ date.text := by
  have inMonth := date.monthDigits.absent notDigit
  have inDay := date.dayDigits.absent notDigit
  have inYear := date.yearDigits.absent notDigit
  simp [text, inMonth, inDay, inYear, different]

theorem find_separator : find date.text [date.separator.char] = date.month.length :=
  find_append (date.monthDigits.absent (separator_notDigit date.separator))

theorem rfind_separator :
    rfind date.text date.separator.char = date.month.length + (1 + date.day.length : Nat) := by
  have shape : date.text = (date.month ++ date.separator.char :: date.day) ++
      date.separator.char :: date.year := by
    rw [text, List.append_assoc, List.cons_append]
  rw [shape, rfind_append _ (date.yearDigits.absent (separator_notDigit date.separator))]
  simp only [List.length_append, List.length_cons]
  omega

/-- A dash is found, but a slash is looked for behind it. -/
theorem firstSeparator_text : firstSeparator date.text =
    ((date.month.length : Int),
      match date.separator with
      | .dash => '/'
      | .slash => '/'
      | .backslash => '\\') := by
  have nonneg : ¬ (date.month.length : Int) < 0 := by omega
  have found : find date.text [date.separator.char] = date.month.length := find_separator
  cases isSeparator : date.separator with
  | dash =>
      rw [isSeparator] at found
      change find date.text ['-'] = _ at found
      rw [firstSeparator, found, if_neg nonneg]
  | slash =>
      have noDash : find date.text ['-'] = -1 :=
        find_of_absent (notMem_text rfl (by rw [isSeparator]; decide))
      rw [isSeparator] at found
      change find date.text ['/'] = _ at found
      rw [firstSeparator, noDash, if_pos (by decide), found, if_neg nonneg]
  | backslash =>
      have noDash : find date.text ['-'] = -1 :=
        find_of_absent (notMem_text rfl (by rw [isSeparator]; decide))
      have noSlash : find date.text ['/'] = -1 :=
        find_of_absent (notMem_text rfl (by rw [isSeparator]; decide))
      rw [isSeparator] at found
      change find date.text ['\\'] = _ at found
      rw [firstSeparator, noDash, if_pos (by decide), noSlash, if_pos (by decide), found]

theorem int_month : int (upTo date.text date.month.length) = some (date.monthValue : Int) := by
  have filled : date.month ≠ [] := by
    intro empty
    have long := date.monthLength
    rw [empty] at long
    simp at long
  rw [text, upTo_append, int_digits date.monthDigits filled]
  rfl

theorem text_eq : date.text = (date.month ++ date.separator.char :: date.day) ++
    date.separator.char :: date.year := by
  rw [text, List.append_assoc, List.cons_append]

theorem length_front : (date.month.length : Int) + (1 + date.day.length : Nat) =
    (date.month ++ date.separator.char :: date.day).length := by
  simp only [List.length_append, List.length_cons]
  omega

theorem drop_behind (before : List Char) (char : Char) (rest : List Char) :
    (before ++ char :: rest).drop ((before.length : Int) + 1).toNat = rest := by
  have behind : ((before.length : Int) + 1).toNat = (before ++ [char]).length := by
    rw [List.length_append, List.length_singleton]
    omega
  have regroup : before ++ char :: rest = before ++ [char] ++ rest := by
    rw [List.append_assoc, List.singleton_append]
  rw [behind, regroup, List.drop_left]

theorem int_day :
    int ((upTo date.text (date.month.length + (1 + date.day.length : Nat))).drop
      ((date.month.length : Int) + 1).toNat) = some (date.dayValue : Int) := by
  have filled : date.day ≠ [] := by
    intro empty
    have long := date.dayLength
    rw [empty] at long
    simp at long
  rw [length_front, text_eq, upTo_append, drop_behind, int_digits date.dayDigits filled]
  rfl

theorem drop_year :
    date.text.drop ((date.month.length : Int) + (1 + date.day.length : Nat) + 1).toNat =
      date.year := by
  rw [length_front, text_eq, drop_behind]

theorem replaceDate_dash (inRange : date.InRange) (isDash : date.separator = .dash) :
    replaceDate date.text = some [] := by
  have absent : rfind date.text '/' = -1 :=
    rfind_of_absent (notMem_text rfl (by rw [isDash]; decide))
  have from1 : ¬ (date.monthValue : Int) < 1 := by have := inRange.monthFrom; omega
  have to12 : ¬ (date.monthValue : Int) > 12 := by have := inRange.monthTo; omega
  have before : (-1 : Int) ≤ date.month.length := by omega
  rw [replaceDate, firstSeparator_text, isDash]
  simp only [int_month, Option.bind_eq_bind, Option.bind_some, if_neg from1, if_neg to12, absent,
    if_pos before]

theorem replaceDate_other (inRange : date.InRange) (notDash : date.separator ≠ .dash) :
    replaceDate date.text = (replaceYear date.year).map (fun year =>
      months.getD (date.monthValue - 1) [] ++ ' ' ::
        (days.getD (date.dayValue - 1) [] ++ ' ' :: year)) := by
  have separates : firstSeparator date.text = ((date.month.length : Int), date.separator.char) := by
    rw [firstSeparator_text]
    cases isSeparator : date.separator with
    | dash => exact absurd isSeparator notDash
    | slash => rfl
    | backslash => rfl
  have monthFrom : ¬ (date.monthValue : Int) < 1 := by have := inRange.monthFrom; omega
  have monthTo : ¬ (date.monthValue : Int) > 12 := by have := inRange.monthTo; omega
  have dayFrom : ¬ (date.dayValue : Int) < 1 := by have := inRange.dayFrom; omega
  have dayTo : ¬ (date.dayValue : Int) > 31 := by have := inRange.dayTo; omega
  have behind : ¬ (date.month.length : Int) + (1 + date.day.length : Nat) ≤ date.month.length := by
    omega
  have monthIndex : ((date.monthValue : Int) - 1).toNat = date.monthValue - 1 := by omega
  have dayIndex : ((date.dayValue : Int) - 1).toNat = date.dayValue - 1 := by omega
  rw [replaceDate, separates]
  simp only [int_month, Option.bind_eq_bind, Option.bind_some, if_neg monthFrom, if_neg monthTo,
    rfind_separator, if_neg behind, int_day, if_neg dayFrom, if_neg dayTo, drop_year, monthIndex,
    dayIndex]
  cases replaceYear date.year with
  | none => rfl
  | some year => rfl

end DateMatch

/-- A date is spoken as it should be exactly when its separator is no dash, its day is neither the
ninth nor the twenty-eighth, and the words of its year come out with single blanks. -/
theorem replaceDate_spoken_iff (date : DateMatch) (inRange : date.InRange) :
    Spoken date ↔ date.separator ≠ .dash ∧ (date.dayValue ≠ 9 ∧ date.dayValue ≠ 28) ∧
      YearJoins date.year := by
  rcases yearText_exists date with ⟨text, year⟩
  have clean := inRange.clean_words
  have dayFrom := inRange.dayFrom
  have dayTo := inRange.dayTo
  have filled : join date.words ≠ [] := by
    have some : date.words ≠ [] := List.cons_ne_nil _ _
    rcases join_head some clean with ⟨char, rest, joined, _⟩
    rw [joined]
    exact List.cons_ne_nil char rest
  by_cases isDash : date.separator = .dash
  · refine iff_of_false ?_ (fun both => both.1 isDash)
    intro spoken
    have returned := spoken.returned
    rw [DateMatch.replaceDate_dash inRange isDash] at returned
    exact filled (Option.some.inj returned).symm
  · have same : replaceDate date.text = some (join date.words) ↔
        (date.dayValue ≠ 9 ∧ date.dayValue ≠ 28) ∧ YearJoins date.year := by
      have isDay : date.dayValue - 1 ≠ 8 ∧ date.dayValue - 1 ≠ 27 ↔
          date.dayValue ≠ 9 ∧ date.dayValue ≠ 28 := by
        omega
      rw [DateMatch.replaceDate_other inRange isDash, inRange.join_words year.filled,
        year.returned, Option.map_some, Option.some.injEq, months_eq, List.append_cancel_left_eq,
        List.cons_inj_right, days_append_iff (by omega), isDay, year.joins]
    rw [← same]
    exact ⟨fun spoken => ⟨isDash, spoken.returned⟩,
      fun both => ⟨both.2, filled, clean⟩⟩

def april04 (separator : Separator) : DateMatch :=
  { month := ['4']
    day := ['1', '6']
    year := ['0', '4']
    separator := separator
    monthLength := by decide
    dayLength := by decide
    yearLength := by decide
    monthDigits := List.all_eq_true.mp (by decide)
    dayDigits := List.all_eq_true.mp (by decide)
    yearDigits := List.all_eq_true.mp (by decide) }

theorem april04_inRange (separator : Separator) : (april04 separator).InRange :=
  ⟨by change 1 ≤ 4; decide, by change 4 ≤ 12; decide, by change 1 ≤ 16; decide,
    by change 16 ≤ 31; decide⟩

theorem replaceDate_spoken_iff_april04 :
    Spoken (april04 .slash) ∧ join (april04 .slash).words = "APRIL SIXTEENTH O FOUR".toList :=
  ⟨(replaceDate_spoken_iff (april04 .slash) (april04_inRange .slash)).mpr
    ⟨by decide, by change 16 ≠ 9 ∧ 16 ≠ 28; decide, by change ¬ EndsInNine '0' '4'; decide⟩,
    by decide +kernel⟩

/-- With dashes the date disappears, a year of four digits becomes one word, and two of the
ordinals are misspelled. -/
theorem dashedDate_disappears :
    (replaceDate "4-16-04".toList = some [] ∧
        replaceDate "4/16/2004".toList = some "APRIL SIXTEENTH TWENTYFOUR".toList ∧
        replaceDate "4/9/04".toList = some "APRIL NINETH O FOUR".toList ∧
        replaceDate "4/28/04".toList = some "APRIL TWENTY EIGTH O FOUR".toList) ∧
      ¬ ∀ date : DateMatch, date.InRange → Spoken date := by
  refine ⟨by decide +kernel, ?_⟩
  intro always
  have returned := (always (april04 .dash) (april04_inRange .dash)).returned
  rw [DateMatch.replaceDate_dash (april04_inRange .dash) rfl] at returned
  revert returned
  decide +kernel

end Mining
