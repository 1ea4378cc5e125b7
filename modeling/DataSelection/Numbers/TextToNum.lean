/-
Reading English number words.

The reader multiplies and adds word by word, and puts a finished group aside when
it meets a scale above one hundred.  Reading what the speller has written gives
the number back, and the speller gives up only beyond its last scale word.
-/

import Mathlib.Data.List.Forall2
import DataSelection.Numbers.WholeNumbers

namespace Numbers

open WittenBell (Word isSpace split strip join CleanWord split_join)

def lower (text : List Char) : List Char := text.map Char.toLower

def unitWords : List Word :=
  ["zero", "one", "two", "three", "four", "five", "six", "seven", "eight",
    "nine", "ten", "eleven", "twelve", "thirteen", "fourteen", "fifteen",
    "sixteen", "seventeen", "eighteen", "nineteen"].map String.toList

def tenWords : List Word :=
  ["", "", "twenty", "thirty", "forty", "fifty", "sixty", "seventy", "eighty",
    "ninety"].map String.toList

def scaleWords : List Word :=
  ["hundred", "thousand", "million", "billion", "trillion", "quadrillion", "quintillion",
    "sextillion", "septillion", "octillion", "nonillion", "decillion", "undecillion",
    "duodecillion", "tredecillion", "quattuordecillion", "quindecillion", "sexdecillion",
    "septendecillion", "octodecillion", "novemdecillion", "vigintillion"].map String.toList

def andWord : Word := "and".toList

/-- The assignments to the dictionary, in their order. -/
def numwordEntries : List (Word × Nat × Nat) :=
  (andWord, 1, 0) ::
    (unitWords.zipIdx.map (fun entry => (entry.1, 1, entry.2)) ++
      tenWords.zipIdx.map (fun entry => (entry.1, 1, entry.2 * 10)) ++
      scaleWords.zipIdx.map (fun entry =>
        (entry.1, 10 ^ (if entry.2 * 3 = 0 then 2 else entry.2 * 3), 0)))

/-- The scale and the increment of a word; a later assignment replaces an earlier. -/
def numwords (word : Word) : Option (Nat × Nat) := numwordEntries.reverse.lookup word

structure Reading where
  current : Nat
  result : Nat
  new_text : List Word
  number_started : Bool
  previous_word : Word
  previous_added : Bool
  deriving DecidableEq

def Reading.start : Reading :=
  { current := 0
    result := 0
    new_text := []
    number_started := false
    previous_word := []
    previous_added := false }

/-- The words that do not continue a number. -/
def Reading.turnsAway (reading : Reading) (word : Word) : Bool :=
  (numwords word).isNone || (!reading.number_started && word = andWord) ||
    (reading.number_started && word = andWord && lower reading.previous_word = andWord)

def Reading.finishNumber (reading : Reading) : Reading :=
  if reading.number_started then
    { reading with
      new_text := reading.new_text ++ [str (reading.result + reading.current : Nat)]
      number_started := false
      current := 0
      result := 0 }
  else reading

def Reading.copyWord (reading : Reading) (original_word : Word) : Reading :=
  { reading with
    new_text :=
      (if lower reading.previous_word = andWord && !reading.previous_added then
        reading.new_text ++ [reading.previous_word] else reading.new_text) ++ [original_word]
    previous_word := original_word
    previous_added := true }

/-- The multiplication and addition for one number word. -/
def accumulate (state : Nat × Nat) (entry : Nat × Nat) : Nat × Nat :=
  let current := state.2 * entry.1 + entry.2
  if entry.1 > 100 then (state.1 + current, 0) else (state.1, current)

def Reading.continueNumber (reading : Reading) (original_word : Word) (entry : Nat × Nat) :
    Reading :=
  let next := accumulate (reading.result, reading.current) entry
  { reading with
    number_started := true
    result := next.1
    current := next.2
    previous_word := original_word
    previous_added := false }

def readWord (contains_only_numbers : Bool) (reading : Reading) (original_word : Word) :
    Option Reading :=
  if reading.turnsAway (lower original_word) then
    if contains_only_numbers then none
    else some (reading.finishNumber.copyWord original_word)
  else
    (numwords (lower original_word)).map (reading.continueNumber original_word)

/-- A number is returned as such; a text with other words is returned as a text. -/
inductive Converted where
  | number (value : Nat)
  | text (words : List Char)
  deriving DecidableEq

def Reading.finish (reading : Reading) : Converted :=
  if reading.new_text = [] then
    if lower reading.previous_word = andWord then
      .text (join [str (reading.result + reading.current : Nat), reading.previous_word])
    else .number (reading.result + reading.current)
  else .text (join reading.new_text)

def textToNum (textnum : List Char) (contains_only_numbers : Bool) : Option Converted :=
  ((split textnum).foldlM (readWord contains_only_numbers) Reading.start).map Reading.finish

/-! ### Number words -/

/-- A word that the reader takes for a number, whatever it has read before. -/
structure NumberWord (word : Word) (entry : Nat × Nat) : Prop where
  clean : CleanWord word
  lowered : lower word = word
  isNumber : numwords word = some entry
  notAnd : word ≠ andWord

instance (word : Word) : Decidable (CleanWord word) :=
  decidable_of_iff (word ≠ [] ∧ word.any isSpace = false)
    ⟨fun both => ⟨both.1, fun char member =>
        Bool.eq_false_iff.mpr (List.any_eq_false.mp both.2 char member)⟩,
      fun clean => ⟨clean.nonempty, List.any_eq_false.mpr (fun char member =>
        Bool.eq_false_iff.mp (clean.clean char member))⟩⟩

instance (word : Word) (entry : Nat × Nat) : Decidable (NumberWord word entry) :=
  decidable_of_iff (CleanWord word ∧ lower word = word ∧ numwords word = some entry ∧
      word ≠ andWord)
    ⟨fun all => ⟨all.1, all.2.1, all.2.2.1, all.2.2.2⟩,
      fun number => ⟨number.clean, number.lowered, number.isNumber, number.notAnd⟩⟩

theorem numberWord_units (u : Fin 10) : NumberWord (english.units u) (1, u.val) := by
  revert u
  decide +kernel

theorem numberWord_teens (u : Fin 10) (positive : u ≠ 0) :
    NumberWord (english.teens u) (1, 10 + u.val) := by
  revert u
  decide +kernel

theorem numberWord_tens (t : Fin 10) (positive : t ≠ 0) :
    NumberWord (english.tens t) (1, 10 * t.val) := by
  revert t
  decide +kernel

theorem numberWord_hundred : NumberWord english.hundred (100, 0) := by decide +kernel

private theorem scale_words (g : Fin 22) (positive : g ≠ 0) :
    english.scale g.val = some [(thousands[g.val]?).getD []] ∧
      NumberWord ((thousands[g.val]?).getD []) (1000 ^ g.val, 0) := by
  revert g
  decide +kernel

theorem numberWord_scale {g : Nat} (positive : 0 < g) (small : g < 22) :
    ∃ word, english.scale g = some [word] ∧ NumberWord word (1000 ^ g, 0) := by
  have entry := scale_words ⟨g, small⟩ (by
    intro zero
    have same := congrArg Fin.val zero
    simp only [Fin.val_zero] at same
    omega)
  exact ⟨_, entry⟩

/-! ### Reading a list of number words -/

/-- The words are number words with the given entries. -/
abbrev NumberWords (words : List Word) (entries : List (Nat × Nat)) : Prop :=
  List.Forall₂ NumberWord words entries

theorem readWord_number {word : Word} {entry : Nat × Nat} (number : NumberWord word entry)
    (only : Bool) (reading : Reading) :
    readWord only reading word = some (reading.continueNumber word entry) := by
  have stays : reading.turnsAway word = false := by
    simp [Reading.turnsAway, number.isNumber, number.notAnd]
  unfold readWord
  rw [number.lowered, stays, number.isNumber]
  rfl

theorem foldlM_readWord {words : List Word} {entries : List (Nat × Nat)}
    (numbers : NumberWords words entries) (only : Bool) (reading : Reading)
    (fresh : reading.new_text = []) (last : lower reading.previous_word ≠ andWord) :
    ∃ after, words.foldlM (readWord only) reading = some after ∧ after.new_text = [] ∧
      lower after.previous_word ≠ andWord ∧
      (after.result, after.current) =
        entries.foldl accumulate (reading.result, reading.current) := by
  induction numbers generalizing reading with
  | nil => exact ⟨reading, rfl, fresh, last, rfl⟩
  | @cons word entry words entries number _ ih =>
      have different : lower word ≠ andWord := by
        rw [number.lowered]
        exact number.notAnd
      rcases ih (reading.continueNumber word entry) fresh different with
        ⟨after, ran, freshAfter, lastAfter, values⟩
      refine ⟨after, ?_, freshAfter, lastAfter, ?_⟩
      · rw [List.foldlM_cons, readWord_number number]
        exact ran
      · rw [values, List.foldl_cons]
        rfl

theorem cleanWords {words : List Word} {entries : List (Nat × Nat)}
    (numbers : NumberWords words entries) : ∀ word ∈ words, CleanWord word := by
  induction numbers with
  | nil =>
      intro word member
      cases member
  | cons number _ ih =>
      intro word member
      rcases List.mem_cons.mp member with atHead | later
      · rw [atHead]
        exact number.clean
      · exact ih word later

theorem textToNum_numberWords {words : List Word} {entries : List (Nat × Nat)}
    (numbers : NumberWords words entries) (only : Bool) :
    textToNum (join words) only =
      some (.number ((entries.foldl accumulate (0, 0)).1 +
        (entries.foldl accumulate (0, 0)).2)) := by
  rcases foldlM_readWord numbers only Reading.start rfl (by decide +kernel) with
    ⟨after, ran, fresh, last, values⟩
  have result := congrArg Prod.fst values
  have current := congrArg Prod.snd values
  unfold textToNum
  rw [split_join (cleanWords numbers), ran, Option.map_some, Reading.finish, if_pos fresh, if_neg last]
  exact congrArg (fun value => some (Converted.number value))
    (congrArg₂ (fun left right => left + right) result current)

/-! ### Reading what was spelled -/

theorem foldl_accumulate_hundreds (h : Fin 10) : ∃ entries,
    NumberWords (spellHundreds english h) entries ∧
      ∀ result, entries.foldl accumulate (result, 0) = (result, 100 * h.val) := by
  unfold spellHundreds
  by_cases positive : h.val ≥ 1
  · rw [if_pos positive]
    refine ⟨[(1, h.val), (100, 0)], ?_, ?_⟩
    · exact List.Forall₂.cons (numberWord_units h)
        (List.Forall₂.cons numberWord_hundred List.Forall₂.nil)
    · intro result
      simp only [List.foldl_cons, List.foldl_nil, accumulate]
      norm_num
      omega
  · rw [if_neg positive]
    refine ⟨[], List.Forall₂.nil, ?_⟩
    intro result
    simp only [List.foldl_nil, Prod.mk.injEq, true_and]
    omega

theorem foldl_accumulate_tens (t u : Fin 10) : ∃ entries,
    NumberWords (spellTens english t u) entries ∧
      ∀ result current, entries.foldl accumulate (result, current) =
        (result, current + (10 * t.val + u.val)) := by
  have unit : u.val < 1 → u.val = 0 := by omega
  have single : ∀ (word : Word) (value : Nat), NumberWord word (1, value) →
      value = 10 * t.val + u.val → ∃ entries, NumberWords [word] entries ∧
        ∀ result current, entries.foldl accumulate (result, current) =
          (result, current + (10 * t.val + u.val)) := by
    intro word value number same
    refine ⟨[(1, value)], List.Forall₂.cons number List.Forall₂.nil, ?_⟩
    intro result current
    simp only [List.foldl_cons, List.foldl_nil, accumulate]
    norm_num
    exact same
  unfold spellTens
  by_cases many : t.val > 1
  · have nonzero : t ≠ 0 := by omega
    rw [if_pos many]
    by_cases positive : u.val ≥ 1
    · rw [if_pos positive]
      refine ⟨[(1, 10 * t.val), (1, u.val)], ?_, ?_⟩
      · exact List.Forall₂.cons (numberWord_tens t nonzero)
          (List.Forall₂.cons (numberWord_units u) List.Forall₂.nil)
      · intro result current
        simp only [List.foldl_cons, List.foldl_nil, accumulate]
        norm_num
        omega
    · rw [if_neg positive]
      exact single _ _ (numberWord_tens t nonzero) (by omega)
  · rw [if_neg many]
    by_cases one : t.val = 1
    · have nonzero : t ≠ 0 := by omega
      rw [if_pos one]
      by_cases positive : u.val ≥ 1
      · have teen : u ≠ 0 := by omega
        rw [if_pos positive]
        exact single _ _ (numberWord_teens u teen) (by omega)
      · rw [if_neg positive]
        exact single _ _ (numberWord_tens t nonzero) (by omega)
    · rw [if_neg one]
      by_cases positive : u.val ≥ 1
      · rw [if_pos positive]
        exact single _ _ (numberWord_units u) (by omega)
      · rw [if_neg positive]
        refine ⟨[], List.Forall₂.nil, ?_⟩
        intro result current
        simp only [List.foldl_nil, Prod.mk.injEq, true_and]
        omega

theorem foldl_accumulate_group {g m : Nat} (small : g < 22) (bound : m < 1000) :
    ∃ words entries, spellGroup english g (Fin.ofNat 10 (m / 100)) (Fin.ofNat 10 (m / 10))
        (Fin.ofNat 10 m) = some words ∧
      NumberWords words entries ∧
      ∀ result, entries.foldl accumulate (result, 0) =
        if g = 0 then (result, m) else (result + m * 1000 ^ g, 0) := by
  rcases foldl_accumulate_hundreds (Fin.ofNat 10 (m / 100)) with
    ⟨hundreds, hundredWords, hundredValue⟩
  rcases foldl_accumulate_tens (Fin.ofNat 10 (m / 10)) (Fin.ofNat 10 m) with
    ⟨tens, tenWords, tenValue⟩
  have digits : 100 * (Fin.ofNat 10 (m / 100)).val +
      (10 * (Fin.ofNat 10 (m / 10)).val + (Fin.ofNat 10 m).val) = m := by
    simp only [Fin.ofNat]
    omega
  have below : ∀ result, (hundreds ++ tens).foldl accumulate (result, 0) = (result, m) := by
    intro result
    rw [List.foldl_append, hundredValue, tenValue, digits]
  have belowWords := List.rel_append hundredWords tenWords
  unfold spellGroup spellScale
  by_cases scaled : g ≥ 1 ∧ (Fin.ofNat 10 (m / 100)).val + (Fin.ofNat 10 (m / 10)).val +
      (Fin.ofNat 10 m).val > 0
  · rcases numberWord_scale scaled.1 small with ⟨word, entry, number⟩
    rw [if_pos scaled, entry]
    refine ⟨_, hundreds ++ tens ++ [(1000 ^ g, 0)], rfl, ?_, ?_⟩
    · exact List.rel_append belowWords (List.Forall₂.cons number List.Forall₂.nil)
    · intro result
      have large : 1000 ^ g > 100 := by
        have power := thousand_pow_le scaled.1
        omega
      rw [List.foldl_append, below]
      simp only [List.foldl_cons, List.foldl_nil, accumulate, large, if_true,
        if_neg (Nat.ne_of_gt scaled.1), Nat.add_zero]
  · rw [if_neg scaled]
    refine ⟨_, hundreds ++ tens, rfl, ?_, ?_⟩
    · dsimp only
      rw [List.append_nil]
      exact belowWords
    · intro result
      rw [below]
      by_cases last : g = 0
      · rw [if_pos last]
      · have zero : m = 0 := by omega
        rw [if_neg last, zero, Nat.zero_mul, Nat.add_zero]

theorem foldl_accumulate_value {g n : Nat} (small : g ≤ 22) (bound : n < 1000 ^ g) :
    ∃ words entries, spellValue english g n = some words ∧ NumberWords words entries ∧
      ∀ result, (entries.foldl accumulate (result, 0)).1 +
        (entries.foldl accumulate (result, 0)).2 = result + n := by
  induction g generalizing n with
  | zero =>
      have zero : n = 0 := by
        rw [Nat.pow_zero] at bound
        omega
      refine ⟨[], [], rfl, List.Forall₂.nil, ?_⟩
      intro result
      rw [zero]
      rfl
  | succ g ih =>
      have positive := thousand_pow_pos g
      have quotient := div_lt_thousand bound
      rcases foldl_accumulate_group (g := g) (by omega) quotient with
        ⟨here, hereEntries, hereRan, hereNumbers, hereValue⟩
      rcases ih (by omega) (Nat.mod_lt n positive) with
        ⟨others, otherEntries, othersRan, otherNumbers, otherValue⟩
      refine ⟨here ++ others, hereEntries ++ otherEntries, ?_, ?_, ?_⟩
      · rw [spellValue, hereRan, othersRan]
        rfl
      · exact List.rel_append hereNumbers otherNumbers
      · intro result
        have split := Nat.div_add_mod n (1000 ^ g)
        rw [List.foldl_append, hereValue]
        by_cases last : g = 0
        · subst g
          have empty : others = [] := by
            cases othersRan
            rfl
          subst others
          cases otherNumbers
          simp only [if_true, List.foldl_nil, Nat.pow_zero, Nat.div_one]
        · rw [if_neg last, otherValue, Nat.mul_comm]
          omega

/-- Beyond the last scale word a group that is not zero makes the speller raise. -/
theorem spellValue_raises {g n : Nat} (large : 22 ≤ g) (filled : 1000 ^ g ≤ n)
    (bound : n < 1000 ^ (g + 1)) : spellValue english (g + 1) n = none := by
  have positive := thousand_pow_pos g
  have nonzero : 0 < n / 1000 ^ g := Nat.div_pos filled positive
  have quotient := div_lt_thousand bound
  have missing : english.scale g = none := by
    have beyond : thousands[g]? = none := List.getElem?_eq_none large
    change (thousands[g]?).map (fun word => [word]) = none
    rw [beyond]
    rfl
  have scaled : g ≥ 1 ∧ (Fin.ofNat 10 (n / 1000 ^ g / 100)).val +
      (Fin.ofNat 10 (n / 1000 ^ g / 10)).val + (Fin.ofNat 10 (n / 1000 ^ g)).val > 0 := by
    simp only [Fin.ofNat]
    omega
  have raised : spellGroup english g (Fin.ofNat 10 (n / 1000 ^ g / 100))
      (Fin.ofNat 10 (n / 1000 ^ g / 10)) (Fin.ofNat 10 (n / 1000 ^ g)) = none := by
    unfold spellGroup spellScale
    rw [if_pos scaled, missing]
    rfl
  rw [spellValue, raised]
  rfl

theorem head_toDigits (n : Nat) : (Nat.toDigits 10 n).head? = some '0' ↔ n = 0 := by
  induction n using Nat.strong_induction_on with
  | _ n ih =>
      by_cases small : n < 10
      · have single : ∀ d, d < 10 → ([d.digitChar].head? = some '0' ↔ d = 0) := by decide
        rw [Nat.toDigits_of_lt_base small]
        exact single n small
      · rw [Nat.toDigits_of_base_le (by decide) (by omega),
          List.head?_append_of_ne_nil _ Nat.toDigits_ne_nil, ih (n / 10) (by omega)]
        omega

theorem startsWithZero_toDigits (n : Nat) :
    startsWithZero (Nat.toDigits 10 n) = decide (n = 0) := by
  have head := head_toDigits n
  have all := allDigits_toDigits n
  cases digits : Nat.toDigits 10 n with
  | nil => exact absurd digits Nat.toDigits_ne_nil
  | cons char rest =>
      rw [digits] at head all
      have noPoint : char ≠ '.' := by
        rintro rfl
        have absent : '.' ∉ '.' :: rest := all.absent rfl
        exact absent List.mem_cons_self
      rw [List.head?_cons, Option.some.injEq] at head
      by_cases zero : char = '0'
      · rw [decide_eq_true (head.mp zero), zero]
        rfl
      · rw [decide_eq_false (fun isZero => zero (head.mpr isZero))]
        unfold startsWithZero
        split
        · rename_i same
          exact absurd (List.cons.inj same).1 zero
        · rename_i same
          exact absurd (List.cons.inj same).1 noPoint
        · rfl

theorem numToText_digits {digits : List Char} (all : AllDigits digits) (filled : digits ≠ []) :
    numToText digits =
      (if Nat.ofDigitChars 10 digits 0 = 0 then some [english.zero]
        else spellValue english (groupsOf (Nat.ofDigitChars 10 digits 0))
          (Nat.ofDigitChars 10 digits 0)).map join := by
  rw [numToText, removeCommas_digits all, removeLeadingZeros_digits all filled]
  exact spell_toDigits english _ (startsWithZero_toDigits _)

theorem textToNum_numToText_digits {digits : List Char} (all : AllDigits digits)
    (filled : digits ≠ []) (small : Nat.ofDigitChars 10 digits 0 < 10 ^ 66) :
    ∃ text, numToText digits = some text ∧
      textToNum text false = some (.number (Nat.ofDigitChars 10 digits 0)) := by
  rw [numToText_digits all filled]
  by_cases zero : Nat.ofDigitChars 10 digits 0 = 0
  · rw [if_pos zero, zero]
    have read := textToNum_numberWords
      (List.Forall₂.cons (numberWord_units 0) List.Forall₂.nil) false
    exact ⟨_, rfl, read⟩
  · rw [if_neg zero]
    have groups : groupsOf (Nat.ofDigitChars 10 digits 0) ≤ 22 := by
      rw [groupsOf_le_iff (by decide)]
      have power : (1000 : Nat) ^ 22 = 10 ^ 66 := by norm_num
      rw [power]
      exact small
    rcases foldl_accumulate_value groups (lt_pow_groupsOf _) with
      ⟨words, entries, ran, numbers, value⟩
    rw [ran]
    refine ⟨join words, rfl, ?_⟩
    rw [textToNum_numberWords numbers, value, Nat.zero_add]

theorem numToText_eq_none_iff {digits : List Char} (all : AllDigits digits)
    (filled : digits ≠ []) :
    numToText digits = none ↔ 10 ^ 66 ≤ Nat.ofDigitChars 10 digits 0 := by
  constructor
  · intro raised
    by_contra small
    rcases textToNum_numToText_digits all filled (by omega) with ⟨text, ran, _⟩
    rw [ran] at raised
    cases raised
  · intro large
    have power : (1000 : Nat) ^ 22 = 10 ^ 66 := by norm_num
    have nonzero : Nat.ofDigitChars 10 digits 0 ≠ 0 := by omega
    have many : 22 < groupsOf (Nat.ofDigitChars 10 digits 0) := by
      by_contra few
      have bound := (groupsOf_le_iff (n := Nat.ofDigitChars 10 digits 0) (g := 22)
        (by decide)).mp (by omega)
      omega
    rcases Nat.exists_eq_succ_of_ne_zero (Nat.ne_of_gt (Nat.lt_trans (by decide) many)) with
      ⟨g, groups⟩
    have atLeast : 1000 ^ g ≤ Nat.ofDigitChars 10 digits 0 := by
      by_contra below
      have bound := (groupsOf_le_iff (n := Nat.ofDigitChars 10 digits 0) (g := g)
        (by omega)).mpr (by omega)
      omega
    have within := lt_pow_groupsOf (Nat.ofDigitChars 10 digits 0)
    rw [groups] at within
    rw [numToText_digits all filled, if_neg nonzero, groups,
      spellValue_raises (by omega) atLeast within]
    rfl

/-- A digit string has more than `k` digits, its leading zeros apart, exactly when
its number is not below `10 ^ k`. -/
theorem length_dropWhile_zero {digits : List Char} (all : AllDigits digits) (k : Nat) :
    k < (digits.dropWhile (· = '0')).length ↔ 10 ^ k ≤ Nat.ofDigitChars 10 digits 0 := by
  induction digits with
  | nil =>
      have positive : 0 < 10 ^ k := Nat.pow_pos (by decide)
      simp
  | cons char digits ih =>
      have rest : AllDigits digits := fun other member =>
        all other (List.mem_cons_of_mem char member)
      by_cases zero : char = '0'
      · have value : Nat.ofDigitChars 10 (char :: digits) 0 = Nat.ofDigitChars 10 digits 0 := by
          rw [Nat.ofDigitChars_cons, zero]
          rfl
        rw [value, ← ih rest, zero]
        rfl
      · have kept : (char :: digits).dropWhile (· = '0') = char :: digits := by
          rw [List.dropWhile_cons, decide_eq_false zero]
          rfl
        have bounds := isDigit_bounds (all char List.mem_cons_self)
        have different : char.toNat ≠ 48 := by
          intro same
          exact zero (Char.toNat_inj.mp same)
        have upper := ofDigitChars_lt all
        have lower : 10 ^ digits.length ≤ Nat.ofDigitChars 10 (char :: digits) 0 := by
          rw [Nat.ofDigitChars_cons, Nat.ofDigitChars_eq_ofDigitChars_zero]
          have leading : 1 ≤ 10 * 0 + (char.toNat - '0'.toNat) := by
            change 1 ≤ 10 * 0 + (char.toNat - 48)
            omega
          have scaled := Nat.mul_le_mul_left (10 ^ digits.length) leading
          omega
        rw [kept, List.length_cons]
        rw [List.length_cons] at upper
        constructor
        · intro longer
          exact (Nat.pow_le_pow_right (by decide) (Nat.le_of_lt_succ longer)).trans lower
        · intro large
          by_contra shorter
          have power := Nat.pow_le_pow_right (n := 10) (by decide) (Nat.le_of_not_lt shorter)
          omega

/-- A number below `10 ^ 66` survives the trip to words and back, and the speller
raises exactly for the strings of more than 66 digits after the leading zeros. -/
theorem textToNum_numToText :
    (∀ n : Nat, n < 10 ^ 66 → ∃ text, numToText (str n) = some text ∧
        textToNum text false = some (.number n)) ∧
      ∀ digits : List Char, digits ≠ [] → AllDigits digits →
        (numToText digits = none ↔ 66 < (digits.dropWhile (· = '0')).length) := by
  constructor
  · intro n small
    have value : Nat.ofDigitChars 10 (Nat.toDigits 10 n) 0 = n := Nat.ofDigitChars_ten_toDigits
    have trip := textToNum_numToText_digits (allDigits_toDigits n) Nat.toDigits_ne_nil
      (by rw [value]; exact small)
    rw [value] at trip
    exact trip
  · intro digits filled all
    rw [numToText_eq_none_iff all filled, length_dropWhile_zero all]

end Numbers
