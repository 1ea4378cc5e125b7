/-
Spelling decimals.

The prefix test for zero is true of every number that begins with a zero, so a
decimal whose integer part is zero is spelled as zero, whatever its fraction is.
-/

import Mathlib.Algebra.Order.Field.Rat
import DataSelection.Library.Loops
import DataSelection.Numbers.TextToNum

namespace Numbers

open Library (find upTo find_of_absent find_append upTo_append mapM_of_pure)
open WittenBell (Word join CleanWord join_injective)

/-- A decimal number with an integer part that the scale words can name. -/
structure Decimal where
  negative : Bool
  whole : List Char
  fraction : List Char
  wholeFilled : whole ≠ []
  wholeDigits : AllDigits whole
  wholeShort : whole.length ≤ 66
  fractionFilled : fraction ≠ []
  fractionDigits : AllDigits fraction

namespace Decimal

def sign (decimal : Decimal) : List Char := if decimal.negative then ['-'] else []

def text (decimal : Decimal) : List Char :=
  decimal.sign ++ decimal.whole ++ '.' :: decimal.fraction

def wholeValue (decimal : Decimal) : Nat := Nat.ofDigitChars 10 decimal.whole 0

def value (decimal : Decimal) : ℚ :=
  (if decimal.negative then -1 else 1) *
    (decimal.wholeValue +
      (Nat.ofDigitChars 10 decimal.fraction 0 : ℚ) / (10 : ℚ) ^ decimal.fraction.length)

def signWords (decimal : Decimal) : List Word :=
  if decimal.negative then [english.negative] else []

def fractionWords (decimal : Decimal) : List Word :=
  decimal.fraction.map (fun char => english.units (Fin.ofNat 10 (char.toNat - '0'.toNat)))

/-- The words of the integer part: what the speller makes of it alone, and for
zero one word or none. -/
def SpellsWhole (decimal : Decimal) (words : List Word) : Prop :=
  if decimal.wholeValue = 0 then words = [] ∨ words = [english.zero]
  else numToText decimal.whole = some (join words)

/-- The integer part, the point and the digits of the fraction are spelled. -/
def Faithful (decimal : Decimal) : Prop :=
  ∃ words, decimal.SpellsWhole words ∧
    numToText decimal.text = some (join
      (decimal.signWords ++ words ++ english.point :: decimal.fractionWords))

end Decimal

/-! ### The text of a decimal -/

theorem toDigits_singleton {char : Char} (isDigit : char.isDigit = true) :
    Nat.toDigits 10 (Nat.ofDigitChars 10 [char] 0) = [char] := by
  have bounds := isDigit_bounds isDigit
  have value : Nat.ofDigitChars 10 [char] 0 = char.toNat - 48 := by
    rw [Nat.ofDigitChars_cons, Nat.ofDigitChars_nil]
    exact Nat.zero_add _
  have same : (char.toNat - 48).digitChar = char := by
    apply Char.toNat_inj.mp
    rw [Nat.toNat_digitChar_of_lt_ten (by omega)]
    omega
  rw [value, Nat.toDigits_of_lt_base (by omega), same]

theorem Decimal.notMem_text (decimal : Decimal) {char : Char} (noSign : char ∉ decimal.sign)
    (noPoint : char ≠ '.') (noDigit : char.isDigit = false) : char ∉ decimal.text := by
  have inWhole := decimal.wholeDigits.absent noDigit
  have inFraction := decimal.fractionDigits.absent noDigit
  unfold Decimal.text
  rw [List.mem_append, List.mem_append, List.mem_cons, not_or, not_or, not_or]
  exact ⟨⟨noSign, inWhole⟩, noPoint, inFraction⟩

theorem Decimal.sign_cases (decimal : Decimal) :
    (decimal.sign = ['-'] ∧ decimal.signWords = [english.negative]) ∨
      (decimal.sign = [] ∧ decimal.signWords = []) := by
  unfold Decimal.sign Decimal.signWords
  cases decimal.negative with
  | true => exact Or.inl ⟨rfl, rfl⟩
  | false => exact Or.inr ⟨rfl, rfl⟩

theorem Decimal.notMem_sign (decimal : Decimal) {char : Char} (different : char ≠ '-') :
    char ∉ decimal.sign := by
  rcases decimal.sign_cases with ⟨sign, _⟩ | ⟨sign, _⟩
  · rw [sign]
    exact fun member => different (List.mem_singleton.mp member)
  · rw [sign]
    exact List.not_mem_nil

theorem Decimal.find_point (decimal : Decimal) :
    find decimal.text ['.'] = (decimal.sign ++ decimal.whole).length := by
  apply find_append
  rw [List.mem_append, not_or]
  exact ⟨decimal.notMem_sign (by decide), decimal.wholeDigits.absent rfl⟩

theorem Decimal.find_minus (decimal : Decimal) :
    find decimal.text ['-'] + 1 = decimal.sign.length := by
  rcases decimal.sign_cases with ⟨sign, _⟩ | ⟨sign, _⟩
  · have front : decimal.text = [] ++ '-' :: (decimal.whole ++ '.' :: decimal.fraction) := by
      rw [Decimal.text, sign, List.append_assoc]
      rfl
    rw [front, find_append List.not_mem_nil, sign]
    rfl
  · have noSign : '-' ∉ decimal.sign := by
      rw [sign]
      exact List.not_mem_nil
    rw [find_of_absent (decimal.notMem_text noSign (by decide) rfl), sign]
    rfl

/-- Superfluous zeros before the point go, and the rest of the text stays. -/
theorem removeLeadingZeros_decimal (decimal : Decimal) :
    removeLeadingZeros decimal.text = some
      (decimal.sign ++ Nat.toDigits 10 decimal.wholeValue ++ '.' :: decimal.fraction) := by
  have filled : 0 < decimal.whole.length := List.length_pos_of_ne_nil decimal.wholeFilled
  have before : upTo decimal.text (decimal.sign ++ decimal.whole).length =
      decimal.sign ++ decimal.whole := upTo_append _ _
  have behind : decimal.text.drop (decimal.sign ++ decimal.whole).length =
      '.' :: decimal.fraction := List.drop_left
  unfold removeLeadingZeros
  rw [decimal.find_point, decimal.find_minus]
  dsimp only
  rw [if_pos (by rw [List.length_append]; omega)]
  by_cases long : ((decimal.sign ++ decimal.whole).length : Int) - decimal.sign.length > 1
  · rw [if_pos long, before, Int.toNat_natCast, List.drop_left,
      int_digits decimal.wholeDigits decimal.wholeFilled, Int.toNat_natCast, behind]
    dsimp only
    cases negative : decimal.negative with
    | true => simp [Decimal.sign, negative, Decimal.wholeValue, str]
    | false => simp [Decimal.sign, negative, Decimal.wholeValue, str]
  · rw [if_neg long]
    rw [List.length_append] at long
    have single : decimal.whole.length = 1 := by omega
    rcases List.length_eq_one_iff.mp single with ⟨char, whole⟩
    have isDigit : char.isDigit = true :=
      decimal.wholeDigits char (by rw [whole]; exact List.mem_singleton_self char)
    have canonical : Nat.toDigits 10 decimal.wholeValue = decimal.whole := by
      unfold Decimal.wholeValue
      rw [whole, toDigits_singleton isDigit]
    rw [canonical]
    rfl

theorem mapM_digit {digits : List Char} (all : AllDigits digits) :
    digits.mapM digit = some (digits.map (fun char => Fin.ofNat 10 (char.toNat - '0'.toNat))) :=
  mapM_of_pure (fun char member => digit_eq (all char member))

theorem spellDecimals_digits {fraction : List Char} (filled : fraction ≠ [])
    (all : AllDigits fraction) :
    spellDecimals english fraction = some (english.point :: fraction.map (fun char =>
      english.units (Fin.ofNat 10 (char.toNat - '0'.toNat)))) := by
  have zero : ∀ d : Fin 10, (if d = 0 then english.zero else english.units d) = english.units d := by
    decide +kernel
  unfold spellDecimals
  rw [if_neg filled, mapM_digit all]
  simp only [Option.bind_eq_bind, Option.bind_some, zero, List.map_map]
  rfl

theorem spellDigits_decimal (n : Nat) {fraction : List Char} (filled : fraction ≠ [])
    (all : AllDigits fraction) :
    spellDigits english (Nat.toDigits 10 n ++ '.' :: fraction) =
      (spellValue english (groupsOf n) n).map (fun words =>
        words ++ english.point :: fraction.map (fun char =>
          english.units (Fin.ofNat 10 (char.toNat - '0'.toNat)))) := by
  have noPoint : '.' ∉ Nat.toDigits 10 n := (allDigits_toDigits n).absent rfl
  have found : ((Nat.toDigits 10 n).length : Int) > -1 := by omega
  have behind : (Nat.toDigits 10 n ++ '.' :: fraction).drop
      (((Nat.toDigits 10 n).length : Int) + 1).toNat = fraction := by
    have index : (((Nat.toDigits 10 n).length : Int) + 1).toNat = (Nat.toDigits 10 n).length + 1 := by
      omega
    rw [index, List.drop_append]
    simp
  unfold spellDigits
  rw [find_append noPoint]
  simp only [found, if_true, behind, upTo_append]
  have groups := spellGroups_toDigits english n
  unfold groupsOf at groups ⊢
  rw [groups, spellDecimals_digits filled all]
  cases spellValue english (((Nat.toDigits 10 n).length + 2) / 3) n with
  | none => rfl
  | some words => rfl

/-! ### What is spelled -/

theorem spellUnsigned_decimal (n : Nat) {fraction : List Char} (filled : fraction ≠ [])
    (all : AllDigits fraction) :
    spellUnsigned english (Nat.toDigits 10 n ++ '.' :: fraction) =
      if n = 0 then some [english.zero]
      else (spellValue english (groupsOf n) n).map (fun words =>
        words ++ english.point :: fraction.map (fun char =>
          english.units (Fin.ofNat 10 (char.toNat - '0'.toNat)))) := by
  have front : startsWithZero (Nat.toDigits 10 n ++ '.' :: fraction) =
      startsWithZero (Nat.toDigits 10 n) := by
    have noPoint : '.' ∉ Nat.toDigits 10 n := (allDigits_toDigits n).absent rfl
    cases digits : Nat.toDigits 10 n with
    | nil => exact absurd digits Nat.toDigits_ne_nil
    | cons first others =>
        rw [digits] at noPoint
        have different : first ≠ '.' := fun same => noPoint (by rw [same]; exact List.mem_cons_self)
        by_cases zero : first = '0'
        · rw [zero]
          rfl
        · simp [startsWithZero, zero, different]
  have test : english.isZero (Nat.toDigits 10 n ++ '.' :: fraction) = decide (n = 0) := by
    rw [← startsWithZero_toDigits n, ← front]
    rfl
  unfold spellUnsigned
  rw [test, spellDigits_decimal n filled all]
  simp only [decide_eq_true_eq]

theorem spell_of_ne {first : Char} (different : first ≠ '-') (others : List Char) :
    spell english (first :: others) = (spellUnsigned english (first :: others)).map join := by
  unfold spell
  split
  · rename_i empty
    cases empty
  · rename_i rest signed
    exact absurd (List.cons.inj signed).1 different
  · rfl

theorem numToText_decimal (decimal : Decimal) :
    numToText decimal.text =
      if decimal.wholeValue = 0 then some (join (decimal.signWords ++ [english.zero]))
      else (spellValue english (groupsOf decimal.wholeValue) decimal.wholeValue).map (fun words =>
        join (decimal.signWords ++ words ++ english.point :: decimal.fractionWords)) := by
  have noComma : ',' ∉ decimal.text :=
    decimal.notMem_text (decimal.notMem_sign (by decide)) (by decide) rfl
  have unsigned := spellUnsigned_decimal decimal.wholeValue decimal.fractionFilled
    decimal.fractionDigits
  have noSign : '-' ∉ Nat.toDigits 10 decimal.wholeValue :=
    (allDigits_toDigits decimal.wholeValue).absent rfl
  have filled : Nat.toDigits 10 decimal.wholeValue ≠ [] := Nat.toDigits_ne_nil
  unfold numToText
  rw [removeCommas_absent noComma, removeLeadingZeros_decimal]
  dsimp only
  rcases decimal.sign_cases with ⟨sign, signWords⟩ | ⟨sign, signWords⟩
  · rw [sign, signWords, List.append_assoc, List.singleton_append, spell, unsigned]
    by_cases zero : decimal.wholeValue = 0
    · rw [if_pos zero, if_pos zero]
      rfl
    · rw [if_neg zero, if_neg zero, Option.map_map]
      rfl
  · rw [sign, signWords, List.nil_append]
    cases digits : Nat.toDigits 10 decimal.wholeValue with
    | nil => exact absurd digits filled
    | cons first others =>
        rw [digits] at noSign unsigned
        have different : first ≠ '-' := fun same => noSign (by rw [same]; exact List.mem_cons_self)
        rw [List.cons_append] at unsigned ⊢
        rw [spell_of_ne different, unsigned]
        by_cases zero : decimal.wholeValue = 0
        · rw [if_pos zero, if_pos zero]
          rfl
        · rw [if_neg zero, if_neg zero, Option.map_map]
          rfl

theorem negative_notMem_point : english.negative ≠ english.point := by decide +kernel

/-- The parts of a decimal's words do not run into each other. -/
structure Parts (decimal : Decimal) (words : List Word) : Prop where
  clean : ∀ word ∈ decimal.signWords ++ words ++ english.point :: decimal.fractionWords,
    CleanWord word
  noPoint : english.point ∉ words
  noNegative : english.negative ∉ words ++ english.point :: decimal.fractionWords

theorem NumberWords.notMem {words : List Word} {entries : List (Nat × Nat)}
    (numbers : NumberWords words entries) {word : Word} (unknown : numwords word = none) :
    word ∉ words := by
  induction numbers with
  | nil => exact List.not_mem_nil
  | cons number _ ih =>
      rw [List.mem_cons, not_or]
      constructor
      · rintro rfl
        rw [number.isNumber] at unknown
        cases unknown
      · exact ih

theorem fractionWords_numbers (decimal : Decimal) :
    ∀ word ∈ decimal.fractionWords, ∃ entry, NumberWord word entry := by
  intro word member
  rcases List.mem_map.mp member with ⟨char, _inFraction, rfl⟩
  exact ⟨_, numberWord_units _⟩

theorem notMem_fractionWords (decimal : Decimal) {word : Word} (unknown : numwords word = none) :
    word ∉ decimal.fractionWords := by
  intro member
  rcases fractionWords_numbers decimal word member with ⟨entry, number⟩
  rw [number.isNumber] at unknown
  cases unknown

theorem numwords_point : numwords english.point = none ∧ numwords english.negative = none := by
  decide +kernel

theorem cleanWord_signs : CleanWord english.negative ∧ CleanWord english.point ∧
    CleanWord english.zero := by decide +kernel

theorem clean_signWords (decimal : Decimal) : ∀ word ∈ decimal.signWords, CleanWord word := by
  intro word member
  unfold Decimal.signWords at member
  split at member
  · rw [List.mem_singleton.mp member]
    exact cleanWord_signs.1
  · cases member

theorem clean_signedZero (decimal : Decimal) :
    ∀ word ∈ decimal.signWords ++ [english.zero], CleanWord word := by
  intro word member
  rcases List.mem_append.mp member with inSign | here
  · exact clean_signWords decimal word inSign
  · rw [List.mem_singleton.mp here]
    exact cleanWord_signs.2.2

theorem clean_spelled (decimal : Decimal) {words : List Word}
    (clean : ∀ word ∈ words, CleanWord word) :
    ∀ word ∈ decimal.signWords ++ words ++ english.point :: decimal.fractionWords,
      CleanWord word := by
  intro word member
  rcases List.mem_append.mp member with front | back
  · rcases List.mem_append.mp front with inSign | inWords
    · exact clean_signWords decimal word inSign
    · exact clean word inWords
  · rcases List.mem_cons.mp back with rfl | inFraction
    · exact cleanWord_signs.2.1
    · rcases fractionWords_numbers decimal word inFraction with ⟨entry, number⟩
      exact number.clean

theorem Parts.of_numbers (decimal : Decimal) {words : List Word} {entries : List (Nat × Nat)}
    (numbers : NumberWords words entries) : Parts decimal words := by
  constructor
  · exact clean_spelled decimal (cleanWords numbers)
  · exact numbers.notMem numwords_point.1
  · rw [List.mem_append, List.mem_cons, not_or, not_or]
    exact ⟨numbers.notMem numwords_point.2, negative_notMem_point,
      notMem_fractionWords decimal numwords_point.2⟩

theorem wholeValue_lt (decimal : Decimal) : decimal.wholeValue < 10 ^ 66 :=
  Nat.lt_of_lt_of_le (ofDigitChars_lt decimal.wholeDigits)
    (Nat.pow_le_pow_right (by decide) decimal.wholeShort)

theorem numToText_decimal_of_ne {decimal : Decimal} (nonzero : decimal.wholeValue ≠ 0) :
    ∃ words, numToText decimal.whole = some (join words) ∧
      numToText decimal.text = some (join
        (decimal.signWords ++ words ++ english.point :: decimal.fractionWords)) ∧
      Parts decimal words := by
  have groups : groupsOf decimal.wholeValue ≤ 22 := by
    rw [groupsOf_le_iff (by decide)]
    have power : (1000 : Nat) ^ 22 = 10 ^ 66 := by norm_num
    rw [power]
    exact wholeValue_lt decimal
  rcases foldl_accumulate_value groups (lt_pow_groupsOf _) with ⟨words, entries, ran, numbers, _⟩
  refine ⟨words, ?_, ?_, Parts.of_numbers decimal numbers⟩
  · unfold Decimal.wholeValue at ran nonzero
    rw [numToText_digits decimal.wholeDigits decimal.wholeFilled, if_neg nonzero, ran]
    rfl
  · rw [numToText_decimal, if_neg nonzero, ran]
    rfl

def zeroPoint (char : Char) (isDigit : char.isDigit = true) : Decimal :=
  { negative := false
    whole := ['0']
    fraction := [char]
    wholeFilled := List.cons_ne_nil _ _
    wholeDigits := fun _ member => by rw [List.mem_singleton.mp member]; rfl
    wholeShort := by decide
    fractionFilled := List.cons_ne_nil _ _
    fractionDigits := fun _ member => by rw [List.mem_singleton.mp member]; exact isDigit }

theorem signedZero_ne {zero decimal : Decimal} {words : List Word}
    (clean : ∀ word ∈ words, CleanWord word) :
    join (zero.signWords ++ [english.zero]) ≠
      join (decimal.signWords ++ words ++ english.point :: decimal.fractionWords) := by
  intro same
  have lists := join_injective (clean_signedZero zero) (clean_spelled decimal clean) same
  have point : english.point ∈ zero.signWords ++ [english.zero] := by
    rw [lists]
    exact List.mem_append_right _ List.mem_cons_self
  have different : english.point ≠ english.zero ∧ english.point ≠ english.negative := by
    decide +kernel
  rcases List.mem_append.mp point with inSign | here
  · unfold Decimal.signWords at inSign
    split at inSign
    · exact different.2 (List.mem_singleton.mp inSign)
    · cases inSign
  · exact different.1 (List.mem_singleton.mp here)

theorem fractionWords_injective {left right : List Char} (leftDigits : AllDigits left)
    (rightDigits : AllDigits right)
    (same : left.map (fun char => english.units (Fin.ofNat 10 (char.toNat - '0'.toNat))) =
      right.map (fun char => english.units (Fin.ofNat 10 (char.toNat - '0'.toNat)))) :
    left = right := by
  have units : ∀ a b : Fin 10, english.units a = english.units b → a = b := by decide +kernel
  induction left generalizing right with
  | nil => exact (List.map_eq_nil_iff.mp same.symm).symm
  | cons char left ih =>
      cases right with
      | nil => cases same
      | cons other right =>
          rw [List.map_cons, List.map_cons, List.cons.injEq] at same
          have values := congrArg Fin.val (units _ _ same.1)
          have charBounds := isDigit_bounds (leftDigits char List.mem_cons_self)
          have otherBounds := isDigit_bounds (rightDigits other List.mem_cons_self)
          have equal : char = other := by
            apply Char.toNat_inj.mp
            change (char.toNat - 48) % 10 = (other.toNat - 48) % 10 at values
            omega
          rw [equal, ih (fun char member => leftDigits char (List.mem_cons_of_mem _ member))
            (fun char member => rightDigits char (List.mem_cons_of_mem _ member)) same.2]

theorem wholeValue_of_spelled {left right : Decimal}
    (same : numToText left.whole = numToText right.whole) :
    left.wholeValue = right.wholeValue := by
  rcases textToNum_numToText_digits left.wholeDigits left.wholeFilled (wholeValue_lt left) with
    ⟨leftText, leftRan, leftRead⟩
  rcases textToNum_numToText_digits right.wholeDigits right.wholeFilled (wholeValue_lt right) with
    ⟨rightText, rightRan, rightRead⟩
  rw [leftRan, rightRan, Option.some.injEq] at same
  rw [same, rightRead, Option.some.injEq] at leftRead
  exact (Converted.number.inj leftRead).symm

theorem Parts.negative_iff {decimal : Decimal} {words : List Word} (parts : Parts decimal words) :
    decimal.negative = true ↔
      english.negative ∈ decimal.signWords ++ words ++ english.point :: decimal.fractionWords := by
  rw [List.append_assoc, List.mem_append]
  unfold Decimal.signWords
  cases decimal.negative with
  | true => exact iff_of_true rfl (Or.inl List.mem_cons_self)
  | false =>
      refine iff_of_false Bool.false_ne_true ?_
      rintro (inSign | behind)
      · cases inSign
      · exact parts.noNegative behind

/-- Decimals that are spelled in all their parts are told apart by their words. -/
theorem value_of_bothSpelled {left right : Decimal} (leftWhole : left.wholeValue ≠ 0)
    (rightWhole : right.wholeValue ≠ 0) (same : numToText left.text = numToText right.text) :
    left.value = right.value := by
  rcases numToText_decimal_of_ne leftWhole with ⟨leftWords, leftSpelled, leftText, leftParts⟩
  rcases numToText_decimal_of_ne rightWhole with ⟨rightWords, rightSpelled, rightText, rightParts⟩
  rw [leftText, rightText, Option.some.injEq] at same
  have words := join_injective leftParts.clean rightParts.clean same
  have signs : left.negative = right.negative := by
    have told := leftParts.negative_iff
    rw [words, ← rightParts.negative_iff] at told
    exact Bool.eq_iff_iff.mpr told
  have signWords : left.signWords = right.signWords := by
    unfold Decimal.signWords
    rw [signs]
  rw [signWords, List.append_assoc, List.append_assoc] at words
  have parts := List.append_cancel_left words
  have fractionNoPoint : english.point ∉ left.fractionWords :=
    notMem_fractionWords left numwords_point.1
  rcases (List.append_cons_inj_of_notMem leftParts.noPoint fractionNoPoint).mp parts with
    ⟨sameWords, _, sameFraction⟩
  have fraction : left.fraction = right.fraction :=
    fractionWords_injective left.fractionDigits right.fractionDigits sameFraction
  have whole : left.wholeValue = right.wholeValue := by
    apply wholeValue_of_spelled
    rw [leftSpelled, rightSpelled, sameWords]
  unfold Decimal.value
  rw [signs, whole, fraction]

/-- A decimal is spelled in all its parts, differently from every decimal with
another value, and as a plain zero only if it is zero. -/
structure SpelledFaithfully (decimal : Decimal) : Prop where
  faithful : decimal.Faithful
  told : ∀ other : Decimal, numToText other.text = numToText decimal.text →
    other.value = decimal.value
  zero : numToText decimal.text = some english.zero → decimal.value = 0

/-- A decimal is spelled faithfully exactly when its integer part is not zero. -/
theorem numToText_spelledFaithfully_iff (decimal : Decimal) :
    SpelledFaithfully decimal ↔ decimal.wholeValue ≠ 0 := by
  constructor
  · intro spelled zero
    rcases spelled.faithful with ⟨words, whole, text⟩
    unfold Decimal.SpellsWhole at whole
    rw [if_pos zero] at whole
    have clean : ∀ word ∈ words, CleanWord word := by
      rcases whole with rfl | rfl
      · intro word member
        cases member
      · intro word member
        rw [List.mem_singleton.mp member]
        exact cleanWord_signs.2.2
    rw [numToText_decimal, if_pos zero, Option.some.injEq] at text
    exact signedZero_ne clean text
  · intro nonzero
    rcases numToText_decimal_of_ne nonzero with ⟨words, whole, text, parts⟩
    have clean : ∀ word ∈ words, CleanWord word := by
      intro word member
      exact parts.clean word (List.mem_append_left _ (List.mem_append_right _ member))
    constructor
    · refine ⟨words, ?_, text⟩
      unfold Decimal.SpellsWhole
      rw [if_neg nonzero]
      exact whole
    · intro other same
      by_cases zero : other.wholeValue = 0
      · rw [numToText_decimal, if_pos zero, text, Option.some.injEq] at same
        exact absurd same (signedZero_ne clean)
      · exact value_of_bothSpelled zero nonzero same
    · intro zero
      rw [text, Option.some.injEq] at zero
      have plain : join ((zeroPoint '0' rfl).signWords ++ [english.zero]) = english.zero := rfl
      exact absurd (plain.trans zero.symm) (signedZero_ne clean)

/-- A half and a fifth are both spelled as zero. -/
theorem zeroPoint_spelledZero :
    (zeroPoint '5' rfl).text = "0.5".toList ∧ (zeroPoint '2' rfl).text = "0.2".toList ∧
      numToText "0.5".toList = some "zero".toList ∧ numToText "0.2".toList = some "zero".toList ∧
      ¬ SpelledFaithfully (zeroPoint '5' rfl) := by
  refine ⟨rfl, rfl, by decide +kernel, by decide +kernel, ?_⟩
  intro spelled
  have zero : (zeroPoint '5' rfl).value = 0 := spelled.zero (by decide +kernel)
  have half : (zeroPoint '5' rfl).value = 1 / 2 := by
    have whole : (zeroPoint '5' rfl).wholeValue = 0 := rfl
    have fraction : Nat.ofDigitChars 10 (zeroPoint '5' rfl).fraction 0 = 5 := rfl
    have places : (zeroPoint '5' rfl).fraction.length = 1 := rfl
    unfold Decimal.value
    rw [whole, fraction, places]
    norm_num [zeroPoint]
  rw [half] at zero
  norm_num at zero

end Numbers
