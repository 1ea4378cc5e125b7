/-
Where the two spellers agree.

The capital tables have a blank behind NINE and lack one scale word, so that the
later scale words stand one place too early.  Up to blanks the words agree below
the missing scale; the blanks show wherever a NINE is spoken.
-/

import DataSelection.Numbers.TextToNum

namespace Numbers

open WittenBell (Word isSpace split strip join CleanWord split_join)

def upper (text : List Char) : List Char := text.map Char.toUpper

theorem upper_join (words : List Word) : upper (join words) = join (words.map upper) := by
  unfold join upper
  induction words with
  | nil => rfl
  | cons word rest ih =>
      cases rest with
      | nil => simp [List.intercalate_singleton]
      | cons second others =>
          have parted : (word :: second :: others).map (fun text => text.map Char.toUpper) =
              word.map Char.toUpper :: second.map Char.toUpper ::
                others.map (fun text => text.map Char.toUpper) := rfl
          rw [parted, List.intercalate_cons_cons, List.intercalate_cons_cons, List.map_append,
            List.map_append, ih]
          rfl

/-- A word with at most blanks around it. -/
def Padded (word : Word) : Prop := split word = [strip word]

instance (word : Word) : Decidable (Padded word) := inferInstanceAs (Decidable (_ = _))

theorem split_join_padded {words : List Word} (padded : ∀ word ∈ words, Padded word) :
    split (join words) = words.map strip := by
  unfold join
  induction words with
  | nil => rfl
  | cons word rest ih =>
      have first : split word = [strip word] := padded word List.mem_cons_self
      have later := ih (fun other member => padded other (List.mem_cons_of_mem word member))
      cases rest with
      | nil =>
          rw [List.intercalate_singleton]
          exact first
      | cons second others =>
          rw [List.intercalate_cons_cons, List.append_assoc, List.singleton_append, split,
            Library.tokens_append_cons _ _ WittenBell.isSpace_blank]
          exact congrArg₂ (fun left right => left ++ right) first later

theorem length_strip_le (text : List Char) : (strip text).length ≤ text.length := by
  unfold strip
  exact (List.rdropWhile_prefix _ _).length_le.trans (List.dropWhile_sublist _).length_le

theorem length_join_le (words : List Word) :
    (join (words.map strip)).length ≤ (join words).length := by
  unfold join
  induction words with
  | nil => exact Nat.le_refl _
  | cons word rest ih =>
      have first := length_strip_le word
      cases rest with
      | nil =>
          simp only [List.map_cons, List.map_nil, List.intercalate_singleton]
          exact first
      | cons second others =>
          simp only [List.map_cons, List.intercalate_cons_cons, List.length_append] at ih ⊢
          omega

theorem length_join_lt {words : List Word} {long : Word} (member : long ∈ words)
    (blanks : (strip long).length < long.length) :
    (join (words.map strip)).length < (join words).length := by
  induction words with
  | nil => cases member
  | cons word rest ih =>
      have first := length_strip_le word
      have others := length_join_le rest
      unfold join at ih others ⊢
      cases rest with
      | nil =>
          rw [List.mem_singleton.mp member] at blanks
          simp only [List.map_cons, List.map_nil, List.intercalate_singleton]
          exact blanks
      | cons second later =>
          simp only [List.map_cons, List.intercalate_cons_cons, List.length_append] at ih others ⊢
          rcases List.mem_cons.mp member with atHead | inRest
          · rw [atHead] at blanks
            omega
          · have longer := ih inRest
            omega

/-! ### The tables -/

def nineWord : Word := "NINE ".toList

theorem hundreds_strip (h : Fin 10) :
    (spellHundreds capital h).map strip = (spellHundreds english h).map upper := by
  revert h
  decide +kernel

theorem tens_strip (t u : Fin 10) :
    (spellTens capital t u).map strip = (spellTens english t u).map upper := by
  revert t u
  decide +kernel

theorem padded_hundreds (h : Fin 10) : ∀ word ∈ spellHundreds capital h, Padded word := by
  revert h
  decide +kernel

theorem padded_tens (t u : Fin 10) : ∀ word ∈ spellTens capital t u, Padded word := by
  revert t u
  decide +kernel

theorem hundreds_cases (h : Fin 10) :
    if h = 9 then nineWord ∈ spellHundreds capital h
    else spellHundreds capital h = (spellHundreds english h).map upper := by
  revert h
  decide +kernel

theorem tens_cases (t u : Fin 10) :
    if u = 9 ∧ t ≠ 1 then nineWord ∈ spellTens capital t u
    else spellTens capital t u = (spellTens english t u).map upper := by
  revert t u
  decide +kernel

private theorem both_scales (g : Fin 22) (positive : g ≠ 0) :
    english.scale g.val = some [(thousands[g.val]?).getD []] ∧
      CleanWord (upper ((thousands[g.val]?).getD [])) ∧
      (∀ word ∈ (capitalThousands[g.val]?).toList, Padded word) ∧
      ((capitalThousands[g.val]?).toList).length ≤ 1 ∧
      (g.val < 16 → (capitalThousands[g.val]?).toList =
        [upper ((thousands[g.val]?).getD [])]) ∧
      (16 ≤ g.val → ∀ word ∈ (capitalThousands[g.val]?).toList,
        strip word ≠ upper ((thousands[g.val]?).getD [])) := by
  revert g
  decide +kernel

/-! ### One group -/

/-- The words that two spellers add for one group, and how they compare: below the
missing scale they are the same, above it they never match again. -/
structure ScaleAgreement (g m : Nat) (small large : List Word) : Prop where
  clean : ∀ word ∈ small, CleanWord (upper word)
  padded : ∀ word ∈ large, Padded word
  short : large.length ≤ small.length
  same : g < 16 ∨ m = 0 → large = small.map upper
  differ : 16 ≤ g → 0 < m → ∀ left right : List Word, left.length ≤ right.length →
    large.map strip ++ left ≠ small.map upper ++ right

/-- Where the words are the same they have no blanks around them. -/
theorem ScaleAgreement.strip_eq {g m : Nat} {small large : List Word}
    (agreement : ScaleAgreement g m small large) (same : large = small.map upper) :
    large.map strip = small.map upper := by
  rw [same, List.map_map]
  apply List.map_congr_left
  intro word member
  have clean : ∀ other ∈ [upper word], CleanWord other := by
    intro other inSingle
    rw [List.mem_singleton.mp inSingle]
    exact agreement.clean word member
  have single : split (upper word) = [upper word] := by
    have alone := split_join clean
    rwa [join, List.intercalate_singleton] at alone
  have padded := agreement.padded (upper word) (by rw [same]; exact List.mem_map_of_mem member)
  rw [Padded, single] at padded
  exact (List.cons.inj padded).1.symm

theorem scaleAgreement_nil {g m : Nat} (absent : g = 0 ∨ m = 0) : ScaleAgreement g m [] [] := by
  constructor
  · intro word member
    cases member
  · intro word member
    cases member
  · exact Nat.le_refl 0
  · intro _
    rfl
  · intro high positive
    omega

/-- One word against at most one other word: the rest cannot make up for a difference. -/
theorem append_ne_of_single {words left right : List Word} {other : Word}
    (single : words.length ≤ 1) (shorter : left.length ≤ right.length)
    (differ : ∀ word ∈ words, strip word ≠ upper other) :
    words.map strip ++ left ≠ [other].map upper ++ right := by
  intro equal
  have lengths := congrArg List.length equal
  cases words with
  | nil =>
      simp only [List.map_nil, List.nil_append, List.map_cons, List.length_append,
        List.length_cons, List.length_nil] at lengths
      omega
  | cons word others =>
      rw [List.map_cons, List.cons_append, List.map_cons, List.cons_append] at equal
      exact differ word List.mem_cons_self (List.cons.inj equal).1

theorem scaleAgreement {g m : Nat} (bounded : g < 22) (bound : m < 1000) :
    ∃ small large,
      spellScale english g (Fin.ofNat 10 (m / 100)) (Fin.ofNat 10 (m / 10)) (Fin.ofNat 10 m) =
        some small ∧
      spellScale capital g (Fin.ofNat 10 (m / 100)) (Fin.ofNat 10 (m / 10)) (Fin.ofNat 10 m) =
        some large ∧
      ScaleAgreement g m small large := by
  have digits : (Fin.ofNat 10 (m / 100)).val + (Fin.ofNat 10 (m / 10)).val +
      (Fin.ofNat 10 m).val > 0 ↔ 0 < m := by
    simp only [Fin.ofNat]
    omega
  simp only [spellScale, digits]
  by_cases scaled : g ≥ 1 ∧ 0 < m
  · have nonzero : (⟨g, bounded⟩ : Fin 22) ≠ 0 := by
      intro zero
      have same := congrArg Fin.val zero
      simp only [Fin.val_zero] at same
      omega
    rcases both_scales ⟨g, bounded⟩ nonzero with
      ⟨lowercase, clean, padded, single, same, differ⟩
    refine ⟨[(thousands[g]?).getD []], (capitalThousands[g]?).toList, ?_, ?_, ?_⟩
    · rw [if_pos scaled]
      exact lowercase
    · rw [if_pos scaled]
      rfl
    · constructor
      · intro word member
        rw [List.mem_singleton.mp member]
        exact clean
      · exact padded
      · exact single
      · intro low
        rcases low with low | zero
        · exact same low
        · omega
      · intro high _ left right shorter
        exact append_ne_of_single single shorter (differ high)
  · refine ⟨[], [], ?_, ?_, ?_⟩
    · rw [if_neg scaled]
    · rw [if_neg scaled]
    · exact scaleAgreement_nil (by omega)

/-- A NINE is spoken for a group: its hundreds digit is 9, or its units digit is,
except in nineteen. -/
def NineIn (m : Nat) : Prop :=
  m / 100 % 10 = 9 ∨ (m % 10 = 9 ∧ m / 10 % 10 ≠ 1)

instance (m : Nat) : Decidable (NineIn m) := inferInstanceAs (Decidable (_ ∨ _))

def groupWords (vocabulary : Vocabulary) (m : Nat) : List Word :=
  spellHundreds vocabulary (Fin.ofNat 10 (m / 100)) ++
    spellTens vocabulary (Fin.ofNat 10 (m / 10)) (Fin.ofNat 10 m)

theorem groupWords_strip (m : Nat) :
    (groupWords capital m).map strip = (groupWords english m).map upper := by
  unfold groupWords
  rw [List.map_append, List.map_append, hundreds_strip, tens_strip]

theorem padded_groupWords (m : Nat) : ∀ word ∈ groupWords capital m, Padded word := by
  intro word member
  rcases List.mem_append.mp member with inHundreds | inTens
  · exact padded_hundreds _ word inHundreds
  · exact padded_tens _ _ word inTens

theorem groupWords_nine {m : Nat} (nine : NineIn m) : nineWord ∈ groupWords capital m := by
  have hundreds := hundreds_cases (Fin.ofNat 10 (m / 100))
  have tens := tens_cases (Fin.ofNat 10 (m / 10)) (Fin.ofNat 10 m)
  rcases nine with hundred | unit
  · rw [if_pos (Fin.ext hundred)] at hundreds
    exact List.mem_append_left _ hundreds
  · have spoken : Fin.ofNat 10 m = 9 ∧ Fin.ofNat 10 (m / 10) ≠ 1 := by
      constructor
      · exact Fin.ext unit.1
      · intro one
        exact unit.2 (congrArg Fin.val one)
    rw [if_pos spoken] at tens
    exact List.mem_append_right _ tens

theorem groupWords_silent {m : Nat} (silent : ¬ NineIn m) :
    groupWords capital m = (groupWords english m).map upper := by
  have hundreds := hundreds_cases (Fin.ofNat 10 (m / 100))
  have tens := tens_cases (Fin.ofNat 10 (m / 10)) (Fin.ofNat 10 m)
  have noHundred : ¬ Fin.ofNat 10 (m / 100) = 9 := by
    intro nine
    exact silent (Or.inl (congrArg Fin.val nine))
  have noUnit : ¬ (Fin.ofNat 10 m = 9 ∧ Fin.ofNat 10 (m / 10) ≠ 1) := by
    intro nine
    exact silent (Or.inr ⟨congrArg Fin.val nine.1, fun one => nine.2 (Fin.ext one)⟩)
  rw [if_neg noHundred] at hundreds
  rw [if_neg noUnit] at tens
  unfold groupWords
  rw [hundreds, tens, List.map_append]

/-! ### All groups -/

def SpokenNine (n : Nat) : Prop := ∃ k, NineIn (n / 1000 ^ k)

theorem nineIn_mod (m : Nat) : NineIn (m % 1000) ↔ NineIn m := by
  unfold NineIn
  omega

theorem spokenNine_iff {g n : Nat} (bound : n < 1000 ^ (g + 1)) :
    SpokenNine n ↔ NineIn (n / 1000 ^ g) ∨ SpokenNine (n % 1000 ^ g) := by
  have lower : ∀ k, k < g →
      (NineIn (n % 1000 ^ g / 1000 ^ k) ↔ NineIn (n / 1000 ^ k)) := by
    intro k below
    have parts : 1000 ^ g = 1000 ^ k * 1000 ^ (g - k) := by
      rw [← Nat.pow_add]
      congr 1
      omega
    have divides : 1000 ∣ 1000 ^ (g - k) := dvd_pow_self 1000 (by omega)
    rw [parts, Nat.mod_mul_right_div_self, ← nineIn_mod, Nat.mod_mod_of_dvd _ divides, nineIn_mod]
  have quiet : ∀ k m, m < 1000 ^ k → ¬ NineIn (m / 1000 ^ k) := by
    intro k m small
    rw [Nat.div_eq_of_lt small]
    decide
  constructor
  · intro spoken
    rcases spoken with ⟨k, nine⟩
    rcases Nat.lt_trichotomy k g with below | same | above
    · exact Or.inr ⟨k, (lower k below).mpr nine⟩
    · rw [same] at nine
      exact Or.inl nine
    · have small : n < 1000 ^ k :=
        Nat.lt_of_lt_of_le bound (thousand_pow_le above)
      exact absurd nine (quiet k n small)
  · intro either
    rcases either with first | ⟨k, nine⟩
    · exact ⟨g, first⟩
    · by_cases below : k < g
      · exact ⟨k, (lower k below).mp nine⟩
      · have positive := thousand_pow_pos g
        have small : n % 1000 ^ g < 1000 ^ k :=
          Nat.lt_of_lt_of_le (Nat.mod_lt n positive)
            (thousand_pow_le (Nat.le_of_not_lt below))
        exact absurd nine (quiet k _ small)

/-- How the two lists of words for a number compare. -/
structure Agreement (n : Nat) (small large : List Word) : Prop where
  clean : ∀ word ∈ small, CleanWord (upper word)
  padded : ∀ word ∈ large, Padded word
  short : large.length ≤ small.length
  low : large.map strip = small.map upper → n < 1000 ^ 16
  agrees : n < 1000 ^ 16 → large.map strip = small.map upper
  spoken : n < 1000 ^ 16 → SpokenNine n → nineWord ∈ large
  silent : n < 1000 ^ 16 → ¬ SpokenNine n → large = small.map upper

theorem clean_upper_groupWords (m : Nat) :
    ∀ word ∈ groupWords english m, CleanWord (upper word) := by
  have hundreds : ∀ h : Fin 10, ∀ word ∈ spellHundreds english h, CleanWord (upper word) := by
    decide +kernel
  have tens : ∀ t u : Fin 10, ∀ word ∈ spellTens english t u, CleanWord (upper word) := by
    decide +kernel
  intro word member
  rcases List.mem_append.mp member with inHundreds | inTens
  · exact hundreds _ word inHundreds
  · exact tens _ _ word inTens

theorem agreement_zero : Agreement 0 [] [] := by
  have power := thousand_pow_pos 16
  constructor
  · intro word member
    cases member
  · intro word member
    cases member
  · exact Nat.le_refl 0
  · intro _
    exact power
  · intro _
    rfl
  · intro _ spoken
    rcases spoken with ⟨k, nine⟩
    rw [Nat.zero_div] at nine
    exact absurd nine (by decide)
  · intro _ _
    rfl

theorem low_group {g n : Nat} (low : n < 1000 ^ 16) : g < 16 ∨ n / 1000 ^ g = 0 := by
  by_cases high : g < 16
  · exact Or.inl high
  · have power := thousand_pow_le (Nat.le_of_not_lt high)
    exact Or.inr (Nat.div_eq_of_lt (Nat.lt_of_lt_of_le low power))

/-- Words that agree are those of a number below the missing scale. -/
theorem Agreement.low_of_same {g n : Nat} {scale scaleLarge others othersLarge : List Word}
    (bound : n < 1000 ^ (g + 1)) (here : ScaleAgreement g (n / 1000 ^ g) scale scaleLarge)
    (rest : Agreement (n % 1000 ^ g) others othersLarge)
    (same : scaleLarge.map strip ++ othersLarge.map strip =
      scale.map upper ++ others.map upper) : n < 1000 ^ 16 := by
  have positive := thousand_pow_pos g
  have shortRest : (othersLarge.map strip).length ≤ (others.map upper).length := by
    rw [List.length_map, List.length_map]
    exact rest.short
  by_cases zero : n / 1000 ^ g = 0
  · have whole : n % 1000 ^ g = n :=
      Nat.mod_eq_of_lt ((Nat.div_eq_zero_iff.mp zero).resolve_left (Nat.ne_of_gt positive))
    rw [here.strip_eq (here.same (Or.inr zero))] at same
    have low := rest.low (List.append_cancel_left same)
    rwa [whole] at low
  · by_cases high : g < 16
    · exact Nat.lt_of_lt_of_le bound (thousand_pow_le high)
    · exact absurd same
        (here.differ (Nat.le_of_not_lt high) (Nat.pos_of_ne_zero zero) _ _ shortRest)

theorem Agreement.extend {g n : Nat} {scale scaleLarge others othersLarge : List Word}
    (bound : n < 1000 ^ (g + 1)) (here : ScaleAgreement g (n / 1000 ^ g) scale scaleLarge)
    (rest : Agreement (n % 1000 ^ g) others othersLarge) :
    Agreement n (groupWords english (n / 1000 ^ g) ++ scale ++ others)
      (groupWords capital (n / 1000 ^ g) ++ scaleLarge ++ othersLarge) := by
  have below : n % 1000 ^ g ≤ n := Nat.mod_le n _
  have strips := groupWords_strip (n / 1000 ^ g)
  have lengths : (groupWords capital (n / 1000 ^ g)).length =
      (groupWords english (n / 1000 ^ g)).length := by
    have mapped := congrArg List.length strips
    rwa [List.length_map, List.length_map] at mapped
  have joined : n < 1000 ^ 16 → scaleLarge = scale.map upper := fun low =>
    here.same (low_group low)
  constructor
  · have front := List.forall_mem_append.mpr ⟨clean_upper_groupWords (n / 1000 ^ g), here.clean⟩
    exact List.forall_mem_append.mpr ⟨front, rest.clean⟩
  · have front := List.forall_mem_append.mpr ⟨padded_groupWords (n / 1000 ^ g), here.padded⟩
    exact List.forall_mem_append.mpr ⟨front, rest.padded⟩
  · have shortScale := here.short
    have shortRest := rest.short
    simp only [List.length_append]
    omega
  · intro equal
    simp only [List.map_append, strips, List.append_assoc] at equal
    exact Agreement.low_of_same bound here rest (List.append_cancel_left equal)
  · intro low
    simp only [List.map_append, strips, here.strip_eq (joined low),
      rest.agrees (Nat.lt_of_le_of_lt below low)]
  · intro low spoken
    rcases (spokenNine_iff bound).mp spoken with first | later
    · exact List.mem_append_left _ (List.mem_append_left _ (groupWords_nine first))
    · exact List.mem_append_right _ (rest.spoken (Nat.lt_of_le_of_lt below low) later)
  · intro low silent
    have noFirst : ¬ NineIn (n / 1000 ^ g) := fun first =>
      silent ((spokenNine_iff bound).mpr (Or.inl first))
    have noLater : ¬ SpokenNine (n % 1000 ^ g) := fun later =>
      silent ((spokenNine_iff bound).mpr (Or.inr later))
    simp only [List.map_append, groupWords_silent noFirst, joined low,
      rest.silent (Nat.lt_of_le_of_lt below low) noLater]

theorem spellValue_agreement {g n : Nat} (bounded : g ≤ 22) (bound : n < 1000 ^ g) :
    ∃ small large, spellValue english g n = some small ∧ spellValue capital g n = some large ∧
      Agreement n small large := by
  induction g generalizing n with
  | zero =>
      have zero : n = 0 := by
        rw [Nat.pow_zero] at bound
        omega
      rw [zero]
      exact ⟨[], [], rfl, rfl, agreement_zero⟩
  | succ g ih =>
      have positive := thousand_pow_pos g
      have quotient := div_lt_thousand bound
      rcases ih (by omega) (Nat.mod_lt n positive) with
        ⟨others, othersLarge, othersRan, othersLargeRan, rest⟩
      rcases scaleAgreement (g := g) (by omega) quotient with
        ⟨scale, scaleLarge, scaleRan, scaleLargeRan, here⟩
      refine ⟨_, _, ?_, ?_, Agreement.extend bound here rest⟩
      · rw [spellValue, spellGroup, scaleRan, othersRan]
        rfl
      · rw [spellValue, spellGroup, scaleLargeRan, othersLargeRan]
        rfl

theorem Agreement.join_iff {n : Nat} {small large : List Word} (agreement : Agreement n small large) :
    join large = upper (join small) ↔ n < 1000 ^ 16 ∧ ¬ SpokenNine n := by
  have clean : ∀ word ∈ small.map upper, CleanWord word := by
    intro word member
    rcases List.mem_map.mp member with ⟨original, inSmall, rfl⟩
    exact agreement.clean original inSmall
  rw [upper_join]
  constructor
  · intro equal
    have words : large.map strip = small.map upper := by
      rw [← split_join_padded agreement.padded, equal, split_join clean]
    have low := agreement.low words
    refine ⟨low, ?_⟩
    intro spoken
    have longer := length_join_lt (agreement.spoken low spoken) (by decide +kernel)
    rw [words, equal] at longer
    exact Nat.lt_irrefl _ longer
  · intro both
    rw [agreement.silent both.1 both.2]

theorem capitalZero_toDigits (n : Nat) :
    capital.isZero (Nat.toDigits 10 n) = decide (n = 0) := by
  have all := allDigits_toDigits n
  have noPoint : Nat.toDigits 10 n ≠ "0.0".toList := by
    intro same
    rw [same] at all
    have absent : '.' ∉ "0.0".toList := all.absent rfl
    exact absurd (by decide +kernel) absent
  have zero : Nat.toDigits 10 n = "0".toList ↔ n = 0 := by
    constructor
    · intro same
      have value : Nat.ofDigitChars 10 (Nat.toDigits 10 n) 0 = n :=
        Nat.ofDigitChars_ten_toDigits
      rw [same] at value
      rw [← value]
      rfl
    · rintro rfl
      rfl
  change (decide (Nat.toDigits 10 n = "0".toList) || decide (Nat.toDigits 10 n = "0.0".toList)) = _
  rw [decide_eq_false noPoint, Bool.or_false]
  exact decide_eq_decide.mpr zero

theorem numToWordString_digits {digits : List Char} (all : AllDigits digits)
    (filled : digits ≠ []) :
    numToWordString digits =
      (if Nat.ofDigitChars 10 digits 0 = 0 then some [capital.zero]
        else spellValue capital (groupsOf (Nat.ofDigitChars 10 digits 0))
          (Nat.ofDigitChars 10 digits 0)).map join := by
  rw [numToWordString, removeLeadingZeros_digits all filled]
  exact spell_toDigits capital _ (capitalZero_toDigits _)

/-- On strings of at most 66 digits the second speller returns the capitals of the
first exactly for the numbers below `10 ^ 48` in which no NINE is spoken. -/
theorem numToWordString_eq_iff (digits : List Char) (filled : digits ≠ [])
    (all : AllDigits digits) (short : digits.length ≤ 66) :
    ∃ text, numToText digits = some text ∧
      (numToWordString digits = some (upper text) ↔
        Nat.ofDigitChars 10 digits 0 < 10 ^ 48 ∧ ¬ SpokenNine (Nat.ofDigitChars 10 digits 0)) := by
  have small : Nat.ofDigitChars 10 digits 0 < 10 ^ 66 :=
    Nat.lt_of_lt_of_le (ofDigitChars_lt all) (Nat.pow_le_pow_right (by decide) short)
  have powers : (1000 : Nat) ^ 22 = 10 ^ 66 ∧ (1000 : Nat) ^ 16 = 10 ^ 48 := by norm_num
  rw [numToText_digits all filled, numToWordString_digits all filled]
  by_cases zero : Nat.ofDigitChars 10 digits 0 = 0
  · have silent : ¬ SpokenNine 0 := by
      intro spoken
      rcases spoken with ⟨k, nine⟩
      rw [Nat.zero_div] at nine
      exact absurd nine (by decide)
    rw [if_pos zero, if_pos zero, zero]
    refine ⟨_, rfl, ?_⟩
    constructor
    · intro _
      exact ⟨Nat.pow_pos (by decide), silent⟩
    · intro _
      decide +kernel
  · rw [if_neg zero, if_neg zero]
    have groups : groupsOf (Nat.ofDigitChars 10 digits 0) ≤ 22 := by
      rw [groupsOf_le_iff (by decide), powers.1]
      exact small
    rcases spellValue_agreement groups (lt_pow_groupsOf _) with
      ⟨words, large, ran, largeRan, agreement⟩
    rw [ran, largeRan]
    refine ⟨join words, rfl, ?_⟩
    rw [Option.map_some, Option.some.injEq, agreement.join_iff, powers.2]

theorem numToWordString_eq_iff_millions :
    ∃ text, numToText "2305018".toList = some text ∧
      (numToWordString "2305018".toList = some (upper text) ↔
        2305018 < 10 ^ 48 ∧ ¬ SpokenNine 2305018) := by
  have digits : "2305018".toList = Nat.toDigits 10 2305018 := by decide +kernel
  have all : AllDigits "2305018".toList := by
    rw [digits]
    exact allDigits_toDigits 2305018
  have value : Nat.ofDigitChars 10 "2305018".toList 0 = 2305018 := by
    rw [digits]
    exact Nat.ofDigitChars_ten_toDigits
  have spelled := numToWordString_eq_iff "2305018".toList (by decide) all (by decide)
  rwa [value] at spelled

theorem numToWordString_nine :
    (numToText ['9']).map upper = some "NINE".toList ∧
      numToWordString ['9'] = some "NINE ".toList ∧
      numToWordString ['9'] ≠ (numToText ['9']).map upper := by
  decide +kernel

end Numbers
