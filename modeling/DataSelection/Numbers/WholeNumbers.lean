/-
Spelling the decimal digits of a natural number.

On a string of digits both spellers depend on the number it stands for only.  The
loop over groups of characters is restated as a loop over the number itself.
-/

import Mathlib.Algebra.Order.Group.Nat
import Mathlib.Tactic.Ring
import DataSelection.Numbers.Speller

namespace Numbers

open Library (find upTo find_of_absent)
open WittenBell (Word isSpace split strip join)

def AllDigits (digits : List Char) : Prop := ∀ char ∈ digits, char.isDigit = true

theorem allDigits_toDigits (n : Nat) : AllDigits (Nat.toDigits 10 n) := by
  intro char member
  exact Nat.isDigit_of_mem_toDigits (by decide) (by decide) member

theorem AllDigits.absent {digits : List Char} (all : AllDigits digits) {char : Char}
    (other : char.isDigit = false) : char ∉ digits := by
  intro member
  rw [all char member] at other
  cases other

theorem isDigit_bounds {char : Char} (isDigit : char.isDigit = true) :
    48 ≤ char.toNat ∧ char.toNat ≤ 57 := by
  exact Char.isDigit_iff_toNat.mp isDigit

theorem digit_eq {char : Char} (isDigit : char.isDigit = true) :
    digit char = some (Fin.ofNat 10 (char.toNat - 48)) := by
  rw [digit, if_pos isDigit]
  rfl

theorem isSpace_of_isDigit {char : Char} (isDigit : char.isDigit = true) :
    isSpace char = false := by
  have bounds := isDigit_bounds isDigit
  unfold isSpace
  rw [decide_eq_false_iff_not]
  intro member
  simp only [List.mem_cons, List.not_mem_nil, or_false] at member
  rcases member with same | same | same | same | same | same <;>
    subst same <;> simp at bounds

theorem ofDigitChars_lt {digits : List Char} (all : AllDigits digits) :
    Nat.ofDigitChars 10 digits 0 < 10 ^ digits.length := by
  induction digits with
  | nil => simp
  | cons char digits ih =>
      have bounds := isDigit_bounds (all char List.mem_cons_self)
      have rest := ih (fun other member => all other (List.mem_cons_of_mem char member))
      rw [Nat.ofDigitChars_cons, Nat.ofDigitChars_eq_ofDigitChars_zero, List.length_cons,
        Nat.pow_succ]
      have small : 10 * 0 + (char.toNat - '0'.toNat) ≤ 9 := by
        change 10 * 0 + (char.toNat - 48) ≤ 9
        omega
      have scaled := Nat.mul_le_mul_left (10 ^ digits.length) small
      omega

theorem strip_digits {digits : List Char} (all : AllDigits digits) : strip digits = digits := by
  have clean : ∀ char ∈ digits, isSpace char = false := by
    intro char member
    exact isSpace_of_isDigit (all char member)
  have front : digits.dropWhile isSpace = digits := by
    cases digits with
    | nil => rfl
    | cons char rest =>
        rw [List.dropWhile_cons, clean char List.mem_cons_self]
        rfl
  unfold strip
  rw [front, List.rdropWhile_eq_self_iff]
  intro filled
  rw [clean _ (List.getLast_mem filled)]
  simp

theorem int_digits {digits : List Char} (all : AllDigits digits) (filled : digits ≠ []) :
    int digits = some (Nat.ofDigitChars 10 digits 0 : Int) := by
  have noMinus : '-' ∉ digits := all.absent rfl
  have noPlus : '+' ∉ digits := all.absent rfl
  have value : natural digits = some (Nat.ofDigitChars 10 digits 0) := by
    rw [natural, if_neg filled, if_pos (List.all_eq_true.mpr all)]
  unfold int
  rw [strip_digits all]
  split
  · simp at noMinus
  · simp at noPlus
  · rw [value]
    rfl

theorem removeCommas_absent {text : List Char} (absent : ',' ∉ text) (previous : Char) :
    removeCommas previous text = text := by
  induction text generalizing previous with
  | nil => rfl
  | cons char text ih =>
      rcases not_or.mp (fun either => absent (List.mem_cons.mpr either)) with ⟨different, later⟩
      cases text with
      | nil => rfl
      | cons next others =>
          have noComma : char ≠ ',' := fun same => different same.symm
          rw [removeCommas, if_neg (by simp [noComma]), ih later]

theorem removeCommas_digits {digits : List Char} (all : AllDigits digits) (previous : Char) :
    removeCommas previous digits = digits := removeCommas_absent (all.absent rfl) previous

theorem removeLeadingZeros_digits {digits : List Char} (all : AllDigits digits)
    (filled : digits ≠ []) :
    removeLeadingZeros digits = some (Nat.toDigits 10 (Nat.ofDigitChars 10 digits 0)) := by
  have noPoint : find digits ['.'] = -1 := find_of_absent (all.absent rfl)
  have noMinus : find digits ['-'] = -1 := find_of_absent (all.absent rfl)
  unfold removeLeadingZeros
  simp only [noPoint, noMinus]
  norm_num
  rw [int_digits all filled]
  rfl

/-! ### Groups of three digits -/

theorem thousand_pow_pos (g : Nat) : 0 < 1000 ^ g := Nat.pow_pos (Nat.succ_pos 999)

theorem thousand_pow_le {g k : Nat} (fewer : g ≤ k) : 1000 ^ g ≤ 1000 ^ k :=
  Nat.pow_le_pow_right (Nat.succ_pos 999) fewer

theorem div_lt_thousand {g n : Nat} (bound : n < 1000 ^ (g + 1)) : n / 1000 ^ g < 1000 := by
  rw [Nat.div_lt_iff_lt_mul (thousand_pow_pos g), Nat.mul_comm, ← Nat.pow_succ]
  exact bound

/-- The loop over the groups of a number below `1000 ^ groups`. -/
def spellValue (vocabulary : Vocabulary) : Nat → Nat → Option (List Word)
  | 0, _ => some []
  | g + 1, n => do
      let here ← spellGroup vocabulary g (Fin.ofNat 10 (n / 1000 ^ g / 100))
        (Fin.ofNat 10 (n / 1000 ^ g / 10)) (Fin.ofNat 10 (n / 1000 ^ g))
      let others ← spellValue vocabulary g (n % 1000 ^ g)
      some (here ++ others)

theorem spellValue_succ (vocabulary : Vocabulary) {g n : Nat} (small : n < 1000 ^ g) :
    spellValue vocabulary (g + 1) n = spellValue vocabulary g n := by
  have silent : spellGroup vocabulary g 0 0 0 = some [] := by
    have noScale : ¬ (g ≥ 1 ∧ (0 : Fin 10).val + (0 : Fin 10).val + (0 : Fin 10).val > 0) :=
      fun both => absurd both.2 (by decide)
    unfold spellGroup spellScale
    rw [if_neg noScale]
    rfl
  rw [spellValue, Nat.div_eq_of_lt small, Nat.mod_eq_of_lt small]
  change ((spellGroup vocabulary g 0 0 0).bind fun here =>
    (spellValue vocabulary g n).bind fun others => some (here ++ others)) = _
  rw [silent, Option.bind_some]
  exact Option.bind_fun_some _

theorem spellValue_of_le (vocabulary : Vocabulary) {g k n : Nat} (small : n < 1000 ^ g)
    (fewer : g ≤ k) : spellValue vocabulary k n = spellValue vocabulary g n := by
  induction k, fewer using Nat.le_induction with
  | base => rfl
  | succ k fewer ih =>
      have wider := thousand_pow_le fewer
      rw [spellValue_succ vocabulary (Nat.lt_of_lt_of_le small wider), ih]

theorem ofNat_digits {a b c : Nat} (boundB : b < 10) (boundC : c < 10) :
    Fin.ofNat 10 ((100 * a + 10 * b + c) / 100) = Fin.ofNat 10 a ∧
      Fin.ofNat 10 ((100 * a + 10 * b + c) / 10) = Fin.ofNat 10 b ∧
      Fin.ofNat 10 (100 * a + 10 * b + c) = Fin.ofNat 10 c := by
  refine ⟨Fin.ext ?_, Fin.ext ?_, Fin.ext ?_⟩
  all_goals
    simp only [Fin.ofNat]
    omega

theorem spellGroups_eq (vocabulary : Vocabulary) (g : Nat) (digits : List Char)
    (all : AllDigits digits) (length : digits.length = 3 * g) :
    spellGroups vocabulary g digits =
      spellValue vocabulary g (Nat.ofDigitChars 10 digits 0) := by
  induction g generalizing digits with
  | zero => rfl
  | succ g ih =>
      match digits, all, length with
      | a :: b :: c :: rest, all, length =>
          simp only [List.length_cons] at length
          have restDigits : AllDigits rest := by
            intro char member
            apply all
            simp [member]
          have boundA := isDigit_bounds (all a (by simp))
          have boundB := isDigit_bounds (all b (by simp))
          have boundC := isDigit_bounds (all c (by simp))
          have small := ofDigitChars_lt restDigits
          have width : rest.length = 3 * g := by omega
          have power : 10 ^ rest.length = 1000 ^ g := by
            rw [width, Nat.pow_mul]
          rw [power] at small
          have value : Nat.ofDigitChars 10 (a :: b :: c :: rest) 0 =
              1000 ^ g * (100 * (a.toNat - 48) + 10 * (b.toNat - 48) + (c.toNat - 48)) +
                Nat.ofDigitChars 10 rest 0 := by
            rw [Nat.ofDigitChars_cons, Nat.ofDigitChars_cons, Nat.ofDigitChars_cons,
              Nat.ofDigitChars_eq_ofDigitChars_zero, power]
            change 1000 ^ g * (10 * (10 * (10 * 0 + (a.toNat - 48)) + (b.toNat - 48)) +
              (c.toNat - 48)) + _ = _
            congr 2
            ring
          have positive := thousand_pow_pos g
          have quotient : Nat.ofDigitChars 10 (a :: b :: c :: rest) 0 / 1000 ^ g =
              100 * (a.toNat - 48) + 10 * (b.toNat - 48) + (c.toNat - 48) := by
            rw [value, Nat.mul_add_div positive, Nat.div_eq_of_lt small, Nat.add_zero]
          have remainder : Nat.ofDigitChars 10 (a :: b :: c :: rest) 0 % 1000 ^ g =
              Nat.ofDigitChars 10 rest 0 := by
            rw [value, Nat.mul_add_mod, Nat.mod_eq_of_lt small]
          have tens : b.toNat - 48 < 10 := by omega
          have ones : c.toNat - 48 < 10 := by omega
          have digits := ofNat_digits tens ones (a := a.toNat - 48)
          rw [spellGroups, spellValue, digit_eq (all a (by simp)), digit_eq (all b (by simp)),
            digit_eq (all c (by simp)), ih rest restDigits width, quotient, digits.1, digits.2.1,
            digits.2.2, remainder]
          rfl

def groupsOf (n : Nat) : Nat := ((Nat.toDigits 10 n).length + 2) / 3

theorem lt_pow_groupsOf (n : Nat) : n < 1000 ^ groupsOf n := by
  have positive : 0 < (Nat.toDigits 10 n).length := Nat.length_toDigits_pos
  have bound := (Nat.length_toDigits_le_iff (n := n) (b := 10) (by decide) positive).mp
    (Nat.le_refl _)
  have wider : (Nat.toDigits 10 n).length ≤ 3 * groupsOf n := by
    unfold groupsOf
    omega
  have power : (10 : Nat) ^ (3 * groupsOf n) = 1000 ^ groupsOf n := by
    rw [Nat.pow_mul]
  rw [← power]
  exact Nat.lt_of_lt_of_le bound (Nat.pow_le_pow_right (by decide) wider)

theorem groupsOf_le_iff {n g : Nat} (positive : 0 < g) : groupsOf n ≤ g ↔ n < 1000 ^ g := by
  have bound := Nat.length_toDigits_le_iff (n := n) (b := 10) (k := 3 * g) (by decide) (by omega)
  have power : (10 : Nat) ^ (3 * g) = 1000 ^ g := by
    rw [Nat.pow_mul]
  rw [power] at bound
  rw [← bound]
  unfold groupsOf
  omega

theorem zfill_digits {digits : List Char} (all : AllDigits digits) (width : Nat) :
    zfill digits width = List.replicate (width - digits.length) '0' ++ digits := by
  have noMinus : '-' ∉ digits := all.absent rfl
  have noPlus : '+' ∉ digits := all.absent rfl
  unfold zfill
  split
  · simp at noMinus
  · simp at noPlus
  · rfl

theorem spellGroups_toDigits (vocabulary : Vocabulary) (n : Nat) :
    spellGroups vocabulary (groupsOf n) (zfill (Nat.toDigits 10 n) (groupsOf n * 3)) =
      spellValue vocabulary (groupsOf n) n := by
  have all := allDigits_toDigits n
  have padded : AllDigits (List.replicate (groupsOf n * 3 - (Nat.toDigits 10 n).length) '0' ++
      Nat.toDigits 10 n) := by
    intro char member
    rcases List.mem_append.mp member with front | back
    · rw [List.eq_of_mem_replicate front]
      rfl
    · exact all char back
  have length : (List.replicate (groupsOf n * 3 - (Nat.toDigits 10 n).length) '0' ++
      Nat.toDigits 10 n).length = 3 * groupsOf n := by
    rw [List.length_append, List.length_replicate]
    unfold groupsOf
    omega
  have value : Nat.ofDigitChars 10 (List.replicate
      (groupsOf n * 3 - (Nat.toDigits 10 n).length) '0' ++ Nat.toDigits 10 n) 0 = n := by
    rw [Nat.ofDigitChars_append, Nat.ofDigitChars_replicate_zero, Nat.mul_zero,
      Nat.ofDigitChars_ten_toDigits]
  have spelled := spellGroups_eq vocabulary (groupsOf n) _ padded length
  rw [value, ← zfill_digits all] at spelled
  exact spelled

theorem spellDigits_toDigits (vocabulary : Vocabulary) (n : Nat) :
    spellDigits vocabulary (Nat.toDigits 10 n) = spellValue vocabulary (groupsOf n) n := by
  have all := allDigits_toDigits n
  have noPoint : find (Nat.toDigits 10 n) ['.'] = -1 := find_of_absent (all.absent rfl)
  unfold spellDigits
  simp only [noPoint]
  norm_num
  change (do
    let words ← spellGroups vocabulary (groupsOf n)
      (zfill (Nat.toDigits 10 n) (groupsOf n * 3))
    let decimals ← spellDecimals vocabulary []
    some (words ++ decimals)) = _
  rw [spellGroups_toDigits]
  simp [spellDecimals]

theorem spell_toDigits (vocabulary : Vocabulary) (n : Nat)
    (zero : vocabulary.isZero (Nat.toDigits 10 n) = decide (n = 0)) :
    spell vocabulary (Nat.toDigits 10 n) =
      (if n = 0 then some [vocabulary.zero]
        else spellValue vocabulary (groupsOf n) n).map join := by
  have noMinus : '-' ∉ Nat.toDigits 10 n := (allDigits_toDigits n).absent rfl
  unfold spell
  split
  · rename_i empty
    exact absurd empty Nat.toDigits_ne_nil
  · rename_i rest signed
    rw [signed] at noMinus
    simp at noMinus
  · unfold spellUnsigned
    rw [zero, spellDigits_toDigits]
    simp

end Numbers
