/-
Real numbers with one value for everything that is not a finite number.

A quotient by zero, the logarithm of a number that is not positive and the square
root of a negative number are undefined, and so is all that is computed from them.
-/

import Mathlib.Data.Real.Basic

namespace Library

inductive Checked where
  | number (x : ℝ)
  | undefined

namespace Checked

noncomputable def lift (operation : ℝ → ℝ → ℝ) : Checked → Checked → Checked
  | number left, number right => number (operation left right)
  | _, _ => undefined

noncomputable def divide : Checked → Checked → Checked
  | number left, number right => if right = 0 then undefined else number (left / right)
  | _, _ => undefined

open scoped Classical in
/-- A function that is defined only on a part of the reals. -/
noncomputable def partially (domain : ℝ → Prop) (operation : ℝ → ℝ) : Checked → Checked
  | number x => if domain x then number (operation x) else undefined
  | undefined => undefined

/-- No comparison with an undefined value holds. -/
noncomputable def lt : Checked → Checked → Bool
  | number left, number right => decide (left < right)
  | _, _ => false

noncomputable instance : Zero Checked := ⟨number 0⟩
noncomputable instance : One Checked := ⟨number 1⟩
noncomputable instance : Add Checked := ⟨lift (· + ·)⟩
noncomputable instance : Sub Checked := ⟨lift (· - ·)⟩
noncomputable instance : Mul Checked := ⟨lift (· * ·)⟩
noncomputable instance : Div Checked := ⟨divide⟩
noncomputable instance : NatCast Checked := ⟨fun n => number n⟩

theorem natCast_eq (n : Nat) : (n : Checked) = number n := rfl

theorem number_add (left right : ℝ) : number left + number right = number (left + right) := rfl

theorem number_mul (left right : ℝ) : number left * number right = number (left * right) := rfl

theorem number_div {left right : ℝ} (nonzero : right ≠ 0) :
    number left / number right = number (left / right) := if_neg nonzero

theorem div_zero (left : ℝ) : number left / number 0 = undefined := if_pos rfl

theorem partially_number {domain : ℝ → Prop} {operation : ℝ → ℝ} {x : ℝ} (inside : domain x) :
    partially domain operation (number x) = number (operation x) := if_pos inside

theorem partially_eq_number_iff {domain : ℝ → Prop} {operation : ℝ → ℝ} {x y : ℝ} :
    partially domain operation (number x) = number y ↔ domain x ∧ operation x = y := by
  unfold partially
  by_cases inside : domain x
  · simp [inside]
  · simp [inside]

theorem iterate_add_one (steps : Nat) : (· + 1)^[steps] (0 : Checked) = number steps := by
  induction steps with
  | zero =>
      rw [Function.iterate_zero_apply, Nat.cast_zero]
      rfl
  | succ steps ih =>
      rw [Function.iterate_succ_apply', ih, Nat.cast_succ]
      rfl

end Checked

end Library
