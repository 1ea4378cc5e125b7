/-
Back-off distributions.

The items seen after a history keep their own probabilities, and the mass that is
left is spread over the other items in proportion to a base distribution.  Counts
that are discounted by the number of seen items always leave some mass.
-/

import Mathlib.Algebra.BigOperators.Field
import Mathlib.Algebra.BigOperators.Ring.Finset
import Mathlib.Algebra.Order.BigOperators.Group.Finset
import Mathlib.Algebra.Order.Field.Basic

namespace Library

section Discount

variable {K ι : Type} [Field K] [LinearOrder K] [IsStrictOrderedRing K]

def discounted (seen : Finset ι) (count : ι → Nat) (total : Nat) (item : ι) : K :=
  (count item : K) / ((total + seen.card : Nat) : K)

variable {seen : Finset ι} {count : ι → Nat} {total : Nat}

theorem discounted_pos {item : ι} (member : item ∈ seen) (positive : 0 < count item) :
    (0 : K) < discounted seen count total item := by
  have card := Finset.card_pos.mpr ⟨item, member⟩
  unfold discounted
  exact div_pos (Nat.cast_pos.mpr positive) (Nat.cast_pos.mpr (Nat.add_pos_right total card))

theorem discounted_le_one {item : ι} (member : item ∈ seen) (le : count item ≤ total) :
    discounted seen count total item ≤ (1 : K) := by
  have card := Finset.card_pos.mpr ⟨item, member⟩
  unfold discounted
  rw [div_le_one (Nat.cast_pos.mpr (Nat.add_pos_right total card)), Nat.cast_le]
  exact le.trans (Nat.le_add_right total _)

/-- The mass that discounting leaves when the counts exhaust the history. -/
theorem left_discounted (nonempty : seen.Nonempty)
    (exhausts : ∑ item ∈ seen, count item = total) :
    1 - ∑ item ∈ seen, discounted seen count total item =
      (seen.card : K) / ((total + seen.card : Nat) : K) := by
  have positive : (0 : K) < ((total + seen.card : Nat) : K) :=
    Nat.cast_pos.mpr (Nat.add_pos_right total nonempty.card_pos)
  unfold discounted
  rw [← Finset.sum_div, ← Nat.cast_sum, exhausts, eq_div_iff positive.ne', sub_mul, one_mul,
    div_mul_cancel₀ _ positive.ne', Nat.cast_add, add_sub_cancel_left]

theorem left_discounted_pos (exhausts : seen.Nonempty → ∑ item ∈ seen, count item = total) :
    (0 : K) < 1 - ∑ item ∈ seen, discounted seen count total item := by
  rcases seen.eq_empty_or_nonempty with rfl | nonempty
  · rw [Finset.sum_empty, sub_zero]
    exact zero_lt_one
  · rw [left_discounted nonempty (exhausts nonempty)]
    exact div_pos (Nat.cast_pos.mpr nonempty.card_pos)
      (Nat.cast_pos.mpr (Nat.add_pos_right total nonempty.card_pos))

end Discount

variable {K ι : Type} [Field K] [DecidableEq ι]

/-- The factor that makes the left mass fit the left part of the base distribution. -/
def backOffWeight (seen : Finset ι) (prob base : ι → K) : K :=
  (1 - ∑ item ∈ seen, prob item) / (1 - ∑ item ∈ seen, base item)

def backOff (seen : Finset ι) (prob base : ι → K) (weight : K) (item : ι) : K :=
  if item ∈ seen then prob item else weight * base item

theorem sum_backOff {vocabulary seen : Finset ι} {prob base : ι → K}
    (inside : seen ⊆ vocabulary) (total : ∑ item ∈ vocabulary, base item = 1)
    (left : 1 - ∑ item ∈ seen, base item ≠ 0) :
    ∑ item ∈ vocabulary, backOff seen prob base (backOffWeight seen prob base) item = 1 := by
  have rest : ∑ item ∈ vocabulary \ seen, base item = 1 - ∑ item ∈ seen, base item := by
    rw [← total, ← Finset.sum_sdiff inside, add_sub_cancel_right]
  have seenPart : ∑ item ∈ seen, backOff seen prob base (backOffWeight seen prob base) item =
      ∑ item ∈ seen, prob item :=
    Finset.sum_congr rfl (fun item member => if_pos member)
  have unseenPart : ∑ item ∈ vocabulary \ seen,
      backOff seen prob base (backOffWeight seen prob base) item =
        backOffWeight seen prob base * ∑ item ∈ vocabulary \ seen, base item := by
    rw [Finset.mul_sum]
    exact Finset.sum_congr rfl (fun item member => if_neg (Finset.mem_sdiff.mp member).2)
  rw [← Finset.sum_sdiff inside, seenPart, unseenPart, rest, backOffWeight,
    div_mul_cancel₀ _ left, sub_add_cancel]

/-- Seen items have mass of their own beside their share of the base distribution. -/
theorem sum_interpolated {vocabulary seen : Finset ι} {prob own base : ι → K} {weight : K}
    (inside : seen ⊆ vocabulary)
    (isSeen : ∀ item ∈ seen, prob item = own item + weight * base item)
    (isUnseen : ∀ item ∈ vocabulary, item ∉ seen → prob item = weight * base item) :
    ∑ item ∈ vocabulary, prob item =
      ∑ item ∈ seen, own item + weight * ∑ item ∈ vocabulary, base item := by
  have rest : ∑ item ∈ vocabulary \ seen, prob item =
      weight * ∑ item ∈ vocabulary \ seen, base item := by
    rw [Finset.mul_sum]
    refine Finset.sum_congr rfl ?_
    intro item member
    obtain ⟨isItem, absent⟩ := Finset.mem_sdiff.mp member
    exact isUnseen item isItem absent
  rw [← Finset.sum_sdiff inside, rest, Finset.sum_congr rfl isSeen, Finset.sum_add_distrib,
    ← Finset.mul_sum, ← Finset.sum_sdiff (f := base) inside, mul_add]
  exact add_left_comm _ _ _

end Library
