/-
Numbers, records and comparisons of the sentence filter.

The filter is modelled over an arbitrary interpretation of `double`, so one
definition serves exact real arithmetic and every rounding arithmetic.  Integer
counters have their machine width, or none where a result idealises them.
-/

import DataSelection.Library.DefaultDict
import DataSelection.Library.PriorityQueue
import Mathlib.Analysis.Real.Sqrt
import Mathlib.Analysis.SpecialFunctions.Log.Basic

namespace Filter

open Library (DefaultDict WeakOrder)

/-- The operations on `double` that the filter uses; nothing is assumed of them. -/
class DoubleArithmetic (R : Type) extends
    Zero R, One R, Add R, Sub R, Mul R, Div R, NatCast R where
  sqrt : R → R
  log : R → R
  lt : R → R → Bool

noncomputable scoped instance exactArithmetic : DoubleArithmetic ℝ :=
  { sqrt := Real.sqrt
    log := Real.log
    lt := fun left right => decide (left < right) }

@[simp] theorem sqrt_exact (x : ℝ) : DoubleArithmetic.sqrt x = Real.sqrt x := rfl

theorem lt_exact (left right : ℝ) : DoubleArithmetic.lt left right = decide (left < right) := rfl

/-- Whether `unsigned char` and `unsigned int` wrap as on the machine. -/
inductive Counters
  | machine
  | unbounded
  deriving DecidableEq

def Counters.uchar : Counters → Nat → Nat
  | .machine, count => count % 2 ^ 8
  | .unbounded, count => count

def Counters.uint : Counters → Nat → Nat
  | .machine, count => count % 2 ^ 32
  | .unbounded, count => count

theorem Counters.uchar_of_lt (counters : Counters) {count : Nat} (small : count < 2 ^ 8) :
    counters.uchar count = count := by
  cases counters with
  | machine => exact Nat.mod_eq_of_lt small
  | unbounded => rfl

theorem Counters.uint_of_lt (counters : Counters) {count : Nat} (small : count < 2 ^ 32) :
    counters.uint count = count := by
  cases counters with
  | machine => exact Nat.mod_eq_of_lt small
  | unbounded => rfl

theorem Counters.uint_le (counters : Counters) (count : Nat) : counters.uint count ≤ count := by
  cases counters with
  | machine => exact Nat.mod_le count _
  | unbounded => exact Nat.le_refl count

theorem Counters.uchar_add (counters : Counters) (count more : Nat) :
    counters.uchar (counters.uchar count + more) = counters.uchar (count + more) := by
  cases counters with
  | machine => exact Nat.mod_add_mod count _ more
  | unbounded => rfl

theorem Counters.uint_add (counters : Counters) (count more : Nat) :
    counters.uint (counters.uint count + more) = counters.uint (count + more) := by
  cases counters with
  | machine => exact Nat.mod_add_mod count _ more
  | unbounded => rfl

abbrev Word := List Char

abbrev Ngram := List Nat

abbrev WordMap := DefaultDict Word Nat

def missingWordId : Nat := 0

def ngramOrder : Nat := 3

def maxSentLength : Nat := 255

/-- The two corpora that features are counted in. -/
inductive CountType
  | seed
  | mined
  deriving DecidableEq

structure Feature (R : Type) where
  seedCount : Nat
  minedCount : Nat
  idf : R
  weight : R
  prevTotalRelevance : R

instance {R : Type} [Zero R] : Inhabited (Feature R) :=
  ⟨{ seedCount := 0, minedCount := 0, idf := 0, weight := 0, prevTotalRelevance := 0 }⟩

/-- Feature pointers are stable for the whole run and are modelled by the keys. -/
abbrev FeatureMap (R : Type) [Zero R] := DefaultDict Ngram (Feature R)

/-- The fields of a sentence that parsing fills and nothing changes later. -/
structure ParsedSentence where
  index : Nat
  features : List Ngram
  counts : List Nat
  length : Nat
  deriving DecidableEq

structure Sentence (R : Type) extends ParsedSentence where
  maxMarginalGain : R

def Sentence.less {R : Type} [DoubleArithmetic R] (left right : Sentence R) : Bool :=
  DoubleArithmetic.lt left.maxMarginalGain right.maxMarginalGain

/-- The comparison of `double` orders like one without NaN. -/
def OrdersDoubles (R : Type) [DoubleArithmetic R] : Prop :=
  WeakOrder (DoubleArithmetic.lt (R := R))

theorem Sentence.less_weakOrder {R : Type} [DoubleArithmetic R] (order : OrdersDoubles R) :
    WeakOrder (Sentence.less (R := R)) :=
  { asymm := fun left right => order.asymm left.maxMarginalGain right.maxMarginalGain
    negTrans := fun left middle right =>
      order.negTrans left.maxMarginalGain middle.maxMarginalGain right.maxMarginalGain }

theorem ordersDoubles_exact : OrdersDoubles ℝ :=
  { asymm := by
      intro left right below
      exact decide_eq_false (lt_asymm (of_decide_eq_true below))
    negTrans := by
      intro left middle right first second
      have firstLe := not_lt.mp (of_decide_eq_false first)
      have secondLe := not_lt.mp (of_decide_eq_false second)
      exact decide_eq_false (not_lt.mpr (secondLe.trans firstLe)) }

end Filter
