/-
The incremental relative-entropy filter.

The filter holds the trigram counts of the seed text and those of the text
selected so far.  A sentence is kept when the growth of the text costs less than
the weighted improvement of the counts of the sentence's trigrams.
-/

import DataSelection.Library.Tally
import DataSelection.Library.Windows
import DataSelection.WittenBell.Corpus
import Mathlib.Analysis.SpecialFunctions.Log.Base

namespace EntropyFilter

open Library
open WittenBell (Word isSpace split strip readLines split_strip)

abbrev Gram := List Word

abbrev Counts := Tally Gram

/-- The operations on `float` that the filter uses; nothing is assumed of them. -/
class FloatArithmetic (R : Type) extends Zero R, Add R, Mul R, Div R, NatCast R where
  log10 : R → R
  lt : R → R → Bool

noncomputable scoped instance exactArithmetic : FloatArithmetic ℝ :=
  { log10 := Real.logb 10
    lt := fun left right => decide (left < right) }

theorem log10_exact (x : ℝ) : FloatArithmetic.log10 x = Real.log x / Real.log 10 := rfl

theorem lt_exact (left right : ℝ) : FloatArithmetic.lt left right = decide (left < right) := rfl

/-- The order in which a dictionary with the given keys is traversed. -/
structure TraversalOrder where
  order : List Gram → List Gram
  perm : ∀ keys, (order keys).Perm keys

def rstrip (text : List Char) : List Char := text.rdropWhile isSpace

def countGrams (n : Nat) (ngrams : Counts) (words : List Word) : Counts :=
  ngrams.incrementAll (windows n words)

def getCounts (content : List Char) (n : Nat) : Counts :=
  (readLines (content.length + 1) content).foldl
    (fun ngrams line => countGrams n ngrams (split (rstrip line))) DefaultDict.empty

def getTotalCount (dict : Counts) : Nat :=
  ((dict.keys.map (fun gram => (gram, dict.value gram))).mergeSort
    (fun left right => right.2 ≤ left.2)).foldl (fun ct entry => ct + entry.2) 0

def getDictCtSafe (dict : Counts) (entry : Gram) : Nat :=
  if entry ∈ dict.keys then dict.value entry else 0

section Arithmetic

variable {R : Type} [FloatArithmetic R]

/-- The division of `float`, which raises for a zero divisor. -/
def divide (numerator : R) (denominator : Nat) : Option R :=
  if denominator = 0 then none else some (numerator / (denominator : R))

def T1 (tuning_parameter : R) (N len : Nat) : Option R := do
  let growth ← divide ((N + len : Nat) : R) N
  let threshold ← divide (tuning_parameter * (len : R)) N
  some (FloatArithmetic.log10 growth + threshold)

/-- One turn of the loop that adds up the improvement. -/
def improve (P W grams : Counts) (T2 : R) (gram : Gram) : Option R :=
  if gram ∈ W.keys then do
    let improvement ← divide ((W.value gram + grams.value gram : Nat) : R) (W.value gram)
    some (T2 + FloatArithmetic.log10 improvement * (getDictCtSafe P gram : R))
  else some T2

def T2 (traversal : TraversalOrder) (P W grams : Counts) : Option R :=
  (traversal.order grams.keys).foldlM (improve P W grams) 0

/-- The test of a sentence against the counts; a division by zero raises. -/
def keeps (traversal : TraversalOrder) (tuning_parameter : R) (P W : Counts) (N n : Nat)
    (words : List Word) : Option Bool := do
  let t_one ← T1 tuning_parameter N words.length
  let t_two ← T2 traversal P W (countGrams n DefaultDict.empty words)
  some (FloatArithmetic.lt t_one t_two)

end Arithmetic

structure State where
  W : Counts
  N : Nat
  num_added : Nat
  printed : List (List Char)

def State.add (n : Nat) (traversal : TraversalOrder) (state : State) (sentence : List Char) :
    State :=
  { W := state.W.incrementAll
      (traversal.order (countGrams n DefaultDict.empty (split (strip sentence))).keys)
    N := state.N + (split (strip sentence)).length
    num_added := state.num_added + 1
    printed := state.printed ++ [strip sentence] }

def start (seed_file : List Char) (n : Nat) : State :=
  { W := getCounts seed_file n
    N := getTotalCount (getCounts seed_file n)
    num_added := 0
    printed := [] }

section Run

variable {R : Type} [FloatArithmetic R]

def process (traversal : TraversalOrder) (tuning_parameter : R) (P : Counts) (n : Nat)
    (state : State) (sentence : List Char) : Option State := do
  let kept ← keeps traversal tuning_parameter P state.W state.N n (split (strip sentence))
  if kept then some (state.add n traversal sentence) else some state

def incrementalFilter (traversal : TraversalOrder) (seed_file : List Char)
    (tuning_parameter : R) (n : Nat) (sentences : List (List Char)) : Option State :=
  sentences.foldlM (process traversal tuning_parameter (getCounts seed_file n) n)
    (start seed_file n)

end Run

end EntropyFilter
