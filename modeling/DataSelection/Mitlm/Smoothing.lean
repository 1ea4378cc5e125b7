/-
Kneser-Ney smoothing.

Below the last order an n-gram is counted once for each n-gram that backs off to it.  Each order
takes discounts off its counts, and gives each history what was taken from its n-grams as the
weight of the order below.  All numbers are rationals here and doubles in the toolkit; a quotient of
zeros, which is NaN there, is no number.
-/

import DataSelection.Library.Binning
import DataSelection.Mitlm.NgramModel
import Mathlib.Algebra.Order.Field.Rat

namespace Mitlm

open Library

/-- How many discounts an order has, and whether they are parameters. -/
structure KneserNeySmoothing where
  discOrder : Nat
  tuneParams : Bool

namespace KneserNeySmoothing

/-! ### Counts -/

/-- The n-grams of the next order behind each n-gram that they back off to. -/
def leftBranches (size : Nat) (hoCounts hoBackoffs : List Nat) : List Nat :=
  (hoCounts.zip hoBackoffs).foldl
    (fun effCounts pair => if pair.1 > 0 then effCounts.modify pair.2 (· + 1) else effCounts)
    (List.replicate size 0)

/-- The counts of the last order are its own, and so are those of n-grams without left context. -/
def effCounts (level : Level) : Option (Level × List Nat) → List Nat
  | some (hoLevel, hoBackoffs) =>
      List.zipWith (fun effCount count => if effCount = 0 then count else effCount)
        (leftBranches level.vector.size hoLevel.counts hoBackoffs) level.counts
  | none => level.counts

/-- The inverse of the sum of the counts of each history. -/
def invHistCounts (lowerSize : Nat) (hists effCounts : List Nat) : List Rat :=
  (binWeight hists effCounts (List.replicate lowerSize 0)).map
    (fun histCount : Nat => if histCount = 0 then 0 else 1 / (histCount : Rat))

/-- Counts that lie behind the last bin are left out. -/
def binClippedCount (values bins : List Nat) : List Nat :=
  values.foldl (fun bins value => bins.modify value (· + 1)) bins

/-! ### Discounts -/

/-- The discount of the count `i`, from how many n-grams have the counts around it.  It is NaN where
`Y` is: a comparison with NaN fails, so that it is not clipped. -/
def discParam (n : List Nat) (i : Nat) : Option Rat :=
  if n.getD i 0 = 0 then some i
  else if n.getD 1 0 + 2 * n.getD 2 0 = 0 then none
  else
    let Y : Rat := n.getD 1 0 / (n.getD 1 0 + 2 * n.getD 2 0)
    let disc : Rat := i - (i + 1) * Y * n.getD (i + 1) 0 / n.getD i 0
    let disc := if disc < 0 then 0 else disc
    some (if disc > i then i else disc)

structure Initialized where
  hists : List Nat
  backoffs : List Nat
  effCounts : List Nat
  invHistCounts : List Rat
  discParams : List (Option Rat)

variable (smoothing : KneserNeySmoothing)

def initializeOrder (lowerSize : Nat) (level : Level) (backoffs : List Nat)
    (higher : Option (Level × List Nat)) : Initialized :=
  let hists := level.hists
  let counts := effCounts level higher
  let n := binClippedCount counts (List.replicate (smoothing.discOrder + 2) 0)
  { hists := hists
    backoffs := backoffs
    effCounts := counts
    invHistCounts := invHistCounts lowerSize hists counts
    discParams := some 0 :: (List.range smoothing.discOrder).map (fun i => discParam n (i + 1)) }

def numParams : Nat := if smoothing.tuneParams then smoothing.discOrder else 0

def defParams (initialized : Initialized) : List (Option Rat) :=
  if smoothing.tuneParams then initialized.discParams.drop 1 else []

def isInBounds (params : List Rat) : Bool :=
  (List.range smoothing.discOrder).all
    (fun i => !decide (params.getD i 0 < 0) && !decide (params.getD i 0 > (i : Rat) + 1))

def unpack (initialized : Initialized) (params : List Rat) : Option (List (Option Rat)) :=
  if smoothing.tuneParams then
    if smoothing.isInBounds params then
      some (some 0 :: (List.range smoothing.discOrder).map (fun i => some (params.getD i 0)))
    else none
  else some initialized.discParams

/-! ### Estimation -/

/-- The discount of each n-gram, if all of them are numbers; the largest counts share the last one. -/
def discounts (discParams : List (Option Rat)) (effCounts : List Nat) : Option (List Rat) :=
  effCounts.mapM (fun effCount => discParams.getD (min effCount smoothing.discOrder) none)

/-- A history without counts leaves everything to the order below. -/
def backoffWeights (initialized : Initialized) (discounts : List Rat) : List Rat :=
  List.zipWith (fun invHistCount discount => if invHistCount = 0 then 1 else discount * invHistCount)
    initialized.invHistCounts
    (binWeight initialized.hists discounts (List.replicate initialized.invHistCounts.length 0))

/-- The interpolated probability of an n-gram; a word without counts has none. -/
def interpolate (isUnigram : Bool) (initialized : Initialized) (discounts boProbs bows : List Rat)
    (index : Nat) : Rat :=
  let hist := initialized.hists.getD index 0
  let effCount := initialized.effCounts.getD index 0
  let own :=
    if effCount = 0 then 0
    else (effCount - discounts.getD index 0) * initialized.invHistCounts.getD hist 0
  let backoff := boProbs.getD (initialized.backoffs.getD index 0) 0 * bows.getD hist 0
  if isUnigram && effCount = 0 then 0 else own + backoff

/-- The discounts that are no parameters are numbers. -/
def IsDefined (initialized : Initialized) : Prop :=
  smoothing.tuneParams = false →
    (smoothing.discounts initialized.discParams initialized.effCounts).isSome

/-- The probabilities of an order, and the backoff weights of its histories.  There are none for
parameters out of bounds, which end the estimation.  Nor are there for a discount that is NaN, but
then the estimation goes on with what is no number. -/
def estimate (isUnigram : Bool) (initialized : Initialized) (params boProbs : List Rat) :
    Option (List Rat × List Rat) := do
  let discParams ← smoothing.unpack initialized params
  let discounts ← smoothing.discounts discParams initialized.effCounts
  let bows := backoffWeights initialized discounts
  some ((List.range initialized.effCounts.length).map
    (interpolate isUnigram initialized discounts boProbs bows), bows)

end KneserNeySmoothing

/-! ### Models -/

/-- The probabilities are those of the orders from 0 on, and each order but the last has backoff
weights. -/
structure NgramLM where
  model : NgramModel
  probVectors : List (List Rat)
  bowVectors : List (List Rat)

def nextOrder : List Level → List (List Nat) → Option (Level × List Nat)
  | level :: _, backoffs :: _ => some (level, backoffs)
  | _, _ => none

/-- The parameters of all orders follow one another. -/
def estimateLevels : Bool → Nat → List Rat → List Level → List (List Nat) →
    List KneserNeySmoothing → List Rat → Option (List (List Rat × List Rat))
  | _, _, _, [], _, _, _ => some []
  | isUnigram, lowerSize, boProbs, level :: levels, backoffs :: later, smoothing :: smoothings,
      params => do
      let initialized := smoothing.initializeOrder lowerSize level backoffs (nextOrder levels later)
      let (probs, bows) ←
        smoothing.estimate isUnigram initialized (params.take smoothing.numParams) boProbs
      let higher ← estimateLevels false level.vector.size probs levels later smoothings
        (params.drop smoothing.numParams)
      some ((probs, bows) :: higher)
  | _, _, _, _ :: _, _, _, _ => none

def defaultParams : Nat → List Level → List (List Nat) → List KneserNeySmoothing → List (Option Rat)
  | lowerSize, level :: levels, backoffs :: later, smoothing :: smoothings =>
      smoothing.defParams
          (smoothing.initializeOrder lowerSize level backoffs (nextOrder levels later)) ++
        defaultParams level.vector.size levels later smoothings
  | _, _, _, _ => []

/-- What goes into the estimations of all orders is numbers. -/
def LevelsDefined : Nat → List Level → List (List Nat) → List KneserNeySmoothing → Prop
  | lowerSize, level :: levels, backoffs :: later, smoothing :: smoothings =>
      smoothing.IsDefined
          (smoothing.initializeOrder lowerSize level backoffs (nextOrder levels later)) ∧
        LevelsDefined level.vector.size levels later smoothings
  | _, _, _, _ => True

/-- Without a fixed vocabulary all words that are counted are equally likely in order 0. -/
def zeroProb (model : NgramModel) : Option Rat := do
  let unigrams ← model.levels.head?
  let known := unigrams.counts.countP (fun count => count > 0)
  if known = 0 then none else some (1 / (known : Rat))

namespace NgramLM

/-- Whether an estimation comes to its end. -/
def accepts : List KneserNeySmoothing → List Rat → Bool
  | [], _ => true
  | smoothing :: smoothings, params =>
      (!smoothing.tuneParams || smoothing.isInBounds (params.take smoothing.numParams)) &&
        accepts smoothings (params.drop smoothing.numParams)

def inView (model : NgramModel) : Bool :=
  model.levels.all (fun level => decide (level.hists.length = level.vector.size))

/-- Initializing an order asserts that it has as many histories as counts; then the probability of
order 0 is set. -/
def setSmoothingAlgs (model : NgramModel) : Option Rat :=
  if inView model then zeroProb model else none

def estimate (model : NgramModel) (smoothings : List KneserNeySmoothing) (params : List Rat) :
    Option NgramLM := do
  let prob ← setSmoothingAlgs model
  let vectors ← estimateLevels true 1 [prob] model.levels model.backoffs smoothings params
  some { model := model
         probVectors := [prob] :: vectors.map Prod.fst
         bowVectors := vectors.map Prod.snd }

def defParams (model : NgramModel) (smoothings : List KneserNeySmoothing) : List (Option Rat) :=
  defaultParams 1 model.levels model.backoffs smoothings

/-! ### Lookups -/

def find : List Level → Nat → List Nat → Option Nat
  | _, hist, [] => some hist
  | level :: levels, hist, word :: words =>
      match level.vector.entries.idxOf? (hist, word) with
      | some index => find levels index words
      | none => none
  | [], _, _ :: _ => none

variable (lm : NgramLM)

def bow (hist : List Nat) : Rat :=
  match find lm.model.levels 0 hist with
  | some index => (lm.bowVectors.getD hist.length []).getD index 1
  | none => 1

def storedProb (ngram : List Nat) : Rat :=
  match find lm.model.levels 0 ngram with
  | some index => (lm.probVectors.getD ngram.length []).getD index 0
  | none => 0

/-- The probability of the last word of an n-gram after the others: missing probabilities are filled
in with backoff values. -/
def prob : List Nat → Rat
  | [] => lm.storedProb []
  | first :: rest =>
      if lm.storedProb (first :: rest) = 0 then prob rest * lm.bow (first :: rest).dropLast
      else lm.storedProb (first :: rest)

end NgramLM

end Mitlm
