/-
The submodular objective, the lazy budget loop and the output scan.

The heap is any priority queue over the sentences' stored gains.  Reading the
front of an empty queue is undefined in the program and is `none` here.
-/

import DataSelection.Filter.Corpora
import Mathlib.Data.List.Sort

namespace Filter

open Library (DefaultDict IFStream PriorityQueue)

variable {R : Type} [DoubleArithmetic R]

def calculateFeatureStats (features : FeatureMap R) (sentenceCount : Nat) : FeatureMap R :=
  features.mapValues (fun feature =>
    { feature with
      weight := DoubleArithmetic.sqrt ((feature.seedCount : R) / (feature.minedCount : R))
      idf := DoubleArithmetic.log ((sentenceCount : R) / feature.idf) })

/-- The value reached so far and the pending updates by feature. -/
abbrev Evaluation (R : Type) [DoubleArithmetic R] := R × FeatureMap R

def evaluateFeature (features : FeatureMap R) (length : Nat) (state : Evaluation R)
    (entry : Ngram × Nat) : Evaluation R :=
  let feature := features.value entry.1
  let frequency := (entry.2 : R) / (length : R)
  let relevanceScore := frequency * feature.idf + feature.prevTotalRelevance
  let funcValue := state.1 - feature.weight * DoubleArithmetic.sqrt feature.prevTotalRelevance
  (funcValue + feature.weight * DoubleArithmetic.sqrt relevanceScore,
    state.2.set entry.1 { feature with prevTotalRelevance := relevanceScore })

def submodularFunction (features : FeatureMap R) (sentence : Sentence R) (prevFuncValue : R) :
    Sentence R × Evaluation R :=
  let result := (sentence.features.zip sentence.counts).foldl
    (evaluateFeature features sentence.length) (prevFuncValue, .empty)
  ({ sentence with maxMarginalGain := result.1 - prevFuncValue }, result)

def cost (sentence : ParsedSentence) : Nat := sentence.length

def evaluate (features : FeatureMap R) (sentence : Sentence R) (prevFuncValue : R) :
    Sentence R × Evaluation R :=
  let result := submodularFunction features sentence prevFuncValue
  ({ result.1 with
      maxMarginalGain := result.1.maxMarginalGain / (cost result.1.toParsedSentence : R) },
    result.2)

def updateFeatures (features updates : FeatureMap R) : FeatureMap R :=
  updates.keys.foldl (fun features key => features.set key (updates.value key)) features

/-- The loop over a 32-bit index that evaluates every sentence once. -/
def initialGains (counters : Counters) (features : FeatureMap R) :
    Nat → Nat → List (Sentence R) → Option (List (Sentence R))
  | 0, _, _ => none
  | fuel + 1, i, sentences =>
      if i < sentences.length then
        initialGains counters features fuel (counters.uint (i + 1))
          (sentences.modify i (fun sentence => (evaluate features sentence 0).1))
      else some sentences

structure LoopState (R : Type) [DoubleArithmetic R] where
  features : FeatureMap R
  availableSentences : List (Sentence R)
  chosen : List Nat
  prevSubmodValue : R
  totalCost : Nat

section

variable (queue : PriorityQueue (Sentence.less (R := R)))

/-- The inner loop: while the front of the queue is better, put the evaluated
sentence back and evaluate the front instead. -/
def reevaluate (features : FeatureMap R) (prevSubmodValue : R) :
    Nat → Sentence R → Evaluation R → List (Sentence R) →
      Option (Sentence R × Evaluation R × List (Sentence R))
  | 0, _, _, _ => none
  | _ + 1, _, _, [] => none
  | fuel + 1, sentence, result, top :: rest =>
      if sentence.less top then
        match queue.push sentence (top :: rest) with
        | [] => none
        | front :: behind =>
            let evaluated := evaluate features front prevSubmodValue
            reevaluate features prevSubmodValue fuel evaluated.1 evaluated.2
              (queue.pop (front :: behind))
      else some (sentence, result, top :: rest)

/-- What one pass through the body of the budget loop does. -/
inductive Iteration (R : Type) [DoubleArithmetic R]
  | exhausted (state : LoopState R)
  | selected (sentence : Sentence R) (state : LoopState R)

/-- The edge case of the body: a single remaining sentence is chosen as it is. -/
def chooseLast (state : LoopState R) : LoopState R :=
  match state.availableSentences with
  | [last] =>
      { state with
        chosen := state.chosen ++ [last.index]
        availableSentences := queue.pop [last] }
  | _ => state

def iterate (counters : Counters) (fuel : Nat) (before : LoopState R) :
    Option (Iteration R) :=
  let state := chooseLast queue before
  match state.availableSentences with
  | [] => some (.exhausted state)
  | top :: rest =>
      let evaluated := evaluate state.features top state.prevSubmodValue
      (reevaluate queue state.features state.prevSubmodValue fuel evaluated.1 evaluated.2
        (queue.pop (top :: rest))).map (fun found =>
          .selected found.1
            { features := updateFeatures state.features found.2.1.2
              availableSentences := found.2.2
              chosen := state.chosen ++ [found.1.index]
              prevSubmodValue := found.2.1.1
              totalCost := counters.uint (state.totalCost + cost found.1.toParsedSentence) })

/-- `inner` is the fuel of each inner loop. -/
def budgetLoop (counters : Counters) (inner budget : Nat) :
    Nat → LoopState R → Option (LoopState R)
  | 0, _ => none
  | fuel + 1, state =>
      if state.totalCost < budget then
        match iterate queue counters inner state with
        | none => none
        | some (.exhausted after) => some after
        | some (.selected _ after) => budgetLoop counters inner budget fuel after
      else some state

def prepare (counters : Counters) (fuel : Nat) (seedCorpus minedCorpus : List Char) :
    Option (LoopState R) := do
  let (features, sentences) ← parseCorpora counters fuel seedCorpus minedCorpus
  let features := calculateFeatureStats features (counters.uint sentences.length)
  let sentences ← initialGains counters features fuel 0 sentences
  return { features := features
           availableSentences := queue.ofList sentences
           chosen := []
           prevSubmodValue := 0
           totalCost := 0 }

def select (counters : Counters) (fuel : Nat) (seedCorpus minedCorpus : List Char)
    (budget : Nat) : Option (LoopState R) := do
  let start ← prepare queue counters fuel seedCorpus minedCorpus
  budgetLoop queue counters fuel budget fuel start

end

structure OutputScan where
  position : List Char × IFStream
  current : Nat
  printed : List (List Char)

def printChosen (scan : OutputScan) (next : Nat) : OutputScan :=
  let position := IFStream.advance (next - scan.current) scan.position
  { position := position
    current := scan.current + (next - scan.current)
    printed := scan.printed ++ [position.1] }

/-- The lines printed for the chosen indices, in the order they are printed. -/
def outputSentences (minedCorpus : List Char) (chosen : List Nat) : List (List Char) :=
  ((chosen.mergeSort (· ≤ ·)).foldl printChosen
    { position := (IFStream.opened minedCorpus).getline []
      current := 0
      printed := [] }).printed

def main (queue : PriorityQueue (Sentence.less (R := R))) (counters : Counters) (fuel : Nat)
    (seedCorpus minedCorpus : List Char) (budget : Nat) : Option (List Char) :=
  (select queue counters fuel seedCorpus minedCorpus budget).map (fun final =>
    (outputSentences minedCorpus final.chosen).flatMap (fun line => line ++ ['\n']))

end Filter
