/-
Reading the two corpora: word ids, n-grams, the feature set and its counts.

A corpus is the text of a readable file.  The loops over its lines take fuel and
are `none` without enough of it.
-/

import DataSelection.Filter.Basic
import DataSelection.Library.InputStream
import DataSelection.Library.Tokens

namespace Filter

open Library (DefaultDict IFStream tokens)

/-- The words that the tokenizer finds: pieces between spaces and tabs, the empty
pieces dropped. -/
def words (line : List Char) : List Word :=
  tokens (fun char => char = ' ' || char = '\t') line

def tokenizeWord (addMissingWords : Bool) (state : List Nat × WordMap) (word : Word) :
    List Nat × WordMap :=
  if word ∈ state.2.keys then (state.1 ++ [state.2.value word], state.2)
  else if addMissingWords then
    -- the sum is stored in an `unsigned short`
    let id := (state.2.keys.length + missingWordId + 1) % 2 ^ 16
    (state.1 ++ [id], state.2.set word id)
  else (state.1 ++ [missingWordId], state.2)

def tokenize (line : List Char) (wordids : WordMap) (addMissingWords : Bool) :
    List Nat × WordMap :=
  (words line).foldl (tokenizeWord addMissingWords) ([], wordids)

/-- The window of `remaining` tokens at `word`, or the position of the first
missing word in it. -/
def readGram (tokens : List Nat) : Nat → Nat → Ngram → Except Nat Ngram
  | 0, _, gram => .ok gram
  | remaining + 1, word, gram =>
      let id := tokens.getD word missingWordId
      if id = missingWordId then .error word
      else readGram tokens remaining (word + 1) (gram ++ [id])

/-- The loop over `start`, which a missing word moves past that word. -/
def ngramsOfOrder (tokens : List Nat) (order start : Nat) : List Ngram :=
  if start < tokens.length - order then
    match readGram tokens (order + 1) start [] with
    | .error word => ngramsOfOrder tokens order (start + (word - start) + 1)
    | .ok gram => gram :: ngramsOfOrder tokens order (start + 1)
  else []
termination_by tokens.length - start

def getNgrams (tokens : List Nat) : List Ngram :=
  ((List.range ngramOrder).takeWhile (· < tokens.length)).flatMap
    (fun order => ngramsOfOrder tokens order 0)

def featuresOfLine (addMissingWords : Bool) (line : List Char)
    (state : List Ngram × WordMap) : List Ngram × WordMap :=
  let tokenized := tokenize line state.2 addMissingWords
  ((getNgrams tokenized.1).foldl (fun features gram => features.insert gram) state.1,
    tokenized.2)

def getFeatures (fuel : Nat) (corpus : List Char) (wordids : WordMap)
    (addMissingWords : Bool) : Option (List Ngram × WordMap) :=
  IFStream.eofLoop (featuresOfLine addMissingWords) fuel (IFStream.opened corpus) []
    ([], wordids)

section

variable {R : Type} [DoubleArithmetic R]

def intersectFeatures (seedFeatures minedFeatures : List Ngram) : FeatureMap R :=
  seedFeatures.foldl (fun features gram =>
    if gram ∈ minedFeatures then features.set gram default else features) .empty

def getFeatureSet (fuel : Nat) (seedCorpus minedCorpus : List Char) (wordids : WordMap) :
    Option (FeatureMap R × WordMap) := do
  let (seedFeatures, wordids) ← getFeatures fuel seedCorpus wordids true
  let (minedFeatures, wordids) ← getFeatures fuel minedCorpus wordids false
  return (intersectFeatures seedFeatures minedFeatures, wordids)

/-- The gain is set only when the sentence is evaluated. -/
def Sentence.new : Sentence R :=
  { index := 0, features := [], counts := [], length := 0, maxMarginalGain := 0 }

def Sentence.incCount (counters : Counters) (feature : Ngram) (sentence : Sentence R) :
    Sentence R :=
  match sentence.features.findIdx? (· = feature) with
  | none =>
      { sentence with
        features := sentence.features ++ [feature]
        counts := sentence.counts ++ [1] }
  | some i =>
      { sentence with
        counts := sentence.counts.modify i (fun count => counters.uchar (count + 1)) }

structure LineCount (R : Type) [DoubleArithmetic R] where
  features : FeatureMap R
  featuresAdded : List Ngram
  sentence : Sentence R

def LineCount.start (features : FeatureMap R) : LineCount R :=
  { features := features, featuresAdded := [], sentence := Sentence.new }

def countGram (counters : Counters) (countType : CountType) (state : LineCount R)
    (gram : Ngram) : LineCount R :=
  if gram ∈ state.features.keys then
    match countType with
    | .seed =>
        { state with
          features := state.features.modify gram (fun feature =>
            { feature with seedCount := counters.uint (feature.seedCount + 1) }) }
    | .mined =>
        let features :=
          if gram ∈ state.featuresAdded then state.features
          else state.features.modify gram (fun feature =>
            { feature with idf := feature.idf + 1 })
        { features := features.modify gram (fun feature =>
            { feature with minedCount := counters.uint (feature.minedCount + 1) })
          featuresAdded := state.featuresAdded.insert gram
          sentence := state.sentence.incCount counters gram }
  else state

structure CorpusCount (R : Type) [DoubleArithmetic R] where
  features : FeatureMap R
  sentences : List (Sentence R)
  lineIndex : Nat

def countLine (counters : Counters) (countType : CountType) (wordids : WordMap)
    (line : List Char) (state : CorpusCount R) : CorpusCount R :=
  let tokens := (tokenize line wordids false).1
  if countType = .mined ∧ tokens.length > maxSentLength then
    { state with lineIndex := counters.uint (state.lineIndex + 1) }
  else
    let counted := (getNgrams tokens).foldl (countGram counters countType)
      (LineCount.start state.features)
    let sentences :=
      if countType = .mined ∧ counted.sentence.counts.length > 0 then
        state.sentences ++
          [{ counted.sentence with
              index := state.lineIndex
              length := counters.uchar tokens.length }]
      else state.sentences
    { features := counted.features
      sentences := sentences
      lineIndex := counters.uint (state.lineIndex + 1) }

def countFeatures (counters : Counters) (fuel : Nat) (features : FeatureMap R)
    (corpus : List Char) (sentences : List (Sentence R)) (countType : CountType)
    (wordids : WordMap) : Option (FeatureMap R × List (Sentence R)) :=
  (IFStream.eofLoop (countLine counters countType wordids) fuel (IFStream.opened corpus) []
    { features := features, sentences := sentences, lineIndex := 0 }).map
      (fun state => (state.features, state.sentences))

def parseCorpora (counters : Counters) (fuel : Nat) (seedCorpus minedCorpus : List Char) :
    Option (FeatureMap R × List (Sentence R)) := do
  let (features, wordids) ← getFeatureSet fuel seedCorpus minedCorpus .empty
  let (features, sentences) ← countFeatures counters fuel features seedCorpus [] .seed wordids
  countFeatures counters fuel features minedCorpus sentences .mined wordids

end

end Filter
