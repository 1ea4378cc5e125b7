/-
Counting, smoothing and back-off weights as the script computes them.

Floating point is taken as exact rational arithmetic, and a division by zero, like any
other uncaught exception, is `none`.
-/

import DataSelection.WittenBell.Dictionary

namespace WittenBell

open Library

/-! ### Counting -/

def countWord (unigrams : DefaultDict Word Nat) (gram : Word) : DefaultDict Word Nat :=
  if gram ∈ unigrams.keys then unigrams.modify gram (· + 1) else unigrams.set gram 1

def countUnigrams (lines : List (List Char)) : DefaultDict Word Nat :=
  lines.foldl (fun unigrams line => (wordList line).foldl countWord unigrams) .empty

/-- `sorted(unigrams.iteritems(), key=operator.itemgetter(1))`.  The module `operator`
is imported in the loop over the lines, so without a line there is none. -/
def sortedUnigrams (lines : List (List Char)) : Option (List (Word × Nat)) :=
  if lines = [] then none
  else
    let unigrams := countUnigrams lines
    some ((unigrams.keys.map (fun word => (word, unigrams.value word))).mergeSort
      (fun left right => decide (left.2 ≤ right.2)))

/-- The list of unigrams, the dictionary and the number of words. -/
structure Adjusted where
  unigrams : List Word
  dictionary : Dictionary
  uniCount : Nat

/-- The loop that stops at `n == 20000`; its body never changes `n`. -/
def adjust (n : Nat) : List (Word × Nat) → Adjusted → Option Adjusted
  | [], state => some state
  | (gram, count) :: rest, state =>
      if n = 20000 then some state
      else do
        let dictionary ← setCount (split gram) count state.dictionary
        adjust n rest
          { unigrams := state.unigrams ++ [gram]
            dictionary := dictionary
            uniCount := state.uniCount + count }

/-- The body of the loop over `i`; a window with an unknown word is skipped. -/
def insertWindow (unigrams wordList : List Word) (n : Nat) (state : Dictionary × Nat) (i : Nat) :
    Dictionary × Nat :=
  let gram := (wordList.drop i).take n
  if gram.any (fun word => word ∉ unigrams) then state else insertGram gram state.1 state.2

def insertLine (unigrams : List Word) (state : Dictionary × Nat) (line : List Char) :
    Dictionary × Nat :=
  [2, 3].foldl (fun state n =>
    (List.range ((wordList line).length + 1 - n)).foldl
      (insertWindow unigrams (wordList line) n) state) state

def populateDictionary (lines : List (List Char)) : Option (Dictionary × Nat) := do
  let sortedUnigrams ← sortedUnigrams lines
  let adjusted ← adjust 0 sortedUnigrams
    { unigrams := []
      dictionary := getEmptyGramDict
      uniCount := 0 }
  return lines.foldl (insertLine adjusted.unigrams) (adjusted.dictionary, adjusted.uniCount)

/-! ### Probabilities -/

def divide (numerator denominator : ℚ) : Option ℚ :=
  if denominator = 0 then none else some (numerator / denominator)

def estimateUnigramProb (uniCount : Nat) (dictionary : Dictionary) (unigram : List Char) :
    Option Dictionary := do
  let (count, dictionary) ← getCount (split unigram) dictionary
  let probability ← divide count uniCount
  return setProb (split unigram) probability dictionary

def estimateBigramProb (dictionary : Dictionary) (bigram : List Char) : Option Dictionary := do
  let entry := split bigram
  let first ← entry[0]?
  let (w2s, dictionary) ← getNextGrams (split first) dictionary
  let n1plus := w2s.length
  let (w1count, dictionary) ← getCount (split first) dictionary
  let (count, dictionary) ← getCount entry dictionary
  let probability ← divide count ((w1count + n1plus : Nat) : ℚ)
  return setProb entry probability dictionary

def estimateTrigramProb (dictionary : Dictionary) (trigram : List Char) : Option Dictionary := do
  let entry := split trigram
  let first ← entry[0]?
  let second ← entry[1]?
  let (w3s, dictionary) ← getNextGrams [first, second] dictionary
  let n1plus := w3s.length
  let (w1w2count, dictionary) ← getCount [first, second] dictionary
  let (count, dictionary) ← getCount entry dictionary
  let probability ← divide count ((w1w2count + n1plus : Nat) : ℚ)
  return setProb entry probability dictionary

def estimateProbs (unigrams bigrams trigrams : List (List Char)) (dictionary : Dictionary)
    (uniCount : Nat) : Option Dictionary := do
  let dictionary ← unigrams.foldlM (estimateUnigramProb uniCount) dictionary
  let dictionary ← bigrams.foldlM estimateBigramProb dictionary
  trigrams.foldlM estimateTrigramProb dictionary

/-! ### Back-off weights -/

/-- The numerator and the denominator while the loop over the next words runs. -/
structure Mass where
  numerator : ℚ
  denominator : ℚ
  dictionary : Dictionary

/-- The body of that loop, for the entries whose probabilities are subtracted. -/
def subtractMass (higher lower : Word → List Word) (mass : Mass) (nextGram : Word) :
    Option Mass := do
  let (prob, dictionary) ← getProb (higher nextGram) mass.dictionary
  let (lowerProb, dictionary) ← getProb (lower nextGram) dictionary
  return { numerator := mass.numerator - prob
           denominator := mass.denominator - lowerProb
           dictionary := dictionary }

def estimateUnigramBO (dictionary : Dictionary) (unigram : List Char) : Option Dictionary := do
  let (nextGrams, dictionary) ← getNextGrams (split unigram) dictionary
  let mass ← nextGrams.foldlM
    (subtractMass (fun nextGram => split (join [unigram, nextGram])) split)
    { numerator := 1
      denominator := 1
      dictionary := dictionary }
  let backoff ← divide mass.numerator mass.denominator
  return setBO (split unigram) backoff mass.dictionary

def estimateBigramBO (dictionary : Dictionary) (bigram : List Char) : Option Dictionary := do
  let (nextGrams, dictionary) ← getNextGrams (split bigram) dictionary
  let second ← (split bigram)[1]?
  let mass ← nextGrams.foldlM
    (subtractMass (fun nextGram => split (join [bigram, nextGram]))
      (fun nextGram => [second, nextGram]))
    { numerator := 1
      denominator := 1
      dictionary := dictionary }
  let backoff ← divide mass.numerator mass.denominator
  return setBO (split bigram) backoff mass.dictionary

def estimateBOs (unigrams bigrams : List (List Char)) (dictionary : Dictionary) :
    Option Dictionary := do
  let dictionary ← unigrams.foldlM estimateUnigramBO dictionary
  bigrams.foldlM estimateBigramBO dictionary

/-! ### The script -/

/-- The smoothed dictionary with the lists of its n-grams. -/
structure Smoothed where
  dictionary : Dictionary
  unigrams : List (List Char)
  bigrams : List (List Char)
  trigrams : List (List Char)

def smooth (corpus : Corpus) : Option Smoothed := do
  let (dictionary, uniCount) ← populateDictionary corpus.lines
  let unigrams := getGrams 1 dictionary
  let bigrams := getGrams 2 dictionary
  let trigrams := getGrams 3 dictionary
  let dictionary ← estimateProbs unigrams bigrams trigrams dictionary uniCount
  return { dictionary := dictionary
           unigrams := unigrams
           bigrams := bigrams
           trigrams := trigrams }

end WittenBell
