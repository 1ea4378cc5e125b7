/-
The n-gram model: a vocabulary, and for each order the n-grams with their counts.

Loading a corpus adds the n-grams that end at each position, from the shortest to the
longest, each to the history that the order below had at the position before.  The counts
are written order by order.  They are numbers here and ints in the toolkit, so the model is that
of files in which no n-gram has 2^31 occurrences.
-/

import DataSelection.Library.BufferedRecords
import DataSelection.Mitlm.Vocab

namespace Mitlm

open Library

/-- The n-grams of one order, their counts by index, and whether the vector has its histories in
view, as it has behind a sort that took place. -/
structure Level where
  vector : NgramVector
  counts : List Nat
  isViewed : Bool := false

/-- What other parts of the toolkit read as the histories of an order. -/
def Level.hists (level : Level) : List Nat :=
  if level.isViewed then level.vector.entries.map Prod.fst else []

/-- The levels are those of the orders from 1 on; order 0 only has the empty n-gram.  The backoff
of an n-gram is the index of the n-gram without its first word. -/
structure NgramModel where
  vocab : Vocab
  levels : List Level
  backoffs : List (List Nat)

/-! ### Lines of a file -/

def maxLine : Nat := 4096

/-- The lines that `getline` gives.  `fgets` leaves place for the end of the string, and gives a line
without a place for its newline in pieces. -/
def getlines (file : List Char) : List (List Char) := bufferedRecords '\n' (maxLine - 2) file

def writeLines (lines : List (List Char)) : List Char := lines.flatMap (fun line => line ++ ['\n'])

theorem getlines_of_short {file : List Char}
    (short : ∀ line ∈ records '\n' file, line.length ≤ maxLine - 2) :
    getlines file = records '\n' file :=
  bufferedRecords_eq short

theorem getlines_nil : getlines [] = [] := by
  rw [getlines, bufferedRecords]

theorem getlines_append {part : List Char} (ended : Ended '\n' part) (rest : List Char) :
    getlines (part ++ rest) = getlines part ++ getlines rest :=
  bufferedRecords_append ended rest _

theorem records_writeLines {lines : List (List Char)} (unbroken : ∀ line ∈ lines, '\n' ∉ line) :
    records '\n' (writeLines lines) = lines := by
  induction lines with
  | nil => rfl
  | cons line lines ih =>
      have isText : writeLines (line :: lines) = line ++ '\n' :: writeLines lines := by
        rw [writeLines, List.flatMap_cons, List.append_assoc]
        rfl
      rw [isText, records_append_cons (unbroken line List.mem_cons_self),
        ih (fun other member => unbroken other (List.mem_cons_of_mem line member))]

theorem ended_writeLines (lines : List (List Char)) : Ended '\n' (writeLines lines) := by
  rcases List.eq_nil_or_concat lines with rfl | ⟨front, last, rfl⟩
  · exact ended_nil
  · right
    rw [List.concat_eq_append, writeLines, List.flatMap_append, List.flatMap_singleton,
      ← List.append_assoc, List.getLast?_concat]

theorem writeLines_records {file : List Char} (ended : Ended '\n' file) :
    writeLines (records '\n' file) = file := by
  induction file with
  | nil => rfl
  | cons char file ih =>
      have isRest := ih ended.tail
      rw [records]
      by_cases ends : char = '\n'
      · rw [if_pos ends, writeLines, List.flatMap_cons, ← writeLines, isRest, ends]
        rfl
      · rw [if_neg ends]
        cases isRecords : records '\n' file with
        | nil =>
            rw [isRecords] at isRest
            rw [← isRest] at ended
            rcases ended with impossible | isLast
            · cases impossible
            · exact absurd (Option.some.inj isLast) ends
        | cons first later =>
            rw [isRecords] at isRest
            rw [← isRest]
            rfl

theorem getlines_writeLines {lines : List (List Char)} (unbroken : ∀ line ∈ lines, '\n' ∉ line)
    (short : ∀ line ∈ lines, line.length ≤ maxLine - 2) : getlines (writeLines lines) = lines := by
  have isRead := records_writeLines unbroken
  rw [getlines_of_short, isRead]
  rw [isRead]
  exact short

/-! ### Words of a line -/

def isspace (char : Char) : Bool :=
  char = ' ' || char = '\t' || char = '\n' || char = Char.ofNat 11 || char = Char.ofNat 12 ||
    char = '\r'

/-- Every turn of the loop over a line gives a word, also when only spaces are left. -/
def corpusWords (line : List Char) : List Word :=
  if line = [] then []
  else
    let p := line.dropWhile isspace
    let token := p.takeWhile (fun char => !isspace char)
    token :: corpusWords ((p.dropWhile (fun char => !isspace char)).drop 1)
termination_by line.length
decreasing_by
  have positive := List.length_pos_iff.mpr ‹¬line = []›
  have first := (List.dropWhile_suffix isspace (l := line)).length_le
  have second := (List.dropWhile_suffix (fun char => !isspace char)
    (l := line.dropWhile isspace)).length_le
  rw [List.length_drop]
  omega

def isDocumentMark (line : List Char) : Bool :=
  "<DOC ".toList.isPrefixOf line || line = "</DOC>".toList

/-- The number at the beginning of a token, 0 if there is none; a negative number has no place
in the counts. -/
def atoi : List Char → Option Nat
  | '-' :: digits =>
      if Nat.ofDigitChars 10 (digits.takeWhile Char.isDigit) 0 = 0 then some 0 else none
  | '+' :: digits => some (Nat.ofDigitChars 10 (digits.takeWhile Char.isDigit) 0)
  | digits => some (Nat.ofDigitChars 10 (digits.takeWhile Char.isDigit) 0)

/-! ### Counting -/

def resize (length : Nat) (counts : List Nat) : List Nat :=
  counts.take length ++ List.replicate (length - counts.length) 0

/-- Raises a count; the vector doubles if a new n-gram lies behind its end. -/
def increment (amount : Nat) (isNew : Bool) (index : Nat) (counts : List Nat) : List Nat :=
  let counts :=
    if isNew && decide (counts.length ≤ index) then resize (counts.length * 2) counts else counts
  counts.modify index (· + amount)

def Level.raise (level : Level) (amount hist word : Nat) : Option (Level × Nat) := do
  let (vector, index, isNew) ← level.vector.add hist word
  some ({ vector := vector, counts := increment amount isNew index level.counts }, index)

/-- Adds an n-gram and counts it; without a valid word or history there is none. -/
def Level.add (level : Level) (hist word : Option Nat) : Option (Level × Option Nat) :=
  match hist, word with
  | some hist, some word => (level.raise 1 hist word).map (fun added => (added.1, some added.2))
  | _, _ => some (level, none)

/-- Adds the n-grams that end with a word, of as many orders as the limit says.  The histories
are the n-grams that ended with the word before. -/
def addWord (word : Option Nat) : Nat → Option Nat → List Level → List (Option Nat) →
    Option (List Level × List (Option Nat))
  | limit + 1, hist, level :: levels, last :: hists => do
      let (level, index) ← level.add hist word
      let (levels, hists) ← addWord word limit last levels hists
      some (level :: levels, index :: hists)
  | _, _, levels, hists => some (levels, hists)

def addWords : Nat → List (Option Nat) → List Level → List (Option Nat) →
    Option (List Level × List (Option Nat))
  | _, [], levels, hists => some (levels, hists)
  | limit, word :: words, levels, hists => do
      let (levels, hists) ← addWord word limit (some 0) levels hists
      addWords (limit + 1) words levels hists

def addTokens : Vocab → List Word → Option (Vocab × List (Option Nat))
  | vocab, [] => some (vocab, [])
  | vocab, token :: tokens => do
      let (vocab, index) ← vocab.add token
      let (vocab, indices) ← addTokens vocab tokens
      some (vocab, index :: indices)

structure Loading where
  vocab : Vocab
  levels : List Level
  hists : List (Option Nat)

def addLine (state : Loading) (line : List Char) : Option Loading :=
  if isDocumentMark line then some state
  else do
    let (vocab, indices) ← addTokens state.vocab (corpusWords line)
    match state.levels, state.hists with
    | level :: levels, _ :: hists => do
        let (vector, index, _) ← level.vector.add 0 Vocab.endOfSentence
        let (levels, hists) ← addWords 2 (indices ++ [some Vocab.endOfSentence])
          ({ level with vector := vector } :: levels) (some index :: hists)
        some { vocab := vocab, levels := levels, hists := hists }
    | _, _ => none

def allocate (level : Level) : Level :=
  { level with counts := resize (max (2 ^ 16) (nextPowerOf2 level.vector.size)) level.counts }

def addVocabulary (vocab : Vocab) : List Level → Option (List Level)
  | [] => none
  | level :: levels =>
      if level.vector.size = vocab.words.size then some (level :: levels)
      else do
        let vector ← (List.range vocab.words.size).foldlM
          (fun vector word => (NgramVector.add vector 0 word).map Prod.fst) level.vector
        some ({ vector := vector, counts := resize vocab.words.size level.counts } :: levels)

/-! ### Sorting -/

def applySort (ngramMap data : List Nat) : List Nat :=
  (ngramMap.zip data).foldl (fun sorted pair => sorted.set pair.1 pair.2)
    (List.replicate ngramMap.length 0)

/-- A level that is not sorted shows no histories, as long as no earlier sort has brought them into
view. -/
def sortLevels (vocabMap : List Nat) : List Nat → List Level → Option (List Level)
  | _, [] => some []
  | boNgramMap, level :: levels => do
      let (sorted, vector, ngramMap) ← NgramVector.sort vocabMap boNgramMap level.vector
      let counts :=
        if sorted then applySort ngramMap level.counts else resize ngramMap.length level.counts
      let levels ← sortLevels vocabMap ngramMap levels
      some ({ vector := vector, counts := counts, isViewed := sorted } :: levels)

/-! ### Backoffs -/

/-- The indices of pairs; an assertion fails for a pair that is not found. -/
def findAll (vector : NgramVector) : List Ngram → Option (List Nat)
  | [] => some []
  | ngram :: ngrams =>
      match HashVector.find ngramHash vector ngram with
      | some (some index) => (findAll vector ngrams).map (fun indices => index :: indices)
      | _ => none

/-- Backoffs for higher order n-grams are computed from lower order backoffs. -/
def higherBackoffs : Level → List Nat → List Level → Option (List (List Nat))
  | _, _, [] => some []
  | below, loBackoffs, level :: levels => do
      let backoffs ← findAll below.vector
        (level.vector.entries.map (fun ngram => (loBackoffs.getD ngram.1 0, ngram.2)))
      let later ← higherBackoffs level backoffs levels
      some (backoffs :: later)

def computeBackoffs : List Level → Option (List (List Nat))
  | [] => some []
  | [unigrams] => some [List.replicate unigrams.vector.size 0]
  | unigrams :: bigrams :: levels => do
      -- backoffs for bigrams by vocabulary lookup
      let backoffs ← findAll unigrams.vector
        (bigrams.vector.entries.map (fun ngram => (0, ngram.2)))
      let later ← higherBackoffs bigrams backoffs levels
      some (List.replicate unigrams.vector.size 0 :: backoffs :: later)

namespace NgramModel

def create (order : Nat) : Option NgramModel := do
  let vocab ← Vocab.create
  some { vocab := vocab
         levels := List.replicate order { vector := NgramVector.create, counts := [] }
         backoffs := [] }

def sizes (model : NgramModel) : List Nat := 1 :: model.levels.map (fun level => level.vector.size)

/-- Sorts the vocabulary and then the orders; the empty n-gram stays where it is. -/
def sort (model : NgramModel) : Option NgramModel := do
  let (_, vocab, vocabMap) ← model.vocab.sort
  let levels ← sortLevels vocabMap [0] model.levels
  let backoffs ← computeBackoffs levels
  some { vocab := vocab, levels := levels, backoffs := backoffs }

def loadCorpus (model : NgramModel) (corpusFile : List Char) : Option NgramModel := do
  let start : Loading :=
    { vocab := model.vocab
      levels := model.levels.map allocate
      hists := List.replicate model.levels.length none }
  let counted ← (getlines corpusFile).foldlM addLine start
  let levels ← addVocabulary counted.vocab counted.levels
  sort { model with vocab := counted.vocab, levels := levels }

/-- Reads a line of at most as many words as there are orders and a count, which ends the line.
A line that has more words, or whose word is not in the vocabulary, has no count. -/
def readRow (order : Nat) (vocab : Vocab) (words : List Nat) (line : List Char) :
    Option (Vocab × Option (List Nat × Nat)) :=
  if order + 1 ≤ words.length then some (vocab, none)
  else
    let token := line.takeWhile (fun char => !isspace char)
    if line.length ≤ token.length then (atoi token).map (fun count => (vocab, some (words, count)))
    else
      let rest := line.drop (token.length + 1)
      if token = [] then readRow order vocab words rest
      else
        match vocab.add token with
        | none => none
        | some (vocab, none) => some (vocab, none)
        | some (vocab, some index) => readRow order vocab (words ++ [index]) rest
termination_by line.length
decreasing_by
  all_goals
    rw [List.length_drop]
    omega

/-- Adds an n-gram to the last of its orders, and its beginnings to the orders before.  A line
of a count only reads before the first word. -/
def addRow (count : Nat) : Nat → List Nat → List Level → Option (List Level)
  | hist, [word], level :: levels => do
      let (level, _) ← level.raise count hist word
      some (level :: levels)
  | hist, word :: next :: words, level :: levels => do
      let (vector, index, _) ← level.vector.add hist word
      let levels ← addRow count index (next :: words) levels
      some ({ level with vector := vector } :: levels)
  | _, _, _ => none

def loadRow (model : NgramModel) (line : List Char) : Option NgramModel :=
  if line = [] ∨ line.head? = some '#' then some model
  else
    match readRow model.levels.length model.vocab [] line with
    | none => none
    | some (vocab, none) => some { model with vocab := vocab }
    | some (vocab, some (words, count)) =>
        (addRow count 0 words model.levels).map (fun levels =>
          { model with vocab := vocab, levels := levels })

def loadCounts (model : NgramModel) (countsFile : List Char) : Option NgramModel := do
  let counted ← (getlines countsFile).foldlM loadRow { model with levels := model.levels.map allocate }
  counted.sort

/-- The word indices of an n-gram, from the last order down. -/
def ngramIndices (levels : List Level) : Nat → Nat → List Nat
  | 0, _ => []
  | order + 1, index =>
      match levels[order]? with
      | none => []
      | some level =>
          let (hist, word) := level.vector.entries.getD index (0, 0)
          ngramIndices levels order hist ++ [word]

/-- The words of an n-gram; in the first place the end of a sentence is its beginning. -/
def getNgramWords (model : NgramModel) (order index : Nat) : List Word :=
  let word := fun index => model.vocab.words.entries.getD index []
  match ngramIndices model.levels order index with
  | [] => []
  | first :: rest =>
      (if first = Vocab.endOfSentence then Vocab.startSymbol else word first) :: rest.map word

def countRows (model : NgramModel) (order : Nat) : List (List Word × Nat) :=
  match model.levels[order - 1]? with
  | none => []
  | some level =>
      (List.range level.counts.length).map (fun index =>
        (getNgramWords model order index, level.counts.getD index 0))

def writeRow (row : List Word × Nat) : List Char :=
  [' '].intercalate row.1 ++ '\t' :: (Nat.repr row.2).toList

def rows (model : NgramModel) : List (List Char) :=
  ((List.range model.levels.length).flatMap (fun order => model.countRows (order + 1))).map writeRow

def saveCounts (model : NgramModel) : List Char := writeLines model.rows

end NgramModel

/-- The first eight bytes tell a binary file, and a file without them is an error.  A text, which has
no NUL, is not taken for a binary file. -/
def NgramLM.loadCounts (model : NgramModel) (countsFile : List Char) : Option NgramModel :=
  if countsFile.length < 8 then none else model.loadCounts countsFile

def countCorpus (order : Nat) (corpusFile : List Char) : Option (List Char) := do
  let start ← NgramModel.create order
  let model ← start.loadCorpus corpusFile
  some model.saveCounts

def mergeCounts (order : Nat) (files : List (List Char)) : Option (List Char) := do
  let start ← NgramModel.create order
  let model ← files.foldlM NgramLM.loadCounts start
  some model.saveCounts

end Mitlm
