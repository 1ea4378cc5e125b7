/-
How often a text uses each probability and each backoff weight.

Each known word backs off from the longest n-gram that can end with it, without crossing an unknown
word, to one that is listed.  What is counted on the way multiplies to its probability.
-/

import DataSelection.Library.Cells
import DataSelection.Mitlm.Probabilities

namespace Mitlm

open Library

/-- How often the probabilities and the weights of each order are used. -/
structure Evaluation where
  probCounts : List (List Nat)
  bowCounts : List (List Nat)
  numOOV : Nat
  numWords : Nat

namespace NgramModel

/-- Extends a history word by word.  The table of an order has a free slot, so that a lookup ends. -/
def findFrom : List Level → Nat → List Nat → Option Nat
  | _, hist, [] => some hist
  | level :: levels, hist, word :: words =>
      match (HashVector.find ngramHash level.vector (hist, word)).join with
      | some index => findFrom levels index words
      | none => none
  | [], _, _ :: _ => none

/-- The index of an n-gram; the invalid word is in none. -/
def findWords (levels : List Level) (words : List (Option Nat)) : Option Nat :=
  (words.mapM id).bind (findFrom levels 0)

/-- Backs off until an n-gram is found; order 0 always is. -/
def backOff (levels : List Level) : List (Option Nat) → Evaluation → Evaluation
  | [], evaluation =>
      { evaluation with probCounts := countAt evaluation.probCounts 0 0 }
  | first :: rest, evaluation =>
      match findWords levels (first :: rest) with
      | some index =>
          { evaluation with probCounts := countAt evaluation.probCounts (rest.length + 1) index }
      | none =>
          match findWords levels (first :: rest).dropLast with
          | some hist =>
              backOff levels rest
                { evaluation with bowCounts := countAt evaluation.bowCounts rest.length hist }
          | none => backOff levels rest evaluation

/-- The words behind those that are listed last to first, the next of which ends an n-gram of the
given order. -/
def evalWords (levels : List Level) : List (Option Nat) → Nat → List (Option Nat) → Evaluation →
    Evaluation
  | _, _, [], evaluation => evaluation
  | previous, _, none :: words, evaluation =>
      evalWords levels (none :: previous) 1 words { evaluation with numOOV := evaluation.numOOV + 1 }
  | previous, ngramOrder, some word :: words, evaluation =>
      let window := ((some word :: previous).take ngramOrder).reverse
      let counted := backOff levels window evaluation
      evalWords levels (some word :: previous) (min (ngramOrder + 1) levels.length) words
        { counted with numWords := counted.numWords + 1 }

def evalLine (model : NgramModel) (evaluation : Evaluation) (line : List Char) : Option Evaluation :=
  if isDocumentMark line then some evaluation
  else do
    let words ← (corpusWords line).mapM model.vocab.find
    some (evalWords model.levels [some Vocab.endOfSentence] (min 2 model.levels.length)
      (words ++ [some Vocab.endOfSentence]) evaluation)

def loadEvalCorpus (model : NgramModel) (corpusFile : List Char) : Option Evaluation :=
  (getlines corpusFile).foldlM (evalLine model)
    { probCounts := model.sizes.map (fun size => List.replicate size 0)
      bowCounts := model.sizes.dropLast.map (fun size => List.replicate size 0)
      numOOV := 0
      numWords := 0 }

end NgramModel

/-! ### What is evaluated -/

/-- The longest n-grams that end with the known words, behind a context of known words. -/
def longestNgrams (order : Nat) : List Nat → List (Option Nat) → List (List Nat)
  | _, [] => []
  | _, none :: words => longestNgrams order [] words
  | context, some word :: words =>
      (context ++ [word]).drop (context.length + 1 - order) ::
        longestNgrams order (context ++ [word]) words

def indexed (entries : List Word) (line : List Char) : List (Option Nat) :=
  (corpusWords line).map (fun word => entries.idxOf? (Vocab.normal word))

def sentencesOf (lines : List (List Char)) : List (List Char) :=
  lines.filter (fun line => !isDocumentMark line)

/-- The n-grams that a text is evaluated by; the ends of sentences are evaluated as well. -/
def evaluatedNgrams (entries : List Word) (order : Nat) (lines : List (List Char)) :
    List (List Nat) :=
  (sentencesOf lines).flatMap (fun line =>
    longestNgrams order [Vocab.endOfSentence]
      (indexed entries line ++ [some Vocab.endOfSentence]))

def unknownWords (entries : List Word) (lines : List (List Char)) : Nat :=
  ((sentencesOf lines).map (fun line => (indexed entries line).count none)).sum

/-! ### What the counts are worth -/

/-- A logarithm, as far as sums of logarithms depend on it. -/
def IsLog {K : Type} [Field K] (log : Rat → K) : Prop :=
  ∀ x y, 0 < x → 0 < y → log (x * y) = log x + log y

section

variable {K : Type} [Field K] (log : Rat → K)

/-- The logarithm of a probability as often as it is counted; zeros are left out. -/
def probLog (probVectors : List (List Rat)) (order index count : Nat) : K :=
  if count > 0 then
    if cell probVectors order index 1 = 0 then 0
    else log (cell probVectors order index 1) * (count : K)
  else 0

def bowLog (bowVectors : List (List Rat)) (order index count : Nat) : K :=
  if count > 0 then log (cell bowVectors order index 1) * (count : K) else 0

def totLogProb (lm : NgramLM) (evaluation : Evaluation) : K :=
  sumCells evaluation.probCounts (probLog log lm.probVectors) +
    sumCells evaluation.bowCounts (bowLog log lm.bowVectors)

def hasZeroBow (lm : NgramLM) (evaluation : Evaluation) : Bool :=
  anyCounted evaluation.bowCounts (fun order index => decide (cell lm.bowVectors order index 1 = 0))

def numZeroProbs (lm : NgramLM) (evaluation : Evaluation) : Nat :=
  sumCells evaluation.probCounts (fun order index count =>
    if count > 0 ∧ cell lm.probVectors order index 1 = 0 then 1 else 0)

theorem probLog_succ (probVectors : List (List Rat)) {order index : Nat}
    (nonzero : cell probVectors order index 1 ≠ 0) (count : Nat) :
    probLog log probVectors order index (count + 1) =
      probLog log probVectors order index count + log (cell probVectors order index 1) := by
  rw [probLog, if_pos (Nat.succ_pos count), if_neg nonzero, probLog]
  split
  · rw [Nat.cast_succ, mul_add, mul_one]
  · next unused =>
      rw [Nat.eq_zero_of_not_pos unused, Nat.zero_add, Nat.cast_one, mul_one, zero_add]

theorem bowLog_succ (bowVectors : List (List Rat)) (order index count : Nat) :
    bowLog log bowVectors order index (count + 1) =
      bowLog log bowVectors order index count + log (cell bowVectors order index 1) := by
  rw [bowLog, if_pos (Nat.succ_pos count), bowLog]
  split
  · rw [Nat.cast_succ, mul_add, mul_one]
  · next unused =>
      rw [Nat.eq_zero_of_not_pos unused, Nat.zero_add, Nat.cast_one, mul_one, zero_add]

end

structure Evaluation.Shaped (model : NgramModel) (evaluation : Evaluation) : Prop where
  probs : evaluation.probCounts.map List.length = model.sizes
  bows : evaluation.bowCounts.map List.length = model.sizes.dropLast

theorem Evaluation.Shaped.inside_bows {model : NgramModel} {evaluation : Evaluation}
    (shaped : evaluation.Shaped model) {order : Nat} (below : order < model.levels.length) {index : Nat}
    (within : index < model.sizes.getD order 0) : Inside evaluation.bowCounts order index := by
  refine inside_of_lengths shaped.bows ?_
  rw [List.getD_eq_getElem?_getD, List.getElem?_dropLast, if_pos, ← List.getD_eq_getElem?_getD]
  · exact within
  · rw [NgramModel.sizes, List.length_cons, List.length_map, Nat.add_sub_cancel]
    exact below

/-- What an evaluation has counted more than another one, by the values of what it has used. -/
structure Gains (lm : NgramLM) (factors : List Rat) (before after : Evaluation) : Prop where
  nonneg : ∀ factor ∈ factors, 0 ≤ factor
  used : (∀ order index, 0 < cell before.probCounts order index 0 →
      cell lm.probVectors order index 1 ≠ 0) →
    ∀ order index, 0 < cell after.probCounts order index 0 →
      cell lm.probVectors order index 1 ≠ 0
  zero : hasZeroBow lm after = true ↔ hasZeroBow lm before = true ∨ 0 ∈ factors
  logs : ∀ {K : Type} [Field K] (log : Rat → K), IsLog log → 0 ∉ factors →
    totLogProb log lm after = totLogProb log lm before + (factors.map log).sum

namespace Gains

variable {lm : NgramLM} {first second third : Evaluation}

theorem refl : Gains lm [] first first := by
  constructor
  · exact fun factor member => absurd member List.not_mem_nil
  · exact id
  · exact ⟨Or.inl, fun either => either.resolve_right List.not_mem_nil⟩
  · intro K _ log _ _
    rw [List.map_nil, List.sum_nil, add_zero]

theorem trans {factors more : List Rat} (gains : Gains lm factors first second)
    (later : Gains lm more second third) : Gains lm (factors ++ more) first third := by
  constructor
  · intro factor member
    rcases List.mem_append.mp member with here | there
    · exact gains.nonneg factor here
    · exact later.nonneg factor there
  · exact fun used => later.used (gains.used used)
  · rw [later.zero, gains.zero, List.mem_append, or_assoc]
  · intro K _ log isLog nonzero
    rw [List.mem_append, not_or] at nonzero
    rw [later.logs log isLog nonzero.2, gains.logs log isLog nonzero.1, List.map_append,
      List.sum_append, add_assoc]

theorem renumber {factors : List Rat} {numOOV numWords : Nat}
    (gains : Gains lm factors { first with numOOV := numOOV, numWords := numWords } second) :
    Gains lm factors first second := by
  constructor
  · exact gains.nonneg
  · exact gains.used
  · exact gains.zero
  · exact gains.logs

theorem mul {left right : Rat} (gains : Gains lm [left, right] first second) :
    Gains lm [left * right] first second := by
  have leftNonneg := gains.nonneg left List.mem_cons_self
  have rightNonneg := gains.nonneg right (List.mem_cons_of_mem left List.mem_cons_self)
  constructor
  · intro factor member
    rw [List.mem_singleton.mp member]
    exact mul_nonneg leftNonneg rightNonneg
  · exact gains.used
  · rw [gains.zero, List.mem_singleton, List.mem_cons, List.mem_singleton, zero_eq_mul,
      @eq_comm Rat 0 left, @eq_comm Rat 0 right]
  · intro K _ log isLog nonzero
    rw [List.mem_singleton, zero_eq_mul, not_or] at nonzero
    have apart : (0 : Rat) ∉ [left, right] := by
      rw [List.mem_cons, List.mem_singleton, not_or]
      exact ⟨Ne.symm nonzero.1, Ne.symm nonzero.2⟩
    rw [gains.logs log isLog apart, List.map_cons, List.map_cons, List.map_nil, List.map_singleton,
      List.sum_cons, List.sum_cons, List.sum_nil, List.sum_singleton, add_zero,
      isLog left right (lt_of_le_of_ne leftNonneg (Ne.symm nonzero.1))
        (lt_of_le_of_ne rightNonneg (Ne.symm nonzero.2))]

theorem prob {order index : Nat} (inside : Inside first.probCounts order index)
    (positive : 0 < cell lm.probVectors order index 1) :
    Gains lm [cell lm.probVectors order index 1] first
      { first with probCounts := countAt first.probCounts order index } := by
  constructor
  · intro factor member
    rw [List.mem_singleton.mp member]
    exact positive.le
  · intro used otherOrder other counted
    rw [cell_countAt inside] at counted
    by_cases same : order = otherOrder ∧ index = other
    · obtain ⟨rfl, rfl⟩ := same
      exact positive.ne'
    · rw [if_neg same, Nat.add_zero] at counted
      exact used otherOrder other counted
  · exact ⟨Or.inl, fun either => either.resolve_right
      (fun member => positive.ne (List.mem_singleton.mp member))⟩
  · intro K _ log _ _
    rw [totLogProb, sumCells_countAt inside (probLog_succ log lm.probVectors positive.ne'),
      totLogProb, List.map_singleton, List.sum_singleton, add_right_comm]

theorem bow {order index : Nat} (inside : Inside first.bowCounts order index)
    (nonneg : 0 ≤ cell lm.bowVectors order index 1) :
    Gains lm [cell lm.bowVectors order index 1] first
      { first with bowCounts := countAt first.bowCounts order index } := by
  constructor
  · intro factor member
    rw [List.mem_singleton.mp member]
    exact nonneg
  · exact id
  · rw [hasZeroBow, anyCounted_countAt inside, decide_eq_true_eq, List.mem_singleton,
      @eq_comm Rat 0]
    rfl
  · intro K _ log _ _
    rw [totLogProb, sumCells_countAt inside (bowLog_succ log lm.bowVectors order index), totLogProb,
      List.map_singleton, List.sum_singleton, add_assoc]

end Gains

/-! ### Backing off -/

/-- An order whose histories are in view was sorted, and its table is right. -/
theorem LevelsListed.valid {words : List Word} {tally : List Word → Nat} {order : Nat}
    {below : List (List Word)} {levels : List Level}
    (listed : LevelsListed words tally order below levels)
    (viewed : ∀ level ∈ levels, level.hists.length = level.vector.size) :
    ∀ level ∈ levels, level.vector.Valid ngramHash := by
  intro level member
  obtain ⟨place, isLevel⟩ := List.mem_iff_getElem?.mp member
  exact (listed.level isLevel).viewed (viewed level member)

theorem findFrom_eq {levels : List Level} (valid : ∀ level ∈ levels, level.vector.Valid ngramHash)
    (hist : Nat) (ngram : List Nat) :
    NgramModel.findFrom levels hist ngram = NgramLM.find levels hist ngram := by
  induction levels generalizing hist ngram with
  | nil => cases ngram <;> rfl
  | cons level levels ih =>
      cases ngram with
      | nil => rfl
      | cons word ngram =>
          rw [NgramModel.findFrom, NgramLM.find, (valid level List.mem_cons_self).find_eq,
            Option.join_some, lawful_beq_subsingleton (instBEqOfDecidableEq : BEq Ngram) instBEqProd]
          cases level.vector.entries.idxOf? (hist, word) with
          | none => rfl
          | some index =>
              exact ih (fun other member => valid other (List.mem_cons_of_mem level member)) index
                ngram

theorem findWords_map_some {levels : List Level}
    (valid : ∀ level ∈ levels, level.vector.Valid ngramHash) (ngram : List Nat) :
    NgramModel.findWords levels (ngram.map some) = NgramLM.find levels 0 ngram := by
  have known : (ngram.map some).mapM id = some ngram := by
    induction ngram with
    | nil => rfl
    | cons word ngram ih =>
        rw [List.map_cons, List.mapM_cons, ih]
        rfl
  rw [NgramModel.findWords, known, Option.bind_some, findFrom_eq valid]

def NgramLM.Positive (lm : NgramLM) : Prop :=
  ∀ ngram index, find lm.model.levels 0 ngram = some index → 0 < lm.storedProb ngram

theorem Evaluation.Shaped.backOff {model : NgramModel} {evaluation : Evaluation}
    (shaped : evaluation.Shaped model) (words : List (Option Nat)) :
    (NgramModel.backOff model.levels words evaluation).Shaped model := by
  induction words generalizing evaluation with
  | nil => exact ⟨map_length_countAt.trans shaped.probs, shaped.bows⟩
  | cons first rest ih =>
      rw [NgramModel.backOff]
      split
      · exact ⟨map_length_countAt.trans shaped.probs, shaped.bows⟩
      · split
        · exact ih ⟨shaped.probs, map_length_countAt.trans shaped.bows⟩
        · exact ih shaped

theorem Evaluation.Shaped.evalWords {model : NgramModel} {evaluation : Evaluation}
    (shaped : evaluation.Shaped model) (previous : List (Option Nat)) (ngramOrder : Nat)
    (text : List (Option Nat)) :
    (NgramModel.evalWords model.levels previous ngramOrder text evaluation).Shaped model := by
  induction text generalizing previous ngramOrder evaluation with
  | nil => exact shaped
  | cons first text ih =>
      cases first with
      | none =>
          rw [NgramModel.evalWords]
          apply ih
          exact ⟨shaped.probs, shaped.bows⟩
      | some word =>
          rw [NgramModel.evalWords]
          have counted := shaped.backOff ((some word :: previous).take ngramOrder).reverse
          apply ih
          exact ⟨counted.probs, counted.bows⟩

section

variable {lm : NgramLM} {words : List Word} {tally : List Word → Nat}
  (estimated : lm.Estimated words tally) (positive : lm.Positive)
  (valid : ∀ level ∈ lm.model.levels, level.vector.Valid ngramHash)

include estimated

theorem find_inside {ngram : List Nat} (fits : ngram.length ≤ lm.model.levels.length) {index : Nat}
    (found : NgramLM.find lm.model.levels 0 ngram = some index) :
    index < lm.model.sizes.getD ngram.length 0 := by
  rw [NgramModel.sizes, @length_gramsAt words _ _ fits]
  exact (List.getElem?_eq_some_iff.mp
    ((NgramLM.find_eq_some_iff estimated.distinct estimated.listed fits).mp found).2).1

include positive

/-- The probability of an n-gram that is found stands in its cell. -/
theorem prob_eq_cell {ngram : List Nat} {index : Nat}
    (found : NgramLM.find lm.model.levels 0 ngram = some index) :
    cell lm.probVectors ngram.length index 1 = lm.prob ngram ∧
      0 < cell lm.probVectors ngram.length index 1 := by
  have stored := positive ngram index found
  have isStored : lm.storedProb ngram = (lm.probVectors.getD ngram.length []).getD index 0 := by
    rw [NgramLM.storedProb, found]
  have isCell : cell lm.probVectors ngram.length index 1 = lm.storedProb ngram := by
    rw [isStored] at stored ⊢
    rw [cell]
    generalize lm.probVectors.getD ngram.length [] = probs at stored
    rw [List.getD_eq_getElem?_getD] at stored
    rw [List.getD_eq_getElem?_getD, List.getD_eq_getElem?_getD]
    cases isEntry : probs[index]? with
    | none =>
        rw [isEntry] at stored
        exact absurd stored (lt_irrefl 0)
    | some prob => rfl
  rw [estimated.prob_of_find found, isCell]
  exact ⟨rfl, stored⟩

include valid

/-- What backing off counts multiplies to the probability of the n-gram. -/
theorem gains_backOff {ngram : List Nat} (fits : ngram.length ≤ lm.model.levels.length)
    {evaluation : Evaluation} (shaped : evaluation.Shaped lm.model) :
    Gains lm [lm.prob ngram] evaluation
      (NgramModel.backOff lm.model.levels (ngram.map some) evaluation) := by
  induction ngram generalizing evaluation with
  | nil =>
      have found : NgramLM.find lm.model.levels 0 [] = some 0 := by
        cases lm.model.levels <;> rfl
      obtain ⟨isProb, isPositive⟩ := prob_eq_cell estimated positive found
      rw [← isProb]
      exact Gains.prob (inside_of_lengths shaped.probs (find_inside estimated fits found)) isPositive
  | cons first rest ih =>
      rw [List.map_cons, NgramModel.backOff, ← List.map_cons, findWords_map_some valid]
      cases found : NgramLM.find lm.model.levels 0 (first :: rest) with
      | some index =>
          obtain ⟨isProb, isPositive⟩ := prob_eq_cell estimated positive found
          rw [← isProb]
          have inside := inside_of_lengths shaped.probs (find_inside estimated fits found)
          simp only [List.length_map]
          exact Gains.prob inside isPositive
      | none =>
          have isZero : lm.storedProb (first :: rest) = 0 := by rw [NgramLM.storedProb, found]
          have isProb : lm.prob (first :: rest) = lm.bow (first :: rest).dropLast * lm.prob rest := by
            rw [NgramLM.Estimated.prob_eq (List.cons_ne_nil first rest), if_pos isZero, List.tail_cons,
              mul_comm]
          have fitsRest : rest.length ≤ lm.model.levels.length := Nat.le_of_succ_le fits
          have isLength : (first :: rest).dropLast.length = rest.length := List.length_dropLast
          rw [isProb, ← List.map_dropLast, findWords_map_some valid]
          simp only
          cases isHist : NgramLM.find lm.model.levels 0 (first :: rest).dropLast with
          | some hist =>
              have isBow : lm.bow (first :: rest).dropLast = cell lm.bowVectors rest.length hist 1 := by
                rw [NgramLM.bow, isHist, isLength]
                rfl
              have nonneg := estimated.bow_nonneg (first :: rest).dropLast
              rw [isBow] at nonneg ⊢
              have isInside := find_inside estimated (isLength.trans_le fitsRest) isHist
              rw [isLength] at isInside
              have used := @Gains.bow lm evaluation _ _ (shaped.inside_bows fits isInside) nonneg
              simp only [List.length_map]
              exact (used.trans
                (ih fitsRest ⟨shaped.probs, map_length_countAt.trans shaped.bows⟩)).mul
          | none =>
              have isBow : lm.bow (first :: rest).dropLast = 1 := by rw [NgramLM.bow, isHist]
              rw [isBow, one_mul]
              exact ih fitsRest shaped

omit estimated positive valid in
/-- The last words up to an order, of those that were met last to first. -/
theorem window_eq (order : Nat) (context : List Nat) (word : Nat) (older : List (Option Nat)) :
    ((some word :: (context.reverse.map some ++ older)).take
        (min (context.length + 1) order)).reverse =
      ((context ++ [word]).drop (context.length + 1 - order)).map some := by
  have isReverse : some word :: (context.reverse.map some ++ older) =
      ((context ++ [word]).map some).reverse ++ older := by
    rw [List.map_append, List.reverse_append, List.map_singleton, List.reverse_singleton,
      ← List.map_reverse]
    rfl
  have isLength : ((context ++ [word]).map some).length = context.length + 1 := by
    rw [List.length_map, List.length_append, List.length_singleton]
  have isDrop : context.length + 1 - min (context.length + 1) order = context.length + 1 - order := by
    omega
  rw [isReverse, List.take_append_of_le_length
      (by rw [List.length_reverse, isLength]; exact Nat.min_le_left _ _),
    List.take_reverse, List.reverse_reverse, isLength, isDrop, List.map_drop]

theorem gains_evalWords (several : 1 ≤ lm.model.levels.length) (context : List Nat)
    (older text : List (Option Nat)) {evaluation : Evaluation}
    (shaped : evaluation.Shaped lm.model) :
    Gains lm ((longestNgrams lm.model.levels.length context text).map lm.prob) evaluation
      (NgramModel.evalWords lm.model.levels (context.reverse.map some ++ older)
        (min (context.length + 1) lm.model.levels.length) text evaluation) := by
  induction text generalizing context older evaluation with
  | nil => exact Gains.refl
  | cons first text ih =>
      cases first with
      | none =>
          rw [NgramModel.evalWords, longestNgrams]
          have later := @ih [] (none :: (context.reverse.map some ++ older))
            { evaluation with numOOV := evaluation.numOOV + 1 } ⟨shaped.probs, shaped.bows⟩
          have isOrder : min (([] : List Nat).length + 1) lm.model.levels.length = 1 :=
            Nat.min_eq_left several
          rw [isOrder] at later
          exact later.renumber
      | some word =>
          rw [NgramModel.evalWords, longestNgrams, window_eq]
          have fits : ((context ++ [word]).drop
              (context.length + 1 - lm.model.levels.length)).length ≤ lm.model.levels.length := by
            rw [List.length_drop, List.length_append, List.length_singleton]
            omega
          have used := gains_backOff estimated positive valid fits shaped
          have shapedUsed := shaped.backOff
            (((context ++ [word]).drop (context.length + 1 - lm.model.levels.length)).map some)
          generalize NgramModel.backOff lm.model.levels
            (((context ++ [word]).drop (context.length + 1 - lm.model.levels.length)).map some)
              evaluation = counted at used shapedUsed ⊢
          have later := @ih (context ++ [word]) older
            { counted with numWords := counted.numWords + 1 } ⟨shapedUsed.probs, shapedUsed.bows⟩
          have isPrevious : (context ++ [word]).reverse.map some ++ older =
              some word :: (context.reverse.map some ++ older) := by
            rw [List.reverse_append, List.reverse_singleton]
            rfl
          have isOrder : min ((context ++ [word]).length + 1) lm.model.levels.length =
              min (min (context.length + 1) lm.model.levels.length + 1) lm.model.levels.length := by
            rw [List.length_append, List.length_singleton]
            omega
          rw [isPrevious, isOrder] at later
          rw [List.map_cons]
          exact used.trans later.renumber

end

/-! ### Numbers of words -/

theorem backOff_numbers (levels : List Level) (words : List (Option Nat)) (evaluation : Evaluation) :
    (NgramModel.backOff levels words evaluation).numOOV = evaluation.numOOV ∧
      (NgramModel.backOff levels words evaluation).numWords = evaluation.numWords := by
  induction words generalizing evaluation with
  | nil => exact ⟨rfl, rfl⟩
  | cons first rest ih =>
      rw [NgramModel.backOff]
      split
      · exact ⟨rfl, rfl⟩
      · split
        · exact ih _
        · exact ih _

theorem evalWords_numbers (levels : List Level) (previous : List (Option Nat)) (ngramOrder : Nat)
    (text : List (Option Nat)) (evaluation : Evaluation) :
    (NgramModel.evalWords levels previous ngramOrder text evaluation).numOOV =
        evaluation.numOOV + text.count none ∧
      (NgramModel.evalWords levels previous ngramOrder text evaluation).numWords =
        evaluation.numWords + text.countP Option.isSome := by
  induction text generalizing previous ngramOrder evaluation with
  | nil => exact ⟨rfl, rfl⟩
  | cons first text ih =>
      cases first with
      | none =>
          rw [NgramModel.evalWords, List.count_cons_self, List.countP_cons_of_neg Bool.false_ne_true]
          obtain ⟨isOOV, isWords⟩ := ih (none :: previous) 1
            { evaluation with numOOV := evaluation.numOOV + 1 }
          exact ⟨isOOV.trans (Nat.add_right_comm _ _ _), isWords⟩
      | some word =>
          rw [NgramModel.evalWords, List.count_cons_of_ne (Option.some_ne_none word),
            List.countP_cons_of_pos rfl]
          obtain ⟨sameOOV, sameWords⟩ := backOff_numbers levels
            ((some word :: previous).take ngramOrder).reverse evaluation
          generalize NgramModel.backOff levels ((some word :: previous).take ngramOrder).reverse
            evaluation = counted at sameOOV sameWords
          obtain ⟨isOOV, isWords⟩ := ih (some word :: previous) (min (ngramOrder + 1) levels.length)
            { counted with numWords := counted.numWords + 1 }
          rw [← sameOOV, ← sameWords]
          exact ⟨isOOV, isWords.trans (Nat.add_right_comm _ _ _)⟩

theorem length_longestNgrams (order : Nat) (context : List Nat) (text : List (Option Nat)) :
    (longestNgrams order context text).length = text.countP Option.isSome := by
  induction text generalizing context with
  | nil => rfl
  | cons first text ih =>
      cases first with
      | none => rw [longestNgrams, ih, List.countP_cons_of_neg Bool.false_ne_true]
      | some word => rw [longestNgrams, List.length_cons, ih, List.countP_cons_of_pos rfl]

/-! ### Texts -/

theorem Vocab.Open.find_eq {vocab : Vocab} (isOpen : vocab.Open) (word : Word) :
    vocab.find word = some (vocab.words.entries.idxOf? (Vocab.normal word)) := by
  rw [Vocab.find, Vocab.normal]
  split
  · have isFirst := isOpen.first
    cases isEntries : vocab.words.entries with
    | nil =>
        rw [isEntries] at isFirst
        cases isFirst
    | cons first rest =>
        rw [isEntries] at isFirst
        cases isFirst
        rw [List.idxOf?_cons, beq_self_eq_true, if_pos rfl]
        rfl
  · rw [isOpen.valid.find_eq, Option.map_some, isOpen.known, Option.or_none,
      lawful_beq_subsingleton (instBEqOfDecidableEq : BEq Word) List.instBEq]

def evalSentence (model : NgramModel) (evaluation : Evaluation) (line : List Char) : Evaluation :=
  NgramModel.evalWords model.levels [some Vocab.endOfSentence] (min 2 model.levels.length)
    (indexed model.vocab.words.entries line ++ [some Vocab.endOfSentence]) evaluation

def startEvaluation (model : NgramModel) : Evaluation :=
  { probCounts := model.sizes.map (fun size => List.replicate size 0)
    bowCounts := model.sizes.dropLast.map (fun size => List.replicate size 0)
    numOOV := 0
    numWords := 0 }

theorem loadEvalCorpus_eq {model : NgramModel} (isOpen : model.vocab.Open)
    (corpusFile : List Char) :
    model.loadEvalCorpus corpusFile =
      some ((sentencesOf (getlines corpusFile)).foldl (evalSentence model)
        (startEvaluation model)) := by
  have found : ∀ words : List Word, words.mapM model.vocab.find =
      some (words.map (fun word => model.vocab.words.entries.idxOf? (Vocab.normal word))) := by
    intro words
    induction words with
    | nil => rfl
    | cons word words ih =>
        rw [List.mapM_cons, isOpen.find_eq, ih]
        rfl
  rw [NgramModel.loadEvalCorpus]
  show List.foldlM (NgramModel.evalLine model) (startEvaluation model) (getlines corpusFile) = _
  generalize startEvaluation model = evaluation
  generalize getlines corpusFile = lines
  induction lines generalizing evaluation with
  | nil => rfl
  | cons line lines ih =>
      rw [List.foldlM_cons, NgramModel.evalLine, sentencesOf, List.filter_cons]
      cases isMark : isDocumentMark line with
      | true =>
          rw [if_pos rfl, Bool.not_true, if_neg Bool.false_ne_true]
          exact ih evaluation
      | false =>
          rw [if_neg Bool.false_ne_true, if_pos Bool.not_false, List.foldl_cons, found]
          exact ih _

theorem eval_numbers (model : NgramModel) (lines : List (List Char)) :
    ((sentencesOf lines).foldl (evalSentence model) (startEvaluation model)).numOOV =
        unknownWords model.vocab.words.entries lines ∧
      ((sentencesOf lines).foldl (evalSentence model) (startEvaluation model)).numWords =
        (evaluatedNgrams model.vocab.words.entries model.levels.length lines).length := by
  have run : ∀ (sentences : List (List Char)) (evaluation : Evaluation),
      (sentences.foldl (evalSentence model) evaluation).numOOV = evaluation.numOOV +
          (sentences.map (fun line => (indexed model.vocab.words.entries line).count none)).sum ∧
        (sentences.foldl (evalSentence model) evaluation).numWords = evaluation.numWords +
          (sentences.flatMap (fun line =>
            longestNgrams model.levels.length [Vocab.endOfSentence]
              (indexed model.vocab.words.entries line ++ [some Vocab.endOfSentence]))).length := by
    intro sentences
    induction sentences with
    | nil => exact fun evaluation => ⟨rfl, rfl⟩
    | cons line sentences ih =>
        intro evaluation
        obtain ⟨isOOV, isWords⟩ := ih (evalSentence model evaluation line)
        obtain ⟨hereOOV, hereWords⟩ := evalWords_numbers model.levels [some Vocab.endOfSentence]
          (min 2 model.levels.length)
          (indexed model.vocab.words.entries line ++ [some Vocab.endOfSentence]) evaluation
        rw [List.foldl_cons, isOOV, isWords, evalSentence, hereOOV, hereWords, List.map_cons,
          List.sum_cons, List.flatMap_cons, List.length_append, length_longestNgrams,
          List.count_append]
        exact ⟨Nat.add_assoc _ _ _, Nat.add_assoc _ _ _⟩
  obtain ⟨isOOV, isWords⟩ := run (sentencesOf lines) (startEvaluation model)
  exact ⟨isOOV.trans (Nat.zero_add _), isWords.trans (Nat.zero_add _)⟩

theorem shaped_startEvaluation (model : NgramModel) : (startEvaluation model).Shaped model := by
  have lengths : ∀ sizes : List Nat,
      (sizes.map (fun size => List.replicate size 0)).map List.length = sizes := by
    intro sizes
    rw [List.map_map]
    exact (List.map_congr_left (fun size _ => List.length_replicate)).trans (List.map_id sizes)
  exact ⟨lengths _, lengths _⟩

theorem shaped_loadEvalCorpus (model : NgramModel) (lines : List (List Char)) :
    ((sentencesOf lines).foldl (evalSentence model) (startEvaluation model)).Shaped model := by
  have shaped := shaped_startEvaluation model
  generalize startEvaluation model = evaluation at shaped
  induction sentencesOf lines generalizing evaluation with
  | nil => exact shaped
  | cons line sentences ih => exact ih _ (shaped.evalWords _ _ _)

/-- A text gains the probabilities of its known words. -/
theorem gains_loadEvalCorpus {lm : NgramLM} {tally : List Word → Nat}
    (estimated : lm.Estimated lm.model.vocab.words.entries tally) (positive : lm.Positive)
    (valid : ∀ level ∈ lm.model.levels, level.vector.Valid ngramHash)
    (several : 1 ≤ lm.model.levels.length) (lines : List (List Char)) :
    Gains lm ((evaluatedNgrams lm.model.vocab.words.entries lm.model.levels.length lines).map lm.prob)
      (startEvaluation lm.model)
      ((sentencesOf lines).foldl (evalSentence lm.model) (startEvaluation lm.model)) := by
  have shaped := shaped_startEvaluation lm.model
  rw [evaluatedNgrams]
  generalize startEvaluation lm.model = evaluation at shaped
  induction sentencesOf lines generalizing evaluation with
  | nil => exact Gains.refl
  | cons line sentences ih =>
      have here : Gains lm _ evaluation (evalSentence lm.model evaluation line) :=
        gains_evalWords estimated positive valid several [Vocab.endOfSentence] []
          (indexed lm.model.vocab.words.entries line ++ [some Vocab.endOfSentence]) shaped
      rw [List.flatMap_cons, List.map_append, List.foldl_cons]
      exact here.trans (ih _ (shaped.evalWords _ _ _))

end Mitlm
