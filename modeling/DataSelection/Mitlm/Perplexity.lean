/-
The entropy of a text under the parameters of a model.

Only what the text uses is estimated, over what the last parameters have left in the vectors.
The entropy is that of the words under the model that a whole estimation gives.
-/

import DataSelection.Mitlm.Evaluation
import DataSelection.Mitlm.Masking
import Mathlib.Analysis.SpecialFunctions.Log.Basic

namespace Mitlm

open Library KneserNeySmoothing

structure PerplexityOptimizer where
  evaluation : Evaluation
  mask : NgramLMMask

def usedCells (counts : List (List Nat)) : List (List Bool) :=
  counts.map (fun inRow => inRow.map (fun count => decide (count > 0)))

namespace PerplexityOptimizer

def loadCorpus (model : NgramModel) (text : List Char) : Option PerplexityOptimizer := do
  let evaluation ← model.loadEvalCorpus text
  some { evaluation := evaluation
         mask := NgramLM.getMask model (usedCells evaluation.probCounts)
          (usedCells evaluation.bowCounts) }

section

variable {K : Type} [Field K] [DecidableEq K] (log : Rat → K)
  (smoothings : List KneserNeySmoothing) (optimizer : PerplexityOptimizer)

/-- The entropy, 7 for parameters out of bounds and where there is nothing to divide; `none` where a
weight of zero is used, or where nothing is left to divide by. -/
def computeEntropy (lm : NgramLM) (params : List Rat) : Option (K × NgramLM) := do
  let (accepted, lm) ← lm.estimateMasked smoothings params optimizer.mask
  if accepted then
    if hasZeroBow lm optimizer.evaluation then none
    else
      let totLogProb : K := totLogProb log lm optimizer.evaluation
      let divisor := optimizer.evaluation.numWords - numZeroProbs lm optimizer.evaluation
      if divisor = 0 then (if totLogProb = 0 then some (7, lm) else none)
      else some (-totLogProb / (divisor : K), lm)
  else some (7, lm)

def entropies : NgramLM → List (List Rat) → Option (List K)
  | _, [] => some []
  | lm, params :: tried => do
      let (entropy, lm) ← optimizer.computeEntropy log smoothings lm params
      let later ← entropies lm tried
      some (entropy :: later)

end

end PerplexityOptimizer

/-! ### What the entropy is -/

section

variable {K : Type} [Field K] (log : Rat → K)

/-- The negative mean of the logarithms of the words; `none` if one of them is impossible. -/
def entropyOf (ngrams : List (List Nat)) (lm : NgramLM) : Option K :=
  if (ngrams.map lm.prob).contains 0 then none
  else if ngrams = [] then some 7
  else some (-((ngrams.map lm.prob).map log).sum / (ngrams.length : K))

def entropyAt (model : NgramModel) (smoothings : List KneserNeySmoothing) (ngrams : List (List Nat))
    (params : List Rat) : Option K :=
  match NgramLM.estimate model smoothings params with
  | some lm => entropyOf log ngrams lm
  | none => some 7

end

/-! ### Probabilities are positive -/

theorem estimateLevels_pos {lowerSize : Nat} {levels : List Level} {backoffs : List (List Nat)}
    (linked : LevelsLinked lowerSize levels backoffs)
    (counted : ∀ level ∈ levels, ∀ index < level.vector.size, 0 < level.counts.getD index 0)
    {isUnigram : Bool} {smoothings : List KneserNeySmoothing} {boProbs params : List Rat}
    (likely : ∀ index < lowerSize, 0 < boProbs.getD index 0) {vectors : List (List Rat × List Rat)}
    (ran : estimateLevels isUnigram lowerSize boProbs levels backoffs smoothings params =
      some vectors) {place : Nat} {level : Level} (isLevel : levels[place]? = some level) {index : Nat}
    (inside : index < level.vector.size) :
    0 < ((vectors.map Prod.fst).getD place []).getD index 0 := by
  induction levels generalizing lowerSize backoffs isUnigram smoothings boProbs params vectors place with
  | nil => cases isLevel
  | cons first levels ih =>
      cases backoffs with
      | nil => exact linked.elim
      | cons here later =>
          cases smoothings with
          | nil => cases ran
          | cons smoothing smoothings =>
              obtain ⟨viewed, exact, hists, tails, linkedLater⟩ := linked
              obtain ⟨⟨probs, bows⟩, ranFirst, ranLater⟩ := Option.bind_eq_some_iff.mp ran
              obtain ⟨higher, isHigher, isAll⟩ := Option.bind_eq_some_iff.mp ranLater
              cases isAll
              have likelyHere : ∀ index < first.vector.size, 0 < probs.getD index 0 := by
                intro index within
                obtain ⟨backoff, isBackoff, isInside⟩ := tails index within
                refine estimate_pos viewed exact hists ranFirst (counted first List.mem_cons_self index within)
                  within ?_
                rw [getD_of_getElem? isBackoff]
                exact likely backoff isInside
              cases place with
              | zero =>
                  cases isLevel
                  exact likelyHere index inside
              | succ place =>
                  exact ih linkedLater
                    (fun other member => counted other (List.mem_cons_of_mem first member)) likelyHere
                    isHigher isLevel

theorem NgramModel.Sorted.positive {limit order : Nat} {tally : List Word → Nat} {model : NgramModel}
    (sorted : model.Sorted limit order tally) (known : Known model.vocab.words.entries tally)
    {smoothings : List KneserNeySmoothing} {params : List Rat} {lm : NgramLM}
    (ran : NgramLM.estimate model smoothings params = some lm) : lm.Positive := by
  obtain ⟨isModel, estimated⟩ := sorted.estimated known ran
  have listed := sorted.levels.listed
  obtain ⟨prob, isSet, ranLevels⟩ := Option.bind_eq_some_iff.mp ran
  have linked := sorted.linked (NgramLM.setSmoothingAlgs_eq_some_iff.mp isSet).1
  obtain ⟨vectors, isVectors, isAll⟩ := Option.bind_eq_some_iff.mp ranLevels
  cases isAll
  have zeroth : 0 < prob := by
    have nonneg := estimated.zeroth
    have total := estimated.total
    have isStored : NgramLM.storedProb
        { model := model, probVectors := [prob] :: vectors.map Prod.fst,
          bowVectors := vectors.map Prod.snd } [] = prob := by
      rw [NgramLM.storedProb]
      cases model.levels <;> rfl
    rw [isStored] at nonneg total
    refine lt_of_le_of_ne nonneg ?_
    intro isZero
    rw [← isZero, mul_zero] at total
    exact zero_ne_one total
  have counted : ∀ level ∈ model.levels, ∀ index < level.vector.size,
      0 < level.counts.getD index 0 := by
    intro level member index inside
    obtain ⟨place, isLevel⟩ := List.mem_iff_getElem?.mp member
    have listedHere := listed.level isLevel
    have isGram := List.getElem?_eq_getElem (show index <
      (gramsOf model.vocab.words.entries
        (gramsAt model.vocab.words.entries place [[]] model.levels) level.vector).length by
          rw [gramsOf, List.length_map]
          exact inside)
    rw [listedHere.count index _ isGram]
    rcases listedHere.seen _ (List.mem_of_getElem? isGram) with isCounted | isEnd
    · exact isCounted
    · rw [isEnd]
      exact known _ (List.mem_of_getElem? sorted.isOpen.first)
  have likely := fun place level (isLevel : model.levels[place]? = some level) index
    (inside : index < level.vector.size) => estimateLevels_pos linked counted (by
      intro other isInside
      rw [Nat.lt_one_iff.mp isInside]
      exact zeroth) isVectors isLevel inside
  intro ngram index found
  rw [NgramLM.storedProb, found]
  by_cases isEmpty : ngram = []
  · subst isEmpty
    have isFound : NgramLM.find model.levels 0 [] = some 0 := by cases model.levels <;> rfl
    rw [← Option.some.inj (isFound.symm.trans found)]
    exact zeroth
  · obtain ⟨hist, word, histIndex, level, rfl, isLevel, _, isEntry⟩ :=
      NgramLM.Estimated.exists_of_find estimated.listed isEmpty found
    have positive := likely hist.length level isLevel index (List.getElem?_eq_some_iff.mp isEntry).1
    rw [List.length_append, List.length_singleton]
    exact positive

/-! ### Masks of a text -/

theorem usedCells_of_counted {counts : List (List Nat)} {order index : Nat}
    (counted : 0 < cell counts order index 0) :
    ((usedCells counts).getD order []).getD index false = true := by
  rw [cell, List.getD_eq_getElem?_getD, List.getD_eq_getElem?_getD] at counted
  rw [usedCells, List.getD_eq_getElem?_getD, List.getD_eq_getElem?_getD, List.getElem?_map]
  cases isRow : counts[order]? with
  | none =>
      rw [isRow] at counted
      cases counted
  | some inRow =>
      rw [isRow, Option.getD_some] at counted
      rw [Option.map_some, Option.getD_some, List.getElem?_map]
      cases isCount : inRow[index]? with
      | none =>
          rw [isCount] at counted
          cases counted
      | some count =>
          rw [isCount] at counted
          exact decide_eq_true counted

theorem map_length_usedCells (counts : List (List Nat)) :
    (usedCells counts).map List.length = counts.map List.length := by
  rw [usedCells, List.map_map]
  exact List.map_congr_left (fun inRow _ => List.length_map _)

theorem Evaluation.Shaped.fits {model : NgramModel} {evaluation : Evaluation}
    (shaped : evaluation.Shaped model) :
    NgramLM.Fits model (usedCells evaluation.probCounts) (usedCells evaluation.bowCounts) := by
  have probs := (map_length_usedCells evaluation.probCounts).trans shaped.probs
  have bows := (map_length_usedCells evaluation.bowCounts).trans shaped.bows
  obtain ⟨zeroth, later, isAll, isOne, areLater⟩ := List.map_eq_cons_iff.mp probs
  rw [isAll]
  exact ⟨isOne, levelsMasked_of_lengths areLater bows⟩

section

variable {evaluation : Evaluation} {lm whole : NgramLM}
  (agree : NgramLM.Agree (usedCells evaluation.probCounts) (usedCells evaluation.bowCounts) lm whole)

include agree

theorem cell_probs {order index : Nat} (counted : 0 < cell evaluation.probCounts order index 0) :
    cell lm.probVectors order index 1 = cell whole.probVectors order index 1 :=
  (agree.probs order).getD (usedCells_of_counted counted) 1

theorem cell_bows {order index : Nat} (counted : 0 < cell evaluation.bowCounts order index 0) :
    cell lm.bowVectors order index 1 = cell whole.bowVectors order index 1 :=
  (agree.bows order).getD (usedCells_of_counted counted) 1

/-- A text does not see what it does not use. -/
theorem hasZeroBow_eq : hasZeroBow lm evaluation = hasZeroBow whole evaluation := by
  rw [Bool.eq_iff_iff, hasZeroBow, hasZeroBow, anyCounted_iff, anyCounted_iff]
  constructor
  · rintro ⟨order, index, counted, isZero⟩
    rw [cell_bows agree counted] at isZero
    exact ⟨order, index, counted, isZero⟩
  · rintro ⟨order, index, counted, isZero⟩
    rw [← cell_bows agree counted] at isZero
    exact ⟨order, index, counted, isZero⟩

theorem numZeroProbs_eq : numZeroProbs lm evaluation = numZeroProbs whole evaluation := by
  refine sumCells_congr ?_
  intro order index
  by_cases counted : 0 < cell evaluation.probCounts order index 0
  · rw [cell_probs agree counted]
  · rw [if_neg (fun both => counted both.1), if_neg (fun both => counted both.1)]

theorem totLogProb_eq {K : Type} [Field K] (log : Rat → K) :
    totLogProb log lm evaluation = totLogProb log whole evaluation := by
  have sameProbs : sumCells evaluation.probCounts (probLog log lm.probVectors) =
      sumCells evaluation.probCounts (probLog log whole.probVectors) := by
    refine sumCells_congr ?_
    intro order index
    by_cases counted : 0 < cell evaluation.probCounts order index 0
    · rw [probLog, probLog, cell_probs agree counted]
    · rw [probLog, probLog, if_neg counted, if_neg counted]
  have sameBows : sumCells evaluation.bowCounts (bowLog log lm.bowVectors) =
      sumCells evaluation.bowCounts (bowLog log whole.bowVectors) := by
    refine sumCells_congr ?_
    intro order index
    by_cases counted : 0 < cell evaluation.bowCounts order index 0
    · rw [bowLog, bowLog, cell_bows agree counted]
    · rw [bowLog, bowLog, if_neg counted, if_neg counted]
  rw [totLogProb, totLogProb, sameProbs, sameBows]

end

/-! ### Entropies -/

theorem cell_startEvaluation (sizes : List Nat) (order index : Nat) :
    cell (sizes.map (fun size => List.replicate size 0)) order index 0 = 0 := by
  rw [cell, List.getD_eq_getElem?_getD, List.getD_eq_getElem?_getD, List.getElem?_map]
  cases sizes[order]? with
  | none => rfl
  | some size =>
      rw [Option.map_some, Option.getD_some, List.getElem?_replicate]
      split <;> rfl

theorem totLogProb_startEvaluation {K : Type} [Field K] (log : Rat → K) (lm : NgramLM)
    (model : NgramModel) : totLogProb log lm (startEvaluation model) = 0 := by
  have zeros : ∀ (sizes : List Nat) (term : Nat → Nat → Nat → K),
      (∀ order index, term order index 0 = 0) →
        sumCells (sizes.map (fun size => List.replicate size 0)) term = 0 := by
    intro sizes term isZero
    rw [sumCells]
    refine Finset.sum_eq_zero (fun order _ => Finset.sum_eq_zero (fun index _ => ?_))
    rw [cell_startEvaluation, isZero]
  have noProbs := zeros model.sizes (probLog log lm.probVectors)
    (fun _ _ => if_neg (Nat.lt_irrefl 0))
  have noBows := zeros model.sizes.dropLast (bowLog log lm.bowVectors)
    (fun _ _ => if_neg (Nat.lt_irrefl 0))
  rw [totLogProb, startEvaluation, noProbs, noBows, add_zero]

theorem hasZeroBow_startEvaluation (lm : NgramLM) (model : NgramModel) :
    ¬hasZeroBow lm (startEvaluation model) = true := by
  rw [hasZeroBow, anyCounted_iff]
  rintro ⟨order, index, counted, _⟩
  rw [startEvaluation, cell_startEvaluation] at counted
  cases counted

/-- The counts of a text are worth the probabilities of its words. -/
theorem value_of_gains {lm : NgramLM} {factors : List Rat} {model : NgramModel}
    {evaluation : Evaluation} (gains : Gains lm factors (startEvaluation model) evaluation) :
    (hasZeroBow lm evaluation = true ↔ 0 ∈ factors) ∧ numZeroProbs lm evaluation = 0 ∧
      ∀ {K : Type} [Field K] (log : Rat → K), IsLog log → 0 ∉ factors →
        totLogProb log lm evaluation = (factors.map log).sum := by
  refine ⟨?_, ?_, ?_⟩
  · rw [gains.zero]
    exact ⟨fun either => either.resolve_left (hasZeroBow_startEvaluation lm model), Or.inr⟩
  · have used := gains.used (by
      intro order index counted
      rw [startEvaluation, cell_startEvaluation] at counted
      cases counted)
    rw [numZeroProbs, sumCells]
    refine Finset.sum_eq_zero (fun order _ => Finset.sum_eq_zero (fun index _ => ?_))
    exact if_neg (fun both => used order index both.1 both.2)
  · intro K _ log isLog nonzero
    rw [gains.logs log isLog nonzero, totLogProb_startEvaluation, zero_add]

section

variable {order : Nat} (positive : 0 < order) {corpus : List Char} {start model : NgramModel}
  (created : NgramModel.create order = some start) (loads : start.loadCorpus corpus = some model)
  {smoothings : List KneserNeySmoothing} (each : smoothings.length = order)
  (defined : LevelsDefined 1 model.levels model.backoffs smoothings)
  {K : Type} [Field K] [DecidableEq K] {log : Rat → K} (isLog : IsLog log)

include positive created loads each defined isLog

/-- The entropy of parameters does not depend on those that were tried before. -/
theorem computeEntropy_eq {text : List Char} {optimizer : PerplexityOptimizer}
    (isLoaded : PerplexityOptimizer.loadCorpus model text = some optimizer) {lm : NgramLM}
    (allocated : lm.Allocated model) (params : List Rat) :
    ∃ after : NgramLM, after.Allocated model ∧
      optimizer.computeEntropy log smoothings lm params =
        (entropyAt log model smoothings
          (evaluatedNgrams model.vocab.words.entries order (getlines text)) params).map
            (fun entropy => (entropy, after)) := by
  obtain ⟨sorted, known⟩ := known_of_loadCorpus positive created loads
  have linked := sorted.linked allocated.inView
  have valid := sorted.levels.listed.valid
    (fun level member => of_decide_eq_true (List.all_eq_true.mp allocated.inView level member))
  obtain ⟨evaluation, isEvaluated, isOptimizer⟩ := Option.bind_eq_some_iff.mp isLoaded
  cases isOptimizer
  rw [loadEvalCorpus_eq sorted.isOpen] at isEvaluated
  have shaped := shaped_loadEvalCorpus model (getlines text)
  have numbers := (eval_numbers model (getlines text)).2
  rw [Option.some.inj isEvaluated] at shaped numbers
  obtain ⟨after, ran, allocatedAfter, agree⟩ := NgramLM.Allocated.exists_estimateMasked linked
    (each.trans sorted.orders.symm) defined shaped.fits allocated params
  refine ⟨after, allocatedAfter, ?_⟩
  simp only [PerplexityOptimizer.computeEntropy, ran, Option.bind_eq_bind, Option.bind_some]
  cases isWhole : NgramLM.estimate model smoothings params with
  | none =>
      rw [entropyAt, isWhole]
      rfl
  | some whole =>
      have agreeWhole := agree whole isWhole
      obtain ⟨rfl, estimated⟩ := sorted.estimated known isWhole
      have gains := gains_loadEvalCorpus estimated (sorted.positive known isWhole) valid
        (by rw [sorted.orders]; exact positive) (getlines text)
      rw [Option.some.inj isEvaluated, sorted.orders] at gains
      rw [sorted.orders] at numbers
      obtain ⟨isZero, noZeros, value⟩ := value_of_gains gains
      rw [Option.isSome_some, if_pos rfl, hasZeroBow_eq agreeWhole, numZeroProbs_eq agreeWhole,
        totLogProb_eq agreeWhole, noZeros, Nat.sub_zero, numbers, entropyAt, isWhole]
      simp only [entropyOf]
      generalize evaluatedNgrams whole.model.vocab.words.entries order (getlines text) = ngrams at isZero value ⊢
      by_cases impossible : (0 : Rat) ∈ ngrams.map whole.prob
      · rw [if_pos (isZero.mpr impossible), if_pos (List.contains_iff_mem.mpr impossible)]
        rfl
      · rw [if_neg (fun zero => impossible (isZero.mp zero)),
          if_neg (fun contained => impossible (List.contains_iff_mem.mp contained)),
          value log isLog impossible]
        by_cases isEmpty : ngrams = []
        · rw [if_pos isEmpty, isEmpty, List.length_nil, if_pos rfl]
          exact if_pos rfl
        · rw [if_neg isEmpty, if_neg (List.length_pos_iff.mpr isEmpty).ne']
          rfl

/-- Each try gives the entropy of the text under its own parameters. -/
theorem entropies_of_allocated {text : List Char} {optimizer : PerplexityOptimizer}
    (isLoaded : PerplexityOptimizer.loadCorpus model text = some optimizer) (tried : List (List Rat))
    {lm : NgramLM} (allocated : lm.Allocated model) :
    optimizer.entropies log smoothings lm tried =
      tried.mapM (entropyAt log model smoothings
        (evaluatedNgrams model.vocab.words.entries order (getlines text))) := by
  induction tried generalizing lm with
  | nil => rfl
  | cons params tried ih =>
      obtain ⟨after, allocatedAfter, ran⟩ :=
        computeEntropy_eq positive created loads each defined isLog isLoaded allocated params
      rw [PerplexityOptimizer.entropies, ran, List.mapM_cons]
      cases entropyAt log model smoothings
        (evaluatedNgrams model.vocab.words.entries order (getlines text)) params with
      | none => rfl
      | some entropy =>
          show (optimizer.entropies log smoothings after tried).bind _ = _
          rw [ih allocatedAfter]
          rfl

end

/-- Whatever was tried before, the entropy that is minimised is the negative mean log probability of
the known words of the text, each behind the longest context without unknown words, in the model
that the parameters give; it is 7 for parameters out of bounds. -/
theorem entropies_eq {order : Nat} (positive : 0 < order) {corpus : List Char}
    {start model : NgramModel} (created : NgramModel.create order = some start)
    (loads : start.loadCorpus corpus = some model) {smoothings : List KneserNeySmoothing}
    (each : smoothings.length = order)
    (defined : LevelsDefined 1 model.levels model.backoffs smoothings)
    {K : Type} [Field K] [DecidableEq K] {log : Rat → K} (isLog : IsLog log) (text : List Char) :
    ∃ optimizer, PerplexityOptimizer.loadCorpus model text = some optimizer ∧
      optimizer.evaluation.numOOV = unknownWords model.vocab.words.entries (getlines text) ∧
      optimizer.evaluation.numWords =
        (evaluatedNgrams model.vocab.words.entries order (getlines text)).length ∧
      ∀ (lm : NgramLM) (tried : List (List Rat)), lm.Allocated model →
        optimizer.entropies log smoothings lm tried =
          tried.mapM (entropyAt log model smoothings
            (evaluatedNgrams model.vocab.words.entries order (getlines text))) := by
  obtain ⟨sorted, _⟩ := known_of_loadCorpus positive created loads
  have isEvaluated := loadEvalCorpus_eq sorted.isOpen text
  obtain ⟨isOOV, isWords⟩ := eval_numbers model (getlines text)
  rw [sorted.orders] at isWords
  obtain ⟨optimizer, isLoaded, isEvaluation⟩ : ∃ optimizer,
      PerplexityOptimizer.loadCorpus model text = some optimizer ∧
        optimizer.evaluation =
          (sentencesOf (getlines text)).foldl (evalSentence model) (startEvaluation model) := by
    simp only [PerplexityOptimizer.loadCorpus, isEvaluated, Option.bind_eq_bind, Option.bind_some]
    exact ⟨_, rfl, rfl⟩
  rw [← isEvaluation] at isOOV isWords
  exact ⟨optimizer, isLoaded, isOOV, isWords, fun lm tried allocated =>
    entropies_of_allocated positive created loads each defined isLog isLoaded tried allocated⟩

theorem isLog_real : IsLog (fun x : Rat => Real.log (x : ℝ)) := by
  intro x y xPositive yPositive
  show Real.log ((x * y : Rat) : ℝ) = _
  rw [Rat.cast_mul, Real.log_mul (Rat.cast_pos.mpr xPositive).ne' (Rat.cast_pos.mpr yPositive).ne']

theorem entropies_eq_two :
    ∃ start model lm, NgramModel.create 2 = some start ∧
      start.loadCorpus "a b\n".toList = some model ∧
      NgramLM.estimate model (List.replicate 2 ⟨1, true⟩) [1 / 2, 1 / 2] = some lm ∧
      ∃ optimizer, PerplexityOptimizer.loadCorpus model "b c a\n".toList = some optimizer ∧
        optimizer.evaluation.numOOV =
          unknownWords model.vocab.words.entries (getlines "b c a\n".toList) ∧
        optimizer.evaluation.numWords =
          (evaluatedNgrams model.vocab.words.entries 2 (getlines "b c a\n".toList)).length ∧
        optimizer.entropies (fun x : Rat => Real.log (x : ℝ)) (List.replicate 2 ⟨1, true⟩) lm
            [[1 / 4, 3 / 4], [2, 0]] =
          [[1 / 4, 3 / 4], [2, 0]].mapM (entropyAt (fun x : Rat => Real.log (x : ℝ)) model
            (List.replicate 2 ⟨1, true⟩)
              (evaluatedNgrams model.vocab.words.entries 2 (getlines "b c a\n".toList))) := by
  obtain ⟨start, model, created, loads, inner⟩ := exists_model_two
  have sorted := sorted_of_loadCorpus two_pos created loads inner
  obtain ⟨lm, ran⟩ := @exists_estimate_two _ _ created loads inner [1 / 2, 1 / 2] (by decide +kernel)
  obtain ⟨optimizer, isLoaded, isOOV, isWords, entropies⟩ :=
    entropies_eq two_pos created loads List.length_replicate (defined_two model) isLog_real "b c a\n".toList
  exact ⟨start, model, lm, created, loads, ran, optimizer, isLoaded, isOOV, isWords,
    entropies lm _ (NgramLM.allocated_of_estimate sorted.levels.listed.exact ran)⟩

end Mitlm
