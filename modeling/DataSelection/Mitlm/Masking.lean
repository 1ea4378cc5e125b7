/-
Estimation of the part of a model that is asked for.

A mask is completed from the last order down: a probability needs its backoff and the weight of
its history, and a weight needs the discounts of all n-grams of its history.  Whatever the
vectors hold elsewhere, the entries of a completed mask are those of a whole estimation.
-/

import DataSelection.Library.Masks
import DataSelection.Mitlm.Probabilities

namespace Mitlm

open Library

/-- What is asked of an order, of the weights of its histories, and of its discounts. -/
structure OrderMask where
  probMask : List Bool
  bowMask : List Bool
  discMask : List Bool

/-- The masks of the orders from 1 on, behind that of order 0. -/
structure NgramLMMask where
  zeroProbMask : List Bool
  orderMasks : List OrderMask

namespace KneserNeySmoothing

/-! ### Masks -/

/-- Asks for what the probabilities of an order need: the mask of the order below, and of the order. -/
def updateMask (level : Level) (backoffs : List Nat) (probMask boProbMask boBowMask : List Bool) :
    List Bool × OrderMask :=
  let histories := level.hists
  let boBowMask := mark probMask histories boBowMask
  (mark probMask backoffs boProbMask,
    { probMask := probMask
      bowMask := boBowMask
      discMask := histories.map (fun hist => boBowMask.getD hist false) })

/-- The orders are asked in reverse. -/
def updateMasks : List Bool → List Level → List (List Nat) → List (List Bool) → List (List Bool) →
    List Bool × List OrderMask
  | boProbMask, level :: levels, backoffs :: later, probMask :: probMasks, bowMask :: bowMasks =>
      let (probMask, above) := updateMasks probMask levels later probMasks bowMasks
      let (boProbMask, orderMask) := updateMask level backoffs probMask boProbMask bowMask
      (boProbMask, orderMask :: above)
  | boProbMask, _, _, _, _ => (boProbMask, [])

/-! ### Estimation -/

variable (smoothing : KneserNeySmoothing)

/-- The discounts that are asked for, in a vector that holds probabilities elsewhere. -/
def maskedDiscounts (discParams : List (Option Rat)) (effCounts : List Nat) (discMask : List Bool)
    (probs : List Rat) : Option (List Rat) :=
  ((discMask.zip effCounts).zip probs).mapM (fun entry =>
    if entry.1.1 then discParams.getD (min entry.1.2 smoothing.discOrder) none else some entry.2)

def maskedBackoffWeights (initialized : Initialized) (discounts : List Rat) (bowMask : List Bool)
    (bows : List Rat) : List Rat :=
  let cleared := List.zipWith (fun masked bow => if masked then 0 else bow) bowMask bows
  let binned := maskedBinWeight bowMask initialized.hists discounts cleared
  List.zipWith (fun masked (pair : Rat × Rat) =>
    if masked then (if pair.1 = 0 then 1 else pair.2 * pair.1) else pair.2)
      bowMask (initialized.invHistCounts.zip binned)

/-- Leaves what is not asked for as it is, apart from discounts in the place of probabilities. -/
def estimateMasked (isUnigram : Bool) (initialized : Initialized) (discParams : List (Option Rat))
    (mask : OrderMask) (boProbs probs bows : List Rat) : Option (List Rat × List Rat) := do
  let discounts ← smoothing.maskedDiscounts discParams initialized.effCounts mask.discMask probs
  let bows := maskedBackoffWeights initialized discounts mask.bowMask bows
  some ((List.range discounts.length).map (fun index =>
    if mask.probMask.getD index false then
      interpolate isUnigram initialized discounts boProbs bows index
    else discounts.getD index 0), bows)

end KneserNeySmoothing

open KneserNeySmoothing

/-- Whether the parameters are accepted, and the vectors behind the orders up to the first whose
parameters are not; `none` where a discount that is asked for is undefined. -/
def estimateMaskedLevels : Bool → Nat → List Rat → List Level → List (List Nat) →
    List KneserNeySmoothing → List Rat → List OrderMask → List (List Rat × List Rat) →
      Option (Bool × List (List Rat × List Rat))
  | isUnigram, lowerSize, boProbs, level :: levels, backoffs :: later, smoothing :: smoothings,
      params, mask :: masks, (probs, bows) :: vectors =>
      let initialized := smoothing.initializeOrder lowerSize level backoffs (nextOrder levels later)
      match smoothing.unpack initialized (params.take smoothing.numParams) with
      | none => some (false, (probs, bows) :: vectors)
      | some discParams => do
          let (probs, bows) ←
            smoothing.estimateMasked isUnigram initialized discParams mask boProbs probs bows
          let (accepted, vectors) ← estimateMaskedLevels false level.vector.size probs levels later
            smoothings (params.drop smoothing.numParams) masks vectors
          some (accepted, (probs, bows) :: vectors)
  | _, _, _, _, _, _, _, _, vectors => some (true, vectors)

namespace NgramLM

def getMask (model : NgramModel) (probMasks bowMasks : List (List Bool)) : NgramLMMask :=
  let (zeroProbMask, orderMasks) :=
    updateMasks (probMasks.headD []) model.levels model.backoffs probMasks.tail bowMasks
  { zeroProbMask := zeroProbMask
    orderMasks := orderMasks }

def estimateMasked (lm : NgramLM) (smoothings : List KneserNeySmoothing) (params : List Rat)
    (mask : NgramLMMask) : Option (Bool × NgramLM) := do
  let zeroProbs := lm.probVectors.headD []
  let (accepted, vectors) ← estimateMaskedLevels true 1 zeroProbs lm.model.levels lm.model.backoffs
    smoothings params mask.orderMasks (lm.probVectors.tail.zip lm.bowVectors)
  some (accepted,
    { lm with
      probVectors := zeroProbs :: vectors.map Prod.fst
      bowVectors := vectors.map Prod.snd })

end NgramLM

/-! ### One order -/

/-- A mask of an order that asks for all that its probabilities need. -/
structure OrderMask.Closed (mask : OrderMask) (lowerSize : Nat) (level : Level) (backoffs : List Nat)
    (boProbMask : List Bool) : Prop where
  lengthProb : mask.probMask.length = level.vector.size
  lengthBow : mask.bowMask.length = lowerSize
  disc : mask.discMask =
    (level.vector.entries.map Prod.fst).map (fun hist => mask.bowMask.getD hist false)
  hist : ∀ (index : Nat) ngram, mask.probMask.getD index false = true →
    level.vector.entries[index]? = some ngram → mask.bowMask.getD ngram.1 false = true
  backoff : ∀ index, mask.probMask.getD index false = true →
    boProbMask.getD (backoffs.getD index 0) false = true

namespace KneserNeySmoothing

variable {smoothing : KneserNeySmoothing}

theorem exists_maskedDiscounts {discParams : List (Option Rat)} {effCounts : List Nat}
    {discounted : List Rat} (ran : smoothing.discounts discParams effCounts = some discounted)
    {discMask : List Bool} {probs : List Rat} (lengthMask : discMask.length = effCounts.length)
    (lengthProbs : probs.length = effCounts.length) :
    ∃ partly, smoothing.maskedDiscounts discParams effCounts discMask probs = some partly ∧
      partly.length = effCounts.length ∧ AgreeOn discMask partly discounted := by
  rw [discounts] at ran
  simp only [maskedDiscounts]
  induction effCounts generalizing discounted discMask probs with
  | nil =>
      obtain rfl := List.length_eq_zero_iff.mp lengthMask
      obtain rfl := List.length_eq_zero_iff.mp lengthProbs
      refine ⟨[], rfl, rfl, ?_⟩
      intro index impossible
      cases impossible
  | cons effCount effCounts ih =>
      cases discMask with
      | nil => cases lengthMask
      | cons masked discMask =>
          cases probs with
          | nil => cases lengthProbs
          | cons prob probs =>
              rw [List.mapM_cons] at ran
              obtain ⟨disc, isDisc, ranLater⟩ := Option.bind_eq_some_iff.mp ran
              obtain ⟨later, isLater, isAll⟩ := Option.bind_eq_some_iff.mp ranLater
              cases isAll
              obtain ⟨partly, ranPartly, isLength, agree⟩ :=
                ih isLater (Nat.succ.inj lengthMask) (Nat.succ.inj lengthProbs)
              refine ⟨(if masked then disc else prob) :: partly, ?_, congrArg Nat.succ isLength, ?_⟩
              · rw [List.zip_cons_cons, List.zip_cons_cons, List.mapM_cons, ranPartly]
                cases masked with
                | true => rw [if_pos rfl, isDisc]; rfl
                | false => rfl
              · intro index marked
                cases index with
                | zero =>
                    have isMasked : masked = true := marked
                    rw [isMasked]
                    rfl
                | succ index => exact agree index marked

section

variable {initialized : Initialized} {lowerSize : Nat} {bowMask : List Bool} {partly discounted : List Rat}
  (lengthBow : bowMask.length = lowerSize) (lengthInverse : initialized.invHistCounts.length = lowerSize)
  {bows : List Rat} (lengthBows : bows.length = lowerSize)

include lengthBow lengthInverse lengthBows

theorem length_maskedBackoffWeights :
    (maskedBackoffWeights initialized partly bowMask bows).length = lowerSize := by
  simp only [maskedBackoffWeights, List.length_zipWith, List.length_zip, length_maskedBinWeight,
    lengthBow, lengthInverse, lengthBows, Nat.min_self]

theorem agreeOn_maskedBackoffWeights (sameLength : partly.length = discounted.length)
    (agree : ∀ (place : Nat) hist, initialized.hists[place]? = some hist →
      bowMask.getD hist false = true → partly[place]? = discounted[place]?) :
    AgreeOn bowMask (maskedBackoffWeights initialized partly bowMask bows)
      (backoffWeights initialized discounted) := by
  have cleared : AgreeOn bowMask
      (List.zipWith (fun masked bow => if masked then 0 else bow) bowMask bows)
      (List.replicate initialized.invHistCounts.length 0) := by
    intro index marked
    have inside := inside_of_marked marked
    have isBow := List.getElem?_eq_getElem (show index < bows.length by omega)
    rw [List.getD_eq_getElem?_getD, List.getElem?_eq_getElem inside, Option.getD_some] at marked
    rw [List.getElem?_zipWith, List.getElem?_eq_getElem inside, isBow, List.getElem?_replicate,
      if_pos (by omega), marked]
    rfl
  have binned := agreeOn_maskedBinWeight sameLength agree cleared
  intro index marked
  have isMask : bowMask[index]? = some true := by
    rw [List.getD_eq_getElem?_getD] at marked
    cases isMask : bowMask[index]? with
    | none =>
        rw [isMask] at marked
        cases marked
    | some masked =>
        rw [isMask] at marked
        exact congrArg some marked
  rw [maskedBackoffWeights, backoffWeights, List.getElem?_zipWith, isMask, List.getElem?_zipWith,
    ← binned index marked, List.zip, List.getElem?_zipWith]
  cases initialized.invHistCounts[index]? with
  | none => rfl
  | some inverse =>
      cases (maskedBinWeight bowMask initialized.hists partly _)[index]? with
      | none => rfl
      | some weight => rfl

end

/-- A masked estimation of an order agrees with the whole one on a closed mask, whatever the vectors
held. -/
theorem exists_estimateMasked {isUnigram : Bool} {lowerSize : Nat} {level : Level} {backoffs : List Nat}
    {higher : Option (Level × List Nat)} (viewed : level.hists = level.vector.entries.map Prod.fst)
    (exact : level.counts.length = level.vector.size)
    {mask : OrderMask} {boProbMask : List Bool} (closed : mask.Closed lowerSize level backoffs boProbMask)
    {stale boProbs : List Rat} (agree : AgreeOn boProbMask stale boProbs)
    {discParams : List (Option Rat)} {discounted : List Rat}
    (ran : smoothing.discounts discParams
      (smoothing.initializeOrder lowerSize level backoffs higher).effCounts = some discounted)
    (lengthDiscounted : (smoothing.initializeOrder lowerSize level backoffs higher).effCounts.length =
      discounted.length)
    {probs bows : List Rat} (lengthProbs : probs.length = level.vector.size)
    (lengthBows : bows.length = lowerSize) :
    ∃ newProbs newBows, smoothing.estimateMasked isUnigram
        (smoothing.initializeOrder lowerSize level backoffs higher) discParams mask stale probs bows =
          some (newProbs, newBows) ∧
      newProbs.length = level.vector.size ∧ newBows.length = lowerSize ∧
      AgreeOn mask.bowMask newBows
        (backoffWeights (smoothing.initializeOrder lowerSize level backoffs higher) discounted) ∧
      AgreeOn mask.probMask newProbs
        ((List.range (smoothing.initializeOrder lowerSize level backoffs higher).effCounts.length).map
          (interpolate isUnigram (smoothing.initializeOrder lowerSize level backoffs higher) discounted
            boProbs (backoffWeights (smoothing.initializeOrder lowerSize level backoffs higher)
              discounted))) := by
  obtain ⟨initialized, isInitialized⟩ : ∃ initialized,
      initialized = smoothing.initializeOrder lowerSize level backoffs higher := ⟨_, rfl⟩
  have isHists : initialized.hists = level.vector.entries.map Prod.fst := by
    rw [isInitialized]
    exact viewed
  have isBackoffs : initialized.backoffs = backoffs := by rw [isInitialized]; rfl
  have isSize : initialized.effCounts.length = level.vector.size := by
    rw [isInitialized]
    exact length_effCounts exact higher
  have lengthInverse : initialized.invHistCounts.length = lowerSize := by
    rw [isInitialized]
    show (invHistCounts _ _ _).length = lowerSize
    rw [invHistCounts, List.length_map, length_binWeight, List.length_replicate]
  rw [← isInitialized] at ran lengthDiscounted ⊢
  have lengthMask : mask.discMask.length = initialized.effCounts.length := by
    rw [closed.disc, List.length_map, List.length_map, isSize, HashVector.size]
  obtain ⟨partly, ranPartly, lengthPartly, agreeDisc⟩ :=
    exists_maskedDiscounts ran lengthMask (lengthProbs.trans isSize.symm)
  have behind : ∀ (place : Nat) hist, initialized.hists[place]? = some hist →
      mask.bowMask.getD hist false = true → partly[place]? = discounted[place]? := by
    intro place hist isHist marked
    apply agreeDisc
    rw [isHists] at isHist
    rw [closed.disc, List.getD_eq_getElem?_getD, List.getElem?_map, isHist]
    exact marked
  have agreeBows := agreeOn_maskedBackoffWeights closed.lengthBow lengthInverse lengthBows
    (lengthPartly.trans lengthDiscounted) behind
  have lengthNew := @length_maskedBackoffWeights initialized lowerSize mask.bowMask partly
    closed.lengthBow lengthInverse bows lengthBows
  refine ⟨_, _, by rw [estimateMasked, ranPartly]; rfl, ?_, lengthNew, agreeBows, ?_⟩
  · rw [List.length_map, List.length_range, lengthPartly, isSize]
  · intro index marked
    have inside : index < level.vector.size := closed.lengthProb ▸ inside_of_marked marked
    obtain ⟨ngram, isEntry⟩ : ∃ ngram, level.vector.entries[index]? = some ngram :=
      ⟨_, List.getElem?_eq_getElem inside⟩
    have markedHist := closed.hist index ngram marked isEntry
    have isHist : initialized.hists[index]? = some ngram.1 := by
      rw [isHists, List.getElem?_map, isEntry]
      rfl
    have isBow := agreeBows.getD markedHist 0
    have isDisc : partly.getD index 0 = discounted.getD index 0 := by
      rw [List.getD_eq_getElem?_getD, behind index _ isHist markedHist,
        ← List.getD_eq_getElem?_getD]
    rw [List.getElem?_map, List.getElem?_map, List.getElem?_range (by omega),
      List.getElem?_range (by omega), Option.map_some, Option.map_some, if_pos marked]
    simp only [interpolate, isBackoffs, getD_of_getElem? isHist, isDisc,
      agree.getD (closed.backoff index marked), isBow]

end KneserNeySmoothing

/-! ### All orders -/

def LevelsAllocated : Nat → List Level → List (List Rat × List Rat) → Prop
  | _, [], [] => True
  | lowerSize, level :: levels, vectors :: later =>
      vectors.1.length = level.vector.size ∧ vectors.2.length = lowerSize ∧
        LevelsAllocated level.vector.size levels later
  | _, _, _ => False

def LevelsMasked : Nat → List Level → List (List Bool) → List (List Bool) → Prop
  | _, [], [], [] => True
  | lowerSize, level :: levels, probMask :: probMasks, bowMask :: bowMasks =>
      probMask.length = level.vector.size ∧ bowMask.length = lowerSize ∧
        LevelsMasked level.vector.size levels probMasks bowMasks
  | _, _, _, _ => False

/-- The n-grams of each order have a history in view and a backoff, both in the order below. -/
def LevelsLinked : Nat → List Level → List (List Nat) → Prop
  | _, [], [] => True
  | lowerSize, level :: levels, backoffs :: later =>
      level.hists = level.vector.entries.map Prod.fst ∧
        level.counts.length = level.vector.size ∧
        (∀ ngram ∈ level.vector.entries, ngram.1 < lowerSize) ∧
        (∀ index < level.vector.size, ∃ backoff, backoffs[index]? = some backoff ∧
          backoff < lowerSize) ∧
        LevelsLinked level.vector.size levels later
  | _, _, _ => False

def LevelsClosed : Nat → List Bool → List Level → List (List Nat) → List OrderMask → Prop
  | _, _, [], [], [] => True
  | lowerSize, boProbMask, level :: levels, backoffs :: later, mask :: masks =>
      mask.Closed lowerSize level backoffs boProbMask ∧
        LevelsClosed level.vector.size mask.probMask levels later masks
  | _, _, _, _, _ => False

def LevelsAgree : List OrderMask → List (List Rat × List Rat) → List (List Rat × List Rat) → Prop
  | [], [], [] => True
  | mask :: masks, left :: lefts, right :: rights =>
      AgreeOn mask.probMask left.1 right.1 ∧ AgreeOn mask.bowMask left.2 right.2 ∧
        LevelsAgree masks lefts rights
  | _, _, _ => False

theorem linked_of_listed {words : List Word} {tally : List Word → Nat} {order : Nat}
    {below : List (List Word)} {levels : List Level} {backoffs : List (List Nat)}
    (listed : LevelsListed words tally order below levels)
    (backed : LevelsBacked words below levels backoffs)
    (viewed : ∀ level ∈ levels, level.hists = level.vector.entries.map Prod.fst) :
    LevelsLinked below.length levels backoffs := by
  induction levels generalizing order below backoffs with
  | nil =>
      cases backoffs with
      | nil => trivial
      | cons first later => exact backed.elim
  | cons level levels ih =>
      cases backoffs with
      | nil => exact backed.elim
      | cons first later =>
          obtain ⟨listedHere, listedLater⟩ := listed
          obtain ⟨tails, backedLater⟩ := backed
          have isSize := length_gramsOf words below level.vector
          have linkedLater := ih listedLater backedLater
            (fun other member => viewed other (List.mem_cons_of_mem level member))
          rw [isSize] at linkedLater
          refine ⟨viewed level List.mem_cons_self, listedHere.exact, listedHere.formed.hist, ?_,
            linkedLater⟩
          intro index inside
          obtain ⟨backoff, isBackoff, isTail⟩ :=
            tails index _ (List.getElem?_eq_getElem (isSize ▸ inside))
          exact ⟨backoff, isBackoff, (List.getElem?_eq_some_iff.mp isTail).1⟩

theorem NgramModel.Sorted.linked {limit order : Nat} {tally : List Word → Nat} {model : NgramModel}
    (sorted : model.Sorted limit order tally) (viewed : NgramLM.inView model = true) :
    LevelsLinked 1 model.levels model.backoffs :=
  linked_of_listed sorted.levels.listed sorted.backed (NgramLM.hists_of_inView viewed)

theorem updateMask_closed {lowerSize : Nat} {level : Level} {backoffs : List Nat}
    (viewed : level.hists = level.vector.entries.map Prod.fst)
    (hists : ∀ ngram ∈ level.vector.entries, ngram.1 < lowerSize)
    (tails : ∀ index < level.vector.size, ∃ backoff, backoffs[index]? = some backoff ∧
      backoff < lowerSize)
    {probMask boProbMask bowMask : List Bool} (lengthProb : probMask.length = level.vector.size)
    (lengthBo : boProbMask.length = lowerSize) (lengthBow : bowMask.length = lowerSize) :
    (updateMask level backoffs probMask boProbMask bowMask).2.Closed lowerSize level backoffs
      (updateMask level backoffs probMask boProbMask bowMask).1 := by
  rw [updateMask, viewed]
  constructor
  · exact lengthProb
  · exact (length_mark _ _ _).trans lengthBow
  · rfl
  · intro index ngram marked isEntry
    refine getD_mark marked (?_ : _ = some ngram.1) ?_
    · rw [List.getElem?_map, isEntry]
      rfl
    · rw [lengthBow]
      exact hists ngram (List.mem_of_getElem? isEntry)
  · intro index marked
    have inside : index < level.vector.size := lengthProb ▸ inside_of_marked marked
    obtain ⟨backoff, isBackoff, isInside⟩ := tails index inside
    rw [getD_of_getElem? isBackoff]
    exact getD_mark marked isBackoff (lengthBo.symm ▸ isInside)

/-- Completed masks are closed, and ask for all that was asked for. -/
theorem updateMasks_closed {lowerSize : Nat} {levels : List Level} {backoffs : List (List Nat)}
    (linked : LevelsLinked lowerSize levels backoffs) {boProbMask : List Bool}
    {probMasks bowMasks : List (List Bool)} (lengthBo : boProbMask.length = lowerSize)
    (masked : LevelsMasked lowerSize levels probMasks bowMasks) :
    (updateMasks boProbMask levels backoffs probMasks bowMasks).1.length = lowerSize ∧
      (∀ place, boProbMask.getD place false = true →
        (updateMasks boProbMask levels backoffs probMasks bowMasks).1.getD place false = true) ∧
      LevelsClosed lowerSize (updateMasks boProbMask levels backoffs probMasks bowMasks).1 levels
        backoffs (updateMasks boProbMask levels backoffs probMasks bowMasks).2 ∧
      ∀ order mask, (updateMasks boProbMask levels backoffs probMasks bowMasks).2[order]? = some mask →
        (∀ place, (probMasks.getD order []).getD place false = true →
          mask.probMask.getD place false = true) ∧
        ∀ place, (bowMasks.getD order []).getD place false = true →
          mask.bowMask.getD place false = true := by
  induction levels generalizing lowerSize backoffs boProbMask probMasks bowMasks with
  | nil =>
      cases backoffs with
      | cons first later => exact linked.elim
      | nil =>
          refine ⟨lengthBo, fun place marked => marked, trivial, ?_⟩
          intro order mask impossible
          cases impossible
  | cons level levels ih =>
      cases backoffs with
      | nil => exact linked.elim
      | cons here later =>
          cases probMasks with
          | nil => exact masked.elim
          | cons probMask probMasks =>
              cases bowMasks with
              | nil => exact masked.elim
              | cons bowMask bowMasks =>
                  obtain ⟨viewed, _, hists, tails, linkedLater⟩ := linked
                  obtain ⟨lengthProb, lengthBow, maskedLater⟩ := masked
                  obtain ⟨lengthAbove, kept, closedAbove, keptAbove⟩ :=
                    ih linkedLater lengthProb maskedLater
                  simp only [updateMasks]
                  refine ⟨(length_mark _ _ _).trans lengthBo,
                    fun place marked => getD_mark_of_getD marked _ _,
                    ⟨updateMask_closed viewed hists tails lengthAbove lengthBo lengthBow, closedAbove⟩, ?_⟩
                  intro order mask isMask
                  cases order with
                  | zero =>
                      cases isMask
                      exact ⟨kept, fun place marked => getD_mark_of_getD marked _ _⟩
                  | succ order => exact keptAbove order mask isMask

/-- A masked estimation is accepted if the whole one is, and then agrees with it on the masks; and it
leaves vectors that can be estimated again. -/
theorem estimateMaskedLevels_agrees {lowerSize : Nat} {levels : List Level} {backoffs : List (List Nat)}
    (linked : LevelsLinked lowerSize levels backoffs) {smoothings : List KneserNeySmoothing}
    (each : smoothings.length = levels.length)
    (defined : LevelsDefined lowerSize levels backoffs smoothings) {boProbMask : List Bool}
    {masks : List OrderMask} (closed : LevelsClosed lowerSize boProbMask levels backoffs masks)
    {vectors : List (List Rat × List Rat)} (allocated : LevelsAllocated lowerSize levels vectors)
    {stale boProbs : List Rat} (agree : AgreeOn boProbMask stale boProbs) (isUnigram : Bool)
    (params : List Rat) :
    ∃ accepted after, estimateMaskedLevels isUnigram lowerSize stale levels backoffs smoothings params
        masks vectors = some (accepted, after) ∧ LevelsAllocated lowerSize levels after ∧
      accepted =
        (estimateLevels isUnigram lowerSize boProbs levels backoffs smoothings params).isSome ∧
      ∀ whole, estimateLevels isUnigram lowerSize boProbs levels backoffs smoothings params =
        some whole → LevelsAgree masks after whole := by
  induction levels generalizing lowerSize backoffs smoothings boProbMask masks vectors stale boProbs
    isUnigram params with
  | nil =>
      cases masks with
      | cons mask masks =>
          cases backoffs with
          | nil => exact closed.elim
          | cons first later => exact closed.elim
      | nil =>
          cases vectors with
          | cons first later => exact allocated.elim
          | nil =>
              refine ⟨true, [], rfl, trivial, rfl, ?_⟩
              intro whole isWhole
              cases isWhole
              trivial
  | cons level levels ih =>
      cases backoffs with
      | nil => exact linked.elim
      | cons here later =>
      cases smoothings with
      | nil => cases each
      | cons smoothing smoothings =>
      cases masks with
      | nil => exact closed.elim
      | cons mask masks =>
      cases vectors with
      | nil => exact allocated.elim
      | cons vector vectors =>
          obtain ⟨viewed, exact, hists, tails, linkedLater⟩ := linked
          obtain ⟨definedHere, definedLater⟩ := defined
          obtain ⟨closedHere, closedLater⟩ := closed
          obtain ⟨lengthProbs, lengthBows, allocatedLater⟩ := allocated
          simp only [estimateMaskedLevels, estimateLevels, estimate]
          cases unpacked : smoothing.unpack
              (smoothing.initializeOrder lowerSize level here (nextOrder levels later))
              (params.take smoothing.numParams) with
          | none =>
              refine ⟨false, vector :: vectors, rfl, ⟨lengthProbs, lengthBows, allocatedLater⟩, rfl, ?_⟩
              intro whole impossible
              cases impossible
          | some discParams =>
              obtain ⟨discounted, isDiscounted⟩ := exists_discounts definedHere unpacked
              have sameLength := (discounts_spec
                (bounded_unpack bounded_initializeOrder unpacked) isDiscounted).1
              obtain ⟨newProbs, newBows, ran, lengthNew, lengthNewBows, agreeBows, agreeProbs⟩ :=
                @exists_estimateMasked smoothing isUnigram _ _ _ (nextOrder levels later) viewed exact mask
                  boProbMask closedHere stale boProbs agree discParams discounted isDiscounted
                  sameLength vector.1 vector.2 lengthProbs lengthBows
              obtain ⟨accepted, after, ranLater, allocatedAfter, isAccepted, agreeLater⟩ :=
                ih linkedLater (Nat.succ.inj each) definedLater closedLater allocatedLater agreeProbs
                  false (params.drop smoothing.numParams)
              simp only [Option.bind_eq_bind, Option.bind_some, isDiscounted, ran, ranLater]
              refine ⟨accepted, (newProbs, newBows) :: after, rfl,
                ⟨lengthNew, lengthNewBows, allocatedAfter⟩, ?_, ?_⟩
              · rw [isAccepted]
                cases estimateLevels false level.vector.size _ levels later smoothings
                  (params.drop smoothing.numParams) with
                | none => rfl
                | some higher => rfl
              · intro whole isWhole
                obtain ⟨higher, isHigher, isAll⟩ := Option.bind_eq_some_iff.mp isWhole
                cases isAll
                exact ⟨agreeProbs, agreeBows, agreeLater higher isHigher⟩

theorem LevelsAgree.order {masks : List OrderMask} {lefts rights : List (List Rat × List Rat)}
    (agree : LevelsAgree masks lefts rights) {order : Nat} {mask : OrderMask}
    (isMask : masks[order]? = some mask) :
    AgreeOn mask.probMask ((lefts.map Prod.fst).getD order []) ((rights.map Prod.fst).getD order []) ∧
      AgreeOn mask.bowMask ((lefts.map Prod.snd).getD order [])
        ((rights.map Prod.snd).getD order []) := by
  induction masks generalizing lefts rights order with
  | nil => cases isMask
  | cons first masks ih =>
      cases lefts with
      | nil => exact agree.elim
      | cons left lefts =>
          cases rights with
          | nil => exact agree.elim
          | cons right rights =>
              obtain ⟨agreeProbs, agreeBows, agreeLater⟩ := agree
              cases order with
              | zero =>
                  cases isMask
                  exact ⟨agreeProbs, agreeBows⟩
              | succ order => exact ih agreeLater isMask

theorem length_updateMasks {boProbMask : List Bool} {lowerSize : Nat} {levels : List Level}
    {backoffs : List (List Nat)} (linked : LevelsLinked lowerSize levels backoffs)
    {probMasks bowMasks : List (List Bool)} (masked : LevelsMasked lowerSize levels probMasks bowMasks) :
    (updateMasks boProbMask levels backoffs probMasks bowMasks).2.length = probMasks.length ∧
      probMasks.length = bowMasks.length := by
  induction levels generalizing boProbMask lowerSize backoffs probMasks bowMasks with
  | nil =>
      cases probMasks with
      | nil =>
          cases bowMasks with
          | nil => cases backoffs <;> exact ⟨rfl, rfl⟩
          | cons bowMask bowMasks => exact masked.elim
      | cons probMask probMasks => exact masked.elim
  | cons level levels ih =>
      cases backoffs with
      | nil => exact linked.elim
      | cons here later =>
          cases probMasks with
          | nil => exact masked.elim
          | cons probMask probMasks =>
              cases bowMasks with
              | nil => exact masked.elim
              | cons bowMask bowMasks =>
                  obtain ⟨isLength, sameLength⟩ := ih linked.2.2.2.2 masked.2.2
                  exact ⟨congrArg Nat.succ isLength, congrArg Nat.succ sameLength⟩

/-! ### Models -/

namespace NgramLM

/-- A model with vectors of the right lengths, whatever they hold from order 1 on. -/
structure Allocated (lm : NgramLM) (model : NgramModel) : Prop where
  isModel : lm.model = model
  zeroth : ∃ prob, setSmoothingAlgs model = some prob ∧ lm.probVectors.headD [] = [prob]
  sameLength : lm.probVectors.tail.length = lm.bowVectors.length
  levels : LevelsAllocated 1 model.levels (lm.probVectors.tail.zip lm.bowVectors)

theorem Allocated.inView {lm : NgramLM} {model : NgramModel} (allocated : lm.Allocated model) :
    NgramLM.inView model = true := by
  obtain ⟨prob, isProb, _⟩ := allocated.zeroth
  exact (setSmoothingAlgs_eq_some_iff.mp isProb).1

structure Fits (model : NgramModel) (probMasks bowMasks : List (List Bool)) : Prop where
  zeroth : (probMasks.headD []).length = 1
  levels : LevelsMasked 1 model.levels probMasks.tail bowMasks

structure Agree (probMasks bowMasks : List (List Bool)) (lm whole : NgramLM) : Prop where
  zeroth : lm.probVectors.getD 0 [] = whole.probVectors.getD 0 []
  probs : ∀ order, AgreeOn (probMasks.getD order []) (lm.probVectors.getD order [])
    (whole.probVectors.getD order [])
  bows : ∀ order, AgreeOn (bowMasks.getD order []) (lm.bowVectors.getD order [])
    (whole.bowVectors.getD order [])

variable {model : NgramModel} (linked : LevelsLinked 1 model.levels model.backoffs)
  {smoothings : List KneserNeySmoothing} (each : smoothings.length = model.levels.length)
  (defined : LevelsDefined 1 model.levels model.backoffs smoothings)
  {probMasks bowMasks : List (List Bool)} (fits : Fits model probMasks bowMasks)

include linked each defined fits

theorem Allocated.exists_estimateMasked {lm : NgramLM} (allocated : lm.Allocated model)
    (params : List Rat) :
    ∃ after, lm.estimateMasked smoothings params (getMask model probMasks bowMasks) =
        some ((NgramLM.estimate model smoothings params).isSome, after) ∧ after.Allocated model ∧
      ∀ whole, NgramLM.estimate model smoothings params = some whole →
        Agree probMasks bowMasks after whole := by
  obtain ⟨rfl, ⟨prob, isProb, isZeroth⟩, sameLength, allocatedLevels⟩ := allocated
  obtain ⟨_, kept, closed, keptOrders⟩ := updateMasks_closed linked fits.zeroth fits.levels
  have lengths := @length_updateMasks (probMasks.headD []) _ _ _ linked _ _ fits.levels
  have agreeZero : AgreeOn (getMask lm.model probMasks bowMasks).zeroProbMask [prob] [prob] :=
    fun _ _ => rfl
  obtain ⟨accepted, after, ran, allocatedAfter, isAccepted, agree⟩ :=
    estimateMaskedLevels_agrees linked each defined closed allocatedLevels agreeZero true params
  have sameUnzip : ((after.map Prod.fst).zip (after.map Prod.snd)) = after :=
    (List.zip_of_prod rfl rfl).symm
  refine ⟨{ lm with probVectors := [prob] :: after.map Prod.fst, bowVectors := after.map Prod.snd },
    ?_, ⟨rfl, ⟨prob, isProb, rfl⟩, ?_, ?_⟩, ?_⟩
  · simp only [estimateMasked, isZeroth, getMask, Option.bind_eq_bind]
    rw [ran, isAccepted]
    simp only [NgramLM.estimate, isProb, Option.bind_eq_bind, Option.bind_some]
    cases estimateLevels true 1 [prob] lm.model.levels lm.model.backoffs smoothings params with
    | none => rfl
    | some vectors => rfl
  · show (after.map Prod.fst).length = (after.map Prod.snd).length
    rw [List.length_map, List.length_map]
  · show LevelsAllocated 1 lm.model.levels ((after.map Prod.fst).zip (after.map Prod.snd))
    rw [sameUnzip]
    exact allocatedAfter
  · intro whole isWhole
    simp only [NgramLM.estimate, isProb, Option.bind_eq_bind, Option.bind_some] at isWhole
    obtain ⟨vectors, isVectors, isAll⟩ := Option.bind_eq_some_iff.mp isWhole
    cases isAll
    have agreeLevels := agree vectors isVectors
    constructor
    · rfl
    · intro order place marked
      cases order with
      | zero => rfl
      | succ order =>
          have isRequested : (probMasks.tail.getD order []).getD place false = true := by
            cases probMasks with
            | nil => cases marked
            | cons first rest => exact marked
          have isMask := List.getElem?_eq_getElem (lengths.1 ▸ inside_of_marked_order isRequested)
          exact (agreeLevels.order isMask).1 place ((keptOrders order _ isMask).1 place isRequested)
    · intro order place marked
      have isMask := List.getElem?_eq_getElem
        ((lengths.1.trans lengths.2) ▸ inside_of_marked_order marked)
      exact (agreeLevels.order isMask).2 place ((keptOrders order _ isMask).2 place marked)

end NgramLM

theorem exists_levelsAllocated (lowerSize : Nat) (levels : List Level) :
    ∃ vectors, LevelsAllocated lowerSize levels vectors := by
  induction levels generalizing lowerSize with
  | nil => exact ⟨[], trivial⟩
  | cons level levels ih =>
      obtain ⟨vectors, allocated⟩ := ih level.vector.size
      exact ⟨(List.replicate level.vector.size 0, List.replicate lowerSize 0) :: vectors,
        List.length_replicate, List.length_replicate, allocated⟩

theorem NgramLM.exists_allocated {model : NgramModel} {prob : Rat}
    (isProb : setSmoothingAlgs model = some prob) : ∃ lm : NgramLM, lm.Allocated model := by
  obtain ⟨vectors, allocated⟩ := exists_levelsAllocated 1 model.levels
  let lm : NgramLM :=
    { model := model
      probVectors := [prob] :: vectors.map Prod.fst
      bowVectors := vectors.map Prod.snd }
  refine ⟨lm, rfl, ⟨prob, isProb, rfl⟩, ?_, ?_⟩
  · show (vectors.map Prod.fst).length = (vectors.map Prod.snd).length
    rw [List.length_map, List.length_map]
  · show LevelsAllocated 1 model.levels ((vectors.map Prod.fst).zip (vectors.map Prod.snd))
    rw [← List.zip_of_prod rfl rfl]
    exact allocated

theorem levelsAllocated_of_estimate {levels : List Level} {backoffs : List (List Nat)}
    {smoothings : List KneserNeySmoothing} {isUnigram : Bool} {lowerSize : Nat}
    {boProbs params : List Rat} {vectors : List (List Rat × List Rat)}
    (exact : ∀ level ∈ levels, level.counts.length = level.vector.size)
    (ran : estimateLevels isUnigram lowerSize boProbs levels backoffs smoothings params =
      some vectors) : LevelsAllocated lowerSize levels vectors := by
  induction levels generalizing backoffs smoothings isUnigram lowerSize boProbs params vectors with
  | nil =>
      cases ran
      trivial
  | cons level levels ih =>
      cases backoffs with
      | nil => cases ran
      | cons here later =>
          cases smoothings with
          | nil => cases ran
          | cons smoothing smoothings =>
              obtain ⟨⟨probs, bows⟩, ranFirst, ranLater⟩ := Option.bind_eq_some_iff.mp ran
              obtain ⟨higher, isHigher, isAll⟩ := Option.bind_eq_some_iff.mp ranLater
              cases isAll
              obtain ⟨discParams, _, ranDiscounts⟩ := Option.bind_eq_some_iff.mp ranFirst
              obtain ⟨discounted, _, isFirst⟩ := Option.bind_eq_some_iff.mp ranDiscounts
              cases isFirst
              refine ⟨?_, ?_, ih (fun other member => exact other (List.mem_cons_of_mem level member))
                isHigher⟩
              · rw [List.length_map, List.length_range]
                exact length_effCounts (exact level List.mem_cons_self) _
              · have lengthInverse : (smoothing.initializeOrder lowerSize level here
                    (nextOrder levels later)).invHistCounts.length = lowerSize := by
                  show (invHistCounts _ _ _).length = lowerSize
                  rw [invHistCounts, List.length_map, length_binWeight, List.length_replicate]
                rw [backoffWeights, List.length_zipWith, length_binWeight, List.length_replicate,
                  Nat.min_self, lengthInverse]

theorem NgramLM.allocated_of_estimate {model : NgramModel} {smoothings : List KneserNeySmoothing}
    {params : List Rat} {lm : NgramLM}
    (exact : ∀ level ∈ model.levels, level.counts.length = level.vector.size)
    (ran : NgramLM.estimate model smoothings params = some lm) : lm.Allocated model := by
  obtain ⟨prob, isProb, ranLevels⟩ := Option.bind_eq_some_iff.mp ran
  obtain ⟨vectors, isVectors, isAll⟩ := Option.bind_eq_some_iff.mp ranLevels
  cases isAll
  refine ⟨rfl, ⟨prob, isProb, rfl⟩, ?_, ?_⟩
  · show (vectors.map Prod.fst).length = (vectors.map Prod.snd).length
    rw [List.length_map, List.length_map]
  · show LevelsAllocated 1 model.levels ((vectors.map Prod.fst).zip (vectors.map Prod.snd))
    rw [← List.zip_of_prod rfl rfl]
    exact levelsAllocated_of_estimate exact isVectors

theorem levelsMasked_of_lengths {lowerSize : Nat} {levels : List Level}
    {probMasks bowMasks : List (List Bool)}
    (probs : probMasks.map List.length = levels.map (fun level => level.vector.size))
    (bows : bowMasks.map List.length =
      (lowerSize :: levels.map (fun level => level.vector.size)).dropLast) :
    LevelsMasked lowerSize levels probMasks bowMasks := by
  induction levels generalizing lowerSize probMasks bowMasks with
  | nil =>
      obtain rfl := List.map_eq_nil_iff.mp probs
      obtain rfl := List.map_eq_nil_iff.mp bows
      trivial
  | cons level levels ih =>
      obtain ⟨probMask, laterProbs, rfl, isProb, areProbs⟩ := List.map_eq_cons_iff.mp probs
      rw [List.map_cons, List.dropLast_cons_cons] at bows
      obtain ⟨bowMask, laterBows, rfl, isBow, areBows⟩ := List.map_eq_cons_iff.mp bows
      exact ⟨isProb, isBow, ih areProbs areBows⟩

/-- Estimating a model anew where it is asked for gives there what estimating all of it gives, no
matter what earlier estimations have left behind. -/
theorem estimateMasked_agrees {order : Nat} (positive : 0 < order) {corpus : List Char}
    {start model : NgramModel} (created : NgramModel.create order = some start)
    (loads : start.loadCorpus corpus = some model) {smoothings : List KneserNeySmoothing}
    (each : smoothings.length = order)
    (defined : LevelsDefined 1 model.levels model.backoffs smoothings)
    {probMasks bowMasks : List (List Bool)} (fits : NgramLM.Fits model probMasks bowMasks) {lm : NgramLM}
    (allocated : lm.Allocated model) (params : List Rat) :
    ∃ after, lm.estimateMasked smoothings params (NgramLM.getMask model probMasks bowMasks) =
        some ((NgramLM.estimate model smoothings params).isSome, after) ∧ after.Allocated model ∧
      ∀ whole, NgramLM.estimate model smoothings params = some whole →
        NgramLM.Agree probMasks bowMasks after whole := by
  obtain ⟨sorted, _⟩ := known_of_loadCorpus positive created loads
  have linked := sorted.linked allocated.inView
  exact NgramLM.Allocated.exists_estimateMasked linked (each.trans sorted.orders.symm) defined fits
    allocated params

/-- One sentence, and one discount for each order.  Only the first n-gram of each order is estimated
with other discounts, over the model that was estimated before. -/
theorem estimateMasked_agrees_two :
    ∃ start model lm after whole, NgramModel.create 2 = some start ∧
      start.loadCorpus "a b\n".toList = some model ∧
      NgramLM.estimate model (List.replicate 2 ⟨1, true⟩) [1 / 2, 1 / 2] = some lm ∧
      lm.estimateMasked (List.replicate 2 ⟨1, true⟩) [1 / 4, 3 / 4] (NgramLM.getMask model
        ([true] :: model.levels.map (fun level =>
          (List.range level.vector.size).map (fun index => decide (index = 0))))
        (model.sizes.dropLast.map (fun size => List.replicate size false))) = some (true, after) ∧
      NgramLM.estimate model (List.replicate 2 ⟨1, true⟩) [1 / 4, 3 / 4] = some whole ∧
      NgramLM.Agree ([true] :: model.levels.map (fun level =>
          (List.range level.vector.size).map (fun index => decide (index = 0))))
        (model.sizes.dropLast.map (fun size => List.replicate size false)) after whole := by
  obtain ⟨start, model, created, loads, inner⟩ := exists_model_two
  have sorted := sorted_of_loadCorpus two_pos created loads inner
  obtain ⟨lm, ran⟩ := @exists_estimate_two _ _ created loads inner [1 / 2, 1 / 2] (by decide +kernel)
  obtain ⟨whole, isWhole⟩ :=
    @exists_estimate_two _ _ created loads inner [1 / 4, 3 / 4] (by decide +kernel)
  have allocated := NgramLM.allocated_of_estimate sorted.levels.listed.exact ran
  have masked := @levelsMasked_of_lengths 1 model.levels
    (model.levels.map (fun level =>
      (List.range level.vector.size).map (fun index => decide (index = 0))))
    (model.sizes.dropLast.map (fun size => List.replicate size false))
    (by
      rw [List.map_map]
      exact List.map_congr_left (fun level _ => (List.length_map _).trans List.length_range))
    (by
      rw [List.map_map]
      exact (List.map_congr_left (fun size _ => List.length_replicate)).trans (List.map_id _))
  have fits : NgramLM.Fits model ([true] :: model.levels.map (fun level =>
      (List.range level.vector.size).map (fun index => decide (index = 0))))
        (model.sizes.dropLast.map (fun size => List.replicate size false)) := ⟨rfl, masked⟩
  obtain ⟨after, ranMasked, _, agree⟩ :=
    estimateMasked_agrees two_pos created loads List.length_replicate (defined_two model) fits
      allocated [1 / 4, 3 / 4]
  rw [isWhole] at ranMasked
  exact ⟨start, model, lm, after, whole, created, loads, ran, ranMasked, isWhole,
    agree whole isWhole⟩

end Mitlm
