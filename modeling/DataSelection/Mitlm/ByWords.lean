/-
Estimation by words.

What an order makes of its n-grams depends on their words and on what the tally says of them,
and not on where they stand.  So models that list the same n-grams in different orders give
them the same probabilities.
-/

import DataSelection.Mitlm.LeftBranches

namespace Mitlm

open Library KneserNeySmoothing

/-! ### Counts by words -/

/-- The count that an order uses for an n-gram, from the n-grams of the next order. -/
def effCountOf (tally : List Word → Nat) (higher : Option (List (List Word))) (gram : List Word) :
    Nat :=
  match higher with
  | none => tally gram
  | some grams =>
      if grams.countP (fun other => decide (tally other > 0 ∧ other.tail = gram)) = 0 then
        tally gram
      else grams.countP (fun other => decide (tally other > 0 ∧ other.tail = gram))

def sumBehind {K : Type} [AddCommMonoid K] (grams : List (List Word)) (weight : List Word → K)
    (hist : List Word) : K :=
  (grams.map (fun gram => if gram.dropLast = hist then weight gram else 0)).sum

theorem sumBehind_perm {K : Type} [AddCommMonoid K] {grams others : List (List Word)}
    (perm : grams.Perm others) (weight : List Word → K) (hist : List Word) :
    sumBehind grams weight hist = sumBehind others weight hist :=
  (perm.map _).sum_eq

section

variable {words : List Word} {below : List (List Word)} {order : Nat} {tally : List Word → Nat}
  {level : Level}

/-- The bin of a history is filled by the n-grams behind it. -/
theorem binSum_hists {K : Type} [AddCommMonoid K] (distinct : below.Nodup)
    {entries : List Ngram} (inside : ∀ ngram ∈ entries, ngram.1 < below.length)
    (weight : List Word → K) {hist : Nat} {front : List Word} (isFront : below[hist]? = some front) :
    binSum (entries.map Prod.fst) hist (fun place =>
        ((entries.map (fun ngram => below.getD ngram.1 [] ++ [words.getD ngram.2 []])).map
          weight).getD place 0) =
      sumBehind (entries.map (fun ngram => below.getD ngram.1 [] ++ [words.getD ngram.2 []])) weight
        front := by
  induction entries with
  | nil => rfl
  | cons ngram entries ih =>
      have later := ih (fun other member => inside other (List.mem_cons_of_mem ngram member))
      have isInside := inside ngram List.mem_cons_self
      have same : ngram.1 = hist ↔ below.getD ngram.1 [] = front := by
        have isHere := List.getElem?_eq_getElem isInside
        rw [List.getD_eq_getElem?_getD, isHere, Option.getD_some]
        constructor
        · intro isHist
          rw [← isHist, isHere] at isFront
          exact Option.some.inj isFront
        · intro isSame
          rw [isSame, ← isFront] at isHere
          exact (List.getElem?_inj isInside distinct).mp isHere
      rw [binSum, List.map_cons, List.length_cons, Finset.sum_range_succ']
      rw [binSum] at later
      simp only [List.map_cons, List.getD_cons_zero, List.getD_cons_succ, sumBehind, List.sum_cons,
        List.dropLast_concat, same] at later ⊢
      rw [later, add_comm]

theorem effCounts_last (listed : level.Listed words below order tally) :
    effCounts level none = (gramsOf words below level.vector).map (effCountOf tally none) :=
  listed.counts_eq

theorem effCounts_next (distinct : (gramsOf words below level.vector).Nodup)
    (listed : level.Listed words below order tally) {hoLevel : Level} {hoOrder : Nat}
    (hoListed : hoLevel.Listed words (gramsOf words below level.vector) hoOrder tally)
    {hoBackoffs : List Nat}
    (tails : Tails (gramsOf words below level.vector)
      (gramsOf words (gramsOf words below level.vector) hoLevel.vector) hoBackoffs) :
    effCounts level (some (hoLevel, hoBackoffs)) =
      (gramsOf words below level.vector).map (effCountOf tally
        (some (gramsOf words (gramsOf words below level.vector) hoLevel.vector))) := by
  have isSize := length_gramsOf words below level.vector
  rw [effCounts, listed.counts_eq, hoListed.counts_eq]
  refine List.ext_getElem ?_ ?_
  · rw [List.length_zipWith, length_leftBranches, List.length_map, List.length_map, isSize,
      Nat.min_self]
  · intro index inside insideMap
    rw [List.length_map] at insideMap
    have isGram := List.getElem?_eq_getElem insideMap
    have branches := @countP_zip_tails _ _ _ tally tails distinct _ _ isGram
    have isBranch := @getD_leftBranches level.vector.size
      ((gramsOf words (gramsOf words below level.vector) hoLevel.vector).map tally) hoBackoffs index
      (isSize ▸ insideMap)
    have isInside : index < (leftBranches level.vector.size
        ((gramsOf words (gramsOf words below level.vector) hoLevel.vector).map tally)
          hoBackoffs).length := by
      rw [length_leftBranches]
      exact isSize ▸ insideMap
    rw [List.getD_eq_getElem?_getD, List.getElem?_eq_getElem isInside, Option.getD_some,
      branches] at isBranch
    rw [List.getElem_zipWith, List.getElem_map, List.getElem_map, isBranch, effCountOf]

end

/-! ### One order by words -/

variable (smoothing : KneserNeySmoothing)

def discParamsOf (counts : List Nat) : List (Option Rat) :=
  let n := binClippedCount counts (List.replicate (smoothing.discOrder + 2) 0)
  some 0 :: (List.range smoothing.discOrder).map (fun i => discParam n (i + 1))

def discountOf (discParams : List (Option Rat)) (effCount : Nat) : Option Rat :=
  discParams.getD (min effCount smoothing.discOrder) none

/-- The inverse of the sum of the counts behind a history. -/
def inverseOf (grams : List (List Word)) (effCount : List Word → Nat) (hist : List Word) : Rat :=
  let histCount := sumBehind grams effCount hist
  if histCount = 0 then 0 else 1 / (histCount : Rat)

def bowOf (grams : List (List Word)) (effCount : List Word → Nat) (discount : List Word → Rat)
    (hist : List Word) : Rat :=
  if inverseOf grams effCount hist = 0 then 1
  else sumBehind grams discount hist * inverseOf grams effCount hist

def probOf (isUnigram : Bool) (grams : List (List Word)) (effCount : List Word → Nat)
    (discount boProb : List Word → Rat) (gram : List Word) : Rat :=
  if isUnigram && effCount gram = 0 then 0
  else (if effCount gram = 0 then 0
      else (effCount gram - discount gram) * inverseOf grams effCount gram.dropLast) +
    boProb gram.tail * bowOf grams effCount discount gram.dropLast

/-- The probabilities of the n-grams of an order and the backoff weights of their histories. -/
def estimateOf (isUnigram : Bool) (tally : List Word → Nat) (higher : Option (List (List Word)))
    (grams : List (List Word)) (params : List Rat) (boProb : List Word → Rat) :
    Option ((List Word → Rat) × (List Word → Rat)) := do
  let effCount := effCountOf tally higher
  let discParams ← smoothing.unpack
    { hists := [], backoffs := [], effCounts := [], invHistCounts := []
      discParams := discParamsOf smoothing (grams.map effCount) } params
  if grams.all (fun gram => (discountOf smoothing discParams (effCount gram)).isSome) then
    let discount := fun gram => (discountOf smoothing discParams (effCount gram)).getD 0
    some (probOf isUnigram grams effCount discount boProb, bowOf grams effCount discount)
  else none

theorem discounts_eq (discParams : List (Option Rat)) (effCount : List Word → Nat)
    (grams : List (List Word)) :
    smoothing.discounts discParams (grams.map effCount) =
      if grams.all (fun gram => (discountOf smoothing discParams (effCount gram)).isSome) then
        some (grams.map (fun gram => (discountOf smoothing discParams (effCount gram)).getD 0))
      else none := by
  rw [discounts]
  induction grams with
  | nil => rfl
  | cons gram grams ih =>
      rw [List.map_cons, List.mapM_cons, ih, List.all_cons, ← discountOf]
      cases isDiscount : discountOf smoothing discParams (effCount gram) with
      | none => rfl
      | some discount =>
          simp only [Option.isSome_some, Bool.true_and, List.map_cons, isDiscount, Option.getD_some]
          split
          · rfl
          · rfl

section

variable {words : List Word} {below : List (List Word)} {level : Level} {backoffs : List Nat}
  {higher : Option (Level × List Nat)} {tally : List Word → Nat}
  {higherGrams : Option (List (List Word))}

theorem getElem?_entry {index : Nat} {gram : List Word}
    (isGram : (gramsOf words below level.vector)[index]? = some gram) :
    ∃ ngram, level.vector.entries[index]? = some ngram ∧ gram.dropLast = below.getD ngram.1 [] := by
  rw [gramsOf, List.getElem?_map] at isGram
  obtain ⟨ngram, isEntry, isSame⟩ := Option.map_eq_some_iff.mp isGram
  refine ⟨ngram, isEntry, ?_⟩
  rw [← isSame, List.dropLast_concat]

theorem length_hists {K : Type} (weight : List Word → K) :
    (level.vector.entries.map Prod.fst).length =
      ((gramsOf words below level.vector).map weight).length := by
  rw [gramsOf, List.length_map, List.length_map, List.length_map]

section

variable (distinct : below.Nodup)
  (inside : ∀ ngram ∈ level.vector.entries, ngram.1 < below.length)

include distinct inside

theorem invHistCounts_eq (effCount : List Word → Nat) :
    invHistCounts below.length (level.vector.entries.map Prod.fst)
        ((gramsOf words below level.vector).map effCount) =
      below.map (inverseOf (gramsOf words below level.vector) effCount) := by
  refine List.ext_getElem? ?_
  intro hist
  by_cases isInside : hist < below.length
  · have isFront := List.getElem?_eq_getElem isInside
    have isSum : binSum (level.vector.entries.map Prod.fst) hist (fun place =>
        ((gramsOf words below level.vector).map effCount).getD place 0) =
          sumBehind (gramsOf words below level.vector) effCount below[hist] :=
      binSum_hists distinct inside effCount isFront
    rw [getElem?_invHistCounts isInside (length_hists _) isSum, List.getElem?_map, isFront]
    rfl
  · rw [List.getElem?_eq_none (by
      rw [invHistCounts, List.length_map, length_binWeight, List.length_replicate]
      omega), List.getElem?_eq_none (by
      rw [List.length_map]
      omega)]

theorem backoffWeights_eq (effCount : List Word → Nat) (discount : List Word → Rat)
    {initialized : Initialized} (isHists : initialized.hists = level.vector.entries.map Prod.fst)
    (isInverse : initialized.invHistCounts =
      below.map (inverseOf (gramsOf words below level.vector) effCount)) :
    backoffWeights initialized ((gramsOf words below level.vector).map discount) =
      below.map (bowOf (gramsOf words below level.vector) effCount discount) := by
  have isLength : initialized.invHistCounts.length = below.length := by
    rw [isInverse, List.length_map]
  refine List.ext_getElem? ?_
  intro hist
  by_cases isInside : hist < below.length
  · have isFront := List.getElem?_eq_getElem isInside
    have isSum : binSum (level.vector.entries.map Prod.fst) hist (fun place =>
        ((gramsOf words below level.vector).map discount).getD place 0) =
          sumBehind (gramsOf words below level.vector) discount below[hist] :=
      binSum_hists distinct inside discount isFront
    have isHere : initialized.invHistCounts[hist]? =
        some (inverseOf (gramsOf words below level.vector) effCount below[hist]) := by
      rw [isInverse, List.getElem?_map, isFront, Option.map_some]
    rw [getElem?_backoffWeights isInside isHists isLength (length_hists discount) isHere, List.getElem?_map,
      isFront, Option.map_some, bowOf, ← isSum]
  · rw [List.getElem?_eq_none (by
      rw [backoffWeights, List.length_zipWith, length_binWeight, List.length_replicate, isLength]
      omega), List.getElem?_eq_none (by
      rw [List.length_map]
      omega)]

omit distinct in
theorem interpolate_eq {effCount : List Word → Nat} {initialized : Initialized}
    (isEffCounts : initialized.effCounts = (gramsOf words below level.vector).map effCount)
    (isHists : initialized.hists = level.vector.entries.map Prod.fst)
    (tails : Tails below (gramsOf words below level.vector) initialized.backoffs)
    (isInverse : initialized.invHistCounts =
      below.map (inverseOf (gramsOf words below level.vector) effCount)) (isUnigram : Bool)
    (discount boProb : List Word → Rat) {index : Nat} {gram : List Word}
    (isGram : (gramsOf words below level.vector)[index]? = some gram) :
    interpolate isUnigram initialized ((gramsOf words below level.vector).map discount)
        (below.map boProb) (below.map (bowOf (gramsOf words below level.vector) effCount discount))
        index =
      probOf isUnigram (gramsOf words below level.vector) effCount discount boProb gram := by
  obtain ⟨ngram, isEntry, isHist⟩ := getElem?_entry isGram
  have isFront := List.getElem?_eq_getElem (inside ngram (List.mem_of_getElem? isEntry))
  obtain ⟨backoff, isBackoff, isTail⟩ := tails index gram isGram
  have isFirst : initialized.hists.getD index 0 = ngram.1 := by
    rw [isHists]
    exact getD_map_of_getElem? isEntry _
  have isCount : initialized.effCounts.getD index 0 = effCount gram := by
    rw [isEffCounts]
    exact getD_map_of_getElem? isGram _
  have isDiscount : ((gramsOf words below level.vector).map discount).getD index 0 =
      discount gram :=
    getD_map_of_getElem? isGram _
  have isDrop : below[ngram.1]? = some gram.dropLast := by
    rw [isHist, List.getD_eq_getElem?_getD, isFront, Option.getD_some]
  have isShare : initialized.invHistCounts.getD ngram.1 0 =
      inverseOf (gramsOf words below level.vector) effCount gram.dropLast := by
    rw [isInverse]
    exact getD_map_of_getElem? isDrop _
  have isBow : (below.map (bowOf (gramsOf words below level.vector) effCount discount)).getD
      ngram.1 0 = bowOf (gramsOf words below level.vector) effCount discount gram.dropLast :=
    getD_map_of_getElem? isDrop _
  have isBackoffProb : (below.map boProb).getD (initialized.backoffs.getD index 0) 0 =
      boProb gram.tail := by
    rw [getD_of_getElem? isBackoff]
    exact getD_map_of_getElem? isTail _
  simp only [interpolate, isFirst, isCount, isDiscount, isShare, isBow, isBackoffProb, probOf]

/-- An order is estimated by the words of its n-grams alone. -/
theorem estimate_eq (viewed : level.hists = level.vector.entries.map Prod.fst)
    (isEff : effCounts level higher =
      (gramsOf words below level.vector).map (effCountOf tally higherGrams))
    (tails : Tails below (gramsOf words below level.vector) backoffs) (isUnigram : Bool)
    (params : List Rat) (boProb : List Word → Rat) :
    smoothing.estimate isUnigram (smoothing.initializeOrder below.length level backoffs higher)
        params (below.map boProb) =
      (estimateOf smoothing isUnigram tally higherGrams (gramsOf words below level.vector) params
        boProb).map (fun made =>
          ((gramsOf words below level.vector).map made.1, below.map made.2)) := by
  obtain ⟨initialized, isInit⟩ : ∃ initialized,
      initialized = smoothing.initializeOrder below.length level backoffs higher := ⟨_, rfl⟩
  have isEffCounts : initialized.effCounts =
      (gramsOf words below level.vector).map (effCountOf tally higherGrams) := by
    rw [isInit, ← isEff]
    rfl
  have isHists : initialized.hists = level.vector.entries.map Prod.fst := by
    rw [isInit]
    exact viewed
  have isBackoffs : initialized.backoffs = backoffs := by
    rw [isInit]
    rfl
  have isInverse : initialized.invHistCounts =
      below.map (inverseOf (gramsOf words below level.vector) (effCountOf tally higherGrams)) := by
    rw [← invHistCounts_eq distinct inside, ← isEff, ← viewed, isInit]
    rfl
  have isUnpacked : smoothing.unpack initialized params =
      smoothing.unpack
        { hists := [], backoffs := [], effCounts := [], invHistCounts := []
          discParams := discParamsOf smoothing
            ((gramsOf words below level.vector).map (effCountOf tally higherGrams)) } params := by
    rw [← isEff, isInit]
    rfl
  rw [← isInit, estimate, estimateOf, isUnpacked, isEffCounts]
  cases smoothing.unpack _ params with
  | none => rfl
  | some discParams =>
      simp only [Option.bind_eq_bind, Option.bind_some, discounts_eq]
      split
      · simp only [Option.bind_some, Option.map_some,
          backoffWeights_eq distinct inside _ _ isHists isInverse, Option.some.injEq, Prod.mk.injEq,
          and_true]
        refine List.ext_getElem? ?_
        intro index
        rw [List.getElem?_map, List.getElem?_map, List.length_map]
        by_cases isInside : index < (gramsOf words below level.vector).length
        · have isGram := List.getElem?_eq_getElem isInside
          rw [List.getElem?_range isInside, isGram, Option.map_some, Option.map_some]
          exact congrArg some (interpolate_eq inside isEffCounts isHists
            (isBackoffs ▸ tails) isInverse isUnigram _ boProb isGram)
        · rw [List.getElem?_eq_none (by rw [List.length_range]; omega),
            List.getElem?_eq_none (by omega)]
          rfl
      · rfl

end

end

/-! ### All orders by words -/

def gramLists (words : List Word) : List (List Word) → List Level → List (List (List Word))
  | _, [] => []
  | below, level :: levels =>
      gramsOf words below level.vector ::
        gramLists words (gramsOf words below level.vector) levels

def estimateLevelsOf (tally : List Word → Nat) : Bool → (List Word → Rat) →
    List (List (List Word)) → List KneserNeySmoothing → List Rat →
    Option (List ((List Word → Rat) × (List Word → Rat)))
  | _, _, [], _, _ => some []
  | isUnigram, boProb, grams :: later, smoothing :: smoothings, params => do
      let made ← estimateOf smoothing isUnigram tally later.head? grams
        (params.take smoothing.numParams) boProb
      let higher ← estimateLevelsOf tally false made.1 later smoothings
        (params.drop smoothing.numParams)
      some (made :: higher)
  | _, _, _ :: _, [], _ => none

/-- The vectors that hold the probabilities and the weights. -/
def vectorsOf : List (List Word) → List (List (List Word)) →
    List ((List Word → Rat) × (List Word → Rat)) → List (List Rat × List Rat)
  | below, grams :: later, made :: higher =>
      (grams.map made.1, below.map made.2) :: vectorsOf grams later higher
  | _, _, _ => []

theorem effCounts_eq_map {words : List Word} {tally : List Word → Nat} {order : Nat}
    {below : List (List Word)} {level : Level} {levels : List Level} {backoffs : List Nat}
    {later : List (List Nat)} (base : Base words order below)
    (listed : LevelsListed words tally order below (level :: levels))
    (backed : LevelsBacked words below (level :: levels) (backoffs :: later)) :
    effCounts level (nextOrder levels later) =
      (gramsOf words below level.vector).map (effCountOf tally
        (gramLists words (gramsOf words below level.vector) levels).head?) := by
  have distinct := (listed.1.formed.base base).belowDistinct
  cases levels with
  | nil => exact effCounts_last listed.1
  | cons hoLevel levels =>
      cases later with
      | nil => exact backed.2.elim
      | cons hoBackoffs later => exact effCounts_next distinct listed.1 listed.2.1 backed.2.1

/-- The orders are estimated by the words of their n-grams alone. -/
theorem estimateLevels_eq {words : List Word} {tally : List Word → Nat} {order : Nat}
    {below : List (List Word)} {levels : List Level} {backoffs : List (List Nat)}
    (base : Base words order below) (listed : LevelsListed words tally order below levels)
    (backed : LevelsBacked words below levels backoffs)
    (viewed : ∀ level ∈ levels, level.hists = level.vector.entries.map Prod.fst) (isUnigram : Bool)
    (smoothings : List KneserNeySmoothing) (params : List Rat) (boProb : List Word → Rat) :
    estimateLevels isUnigram below.length (below.map boProb) levels backoffs smoothings params =
      (estimateLevelsOf tally isUnigram boProb (gramLists words below levels) smoothings
        params).map (vectorsOf below (gramLists words below levels)) := by
  induction levels generalizing order below backoffs isUnigram smoothings params boProb with
  | nil =>
      cases backoffs with
      | nil => rfl
      | cons first later => exact backed.elim
  | cons level levels ih =>
      cases backoffs with
      | nil => exact backed.elim
      | cons first later =>
          cases smoothings with
          | nil => rfl
          | cons smoothing smoothings =>
              have isEff := effCounts_eq_map base listed backed
              have baseHigher := listed.1.formed.base base
              have isSize := (length_gramsOf words below level.vector).symm
              rw [estimateLevels, estimate_eq smoothing base.belowDistinct listed.1.formed.hist
                (viewed level List.mem_cons_self) isEff backed.1, gramLists, estimateLevelsOf]
              cases estimateOf smoothing isUnigram tally
                (gramLists words (gramsOf words below level.vector) levels).head?
                (gramsOf words below level.vector) (params.take smoothing.numParams) boProb with
              | none => rfl
              | some made =>
                  simp only [Option.map_some, Option.bind_eq_bind, Option.bind_some, isSize,
                    ih baseHigher listed.2 backed.2
                      (fun other member => viewed other (List.mem_cons_of_mem level member))]
                  cases estimateLevelsOf tally false made.1
                    (gramLists words (gramsOf words below level.vector) levels) smoothings
                    (params.drop smoothing.numParams) with
                  | none => rfl
                  | some higher => rfl

/-! ### The order of the n-grams -/

theorem binClippedCount_perm {counts others : List Nat} (perm : counts.Perm others)
    (bins : List Nat) : binClippedCount counts bins = binClippedCount others bins := by
  rw [binClippedCount, binClippedCount]
  apply perm.foldl_eq'
  intro first _ second _ bins
  by_cases same : first = second
  · rw [same]
  · exact List.modify_modify_ne _ _ _ same

theorem effCountOf_perm (tally : List Word → Nat) {higher others : Option (List (List Word))}
    (same : Option.Rel List.Perm higher others) :
    effCountOf tally higher = effCountOf tally others := by
  funext gram
  cases same with
  | none => rfl
  | some perm => simp only [effCountOf, perm.countP_eq]

theorem estimateOf_perm (smoothing : KneserNeySmoothing) (isUnigram : Bool)
    (tally : List Word → Nat) {higher otherHigher : Option (List (List Word))}
    (same : Option.Rel List.Perm higher otherHigher) {grams others : List (List Word)}
    (perm : grams.Perm others) (params : List Rat) (boProb : List Word → Rat) :
    estimateOf smoothing isUnigram tally higher grams params boProb =
      estimateOf smoothing isUnigram tally otherHigher others params boProb := by
  have isBehind : ∀ (weight : List Word → Nat), sumBehind grams weight = sumBehind others weight :=
    fun weight => funext (sumBehind_perm perm weight)
  have isBehindRat : ∀ (weight : List Word → Rat),
      sumBehind grams weight = sumBehind others weight :=
    fun weight => funext (sumBehind_perm perm weight)
  have isInverse : ∀ effCount, inverseOf grams effCount = inverseOf others effCount := by
    intro effCount
    funext hist
    rw [inverseOf, inverseOf, isBehind]
  have isBow : ∀ effCount discount, bowOf grams effCount discount = bowOf others effCount discount := by
    intro effCount discount
    funext hist
    rw [bowOf, bowOf, isInverse, isBehindRat]
  have isProb : ∀ effCount discount, probOf isUnigram grams effCount discount boProb =
      probOf isUnigram others effCount discount boProb := by
    intro effCount discount
    funext gram
    rw [probOf, probOf, isInverse, isBow]
  have isDisc : ∀ effCount, discParamsOf smoothing (grams.map effCount) =
      discParamsOf smoothing (others.map effCount) := by
    intro effCount
    rw [discParamsOf, discParamsOf, binClippedCount_perm (perm.map effCount)]
  simp only [estimateOf, effCountOf_perm tally same, isDisc, isProb, isBow, perm.all_eq]

theorem head?_rel {lists others : List (List (List Word))} (same : List.Forall₂ List.Perm lists others) :
    Option.Rel List.Perm lists.head? others.head? := by
  cases same with
  | nil => exact Option.Rel.none
  | cons perm later => exact Option.Rel.some perm

theorem estimateLevelsOf_perm (tally : List Word → Nat) {lists others : List (List (List Word))}
    (same : List.Forall₂ List.Perm lists others) (isUnigram : Bool) (boProb : List Word → Rat)
    (smoothings : List KneserNeySmoothing) (params : List Rat) :
    estimateLevelsOf tally isUnigram boProb lists smoothings params =
      estimateLevelsOf tally isUnigram boProb others smoothings params := by
  induction same generalizing isUnigram boProb smoothings params with
  | nil => rfl
  | cons perm later ih =>
      cases smoothings with
      | nil => rfl
      | cons smoothing smoothings =>
          simp only [estimateLevelsOf, ih,
            estimateOf_perm smoothing isUnigram tally (head?_rel later) perm]

/-! ### Lookups by words -/

theorem getElem?_gramLists {words : List Word} {below : List (List Word)} {levels : List Level}
    {place : Nat} (inside : place < levels.length) :
    (gramLists words below levels)[place]? = some (gramsAt words (place + 1) below levels) := by
  induction levels generalizing below place with
  | nil => cases inside
  | cons level levels ih =>
      cases place with
      | zero => rfl
      | succ place => exact ih (Nat.lt_of_succ_lt_succ inside)

theorem length_gramLists (words : List Word) (below : List (List Word)) (levels : List Level) :
    (gramLists words below levels).length = levels.length := by
  induction levels generalizing below with
  | nil => rfl
  | cons level levels ih => rw [gramLists, List.length_cons, ih, List.length_cons]

theorem length_estimateLevelsOf {tally : List Word → Nat} {lists : List (List (List Word))}
    {isUnigram : Bool} {boProb : List Word → Rat} {smoothings : List KneserNeySmoothing}
    {params : List Rat} {all : List ((List Word → Rat) × (List Word → Rat))}
    (ran : estimateLevelsOf tally isUnigram boProb lists smoothings params = some all) :
    all.length = lists.length := by
  induction lists generalizing isUnigram boProb smoothings params all with
  | nil =>
      cases ran
      rfl
  | cons grams later ih =>
      cases smoothings with
      | nil => cases ran
      | cons smoothing smoothings =>
          simp only [estimateLevelsOf, Option.bind_eq_bind, Option.bind_eq_some_iff,
            Option.some.injEq] at ran
          obtain ⟨made, _, higher, ranHigher, rfl⟩ := ran
          rw [List.length_cons, ih ranHigher, List.length_cons]

theorem getElem?_vectorsOf {words : List Word} {below : List (List Word)} {levels : List Level}
    {all : List ((List Word → Rat) × (List Word → Rat))} {place : Nat}
    {made : (List Word → Rat) × (List Word → Rat)} (inside : place < levels.length)
    (isMade : all[place]? = some made) :
    (vectorsOf below (gramLists words below levels) all)[place]? =
      some ((gramsAt words (place + 1) below levels).map made.1,
        (gramsAt words place below levels).map made.2) := by
  induction levels generalizing below place all with
  | nil => cases inside
  | cons level levels ih =>
      cases all with
      | nil => cases isMade
      | cons first higher =>
          cases place with
          | zero =>
              cases isMade
              rfl
          | succ place => exact ih (Nat.lt_of_succ_lt_succ inside) isMade

theorem length_vectorsOf {below : List (List Word)} {lists : List (List (List Word))}
    {all : List ((List Word → Rat) × (List Word → Rat))} :
    (vectorsOf below lists all).length ≤ all.length := by
  induction lists generalizing below all with
  | nil => exact Nat.zero_le _
  | cons grams later ih =>
      cases all with
      | nil => exact Nat.le_refl 0
      | cons made higher =>
          rw [vectorsOf, List.length_cons, List.length_cons]
          exact Nat.succ_le_succ ih

def probAt (prob : Rat) (all : List ((List Word → Rat) × (List Word → Rat))) :
    Nat → List Word → Rat
  | 0, _ => prob
  | place + 1, gram =>
      match all[place]? with
      | some made => made.1 gram
      | none => 0

def bowAt (all : List ((List Word → Rat) × (List Word → Rat))) (place : Nat) (hist : List Word) :
    Rat :=
  match all[place]? with
  | some made => made.2 hist
  | none => 1

/-- A model that holds the probabilities and weights of its n-grams. -/
structure NgramLM.Stores (lm : NgramLM) (words : List Word) (tally : List Word → Nat) (prob : Rat)
    (all : List ((List Word → Rat) × (List Word → Rat))) : Prop where
  distinct : words.Nodup
  listed : LevelsListed words tally 1 [[]] lm.model.levels
  length : all.length = lm.model.levels.length
  probs : lm.probVectors =
    [prob] :: (vectorsOf [[]] (gramLists words [[]] lm.model.levels) all).map Prod.fst
  bows : lm.bowVectors =
    (vectorsOf [[]] (gramLists words [[]] lm.model.levels) all).map Prod.snd

def NgramModel.Lists (model : NgramModel) (words : List Word) (gram : List Word) : Prop :=
  gram.length ≤ model.levels.length ∧ gram ∈ gramsAt words gram.length [[]] model.levels

theorem Spells.map_getD {words : List Word} {ids : List Nat} {gram : List Word}
    (spells : Spells words ids gram) :
    (∀ id ∈ ids, id < words.length) ∧ ids.map (fun id => words.getD id []) = gram := by
  induction spells with
  | nil => exact ⟨fun id member => absurd member List.not_mem_nil, rfl⟩
  | @cons id word ids gram isWord _ ih =>
      refine ⟨?_, ?_⟩
      · intro other member
        rcases List.mem_cons.mp member with rfl | later
        · exact (List.getElem?_eq_some_iff.mp isWord).1
        · exact ih.1 other later
      · rw [List.map_cons, ih.2, getD_of_getElem? isWord]

theorem Spells.dropLast {words : List Word} {ids : List Nat} {gram : List Word}
    (spells : Spells words ids gram) : Spells words ids.dropLast gram.dropLast := by
  rw [List.dropLast_eq_take, List.dropLast_eq_take, List.Forall₂.length_eq spells]
  exact List.forall₂_take _ spells

namespace NgramLM.Stores

variable {lm : NgramLM} {words : List Word} {tally : List Word → Nat} {prob : Rat}
  {all : List ((List Word → Rat) × (List Word → Rat))} (stores : lm.Stores words tally prob all)
  {ids : List Nat} {gram : List Word} (spells : Spells words ids gram)

include stores spells

theorem find_iff (fits : gram.length ≤ lm.model.levels.length) {index : Nat} :
    NgramLM.find lm.model.levels 0 ids = some index ↔
      (gramsAt words gram.length [[]] lm.model.levels)[index]? = some gram := by
  obtain ⟨inside, isGram⟩ := spells.map_getD
  have sameLength : ids.length = gram.length := List.Forall₂.length_eq spells
  rw [@find_eq_some_iff words tally _ stores.distinct stores.listed ids (sameLength ▸ fits) index,
    isGram, sameLength]
  exact ⟨fun both => both.2, fun found => ⟨inside, found⟩⟩

theorem find_of_missing (missing : ¬lm.model.Lists words gram) :
    NgramLM.find lm.model.levels 0 ids = none := by
  by_cases fits : gram.length ≤ lm.model.levels.length
  · cases found : NgramLM.find lm.model.levels 0 ids with
    | none => rfl
    | some index =>
        have isGram := (stores.find_iff spells fits).mp found
        exact absurd ⟨fits, List.mem_of_getElem? isGram⟩ missing
  · have sameLength : ids.length = gram.length := List.Forall₂.length_eq spells
    exact find_of_long 0 (by omega)

theorem exists_find (lists : lm.model.Lists words gram) :
    ∃ index, NgramLM.find lm.model.levels 0 ids = some index ∧
      (gramsAt words gram.length [[]] lm.model.levels)[index]? = some gram := by
  obtain ⟨fits, listed⟩ := lists
  obtain ⟨index, isGram⟩ := List.mem_iff_getElem?.mp listed
  exact ⟨index, (stores.find_iff spells fits).mpr isGram, isGram⟩

theorem storedProb_eq :
    (lm.model.Lists words gram → lm.storedProb ids = probAt prob all gram.length gram) ∧
    (¬lm.model.Lists words gram → lm.storedProb ids = 0) := by
  have sameLength : ids.length = gram.length := List.Forall₂.length_eq spells
  constructor
  · intro lists
    have fits := lists.1
    obtain ⟨index, found, isGram⟩ := stores.exists_find spells lists
    simp only [NgramLM.storedProb, found, sameLength, stores.probs]
    cases isLength : gram.length with
    | zero =>
        rw [isLength] at isGram
        have isZero : index = 0 := by
          have inside := (List.getElem?_eq_some_iff.mp isGram).1
          exact Nat.lt_one_iff.mp inside
        rw [isZero]
        rfl
    | succ place =>
        rw [isLength] at isGram fits
        have inside : place < all.length := by
          rw [stores.length]
          exact fits
        have isMade := List.getElem?_eq_getElem inside
        have isVector : ((vectorsOf [[]] (gramLists words [[]] lm.model.levels) all).map
            Prod.fst).getD place [] =
              (gramsAt words (place + 1) [[]] lm.model.levels).map all[place].1 :=
          getD_map_of_getElem? (getElem?_vectorsOf fits isMade) _
        rw [List.getD_cons_succ, isVector, probAt, isMade]
        exact getD_map_of_getElem? isGram _
  · intro missing
    rw [NgramLM.storedProb, stores.find_of_missing spells missing]

theorem bow_eq :
    (lm.model.Lists words gram → lm.bow ids = bowAt all gram.length gram) ∧
    (¬lm.model.Lists words gram → lm.bow ids = 1) := by
  have sameLength : ids.length = gram.length := List.Forall₂.length_eq spells
  constructor
  · intro lists
    obtain ⟨index, found, isGram⟩ := stores.exists_find spells lists
    simp only [NgramLM.bow, found, sameLength, stores.bows]
    rcases Nat.lt_or_ge gram.length lm.model.levels.length with inside | outside
    · have insideAll : gram.length < all.length := by
        rw [stores.length]
        exact inside
      have isMade := List.getElem?_eq_getElem insideAll
      have isVector : ((vectorsOf [[]] (gramLists words [[]] lm.model.levels) all).map
          Prod.snd).getD gram.length [] =
            (gramsAt words gram.length [[]] lm.model.levels).map all[gram.length].2 :=
        getD_map_of_getElem? (getElem?_vectorsOf inside isMade) _
      rw [isVector, bowAt, isMade]
      exact getD_map_of_getElem? isGram _
    · have isEnd : all[gram.length]? = none := List.getElem?_eq_none (stores.length.trans_le outside)
      have isShort : (vectorsOf [[]] (gramLists words [[]] lm.model.levels) all).length ≤
          gram.length :=
        length_vectorsOf.trans (stores.length.trans_le outside)
      have isNil : ((vectorsOf [[]] (gramLists words [[]] lm.model.levels) all).map
          Prod.snd).getD gram.length [] = [] := by
        rw [List.getD_eq_getElem?_getD, List.getElem?_eq_none (by
          rw [List.length_map]
          exact isShort), Option.getD_none]
      rw [bowAt, isEnd, isNil]
      rfl
  · intro missing
    rw [NgramLM.bow, stores.find_of_missing spells missing]

end NgramLM.Stores

section

variable {first second : NgramLM} {words otherWords : List Word} {tally : List Word → Nat} {prob : Rat}
  {all : List ((List Word → Rat) × (List Word → Rat))} (stores : first.Stores words tally prob all)
  (others : second.Stores otherWords tally prob all)
  (same : ∀ gram, first.model.Lists words gram ↔ second.model.Lists otherWords gram)
  {ids otherIds : List Nat} {gram : List Word} (here : Spells words ids gram)
  (there : Spells otherWords otherIds gram)

include stores others same here there

theorem NgramLM.Stores.storedProb_congr : first.storedProb ids = second.storedProb otherIds := by
  by_cases listed : first.model.Lists words gram
  · rw [(stores.storedProb_eq here).1 listed,
      (others.storedProb_eq there).1 ((same gram).mp listed)]
  · rw [(stores.storedProb_eq here).2 listed,
      (others.storedProb_eq there).2 (fun listedThere => listed ((same gram).mpr listedThere))]

theorem NgramLM.Stores.bow_congr : first.bow ids = second.bow otherIds := by
  by_cases listed : first.model.Lists words gram
  · rw [(stores.bow_eq here).1 listed, (others.bow_eq there).1 ((same gram).mp listed)]
  · rw [(stores.bow_eq here).2 listed,
      (others.bow_eq there).2 (fun listedThere => listed ((same gram).mpr listedThere))]

/-- Models that store the same for the same n-grams give all n-grams the same probabilities. -/
theorem NgramLM.Stores.prob_congr : first.prob ids = second.prob otherIds := by
  induction gram generalizing ids otherIds with
  | nil =>
      cases here
      cases there
      exact stores.storedProb_congr others same List.Forall₂.nil List.Forall₂.nil
  | cons word gram ih =>
      have hist := here.dropLast
      have otherHist := there.dropLast
      have isStored := stores.storedProb_congr others same here there
      cases here with
      | cons isWord later =>
          cases there with
          | cons isOther otherLater =>
              rw [NgramLM.prob, NgramLM.prob, isStored, ih later otherLater,
                stores.bow_congr others same hist otherHist]

end

end Mitlm
