/-
Runs do not look at line numbers.

Two runs whose sentences differ in their indices only, and whose feature maps agree
on the features of these sentences, go through the same steps with any arithmetic.
-/

import DataSelection.Filter.Start

namespace Filter

open Library

variable {R : Type} [DoubleArithmetic R]

def Sentence.renumber (number : Nat → Nat) (sentence : Sentence R) : Sentence R :=
  { sentence with index := number sentence.index }

theorem keepsOrder_renumber (number : Nat → Nat) :
    KeepsOrder Sentence.less (Sentence.renumber (R := R) number) := fun _ _ => rfl

/-- The feature maps hold the same data for the features that take part. -/
def AgreeOn (inside : Ngram → Prop) (left right : FeatureMap R) : Prop :=
  ∀ gram, inside gram → right.value gram = left.value gram

/-- A sentence that takes part: its features do, and its number is below `count`. -/
structure ParsedSentence.Within (inside : Ngram → Prop) (count : Nat)
    (sentence : ParsedSentence) : Prop where
  features : ∀ gram ∈ sentence.features, inside gram
  index : sentence.index < count

section

variable {inside : Ngram → Prop} {count : Nat} {left right : FeatureMap R}
  (agree : AgreeOn inside left right) {sentence : Sentence R}
  (within : sentence.Within inside count) (number : Nat → Nat) (prevFuncValue : R)

include agree within

theorem evaluate_renumber :
    evaluate right (sentence.renumber number) prevFuncValue =
      ((evaluate left sentence prevFuncValue).1.renumber number,
        (evaluate left sentence prevFuncValue).2) := by
  have sameFold : (sentence.features.zip sentence.counts).foldl
        (evaluateFeature right sentence.length) (prevFuncValue, .empty) =
      (sentence.features.zip sentence.counts).foldl
        (evaluateFeature left sentence.length) (prevFuncValue, .empty) := by
    apply List.foldl_ext
    intro state entry member
    have same := agree entry.1 (within.features entry.1 (List.of_mem_zip member).1)
    unfold evaluateFeature
    rw [same]
  unfold evaluate submodularFunction
  simp only [Sentence.renumber, sameFold, cost]

theorem refresh_renumber :
    refresh right prevFuncValue (sentence.renumber number) =
      (refresh left prevFuncValue sentence).renumber number :=
  congrArg Prod.fst (evaluate_renumber agree within number prevFuncValue)

theorem commit_renumber :
    AgreeOn inside (commit left prevFuncValue sentence)
      (commit right prevFuncValue (sentence.renumber number)) := by
  intro gram known
  unfold commit
  rw [evaluate_renumber agree within number prevFuncValue, value_updateFeatures,
    value_updateFeatures, agree gram known]

end

/-! ### Related states -/

/-- `right` is `left` with other line numbers and feature data that is as good. -/
structure Renumbered (number : Nat → Nat) (inside : Ngram → Prop) (count : Nat)
    (left right : LoopState R) : Prop where
  features : AgreeOn inside left.features right.features
  availableSentences :
    right.availableSentences = left.availableSentences.map (Sentence.renumber number)
  chosen : right.chosen = left.chosen.map number
  prevSubmodValue : right.prevSubmodValue = left.prevSubmodValue
  totalCost : right.totalCost = left.totalCost
  within : ∀ sentence ∈ left.availableSentences, sentence.Within inside count
  inRange : ∀ index ∈ left.chosen, index < count

inductive RenumberedIteration (number : Nat → Nat) (inside : Ngram → Prop) (count : Nat) :
    Option (Iteration R) → Option (Iteration R) → Prop
  | none : RenumberedIteration number inside count none none
  | exhausted {left right : LoopState R} (related : Renumbered number inside count left right) :
      RenumberedIteration number inside count (some (.exhausted left)) (some (.exhausted right))
  | selected {left right : LoopState R} (sentence : Sentence R)
      (related : Renumbered number inside count left right) :
      RenumberedIteration number inside count (some (.selected sentence left))
        (some (.selected (sentence.renumber number) right))

variable (queue : PriorityQueue (Sentence.less (R := R)))

section

variable {number : Nat → Nat} {inside : Ngram → Prop} {count : Nat} {left right : LoopState R}
  (related : Renumbered number inside count left right) {top : Sentence R}
  {items : List (Sentence R)} (topWithin : top.Within inside count)
  (itemsWithin : ∀ sentence ∈ items, sentence.Within inside count) (fuel : Nat)

include topWithin itemsWithin

include related in
theorem Renumbered.search :
    lazySelect queue (refresh right.features left.prevSubmodValue) fuel
        ((refresh left.features left.prevSubmodValue top).renumber number)
        (items.map (Sentence.renumber number)) =
      (lazySelect queue (refresh left.features left.prevSubmodValue) fuel
        (refresh left.features left.prevSubmodValue top) items).map
        (fun found => (found.1.renumber number, found.2.map (Sentence.renumber number))) := by
  have commutes : ∀ sentence : Sentence R, sentence.Within inside count →
      refresh right.features left.prevSubmodValue (sentence.renumber number) =
        (refresh left.features left.prevSubmodValue sentence).renumber number :=
    fun _ within => refresh_renumber related.features within number left.prevSubmodValue
  have closed : ∀ sentence : Sentence R, sentence.Within inside count →
      (refresh left.features left.prevSubmodValue sentence).Within inside count :=
    fun _ within => within
  exact lazySelect_map queue (keepsOrder_renumber number) _ closed commutes fuel
    (refresh left.features left.prevSubmodValue top) items topWithin itemsWithin

theorem within_of_search (features : FeatureMap R) (prevFuncValue : R)
    {found : Sentence R × List (Sentence R)}
    (search : lazySelect queue (refresh features prevFuncValue) fuel
      (refresh features prevFuncValue top) items = some found) :
    ∀ sentence ∈ found.1 :: found.2, sentence.Within inside count := by
  have permuted := lazySelect_perm queue (refresh features prevFuncValue)
    Sentence.toParsedSentence (toParsedSentence_refresh features prevFuncValue) fuel _ _ _ _ search
  intro sentence member
  have origin := permuted.mem_iff.mp (List.mem_map_of_mem member)
  rcases List.mem_map.mp origin with ⟨original, inQueue, same⟩
  rw [← same]
  cases List.mem_cons.mp inQueue with
  | inl isTop =>
      rw [isTop]
      exact topWithin
  | inr inItems => exact itemsWithin original inItems

end

private theorem Renumbered.choose {number : Nat → Nat} {inside : Ngram → Prop} {count : Nat}
    {left right : LoopState R} (related : Renumbered number inside count left right)
    {sentence : Sentence R} (within : sentence.Within inside count) :
    right.chosen ++ [(sentence.renumber number).index] =
        (left.chosen ++ [sentence.index]).map number ∧
      ∀ index ∈ left.chosen ++ [sentence.index], index < count := by
  constructor
  · rw [List.map_append, ← related.chosen]
    rfl
  · intro index member
    cases List.mem_append.mp member with
    | inl earlier => exact related.inRange index earlier
    | inr last =>
        rw [List.mem_singleton.mp last]
        exact within.index

theorem Renumbered.iterate {number : Nat → Nat} {inside : Ngram → Prop} {count : Nat}
    {left right : LoopState R} (related : Renumbered number inside count left right)
    (counters : Counters) (fuel : Nat) :
    RenumberedIteration number inside count (iterate queue counters fuel left)
      (iterate queue counters fuel right) := by
  have sameQueue := related.availableSentences
  cases available : left.availableSentences with
  | nil =>
      rw [available, List.map_nil] at sameQueue
      rw [iterate_of_nil queue counters fuel available,
        iterate_of_nil queue counters fuel sameQueue]
      exact .exhausted related
  | cons top rest =>
      rw [available, List.map_cons] at sameQueue
      have topWithin := related.within top (by rw [available]; exact List.mem_cons_self)
      by_cases several : rest = []
      · subst several
        rw [iterate_of_single queue counters fuel available,
          iterate_of_single queue counters fuel sameQueue]
        rcases related.choose topWithin with ⟨chosen, inRange⟩
        exact .exhausted
          { related with
            availableSentences := rfl
            chosen := chosen
            within := fun sentence member => by cases member
            inRange := inRange }
      · have severalRight : rest.map (Sentence.renumber number) ≠ [] :=
          fun empty => several (List.map_eq_nil_iff.mp empty)
        rw [iterate_of_several queue available several,
          iterate_of_several queue sameQueue severalRight, related.prevSubmodValue,
          related.totalCost, refresh_renumber related.features topWithin, ← List.map_cons,
          queue.pop_map _ (keepsOrder_renumber number)]
        have poppedWithin : ∀ sentence ∈ queue.pop (top :: rest), sentence.Within inside count := by
          intro sentence member
          apply related.within
          rw [available]
          exact List.mem_cons_of_mem top ((queue.pop_perm top rest).mem_iff.mp member)
        rw [related.search queue topWithin poppedWithin]
        cases search : lazySelect queue (refresh left.features left.prevSubmodValue) fuel
            (refresh left.features left.prevSubmodValue top) (queue.pop (top :: rest)) with
        | none => exact .none
        | some found =>
            have foundWithin := within_of_search queue topWithin poppedWithin fuel
              left.features left.prevSubmodValue search
            have pickWithin := foundWithin found.1 List.mem_cons_self
            rcases related.choose pickWithin with ⟨chosen, inRange⟩
            have value := evaluate_renumber related.features pickWithin number
              left.prevSubmodValue
            exact .selected found.1
              { features := commit_renumber related.features pickWithin number _
                availableSentences := rfl
                chosen := chosen
                prevSubmodValue := congrArg (fun evaluated => evaluated.2.1) value
                totalCost := rfl
                within := fun sentence member =>
                  foundWithin sentence (List.mem_cons_of_mem _ member)
                inRange := inRange }

theorem Renumbered.budgetLoop {number : Nat → Nat} {inside : Ngram → Prop} {count : Nat}
    (counters : Counters) (inner budget fuel : Nat) {left right : LoopState R}
    (related : Renumbered number inside count left right) :
    Option.Rel (Renumbered number inside count)
      (budgetLoop queue counters inner budget fuel left)
      (budgetLoop queue counters inner budget fuel right) := by
  induction fuel generalizing left right with
  | zero => exact .none
  | succ fuel ih =>
      rw [Filter.budgetLoop, Filter.budgetLoop, related.totalCost]
      by_cases below : left.totalCost < budget
      · rw [if_pos below, if_pos below]
        have step := related.iterate queue counters inner
        revert step
        generalize Filter.iterate queue counters inner left = leftStep
        generalize Filter.iterate queue counters inner right = rightStep
        intro step
        cases step with
        | none => exact .none
        | exhausted after => exact .some after
        | selected sentence after => exact ih after
      · rw [if_neg below, if_neg below]
        exact .some related

/-! ### Related starts -/

theorem renumbered_startState (counters : Counters) {number : Nat → Nat}
    {inside : Ngram → Prop} {count : Nat} {left right : FeatureMap R}
    (agree : AgreeOn inside left right)
    (known : ∀ gram, inside gram → gram ∈ left.keys ∧ gram ∈ right.keys)
    {sentences : List (Sentence R)}
    (within : ∀ sentence ∈ sentences, sentence.Within inside count) :
    Renumbered number inside count (startState queue counters left sentences)
      (startState queue counters right (sentences.map (Sentence.renumber number))) := by
  have statsAgree : AgreeOn inside
      (calculateFeatureStats left (counters.uint sentences.length))
      (calculateFeatureStats right (counters.uint
        (sentences.map (Sentence.renumber number)).length)) := by
    intro gram member
    obtain ⟨inLeft, inRight⟩ := known gram member
    rw [value_calculateFeatureStats inLeft, value_calculateFeatureStats inRight,
      agree gram member, List.length_map]
  refine
    { features := statsAgree
      availableSentences := ?_
      chosen := rfl
      prevSubmodValue := rfl
      totalCost := rfl
      within := ?_
      inRange := fun index member => by cases member }
  · have refreshed : (sentences.map (Sentence.renumber number)).map
        (refresh (calculateFeatureStats right (counters.uint
          (sentences.map (Sentence.renumber number)).length)) 0) =
        (sentences.map (refresh (calculateFeatureStats left
          (counters.uint sentences.length)) 0)).map (Sentence.renumber number) := by
      rw [List.map_map, List.map_map]
      apply List.map_congr_left
      intro sentence member
      exact refresh_renumber statsAgree (within sentence member) number 0
    unfold startState
    dsimp only
    rw [refreshed, queue.ofList_map _ (keepsOrder_renumber number)]
  · intro sentence member
    have inSentences := (queue.ofList_perm _).mem_iff.mp member
    rcases List.mem_map.mp inSentences with ⟨original, isSentence, rfl⟩
    exact within original isSentence

end Filter
