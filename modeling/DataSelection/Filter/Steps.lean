/-
What one iteration of the budget loop does, and what a run of it is.

The inner loop is an instance of the lazy search for a greatest element.  A run is
the sequence of its selecting iterations; the budget only decides where it ends.
-/

import DataSelection.Filter.Selection
import DataSelection.Library.LazyMaximum

namespace Filter

open Library

variable {R : Type} [DoubleArithmetic R]

/-! ### Evaluation -/

theorem evaluate_congr {features : FeatureMap R} {left right : Sentence R}
    (same : left.toParsedSentence = right.toParsedSentence) (prevFuncValue : R) :
    evaluate features left prevFuncValue = evaluate features right prevFuncValue := by
  cases left with
  | mk leftParsed leftGain =>
      cases right with
      | mk rightParsed rightGain =>
          cases same
          rfl

/-- Storing the gain that the sentence has in the current state. -/
def refresh (features : FeatureMap R) (prevFuncValue : R) (sentence : Sentence R) :
    Sentence R := (evaluate features sentence prevFuncValue).1

@[simp] theorem toParsedSentence_refresh (features : FeatureMap R) (prevFuncValue : R)
    (sentence : Sentence R) :
    (refresh features prevFuncValue sentence).toParsedSentence = sentence.toParsedSentence := rfl

theorem refresh_refresh (features : FeatureMap R) (prevFuncValue : R) (sentence : Sentence R) :
    refresh features prevFuncValue (refresh features prevFuncValue sentence) =
      refresh features prevFuncValue sentence :=
  congrArg Prod.fst (evaluate_congr (toParsedSentence_refresh features prevFuncValue sentence)
    prevFuncValue)

/-! ### Committing an evaluation -/

theorem mem_keys_foldl_evaluateFeature (features : FeatureMap R) (length : Nat)
    (entries : List (Ngram × Nat)) (state : Evaluation R) (gram : Ngram) :
    gram ∈ (entries.foldl (evaluateFeature features length) state).2.keys ↔
      gram ∈ entries.map Prod.fst ∨ gram ∈ state.2.keys := by
  induction entries generalizing state with
  | nil => simp
  | cons entry rest ih =>
      rw [List.foldl_cons, ih, List.map_cons, List.mem_cons]
      simp only [evaluateFeature, DefaultDict.keys_set, DefaultDict.mem_keys_touch]
      tauto

def updatedFeature (features : FeatureMap R) (length : Nat) (entry : Ngram × Nat) : Feature R :=
  { features.value entry.1 with
    prevTotalRelevance :=
      (entry.2 : R) / (length : R) * (features.value entry.1).idf +
        (features.value entry.1).prevTotalRelevance }

theorem value_foldl_evaluateFeature (features : FeatureMap R) (length : Nat)
    (entries : List (Ngram × Nat)) (distinct : (entries.map Prod.fst).Nodup)
    (state : Evaluation R) :
    (∀ gram, gram ∉ entries.map Prod.fst →
      (entries.foldl (evaluateFeature features length) state).2.value gram =
        state.2.value gram) ∧
    ∀ entry ∈ entries,
      (entries.foldl (evaluateFeature features length) state).2.value entry.1 =
        updatedFeature features length entry := by
  induction entries generalizing state with
  | nil => exact ⟨fun _ _ => rfl, fun entry member => by cases member⟩
  | cons head rest ih =>
      rcases List.nodup_cons.mp distinct with ⟨headFresh, restDistinct⟩
      obtain ⟨others, listed⟩ := ih restDistinct (evaluateFeature features length state head)
      constructor
      · intro gram absent
        rw [List.map_cons, List.mem_cons, not_or] at absent
        rw [List.foldl_cons, others gram absent.2]
        exact DefaultDict.value_set_of_ne absent.1 _ _
      · intro entry member
        rcases List.mem_cons.mp member with same | inRest
        · rw [List.foldl_cons, same, others head.1 headFresh]
          exact DefaultDict.value_set_self head.1 _ _
        · exact listed entry inRest

theorem value_updateFeatures (features updates : FeatureMap R) (gram : Ngram) :
    (updateFeatures features updates).value gram =
      if gram ∈ updates.keys then updates.value gram else features.value gram := by
  unfold updateFeatures
  generalize updates.keys = keys
  induction keys using List.reverseRecOn with
  | nil => rfl
  | append_singleton before key ih =>
      rw [List.foldl_append, List.foldl_cons, List.foldl_nil, DefaultDict.value_set, ih]
      by_cases same : gram = key
      · simp [same]
      · simp [same]

theorem keys_updateFeatures {features updates : FeatureMap R}
    (known : ∀ gram ∈ updates.keys, gram ∈ features.keys) :
    (updateFeatures features updates).keys = features.keys := by
  unfold updateFeatures
  revert known
  generalize updates.keys = keys
  intro known
  induction keys using List.reverseRecOn with
  | nil => rfl
  | append_singleton before key ih =>
      have earlier := ih (fun gram member => known gram (List.mem_append_left _ member))
      have keyKnown := known key (List.mem_append_right _ (List.mem_singleton_self key))
      rw [List.foldl_append, List.foldl_cons, List.foldl_nil, DefaultDict.keys_set,
        DefaultDict.keys_touch_of_mem (earlier.symm ▸ keyKnown), earlier]

def commit (features : FeatureMap R) (prevFuncValue : R) (sentence : Sentence R) :
    FeatureMap R :=
  updateFeatures features (evaluate features sentence prevFuncValue).2.2

/-- What a sentence must be for its evaluation to make sense under a feature map. -/
structure ParsedSentence.WellFormed (keys : List Ngram) (sentence : ParsedSentence) : Prop where
  distinct : sentence.features.Nodup
  known : ∀ gram ∈ sentence.features, gram ∈ keys
  aligned : sentence.counts.length = sentence.features.length
  positive : 0 < sentence.length

theorem ParsedSentence.WellFormed.map_fst_zip {keys : List Ngram} {sentence : ParsedSentence}
    (wellFormed : sentence.WellFormed keys) :
    (sentence.features.zip sentence.counts).map Prod.fst = sentence.features :=
  List.map_fst_zip (Nat.le_of_eq wellFormed.aligned.symm)

theorem ParsedSentence.WellFormed.mem_features_iff {keys : List Ngram}
    {sentence : ParsedSentence} (wellFormed : sentence.WellFormed keys) {gram : Ngram} :
    gram ∈ sentence.features ↔
      ∃ entry ∈ sentence.features.zip sentence.counts, entry.1 = gram := by
  rw [← List.mem_map, wellFormed.map_fst_zip]

theorem mem_keys_evaluate (features : FeatureMap R) (sentence : Sentence R)
    (prevFuncValue : R) (gram : Ngram) :
    gram ∈ (evaluate features sentence prevFuncValue).2.2.keys ↔
      gram ∈ (sentence.features.zip sentence.counts).map Prod.fst := by
  refine (mem_keys_foldl_evaluateFeature features sentence.length _ _ gram).trans ?_
  simp

section

variable {features : FeatureMap R} {sentence : Sentence R}
  (wellFormed : sentence.toParsedSentence.WellFormed features.keys) (prevFuncValue : R)

include wellFormed

theorem keys_commit : (commit features prevFuncValue sentence).keys = features.keys := by
  apply keys_updateFeatures
  intro gram updated
  rw [mem_keys_evaluate, wellFormed.map_fst_zip] at updated
  exact wellFormed.known gram updated

theorem value_commit_of_notMem {gram : Ngram} (absent : gram ∉ sentence.features) :
    (commit features prevFuncValue sentence).value gram = features.value gram := by
  unfold commit
  rw [value_updateFeatures, if_neg]
  rw [mem_keys_evaluate, wellFormed.map_fst_zip]
  exact absent

theorem value_commit_of_mem {entry : Ngram × Nat}
    (member : entry ∈ sentence.features.zip sentence.counts) :
    (commit features prevFuncValue sentence).value entry.1 =
      updatedFeature features sentence.length entry := by
  have distinct : ((sentence.features.zip sentence.counts).map Prod.fst).Nodup := by
    rw [wellFormed.map_fst_zip]
    exact wellFormed.distinct
  unfold commit
  rw [value_updateFeatures, if_pos]
  · exact (value_foldl_evaluateFeature features sentence.length _ distinct
      (prevFuncValue, .empty)).2 entry member
  · rw [mem_keys_evaluate]
    exact List.mem_map_of_mem member

end

variable (queue : PriorityQueue (Sentence.less (R := R)))

/-- The inner loop is a lazy search, and the result it carries along is always the
evaluation of the sentence at hand. -/
theorem reevaluate_eq (features : FeatureMap R) (prevSubmodValue : R) (fuel : Nat)
    (sentence : Sentence R) (items : List (Sentence R)) :
    reevaluate queue features prevSubmodValue fuel sentence
        (evaluate features sentence prevSubmodValue).2 items =
      (lazySelect queue (refresh features prevSubmodValue) fuel sentence items).map
        (fun found => (found.1, (evaluate features found.1 prevSubmodValue).2, found.2)) := by
  induction fuel generalizing sentence items with
  | zero => rfl
  | succ fuel ih =>
      cases items with
      | nil => rfl
      | cons top rest =>
          rw [reevaluate, lazySelect]
          by_cases below : sentence.less top = true
          · rw [if_pos below, if_pos below]
            cases pushed : queue.push sentence (top :: rest) with
            | nil => rfl
            | cons front behind =>
                have carried : (evaluate features front prevSubmodValue).2 =
                    (evaluate features (refresh features prevSubmodValue front)
                      prevSubmodValue).2 :=
                  congrArg Prod.snd (evaluate_congr
                    (toParsedSentence_refresh features prevSubmodValue front).symm _)
                dsimp only
                rw [carried]
                exact ih (refresh features prevSubmodValue front) _
          · rw [if_neg below, if_neg below]
            rfl

/-! ### One iteration -/

theorem chooseLast_of_ne (state : LoopState R) (several : state.availableSentences.length ≠ 1) :
    chooseLast queue state = state := by
  unfold chooseLast
  cases available : state.availableSentences with
  | nil => rfl
  | cons top rest =>
      cases rest with
      | nil =>
          rw [available] at several
          exact (several rfl).elim
      | cons second others => rfl

theorem chooseLast_of_single {state : LoopState R} {last : Sentence R}
    (single : state.availableSentences = [last]) :
    chooseLast queue state =
      { state with
        chosen := state.chosen ++ [last.index]
        availableSentences := [] } := by
  have emptied : queue.pop [last] = [] := (queue.pop_perm last []).eq_nil
  unfold chooseLast
  rw [single]
  dsimp only
  rw [emptied]

/-- A step of a run: what a selecting iteration does to the state. -/
structure SelectStep (counters : Counters) (fuel : Nat) (before : LoopState R)
    (sentence : Sentence R) (after : LoopState R) : Prop where
  found : ∃ top rest, before.availableSentences = top :: rest ∧ rest ≠ [] ∧
    lazySelect queue (refresh before.features before.prevSubmodValue) fuel
      (refresh before.features before.prevSubmodValue top) (queue.pop (top :: rest)) =
        some (sentence, after.availableSentences)
  features : after.features = commit before.features before.prevSubmodValue sentence
  chosen : after.chosen = before.chosen ++ [sentence.index]
  prevSubmodValue : after.prevSubmodValue =
    (evaluate before.features sentence before.prevSubmodValue).2.1
  totalCost : after.totalCost = counters.uint (before.totalCost + sentence.length)

theorem iterate_of_nil (counters : Counters) (fuel : Nat) {before : LoopState R}
    (empty : before.availableSentences = []) :
    iterate queue counters fuel before = some (.exhausted before) := by
  unfold iterate
  rw [chooseLast_of_ne queue before (by rw [empty]; exact Nat.zero_ne_one)]
  dsimp only
  rw [empty]

theorem iterate_of_single (counters : Counters) (fuel : Nat) {before : LoopState R}
    {last : Sentence R} (single : before.availableSentences = [last]) :
    iterate queue counters fuel before =
      some (.exhausted { before with
        chosen := before.chosen ++ [last.index]
        availableSentences := [] }) := by
  unfold iterate
  rw [chooseLast_of_single queue single]

theorem iterate_of_several {counters : Counters} {fuel : Nat} {before : LoopState R}
    {top : Sentence R} {rest : List (Sentence R)}
    (available : before.availableSentences = top :: rest) (several : rest ≠ []) :
    iterate queue counters fuel before =
      (lazySelect queue (refresh before.features before.prevSubmodValue) fuel
        (refresh before.features before.prevSubmodValue top) (queue.pop (top :: rest))).map
        (fun found => .selected found.1
          { features := commit before.features before.prevSubmodValue found.1
            availableSentences := found.2
            chosen := before.chosen ++ [found.1.index]
            prevSubmodValue := (evaluate before.features found.1 before.prevSubmodValue).2.1
            totalCost := counters.uint (before.totalCost + cost found.1.toParsedSentence) }) := by
  have notSingle : before.availableSentences.length ≠ 1 := by
    rw [available, List.length_cons]
    have positive := List.length_pos_of_ne_nil several
    omega
  have carried : (evaluate before.features top before.prevSubmodValue).2 =
      (evaluate before.features (refresh before.features before.prevSubmodValue top)
        before.prevSubmodValue).2 :=
    congrArg Prod.snd (evaluate_congr
      (toParsedSentence_refresh before.features before.prevSubmodValue top).symm _)
  have searched := reevaluate_eq queue before.features before.prevSubmodValue fuel
    (refresh before.features before.prevSubmodValue top) (queue.pop (top :: rest))
  unfold iterate
  rw [chooseLast_of_ne queue before notSingle]
  dsimp only
  rw [available]
  dsimp only
  rw [carried]
  change (reevaluate queue before.features before.prevSubmodValue fuel
    (refresh before.features before.prevSubmodValue top) _ _).map _ = _
  rw [searched, Option.map_map]
  rfl

theorem iterate_selected {counters : Counters} {fuel : Nat} {before after : LoopState R}
    {sentence : Sentence R}
    (step : iterate queue counters fuel before = some (.selected sentence after)) :
    SelectStep queue counters fuel before sentence after := by
  cases available : before.availableSentences with
  | nil =>
      rw [iterate_of_nil queue counters fuel available] at step
      cases step
  | cons top rest =>
      by_cases several : rest = []
      · subst several
        rw [iterate_of_single queue counters fuel available] at step
        cases step
      · rw [iterate_of_several queue available several] at step
        rcases Option.map_eq_some_iff.mp step with ⟨found, search, same⟩
        obtain ⟨rfl, rfl⟩ := Iteration.selected.inj same
        exact ⟨⟨top, rest, available, several, search⟩, rfl, rfl, rfl, rfl⟩

theorem iterate_exhausted {counters : Counters} {fuel : Nat} {before after : LoopState R}
    (step : iterate queue counters fuel before = some (.exhausted after)) :
    before.availableSentences.length ≤ 1 ∧ after.availableSentences = [] ∧
      after.chosen = before.chosen ++ before.availableSentences.map (fun last => last.index) := by
  cases available : before.availableSentences with
  | nil =>
      rw [iterate_of_nil queue counters fuel available] at step
      cases step
      exact ⟨Nat.zero_le 1, available, by simp⟩
  | cons top rest =>
      by_cases several : rest = []
      · subst several
        rw [iterate_of_single queue counters fuel available] at step
        cases step
        exact ⟨Nat.le_refl 1, rfl, rfl⟩
      · rw [iterate_of_several queue available several] at step
        rcases Option.map_eq_some_iff.mp step with ⟨found, _search, same⟩
        cases same

theorem iterate_of_short (counters : Counters) (fuel : Nat) {before : LoopState R}
    (few : before.availableSentences.length ≤ 1) :
    ∃ after, iterate queue counters fuel before = some (.exhausted after) := by
  cases available : before.availableSentences with
  | nil => exact ⟨_, iterate_of_nil queue counters fuel available⟩
  | cons top rest =>
      rw [available, List.length_cons] at few
      have single : rest = [] := List.eq_nil_of_length_eq_zero (by omega)
      subst single
      exact ⟨_, iterate_of_single queue counters fuel available⟩

/-! ### Runs -/

/-- `Selects start picks state`: selecting iterations lead from `start` to `state`
and took `picks` in this order.  No budget is tested, so the loop follows such a
run for every budget and stops somewhere on it. -/
inductive Selects (counters : Counters) (fuel : Nat) (start : LoopState R) :
    List ParsedSentence → LoopState R → Prop
  | refl : Selects counters fuel start [] start
  | select {picks : List ParsedSentence} {before after : LoopState R} {sentence : Sentence R}
      (run : Selects counters fuel start picks before)
      (step : iterate queue counters fuel before = some (.selected sentence after)) :
      Selects counters fuel start (picks ++ [sentence.toParsedSentence]) after

def LoopState.available (state : LoopState R) : List ParsedSentence :=
  state.availableSentences.map Sentence.toParsedSentence

theorem SelectStep.available_perm {counters : Counters} {fuel : Nat}
    {before after : LoopState R} {sentence : Sentence R}
    (step : SelectStep queue counters fuel before sentence after) :
    (sentence.toParsedSentence :: after.available).Perm before.available := by
  rcases step.found with ⟨top, rest, available, _several, search⟩
  have permuted := lazySelect_perm queue (refresh before.features before.prevSubmodValue)
    Sentence.toParsedSentence
    (toParsedSentence_refresh before.features before.prevSubmodValue) fuel _ _ _ _ search
  rw [List.map_cons, List.map_cons] at permuted
  unfold LoopState.available
  rw [available, List.map_cons]
  exact permuted.trans (((queue.pop_perm top rest).map _).cons _)

theorem SelectStep.length_available {counters : Counters} {fuel : Nat}
    {before after : LoopState R} {sentence : Sentence R}
    (step : SelectStep queue counters fuel before sentence after) :
    after.availableSentences.length + 1 = before.availableSentences.length := by
  have lengths := (step.available_perm queue).length_eq
  simpa only [LoopState.available, List.length_cons, List.length_map] using lengths

theorem SelectStep.heap (order : OrdersDoubles R) {counters : Counters} {fuel : Nat}
    {before after : LoopState R} {sentence : Sentence R}
    (heap : queue.Heap before.availableSentences)
    (step : SelectStep queue counters fuel before sentence after) :
    queue.Heap after.availableSentences := by
  rcases step.found with ⟨top, rest, available, _several, search⟩
  rw [available] at heap
  have weakOrder := Sentence.less_weakOrder order
  exact (lazySelect_searching queue weakOrder _ fuel _ _ _ _
    ⟨refresh_refresh before.features before.prevSubmodValue,
      refresh_refresh before.features before.prevSubmodValue top,
      queue.heap_pop weakOrder top rest heap⟩ search).heap

/-- Every iteration ends: at worst each sentence is evaluated once and one of them
twice. -/
theorem iterate_ends (order : OrdersDoubles R) (counters : Counters) {fuel : Nat}
    {before : LoopState R} (heap : queue.Heap before.availableSentences)
    (enough : before.availableSentences.length + 1 ≤ fuel) :
    ∃ iteration, iterate queue counters fuel before = some iteration := by
  by_cases few : before.availableSentences.length ≤ 1
  · obtain ⟨after, step⟩ := iterate_of_short queue counters fuel few
    exact ⟨_, step⟩
  · cases available : before.availableSentences with
    | nil =>
        rw [available] at few
        exact (few (Nat.zero_le 1)).elim
    | cons top rest =>
        rw [available] at heap few enough
        have several : rest ≠ [] := by
          intro single
          rw [single] at few
          exact few (Nat.le_refl 1)
        have weakOrder := Sentence.less_weakOrder order
        have popLength := queue.length_pop top rest
        have stale := staleCount_le_length (refresh before.features before.prevSubmodValue)
          (queue.pop (top :: rest))
        rw [popLength] at stale
        rw [List.length_cons] at enough
        obtain ⟨selected, left, search⟩ := lazySelect_ends queue weakOrder
          (refresh before.features before.prevSubmodValue) fuel
          (refresh before.features before.prevSubmodValue top) (queue.pop (top :: rest))
          (by
            apply List.ne_nil_of_length_pos
            rw [popLength]
            exact List.length_pos_of_ne_nil several)
          ⟨refresh_refresh before.features before.prevSubmodValue,
            refresh_refresh before.features before.prevSubmodValue top,
            queue.heap_pop weakOrder top rest heap⟩ (by omega)
        rw [iterate_of_several queue available several, search]
        exact ⟨_, rfl⟩

theorem budgetLoop_ends (order : OrdersDoubles R) (counters : Counters) {inner : Nat}
    (budget fuel : Nat) {start : LoopState R} (heap : queue.Heap start.availableSentences)
    (innerEnough : start.availableSentences.length + 1 ≤ inner)
    (enough : start.availableSentences.length + 1 ≤ fuel) :
    ∃ final, budgetLoop queue counters inner budget fuel start = some final := by
  induction fuel generalizing start with
  | zero => omega
  | succ fuel ih =>
      rw [budgetLoop]
      by_cases below : start.totalCost < budget
      · rw [if_pos below]
        obtain ⟨iteration, step⟩ := iterate_ends queue order counters heap innerEnough
        rw [step]
        cases iteration with
        | exhausted after => exact ⟨after, rfl⟩
        | selected sentence after =>
            have selected := iterate_selected queue step
            have shorter := selected.length_available queue
            exact ih (selected.heap queue order heap) (by omega) (by omega)
      · exact ⟨start, if_neg below⟩

/-- A run neither loses nor duplicates a sentence, and records what it takes. -/
theorem Selects.account {counters : Counters} {fuel : Nat} {start state : LoopState R}
    {picks : List ParsedSentence} (run : Selects queue counters fuel start picks state) :
    (picks ++ state.available).Perm start.available ∧
      state.chosen = start.chosen ++ picks.map (fun pick => pick.index) := by
  induction run with
  | refl => exact ⟨List.Perm.refl _, by simp⟩
  | @select picks before after sentence _run step ih =>
      have selected := iterate_selected queue step
      rcases ih with ⟨permuted, chosen⟩
      constructor
      · rw [List.append_assoc, List.singleton_append]
        exact ((selected.available_perm queue).append_left picks).trans permuted
      · rw [selected.chosen, chosen, List.map_append, List.append_assoc]
        rfl

theorem Selects.totalCost {counters : Counters} {fuel : Nat} {start state : LoopState R}
    {picks : List ParsedSentence} (free : start.totalCost = 0)
    (run : Selects queue counters fuel start picks state) :
    state.totalCost = counters.uint ((picks.map cost).sum) := by
  induction run with
  | refl =>
      rw [free]
      exact (counters.uint_of_lt (Nat.two_pow_pos 32)).symm
  | @select picks before after sentence _run step ih =>
      rw [(iterate_selected queue step).totalCost, ih, counters.uint_add, List.map_append,
        List.sum_append]
      rfl

/-- How the budget loop ends: on a run, either because the budget test fails there
or because at most one sentence is left. -/
theorem budgetLoop_selects {counters : Counters} {inner budget : Nat} (fuel : Nat)
    {start final : LoopState R}
    (loop : budgetLoop queue counters inner budget fuel start = some final) :
    ∃ picks state, Selects queue counters inner start picks state ∧
      ((final = state ∧ budget ≤ state.totalCost) ∨
        (state.totalCost < budget ∧
          iterate queue counters inner state = some (.exhausted final))) := by
  suffices continued : ∀ picks before, Selects queue counters inner start picks before →
      budgetLoop queue counters inner budget fuel before = some final →
      ∃ picks state, Selects queue counters inner start picks state ∧
        ((final = state ∧ budget ≤ state.totalCost) ∨
          (state.totalCost < budget ∧
            iterate queue counters inner state = some (.exhausted final))) from
    continued [] start .refl loop
  clear loop
  induction fuel with
  | zero =>
      intro picks before _run loop
      cases loop
  | succ fuel ih =>
      intro picks before run loop
      rw [budgetLoop] at loop
      by_cases below : before.totalCost < budget
      · rw [if_pos below] at loop
        cases step : iterate queue counters inner before with
        | none =>
            rw [step] at loop
            cases loop
        | some iteration =>
            rw [step] at loop
            cases iteration with
            | exhausted after =>
                cases loop
                exact ⟨picks, before, run, Or.inr ⟨below, step⟩⟩
            | selected sentence after =>
                exact ih _ after (run.select step) loop
      · rw [if_neg below] at loop
        cases loop
        exact ⟨picks, _, run, Or.inl ⟨rfl, Nat.le_of_not_lt below⟩⟩

end Filter
