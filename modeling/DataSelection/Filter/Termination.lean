/-
What the loops over the queue evaluate, and that they end.

One pass through the body of the budget loop evaluates each sentence of the queue
at most once and then at most one more, which ends it.  Every pass that selects
takes a sentence out of the queue, so the loop ends for every budget.  Before it,
the 32-bit index of the first gains must be able to reach the last sentence.
-/

import DataSelection.Filter.Output

namespace Filter

open Library

/-- Each available element at most once, and at most one evaluation more. -/
def OnceAndOneMore {α : Type} (available evaluated : List α) : Prop :=
  ∃ firsts again, evaluated = firsts ++ again ∧ firsts.Subperm available ∧ again.length ≤ 1

theorem OnceAndOneMore.length_le {α : Type} {available evaluated : List α}
    (once : OnceAndOneMore available evaluated) : evaluated.length ≤ available.length + 1 := by
  rcases once with ⟨firsts, again, rfl, inside, atMost⟩
  have few := inside.length_le
  rw [List.length_append]
  omega

variable {R : Type} [DoubleArithmetic R]

section

variable (queue : PriorityQueue (Sentence.less (R := R)))

def reevaluated (features : FeatureMap R) (prevSubmodValue : R) :
    Nat → Sentence R → List (Sentence R) → List (Sentence R)
  | 0, _, _ => []
  | _ + 1, _, [] => []
  | fuel + 1, sentence, top :: rest =>
      if sentence.less top then
        match queue.push sentence (top :: rest) with
        | [] => []
        | front :: behind =>
            front :: reevaluated features prevSubmodValue fuel
              (evaluate features front prevSubmodValue).1 (queue.pop (front :: behind))
      else []

/-- The sentences that one pass through the body of the budget loop evaluates. -/
def evaluatedSentences (fuel : Nat) (before : LoopState R) : List (Sentence R) :=
  let state := chooseLast queue before
  match state.availableSentences with
  | [] => []
  | top :: rest =>
      top :: reevaluated queue state.features state.prevSubmodValue fuel
        (evaluate state.features top state.prevSubmodValue).1 (queue.pop (top :: rest))

theorem reevaluated_eq (features : FeatureMap R) (prevSubmodValue : R) (fuel : Nat)
    (sentence : Sentence R) (items : List (Sentence R)) :
    reevaluated queue features prevSubmodValue fuel sentence items =
      lazyVisits queue (refresh features prevSubmodValue) fuel sentence items := by
  induction fuel generalizing sentence items with
  | zero => rfl
  | succ fuel ih =>
      cases items with
      | nil => rfl
      | cons top rest =>
          rw [reevaluated, lazyVisits]
          by_cases below : sentence.less top = true
          · rw [if_pos below, if_pos below]
            cases pushed : queue.push sentence (top :: rest) with
            | nil => rfl
            | cons front behind =>
                dsimp only
                rw [ih]
                rfl
          · rw [if_neg below, if_neg below]

theorem evaluatedSentences_of_short (fuel : Nat) {before : LoopState R}
    (few : before.availableSentences.length ≤ 1) : evaluatedSentences queue fuel before = [] := by
  have emptied : (chooseLast queue before).availableSentences = [] := by
    cases available : before.availableSentences with
    | nil =>
        rw [chooseLast_of_ne queue before (by rw [available]; exact Nat.zero_ne_one), available]
    | cons top rest =>
        rw [available, List.length_cons] at few
        have single : rest = [] := List.eq_nil_of_length_eq_zero (by omega)
        subst single
        rw [chooseLast_of_single queue available]
  unfold evaluatedSentences
  dsimp only
  rw [emptied]

/-- No pass evaluates more than the sentences of the queue and one of them again. -/
theorem evaluatedSentences_once (order : OrdersDoubles R) (fuel : Nat) {before : LoopState R}
    (heap : queue.Heap before.availableSentences) :
    OnceAndOneMore before.availableSentences (evaluatedSentences queue fuel before) := by
  by_cases few : before.availableSentences.length ≤ 1
  · rw [evaluatedSentences_of_short queue fuel few]
    exact ⟨[], [], rfl, List.nil_subperm, Nat.zero_le 1⟩
  · have weakOrder := Sentence.less_weakOrder order
    unfold evaluatedSentences
    rw [chooseLast_of_ne queue before (by omega)]
    dsimp only
    cases available : before.availableSentences with
    | nil => exact ⟨[], [], rfl, List.nil_subperm, Nat.zero_le 1⟩
    | cons top rest =>
        rw [available] at heap
        have searching : Searching queue (refresh before.features before.prevSubmodValue)
            (refresh before.features before.prevSubmodValue top) (queue.pop (top :: rest)) :=
          ⟨refresh_refresh before.features before.prevSubmodValue,
            refresh_refresh before.features before.prevSubmodValue top,
            queue.heap_pop weakOrder top rest heap⟩
        obtain ⟨firsts, again, visits, atMost, inside, _stale⟩ :=
          lazyVisits_once queue weakOrder _ fuel _ _ searching
        refine ⟨top :: firsts, again, ?_, ?_, atMost⟩
        · dsimp only
          rw [reevaluated_eq, List.cons_append, ← visits]
          rfl
        · exact (List.subperm_cons top).mpr (inside.trans (queue.pop_perm top rest).subperm)

end

/-! ### The whole program -/

/-- The program ends for every budget exactly when its 32-bit index can count the
available sentences. -/
theorem select_ends_iff (queue : PriorityQueue (Sentence.less (R := R)))
    (order : OrdersDoubles R) (counters : Counters) {fuel : Nat}
    {seedCorpus minedCorpus : List Char} (enough : enoughFuel seedCorpus minedCorpus ≤ fuel) :
    ∃ (features : FeatureMap R) (sentences : List (Sentence R)),
      parseCorpora counters fuel seedCorpus minedCorpus = some (features, sentences) ∧
      Parsed counters seedCorpus minedCorpus features sentences ∧
      ∀ budget, (∃ final, select queue counters fuel seedCorpus minedCorpus budget = some final) ↔
        counters.Fits sentences.length := by
  obtain ⟨features, sentences, parse, parsed, started⟩ :=
    prepare_eq queue counters fuel seedCorpus minedCorpus enough
  refine ⟨features, sentences, parse, parsed, ?_⟩
  intro budget
  constructor
  · rintro ⟨final, ran⟩
    rcases (select_eq_some_iff queue).mp ran with ⟨start, prepared, _loop⟩
    exact ((started start).mp prepared).1
  · intro fits
    have prepared := (started _).mpr ⟨fits, rfl⟩
    obtain ⟨final, loop⟩ := budgetLoop_ends_of_prepare queue order enough prepared budget
    exact ⟨final, (select_eq_some_iff queue).mpr ⟨_, prepared, loop⟩⟩

/-- Every pass over any queue ends without reading an empty queue, after one
evaluation of each sentence and one more; the loop ends from every state, and the
program for every pair of files with fewer than 2^32 available sentences. -/
theorem select_terminates (queue : PriorityQueue (Sentence.less (R := R)))
    (order : OrdersDoubles R) :
    (∀ (counters : Counters) (fuel : Nat) (state : LoopState R),
        queue.Heap state.availableSentences → state.availableSentences.length + 1 ≤ fuel →
        (∃ iteration, iterate queue counters fuel state = some iteration) ∧
        OnceAndOneMore state.availableSentences (evaluatedSentences queue fuel state) ∧
        (evaluatedSentences queue fuel state).length ≤ state.availableSentences.length + 1) ∧
      (∀ (counters : Counters) (fuel budget : Nat) (state : LoopState R),
        queue.Heap state.availableSentences → state.availableSentences.length + 1 ≤ fuel →
        ∃ final, budgetLoop queue counters fuel budget fuel state = some final) ∧
      ∀ (fuel : Nat) (seedCorpus minedCorpus : List Char),
        enoughFuel seedCorpus minedCorpus ≤ fuel →
        ∃ (features : FeatureMap R) (sentences : List (Sentence R)),
          parseCorpora .machine fuel seedCorpus minedCorpus = some (features, sentences) ∧
          (sentences.length < 2 ^ 32 → ∀ budget, ∃ final,
            select queue .machine fuel seedCorpus minedCorpus budget = some final) := by
  refine ⟨?_, ?_, ?_⟩
  · intro counters fuel state heap enough
    have once := evaluatedSentences_once queue order fuel heap
    exact ⟨iterate_ends queue order counters heap enough, once, once.length_le⟩
  · intro counters fuel budget state heap enough
    exact budgetLoop_ends queue order counters budget fuel heap enough enough
  · intro fuel seedCorpus minedCorpus enough
    obtain ⟨features, sentences, parse, _parsed, ends⟩ :=
      select_ends_iff queue order .machine enough
    exact ⟨features, sentences, parse, fun few budget =>
      (ends budget).mpr (Counters.fits_machine_iff.mpr few)⟩

theorem select_terminates_twoLines :
    ∃ final : LoopState ℝ,
      select (sortedQueue _) .machine 8 ['a'] ['a', '\n', 'a'] 1 = some final := by
  rcases (select_terminates (sortedQueue (Sentence.less (R := ℝ))) ordersDoubles_exact).2.2 8
    ['a'] ['a', '\n', 'a'] (by decide) with ⟨features, sentences, parse, ends⟩
  have enough : enoughFuel ['a'] ['a', '\n', 'a'] ≤ 8 := by decide
  rcases select_ends_iff (sortedQueue (Sentence.less (R := ℝ))) ordersDoubles_exact .machine enough
    with ⟨features', sentences', parse', parsed, _⟩
  have same : some (features, sentences) = some (features', sentences') :=
    parse.symm.trans parse'
  have few := parsed.length_le
  have lines : ['a', '\n', 'a'].length = 3 := rfl
  cases same
  exact ends (by omega) 1

/-! ### Past the range of the index -/

def equalLines (count : Nat) (line : List Char) : List Char :=
  (List.replicate count (line ++ ['\n'])).flatten

theorem linesOf_equalLines (count : Nat) {line : List Char} (clean : '\n' ∉ line) :
    linesOf (equalLines count line) = List.replicate count line ++ [[]] := by
  induction count with
  | zero => exact linesOf_of_noNewline List.not_mem_nil
  | succ count ih =>
      unfold equalLines at ih ⊢
      rw [List.replicate_succ, List.flatten_cons, List.append_assoc, List.singleton_append,
        linesOf_append_newline line _ clean, ih, List.replicate_succ, List.cons_append]

theorem Parsed.length_equalLines {counters : Counters} {count : Nat} {features : FeatureMap R}
    {sentences : List (Sentence R)} {line : List Char} (oneWord : OneWordLine line)
    (positive : 0 < count)
    (parsed : Parsed counters ['a'] (equalLines count line) features sentences) :
    sentences.length = count := by
  have lines := linesOf_equalLines count oneWord.clean
  have known : [1] ∈ features.keys := by
    refine (parsed.keys [1]).mpr
      ⟨⟨['a'], by decide, oneWordLine_single.hasWord⟩, line, ?_, oneWord.hasWord⟩
    rw [lines]
    exact List.mem_append_left _ (List.mem_replicate.mpr ⟨Nat.ne_of_gt positive, rfl⟩)
  have available : isAvailable (seedWordids ['a']) features.keys line = true :=
    isAvailable_iff.mpr ⟨oneWord.short, [1], oneWord.hasWord, known⟩
  rw [parsed.length_sentences, lines, List.countP_append, List.countP_replicate, if_pos available,
    List.countP_singleton, isAvailable_nil]
  rfl

/-- With 2^32 available sentences the loop over the first gains never ends. -/
theorem wrappedIndex_neverEnds :
    ¬ ∃ (fuel budget : Nat) (final : LoopState ℝ),
        enoughFuel ['a'] (equalLines (2 ^ 32) ['a']) ≤ fuel ∧
        select (sortedQueue _) .machine fuel ['a'] (equalLines (2 ^ 32) ['a']) budget =
          some final := by
  rintro ⟨fuel, budget, final, enough, ran⟩
  obtain ⟨features, sentences, _parse, parsed, ends⟩ :=
    select_ends_iff (sortedQueue (Sentence.less (R := ℝ))) ordersDoubles_exact .machine enough
  have many : sentences.length = 2 ^ 32 :=
    parsed.length_equalLines oneWordLine_single (Nat.two_pow_pos 32)
  have fits := (ends budget).mp ⟨final, ran⟩
  rw [Counters.fits_machine_iff, many] at fits
  exact absurd fits (Nat.lt_irrefl _)

end Filter
