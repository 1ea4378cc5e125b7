/-
What counting one line does to the features and to the sentence of the line.

Every counter is described by how often it was stepped, so the same description
holds for wrapping and for unbounded counters and for every arithmetic.
-/

import DataSelection.Filter.WordIds
import DataSelection.Filter.Ngrams

namespace Filter

open Library

variable {R : Type} [DoubleArithmetic R]

def Counters.next (counters : Counters) (count : Nat) : Nat := counters.uint (count + 1)

theorem Counters.next_iterate_zero (counters : Counters) (steps : Nat) :
    counters.next^[steps] 0 = counters.uint steps := by
  induction steps with
  | zero => exact (counters.uint_of_lt (Nat.two_pow_pos 32)).symm
  | succ steps ih =>
      rw [Function.iterate_succ_apply', ih, next]
      exact counters.uint_add steps 1

/-- A feature after its counters were stepped the given numbers of times. -/
def Feature.advance (counters : Counters) (seed mined documents : Nat) (feature : Feature R) :
    Feature R :=
  { feature with
    seedCount := counters.next^[seed] feature.seedCount
    minedCount := counters.next^[mined] feature.minedCount
    idf := (· + 1)^[documents] feature.idf }

@[simp] theorem Feature.advance_zero (counters : Counters) (feature : Feature R) :
    feature.advance counters 0 0 0 = feature := rfl

theorem Feature.advance_advance (counters : Counters) (feature : Feature R)
    (seed mined documents seed' mined' documents' : Nat) :
    (feature.advance counters seed mined documents).advance counters seed' mined' documents' =
      feature.advance counters (seed' + seed) (mined' + mined) (documents' + documents) := by
  simp only [advance, Function.iterate_add_apply]

/-! ### One n-gram -/

theorem countGram_of_notMem (counters : Counters) (countType : CountType)
    (state : LineCount R) {gram : Ngram} (unknown : gram ∉ state.features.keys) :
    countGram counters countType state gram = state := if_neg unknown

theorem keys_countGram (counters : Counters) (countType : CountType) (state : LineCount R)
    (gram : Ngram) :
    (countGram counters countType state gram).features.keys = state.features.keys := by
  unfold countGram
  by_cases known : gram ∈ state.features.keys
  · rw [if_pos known]
    cases countType with
    | seed => exact DefaultDict.keys_touch_of_mem known
    | mined =>
        dsimp only
        by_cases added : gram ∈ state.featuresAdded
        · rw [if_pos added]
          exact DefaultDict.keys_touch_of_mem known
        · rw [if_neg added, DefaultDict.keys_modify]
          have once : (state.features.modify gram (fun feature =>
              { feature with idf := feature.idf + 1 })).keys = state.features.keys :=
            DefaultDict.keys_touch_of_mem known
          rw [DefaultDict.keys_touch_of_mem (once ▸ known), once]
  · rw [if_neg known]

theorem value_countGram_of_ne (counters : Counters) (countType : CountType)
    (state : LineCount R) {gram other : Ngram} (different : other ≠ gram) :
    (countGram counters countType state gram).features.value other =
      state.features.value other := by
  unfold countGram
  by_cases known : gram ∈ state.features.keys
  · rw [if_pos known]
    cases countType with
    | seed => simp only [DefaultDict.value_modify_of_ne different]
    | mined =>
        dsimp only
        rw [DefaultDict.value_modify_of_ne different]
        by_cases added : gram ∈ state.featuresAdded
        · rw [if_pos added]
        · rw [if_neg added, DefaultDict.value_modify_of_ne different]
  · rw [if_neg known]

theorem value_countGram_seed (counters : Counters) (state : LineCount R) {gram : Ngram}
    (known : gram ∈ state.features.keys) :
    (countGram counters .seed state gram).features.value gram =
      (state.features.value gram).advance counters 1 0 0 := by
  unfold countGram
  simp only [if_pos known, DefaultDict.value_modify_self]
  rfl

theorem value_countGram_mined (counters : Counters) (state : LineCount R) {gram : Ngram}
    (known : gram ∈ state.features.keys) :
    (countGram counters .mined state gram).features.value gram =
      (state.features.value gram).advance counters 0 1
        (if gram ∈ state.featuresAdded then 0 else 1) := by
  unfold countGram
  rw [if_pos known]
  dsimp only
  rw [DefaultDict.value_modify_self]
  by_cases added : gram ∈ state.featuresAdded
  · rw [if_pos added, if_pos added]
    rfl
  · rw [if_neg added, if_neg added, DefaultDict.value_modify_self]
    rfl

theorem mem_featuresAdded_countGram (counters : Counters) (state : LineCount R)
    {gram : Ngram} (known : gram ∈ state.features.keys) (other : Ngram) :
    other ∈ (countGram counters .mined state gram).featuresAdded ↔
      other = gram ∨ other ∈ state.featuresAdded := by
  unfold countGram
  rw [if_pos known]
  exact List.mem_insert_iff

/-! ### The n-grams of a line -/

theorem keys_foldl_countGram (counters : Counters) (countType : CountType)
    (grams : List Ngram) (state : LineCount R) :
    (grams.foldl (countGram counters countType) state).features.keys = state.features.keys := by
  induction grams generalizing state with
  | nil => rfl
  | cons gram rest ih => rw [List.foldl_cons, ih, keys_countGram]

theorem value_foldl_countGram_seed (counters : Counters) (grams : List Ngram)
    (state : LineCount R) {feature : Ngram} (known : feature ∈ state.features.keys) :
    (grams.foldl (countGram counters .seed) state).features.value feature =
      (state.features.value feature).advance counters (grams.count feature) 0 0 := by
  induction grams generalizing state with
  | nil => rfl
  | cons gram rest ih =>
      have stillKnown : feature ∈ (countGram counters .seed state gram).features.keys := by
        rw [keys_countGram]
        exact known
      rw [List.foldl_cons, ih _ stillKnown]
      by_cases same : feature = gram
      · subst same
        rw [value_countGram_seed counters state known, Feature.advance_advance,
          List.count_cons_self]
      · rw [value_countGram_of_ne counters .seed state same, List.count_cons_of_ne (Ne.symm same)]

theorem value_foldl_countGram_mined (counters : Counters) (grams : List Ngram)
    (state : LineCount R) {feature : Ngram} (known : feature ∈ state.features.keys) :
    (grams.foldl (countGram counters .mined) state).features.value feature =
      (state.features.value feature).advance counters 0 (grams.count feature)
        (if feature ∈ grams ∧ feature ∉ state.featuresAdded then 1 else 0) := by
  induction grams generalizing state with
  | nil => simp
  | cons gram rest ih =>
      have stillKnown : feature ∈ (countGram counters .mined state gram).features.keys := by
        rw [keys_countGram]
        exact known
      rw [List.foldl_cons, ih _ stillKnown]
      by_cases same : feature = gram
      · subst same
        have addedNow : feature ∈ (countGram counters .mined state feature).featuresAdded :=
          (mem_featuresAdded_countGram counters state known feature).mpr (Or.inl rfl)
        rw [value_countGram_mined counters state known, Feature.advance_advance,
          List.count_cons_self, if_neg (fun both => both.2 addedNow)]
        by_cases added : feature ∈ state.featuresAdded
        · rw [if_pos added, if_neg (fun both => both.2 added)]
        · rw [if_neg added, if_pos ⟨List.mem_cons_self, added⟩]
      · rw [value_countGram_of_ne counters .mined state same,
          List.count_cons_of_ne (Ne.symm same)]
        have sameAdded : feature ∈ (countGram counters .mined state gram).featuresAdded ↔
            feature ∈ state.featuresAdded := by
          by_cases gramKnown : gram ∈ state.features.keys
          · rw [mem_featuresAdded_countGram counters state gramKnown]
            exact or_iff_right same
          · rw [countGram_of_notMem counters .mined state gramKnown]
        simp only [sameAdded, List.mem_cons, same, false_or]

theorem sentence_foldl_countGram_mined (counters : Counters) (grams : List Ngram)
    (state : LineCount R) :
    (grams.foldl (countGram counters .mined) state).sentence =
      (grams.filter (· ∈ state.features.keys)).foldl
        (fun sentence gram => sentence.incCount counters gram) state.sentence := by
  induction grams generalizing state with
  | nil => rfl
  | cons gram rest ih =>
      rw [List.foldl_cons, ih, keys_countGram]
      by_cases known : gram ∈ state.features.keys
      · rw [List.filter_cons, if_pos (decide_eq_true known), List.foldl_cons]
        unfold countGram
        rw [if_pos known]
      · rw [List.filter_cons, if_neg (fun kept => known (of_decide_eq_true kept)),
          countGram_of_notMem counters .mined state known]

/-! ### The parallel vectors of a sentence -/

/-- The features of a sentence are distinct and each is counted as often as it was
given. -/
structure CountsGrams (counters : Counters) (grams : List Ngram) (sentence : Sentence R) :
    Prop where
  nodup : sentence.features.Nodup
  members : ∀ feature, feature ∈ sentence.features ↔ feature ∈ grams
  counts : sentence.counts =
    sentence.features.map (fun feature => counters.uchar (grams.count feature))

theorem CountsGrams.new (counters : Counters) :
    CountsGrams counters [] (Sentence.new : Sentence R) :=
  { nodup := List.nodup_nil
    members := fun _ => Iff.rfl
    counts := rfl }

omit [DoubleArithmetic R] in
private theorem CountsGrams.push {counters : Counters} {grams : List Ngram}
    {sentence : Sentence R} (counted : CountsGrams counters grams sentence) {gram : Ngram}
    (absent : gram ∉ sentence.features) :
    CountsGrams counters (grams ++ [gram])
      { sentence with
        features := sentence.features ++ [gram]
        counts := sentence.counts ++ [1] } := by
  constructor
  · exact List.nodup_append.mpr ⟨counted.nodup, List.nodup_singleton gram, by
      intro left inFeatures right inSingleton same
      rw [List.mem_singleton.mp inSingleton] at same
      exact absent (same ▸ inFeatures)⟩
  · intro feature
    simp only [List.mem_append, counted.members feature]
  · simp only [List.map_append, List.map_singleton, counted.counts]
    congr 1
    · apply List.map_congr_left
      intro feature member
      have different : gram ≠ feature := fun same => absent (same ▸ member)
      rw [List.count_append, List.count_singleton, beq_eq_false_iff_ne.mpr different]
      rfl
    · have fresh : grams.count gram = 0 :=
        List.count_eq_zero.mpr (fun member => absent ((counted.members gram).mpr member))
      rw [List.count_append, fresh, List.count_singleton_self,
        counters.uchar_of_lt (by decide)]

omit [DoubleArithmetic R] in
private theorem CountsGrams.bump {counters : Counters} {grams : List Ngram}
    {sentence : Sentence R} (counted : CountsGrams counters grams sentence) {i : Nat}
    (inRange : i < sentence.features.length) :
    CountsGrams counters (grams ++ [sentence.features[i]])
      { sentence with
        counts := sentence.counts.modify i (fun count => counters.uchar (count + 1)) } := by
  have member : sentence.features[i] ∈ grams := by
    rw [← counted.members]
    exact List.getElem_mem inRange
  constructor
  · exact counted.nodup
  · intro feature
    rw [List.mem_append, List.mem_singleton]
    constructor
    · exact fun present => Or.inl ((counted.members feature).mp present)
    · intro either
      cases either with
      | inl present => exact (counted.members feature).mpr present
      | inr same =>
          rw [same]
          exact List.getElem_mem inRange
  · simp only [counted.counts]
    apply List.ext_getElem
    · simp
    · intro position left right
      rw [List.length_map] at right
      rw [List.getElem_modify, List.getElem_map, List.getElem_map, List.count_append]
      by_cases same : i = position
      · subst same
        rw [if_pos rfl, List.count_singleton_self, counters.uchar_add]
      · rw [if_neg same]
        have different : sentence.features[i] ≠ sentence.features[position] :=
          fun equal => same (counted.nodup.getElem_inj_iff.mp equal)
        rw [List.count_singleton, beq_eq_false_iff_ne.mpr different]
        rfl

omit [DoubleArithmetic R] in
theorem CountsGrams.incCount {counters : Counters} {grams : List Ngram}
    {sentence : Sentence R} (counted : CountsGrams counters grams sentence) (gram : Ngram) :
    CountsGrams counters (grams ++ [gram]) (sentence.incCount counters gram) := by
  unfold Sentence.incCount
  cases found : sentence.features.findIdx? (· = gram) with
  | none =>
      have absent : gram ∉ sentence.features := by
        intro present
        have noMatch := List.findIdx?_eq_none_iff.mp found gram present
        simp at noMatch
      exact counted.push absent
  | some i =>
      obtain ⟨inRange, isGram, _first⟩ := List.findIdx?_eq_some_iff_getElem.mp found
      have here : sentence.features[i] = gram := of_decide_eq_true isGram
      rw [← here]
      exact counted.bump inRange

theorem countsGrams_foldl (counters : Counters) (grams : List Ngram) :
    CountsGrams counters grams (grams.foldl
      (fun sentence gram => sentence.incCount counters gram) (Sentence.new : Sentence R)) := by
  induction grams using List.reverseRecOn with
  | nil => exact CountsGrams.new counters
  | append_singleton before gram ih =>
      rw [List.foldl_append]
      exact ih.incCount gram

end Filter
