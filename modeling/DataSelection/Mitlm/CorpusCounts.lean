/-
The counts of a corpus.

A model that has loaded a corpus writes each n-gram of each order once, with the number of
times it occurs in the sentences, whatever the order of the words, and whether or not the
sorts of the levels took place.
-/

import DataSelection.Mitlm.Backoffs

namespace Mitlm

open Library

/-! ### Corpora -/

/-- Some sentence has a word beside the marks of its ends. -/
def Worded (lines : List (List Char)) : Prop :=
  ∃ line ∈ lines, isDocumentMark line = false ∧
    ∃ word ∈ corpusWords line, Vocab.normal word ≠ Vocab.endSymbol

/-- Some sentence, with the marks of its ends, is as long as an order. -/
def Reaches (order : Nat) (lines : List (List Char)) : Prop :=
  ∃ line ∈ lines, isDocumentMark line = false ∧ order ≤ (corpusWords line).length + 2

theorem exists_of_total_pos {lines : List (List Char)} {gram : List Word}
    (counted : 0 < total lines gram) :
    ∃ line ∈ lines, isDocumentMark line = false ∧ 0 < lineCount gram line := by
  induction lines with
  | nil => cases counted
  | cons line lines ih =>
      rw [total, List.map_cons, List.sum_cons] at counted
      by_cases here : 0 < lineCount gram line
      · refine ⟨line, List.mem_cons_self, ?_, here⟩
        by_contra isMark
        rw [lineCount, if_pos (Bool.eq_true_of_not_eq_false isMark)] at here
        cases here
      · obtain ⟨other, later, found⟩ := ih (by rw [total]; omega)
        exact ⟨other, List.mem_cons_of_mem line later, found⟩

theorem length_sentence (line : List Char) :
    (sentence line).length = (corpusWords line).length + 2 := by
  rw [sentence, List.length_cons, List.length_append, List.length_map, List.length_singleton]

theorem Reaches.exists_gram {order : Nat} {lines : List (List Char)}
    (reaches : Reaches order lines) : ∃ gram, gram.length = order ∧ 0 < total lines gram := by
  obtain ⟨line, isLine, isSentence, fits⟩ := reaches
  by_cases single : order = 1
  · exact ⟨[Vocab.endSymbol], single.symm, total_pos isLine
      (lineCount_pos isSentence (List.mem_append_right _ List.mem_cons_self))⟩
  · have isLong : ((sentence line).take order).length = order := by
      rw [List.length_take, length_sentence]
      omega
    refine ⟨(sentence line).take order, isLong, total_pos isLine ?_⟩
    rw [lineCount, isSentence, if_neg Bool.false_ne_true, isLong, if_neg single,
      occurrences_pos_iff, isLong, mem_windows]
    exact ⟨0, by rw [length_sentence]; omega, rfl⟩

theorem reaches_of_total_pos {lines : List (List Char)} {gram : List Word}
    (counted : 0 < total lines gram) : Reaches gram.length lines := by
  obtain ⟨line, isLine, isSentence, here⟩ := exists_of_total_pos counted
  refine ⟨line, isLine, isSentence, ?_⟩
  rw [lineCount, isSentence, if_neg Bool.false_ne_true] at here
  by_cases single : gram.length = 1
  · omega
  · rw [if_neg single, occurrences_pos_iff, mem_windows] at here
    obtain ⟨start, fits, _⟩ := here
    rw [length_sentence] at fits
    omega

theorem Loaded.several_iff {order : Nat} {lines : List (List Char)} {state : Loading}
    (loaded : Loaded order lines state) (positive : 0 < order) :
    2 ≤ state.vocab.words.size ↔ Worded lines := by
  have distinct : state.vocab.words.entries.Nodup := loaded.isOpen.valid.holds.distinct
  have isFirst := loaded.isOpen.first
  constructor
  · intro several
    obtain ⟨second, isSecond⟩ : ∃ second, state.vocab.words.entries[1]? = some second :=
      ⟨_, List.getElem?_eq_getElem several⟩
    have other : second ≠ Vocab.endSymbol := by
      intro same
      rw [same] at isSecond
      have equal := (List.getElem?_inj several distinct).mp (isSecond.trans isFirst.symm)
      cases equal
    have counted := (loaded.known second (List.mem_of_getElem? isSecond)).resolve_left other
    obtain ⟨line, isLine, isSentence, here⟩ := exists_of_total_pos counted
    rw [lineCount, isSentence, if_neg Bool.false_ne_true, if_pos List.length_singleton] at here
    have member : second ∈ (corpusWords line).map Vocab.normal ++ [Vocab.endSymbol] :=
      occurrences_singleton_pos_iff.mp here
    rcases List.mem_append.mp member with isWord | isEnd
    · obtain ⟨word, isWord, same⟩ := List.mem_map.mp isWord
      exact ⟨line, isLine, isSentence, word, isWord, by rw [same]; exact other⟩
    · exact absurd (List.mem_singleton.mp isEnd) other
  · intro worded
    obtain ⟨line, isLine, isSentence, word, isWord, other⟩ := worded
    have counted : 0 < total lines [Vocab.normal word] := total_pos isLine
      (lineCount_pos isSentence (List.mem_append_left _ (List.mem_map_of_mem isWord)))
    have isLevel := List.getElem?_eq_getElem (show 0 < state.levels.length by
      rw [loaded.orders]; exact positive)
    have holds := loaded.levels.level isLevel
    obtain ⟨index, found⟩ := List.mem_iff_getElem?.mp (holds.counted.listed _ rfl counted)
    obtain ⟨_, last, front, text, _, isFront, isLast, same⟩ := holds.formed.exists_of_getElem? found
    have isNil : front = [] := List.mem_singleton.mp (List.mem_of_getElem? isFront)
    rw [isNil, List.nil_append] at same
    rw [← List.singleton_injective same] at isLast
    have inside : last < state.vocab.words.size := (List.getElem?_eq_some_iff.mp isLast).1
    by_contra few
    have isZero : last = Vocab.endOfSentence := by
      rw [Vocab.endOfSentence]
      omega
    rw [isZero, isFirst] at isLast
    exact other (Option.some.inj isLast).symm

theorem Loaded.nonempty_iff {order : Nat} {lines : List (List Char)} {state : Loading}
    (loaded : Loaded order lines state) (positive : 0 < order) (worded : Worded lines) :
    (∀ level ∈ state.levels, level.vector.entries ≠ []) ↔ Reaches order lines := by
  have distinct : state.vocab.words.entries.Nodup := loaded.isOpen.valid.holds.distinct
  have formed : ∀ (place : Nat) level, state.levels[place]? = some level →
      level.Formed state.vocab.words.entries
        (gramsAt state.vocab.words.entries place [[]] state.levels) :=
    fun place level isLevel => (loaded.levels.level isLevel).formed
  constructor
  · intro nonempty
    obtain ⟨last, rfl⟩ : ∃ last, order = last + 1 := ⟨order - 1, by omega⟩
    have inside : last < state.levels.length := by
      rw [loaded.orders]
      omega
    have holds := loaded.levels.level (List.getElem?_eq_getElem inside)
    have base := base_gramsAt distinct formed (show last ≤ state.levels.length by omega)
    obtain ⟨ngram, isEntry⟩ := List.exists_mem_of_ne_nil _ (nonempty _ (List.getElem_mem inside))
    have isGram := List.mem_map_of_mem isEntry
      (f := fun ngram : Ngram => (gramsAt state.vocab.words.entries last [[]] state.levels).getD
        ngram.1 [] ++ [state.vocab.words.entries.getD ngram.2 []])
    have isLength := (holds.formed.base base).lengths _ isGram
    rcases holds.counted.seen _ isGram with counted | isEnd
    · rw [← Nat.succ.inj isLength]
      exact reaches_of_total_pos counted
    · rw [isEnd, List.length_singleton] at isLength
      obtain ⟨line, isLine, isSentence, _⟩ := worded
      exact ⟨line, isLine, isSentence, by omega⟩
  · intro reaches level member
    obtain ⟨place, isLevel⟩ := List.mem_iff_getElem?.mp member
    have inside := (List.getElem?_eq_some_iff.mp isLevel).1
    rw [loaded.orders] at inside
    obtain ⟨line, isLine, isSentence, fits⟩ := reaches
    have reachesHere : Reaches (1 + place) lines := ⟨line, isLine, isSentence, by omega⟩
    obtain ⟨gram, isLength, counted⟩ := reachesHere.exists_gram
    have listed := (loaded.levels.level isLevel).counted.listed gram isLength counted
    intro empty
    rw [gramsOf, empty, List.map_nil] at listed
    cases listed

/-! ### Parts of counted n-grams -/

theorem lineCount_window {gram : List Word} {line : List Char}
    (isSentence : isDocumentMark line = false) (counted : 0 < lineCount gram line) :
    gram ∈ windows gram.length (sentence line) := by
  rw [lineCount, isSentence, if_neg Bool.false_ne_true] at counted
  split at counted
  · rw [occurrences_pos_iff, mem_windows] at counted
    obtain ⟨start, fits, isWindow⟩ := counted
    rw [List.length_tail] at fits
    have shifted : (sentence line).tail.drop start = (sentence line).drop (start + 1) := by
      rw [← List.drop_one, List.drop_drop, Nat.add_comm]
    rw [shifted] at isWindow
    exact mem_windows.mpr ⟨start + 1, by omega, isWindow⟩
  · exact occurrences_pos_iff.mp counted

theorem lineCount_of_window {gram : List Word} {line : List Char}
    (isSentence : isDocumentMark line = false)
    (member : gram ∈ windows gram.length (sentence line)) : 0 < lineCount gram line := by
  rw [lineCount, isSentence, if_neg Bool.false_ne_true]
  split
  · next single =>
      obtain ⟨word, isWord⟩ := List.length_eq_one_iff.mp single
      rw [isWord] at member ⊢
      rw [occurrences_singleton_pos_iff]
      have inside := subset_of_mem_windows member List.mem_cons_self
      -- the end of a sentence also stands behind its words
      rcases List.mem_cons.mp inside with rfl | later
      · exact List.mem_append_right _ List.mem_cons_self
      · exact later
  · exact occurrences_pos_iff.mpr member

theorem total_take {lines : List (List Char)} {gram : List Word} (counted : 0 < total lines gram)
    {width : Nat} (within : width ≤ gram.length) : 0 < total lines (gram.take width) := by
  obtain ⟨line, isLine, isSentence, here⟩ := exists_of_total_pos counted
  obtain ⟨start, fits, isWindow⟩ := mem_windows.mp (lineCount_window isSentence here)
  have isWidth : (gram.take width).length = width := by
    rw [List.length_take]
    omega
  refine total_pos isLine (lineCount_of_window isSentence (mem_windows.mpr ⟨start, by omega, ?_⟩))
  rw [isWidth, ← isWindow, List.take_take, Nat.min_eq_left within]

theorem total_tail {lines : List (List Char)} {gram : List Word} (counted : 0 < total lines gram)
    (long : 2 ≤ gram.length) : 0 < total lines gram.tail := by
  obtain ⟨line, isLine, isSentence, here⟩ := exists_of_total_pos counted
  obtain ⟨start, fits, isWindow⟩ := mem_windows.mp (lineCount_window isSentence here)
  have isWidth : gram.tail.length = gram.length - 1 := List.length_tail
  refine total_pos isLine
    (lineCount_of_window isSentence (mem_windows.mpr ⟨start + 1, by omega, ?_⟩))
  rw [isWidth]
  conv_rhs => rw [← isWindow]
  rw [← List.drop_one, List.drop_take, List.drop_drop, Nat.add_comm]

/-- No word of a sentence is a mark of its ends. -/
def Unmarked (lines : List (List Char)) : Prop :=
  ∀ line ∈ lines, isDocumentMark line = false →
    ∀ word ∈ corpusWords line, Vocab.normal word ≠ Vocab.endSymbol

/-- A sentence that reaches an order has n-grams of each order below from behind its beginning. -/
theorem mixed_of_reaches {order : Nat} {lines : List (List Char)} (unmarked : Unmarked lines)
    (worded : Worded lines) (reaches : Reaches order lines) : Mixed (order - 1) (total lines) := by
  intro width positive within
  obtain ⟨line, isLine, isSentence, isLong⟩ :
      ∃ line ∈ lines, isDocumentMark line = false ∧ width ≤ (corpusWords line).length + 1 ∧
        corpusWords line ≠ [] := by
    obtain ⟨line, isLine, isSentence, fits⟩ := reaches
    by_cases isEmpty : corpusWords line = []
    · obtain ⟨other, isOther, isOtherSentence, word, isWord, _⟩ := worded
      rw [isEmpty, List.length_nil] at fits
      exact ⟨other, isOther, isOtherSentence, by omega, List.ne_nil_of_mem isWord⟩
    · exact ⟨line, isLine, isSentence, by omega, isEmpty⟩
  obtain ⟨isFitting, isFilled⟩ := isLong
  have isWidth : ((sentence line).tail.take width).length = width := by
    rw [List.length_take, List.length_tail, length_sentence]
    omega
  refine ⟨(sentence line).tail.take width, isWidth, total_pos isLine
    (lineCount_of_window isSentence (mem_windows.mpr ⟨1, ?_, ?_⟩)), ?_⟩
  · rw [isWidth, length_sentence]
    omega
  · rw [isWidth, List.drop_one]
  · rw [Starts, List.head?_take, if_neg (by omega), sentence, List.tail_cons]
    cases isWords : corpusWords line with
    | nil => exact absurd isWords isFilled
    | cons first rest =>
        intro isEnd
        exact unmarked line isLine isSentence first (by rw [isWords]; exact List.mem_cons_self)
          (Option.some.inj isEnd)

/-! ### A loaded corpus -/

theorem loaded_start (order : Nat) {vocab : Vocab} (isOpen : vocab.Open)
    (isSingle : vocab.words.entries = [Vocab.endSymbol]) :
    Loaded order []
      { vocab := vocab
        levels := (List.replicate order { vector := NgramVector.create, counts := [] }).map allocate
        hists := List.replicate order none } := by
  constructor
  · exact isOpen
  · exact levelsHold_start 1 order [[]]
  · show (List.replicate order none).length = (List.map _ _).length
    rw [List.length_replicate, List.length_map, List.length_replicate]
  · show (List.map _ _).length = order
    rw [List.length_map, List.length_replicate]
  · intro level isHead
    have member := List.mem_of_mem_head? isHead
    obtain ⟨first, isFirst, rfl⟩ := List.mem_map.mp member
    rw [List.eq_of_mem_replicate isFirst]
    exact Or.inl rfl
  · intro word member
    have isWord : word ∈ [Vocab.endSymbol] := isSingle ▸ member
    exact Or.inl (List.mem_singleton.mp isWord)

theorem Loaded.tallied {order : Nat} {lines : List (List Char)} {state : Loading}
    (loaded : Loaded order lines state) :
    Tallied order (total lines)
      { vocab := state.vocab, levels := state.levels, backoffs := [] } :=
  ⟨loaded.isOpen, loaded.levels, loaded.orders⟩

/-- Loading a corpus into a fresh model counts its lines and sorts. -/
theorem exists_loaded {order : Nat} (positive : 0 < order) (corpus : List Char) :
    ∃ start state, NgramModel.create order = some start ∧ Loaded order (getlines corpus) state ∧
      start.loadCorpus corpus = (addVocabulary state.vocab state.levels).bind (fun levels =>
        NgramModel.sort { vocab := state.vocab, levels := levels, backoffs := [] }) := by
  obtain ⟨vocab, isCreated, isOpen, isSingle⟩ := Vocab.exists_create
  let start : NgramModel :=
    { vocab := vocab
      levels := List.replicate order { vector := NgramVector.create, counts := [] }
      backoffs := [] }
  obtain ⟨state, ran, loaded⟩ :=
    foldlM_addLine positive (loaded_start order isOpen isSingle) (getlines corpus)
  refine ⟨start, state, ?_, loaded, ?_⟩
  · rw [NgramModel.create, isCreated]
    rfl
  · have isLength : start.levels.length = order := List.length_replicate
    simp only [NgramModel.loadCorpus, isLength]
    rw [show List.foldlM addLine _ (getlines corpus) = some state from ran]
    rfl

section

variable {order : Nat} (positive : 0 < order) {lines : List (List Char)} {state : Loading}
  (loaded : Loaded order lines state)

include positive loaded

/-- A loaded corpus that is sorted has words, reaches the order, and lists its counts. -/
theorem Loaded.sorted_of_sort {model : NgramModel}
    (ran : (addVocabulary state.vocab state.levels).bind (fun levels =>
      NgramModel.sort { vocab := state.vocab, levels := levels, backoffs := [] }) = some model) :
    Worded lines ∧ Reaches order lines ∧ model.Sorted 0 order (total lines) := by
  by_cases worded : Worded lines
  · obtain ⟨line, isLine, isSentence, _⟩ := id worded
    rw [loaded.addVocabulary_eq positive ⟨line, isLine, isSentence⟩, Option.bind_some] at ran
    have reaches := (loaded.nonempty_iff positive worded).mp (loaded.tallied.filled_of_sort ran).2
    exact ⟨worded, reaches, loaded.tallied.sorted_of_sort ran⟩
  · have few : state.vocab.words.size < 2 := by
      by_contra several
      exact worded ((loaded.several_iff positive).mp (by omega))
    obtain ⟨levels, _, isSorted⟩ := Option.bind_eq_some_iff.mp ran
    rw [NgramModel.sort, sort_of_few loaded.isOpen few] at isSorted
    cases isSorted

/-- A corpus with n-grams from within its sentences, up to the last order but one, is sorted. -/
theorem Loaded.exists_sort (worded : Worded lines) (reaches : Reaches order lines) {limit : Nat}
    (within : order ≤ limit + 1) (mixed : Mixed limit (total lines)) :
    ∃ model, (addVocabulary state.vocab state.levels).bind (fun levels =>
        NgramModel.sort { vocab := state.vocab, levels := levels, backoffs := [] }) = some model ∧
      model.Sorted limit order (total lines) := by
  obtain ⟨line, isLine, isSentence, _⟩ := id worded
  rw [loaded.addVocabulary_eq positive ⟨line, isLine, isSentence⟩, Option.bind_some]
  exact loaded.tallied.sort_eq ((loaded.several_iff positive).mpr worded)
    ((loaded.nonempty_iff positive worded).mpr reaches) within mixed
    (fun gram counted long => total_tail counted long)

end

/-- Some n-gram of the last order begins no sentence. -/
def Inner (order : Nat) (lines : List (List Char)) : Prop :=
  ∃ gram : List Word, gram.length = order ∧ 0 < total lines gram ∧ ¬Starts gram

theorem Inner.mixed {order : Nat} {lines : List (List Char)} (inner : Inner order lines) :
    Mixed order (total lines) := by
  obtain ⟨gram, isOrder, counted, isInner⟩ := inner
  intro width positive within
  refine ⟨gram.take width, ?_, total_take counted (by omega), ?_⟩
  · rw [List.length_take]
    omega
  · rw [Starts, List.head?_take, if_neg (by omega)]
    exact isInner

theorem Inner.endCounted {order : Nat} {lines : List (List Char)} (inner : Inner order lines) :
    0 < total lines [Vocab.endSymbol] := by
  obtain ⟨gram, _, counted, _⟩ := inner
  obtain ⟨line, isLine, isSentence, _⟩ := exists_of_total_pos counted
  exact total_pos isLine (lineCount_pos isSentence (List.mem_append_right _ List.mem_cons_self))

theorem Inner.append {order : Nat} {lines : List (List Char)} (inner : Inner order lines)
    (later : List (List Char)) : Inner order (lines ++ later) := by
  obtain ⟨gram, isOrder, counted, isInner⟩ := inner
  refine ⟨gram, isOrder, ?_, isInner⟩
  rw [total_append]
  exact Nat.add_pos_left counted _

theorem Inner.reaches {order : Nat} {lines : List (List Char)} (inner : Inner order lines) :
    Reaches order lines := by
  obtain ⟨gram, rfl, counted, _⟩ := inner
  exact reaches_of_total_pos counted

theorem Inner.worded {order : Nat} (positive : 0 < order) {lines : List (List Char)}
    (inner : Inner order lines) : Worded lines := by
  obtain ⟨gram, isSingle, counted, isInner⟩ := inner.mixed 1 Nat.one_pos positive
  obtain ⟨word, rfl⟩ := List.length_eq_one_iff.mp isSingle
  obtain ⟨line, isLine, isSentence, here⟩ := exists_of_total_pos counted
  have isOther : word ≠ Vocab.endSymbol := fun isEnd => isInner (by rw [isEnd]; rfl)
  rw [lineCount, isSentence, if_neg Bool.false_ne_true, if_pos isSingle] at here
  rcases List.mem_append.mp (occurrences_singleton_pos_iff.mp here) with isWord | isEnd
  · obtain ⟨written, isWritten, rfl⟩ := List.mem_map.mp isWord
    exact ⟨line, isLine, isSentence, written, isWritten, isOther⟩
  · exact absurd (List.mem_singleton.mp isEnd) isOther

theorem sorted_of_loadCorpus {order : Nat} (positive : 0 < order) {corpus : List Char}
    {start model : NgramModel} (created : NgramModel.create order = some start)
    (loads : start.loadCorpus corpus = some model) (inner : Inner order (getlines corpus)) :
    model.Sorted order order (total (getlines corpus)) := by
  obtain ⟨other, state, isOther, loaded, isLoad⟩ := exists_loaded positive corpus
  obtain rfl := Option.some.inj (created.symm.trans isOther)
  obtain ⟨saved, isSaved, ordered⟩ := loaded.exists_sort positive (inner.worded positive)
    inner.reaches (Nat.le_succ order) inner.mixed
  rw [← isLoad, loads] at isSaved
  rw [Option.some.inj isSaved]
  exact ordered

/-- What a model has for an order: its n-grams with what a tally says of them, and for each of
them where the n-gram without its first word stands in the order below. -/
structure Represents (tally : List Word → Nat) (model : NgramModel) (grams : Nat → List (List Word))
    (width : Nat) : Prop where
  distinct : (grams width).Nodup
  counted : ∀ gram, gram ∈ grams width ↔ gram.length = width ∧ 0 < tally gram
  rows : model.countRows width = (grams width).map (fun gram => (shown gram, tally gram))
  backoffs : ∃ backoffs, model.backoffs[width - 1]? = some backoffs ∧
    Tails (grams (width - 1)) (grams width) backoffs

theorem LevelsBacked.tails {words : List Word} {below : List (List Word)} {levels : List Level}
    {backoffs : List (List Nat)} (backed : LevelsBacked words below levels backoffs) {place : Nat}
    (inside : place < levels.length) :
    ∃ here, backoffs[place]? = some here ∧
      Tails (gramsAt words place below levels) (gramsAt words (place + 1) below levels) here := by
  induction levels generalizing below backoffs place with
  | nil => cases inside
  | cons level levels ih =>
      cases backoffs with
      | nil => exact backed.elim
      | cons first later =>
          cases place with
          | zero => exact ⟨first, rfl, backed.1⟩
          | succ place => exact ih backed.2 (Nat.lt_of_succ_lt_succ inside)

theorem NgramModel.Sorted.represents {limit order : Nat} {tally : List Word → Nat}
    {model : NgramModel} (sorted : model.Sorted limit order tally)
    (endCounted : 0 < tally [Vocab.endSymbol]) {width : Nat} (positive : 0 < width)
    (within : width ≤ order) :
    Represents tally model
      (fun width => gramsAt model.vocab.words.entries width [[]] model.levels) width := by
  have distinct : model.vocab.words.entries.Nodup := sorted.isOpen.valid.holds.distinct
  have listed := sorted.levels.listed
  obtain ⟨place, rfl⟩ : ∃ place, width = place + 1 := ⟨width - 1, by omega⟩
  have inside : place < model.levels.length := by
    rw [sorted.orders]
    omega
  constructor
  · exact (base_gramsAt distinct (fun place level isLevel => (listed.level isLevel).formed)
      inside).belowDistinct
  · exact fun gram => listed.mem_gramsAt_iff distinct endCounted inside
  · exact countRows_eq distinct sorted.isOpen.first listed inside
  · exact sorted.backed.tails inside

/-- A model that has loaded a corpus has the n-grams of each order once each, with the numbers of
their occurrences and the right backoffs.  If no word is a mark of sentence ends, loading
succeeds exactly when some sentence has a word and some sentence reaches the order. -/
theorem loadCorpus_represents {order : Nat} (positive : 0 < order) (corpus : List Char) :
    ∃ start, NgramModel.create order = some start ∧
      (Unmarked (getlines corpus) → ((start.loadCorpus corpus).isSome ↔
        Worded (getlines corpus) ∧ Reaches order (getlines corpus))) ∧
      ∀ model, start.loadCorpus corpus = some model → model.levels.length = order ∧
        ∃ grams : Nat → List (List Word), grams 0 = [[]] ∧
          ∀ width, 0 < width → width ≤ order →
            Represents (total (getlines corpus)) model grams width := by
  obtain ⟨start, state, isStart, loaded, isLoad⟩ := exists_loaded positive corpus
  refine ⟨start, isStart, ?_, ?_⟩
  · intro unmarked
    constructor
    · intro isSome
      obtain ⟨model, isModel⟩ := Option.isSome_iff_exists.mp isSome
      rw [isLoad] at isModel
      obtain ⟨worded, reaches, _⟩ := loaded.sorted_of_sort positive isModel
      exact ⟨worded, reaches⟩
    · intro ⟨worded, reaches⟩
      obtain ⟨model, isModel, _⟩ := loaded.exists_sort positive worded reaches (by omega)
        (mixed_of_reaches unmarked worded reaches)
      rw [isLoad, isModel]
      rfl
  · intro model isModel
    rw [isLoad] at isModel
    obtain ⟨worded, _, sorted⟩ := loaded.sorted_of_sort positive isModel
    obtain ⟨line, isLine, isSentence, _⟩ := worded
    have endCounted : 0 < total (getlines corpus) [Vocab.endSymbol] := total_pos isLine
      (lineCount_pos isSentence (List.mem_append_right _ List.mem_cons_self))
    exact ⟨sorted.orders, _, rfl, fun width isPositive within =>
      sorted.represents endCounted isPositive within⟩

theorem loadCorpus_represents_two :
    ∃ start, NgramModel.create 2 = some start ∧
      (Unmarked (getlines "a b\n".toList) → ((start.loadCorpus "a b\n".toList).isSome ↔
        Worded (getlines "a b\n".toList) ∧ Reaches 2 (getlines "a b\n".toList))) ∧
      ∀ model, start.loadCorpus "a b\n".toList = some model → model.levels.length = 2 ∧
        ∃ grams : Nat → List (List Word), grams 0 = [[]] ∧
          ∀ width, 0 < width → width ≤ 2 →
            Represents (total (getlines "a b\n".toList)) model grams width :=
  loadCorpus_represents (by decide) _

end Mitlm
