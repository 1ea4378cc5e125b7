/-
Loading a corpus counts the n-grams of its sentences.

After any number of lines each level lists the n-grams of its order that the lines contain,
once each, with the number of their occurrences.  A sentence begins and ends with the same
mark, and its beginning alone is not counted.
-/

import DataSelection.Mitlm.Counting
import DataSelection.Library.Windows

namespace Mitlm

open Library

def sentence (line : List Char) : List Word :=
  Vocab.endSymbol :: ((corpusWords line).map Vocab.normal ++ [Vocab.endSymbol])

/-- How often an n-gram occurs in a line. -/
def lineCount (gram : List Word) (line : List Char) : Nat :=
  if isDocumentMark line then 0
  else if gram.length = 1 then occurrences gram (sentence line).tail
  else occurrences gram (sentence line)

def total (lines : List (List Char)) (gram : List Word) : Nat :=
  (lines.map (lineCount gram)).sum

theorem total_append (first second : List (List Char)) (gram : List Word) :
    total (first ++ second) gram = total first gram + total second gram := by
  rw [total, total, total, List.map_append, List.sum_append]

theorem total_concat (lines : List (List Char)) (line : List Char) (gram : List Word) :
    total (lines ++ [line]) gram = total lines gram + lineCount gram line := by
  rw [total_append, total, total, List.map_singleton, List.sum_singleton]

/-- What a longer sentence adds to a tally. -/
theorem occurrences_sentence {gram : List Word} (nonempty : gram ≠ []) (line : List Char)
    (isSentence : isDocumentMark line = false) :
    occurrences gram [Vocab.endSymbol] + lineCount gram line = occurrences gram (sentence line) := by
  rw [lineCount, isSentence, if_neg Bool.false_ne_true]
  by_cases single : gram.length = 1
  · obtain ⟨word, rfl⟩ := List.length_eq_one_iff.mp single
    have nothing : occurrences [word] ([] : List Word) = 0 := rfl
    rw [if_pos single, sentence, List.tail_cons, occurrences_singleton_cons,
      occurrences_singleton_cons word Vocab.endSymbol, nothing]
    omega
  · have positive := List.length_pos_of_ne_nil nonempty
    have short : occurrences gram [Vocab.endSymbol] = 0 := by
      rw [occurrences, windows_of_short (by rw [List.length_singleton]; omega)]
      rfl
    rw [if_neg single, short, Nat.zero_add]

theorem lineCount_pos {line : List Char} (isSentence : isDocumentMark line = false) {word : Word}
    (member : word ∈ (corpusWords line).map Vocab.normal ++ [Vocab.endSymbol]) :
    0 < lineCount [word] line := by
  rw [lineCount, isSentence, if_neg Bool.false_ne_true, if_pos List.length_singleton]
  exact occurrences_singleton_pos_iff.mpr member

theorem total_pos {lines : List (List Char)} {line : List Char} (isLine : line ∈ lines)
    {gram : List Word} (counted : 0 < lineCount gram line) : 0 < total lines gram := by
  obtain ⟨before, after, rfl⟩ := List.append_of_mem isLine
  rw [total_append, total, total, List.map_cons, List.sum_cons]
  omega

/-! ### Words -/

/-- The indices of words. -/
def Spells (words : List Word) (ids : List Nat) (tokens : List Word) : Prop :=
  List.Forall₂ (fun (id : Nat) token => words[id]? = some token) ids tokens

theorem addTokens_eq {vocab : Vocab} (isOpen : vocab.Open) (tokens : List Word) :
    ∃ added ids, addTokens vocab tokens = some (added, ids.map some) ∧ added.Open ∧
      vocab.words.entries <+: added.words.entries ∧
      Spells added.words.entries ids (tokens.map Vocab.normal) ∧
      ∀ word ∈ added.words.entries,
        word ∈ vocab.words.entries ∨ word ∈ tokens.map Vocab.normal := by
  induction tokens generalizing vocab with
  | nil =>
      exact ⟨vocab, [], rfl, isOpen, List.prefix_refl _, List.Forall₂.nil,
        fun word member => Or.inl member⟩
  | cons token tokens ih =>
      obtain ⟨first, id, isFirst, openFirst, entered, found⟩ := isOpen.add_eq token
      obtain ⟨last, ids, ran, openLast, longer, spells, known⟩ := ih openFirst
      have longerFirst : vocab.words.entries <+: first.words.entries := by
        rw [entered]
        exact HashVector.prefix_enter
      refine ⟨last, id :: ids, ?_, openLast, longerFirst.trans longer, ?_, ?_⟩
      · simp only [addTokens, isFirst, ran, Option.bind_eq_bind, Option.bind_some, List.map_cons]
      · exact List.Forall₂.cons (HashVector.getElem?_of_prefix longer found) spells
      · intro word member
        rcases known word member with isFirst | isLater
        · rw [entered, HashVector.mem_enter] at isFirst
          rcases isFirst with isOld | rfl
          · exact Or.inl isOld
          · exact Or.inr List.mem_cons_self
        · exact Or.inr (List.mem_cons_of_mem _ isLater)

/-! ### Sentences -/

section

variable {words : List Word}

theorem base_nil (distinct : words.Nodup) : Base words 1 [[]] := by
  constructor
  · exact distinct
  · exact List.nodup_singleton []
  · intro front member
    rw [List.mem_singleton.mp member]
    rfl

theorem HistsHold.of_length {past : List Word} {order : Nat} {below : List (List Word)}
    {levels : List Level} {hists : List (Option Nat)} (same : hists.length = levels.length)
    (short : past.length < order) : HistsHold words past order below levels hists := by
  induction levels generalizing order below hists with
  | nil =>
      rw [List.length_eq_zero_iff.mp same]
      trivial
  | cons level levels ih =>
      cases hists with
      | nil => cases same
      | cons last hists =>
          refine ⟨?_, ih (Nat.succ.inj same) (by omega)⟩
          intro fits
          omega

theorem HistsHold.length {past : List Word} {order : Nat} {below : List (List Word)}
    {levels : List Level} {hists : List (Option Nat)}
    (holds : HistsHold words past order below levels hists) : hists.length = levels.length := by
  induction levels generalizing order below hists with
  | nil =>
      cases hists with
      | nil => rfl
      | cons last hists => exact holds.elim
  | cons level levels ih =>
      cases hists with
      | nil => exact holds.elim
      | cons last hists => exact congrArg Nat.succ (ih holds.2)

/-- The words of a sentence, one after the other. -/
theorem addWords_eq (distinct : words.Nodup) {ids : List Nat} {tokens : List Word}
    (spells : Spells words ids tokens) {past : List Word}
    (led : past.head? = some Vocab.endSymbol) {tally : List Word → Nat}
    {levels : List Level} {hists : List (Option Nat)}
    (holds : LevelsHold words tally 1 [[]] levels)
    (histsHold : HistsHold words past 1 [[]] levels hists) :
    ∃ levelsAfter histsAfter after,
      addWords (past.length + 1) (ids.map some) levels hists = some (levelsAfter, histsAfter) ∧
      LevelsHold words after 1 [[]] levelsAfter ∧ histsAfter.length = levelsAfter.length ∧
      levelsAfter.length = levels.length ∧
      ∀ gram, after gram + occurrences gram past = tally gram + occurrences gram (past ++ tokens) := by
  induction spells generalizing past tally levels hists with
  | nil =>
      refine ⟨levels, hists, tally, rfl, holds, histsHold.length, rfl, ?_⟩
      intro gram
      rw [List.append_nil]
  | @cons id token ids tokens isToken _ ih =>
      have atStart : 0 < past.length + 1 → ∃ index, some 0 = some index ∧
          ([[]] : List (List Word))[index]? = some (past.drop (past.length + 1 - 1)) := by
        intro _
        refine ⟨0, rfl, ?_⟩
        rw [Nat.add_sub_cancel, List.drop_length]
        rfl
      obtain ⟨next, nextHists, isNext, holdsNext, histsNext, nextLength⟩ :=
        addWord_eq led isToken (Nat.le_refl 1) rfl holds (base_nil distinct) histsHold atStart
      obtain ⟨levelsAfter, histsAfter, after, ran, holdsAfter, shape, sameLength, tallied⟩ :=
        ih (by rw [List.head?_append, led]; rfl) holdsNext histsNext
      refine ⟨levelsAfter, histsAfter, after, ?_, holdsAfter, shape, sameLength.trans nextLength, ?_⟩
      · rw [List.length_append, List.length_singleton] at ran
        simp only [List.map_cons, addWords, isNext, ran, Option.bind_eq_bind, Option.bind_some]
      · intro gram
        have longer := tallied gram
        rw [occurrences_concat, List.append_assoc, List.singleton_append, bump] at longer
        omega

end

/-! ### Lines -/

structure Loaded (order : Nat) (lines : List (List Char)) (state : Loading) : Prop where
  isOpen : state.vocab.Open
  levels : LevelsHold state.vocab.words.entries (total lines) 1 [[]] state.levels
  shape : state.hists.length = state.levels.length
  orders : state.levels.length = order
  fresh : ∀ level ∈ state.levels.head?, level.vector.entries = [] ∨
    [Vocab.endSymbol] ∈ gramsOf state.vocab.words.entries [[]] level.vector
  known : ∀ word ∈ state.vocab.words.entries, word = Vocab.endSymbol ∨ 0 < total lines [word]

/-- The end of a sentence is listed before it is counted. -/
theorem Level.Holds.mark {words : List Word} {tally : List Word → Nat} {level : Level}
    (holds : level.Holds words [[]] 1 tally) (distinct : words.Nodup)
    (isFirst : words[Vocab.endOfSentence]? = some Vocab.endSymbol)
    (fresh : level.vector.entries = [] ∨
      [Vocab.endSymbol] ∈ gramsOf words [[]] level.vector) :
    ∃ vector index isNew, level.vector.add 0 Vocab.endOfSentence = some (vector, index, isNew) ∧
      Level.Holds words [[]] 1 tally { level with vector := vector } ∧
      gramsOf words [[]] level.vector <+: gramsOf words [[]] vector ∧
      (gramsOf words [[]] vector)[index]? = some [Vocab.endSymbol] := by
  have base := base_nil distinct
  obtain ⟨vector, index, isNew, added, valid, entered, found, _⟩ :=
    holds.valid.exists_add (0, Vocab.endOfSentence)
  have isFront : ([[]] : List (List Word))[0]? = some [] := rfl
  obtain ⟨formed, isGrams⟩ := holds.formed.enter base entered isFront isFirst level.counts
  rw [List.nil_append] at isGrams
  have isIndex : (gramsOf words [[]] vector)[index]? = some [Vocab.endSymbol] :=
    getElem?_gramsOf found isFront isFirst
  refine ⟨vector, index, isNew, added, ⟨valid, ⟨formed.distinct, formed.hist, formed.word⟩, ?_⟩, ?_, isIndex⟩
  · show Level.Counted (gramsOf words [[]] vector) 1 tally _
    have counted := holds.counted
    rw [isGrams, HashVector.enter]
    split
    · next present =>
        constructor
        · exact counted.filled
        · exact counted.fits
        · exact counted.unused
        · exact counted.count
        · exact counted.listed
        · exact counted.seen
        · exact counted.led
    · next absent =>
        -- only the first line finds the level without the mark, and then it is empty
        have isEmpty : gramsOf words [[]] level.vector = [] := by
          rcases fresh with isNil | present
          · rw [gramsOf, isNil, List.map_nil]
          · exact absurd present absent
        rw [isEmpty] at absent counted ⊢
        have isZero : tally [Vocab.endSymbol] = 0 := by
          by_contra positive
          exact absent (counted.listed _ rfl (Nat.pos_of_ne_zero positive))
        constructor
        · exact counted.filled
        · exact counted.filled
        · intro other _
          exact counted.unused other (Nat.zero_le other)
        · intro other gram listed
          have isGram := List.mem_of_getElem? listed
          rw [List.nil_append, List.mem_singleton] at isGram
          rw [isGram, isZero]
          exact counted.unused other (Nat.zero_le other)
        · intro gram isOrder positive
          exact absurd (counted.listed gram isOrder positive) List.not_mem_nil
        · intro gram member
          exact Or.inr (List.mem_singleton.mp member)
        · intro gram isHead
          cases isHead
          rfl
  · rw [isGrams]
    exact HashVector.prefix_enter

theorem Loaded.addLine_eq {order : Nat} (positive : 0 < order) {lines : List (List Char)}
    {state : Loading} (loaded : Loaded order lines state) (line : List Char) :
    ∃ after, addLine state line = some after ∧ Loaded order (lines ++ [line]) after := by
  by_cases isMark : isDocumentMark line = true
  · have same : ∀ gram, total (lines ++ [line]) gram = total lines gram := by
      intro gram
      rw [total_concat, lineCount, if_pos isMark, Nat.add_zero]
    refine ⟨state, by rw [addLine, if_pos isMark], ?_⟩
    have isTotal : total (lines ++ [line]) = total lines := funext same
    constructor
    · exact loaded.isOpen
    · rw [isTotal]
      exact loaded.levels
    · exact loaded.shape
    · exact loaded.orders
    · exact loaded.fresh
    · rw [isTotal]
      exact loaded.known
  · have isSentence : isDocumentMark line = false := Bool.eq_false_iff.mpr isMark
    obtain ⟨vocab, ids, isAdded, openVocab, longer, spells, known⟩ :=
      addTokens_eq loaded.isOpen (corpusWords line)
    obtain ⟨stateVocab, stateLevels, stateHists⟩ := state
    match stateLevels, stateHists, loaded with
    | [], _, loaded => exact absurd loaded.orders (Nat.ne_of_lt positive)
    | _ :: _, [], loaded => cases loaded.shape
    | level :: levels, last :: hists, loaded =>
        have distinct : vocab.words.entries.Nodup := openVocab.valid.holds.distinct
        have sameGrams := loaded.levels.1.formed.gramsOf_longer longer (List.prefix_refl [[]])
        have holdsLonger := loaded.levels.longer longer (List.prefix_refl [[]])
        have freshLonger : level.vector.entries = [] ∨
            [Vocab.endSymbol] ∈ gramsOf vocab.words.entries [[]] level.vector := by
          rw [sameGrams]
          exact loaded.fresh level rfl
        obtain ⟨vector, index, isNew, isMarked, holdsMarked, longerGrams, isIndex⟩ :=
          holdsLonger.1.mark distinct openVocab.first freshLonger
        have holdsStart : LevelsHold vocab.words.entries (total lines) 1 [[]]
            ({ level with vector := vector } :: levels) :=
          ⟨holdsMarked, holdsLonger.2.longer (List.prefix_refl _) longerGrams⟩
        have histsStart : HistsHold vocab.words.entries [Vocab.endSymbol] 1 [[]]
            ({ level with vector := vector } :: levels) (some index :: hists) := by
          refine ⟨fun _ => ⟨index, rfl, isIndex⟩, HistsHold.of_length ?_ (Nat.lt_succ_self 1)⟩
          exact Nat.succ.inj loaded.shape
        have spellsEnd : Spells vocab.words.entries (ids ++ [Vocab.endOfSentence])
            ((corpusWords line).map Vocab.normal ++ [Vocab.endSymbol]) :=
          List.rel_append spells (List.Forall₂.cons openVocab.first List.Forall₂.nil)
        obtain ⟨levelsAfter, histsAfter, tally, ran, holdsAfter, shape, sameLength, tallied⟩ :=
          addWords_eq distinct spellsEnd rfl holdsStart histsStart
        have isTotal : ∀ gram : List Word, 1 ≤ gram.length →
            total (lines ++ [line]) gram = tally gram := by
          intro gram long
          have nonempty := List.ne_nil_of_length_pos long
          have counted := occurrences_sentence nonempty line isSentence
          have added := tallied gram
          rw [List.singleton_append, ← sentence] at added
          rw [total_concat]
          omega
        have holdsTotal := holdsAfter.congr (base_nil distinct) (fun gram long _ => isTotal gram long)
        refine ⟨{ vocab := vocab, levels := levelsAfter, hists := histsAfter }, ?_, ?_⟩
        · rw [List.map_append, List.map_singleton] at ran
          have ranFrom : addWords 2 (ids.map some ++ [some Vocab.endOfSentence])
              ({ level with vector := vector } :: levels) (some index :: hists) =
                some (levelsAfter, histsAfter) := ran
          rw [addLine, isSentence, if_neg Bool.false_ne_true]
          show (addTokens stateVocab (corpusWords line)).bind _ = _
          rw [isAdded, Option.bind_some]
          show (level.vector.add 0 Vocab.endOfSentence).bind _ = _
          rw [isMarked, Option.bind_some]
          show (addWords 2 (ids.map some ++ [some Vocab.endOfSentence]) _ _).bind _ = _
          rw [ranFrom, Option.bind_some]
        · constructor
          · exact openVocab
          · exact holdsTotal
          · exact shape
          · exact sameLength.trans loaded.orders
          · intro first isFirst
            right
            match levelsAfter, holdsTotal, isFirst with
            | first :: _, holdsTotal, rfl =>
                exact holdsTotal.1.counted.listed _ rfl
                  (total_pos List.mem_concat_self
                    (lineCount_pos isSentence (List.mem_append_right _ List.mem_cons_self)))
          · intro word member
            rcases known word member with isOld | isNew
            · rcases loaded.known word isOld with isEnd | positive
              · exact Or.inl isEnd
              · right
                rw [total_concat]
                exact Nat.add_pos_left positive _
            · right
              exact total_pos List.mem_concat_self
                (lineCount_pos isSentence (List.mem_append_left _ isNew))

/-! ### Corpora -/

theorem levelsHold_start {words : List Word} (order count : Nat) (below : List (List Word)) :
    LevelsHold words (total []) order below
      ((List.replicate count { vector := NgramVector.create, counts := [] }).map allocate) := by
  induction count generalizing order below with
  | zero => trivial
  | succ count ih =>
      rw [List.replicate_succ, List.map_cons]
      refine ⟨⟨HashVector.valid_empty, ?_, ?_⟩, ih (order + 1) _⟩
      · constructor
        · exact List.nodup_nil
        · intro ngram member
          cases member
        · intro ngram member
          cases member
      · have isLength := length_resize (max (2 ^ 16) (nextPowerOf2 NgramVector.create.size)) []
        constructor
        · show 0 < (resize _ []).length
          rw [isLength]
          omega
        · exact Nat.zero_le _
        · intro index _
          show (resize _ []).getD index 0 = 0
          rw [getD_resize (Nat.zero_le _)]
          rfl
        · intro index gram listed
          cases listed
        · intro gram _ impossible
          cases impossible
        · intro gram member
          cases member
        · intro gram isHead
          cases isHead

theorem foldlM_addLine {order : Nat} (positive : 0 < order) {start : Loading}
    (loaded : Loaded order [] start) (lines : List (List Char)) :
    ∃ state, lines.foldlM addLine start = some state ∧ Loaded order lines state := by
  induction lines using List.reverseRecOn with
  | nil => exact ⟨start, rfl, loaded⟩
  | append_singleton lines line ih =>
      obtain ⟨state, ran, loadedBefore⟩ := ih
      obtain ⟨after, added, loadedAfter⟩ := loadedBefore.addLine_eq positive line
      refine ⟨after, ?_, loadedAfter⟩
      rw [List.foldlM_append, ran]
      show (List.foldlM addLine state [line]) = some after
      rw [List.foldlM_cons, added]
      rfl

/-- After a sentence the words of the vocabulary are the n-grams of order 1. -/
theorem Loaded.addVocabulary_eq {order : Nat} {lines : List (List Char)} {state : Loading}
    (loaded : Loaded order lines state) (positive : 0 < order)
    (isSentence : ∃ line ∈ lines, isDocumentMark line = false) :
    addVocabulary state.vocab state.levels = some state.levels := by
  obtain ⟨vocab, levels, hists⟩ := state
  match levels, loaded with
  | [], loaded => exact absurd loaded.orders (Nat.ne_of_lt positive)
  | level :: levels, loaded =>
      obtain ⟨holds, _⟩ := loaded.levels
      have distinct : vocab.words.entries.Nodup := loaded.isOpen.valid.holds.distinct
      have distinctGrams := (holds.formed.base (base_nil distinct)).belowDistinct
      have counted := holds.counted
      obtain ⟨line, isLine, isNoMark⟩ := isSentence
      have endCounted : 0 < total lines [Vocab.endSymbol] := total_pos isLine
        (lineCount_pos isNoMark (List.mem_append_right _ List.mem_cons_self))
      have perm : (gramsOf vocab.words.entries [[]] level.vector).Perm
          (vocab.words.entries.map (fun word => [word])) := by
        refine (List.perm_ext_iff_of_nodup distinctGrams
          (distinct.map List.singleton_injective)).mpr ?_
        intro gram
        constructor
        · intro member
          obtain ⟨index, listed⟩ := List.mem_iff_getElem?.mp member
          obtain ⟨hist, word, front, last, _, isFront, isLast, rfl⟩ :=
            holds.formed.exists_of_getElem? listed
          have isNil : front = [] := List.mem_singleton.mp (List.mem_of_getElem? isFront)
          rw [isNil, List.nil_append]
          exact List.mem_map_of_mem (List.mem_of_getElem? isLast)
        · intro member
          obtain ⟨word, isWord, rfl⟩ := List.mem_map.mp member
          refine counted.listed [word] rfl ?_
          rcases loaded.known word isWord with rfl | known
          · exact endCounted
          · exact known
      have sameSize : level.vector.size = vocab.words.size := by
        have isLength := perm.length_eq
        rw [gramsOf, List.length_map, List.length_map] at isLength
        exact isLength
      rw [addVocabulary, if_pos sameSize]

end Mitlm
