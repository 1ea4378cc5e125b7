/-
Counting a corpus on several machines.

The corpus is split into chunks, each chunk is counted, its counts are limited to the words
that have a pronunciation, and the limited counts are merged.  What the dictionary allows is
decided by the words of a row alone, so that limiting and merging can be exchanged.
-/

import DataSelection.Library.Loops
import DataSelection.Mitlm.Merging
import DataSelection.Splitting.Psplit
import DataSelection.WittenBell.Corpus

namespace Mitlm

open Library NgramModel
open Splitting (psplit psplit_equal_chunks textLines)
open WittenBell (split strip isSpace)

/-- `str.lower`. -/
def lower (word : Word) : Word := word.map Char.toLower

/-- The words of a pronunciation dictionary: the first token of each line, which a blank line
lacks. -/
def dictWords (dict : List Char) : Option (List Word) :=
  (textLines dict).mapM (fun line => (split line).head?.map lower)

def isKnown (dict_words : List Word) (word : Word) : Bool :=
  dict_words.any (fun known => known = lower word)

/-- All words of a row are known; its last token is the count. -/
def good (dict_words : List Word) (line : List Char) : Bool :=
  (split line).dropLast.all (isKnown dict_words)

def limit_counts_by_dict (dict counts : List Char) : Option (List Char) :=
  (dictWords dict).map (fun dict_words =>
    writeLines (((textLines counts).filter (good dict_words)).map strip))

/-- The counts of a chunk that are merged; without a dictionary all of them. -/
def finalCounts (dict : Option (List Char)) (counts : List Char) : Option (List Char) :=
  match dict with
  | none => some counts
  | some dict => limit_counts_by_dict dict counts

/-- Several files are merged, a single one is only linked. -/
def combinedCounts (dict : Option (List Char)) (order : Nat) (corpus_files : List (List Char)) :
    Option (List Char) := do
  let counts ← corpus_files.mapM (countCorpus order)
  let final ← counts.mapM (finalCounts dict)
  match final with
  | [only] => some only
  | files => mergeCounts order files

def corpusChunks (max_threads : Nat) (corpus : List Char) : Option (List (List Char)) :=
  if 1 < max_threads then
    psplit { equal_chunks := max_threads, total_lines := 0, percents := [] } corpus corpus
  else some [corpus]

def createCounts (max_threads : Nat) (dict : Option (List Char)) (order : Nat)
    (corpus : List Char) : Option (List Char) := do
  let corpus_chunks ← corpusChunks max_threads corpus
  combinedCounts dict order corpus_chunks

/-! ### Rows -/

theorem isSpace_eq_isspace (char : Char) : isSpace char = isspace char := by
  rw [Bool.eq_iff_iff, isSpace, isspace]
  simp only [List.mem_cons, List.not_mem_nil, or_false, decide_eq_true_eq, Bool.or_eq_true]
  constructor
  · rintro (rfl | rfl | rfl | rfl | rfl | rfl) <;> simp
  · rintro (((((rfl | rfl) | rfl) | rfl) | rfl) | rfl) <;> simp

theorem strip_of_clean {text : List Char} (front : ∀ char ∈ text.head?, isSpace char = false)
    (back : ∀ char ∈ text.getLast?, isSpace char = false) : strip text = text := by
  have isFront : text.dropWhile isSpace = text := by
    cases text with
    | nil => rfl
    | cons char rest =>
        rw [List.dropWhile_cons, front char rfl]
        rfl
  unfold strip
  rw [isFront, List.rdropWhile_eq_self_iff]
  intro filled
  rw [back _ (List.getLast?_eq_some_getLast filled)]
  exact Bool.false_ne_true

section

variable {gram : List Word} (nonempty : gram ≠ []) (plain : ∀ word ∈ gram, Plain word)
  (count : Nat)

include plain in
theorem shown_clean : (∀ word ∈ shown gram, word ≠ []) ∧
    ∀ word ∈ shown gram, ∀ char ∈ word, isSpace char = false := by
  constructor
  · intro word member
    exact (plain_shown plain word member).1
  · intro word member char isChar
    rw [isSpace_eq_isspace]
    exact (plain_shown plain word member).2 char isChar

theorem digits_clean : ∀ char ∈ (Nat.repr count).toList, isSpace char = false := by
  intro char member
  rw [isSpace_eq_isspace]
  rw [Nat.toList_repr] at member
  exact not_isspace_of_isDigit (Nat.isDigit_of_mem_toDigits (by omega) (by omega) member)

theorem digits_ne_nil : (Nat.repr count).toList ≠ [] := by
  rw [Nat.toList_repr]
  exact List.ne_nil_of_length_pos Nat.length_toDigits_pos

include plain in
theorem split_writeRow :
    split (writeRow (shown gram, count)) = shown gram ++ [(Nat.repr count).toList] := by
  obtain ⟨filled, clean⟩ := shown_clean plain
  rw [split, writeRow, tokens_append_cons _ _ (by decide), tokens_intercalate (by decide) _ filled
    clean, tokens_word (digits_ne_nil count) (digits_clean count)]

include nonempty plain in
theorem strip_writeRow :
    strip (writeRow (shown gram, count)) = writeRow (shown gram, count) := by
  obtain ⟨filled, clean⟩ := shown_clean plain
  apply strip_of_clean
  · intro char isFirst
    obtain ⟨word, rest, isShown⟩ : ∃ word rest, shown gram = word :: rest := by
      cases gram with
      | nil => exact absurd rfl nonempty
      | cons first rest => exact ⟨_, _, rfl⟩
    obtain ⟨tail, isText⟩ := exists_writeRow word rest count
    have isMember : word ∈ shown gram := by
      rw [isShown]
      exact List.mem_cons_self
    rw [isShown, isText] at isFirst
    cases word with
    | nil => exact absurd rfl (filled [] isMember)
    | cons head chars =>
        rw [← Option.some.inj isFirst]
        exact clean _ isMember head List.mem_cons_self
  · intro char isLast
    apply digits_clean count
    rw [writeRow, List.getLast?_append, List.getLast?_cons,
      List.getLast?_eq_some_getLast (digits_ne_nil count)] at isLast
    have same := Option.some.inj isLast
    rw [← same]
    exact List.getLast_mem (digits_ne_nil count)

end

/-! ### Limited rows -/

def allowed (dict_words : List Word) (gram : List Word) : Bool :=
  (shown gram).all (isKnown dict_words)

/-- The rows that are left by a dictionary with the beginning of sentences. -/
def limitTo (dict_words : List Word) (begins : isKnown dict_words Vocab.startSymbol = true) :
    Selection :=
  { row := good dict_words
    gram := allowed dict_words
    agree := by
      intro words count _ plain
      rw [good, split_writeRow plain, List.dropLast_concat, allowed]
    take := by
      intro words width positive isAllowed
      have isTaken : shown (words.take width) = (shown words).take width := by
        cases words with
        | nil => rw [List.take_nil, shown, List.take_nil]
        | cons first rest =>
            obtain ⟨shorter, rfl⟩ := Nat.exists_eq_succ_of_ne_zero (Nat.ne_of_gt positive)
            rfl
      rw [allowed, isTaken, List.all_eq_true]
      intro word member
      exact List.all_eq_true.mp isAllowed word (List.mem_of_mem_take member)
    tail := by
      intro words _ isAllowed
      cases words with
      | nil => exact isAllowed
      | cons first rest =>
          have later := (Bool.and_eq_true_iff.mp (show (_ && _) = true from isAllowed)).2
          cases rest with
          | nil => rfl
          | cons second rest =>
              obtain ⟨here, others⟩ := Bool.and_eq_true_iff.mp (show (_ && _) = true from later)
              rw [List.tail_cons, allowed, shown, List.all_cons, others, Bool.and_true]
              split
              · exact begins
              · exact here }

def allowedBy (dict_words : Option (List Word)) : List Word → Bool :=
  match dict_words with
  | none => fun _ => true
  | some dict_words => allowed dict_words

structure Printed (file : List Char) : Prop where
  ended : Ended '\n' file
  stripped : ∀ row ∈ textLines file, strip row = row

theorem printed_countCorpus {order : Nat} (positive : 0 < order) {corpus file : List Char}
    (inner : Inner order (getlines corpus)) (readable : Readable (getlines corpus))
    (isCounted : countCorpus order corpus = some file) : Printed file := by
  refine ⟨ended_countCorpus isCounted, ?_⟩
  obtain ⟨saved, isSaved, ordered⟩ := countCorpus_eq positive inner
  have countable := countable_total readable
  have unbroken := fun row member => (ordered.unbroken countable inner.endCounted row member).1
  rw [isCounted] at isSaved
  rw [Option.some.inj isSaved, textLines, saveCounts, records_writeLines unbroken,
    ordered.rows_eq]
  intro row member
  obtain ⟨width, isWidth, isRow⟩ := List.mem_flatMap.mp member
  obtain ⟨gram, isGram, rfl⟩ := List.mem_map.mp isRow
  obtain ⟨isLength, counted⟩ :=
    ((ordered.grams inner.endCounted (List.mem_range.mp isWidth)).2 gram).mp isGram
  have nonempty := List.ne_nil_of_length_pos (show 0 < gram.length by omega)
  exact strip_writeRow nonempty (countable.plain gram nonempty counted) _

theorem exists_selection {order : Nat} {lines : List (List Char)} {dict : Option (List Char)}
    {dict_words : Option (List Word)} (isDict : dict.map dictWords = dict_words.map some)
    (roots : Roots (allowedBy dict_words) order lines) :
    ∃ selection : Selection, selection.gram = allowedBy dict_words ∧
      ∀ file, Printed file → finalCounts dict file = some (filterLines selection.row file) := by
  cases dict with
  | none =>
      cases dict_words with
      | some words => cases isDict
      | none =>
          refine ⟨Selection.all, rfl, ?_⟩
          intro file printed
          exact congrArg some (filterLines_all printed.ended).symm
  | some dict =>
      cases dict_words with
      | none => cases isDict
      | some words =>
          have begins : isKnown words Vocab.startSymbol = true := by
            obtain ⟨gram, _, _, isAllowed, starts⟩ := roots.opening
            cases gram with
            | nil => cases starts
            | cons first rest =>
                have here := (Bool.and_eq_true_iff.mp (show (_ && _) = true from isAllowed)).1
                rw [if_pos (Option.some.inj starts)] at here
                exact here
          refine ⟨limitTo words begins, rfl, ?_⟩
          intro file printed
          have isRead : dictWords dict = some words := Option.some.inj isDict
          have same : ((textLines file).filter (good words)).map strip =
              (textLines file).filter (good words) :=
            (List.map_congr_left (fun row member =>
              printed.stripped row (List.mem_of_mem_filter member))).trans (List.map_id _)
          rw [finalCounts, limit_counts_by_dict, isRead, Option.map_some, same]
          rfl

/-- The chunks of a corpus are read as the corpus, and a corpus in one chunk is its chunk. -/
theorem corpusChunks_spec {max_threads : Nat} {corpus first : List Char} {later : List (List Char)}
    (isSplit : corpusChunks max_threads corpus = some (first :: later)) :
    getlines corpus = (first :: later).flatMap getlines ∧ (later = [] → first = corpus) := by
  rw [corpusChunks] at isSplit
  split at isSplit
  · next parallel =>
      obtain ⟨isLength, _⟩ := @psplit_equal_chunks ⟨max_threads, 0, []⟩
        (Nat.lt_of_succ_lt parallel) rfl corpus corpus (Nat.le_refl _) _ isSplit
      refine ⟨?_, ?_⟩
      · obtain ⟨lines, _, isShared⟩ := Option.map_eq_some_iff.mp isSplit
        rw [← isShared]
        exact (flatMap_shareRecords getlines_nil getlines_append lines corpus).symm
      · intro isSingle
        rw [isSingle] at isLength
        have tooFew : 1 = max_threads := isLength
        omega
  · cases isSplit
    exact ⟨(List.append_nil _).symm, fun _ => rfl⟩

section

variable {order : Nat} (positive : 0 < order) {dict : Option (List Char)} {selection : Selection}
  (limited : ∀ file, Printed file → finalCounts dict file = some (filterLines selection.row file))

include positive limited

theorem mapM_finalCounts {chunks files : List (List Char)}
    (inner : ∀ chunk ∈ chunks, Inner order (getlines chunk))
    (readable : ∀ chunk ∈ chunks, Readable (getlines chunk))
    (areCounted : chunks.mapM (countCorpus order) = some files) :
    files.mapM (finalCounts dict) = some (files.map (filterLines selection.row)) := by
  apply mapM_of_pure
  intro file isFile
  obtain ⟨chunk, isChunk, isCounted⟩ := exists_of_mem_mapM areCounted isFile
  exact limited file
    (printed_countCorpus positive (inner chunk isChunk) (readable chunk isChunk) isCounted)

theorem combinedCounts_single {corpus : List Char} (inner : Inner order (getlines corpus))
    (readable : Readable (getlines corpus)) {whole : List Char}
    (isCounted : countCorpus order corpus = some whole) :
    combinedCounts dict order [corpus] = some (filterLines selection.row whole) := by
  have isLimited := limited whole (printed_countCorpus positive inner readable isCounted)
  simp only [combinedCounts, List.mapM_cons, List.mapM_nil, isCounted, isLimited,
    Option.bind_eq_bind, Option.bind_some, Option.pure_def]

end

theorem combinedCounts_several {order : Nat} {dict : Option (List Char)} {one two : List Char}
    {corpus_files files others : List (List Char)}
    (areCounted : corpus_files.mapM (countCorpus order) = some files)
    (areLimited : files.mapM (finalCounts dict) = some (one :: two :: others)) :
    combinedCounts dict order corpus_files = mergeCounts order (one :: two :: others) := by
  rw [combinedCounts, areCounted, Option.bind_eq_bind, Option.bind_some, areLimited,
    Option.bind_some]

section

variable {order max_threads : Nat} (positive : 0 < order) {dict : Option (List Char)}
  {dict_words : Option (List Word)} (isDict : dict.map dictWords = dict_words.map some)
  {corpus first : List Char} {later : List (List Char)}
  (isSplit : corpusChunks max_threads corpus = some (first :: later))
  (roots : Roots (allowedBy dict_words) order (getlines first))
  (inner : ∀ chunk ∈ first :: later, Inner order (getlines chunk))
  (keeps : ∀ chunk ∈ later, Keeps (allowedBy dict_words) (getlines chunk))
  (readable : Readable (getlines corpus)) (narrow : Narrow order (total (getlines corpus)))

include positive isDict isSplit roots inner keeps readable narrow

/-- The counts of a corpus in one chunk are selected from all of its counts.  Those of several
chunks are the same, or those of a model that has the selected counts. -/
theorem exists_createCounts : ∃ (selection : Selection) (whole : NgramModel) (counts : List Char),
    Roots selection.gram order (getlines corpus) ∧ Inner order (getlines corpus) ∧
      whole.Sorted order order (total (getlines corpus)) ∧
      createCounts 1 dict order corpus = some (filterLines selection.row whole.saveCounts) ∧
      createCounts max_threads dict order corpus = some counts ∧
      (counts = filterLines selection.row whole.saveCounts ∨ ∃ merged : NgramModel,
        merged.Sorted order order (selection.counts (total (getlines corpus))) ∧
          counts = merged.saveCounts) := by
  obtain ⟨selection, isGram, limited⟩ := exists_selection isDict roots
  obtain ⟨sameLines, isSingle⟩ := corpusChunks_spec isSplit
  rw [← isGram] at roots keeps
  have readableChunks : ∀ chunk ∈ first :: later, Readable (getlines chunk) := by
    intro chunk member line isLine
    apply readable line
    rw [sameLines]
    exact List.mem_flatMap.mpr ⟨chunk, member, isLine⟩
  obtain ⟨files, merged, whole, areCounted, isMerged, isWhole, orderedMerged, orderedWhole⟩ :=
    exists_merged positive selection sameLines roots inner readable narrow keeps
  have areLimited := mapM_finalCounts positive limited inner readableChunks areCounted
  have rootsWhole : Roots selection.gram order (getlines corpus) := by
    rw [sameLines]
    exact roots.append _
  have innerWhole : Inner order (getlines corpus) := by
    rw [sameLines]
    exact (inner first List.mem_cons_self).append _
  have isLimited := combinedCounts_single positive limited innerWhole readable isWhole
  have single : createCounts 1 dict order corpus =
      some (filterLines selection.row whole.saveCounts) := by
    rw [createCounts, corpusChunks, if_neg (Nat.lt_irrefl 1), Option.bind_eq_bind,
      Option.bind_some, isLimited]
  cases later with
  | nil =>
      -- a single file is only linked
      rw [isSingle rfl] at isSplit
      refine ⟨selection, whole, _, rootsWhole, innerWhole, orderedWhole, single, ?_, Or.inl rfl⟩
      rw [createCounts, isSplit, Option.bind_eq_bind, Option.bind_some, isLimited]
  | cons second later =>
      refine ⟨selection, whole, _, rootsWhole, innerWhole, orderedWhole, single, ?_,
        Or.inr ⟨merged, orderedMerged, rfl⟩⟩
      obtain ⟨one, two, others, rfl⟩ : ∃ one two others, files = one :: two :: others := by
        simp only [List.mapM_cons, Option.bind_eq_bind, Option.bind_eq_some_iff, Option.pure_def,
          Option.some.injEq] at areCounted
        obtain ⟨one, _, rest, ⟨two, _, others, _, rfl⟩, rfl⟩ := areCounted
        exact ⟨one, two, others, rfl⟩
      rw [List.map_cons, List.map_cons] at areLimited isMerged
      rw [createCounts, isSplit, Option.bind_eq_bind, Option.bind_some,
        combinedCounts_several areCounted areLimited, isMerged]

/-- On any number of machines the same rows are counted: if each chunk has n-grams of all orders
and the dictionary leaves enough of each, merging the limited counts of the chunks gives the
limited counts of the whole corpus. -/
theorem createCounts_threads :
    ∃ merged whole, createCounts max_threads dict order corpus = some merged ∧
      createCounts 1 dict order corpus = some whole ∧
      (textLines merged).Perm (textLines whole) := by
  obtain ⟨selection, whole, counts, rootsWhole, innerWhole, orderedWhole, single, ran, made⟩ :=
    exists_createCounts positive isDict isSplit roots inner keeps readable narrow
  refine ⟨counts, _, ran, single, ?_⟩
  rcases made with same | ⟨merged, orderedMerged, same⟩
  · rw [same]
  · rw [same]
    exact selection.saveCounts_perm (countable_total readable) innerWhole.endCounted
      rootsWhole.end_chosen orderedMerged orderedWhole

end

/-- A corpus of two lines, and a dictionary without the last word. -/
theorem threads_two :
    dictWords "<s>\nA a\nb b\n".toList = some [['<', 's', '>'], ['a'], ['b']] ∧
      corpusChunks 2 "a b\nb a c\n".toList = some ["a b\n".toList, "b a c\n".toList] ∧
      Roots (allowed [['<', 's', '>'], ['a'], ['b']]) 2 (getlines "a b\n".toList) ∧
      (∀ chunk ∈ ["a b\n".toList, "b a c\n".toList], Inner 2 (getlines chunk)) ∧
      (∀ chunk ∈ ["b a c\n".toList],
        Keeps (allowed [['<', 's', '>'], ['a'], ['b']]) (getlines chunk)) ∧
      Readable (getlines "a b\nb a c\n".toList) ∧
      Narrow 2 (total (getlines "a b\nb a c\n".toList)) := by
  have isFirst : getlines "a b\n".toList = ["a b".toList] :=
    (getlines_of_short (by decide +kernel)).trans (by decide +kernel)
  have isSecond : getlines "b a c\n".toList = ["b a c".toList] :=
    (getlines_of_short (by decide +kernel)).trans (by decide +kernel)
  have isWhole : getlines "a b\nb a c\n".toList = ["a b".toList, "b a c".toList] :=
    (getlines_of_short (by decide +kernel)).trans (by decide +kernel)
  refine ⟨by decide +kernel, by decide +kernel, ?_, ?_, ?_, ?_, ?_⟩
  · rw [isFirst]
    constructor
    · exact ⟨[['a'], ['b']], rfl, by decide +kernel, rfl, by unfold Starts; decide⟩
    · exact ⟨[Vocab.endSymbol, ['a']], rfl, by decide +kernel, rfl, rfl⟩
  · intro chunk member
    simp only [List.mem_cons, List.not_mem_nil, or_false] at member
    rcases member with rfl | rfl
    · rw [isFirst]
      exact ⟨[['a'], ['b']], rfl, by decide +kernel, by unfold Starts; decide⟩
    · rw [isSecond]
      exact ⟨[['b'], ['a']], rfl, by decide +kernel, by unfold Starts; decide⟩
  · intro chunk member
    rw [List.mem_singleton.mp member, isSecond]
    exact ⟨[['a']], List.cons_ne_nil _ _, by decide +kernel, rfl, by unfold Starts; decide⟩
  · rw [isWhole]
    unfold Readable
    decide +kernel
  · rw [isWhole]
    refine narrow_of_windows ?_
    decide +kernel

theorem createCounts_threads_two :
    ∃ merged whole,
      createCounts 2 (some "<s>\nA a\nb b\n".toList) 2 "a b\nb a c\n".toList = some merged ∧
      createCounts 1 (some "<s>\nA a\nb b\n".toList) 2 "a b\nb a c\n".toList = some whole ∧
      (textLines merged).Perm (textLines whole) := by
  obtain ⟨isDict, isSplit, roots, inner, keeps, readable, narrow⟩ := threads_two
  exact @createCounts_threads 2 2 two_pos (some "<s>\nA a\nb b\n".toList)
    (some [['<', 's', '>'], ['a'], ['b']]) (congrArg some isDict) _ _ _ isSplit roots inner keeps
    readable narrow

end Mitlm
