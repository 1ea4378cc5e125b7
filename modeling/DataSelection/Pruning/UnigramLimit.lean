/-
Limiting the number of unigrams of a counts table.

The table is read in one pass, and the first line behind the unigrams decides whether they
are cut or the whole table is copied.  A table of unigrams only has no such line.
-/

import DataSelection.Library.Loops
import DataSelection.Library.PartialSort
import DataSelection.Numbers.Speller
import DataSelection.WittenBell.Corpus
import Mathlib.Data.List.Perm.Basic

namespace Pruning

open Library
open WittenBell (Word isSpace split join readLines CleanWord cleanWord_of_mem_split
  split_join newline_notMem_join IsLine readLines_flatten)
open Numbers (int)

/-- The tokens of a line: the words of an n-gram and its count. -/
abbrev Entry := List Word

structure Scan where
  include_all : Bool
  kept_unigrams : List Entry
  unigrams_done : Bool
  higher_ngrams : List Entry
  dict_words : List Word

def Scan.start : Scan :=
  { include_all := false
    kept_unigrams := []
    unigrams_done := false
    higher_ngrams := []
    dict_words := [] }

def entryCount (entry : Entry) : Option Int := entry.getLast?.bind int

def unigramWords (unigrams : List Entry) : List Word := unigrams.filterMap List.head?

def addUnigram (scan : Scan) (tokens : Entry) : Scan :=
  { scan with kept_unigrams := scan.kept_unigrams ++ [tokens] }

def good (dict_words : List Word) (tokens : Entry) : Bool :=
  tokens.dropLast.all (· ∈ dict_words)

def addNgram (scan : Scan) (tokens : Entry) : Scan :=
  if good scan.dict_words tokens then
    { scan with higher_ngrams := scan.higher_ngrams ++ [tokens] }
  else scan

/-- Sorting the unigrams by their negated counts, and keeping the first ones. -/
def cutUnigrams (max_unigrams : Nat) (scan : Scan) : Option Scan := do
  let keyed ← scan.kept_unigrams.mapM (fun unigram =>
    (entryCount unigram).map (fun count => (-count, unigram)))
  let sorted_unigrams :=
    (keyed.mergeSort (fun left right => decide (left.1 ≤ right.1))).map Prod.snd
  let kept_unigrams := sorted_unigrams.take max_unigrams
  some { scan with
    kept_unigrams := kept_unigrams
    dict_words := unigramWords kept_unigrams
    unigrams_done := true }

/-- The loop over the lines, which a small number of unigrams ends early. -/
def scanLines (max_unigrams : Nat) : List Entry → Scan → Option Scan
  | [], scan => some scan
  | tokens :: lines, scan =>
      if tokens.length = 2 then scanLines max_unigrams lines (addUnigram scan tokens)
      else if scan.unigrams_done then scanLines max_unigrams lines (addNgram scan tokens)
      else if scan.kept_unigrams.length ≤ max_unigrams then some { scan with include_all := true }
      else do
        let scan ← cutUnigrams max_unigrams scan
        scanLines max_unigrams lines (addNgram scan tokens)

def writeUnigram (unigram : Entry) : Option (List Char) :=
  match unigram with
  | word :: count :: _ => some (word ++ '\t' :: (count ++ ['\n']))
  | _ => none

def writeNgram (gram : Entry) : Option (List Char) :=
  gram.getLast?.map (fun count => join gram.dropLast ++ '\t' :: (count ++ ['\n']))

def tableLines (combined_counts : List Char) : List (List Char) :=
  readLines combined_counts.length combined_counts

def entries (combined_counts : List Char) : List Entry := (tableLines combined_counts).map split

def pruneCounts (max_unigrams : Nat) (combined_counts : List Char) : Option (List Char) := do
  let scan ← scanLines max_unigrams (entries combined_counts) .start
  if scan.include_all then some (tableLines combined_counts).flatten
  else do
    let unigrams ← scan.kept_unigrams.mapM writeUnigram
    let grams ← scan.higher_ngrams.mapM writeNgram
    some (unigrams.flatten ++ grams.flatten)

/-! ### The limited table -/

/-- A counts table: all unigrams come first, and the last token of a line is the count. -/
structure CountsTable (combined_counts : List Char) (unigrams ngrams : List Entry) : Prop where
  lines : entries combined_counts = unigrams ++ ngrams
  unigram : ∀ entry ∈ unigrams, entry.length = 2
  ngram : ∀ entry ∈ ngrams, 3 ≤ entry.length
  counted : ∀ entry ∈ unigrams ++ ngrams, (entryCount entry).isSome

/-- The most frequent unigrams, as many as the limit allows. -/
structure TopUnigrams (max_unigrams : Nat) (unigrams kept dropped : List Entry) : Prop where
  parts : unigrams.Perm (kept ++ dropped)
  size : kept.length = min max_unigrams unigrams.length
  frequent : ∀ first ∈ kept, ∀ second ∈ dropped, ∀ more ∈ entryCount first,
    ∀ fewer ∈ entryCount second, fewer ≤ more

def closedNgrams (kept ngrams : List Entry) : List Entry :=
  ngrams.filter (good (unigramWords kept))

/-- The table that is left has the most frequent unigrams and the n-grams over their words. -/
def PrunesExactly (max_unigrams : Nat) (combined_counts : List Char)
    (unigrams ngrams : List Entry) : Prop :=
  ∃ output kept dropped, pruneCounts max_unigrams combined_counts = some output ∧
    TopUnigrams max_unigrams unigrams kept dropped ∧
    (entries output).Perm (kept ++ closedNgrams kept ngrams)

/-! ### Written lines -/

theorem entries_flatten {lines : List (List Char)} (each : ∀ line ∈ lines, IsLine line) :
    entries lines.flatten = lines.map split := by
  rw [entries, tableLines, readLines_flatten each _ (Nat.le_refl _)]

theorem writeNgram_reads {gram : Entry} (filled : gram ≠ [])
    (clean : ∀ word ∈ gram, CleanWord word) :
    ∃ line, writeNgram gram = some line ∧ IsLine line ∧ split line = gram := by
  rcases List.eq_nil_or_concat gram with empty | ⟨words, count, rfl⟩
  · exact absurd empty filled
  rw [List.concat_eq_append] at clean ⊢
  have cleanWords : ∀ word ∈ words, CleanWord word :=
    fun word member => clean word (List.mem_append_left _ member)
  have cleanCount : CleanWord count := clean count (by simp)
  refine ⟨join words ++ '\t' :: (count ++ ['\n']), by simp [writeNgram],
    ⟨join words ++ '\t' :: count, by simp, ?_⟩, ?_⟩
  · rw [List.mem_append, List.mem_cons, not_or, not_or]
    exact ⟨newline_notMem_join cleanWords, by decide, cleanCount.newline_notMem⟩
  · have last : split (count ++ ['\n']) = [count] := by
      unfold split
      rw [tokens_append_cons count [] (by decide : isSpace '\n' = true), tokens_nil,
        List.append_nil]
      exact tokens_word cleanCount.nonempty cleanCount.clean
    have both : split (join words ++ '\t' :: (count ++ ['\n'])) =
        split (join words) ++ split (count ++ ['\n']) :=
      tokens_append_cons _ _ (by decide : isSpace '\t' = true)
    rw [both, last, split_join cleanWords]

theorem writeUnigram_eq {unigram : Entry} (two : unigram.length = 2) :
    writeUnigram unigram = writeNgram unigram := by
  rcases List.length_eq_two.mp two with ⟨word, count, rfl⟩
  simp [writeUnigram, writeNgram, join]

theorem mapM_writeNgram {grams : List Entry} (filled : ∀ gram ∈ grams, gram ≠ [])
    (clean : ∀ gram ∈ grams, ∀ word ∈ gram, CleanWord word) :
    ∃ lines, grams.mapM writeNgram = some lines ∧ (∀ line ∈ lines, IsLine line) ∧
      lines.map split = grams := by
  induction grams with
  | nil => exact ⟨[], rfl, by simp, rfl⟩
  | cons gram grams ih =>
      rcases writeNgram_reads (filled gram List.mem_cons_self) (clean gram List.mem_cons_self)
        with ⟨line, wrote, isLine, read⟩
      rcases ih (fun other member => filled other (List.mem_cons_of_mem gram member))
        (fun other member => clean other (List.mem_cons_of_mem gram member))
        with ⟨lines, wroteAll, areLines, readAll⟩
      refine ⟨line :: lines, ?_, ?_, ?_⟩
      · rw [List.mapM_cons, wrote, wroteAll]
        rfl
      · intro other member
        rcases List.mem_cons.mp member with rfl | later
        · exact isLine
        · exact areLines other later
      · rw [List.map_cons, read, readAll]

theorem mapM_writeUnigram {unigrams : List Entry} (two : ∀ unigram ∈ unigrams, unigram.length = 2) :
    unigrams.mapM writeUnigram = unigrams.mapM writeNgram :=
  mapM_congr (fun unigram member => writeUnigram_eq (two unigram member))

/-! ### The pass over the lines -/

variable {max_unigrams : Nat}

def Scan.behind (unigrams : List Entry) : Scan :=
  { include_all := false
    kept_unigrams := unigrams
    unigrams_done := false
    higher_ngrams := []
    dict_words := [] }

def Scan.limited (kept_unigrams higher_ngrams : List Entry) : Scan :=
  { include_all := false
    kept_unigrams := kept_unigrams
    unigrams_done := true
    higher_ngrams := higher_ngrams
    dict_words := unigramWords kept_unigrams }

theorem scanLines_unigrams {unigrams : List Entry} (two : ∀ entry ∈ unigrams, entry.length = 2)
    (before rest : List Entry) :
    scanLines max_unigrams (unigrams ++ rest) (.behind before) =
      scanLines max_unigrams rest (.behind (before ++ unigrams)) := by
  induction unigrams generalizing before with
  | nil => rw [List.nil_append, List.append_nil]
  | cons unigram unigrams ih =>
      have added : addUnigram (.behind before) unigram = .behind (before ++ [unigram]) := rfl
      rw [List.cons_append, scanLines, if_pos (two unigram List.mem_cons_self), added,
        ih (fun other member => two other (List.mem_cons_of_mem unigram member)),
        List.append_assoc, List.singleton_append]

theorem addNgram_limited (kept closed : List Entry) (gram : Entry) :
    addNgram (.limited kept closed) gram =
      .limited kept (closed ++ closedNgrams kept [gram]) := by
  have sameWords : (Scan.limited kept closed).dict_words = unigramWords kept := rfl
  unfold addNgram closedNgrams
  rw [sameWords]
  by_cases isGood : good (unigramWords kept) gram = true
  · rw [if_pos isGood, List.filter_cons_of_pos isGood, List.filter_nil]
    rfl
  · rw [if_neg isGood, List.filter_cons_of_neg isGood, List.filter_nil, List.append_nil]

theorem closedNgrams_cons (kept : List Entry) (gram : Entry) (ngrams : List Entry) :
    closedNgrams kept (gram :: ngrams) =
      closedNgrams kept [gram] ++ closedNgrams kept ngrams := by
  rw [closedNgrams, ← List.singleton_append, List.filter_append]
  rfl

theorem scanLines_ngrams {ngrams : List Entry} (long : ∀ entry ∈ ngrams, 3 ≤ entry.length)
    (kept closed : List Entry) :
    scanLines max_unigrams ngrams (.limited kept closed) =
      some (.limited kept (closed ++ closedNgrams kept ngrams)) := by
  induction ngrams generalizing closed with
  | nil => rw [scanLines, closedNgrams, List.filter_nil, List.append_nil]
  | cons gram ngrams ih =>
      have notTwo : gram.length ≠ 2 := by
        have three := long gram List.mem_cons_self
        omega
      have done : (Scan.limited kept closed).unigrams_done = true := rfl
      rw [scanLines, if_neg notTwo, if_pos done, addNgram_limited,
        ih (fun other member => long other (List.mem_cons_of_mem gram member)),
        closedNgrams_cons kept gram ngrams, List.append_assoc]

theorem scanLines_behind {gram : Entry} (long : 3 ≤ gram.length) (unigrams others : List Entry) :
    scanLines max_unigrams (gram :: others) (.behind unigrams) =
      if unigrams.length ≤ max_unigrams then
        some { Scan.behind unigrams with include_all := true }
      else (cutUnigrams max_unigrams (.behind unigrams)).bind (fun scan =>
        scanLines max_unigrams others (addNgram scan gram)) := by
  have notTwo : gram.length ≠ 2 := by omega
  have fresh : ¬ (Scan.behind unigrams).unigrams_done = true := Bool.false_ne_true
  rw [scanLines, if_neg notTwo, if_neg fresh]
  rfl

theorem mapM_entryCount {unigrams : List Entry}
    (counted : ∀ entry ∈ unigrams, (entryCount entry).isSome) :
    ∃ keyed : List (Int × Entry), unigrams.mapM (fun unigram =>
        (entryCount unigram).map (fun count => (-count, unigram))) = some keyed ∧
      keyed.map Prod.snd = unigrams ∧
      ∀ pair ∈ keyed, entryCount pair.2 = some (-pair.1) := by
  have count_eq : ∀ unigram ∈ unigrams,
      entryCount unigram = some ((entryCount unigram).getD 0) := by
    intro unigram member
    rcases Option.isSome_iff_exists.mp (counted unigram member) with ⟨count, found⟩
    rw [found, Option.getD_some]
  refine ⟨unigrams.map (fun unigram => (-(entryCount unigram).getD 0, unigram)),
    mapM_of_pure ?_, ?_, ?_⟩
  · intro unigram member
    rw [count_eq unigram member]
    rfl
  · rw [List.map_map]
    exact List.map_id _
  · intro pair member
    rcases List.mem_map.mp member with ⟨unigram, present, rfl⟩
    rw [Int.neg_neg]
    exact count_eq unigram present

theorem cutUnigrams_top (max_unigrams : Nat) {unigrams : List Entry}
    (counted : ∀ entry ∈ unigrams, (entryCount entry).isSome) :
    ∃ kept dropped, TopUnigrams max_unigrams unigrams kept dropped ∧
      cutUnigrams max_unigrams (.behind unigrams) = some (.limited kept []) := by
  rcases mapM_entryCount counted with ⟨keyed, mapped, projected, keys⟩
  let sorted := keyed.mergeSort (fun left right => decide (left.1 ≤ right.1))
  have perm : sorted.Perm keyed := List.mergeSort_perm keyed _
  have ordered : sorted.Pairwise (fun left right => left.1 ≤ right.1) :=
    mergeSort_key_pairwise Prod.fst keyed
  rw [← List.take_append_drop max_unigrams sorted, List.pairwise_append] at ordered
  refine ⟨(sorted.take max_unigrams).map Prod.snd, (sorted.drop max_unigrams).map Prod.snd,
    ⟨?_, ?_, ?_⟩, ?_⟩
  · rw [← List.map_append, List.take_append_drop, ← projected]
    exact (perm.map Prod.snd).symm
  · rw [List.length_map, List.length_take, perm.length_eq, ← projected, List.length_map]
  · intro first inKept second inDropped more more_eq fewer fewer_eq
    rcases List.mem_map.mp inKept with ⟨pair, inFront, rfl⟩
    rcases List.mem_map.mp inDropped with ⟨other, inBack, rfl⟩
    rw [keys pair (perm.mem_iff.mp (List.mem_of_mem_take inFront))] at more_eq
    rw [keys other (perm.mem_iff.mp (List.mem_of_mem_drop inBack))] at fewer_eq
    have below := ordered.2.2 pair inFront other inBack
    cases more_eq
    cases fewer_eq
    omega
  · have behind : (Scan.behind unigrams).kept_unigrams = unigrams := rfl
    unfold cutUnigrams
    rw [behind, mapped]
    simp only [Option.bind_eq_bind, Option.bind_some, ← List.map_take]
    rfl

/-! ### The three kinds of tables -/

variable {combined_counts : List Char} {unigrams ngrams : List Entry}

theorem CountsTable.clean (table : CountsTable combined_counts unigrams ngrams) :
    ∀ entry ∈ unigrams ++ ngrams, ∀ word ∈ entry, CleanWord word := by
  intro entry member word inEntry
  rw [← table.lines] at member
  rcases List.mem_map.mp member with ⟨line, _, rfl⟩
  exact cleanWord_of_mem_split inEntry

theorem CountsTable.writes (table : CountsTable combined_counts unigrams ngrams)
    {kept closed : List Entry} (keptFrom : kept ⊆ unigrams) (closedFrom : closed ⊆ ngrams) :
    ∃ keptLines closedLines, kept.mapM writeUnigram = some keptLines ∧
      closed.mapM writeNgram = some closedLines ∧
      entries (keptLines.flatten ++ closedLines.flatten) = kept ++ closed := by
  have clean := table.clean
  rcases mapM_writeNgram
    (fun gram member empty => by
      have two := table.unigram gram (keptFrom member)
      rw [empty] at two
      cases two)
    (fun gram member => clean gram (List.mem_append_left _ (keptFrom member)))
    with ⟨keptLines, wroteKept, keptAre, keptRead⟩
  rcases mapM_writeNgram
    (fun gram member empty => by
      have long := table.ngram gram (closedFrom member)
      rw [empty] at long
      cases long)
    (fun gram member => clean gram (List.mem_append_right _ (closedFrom member)))
    with ⟨closedLines, wroteClosed, closedAre, closedRead⟩
  refine ⟨keptLines, closedLines, ?_, wroteClosed, ?_⟩
  · rw [mapM_writeUnigram (fun entry member => table.unigram entry (keptFrom member)), wroteKept]
  · rw [← List.flatten_append, entries_flatten, List.map_append, keptRead, closedRead]
    intro line member
    rcases List.mem_append.mp member with inKept | inClosed
    · exact keptAre line inKept
    · exact closedAre line inClosed

theorem CountsTable.scan_eq (table : CountsTable combined_counts unigrams ngrams) :
    scanLines max_unigrams (entries combined_counts) .start =
      scanLines max_unigrams ngrams (.behind unigrams) := by
  rw [table.lines]
  exact scanLines_unigrams table.unigram [] ngrams

/-- What is written for a scan that has not taken over the whole table. -/
theorem pruneCounts_rewritten {scan : Scan}
    (scanned : scanLines max_unigrams (entries combined_counts) .start = some scan)
    (rejected : scan.include_all = false) {keptLines closedLines : List (List Char)}
    (wroteKept : scan.kept_unigrams.mapM writeUnigram = some keptLines)
    (wroteClosed : scan.higher_ngrams.mapM writeNgram = some closedLines) :
    pruneCounts max_unigrams combined_counts =
      some (keptLines.flatten ++ closedLines.flatten) := by
  unfold pruneCounts
  rw [scanned]
  simp only [Option.bind_eq_bind, Option.bind_some, rejected, Bool.false_eq_true, if_false,
    wroteKept, wroteClosed]

/-- A table of unigrams only is written again whole, whatever the limit. -/
theorem pruneCounts_unigramsOnly (table : CountsTable combined_counts unigrams []) :
    ∃ output, pruneCounts max_unigrams combined_counts = some output ∧
      entries output = unigrams := by
  rcases table.writes (List.Subset.refl _) (List.Subset.refl _)
    with ⟨keptLines, closedLines, wroteKept, wroteClosed, read⟩
  exact ⟨_, pruneCounts_rewritten table.scan_eq rfl wroteKept wroteClosed,
    read.trans (List.append_nil _)⟩

/-- A table with few unigrams is copied. -/
theorem pruneCounts_copied (table : CountsTable combined_counts unigrams ngrams)
    (higher : ngrams ≠ []) (few : unigrams.length ≤ max_unigrams) :
    pruneCounts max_unigrams combined_counts = some combined_counts := by
  rcases List.exists_cons_of_ne_nil higher with ⟨gram, others, rfl⟩
  unfold pruneCounts
  rw [table.scan_eq, scanLines_behind (table.ngram gram List.mem_cons_self), if_pos few]
  simp only [Option.bind_eq_bind, Option.bind_some, if_true]
  rw [tableLines, WittenBell.readLines_complete _ _ (Nat.le_refl _)]

/-- A table with more unigrams is cut, and its n-grams are filtered. -/
theorem pruneCounts_cut (table : CountsTable combined_counts unigrams ngrams)
    (higher : ngrams ≠ []) (many : max_unigrams < unigrams.length) :
    ∃ output kept dropped, pruneCounts max_unigrams combined_counts = some output ∧
      TopUnigrams max_unigrams unigrams kept dropped ∧
      entries output = kept ++ closedNgrams kept ngrams := by
  rcases cutUnigrams_top max_unigrams (fun entry member =>
    table.counted entry (List.mem_append_left _ member)) with ⟨kept, dropped, top, cut⟩
  have keptFrom : kept ⊆ unigrams := by
    intro entry member
    exact top.parts.mem_iff.mpr (List.mem_append_left _ member)
  have scanned : scanLines max_unigrams (entries combined_counts) .start =
      some (.limited kept (closedNgrams kept ngrams)) := by
    rcases List.exists_cons_of_ne_nil higher with ⟨gram, others, rfl⟩
    have others_long : ∀ entry ∈ others, 3 ≤ entry.length :=
      fun entry member => table.ngram entry (List.mem_cons_of_mem gram member)
    rw [table.scan_eq, scanLines_behind (table.ngram gram List.mem_cons_self),
      if_neg (Nat.not_le_of_lt many), cut, Option.bind_some, addNgram_limited,
      scanLines_ngrams others_long, List.nil_append, ← closedNgrams_cons]
  rcases table.writes keptFrom (List.filter_subset_self ngrams)
    with ⟨keptLines, closedLines, wroteKept, wroteClosed, read⟩
  exact ⟨_, kept, dropped, pruneCounts_rewritten scanned rfl wroteKept wroteClosed, top, read⟩

/-! ### Exactness -/

theorem topUnigrams_all (few : unigrams.length ≤ max_unigrams) :
    TopUnigrams max_unigrams unigrams unigrams [] := by
  constructor
  · rw [List.append_nil]
  · exact (Nat.min_eq_right few).symm
  · intro first _ second member
    cases member

theorem TopUnigrams.perm {kept dropped : List Entry}
    (top : TopUnigrams max_unigrams unigrams kept dropped) (few : unigrams.length ≤ max_unigrams) :
    unigrams.Perm kept := by
  have lengths := top.parts.length_eq
  rw [List.length_append, top.size, Nat.min_eq_right few] at lengths
  have noneDropped : dropped = [] := List.eq_nil_of_length_eq_zero (by omega)
  have parts := top.parts
  rwa [noneDropped, List.append_nil] at parts

theorem good_iff {words : List Word} {gram : Entry} :
    good words gram = true ↔ ∀ word ∈ gram.dropLast, word ∈ words := by
  simp [good]

theorem unigramWords_perm {left right : List Entry} (perm : left.Perm right) (word : Word) :
    word ∈ unigramWords left ↔ word ∈ unigramWords right := (perm.filterMap _).mem_iff

theorem copied_exact_iff (table : CountsTable combined_counts unigrams ngrams)
    (higher : ngrams ≠ []) (few : unigrams.length ≤ max_unigrams) :
    PrunesExactly max_unigrams combined_counts unigrams ngrams ↔
      ∀ gram ∈ ngrams, ∀ word ∈ gram.dropLast, word ∈ unigramWords unigrams := by
  constructor
  · rintro ⟨output, kept, dropped, pruned, top, same⟩ gram member word inGram
    rw [pruneCounts_copied table higher few] at pruned
    cases pruned
    rw [table.lines] at same
    have keptAll := top.perm few
    have lengths := same.length_eq
    rw [List.length_append, List.length_append, keptAll.length_eq] at lengths
    have closed : good (unigramWords kept) gram = true :=
      List.length_filter_eq_length_iff.mp (Nat.add_left_cancel lengths).symm gram member
    exact (unigramWords_perm keptAll word).mpr (good_iff.mp closed word inGram)
  · intro listed
    refine ⟨combined_counts, unigrams, [], pruneCounts_copied table higher few,
      topUnigrams_all few, ?_⟩
    have closed : closedNgrams unigrams ngrams = ngrams :=
      List.filter_eq_self.mpr (fun gram member => good_iff.mpr (listed gram member))
    rw [closed, table.lines]

theorem not_exact_of_unigramsOnly (table : CountsTable combined_counts unigrams [])
    (many : max_unigrams < unigrams.length) :
    ¬ PrunesExactly max_unigrams combined_counts unigrams [] := by
  rintro ⟨output, kept, dropped, pruned, top, same⟩
  rcases @pruneCounts_unigramsOnly max_unigrams combined_counts unigrams table
    with ⟨whole, wrote, read⟩
  rw [wrote] at pruned
  cases pruned
  have lengths := same.length_eq
  rw [read, closedNgrams, List.filter_nil, List.append_nil, top.size,
    Nat.min_eq_left (Nat.le_of_lt many)] at lengths
  omega

/-- The limit is kept exactly when a longer list of unigrams has n-grams behind it, and the
n-grams behind a shorter one have no other words. -/
theorem pruneCounts_exact_iff (max_unigrams : Nat) (combined_counts : List Char)
    (unigrams ngrams : List Entry) (table : CountsTable combined_counts unigrams ngrams) :
    PrunesExactly max_unigrams combined_counts unigrams ngrams ↔
      (max_unigrams < unigrams.length → ngrams ≠ []) ∧
      (unigrams.length ≤ max_unigrams →
        ∀ gram ∈ ngrams, ∀ word ∈ gram.dropLast, word ∈ unigramWords unigrams) := by
  rcases Nat.lt_or_ge max_unigrams unigrams.length with many | few
  · by_cases higher : ngrams = []
    · subst higher
      exact iff_of_false (not_exact_of_unigramsOnly table many)
        (fun conditions => conditions.1 many rfl)
    · rcases pruneCounts_cut table higher many with ⟨output, kept, dropped, pruned, top, read⟩
      refine iff_of_true ⟨output, kept, dropped, pruned, top, ?_⟩
        ⟨fun _ => higher, fun few => absurd many (Nat.not_lt_of_le few)⟩
      rw [read]
  · have bounded : max_unigrams < unigrams.length → ngrams ≠ [] :=
      fun many => absurd many (Nat.not_lt_of_le few)
    by_cases higher : ngrams = []
    · subst higher
      rcases @pruneCounts_unigramsOnly max_unigrams combined_counts unigrams table
        with ⟨output, wrote, read⟩
      refine iff_of_true ⟨output, unigrams, [], wrote, topUnigrams_all few, ?_⟩ ⟨bounded, ?_⟩
      · rw [read, closedNgrams, List.filter_nil, List.append_nil]
      · intro _ gram member
        cases member
    · rw [copied_exact_iff table higher few]
      exact ⟨fun listed => ⟨bounded, fun _ => listed⟩, fun conditions => conditions.2 few⟩

def bigramTable : List Char := "a\t2\nb\t3\na b\t1\nb b\t1\n".toList

theorem bigramTable_counts :
    CountsTable bigramTable [[['a'], ['2']], [['b'], ['3']]]
      [[['a'], ['b'], ['1']], [['b'], ['b'], ['1']]] :=
  ⟨by decide +kernel, by decide, by decide, by decide +kernel⟩

theorem pruneCounts_exact_iff_bigrams :
    CountsTable bigramTable [[['a'], ['2']], [['b'], ['3']]]
        [[['a'], ['b'], ['1']], [['b'], ['b'], ['1']]] ∧
      (PrunesExactly 1 bigramTable [[['a'], ['2']], [['b'], ['3']]]
          [[['a'], ['b'], ['1']], [['b'], ['b'], ['1']]] ↔ True) :=
  ⟨bigramTable_counts,
    (pruneCounts_exact_iff 1 _ _ _ bigramTable_counts).trans (by decide)⟩

def unigramTable : List Char := "a\t2\nb\t1\n".toList

theorem unigramTable_counts :
    CountsTable unigramTable [[['a'], ['2']], [['b'], ['1']]] [] :=
  ⟨by decide +kernel, by decide, by decide, by decide +kernel⟩

/-- A table without n-grams of a higher order keeps both of its unigrams under the limit 1. -/
theorem unigramTable_uncut :
    pruneCounts 1 unigramTable = some unigramTable ∧
      ¬ PrunesExactly 1 unigramTable [[['a'], ['2']], [['b'], ['1']]] [] :=
  ⟨by decide +kernel, not_exact_of_unigramsOnly unigramTable_counts (by decide)⟩

end Pruning
