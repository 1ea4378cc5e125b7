/-
Counting in parts.

The counts files of the parts of a corpus, read into one model, give the counts of the
whole corpus: each row is read back as the n-gram and the number that were written, the
shorter n-grams of a row are known from the rows before it, and between two files the
sort leaves a model that can go on counting.
-/

import DataSelection.Library.Loops
import DataSelection.Mitlm.CorpusCounts
import Mathlib.Data.List.TakeWhile

namespace Mitlm

open Library NgramModel

/-! ### Rows -/

/-- A word that a counts file can hold. -/
structure Plain (word : Word) : Prop where
  nonempty : word ≠ []
  noSpace : ∀ char ∈ word, isspace char = false
  noHash : word.head? ≠ some '#'
  ordinary : word ≠ Vocab.startSymbol

theorem noSpace_of_all {word : Word} (all : word.all (fun char => !isspace char) = true) :
    ∀ char ∈ word, isspace char = false := by
  intro char member
  have isOutside := List.all_eq_true.mp all char member
  rw [Bool.not_eq_true'] at isOutside
  exact isOutside

theorem plain_endSymbol : Plain Vocab.endSymbol := by
  constructor
  · exact List.cons_ne_nil _ _
  · exact noSpace_of_all rfl
  · intro impossible
    cases impossible
  · intro impossible
    cases impossible

theorem takeWhile_word {word : Word} (noSpace : ∀ char ∈ word, isspace char = false)
    {separator : Char} (isSpace : isspace separator = true) (rest : List Char) :
    (word ++ separator :: rest).takeWhile (fun char => !isspace char) = word := by
  rw [List.takeWhile_append_of_pos, List.takeWhile_cons_of_neg, List.append_nil]
  · rw [isSpace]
    decide
  · intro char member
    rw [noSpace char member]
    rfl

theorem readRow_word {order : Nat} {vocab added : Vocab} {words : List Nat} {index : Nat}
    {word : Word} (nonempty : word ≠ []) (noSpace : ∀ char ∈ word, isspace char = false)
    (room : words.length ≤ order) {separator : Char} (isSpace : isspace separator = true)
    (isAdded : vocab.add word = some (added, some index)) (rest : List Char) :
    readRow order vocab words (word ++ separator :: rest) =
      readRow order added (words ++ [index]) rest := by
  have token := takeWhile_word noSpace isSpace rest
  have isRest : (word ++ separator :: rest).drop (word.length + 1) = rest := by
    rw [List.drop_append, List.drop_eq_nil_of_le (Nat.le_succ _), Nat.add_sub_cancel_left]
    rfl
  rw [readRow, if_neg (by omega), token, if_neg (by
    rw [List.length_append, List.length_cons]
    omega), isRest, if_neg nonempty]
  simp only [isAdded]

theorem atoi_digits {digits : List Char} (areDigits : ∀ char ∈ digits, char.isDigit = true) :
    atoi digits = some (Nat.ofDigitChars 10 digits 0) := by
  have all : digits.takeWhile Char.isDigit = digits := List.takeWhile_eq_self_iff.mpr areDigits
  unfold atoi
  split
  · have impossible := areDigits '-' List.mem_cons_self
    cases impossible
  · have impossible := areDigits '+' List.mem_cons_self
    cases impossible
  · rw [all]

theorem not_isspace_of_isDigit {char : Char} (isDigit : char.isDigit = true) :
    isspace char = false := by
  by_contra isSpace
  rw [Bool.not_eq_false, isspace] at isSpace
  simp only [Bool.or_eq_true, decide_eq_true_eq] at isSpace
  rcases isSpace with ((((rfl | rfl) | rfl) | rfl) | rfl) | rfl <;> cases isDigit

theorem readRow_count {order : Nat} {vocab : Vocab} {words : List Nat}
    (room : words.length ≤ order) (count : Nat) :
    readRow order vocab words (Nat.toDigits 10 count) = some (vocab, some (words, count)) := by
  have areDigits : ∀ char ∈ Nat.toDigits 10 count, char.isDigit = true :=
    fun char member => Nat.isDigit_of_mem_toDigits (by omega) (by omega) member
  have token : (Nat.toDigits 10 count).takeWhile (fun char => !isspace char) =
      Nat.toDigits 10 count := by
    refine List.takeWhile_eq_self_iff.mpr ?_
    intro char member
    rw [not_isspace_of_isDigit (areDigits char member)]
    rfl
  rw [readRow, if_neg (by omega), token, if_pos (Nat.le_refl _), atoi_digits areDigits,
    Nat.ofDigitChars_ten_toDigits, Option.map_some]

/-- A row is read as it was written. -/
theorem readRow_writeRow {order : Nat} {vocab : Vocab} (isOpen : vocab.Open) {words : List Nat}
    {gram : List Word} (nonempty : gram ≠ [])
    (plain : ∀ word ∈ gram, word ≠ [] ∧ ∀ char ∈ word, isspace char = false)
    (room : words.length + gram.length ≤ order) (count : Nat) :
    ∃ added ids, readRow order vocab words (writeRow (gram, count)) =
        some (added, some (words ++ ids, count)) ∧
      added.Open ∧ vocab.words.entries <+: added.words.entries ∧
      Spells added.words.entries ids (gram.map Vocab.normal) := by
  induction gram generalizing vocab words with
  | nil => exact absurd rfl nonempty
  | cons word gram ih =>
      obtain ⟨isWord, noSpace⟩ := plain word List.mem_cons_self
      rw [List.length_cons] at room
      obtain ⟨first, index, isAdded, openFirst, entered, found⟩ := isOpen.add_eq word
      have longerFirst : vocab.words.entries <+: first.words.entries := by
        rw [entered]
        exact HashVector.prefix_enter
      cases gram with
      | nil =>
          have isText : writeRow ([word], count) = word ++ '\t' :: Nat.toDigits 10 count := by
            rw [writeRow, Nat.toList_repr, List.intercalate_singleton]
          refine ⟨first, [index], ?_, openFirst, longerFirst,
            List.Forall₂.cons found List.Forall₂.nil⟩
          rw [isText, readRow_word isWord noSpace (by omega) rfl isAdded]
          exact readRow_count (by rw [List.length_append, List.length_singleton]; omega) count
      | cons second gram =>
          have isText : writeRow (word :: second :: gram, count) =
              word ++ ' ' :: writeRow (second :: gram, count) := by
            rw [writeRow, writeRow, List.intercalate_cons_cons, List.append_assoc,
              List.append_assoc]
            rfl
          have roomLater : (words ++ [index]).length + (second :: gram).length ≤ order := by
            rw [List.length_append, List.length_singleton]
            omega
          obtain ⟨last, ids, ran, openLast, longer, spells⟩ :=
            ih openFirst (List.cons_ne_nil _ _)
              (fun other member => plain other (List.mem_cons_of_mem word member)) roomLater
          refine ⟨last, index :: ids, ?_, openLast, longerFirst.trans longer,
            List.Forall₂.cons (HashVector.getElem?_of_prefix longer found) spells⟩
          rw [isText, readRow_word isWord noSpace (by omega) rfl isAdded, ran, List.append_assoc]
          rfl

theorem normal_shown {gram : List Word} (ordinary : ∀ word ∈ gram, word ≠ Vocab.startSymbol) :
    (shown gram).map Vocab.normal = gram := by
  have same : ∀ words : List Word, (∀ word ∈ words, word ≠ Vocab.startSymbol) →
      words.map Vocab.normal = words := by
    intro words areOrdinary
    exact (List.map_congr_left (fun word member => if_neg (areOrdinary word member))).trans
      (List.map_id words)
  cases gram with
  | nil => rfl
  | cons first rest =>
      rw [shown, List.map_cons, same rest (fun word member =>
        ordinary word (List.mem_cons_of_mem first member))]
      split
      · next isEnd =>
          rw [isEnd]
          rfl
      · rw [Vocab.normal, if_neg (ordinary first List.mem_cons_self)]

theorem plain_shown {gram : List Word} (plain : ∀ word ∈ gram, Plain word) :
    ∀ word ∈ shown gram, word ≠ [] ∧ ∀ char ∈ word, isspace char = false := by
  cases gram with
  | nil =>
      intro word member
      cases member
  | cons first rest =>
      intro word member
      rcases List.mem_cons.mp member with rfl | later
      · split
        · exact ⟨List.cons_ne_nil _ _, noSpace_of_all rfl⟩
        · have isPlain := plain first List.mem_cons_self
          exact ⟨isPlain.nonempty, isPlain.noSpace⟩
      · have isPlain := plain word (List.mem_cons_of_mem first later)
        exact ⟨isPlain.nonempty, isPlain.noSpace⟩

theorem exists_writeRow (word : Word) (rest : List Word) (count : Nat) :
    ∃ tail, writeRow (word :: rest, count) = word ++ tail := by
  rw [writeRow]
  cases rest with
  | nil =>
      rw [List.intercalate_singleton]
      exact ⟨_, rfl⟩
  | cons second rest =>
      rw [List.intercalate_cons_cons, List.append_assoc, List.append_assoc]
      exact ⟨_, rfl⟩

theorem writeRow_read {gram : List Word} (nonempty : gram ≠ []) (plain : ∀ word ∈ gram, Plain word)
    (count : Nat) :
    ¬(writeRow (shown gram, count) = [] ∨ (writeRow (shown gram, count)).head? = some '#') := by
  cases gram with
  | nil => exact absurd rfl nonempty
  | cons first rest =>
      have isPlain := plain first List.mem_cons_self
      obtain ⟨word, isWord⟩ : ∃ word,
          word = if first = Vocab.endSymbol then Vocab.startSymbol else first := ⟨_, rfl⟩
      obtain ⟨filled, isHash⟩ : word ≠ [] ∧ word.head? ≠ some '#' := by
        rw [isWord]
        split
        · decide
        · exact ⟨isPlain.nonempty, isPlain.noHash⟩
      obtain ⟨tail, isText⟩ := exists_writeRow word rest count
      rw [shown, ← isWord, isText]
      cases word with
      | nil => exact absurd rfl filled
      | cons char chars =>
          rintro (impossible | isFirst)
          · cases impossible
          · exact isHash isFirst

theorem notMem_intercalate {char : Char} {words : List Word} (other : char ≠ ' ')
    (absent : ∀ word ∈ words, char ∉ word) : char ∉ [' '].intercalate words := by
  induction words with
  | nil => exact List.not_mem_nil
  | cons first rest ih =>
      have isFirst := absent first List.mem_cons_self
      cases rest with
      | nil =>
          rw [List.intercalate_singleton]
          exact isFirst
      | cons second rest =>
          rw [List.intercalate_cons_cons, List.mem_append, List.mem_append, List.mem_singleton]
          rintro ((here | isBlank) | later)
          · exact isFirst here
          · exact other isBlank
          · exact ih (fun word member => absent word (List.mem_cons_of_mem first member)) later

theorem newline_notMem_writeRow {gram : List Word} (plain : ∀ word ∈ gram, Plain word) (count : Nat) :
    '\n' ∉ writeRow (shown gram, count) := by
  rw [writeRow, List.mem_append, List.mem_cons, Nat.toList_repr]
  rintro (inWords | isTab | inCount)
  · refine notMem_intercalate (by decide) ?_ inWords
    intro word member here
    have isOutside := (plain_shown plain word member).2 '\n' here
    cases isOutside
  · cases isTab
  · have isDigit := Nat.isDigit_of_mem_toDigits (by omega) (by omega) inCount
    cases isDigit

theorem length_writeRow_singleton (word : Word) (count : Nat) :
    (writeRow ([word], count)).length = word.length + 1 + (Nat.toDigits 10 count).length := by
  rw [writeRow, List.intercalate_singleton, List.length_append, List.length_cons, Nat.toList_repr,
    Nat.add_right_comm, Nat.add_assoc]

theorem length_writeRow_le (words : List Word) {few more : Nat} (atMost : few ≤ more) :
    (writeRow (words, few)).length ≤ (writeRow (words, more)).length := by
  have digits : (Nat.toDigits 10 few).length ≤ (Nat.toDigits 10 more).length := by
    rw [Nat.length_toDigits_le_iff (by omega) Nat.length_toDigits_pos]
    exact Nat.lt_of_le_of_lt atMost
      ((Nat.length_toDigits_le_iff (by omega) Nat.length_toDigits_pos).mp (Nat.le_refl _))
  rw [writeRow, writeRow, List.length_append, List.length_append, List.length_cons, List.length_cons,
    Nat.toList_repr, Nat.toList_repr]
  exact Nat.add_le_add_left (Nat.succ_le_succ digits) _

/-! ### One row -/

def credit (tally : List Word → Nat) (gram : List Word) (count : Nat) (other : List Word) : Nat :=
  tally other + if other = gram then count else 0

section

variable {words : List Word} {tally : List Word → Nat} {order : Nat} {below : List (List Word)}

theorem Level.Holds.revisit {level : Level} (holds : level.Holds words below order tally)
    (base : Base words order below) {hist word : Nat} {front : List Word} {last : Word}
    (isFront : below[hist]? = some front) (isLast : words[word]? = some last)
    (present : front ++ [last] ∈ gramsOf words below level.vector) :
    ∃ vector index isNew, level.vector.add hist word = some (vector, index, isNew) ∧
      Level.Holds words below order tally { level with vector := vector } ∧
      gramsOf words below vector = gramsOf words below level.vector ∧
      (gramsOf words below vector)[index]? = some (front ++ [last]) := by
  obtain ⟨vector, index, isNew, added, valid, entered, found, _⟩ :=
    holds.valid.exists_add (hist, word)
  obtain ⟨formed, isGrams⟩ := holds.formed.enter base entered isFront isLast level.counts
  rw [HashVector.enter, if_pos present] at isGrams
  refine ⟨vector, index, isNew, added, ⟨valid, ⟨formed.distinct, formed.hist, formed.word⟩, ?_⟩,
    isGrams, getElem?_gramsOf found isFront isLast⟩
  show Level.Counted (gramsOf words below vector) order tally _
  rw [isGrams]
  have counted := holds.counted
  constructor
  · exact counted.filled
  · exact counted.fits
  · exact counted.unused
  · exact counted.count
  · exact counted.listed
  · exact counted.seen
  · exact counted.led

/-- A row counts its n-gram; its beginnings are there already. -/
theorem addRow_eq {count : Nat} (positive : 0 < count) {ids : List Nat}
    {rest : List Word} (spells : Spells words ids rest) (nonempty : rest ≠ [])
    {front : List Word} {hist : Nat} (isFront : below[hist]? = some front) {levels : List Level}
    (holds : LevelsHold words tally order below levels) (base : Base words order below)
    (fits : rest.length ≤ levels.length)
    (known : ∀ width, 0 < width → width < rest.length → 0 < tally (front ++ rest.take width))
    (opens : (∃ other : List Word, other.length = (front ++ rest).length ∧ 0 < tally other) ∨
      Starts (front ++ rest)) :
    ∃ after, addRow count hist ids levels = some after ∧
      LevelsHold words (credit tally (front ++ rest) count) order below after ∧
      after.length = levels.length := by
  induction spells generalizing order below front hist levels with
  | nil => exact absurd rfl nonempty
  | @cons id word ids rest isWord later ih =>
      cases levels with
      | nil => cases fits
      | cons level levels =>
          obtain ⟨holdsLevel, holdsLater⟩ := holds
          have frontLength := base.lengths front (List.mem_of_getElem? isFront)
          cases later with
          | nil =>
              have isOrder : (front ++ [word]).length = order := by
                rw [List.length_append, List.length_singleton]
                exact frontLength
              have raised : Raised tally (credit tally (front ++ [word]) count) order
                  (front ++ [word]) count := by
                constructor
                · rw [credit, if_pos rfl]
                · intro other _ different
                  rw [credit, if_neg different, Nat.add_zero]
              obtain ⟨added, index, isRaised, holdsAdded, longer, _⟩ :=
                holdsLevel.raise_eq base isFront isWord raised positive (by
                  intro isEmpty
                  rcases opens with ⟨other, isLength, counted⟩ | starts
                  · have listed := holdsLevel.counted.listed other (isLength.trans isOrder) counted
                    rw [isEmpty] at listed
                    cases listed
                  · exact starts)
              refine ⟨added :: levels, ?_, ⟨holdsAdded, ?_⟩, rfl⟩
              · simp only [addRow, isRaised, Option.bind_eq_bind, Option.bind_some]
              · refine (holdsLater.longer (List.prefix_refl words) longer).congr
                  (holdsAdded.formed.base base) ?_
                intro other isLong _
                rw [credit, if_neg, Nat.add_zero]
                rintro rfl
                omega
          | @cons second next ids rest isNext later =>
              have counted := known 1 Nat.one_pos (by simp only [List.length_cons]; omega)
              have isOrder : (front ++ [word]).length = order := by
                rw [List.length_append, List.length_singleton]
                exact frontLength
              have present := holdsLevel.counted.listed (front ++ [word]) isOrder counted
              obtain ⟨vector, index, isNew, isAdded, holdsSame, sameGrams, isIndex⟩ :=
                holdsLevel.revisit base isFront isWord present
              have whole : front ++ word :: next :: rest = front ++ [word] ++ next :: rest := by
                rw [List.append_assoc, List.singleton_append]
              rw [whole] at opens ⊢
              have holdsOver : LevelsHold words tally (order + 1) (gramsOf words below vector)
                  levels := by
                rw [sameGrams]
                exact holdsLater
              obtain ⟨after, ran, holdsAfter, sameLength⟩ :=
                ih (List.cons_ne_nil _ _) isIndex holdsOver (holdsSame.formed.base base)
                  (Nat.le_of_succ_le_succ fits) (by
                    intro width isPositive within
                    have before := known (width + 1) (Nat.succ_pos width)
                      (by simp only [List.length_cons] at within ⊢; omega)
                    rw [List.take_succ_cons] at before
                    rw [List.append_assoc, List.singleton_append]
                    exact before) opens
              refine ⟨{ level with vector := vector } :: after, ?_, ⟨?_, holdsAfter⟩,
                congrArg Nat.succ sameLength⟩
              · simp only [addRow, isAdded, ran, Option.bind_eq_bind, Option.bind_some]
              · refine holdsSame.congr base ?_
                intro other isOther
                rw [credit, if_neg, Nat.add_zero]
                rintro rfl
                simp only [List.length_append, List.length_cons] at isOther
                omega

end

/-- A row that a model can take: its n-gram has known beginnings and is not the first of its
order, or begins a sentence. -/
structure Takes (order : Nat) (tally : List Word → Nat) (gram : List Word) : Prop where
  nonempty : gram ≠ []
  within : gram.length ≤ order
  plain : ∀ word ∈ gram, Plain word
  known : ∀ width, 0 < width → width < gram.length → 0 < tally (gram.take width)
  opens : (∃ other : List Word, other.length = gram.length ∧ 0 < tally other) ∨ Starts gram

theorem Tallied.loadRow_eq {order : Nat} {tally : List Word → Nat} {model : NgramModel}
    (tallied : Tallied order tally model) {gram : List Word} (takes : Takes order tally gram)
    {count : Nat} (positive : 0 < count) :
    ∃ after, loadRow model (writeRow (shown gram, count)) = some after ∧
      Tallied order (credit tally gram count) after := by
  have nonempty : shown gram ≠ [] := by
    have filled := takes.nonempty
    cases gram with
    | nil => exact absurd rfl filled
    | cons first rest => exact List.cons_ne_nil _ _
  have isWidth : (shown gram).length = gram.length := by
    cases gram with
    | nil => rfl
    | cons first rest => rfl
  obtain ⟨vocab, ids, isRead, isOpen, longer, spells⟩ :=
    @readRow_writeRow model.levels.length _ tallied.isOpen [] _ nonempty
      (plain_shown takes.plain) (by
        rw [List.length_nil, Nat.zero_add, isWidth, tallied.orders]
        exact takes.within) count
  rw [normal_shown (fun word member => (takes.plain word member).ordinary)] at spells
  have distinct : vocab.words.entries.Nodup := isOpen.valid.holds.distinct
  have holds := tallied.levels.longer longer (List.prefix_refl [[]])
  have isEmpty : ([[]] : List (List Word))[0]? = some [] := rfl
  obtain ⟨levels, ran, holdsAfter, sameLength⟩ :=
    addRow_eq positive spells takes.nonempty isEmpty holds
      (base_nil distinct) (by rw [tallied.orders]; exact takes.within) takes.known takes.opens
  refine ⟨{ model with vocab := vocab, levels := levels }, ?_, isOpen, holdsAfter,
    sameLength.trans tallied.orders⟩
  rw [loadRow, if_neg (writeRow_read takes.nonempty takes.plain count), isRead]
  simp only [List.nil_append, ran, Option.map_some]

/-! ### One file -/

theorem Tallied.congr {order : Nat} {tally after : List Word → Nat} {model : NgramModel}
    (tallied : Tallied order tally model)
    (same : ∀ gram : List Word, 0 < gram.length → gram.length ≤ order → after gram = tally gram) :
    Tallied order after model := by
  have distinct : model.vocab.words.entries.Nodup := tallied.isOpen.valid.holds.distinct
  refine ⟨tallied.isOpen, tallied.levels.congr (base_nil distinct) ?_, tallied.orders⟩
  intro gram long short
  rw [tallied.orders] at short
  exact same gram long (by omega)

/-- What a counts file can hold: all words are plain, and a counted n-gram has counted parts. -/
structure Countable (counts : List Word → Nat) : Prop where
  plain : ∀ gram, gram ≠ [] → 0 < counts gram → ∀ word ∈ gram, Plain word
  take : ∀ gram width, 0 < width → 0 < counts gram → width ≤ gram.length →
    0 < counts (gram.take width)
  tail : ∀ gram, 0 < counts gram → 2 ≤ gram.length → 0 < counts gram.tail

/-- All rows up to an order fit into the buffer that they are read into. -/
def Narrow (order : Nat) (counts : List Word → Nat) : Prop :=
  ∀ gram, gram ≠ [] → gram.length ≤ order → 0 < counts gram →
    (writeRow (shown gram, counts gram)).length ≤ maxLine - 2

theorem Narrow.mono {order : Nat} {fewer counts : List Word → Nat} (narrow : Narrow order counts)
    (atMost : ∀ gram, fewer gram ≤ counts gram) : Narrow order fewer := by
  intro gram nonempty within counted
  exact (length_writeRow_le _ (atMost gram)).trans
    (narrow gram nonempty within (Nat.lt_of_lt_of_le counted (atMost gram)))

/-! ### Selected rows -/

def filterLines (isChosen : List Char → Bool) (file : List Char) : List Char :=
  writeLines ((records '\n' file).filter isChosen)

theorem filterLines_all {file : List Char} (ended : Ended '\n' file) :
    filterLines (fun _ => true) file = file := by
  rw [filterLines, List.filter_true, writeLines_records ended]

/-- A choice of rows that only looks at their words.  With an n-gram it chooses its parts. -/
structure Selection where
  row : List Char → Bool
  gram : List Word → Bool
  agree : ∀ words count, words ≠ [] → (∀ word ∈ words, Plain word) →
    row (writeRow (shown words, count)) = gram words
  take : ∀ words width, 0 < width → gram words = true → gram (words.take width) = true
  tail : ∀ words, 2 ≤ words.length → gram words = true → gram words.tail = true

def Selection.all : Selection :=
  { row := fun _ => true
    gram := fun _ => true
    agree := fun _ _ _ _ => rfl
    take := fun _ _ _ _ => rfl
    tail := fun _ _ _ => rfl }

def Selection.counts (selection : Selection) (counts : List Word → Nat) (gram : List Word) : Nat :=
  if selection.gram gram then counts gram else 0

theorem Selection.counts_of {selection : Selection} {counts : List Word → Nat} {gram : List Word}
    (isChosen : selection.gram gram = true) : selection.counts counts gram = counts gram :=
  if_pos isChosen

theorem Selection.counts_le (selection : Selection) (counts : List Word → Nat) (gram : List Word) :
    selection.counts counts gram ≤ counts gram := by
  rw [Selection.counts]
  split
  · exact Nat.le_refl _
  · exact Nat.zero_le _

theorem Selection.counts_pos_iff {selection : Selection} {counts : List Word → Nat}
    {gram : List Word} :
    0 < selection.counts counts gram ↔ selection.gram gram = true ∧ 0 < counts gram := by
  rw [Selection.counts]
  split
  · next isChosen => simp [isChosen]
  · next others => simp [others]

theorem Selection.counts_nil (selection : Selection) (gram : List Word) :
    selection.counts (total []) gram = 0 := by
  rw [Selection.counts]
  split
  · rfl
  · rfl

theorem Selection.counts_append (selection : Selection) (first second : List (List Char))
    (gram : List Word) :
    selection.counts (total (first ++ second)) gram =
      selection.counts (total first) gram + selection.counts (total second) gram := by
  rw [Selection.counts, Selection.counts, Selection.counts]
  split
  · exact total_append first second gram
  · rfl

theorem Selection.countable (selection : Selection) {counts : List Word → Nat}
    (countable : Countable counts) : Countable (selection.counts counts) := by
  constructor
  · intro gram nonempty counted
    exact countable.plain gram nonempty (counts_pos_iff.mp counted).2
  · intro gram width positive counted within
    obtain ⟨isChosen, isCounted⟩ := counts_pos_iff.mp counted
    exact counts_pos_iff.mpr ⟨selection.take gram width positive isChosen,
      countable.take gram width positive isCounted within⟩
  · intro gram counted long
    obtain ⟨isChosen, isCounted⟩ := counts_pos_iff.mp counted
    exact counts_pos_iff.mpr ⟨selection.tail gram long isChosen, countable.tail gram isCounted long⟩

section

variable {order : Nat} {tally counts : List Word → Nat} {model : NgramModel}

theorem Tallied.loadRows_eq (tallied : Tallied order tally model) (countable : Countable counts)
    {width : Nat} (positive : 0 < width) (within : width ≤ order) {grams : List (List Word)}
    (distinct : grams.Nodup) (isWidth : ∀ gram ∈ grams, gram.length = width)
    (counted : ∀ gram ∈ grams, 0 < counts gram)
    (known : ∀ gram ∈ grams, ∀ shorter, 0 < shorter → shorter < width →
      0 < tally (gram.take shorter))
    (opens : (∃ other : List Word, other.length = width ∧ 0 < tally other) ∨
      ∀ gram ∈ grams.head?, Starts gram) :
    ∃ after,
      (grams.map (fun gram => writeRow (shown gram, counts gram))).foldlM loadRow model =
        some after ∧
      Tallied order (fun gram => tally gram + grams.count gram * counts gram) after := by
  induction grams generalizing tally model with
  | nil =>
      refine ⟨model, rfl, tallied.congr ?_⟩
      intro gram _ _
      rw [List.count_nil, Nat.zero_mul, Nat.add_zero]
  | cons gram grams ih =>
      obtain ⟨isNew, distinctLater⟩ := List.nodup_cons.mp distinct
      have isHere : gram ∈ gram :: grams := List.mem_cons_self
      have isLength := isWidth gram isHere
      have takes : Takes order tally gram := by
        constructor
        · exact List.ne_nil_of_length_pos (by omega)
        · omega
        · exact countable.plain gram (List.ne_nil_of_length_pos (by omega)) (counted gram isHere)
        · intro shorter isPositive isShorter
          exact known gram isHere shorter isPositive (by omega)
        · rcases opens with ⟨other, isOther, isCounted⟩ | starts
          · exact Or.inl ⟨other, isOther.trans isLength.symm, isCounted⟩
          · exact Or.inr (starts gram rfl)
      obtain ⟨next, isNext, talliedNext⟩ := tallied.loadRow_eq takes (counted gram isHere)
      have more : ∀ other, tally other ≤ credit tally gram (counts gram) other :=
        fun other => Nat.le_add_right _ _
      obtain ⟨after, ran, talliedAfter⟩ :=
        ih talliedNext distinctLater
          (fun other member => isWidth other (List.mem_cons_of_mem gram member))
          (fun other member => counted other (List.mem_cons_of_mem gram member))
          (fun other member shorter isPositive isShorter =>
            Nat.lt_of_lt_of_le
              (known other (List.mem_cons_of_mem gram member) shorter isPositive isShorter)
              (more _))
          (Or.inl ⟨gram, isLength, by
            rw [credit, if_pos rfl]
            exact Nat.add_pos_right _ (counted gram isHere)⟩)
      refine ⟨after, ?_, talliedAfter.congr ?_⟩
      · rw [List.map_cons, List.foldlM_cons, isNext]
        exact ran
      · intro other _ _
        rw [credit]
        by_cases isGram : other = gram
        · subst isGram
          rw [if_pos rfl, List.count_cons_self, List.count_eq_zero_of_not_mem isNew, Nat.zero_mul,
            Nat.one_mul, Nat.add_zero]
        · rw [if_neg isGram, Nat.add_zero, List.count_cons_of_ne (Ne.symm isGram)]

theorem NgramModel.Sorted.rows_eq {saved : NgramModel}
    (ordered : saved.Sorted order order counts) :
    saved.rows = (List.range order).flatMap (fun width =>
      (gramsAt saved.vocab.words.entries (width + 1) [[]] saved.levels).map
        (fun gram => writeRow (shown gram, counts gram))) := by
  have distinct : saved.vocab.words.entries.Nodup := ordered.isOpen.valid.holds.distinct
  rw [NgramModel.rows, ordered.orders, List.map_flatMap, List.flatMap_def, List.flatMap_def]
  congr 1
  apply List.map_congr_left
  intro width member
  have inside : width < saved.levels.length := by
    rw [ordered.orders]
    exact List.mem_range.mp member
  rw [countRows_eq distinct ordered.isOpen.first ordered.levels.listed inside, List.map_map]
  rfl

theorem NgramModel.Sorted.grams {saved : NgramModel} (ordered : saved.Sorted order order counts)
    (endCounted : 0 < counts [Vocab.endSymbol]) {width : Nat} (within : width < order) :
    (gramsAt saved.vocab.words.entries (width + 1) [[]] saved.levels).Nodup ∧
      ∀ gram, gram ∈ gramsAt saved.vocab.words.entries (width + 1) [[]] saved.levels ↔
        gram.length = width + 1 ∧ 0 < counts gram := by
  have represents := ordered.represents endCounted (Nat.succ_pos width) within
  exact ⟨represents.distinct, represents.counted⟩

/-- The rows of a counts file are lines, each of which fits into the buffer if all of them do. -/
theorem NgramModel.Sorted.unbroken {saved : NgramModel} (ordered : saved.Sorted order order counts)
    (countable : Countable counts) (endCounted : 0 < counts [Vocab.endSymbol]) :
    ∀ row ∈ saved.rows, '\n' ∉ row ∧ (Narrow order counts → row.length ≤ maxLine - 2) := by
  intro row member
  rw [ordered.rows_eq] at member
  obtain ⟨width, isWidth, isRow⟩ := List.mem_flatMap.mp member
  obtain ⟨gram, isGram, rfl⟩ := List.mem_map.mp isRow
  have within := List.mem_range.mp isWidth
  obtain ⟨isLength, counted⟩ := ((ordered.grams endCounted within).2 gram).mp isGram
  have nonempty := List.ne_nil_of_length_pos (show 0 < gram.length by omega)
  exact ⟨newline_notMem_writeRow (countable.plain gram nonempty counted) _,
    fun narrow => narrow gram nonempty (by omega) counted⟩

theorem NgramModel.Sorted.fronted {saved : NgramModel} (ordered : saved.Sorted order order counts)
    {width : Nat} (within : width < order) :
    Fronted (gramsAt saved.vocab.words.entries (width + 1) [[]] saved.levels) := by
  have inside : width < saved.levels.length := by
    rw [ordered.orders]
    exact within
  have isLevel := List.getElem?_eq_getElem inside
  rw [gramsAt_succ isLevel]
  exact (ordered.levels.ordered isLevel within).fronted

theorem Fronted.starts_head {grams : List (List Word)} (fronted : Fronted grams)
    {gram : List Word} (member : gram ∈ grams) (starts : Starts gram) :
    ∀ first ∈ grams.head?, Starts first := by
  intro first isFirst
  cases grams with
  | nil => cases isFirst
  | cons head rest =>
      obtain ⟨before, _⟩ := List.pairwise_cons.mp fronted
      rw [← Option.some.inj isFirst]
      rcases List.mem_cons.mp member with isHead | later
      · rw [← isHead]
        exact starts
      · exact before gram later starts

theorem Selection.filter_rows (selection : Selection) (countable : Countable counts)
    (endCounted : 0 < counts [Vocab.endSymbol]) {saved : NgramModel}
    (ordered : saved.Sorted order order counts) :
    saved.rows.filter selection.row = (List.range order).flatMap (fun width =>
      ((gramsAt saved.vocab.words.entries (width + 1) [[]] saved.levels).filter
        selection.gram).map (fun gram => writeRow (shown gram, selection.counts counts gram))) := by
  rw [ordered.rows_eq, List.filter_flatMap, List.flatMap_def, List.flatMap_def]
  congr 1
  apply List.map_congr_left
  intro width member
  obtain ⟨_, listed⟩ := ordered.grams endCounted (List.mem_range.mp member)
  rw [List.filter_map]
  have agrees : (gramsAt saved.vocab.words.entries (width + 1) [[]] saved.levels).filter
      (selection.row ∘ fun gram => writeRow (shown gram, counts gram)) =
        (gramsAt saved.vocab.words.entries (width + 1) [[]] saved.levels).filter
          selection.gram := by
    apply List.filter_congr
    intro gram isGram
    obtain ⟨isLength, counted⟩ := (listed gram).mp isGram
    have nonempty := List.ne_nil_of_length_pos (show 0 < gram.length by omega)
    exact selection.agree gram (counts gram) nonempty (countable.plain gram nonempty counted)
  rw [agrees]
  apply List.map_congr_left
  intro gram isGram
  rw [selection.counts_of (List.mem_filter.mp isGram).2]

theorem Selection.filterLines_saveCounts (selection : Selection) (countable : Countable counts)
    (endCounted : 0 < counts [Vocab.endSymbol]) {saved : NgramModel}
    (ordered : saved.Sorted order order counts) :
    filterLines selection.row saved.saveCounts = writeLines (saved.rows.filter selection.row) := by
  rw [filterLines, saveCounts, records_writeLines
    (fun row member => (ordered.unbroken countable endCounted row member).1)]

/-- A file with the row of the sentence ends and that of another word has its first eight bytes. -/
theorem Selection.eight_le (selection : Selection) (countable : Countable counts)
    (endCounted : 0 < counts [Vocab.endSymbol]) (endChosen : selection.gram [Vocab.endSymbol] = true)
    (kept : ∃ gram, gram ≠ [] ∧ 0 < selection.counts counts gram ∧ ¬Starts gram) (positive : 0 < order)
    {saved : NgramModel} (ordered : saved.Sorted order order counts) :
    8 ≤ (filterLines selection.row saved.saveCounts).length := by
  obtain ⟨gram, nonempty, counted, isInner⟩ := kept
  obtain ⟨isChosen, isCounted⟩ := counts_pos_iff.mp counted
  obtain ⟨word, rest, rfl⟩ := List.exists_cons_of_ne_nil nonempty
  have listed := (ordered.grams endCounted positive).2
  have size : ∀ words : List Word, (writeLines (words.map id)).length =
      (words.map (fun row => row.length + 1)).sum := by
    intro words
    rw [List.map_id, writeLines, List.length_flatMap]
    simp only [List.length_append, List.length_singleton]
  obtain ⟨grams, isGrams⟩ : ∃ grams, grams =
      (gramsAt saved.vocab.words.entries 1 [[]] saved.levels).filter selection.gram := ⟨_, rfl⟩
  have hasEnd : [Vocab.endSymbol] ∈ grams := by
    rw [isGrams]
    exact List.mem_filter.mpr ⟨(listed _).mpr ⟨rfl, endCounted⟩, endChosen⟩
  have hasWord : [word] ∈ grams := by
    rw [isGrams]
    exact List.mem_filter.mpr ⟨(listed _).mpr ⟨rfl, countable.take _ 1 Nat.one_pos isCounted
      (Nat.succ_le_succ (Nat.zero_le _))⟩, selection.take _ 1 Nat.one_pos isChosen⟩
  have different : [word] ≠ [Vocab.endSymbol] := by
    intro same
    exact isInner (by rw [List.singleton_injective same]; rfl)
  have isOther := List.singleton_injective.ne_iff.mp different
  have filled := (countable.plain _ nonempty isCounted word List.mem_cons_self).nonempty
  -- two rows of the first order
  have split : (writeRow (shown [word], selection.counts counts [word])).length + 1 +
      ((writeRow (shown [Vocab.endSymbol], selection.counts counts [Vocab.endSymbol])).length + 1) ≤
        (grams.map (fun gram =>
          (writeRow (shown gram, selection.counts counts gram)).length + 1)).sum := by
    have perm := ((List.perm_cons_erase hasWord).trans
      ((List.perm_cons_erase ((List.mem_erase_of_ne different.symm).mpr hasEnd)).cons _)).map
        (fun gram => (writeRow (shown gram, selection.counts counts gram)).length + 1)
    rw [perm.sum_eq, List.map_cons, List.map_cons, List.sum_cons, List.sum_cons]
    omega
  have longWord : 3 ≤ (writeRow (shown [word], selection.counts counts [word])).length := by
    rw [shown, if_neg isOther, length_writeRow_singleton]
    have wordLength := List.length_pos_of_ne_nil filled
    have digits := @Nat.length_toDigits_pos 10 (selection.counts counts [word])
    omega
  have longEnd : 5 ≤ (writeRow (shown [Vocab.endSymbol],
      selection.counts counts [Vocab.endSymbol])).length := by
    rw [shown, if_pos rfl, length_writeRow_singleton]
    have digits := @Nat.length_toDigits_pos 10 (selection.counts counts [Vocab.endSymbol])
    have isThree : Vocab.startSymbol.length = 3 := rfl
    omega
  obtain ⟨last, rfl⟩ : ∃ last, order = last + 1 := ⟨order - 1, by omega⟩
  rw [selection.filterLines_saveCounts countable endCounted ordered,
    selection.filter_rows countable endCounted ordered, List.range_succ_eq_map, List.flatMap_cons,
    ← isGrams, writeLines, List.flatMap_append, List.length_append, ← writeLines,
    ← List.map_id (grams.map _), size, List.map_map]
  have isSum : (grams.map ((fun row : List Char => row.length + 1) ∘ fun gram =>
      writeRow (shown gram, selection.counts counts gram))).sum = (grams.map (fun gram =>
        (writeRow (shown gram, selection.counts counts gram)).length + 1)).sum := rfl
  rw [isSum]
  omega

/-- The n-grams of one more order, each of them once. -/
theorem credit_width {width : Nat} {grams : List (List Word)} (distinct : grams.Nodup)
    (member : ∀ gram, gram ∈ grams ↔ gram.length = width + 1 ∧ 0 < counts gram) (gram : List Word) :
    (if gram.length ≤ width then counts gram else 0) + grams.count gram * counts gram =
      if gram.length ≤ width + 1 then counts gram else 0 := by
  have isMember := member gram
  by_cases isShort : gram.length ≤ width
  · rw [if_pos isShort, if_pos (Nat.le_succ_of_le isShort),
      List.count_eq_zero_of_not_mem (by rw [isMember]; omega), Nat.zero_mul, Nat.add_zero]
  · rw [if_neg isShort]
    by_cases isGram : gram ∈ grams
    · rw [List.count_eq_one_of_mem distinct isGram, Nat.one_mul,
        if_pos (by rw [isMember] at isGram; omega), Nat.zero_add]
    · rw [List.count_eq_zero_of_not_mem isGram, Nat.zero_mul]
      split
      · next isHere =>
          have nothing : ¬0 < counts gram := fun counted => isGram (isMember.mpr ⟨by omega, counted⟩)
          omega
      · rfl

section

variable (selection : Selection) (countable : Countable counts)
  (endCounted : 0 < counts [Vocab.endSymbol]) {saved : NgramModel}
  (ordered : saved.Sorted order order counts)

include countable endCounted ordered

/-- The rows of the selected n-grams of one order, behind those of the shorter ones. -/
theorem Tallied.loadWidth_eq {width : Nat} (within : width + 1 ≤ order)
    (tallied : Tallied order (fun gram => tally gram +
      if gram.length ≤ width then selection.counts counts gram else 0) model)
    (opens : (∃ other : List Word, other.length = width + 1 ∧ 0 < tally other) ∨
      ∃ gram : List Word, gram.length = width + 1 ∧ 0 < selection.counts counts gram ∧
        Starts gram) :
    ∃ after,
      (((gramsAt saved.vocab.words.entries (width + 1) [[]] saved.levels).filter
        selection.gram).map (fun gram => writeRow
          (shown gram, selection.counts counts gram))).foldlM loadRow model = some after ∧
      Tallied order (fun gram => tally gram +
        if gram.length ≤ width + 1 then selection.counts counts gram else 0) after := by
  have chosen := selection.countable countable
  obtain ⟨distinct, listed⟩ := ordered.grams endCounted within
  have fronted := ordered.fronted within
  generalize gramsAt saved.vocab.words.entries (width + 1) [[]] saved.levels = grams
    at distinct listed fronted ⊢
  have member : ∀ gram, gram ∈ grams.filter selection.gram ↔
      gram.length = width + 1 ∧ 0 < selection.counts counts gram := by
    intro gram
    rw [List.mem_filter, listed, selection.counts_pos_iff]
    constructor
    · intro ⟨⟨isLength, counted⟩, isChosen⟩
      exact ⟨isLength, isChosen, counted⟩
    · intro ⟨isLength, isChosen, counted⟩
      exact ⟨⟨isLength, counted⟩, isChosen⟩
  have chosenWidth : ∀ gram ∈ grams.filter selection.gram, gram.length = width + 1 :=
    fun gram isGram => ((member gram).mp isGram).1
  have chosenCounted : ∀ gram ∈ grams.filter selection.gram,
      0 < selection.counts counts gram := fun gram isGram => ((member gram).mp isGram).2
  have chosenDistinct : (grams.filter selection.gram).Nodup := distinct.filter _
  have known : ∀ gram ∈ grams.filter selection.gram, ∀ shorter, 0 < shorter →
      shorter < width + 1 → 0 < tally (gram.take shorter) +
        if (gram.take shorter).length ≤ width
          then selection.counts counts (gram.take shorter) else 0 := by
    intro gram isGram shorter isPositive isShorter
    have isLength := chosenWidth gram isGram
    have isCounted := chosen.take gram shorter isPositive (chosenCounted gram isGram) (by omega)
    have isTaken : (gram.take shorter).length ≤ width := by
      rw [List.length_take]
      omega
    rw [if_pos isTaken]
    omega
  have opensHere : (∃ other : List Word, other.length = width + 1 ∧ 0 < tally other +
        if other.length ≤ width then selection.counts counts other else 0) ∨
      ∀ gram ∈ (grams.filter selection.gram).head?, Starts gram := by
    rcases opens with ⟨other, isOther, isCounted⟩ | ⟨gram, isLength, isCounted, starts⟩
    · exact Or.inl ⟨other, isOther, Nat.add_pos_left isCounted _⟩
    · right
      have isGram := (member gram).mpr ⟨isLength, isCounted⟩
      exact Fronted.starts_head (fronted.filter _) isGram starts
  obtain ⟨after, ran, talliedAfter⟩ :=
    tallied.loadRows_eq chosen (Nat.succ_pos width) within chosenDistinct chosenWidth
      chosenCounted known opensHere
  refine ⟨after, ran, talliedAfter.congr ?_⟩
  intro gram _ _
  rw [Nat.add_assoc, credit_width chosenDistinct member]

/-- The rows of the selected n-grams of all orders, from the shortest n-grams on. -/
theorem Tallied.loadSelected_eq (tallied : Tallied order tally model)
    (opens : ∀ width, 0 < width → width ≤ order →
      (∃ other : List Word, other.length = width ∧ 0 < tally other) ∨
        ∃ gram : List Word, gram.length = width ∧ 0 < selection.counts counts gram ∧
          Starts gram) :
    ∃ after, (saved.rows.filter selection.row).foldlM loadRow model = some after ∧
      Tallied order (fun gram => tally gram + selection.counts counts gram) after := by
  have upTo : ∀ width ≤ order, ∃ after,
      ((List.range width).flatMap (fun width =>
        ((gramsAt saved.vocab.words.entries (width + 1) [[]] saved.levels).filter
          selection.gram).map (fun gram => writeRow
            (shown gram, selection.counts counts gram)))).foldlM loadRow model = some after ∧
      Tallied order (fun gram => tally gram +
        if gram.length ≤ width then selection.counts counts gram else 0) after := by
    intro width within
    induction width with
    | zero =>
        refine ⟨model, rfl, tallied.congr ?_⟩
        intro gram isLong _
        rw [if_neg (by omega), Nat.add_zero]
    | succ width ih =>
        obtain ⟨before, ran, talliedBefore⟩ := ih (by omega)
        obtain ⟨after, ranHere, talliedAfter⟩ := Tallied.loadWidth_eq selection countable endCounted
          ordered within talliedBefore (opens (width + 1) (Nat.succ_pos width) within)
        refine ⟨after, ?_, talliedAfter⟩
        rw [List.range_succ, List.flatMap_append, List.flatMap_singleton, List.foldlM_append, ran]
        exact ranHere
  obtain ⟨after, ran, talliedAfter⟩ := upTo order (Nat.le_refl order)
  refine ⟨after, ?_, talliedAfter.congr ?_⟩
  · rw [selection.filter_rows countable endCounted ordered]
    exact ran
  · intro gram _ within
    rw [if_pos within]

end

end

/-! ### What a corpus counts -/

/-- The words of the sentences can stand in a counts file: none is empty, which a line with
spaces at its end would make one, and none looks like a comment. -/
def Readable (lines : List (List Char)) : Prop :=
  ∀ line ∈ lines, isDocumentMark line = false →
    ∀ word ∈ corpusWords line, word ≠ [] ∧ word.head? ≠ some '#'

theorem corpusWords_noSpace (line : List Char) :
    ∀ word ∈ corpusWords line, ∀ char ∈ word, isspace char = false := by
  induction line using corpusWords.induct with
  | case1 =>
      intro word member
      rw [corpusWords, if_pos rfl] at member
      cases member
  | case2 line nonempty p ih =>
      intro word member char isChar
      rw [corpusWords, if_neg nonempty] at member
      rcases List.mem_cons.mp member with rfl | later
      · have isOutside := List.mem_takeWhile_imp isChar
        rw [Bool.not_eq_true'] at isOutside
        exact isOutside
      · exact ih word later char isChar

theorem plain_sentence {line : List Char}
    (readable : ∀ word ∈ corpusWords line, word ≠ [] ∧ word.head? ≠ some '#') :
    ∀ word ∈ sentence line, Plain word := by
  intro word member
  rcases List.mem_cons.mp member with rfl | later
  · exact plain_endSymbol
  · rcases List.mem_append.mp later with isWord | isEnd
    · obtain ⟨written, isWritten, rfl⟩ := List.mem_map.mp isWord
      rw [Vocab.normal]
      split
      · exact plain_endSymbol
      · next isOrdinary =>
          obtain ⟨nonempty, noHash⟩ := readable written isWritten
          exact ⟨nonempty, corpusWords_noSpace line written isWritten, noHash, isOrdinary⟩
    · rw [List.mem_singleton.mp isEnd]
      exact plain_endSymbol

theorem countable_total {lines : List (List Char)} (readable : Readable lines) :
    Countable (total lines) := by
  refine ⟨?_, fun gram width _ counted within => total_take counted within,
    fun gram counted long => total_tail counted long⟩
  intro gram _ counted word member
  obtain ⟨line, isLine, isSentence, here⟩ := exists_of_total_pos counted
  exact plain_sentence (readable line isLine isSentence) word
    (subset_of_mem_windows (lineCount_window isSentence here) member)

/-! ### Several files -/

theorem NgramModel.Sorted.allocate {order : Nat} {tally : List Word → Nat} {model : NgramModel}
    (ordered : model.Sorted order order tally) :
    Tallied order tally { model with levels := model.levels.map Mitlm.allocate } := by
  have sorted := ordered.levels
  rw [← ordered.orders] at sorted
  refine ⟨ordered.isOpen, sorted.allocate, ?_⟩
  show (List.map _ _).length = order
  rw [List.length_map, ordered.orders]

theorem Tallied.nonempty {order : Nat} {tally : List Word → Nat} {model : NgramModel}
    (tallied : Tallied order tally model) (mixed : Mixed order tally) :
    ∀ level ∈ model.levels, level.vector.entries ≠ [] := by
  intro level member
  obtain ⟨place, isLevel⟩ := List.mem_iff_getElem?.mp member
  have inside := (List.getElem?_eq_some_iff.mp isLevel).1
  rw [tallied.orders] at inside
  obtain ⟨gram, isWidth, counted, _⟩ := mixed (1 + place) (by omega) (by omega)
  have listed := (tallied.levels.level isLevel).counted.listed gram isWidth counted
  intro empty
  rw [gramsOf, empty, List.map_nil] at listed
  cases listed

theorem Tallied.several {order : Nat} {tally : List Word → Nat} {model : NgramModel}
    (tallied : Tallied order tally model) (positive : 0 < order) (mixed : Mixed order tally) :
    2 ≤ model.vocab.words.size := by
  obtain ⟨gram, isSingle, counted, isInner⟩ := mixed 1 Nat.one_pos positive
  have isLevel := List.getElem?_eq_getElem (show 0 < model.levels.length by
    rw [tallied.orders]; exact positive)
  have holds := tallied.levels.level isLevel
  obtain ⟨index, found⟩ := List.mem_iff_getElem?.mp (holds.counted.listed gram isSingle counted)
  obtain ⟨_, last, front, text, _, isFront, isLast, rfl⟩ := holds.formed.exists_of_getElem? found
  have isNil : front = [] := List.mem_singleton.mp (List.mem_of_getElem? isFront)
  have bound : last < model.vocab.words.size := (List.getElem?_eq_some_iff.mp isLast).1
  by_contra few
  have isZero : last = Vocab.endOfSentence := by
    rw [Vocab.endOfSentence]
    omega
  rw [isZero, tallied.isOpen.first] at isLast
  apply isInner
  rw [isNil, Starts, List.nil_append, List.head?_cons, isLast]

section

variable {order : Nat} (positive : 0 < order)

include positive

theorem countCorpus_eq {corpus : List Char} (inner : Inner order (getlines corpus)) :
    ∃ saved : NgramModel, countCorpus order corpus = some saved.saveCounts ∧
      saved.Sorted order order (total (getlines corpus)) := by
  obtain ⟨start, state, isStart, loaded, isLoad⟩ := exists_loaded positive corpus
  obtain ⟨saved, isSaved, ordered⟩ := loaded.exists_sort positive (inner.worded positive)
    inner.reaches (Nat.le_succ order) inner.mixed
  rw [isSaved] at isLoad
  refine ⟨saved, ?_, ordered⟩
  simp only [countCorpus, isStart, isLoad, Option.bind_eq_bind, Option.bind_some]

/-- The selected counts of a file are added to those of a model. -/
theorem loadSelected_sorted {tally counts : List Word → Nat} {model : NgramModel}
    (ready : Tallied order tally { model with levels := model.levels.map allocate })
    (closed : ∀ gram : List Word, 0 < tally gram → 2 ≤ gram.length → 0 < tally gram.tail)
    (selection : Selection) (countable : Countable counts) (narrow : Narrow order counts)
    (endCounted : 0 < counts [Vocab.endSymbol]) (endChosen : selection.gram [Vocab.endSymbol] = true)
    (kept : ∃ gram, gram ≠ [] ∧ 0 < selection.counts counts gram ∧ ¬Starts gram)
    {saved : NgramModel} (ordered : saved.Sorted order order counts)
    (opens : ∀ width, 0 < width → width ≤ order →
      (∃ other : List Word, other.length = width ∧ 0 < tally other) ∨
        ∃ gram : List Word, gram.length = width ∧ 0 < selection.counts counts gram ∧
          Starts gram)
    (mixed : Mixed order (fun gram => tally gram + selection.counts counts gram)) :
    ∃ after, NgramLM.loadCounts model (filterLines selection.row saved.saveCounts) = some after ∧
      after.Sorted order order (fun gram => tally gram + selection.counts counts gram) := by
  obtain ⟨counted, ran, tallied⟩ :=
    ready.loadSelected_eq selection countable endCounted ordered opens
  have closedAfter : ∀ gram : List Word, 0 < tally gram + selection.counts counts gram →
      2 ≤ gram.length → 0 < tally gram.tail + selection.counts counts gram.tail := by
    intro gram isCounted long
    rcases Nat.add_pos_iff_pos_or_pos.mp isCounted with before | here
    · exact Nat.add_pos_left (closed gram before long) _
    · exact Nat.add_pos_right _ ((selection.countable countable).tail gram here long)
  obtain ⟨after, isSorted, orderedAfter⟩ := tallied.sort_eq (tallied.several positive mixed)
    (tallied.nonempty mixed) (Nat.le_succ order) mixed closedAfter
  refine ⟨after, ?_, orderedAfter⟩
  have long := selection.eight_le countable endCounted endChosen kept positive ordered
  have unbroken := ordered.unbroken countable endCounted
  have isRead : getlines (filterLines selection.row saved.saveCounts) =
      saved.rows.filter selection.row := by
    rw [selection.filterLines_saveCounts countable endCounted ordered]
    refine getlines_writeLines ?_ ?_
    · intro row member
      exact (unbroken row (List.mem_of_mem_filter member)).1
    · intro row member
      exact (unbroken row (List.mem_of_mem_filter member)).2 narrow
  rw [NgramLM.loadCounts, if_neg (Nat.not_lt.mpr long)]
  simp only [loadCounts, isRead, ran, isSorted, Option.bind_eq_bind, Option.bind_some]

omit positive in
/-- Some n-gram that begins no sentence is chosen. -/
def Keeps (chosen : List Word → Bool) (lines : List (List Char)) : Prop :=
  ∃ gram : List Word, gram ≠ [] ∧ 0 < total lines gram ∧ chosen gram = true ∧ ¬Starts gram

omit positive in
theorem Keeps.counted {selection : Selection} {lines : List (List Char)}
    (keeps : Keeps selection.gram lines) :
    ∃ gram, gram ≠ [] ∧ 0 < selection.counts (total lines) gram ∧ ¬Starts gram := by
  obtain ⟨gram, nonempty, counted, isChosen, isInner⟩ := keeps
  exact ⟨gram, nonempty, Selection.counts_pos_iff.mpr ⟨isChosen, counted⟩, isInner⟩

/-- The files of further parts of a corpus, one after the other. -/
theorem foldlM_selected (selection : Selection) (endChosen : selection.gram [Vocab.endSymbol] = true)
    (parts : List (List Char)) (inner : ∀ part ∈ parts, Inner order (getlines part))
    (readable : ∀ part ∈ parts, Readable (getlines part))
    (narrow : ∀ part ∈ parts, Narrow order (total (getlines part)))
    (keeps : ∀ part ∈ parts, Keeps selection.gram (getlines part))
    {tally : List Word → Nat} {model : NgramModel} (ordered : model.Sorted order order tally)
    (closed : ∀ gram : List Word, 0 < tally gram → 2 ≤ gram.length → 0 < tally gram.tail)
    (mixed : Mixed order tally) :
    ∃ files after, parts.mapM (countCorpus order) = some files ∧
      (files.map (filterLines selection.row)).foldlM NgramLM.loadCounts model = some after ∧
      after.Sorted order order
        (fun gram => tally gram + selection.counts (total (parts.flatMap getlines)) gram) := by
  induction parts generalizing tally model with
  | nil =>
      refine ⟨[], model, rfl, rfl, ?_⟩
      have sameTally : (fun gram => tally gram + selection.counts (total []) gram) = tally := by
        funext gram
        rw [selection.counts_nil, Nat.add_zero]
      rw [List.flatMap_nil, sameTally]
      exact ordered
  | cons part parts ih =>
      have isPart : part ∈ part :: parts := List.mem_cons_self
      obtain ⟨saved, isCounted, orderedSaved⟩ := countCorpus_eq positive (inner part isPart)
      have countable := countable_total (readable part isPart)
      have mixedNext : Mixed order
          (fun gram => tally gram + selection.counts (total (getlines part)) gram) := by
        intro width isPositive within
        obtain ⟨gram, isWidth, counted, isInner⟩ := mixed width isPositive within
        exact ⟨gram, isWidth, Nat.add_pos_left counted _, isInner⟩
      obtain ⟨next, ran, orderedNext⟩ := loadSelected_sorted positive ordered.allocate closed
        selection countable (narrow part isPart) (inner part isPart).endCounted endChosen
        (keeps part isPart).counted orderedSaved (by
          intro width isPositive within
          obtain ⟨gram, isWidth, counted, _⟩ := mixed width isPositive within
          exact Or.inl ⟨gram, isWidth, counted⟩) mixedNext
      obtain ⟨files, after, areCounted, ranLater, orderedAfter⟩ :=
        ih (fun other member => inner other (List.mem_cons_of_mem part member))
          (fun other member => readable other (List.mem_cons_of_mem part member))
          (fun other member => narrow other (List.mem_cons_of_mem part member))
          (fun other member => keeps other (List.mem_cons_of_mem part member)) orderedNext (by
            intro gram counted long
            rcases Nat.add_pos_iff_pos_or_pos.mp counted with before | here
            · exact Nat.add_pos_left (closed gram before long) _
            · exact Nat.add_pos_right _ ((selection.countable countable).tail gram here long))
          mixedNext
      refine ⟨saved.saveCounts :: files, after, ?_, ?_, ?_⟩
      · rw [List.mapM_cons, isCounted, areCounted]
        rfl
      · rw [List.map_cons, List.foldlM_cons, ran]
        exact ranLater
      · have sameTally : (fun gram => tally gram +
              selection.counts (total ((part :: parts).flatMap getlines)) gram) =
            fun gram => tally gram + selection.counts (total (getlines part)) gram +
              selection.counts (total (parts.flatMap getlines)) gram := by
          funext gram
          rw [List.flatMap_cons, selection.counts_append, Nat.add_assoc]
        rw [sameTally]
        exact orderedAfter

end

/-- A model in order that has the selected counts of another one has its selected rows. -/
theorem Selection.rows_perm (selection : Selection) {order : Nat}
    {counts : List Word → Nat} (countable : Countable counts)
    (endCounted : 0 < counts [Vocab.endSymbol])
    (endChosen : selection.gram [Vocab.endSymbol] = true) {merged whole : NgramModel}
    (orderedMerged : merged.Sorted order order (selection.counts counts))
    (orderedWhole : whole.Sorted order order counts) :
    merged.rows.Perm (whole.rows.filter selection.row) := by
  rw [orderedMerged.rows_eq, selection.filter_rows countable endCounted orderedWhole]
  apply List.Perm.flatMap_left
  intro width member
  have within := List.mem_range.mp member
  obtain ⟨distinct, listed⟩ := orderedMerged.grams
    (counts_pos_iff.mpr ⟨endChosen, endCounted⟩) within
  obtain ⟨distinctWhole, listedWhole⟩ := orderedWhole.grams endCounted within
  apply List.Perm.map
  refine (List.perm_ext_iff_of_nodup distinct (distinctWhole.filter _)).mpr ?_
  intro gram
  rw [listed, List.mem_filter, listedWhole, counts_pos_iff]
  constructor
  · intro ⟨isLength, isChosen, counted⟩
    exact ⟨⟨isLength, counted⟩, isChosen⟩
  · intro ⟨⟨isLength, counted⟩, isChosen⟩
    exact ⟨isLength, isChosen, counted⟩

theorem Selection.saveCounts_perm (selection : Selection) {order : Nat}
    {counts : List Word → Nat} (countable : Countable counts)
    (endCounted : 0 < counts [Vocab.endSymbol])
    (endChosen : selection.gram [Vocab.endSymbol] = true) {merged whole : NgramModel}
    (orderedMerged : merged.Sorted order order (selection.counts counts))
    (orderedWhole : whole.Sorted order order counts) :
    (records '\n' merged.saveCounts).Perm
      (records '\n' (filterLines selection.row whole.saveCounts)) := by
  have perm := selection.rows_perm countable endCounted endChosen orderedMerged orderedWhole
  have unbroken : ∀ row ∈ whole.rows.filter selection.row, '\n' ∉ row := fun row member =>
    (orderedWhole.unbroken countable endCounted row (List.mem_of_mem_filter member)).1
  rw [selection.filterLines_saveCounts countable endCounted orderedWhole, saveCounts,
    records_writeLines unbroken,
    records_writeLines (fun row member => unbroken row (perm.mem_iff.mp member))]
  exact perm

/-- Of the last order, an n-gram that begins a sentence is chosen, and one that does not. -/
structure Roots (chosen : List Word → Bool) (order : Nat) (lines : List (List Char)) : Prop where
  inner : ∃ gram : List Word, gram.length = order ∧ 0 < total lines gram ∧
    chosen gram = true ∧ ¬Starts gram
  opening : ∃ gram : List Word, gram.length = order ∧ 0 < total lines gram ∧
    chosen gram = true ∧ Starts gram

theorem exists_start (order : Nat) : ∃ start : NgramModel, create order = some start ∧
    Tallied order (fun _ => 0) { start with levels := start.levels.map allocate } := by
  obtain ⟨vocab, isCreated, isOpen, isSingle⟩ := Vocab.exists_create
  let start : NgramModel :=
    { vocab := vocab
      levels := List.replicate order { vector := NgramVector.create, counts := [] }
      backoffs := [] }
  have loaded := loaded_start order isOpen isSingle
  refine ⟨start, ?_, loaded.isOpen, loaded.levels, loaded.orders⟩
  rw [create, isCreated]
  rfl

theorem loadFirst_sorted {order : Nat} (positive : 0 < order) {start : NgramModel}
    (ready : Tallied order (fun _ => 0) { start with levels := start.levels.map allocate })
    (selection : Selection) {counts : List Word → Nat} (countable : Countable counts)
    (narrow : Narrow order counts) (endCounted : 0 < counts [Vocab.endSymbol])
    (endChosen : selection.gram [Vocab.endSymbol] = true) {saved : NgramModel}
    (ordered : saved.Sorted order order counts)
    (inner : ∃ gram : List Word, gram.length = order ∧ 0 < selection.counts counts gram ∧
      ¬Starts gram)
    (opening : ∃ gram : List Word, gram.length = order ∧ 0 < selection.counts counts gram ∧
      Starts gram) :
    ∃ after, NgramLM.loadCounts start (filterLines selection.row saved.saveCounts) = some after ∧
      after.Sorted order order (selection.counts counts) ∧
      Mixed order (selection.counts counts) := by
  have chosen := selection.countable countable
  have shorter : ∀ gram : List Word, 0 < selection.counts counts gram → ∀ width, 0 < width →
      width ≤ gram.length → (gram.take width).length = width ∧
        0 < selection.counts counts (gram.take width) ∧ (Starts (gram.take width) ↔ Starts gram) := by
    intro gram counted width isPositive within
    refine ⟨?_, chosen.take gram width isPositive counted within, ?_⟩
    · rw [List.length_take]
      omega
    · rw [Starts, Starts, List.head?_take, if_neg (by omega)]
  obtain ⟨innerGram, innerLength, innerCounted, isInner⟩ := inner
  obtain ⟨openGram, openLength, openCounted, starts⟩ := opening
  have mixed : Mixed order (selection.counts counts) := by
    intro width isPositive within
    obtain ⟨isWidth, isTaken, sameStart⟩ :=
      shorter innerGram innerCounted width isPositive (by omega)
    exact ⟨_, isWidth, isTaken, fun isStart => isInner (sameStart.mp isStart)⟩
  have nothing : (fun gram => 0 + selection.counts counts gram) = selection.counts counts := by
    funext gram
    exact Nat.zero_add _
  obtain ⟨after, ran, orderedAfter⟩ := loadSelected_sorted positive ready
    (fun gram counted => absurd counted (Nat.lt_irrefl 0)) selection countable narrow endCounted
    endChosen ⟨innerGram, List.ne_nil_of_length_pos (by omega), innerCounted, isInner⟩ ordered (by
      intro width isPositive within
      obtain ⟨isWidth, isTaken, sameStart⟩ :=
        shorter openGram openCounted width isPositive (by omega)
      exact Or.inr ⟨_, isWidth, isTaken, sameStart.mpr starts⟩) (by
      rw [nothing]
      exact mixed)
  rw [nothing] at orderedAfter
  exact ⟨after, ran, orderedAfter, mixed⟩

theorem Roots.inner_counted {selection : Selection} {order : Nat} {lines : List (List Char)}
    (roots : Roots selection.gram order lines) : ∃ gram : List Word, gram.length = order ∧
      0 < selection.counts (total lines) gram ∧ ¬Starts gram := by
  obtain ⟨gram, isLength, counted, isChosen, isInner⟩ := roots.inner
  exact ⟨gram, isLength, Selection.counts_pos_iff.mpr ⟨isChosen, counted⟩, isInner⟩

theorem Roots.opening_counted {selection : Selection} {order : Nat} {lines : List (List Char)}
    (roots : Roots selection.gram order lines) : ∃ gram : List Word, gram.length = order ∧
      0 < selection.counts (total lines) gram ∧ Starts gram := by
  obtain ⟨gram, isLength, counted, isChosen, starts⟩ := roots.opening
  exact ⟨gram, isLength, Selection.counts_pos_iff.mpr ⟨isChosen, counted⟩, starts⟩

theorem Roots.append {chosen : List Word → Bool} {order : Nat} {lines : List (List Char)}
    (roots : Roots chosen order lines) (later : List (List Char)) :
    Roots chosen order (lines ++ later) := by
  obtain ⟨⟨gram, isLength, counted, isChosen, isInner⟩,
    ⟨first, firstLength, firstCounted, firstChosen, starts⟩⟩ := roots
  refine ⟨⟨gram, isLength, ?_, isChosen, isInner⟩, ⟨first, firstLength, ?_, firstChosen, starts⟩⟩
  · rw [total_append]
    exact Nat.add_pos_left counted _
  · rw [total_append]
    exact Nat.add_pos_left firstCounted _

theorem Roots.end_chosen {selection : Selection} {order : Nat} {lines : List (List Char)}
    (roots : Roots selection.gram order lines) : selection.gram [Vocab.endSymbol] = true := by
  obtain ⟨gram, _, _, isChosen, starts⟩ := roots.opening
  have taken := selection.take gram 1 Nat.one_pos isChosen
  cases gram with
  | nil => cases starts
  | cons word words =>
      rw [List.take_succ_cons, List.take_zero, Option.some.inj starts] at taken
      exact taken

theorem total_le_flatMap {read : List Char → List (List Char)} {parts : List (List Char)}
    {part : List Char} (member : part ∈ parts) (gram : List Word) :
    total (read part) gram ≤ total (parts.flatMap read) gram := by
  obtain ⟨before, after, rfl⟩ := List.append_of_mem member
  rw [List.flatMap_append, List.flatMap_cons, total_append, total_append]
  omega

/-- The selected rows of the counts files of the parts of a corpus give a model with the selected
counts of the whole corpus. -/
theorem exists_merged {order : Nat} (positive : 0 < order) (selection : Selection)
    {first whole : List Char} {parts : List (List Char)}
    (isWhole : getlines whole = (first :: parts).flatMap getlines)
    (roots : Roots selection.gram order (getlines first))
    (inner : ∀ part ∈ first :: parts, Inner order (getlines part))
    (readable : Readable (getlines whole)) (narrow : Narrow order (total (getlines whole)))
    (keeps : ∀ part ∈ parts, Keeps selection.gram (getlines part)) :
    ∃ files, ∃ merged counted : NgramModel,
      (first :: parts).mapM (countCorpus order) = some files ∧
      mergeCounts order (files.map (filterLines selection.row)) = some merged.saveCounts ∧
      countCorpus order whole = some counted.saveCounts ∧
      merged.Sorted order order (selection.counts (total (getlines whole))) ∧
      counted.Sorted order order (total (getlines whole)) := by
  obtain ⟨start, isStart, ready⟩ := exists_start order
  have isPart : first ∈ first :: parts := List.mem_cons_self
  have readablePart : ∀ part ∈ first :: parts, Readable (getlines part) := by
    intro part member line isLine
    refine readable line ?_
    rw [isWhole]
    exact List.mem_flatMap.mpr ⟨part, member, isLine⟩
  have narrowPart : ∀ part ∈ first :: parts, Narrow order (total (getlines part)) := by
    intro part member
    refine narrow.mono ?_
    rw [isWhole]
    exact total_le_flatMap member
  have countable := countable_total (readablePart first isPart)
  obtain ⟨saved, isCounted, ordered⟩ := countCorpus_eq positive (inner first isPart)
  obtain ⟨next, ran, orderedNext, mixed⟩ := loadFirst_sorted positive ready selection countable
    (narrowPart first isPart) (inner first isPart).endCounted roots.end_chosen ordered
    roots.inner_counted roots.opening_counted
  obtain ⟨files, after, areCounted, ranLater, orderedAfter⟩ := foldlM_selected positive selection
    roots.end_chosen parts (fun part member => inner part (List.mem_cons_of_mem first member))
    (fun part member => readablePart part (List.mem_cons_of_mem first member))
    (fun part member => narrowPart part (List.mem_cons_of_mem first member)) keeps orderedNext
    (selection.countable countable).tail mixed
  have sameTally : (fun gram => selection.counts (total (getlines first)) gram +
      selection.counts (total (parts.flatMap getlines)) gram) =
        selection.counts (total (getlines whole)) := by
    funext gram
    rw [isWhole, List.flatMap_cons, selection.counts_append]
  rw [sameTally] at orderedAfter
  have innerWhole : Inner order (getlines whole) := by
    rw [isWhole, List.flatMap_cons]
    exact (inner first isPart).append _
  obtain ⟨counted, isTotal, orderedWhole⟩ := countCorpus_eq positive innerWhole
  refine ⟨saved.saveCounts :: files, after, counted, ?_, ?_, isTotal, orderedAfter, orderedWhole⟩
  · rw [List.mapM_cons, isCounted, areCounted]
    rfl
  · simp only [mergeCounts, isStart, List.map_cons, List.foldlM_cons, ran, ranLater,
      Option.bind_eq_bind, Option.bind_some]

theorem Inner.roots {order : Nat} (positive : 0 < order) {lines : List (List Char)}
    (inner : Inner order lines) : Roots (fun _ => true) order lines := by
  obtain ⟨gram, isOrder, counted, isInner⟩ := inner
  refine ⟨⟨gram, isOrder, counted, rfl, isInner⟩, ?_⟩
  obtain ⟨line, isLine, isSentence, here⟩ := exists_of_total_pos counted
  obtain ⟨start, fits, _⟩ := mem_windows.mp (lineCount_window isSentence here)
  have isWidth : ((sentence line).take order).length = order := by
    rw [List.length_take]
    omega
  refine ⟨(sentence line).take order, isWidth, total_pos isLine
    (lineCount_of_window isSentence (mem_windows.mpr ⟨0, ?_, ?_⟩)), rfl, ?_⟩
  · rw [isWidth, ← isOrder]
    omega
  · rw [isWidth, List.drop_zero]
  · rw [Starts, List.head?_take, if_neg (by omega), sentence, List.head?_cons]

theorem getlines_flatten {parts : List (List Char)}
    (ended : ∀ part ∈ parts.dropLast, Ended '\n' part) :
    getlines parts.flatten = parts.flatMap getlines := by
  induction parts with
  | nil => exact getlines_nil
  | cons part parts ih =>
      cases parts with
      | nil => rw [List.flatten_cons, List.flatten_nil, List.append_nil, List.flatMap_singleton]
      | cons next later =>
          rw [List.dropLast_cons_cons] at ended
          rw [List.flatten_cons, getlines_append (ended part List.mem_cons_self),
            ih (fun other member => ended other (List.mem_cons_of_mem part member)),
            List.flatMap_cons]
          rfl

theorem ended_countCorpus {order : Nat} {corpus file : List Char}
    (isCounted : countCorpus order corpus = some file) : Ended '\n' file := by
  rw [countCorpus, Option.bind_eq_bind, Option.bind_eq_some_iff] at isCounted
  obtain ⟨start, _, isLoaded⟩ := isCounted
  obtain ⟨model, _, isFile⟩ := Option.bind_eq_some_iff.mp isLoaded
  rw [← Option.some.inj isFile]
  exact ended_writeLines _

/-- Merging the counts files of the parts of a corpus gives the rows of the counts file of the
whole corpus. -/
theorem mergeCounts_countCorpus {order : Nat} (positive : 0 < order)
    {parts : List (List Char)} (nonempty : parts ≠ [])
    (ended : ∀ part ∈ parts.dropLast, Ended '\n' part)
    (inner : ∀ part ∈ parts, Inner order (getlines part))
    (readable : Readable (getlines parts.flatten))
    (narrow : Narrow order (total (getlines parts.flatten))) :
    ∃ files merged whole, parts.mapM (countCorpus order) = some files ∧
      mergeCounts order files = some merged ∧ countCorpus order parts.flatten = some whole ∧
      (records '\n' merged).Perm (records '\n' whole) := by
  have isWhole := getlines_flatten ended
  obtain ⟨first, later, rfl⟩ := List.exists_cons_of_ne_nil nonempty
  have isPart : first ∈ first :: later := List.mem_cons_self
  have roots : Roots Selection.all.gram order (getlines first) :=
    (inner first isPart).roots positive
  have keeps : ∀ part ∈ later, Keeps Selection.all.gram (getlines part) := by
    intro part member
    obtain ⟨gram, isLength, counted, isInner⟩ := inner part (List.mem_cons_of_mem first member)
    exact ⟨gram, List.ne_nil_of_length_pos (by omega), counted, rfl, isInner⟩
  obtain ⟨files, merged, whole, areCounted, isMerged, isTotal, orderedMerged, orderedWhole⟩ :=
    exists_merged positive Selection.all isWhole roots inner readable narrow keeps
  have countable := countable_total readable
  have innerWhole : Inner order (getlines (first :: later).flatten) := by
    rw [isWhole, List.flatMap_cons]
    exact (inner first isPart).append _
  have perm := Selection.all.saveCounts_perm countable innerWhole.endCounted rfl orderedMerged
    orderedWhole
  refine ⟨files, merged.saveCounts, whole.saveCounts, areCounted, ?_, isTotal, ?_⟩
  · -- a counts file ends with a newline, so that nothing is added to it
    have same : files.map (filterLines Selection.all.row) = files := by
      refine (List.map_congr_left ?_).trans (List.map_id files)
      intro file member
      obtain ⟨part, _, isFile⟩ := exists_of_mem_mapM areCounted member
      exact filterLines_all (ended_countCorpus isFile)
    rw [← same]
    exact isMerged
  · have same : filterLines Selection.all.row whole.saveCounts = whole.saveCounts :=
      filterLines_all (ended_writeLines _)
    rw [← same]
    exact perm

theorem narrow_of_windows {order : Nat} {lines : List (List Char)}
    (short : ∀ line ∈ lines, ∀ width ≤ order, ∀ gram ∈ windows width (sentence line),
      (writeRow (shown gram, total lines gram)).length ≤ maxLine - 2) :
    Narrow order (total lines) := by
  intro gram _ within counted
  obtain ⟨line, isLine, isSentence, here⟩ := exists_of_total_pos counted
  exact short line isLine gram.length within gram (lineCount_window isSentence here)

theorem mergeCounts_countCorpus_two :
    ∃ files merged whole, ["a\n".toList, "b a".toList].mapM (countCorpus 2) = some files ∧
      mergeCounts 2 files = some merged ∧
      countCorpus 2 ["a\n".toList, "b a".toList].flatten = some whole ∧
      (records '\n' merged).Perm (records '\n' whole) := by
  have isRead : ∀ file ∈ ["a\n".toList, "b a".toList, "a\nb a".toList],
      getlines file = records '\n' file := by
    intro file member
    refine getlines_of_short ?_
    revert file
    decide +kernel
  have isWhole : getlines ["a\n".toList, "b a".toList].flatten = [['a'], "b a".toList] :=
    (isRead "a\nb a".toList (by decide +kernel)).trans (by decide +kernel)
  refine mergeCounts_countCorpus (by decide) (List.cons_ne_nil _ _) ?_ ?_ ?_ ?_
  · unfold Ended
    decide +kernel
  · intro part member
    refine ⟨[['a'], Vocab.endSymbol], rfl, ?_, by unfold Starts; decide⟩
    simp only [List.mem_cons, List.not_mem_nil, or_false] at member
    rcases member with rfl | rfl
    · rw [isRead _ (by decide +kernel)]
      decide +kernel
    · rw [isRead _ (by decide +kernel)]
      decide +kernel
  · rw [isWhole]
    unfold Readable
    decide +kernel
  · rw [isWhole]
    refine narrow_of_windows ?_
    decide +kernel

end Mitlm
