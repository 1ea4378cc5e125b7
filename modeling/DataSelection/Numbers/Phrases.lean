/-
What the reader of number words does to a text with other words.

A text falls into other words and maximal number phrases, in which single
conjunctions may stand between number words.  The reader writes a phrase out when
it meets the word behind it, so a phrase at the end of such a text is lost.
-/

import DataSelection.Library.Listing
import Mathlib.Data.List.Induction
import DataSelection.Numbers.PlainNumerals

namespace Numbers

open Library (exists_of_forall₂)
open WittenBell (Word split join CleanWord join_injective cleanWord_of_mem_split)

def isAnd (word : Word) : Bool := decide (lower word = andWord)

def isNumberWord (word : Word) : Bool :=
  cardinalWords.any (fun known => decide (known = lower word))

/-- A phrase begins and ends with number words, and a conjunction in it stands
between two of them. -/
inductive IsPhrase : List Word → Prop
  | single {word : Word} (number : isNumberWord word = true) : IsPhrase [word]
  | further {words : List Word} {word : Word} (phrase : IsPhrase words)
      (number : isNumberWord word = true) : IsPhrase (words ++ [word])
  | joined {words : List Word} {conjunction word : Word} (phrase : IsPhrase words)
      (joins : isAnd conjunction = true) (number : isNumberWord word = true) :
      IsPhrase (words ++ [conjunction, word])

/-- The words of a phrase that say its number. -/
def spokenWords (words : List Word) : List Word :=
  (words.map lower).filter (fun word => decide (word ≠ andWord))

/-- The number of a phrase in English; a phrase like "five six" says none. -/
def phraseValue (words : List Word) : Option Nat := numeralValue (spokenWords words)

/-- A phrase that says a number, and in which each scale word has its own number before it. -/
structure IsPlain (words : List Word) : Prop where
  spoken : (phraseValue words).isSome = true
  plain : scalesPlain scales (spokenWords words) = true

inductive Item where
  | word (text : Word)
  | phrase (words : List Word)

def Item.words : Item → List Word
  | .word text => [text]
  | .phrase words => words

/-- What the text should become: other words stay, a phrase becomes its number. -/
def Item.render : Item → Option Word
  | .word text => some text
  | .phrase words => (phraseValue words).map (fun value : Nat => str value)

/-- Every other word is kept, and every phrase becomes its number. -/
def LosesNothing (textnum : List Char) (items : List Item) : Prop :=
  ∃ rendered, List.Forall₂ (fun item word => Item.render item = some word) items rendered ∧
    textToNum textnum false = some (.text (join rendered))

/-- The next number word would still belong to the last phrase. -/
def EndsOpen (items : List Item) : Prop :=
  (∃ before words, items = before ++ [.phrase words]) ∨
    ∃ before words conjunction, isAnd conjunction = true ∧
      items = before ++ [.phrase words, .word conjunction]

/-- Phrases are phrases, other words are no number words, and no phrase could have
been part of the one before it. -/
structure Maximal (items : List Item) : Prop where
  phrases : ∀ words, .phrase words ∈ items → IsPhrase words
  others : ∀ text, .word text ∈ items → isNumberWord text = false
  apart : ∀ before words after, items = before ++ .phrase words :: after → ¬ EndsOpen before

structure Segmentation (words : List Word) (items : List Item) : Prop extends Maximal items where
  spelled : items.flatMap Item.words = words

/-! ### Every text has a segmentation -/

theorem not_endsOpen_nil : ¬ EndsOpen [] := by
  rintro (⟨before, words, same⟩ | ⟨before, words, conjunction, _, same⟩)
  · exact absurd same.symm (List.append_ne_nil_of_right_ne_nil before (List.cons_ne_nil _ _))
  · exact absurd same.symm (List.append_ne_nil_of_right_ne_nil before (List.cons_ne_nil _ _))

theorem Maximal.nil : Maximal [] := by
  constructor
  · intro words member
    cases member
  · intro text member
    cases member
  · intro before words after same
    exact absurd same.symm (List.append_ne_nil_of_right_ne_nil before (List.cons_ne_nil _ _))

theorem Maximal.init {items : List Item} {item : Item} (maximal : Maximal (items ++ [item])) :
    Maximal items := by
  constructor
  · exact fun words member => maximal.phrases words (List.mem_append_left _ member)
  · exact fun text member => maximal.others text (List.mem_append_left _ member)
  · intro before words after same
    apply maximal.apart before words (after ++ [item])
    rw [same, List.append_assoc, List.cons_append]

/-- What stands before the phrases of a list with one more item at its end. -/
private theorem apart_concat {items : List Item} {last : Item}
    (apart : ∀ before words after, items = before ++ .phrase words :: after → ¬ EndsOpen before)
    (closed : ∀ words, last = .phrase words → ¬ EndsOpen items)
    (before : List Item) (words : List Word) (after : List Item)
    (same : items ++ [last] = before ++ .phrase words :: after) : ¬ EndsOpen before := by
  rcases List.eq_nil_or_concat after with rfl | ⟨init, item, rfl⟩
  · rcases List.append_inj' same rfl with ⟨rfl, lastSame⟩
    exact closed words (List.singleton_inj.mp lastSame)
  · rw [List.concat_eq_append, ← List.cons_append, ← List.append_assoc] at same
    exact apart before words init (List.append_inj' same rfl).1

theorem Maximal.word {items : List Item} (maximal : Maximal items) {text : Word}
    (other : isNumberWord text = false) : Maximal (items ++ [.word text]) := by
  constructor
  · intro words member
    rcases List.mem_append.mp member with earlier | here
    · exact maximal.phrases words earlier
    · cases List.mem_singleton.mp here
  · intro found member
    rcases List.mem_append.mp member with earlier | here
    · exact maximal.others found earlier
    · cases List.mem_singleton.mp here
      exact other
  · exact apart_concat maximal.apart (fun words impossible => by cases impossible)

theorem Maximal.phrase {items : List Item} (maximal : Maximal items) {words : List Word}
    (phrase : IsPhrase words) (closed : ¬ EndsOpen items) :
    Maximal (items ++ [.phrase words]) := by
  constructor
  · intro found member
    rcases List.mem_append.mp member with earlier | here
    · exact maximal.phrases found earlier
    · cases List.mem_singleton.mp here
      exact phrase
  · intro text member
    rcases List.mem_append.mp member with earlier | here
    · exact maximal.others text earlier
    · cases List.mem_singleton.mp here
  · exact apart_concat maximal.apart (fun _ _ => closed)

theorem segmentation_exists (words : List Word) : ∃ items, Segmentation words items := by
  induction words using List.reverseRecOn with
  | nil => exact ⟨[], { toMaximal := Maximal.nil, spelled := rfl }⟩
  | append_singleton words word ih =>
      rcases ih with ⟨items, maximal, spelled⟩
      by_cases number : isNumberWord word = true
      · by_cases isOpen : EndsOpen items
        · -- the number word is taken into the last phrase
          rcases isOpen with ⟨before, phrase, rfl⟩ | ⟨before, phrase, conjunction, joins, rfl⟩
          · have closed := maximal.apart before phrase [] rfl
            have isPhrase := maximal.phrases phrase (List.mem_append_right _ List.mem_cons_self)
            refine ⟨before ++ [.phrase (phrase ++ [word])], ?_, ?_⟩
            · exact maximal.init.phrase (isPhrase.further number) closed
            · rw [← spelled]
              simp [Item.words]
          · have closed := maximal.apart before phrase [.word conjunction] rfl
            have isPhrase := maximal.phrases phrase (List.mem_append_right _ List.mem_cons_self)
            have regrouped : before ++ [.phrase phrase, .word conjunction] =
                (before ++ [.phrase phrase]) ++ [.word conjunction] := by simp
            rw [regrouped] at maximal
            refine ⟨before ++ [.phrase (phrase ++ [conjunction, word])], ?_, ?_⟩
            · exact maximal.init.init.phrase (isPhrase.joined joins number) closed
            · rw [← spelled]
              simp [Item.words]
        · refine ⟨items ++ [.phrase [word]], maximal.phrase (.single number) isOpen, ?_⟩
          rw [← spelled]
          simp [Item.words]
      · refine ⟨items ++ [.word word], maximal.word (Bool.eq_false_iff.mpr number), ?_⟩
        rw [← spelled]
        simp [Item.words]

/-! ### What the reader makes of a phrase -/

def phraseState (words : List Word) : Nat × Nat :=
  (words.filterMap (fun word => numwords (lower word))).foldl accumulate (0, 0)

def readValue (words : List Word) : Nat := (phraseState words).1 + (phraseState words).2

def Item.read : Item → Word
  | .word text => text
  | .phrase words => str (readValue words)

theorem numwords_and : numwords andWord = some (1, 0) := by decide +kernel

theorem lower_of_isAnd {word : Word} (conjunction : isAnd word = true) : lower word = andWord :=
  of_decide_eq_true conjunction

theorem readFrom_filter (words : List Word) (state : Nat × Nat) :
    readFrom state (words.filter (fun word => decide (word ≠ andWord))) = readFrom state words := by
  induction words generalizing state with
  | nil => rfl
  | cons word words ih =>
      by_cases conjunction : word = andWord
      · rw [List.filter_cons_of_neg (by simpa using conjunction), ih, conjunction,
          readFrom_cons numwords_and, accumulate_small]
        rfl
      · rw [List.filter_cons_of_pos (by simpa using conjunction)]
        cases found : numwords word with
        | none =>
            have skipped : ∀ others, readFrom state (word :: others) = readFrom state others := by
              intro others
              rw [readFrom, List.filterMap_cons, found]
              rfl
            rw [skipped, skipped, ih]
        | some entry => rw [readFrom_cons found, readFrom_cons found, ih]

theorem phraseState_eq (words : List Word) :
    phraseState words = readFrom (0, 0) (spokenWords words) := by
  rw [spokenWords, readFrom_filter, phraseState, readFrom, List.filterMap_map]
  rfl

/-- The reader gives a phrase its number exactly when it is plain. -/
theorem readValue_eq_iff {words : List Word} {value : Nat} (spoken : phraseValue words = some value) :
    readValue words = value ↔ IsPlain words := by
  have isPlain : IsPlain words ↔ scalesPlain scales (spokenWords words) = true :=
    ⟨IsPlain.plain, fun plain => ⟨Option.isSome_iff_exists.mpr ⟨value, spoken⟩, plain⟩⟩
  rw [isPlain, readValue, phraseState_eq]
  unfold phraseValue numeralValue at spoken
  split at spoken
  · next isZero =>
      cases spoken
      rw [isZero]
      decide +kernel
  · obtain ⟨aside, current, reads⟩ := readsNumeral (fun _ member => member) spoken
    rw [reads.read, Nat.zero_add]
    exact reads.plain

/-! ### The reader between two words -/

theorem isNumberWord_iff {word : Word} :
    isNumberWord word = true ↔ lower word ∈ cardinalWords := by
  rw [isNumberWord, List.any_eq_true]
  constructor
  · intro ⟨known, member, same⟩
    exact of_decide_eq_true same ▸ member
  · intro member
    exact ⟨lower word, member, decide_eq_true rfl⟩

theorem numberWord_entry {word : Word} (number : isNumberWord word = true) :
    (∃ entry, numwords (lower word) = some entry) ∧ lower word ≠ andWord := by
  have checked : cardinalWords.all (fun known =>
      decide ((numwords known).isSome = true ∧ known ≠ andWord)) = true := by
    decide +kernel
  have entry := of_decide_eq_true
    (List.all_eq_true.mp checked (lower word) (isNumberWord_iff.mp number))
  exact ⟨Option.isSome_iff_exists.mp entry.1, entry.2⟩

/-- The reader knows no words but the number words and the conjunction; its table also has an
entry for the empty word. -/
theorem otherWord_cases {word : Word} (filled : word ≠ []) (other : isNumberWord word = false) :
    numwords (lower word) = none ∨ lower word = andWord := by
  have checked : numwordEntries.all (fun entry =>
      decide (entry.1 = [] ∨ entry.1 = andWord) ||
        cardinalWords.any (fun known => decide (known = entry.1))) = true := by
    decide +kernel
  cases found : numwords (lower word) with
  | none => exact Or.inl rfl
  | some entry =>
      have listed : (lower word, entry) ∈ numwordEntries :=
        List.mem_reverse.mp (mem_of_lookup (found : numwordEntries.reverse.lookup _ = _))
      rcases Bool.or_eq_true_iff.mp (List.all_eq_true.mp checked _ listed) with special | number
      · rcases of_decide_eq_true special with empty | conjunction
        · exact absurd (List.map_eq_nil_iff.mp empty) filled
        · exact Or.inr conjunction
      · have known : isNumberWord word = true := number
        rw [other] at known
        cases known

theorem phraseState_number (words : List Word) {word : Word} {entry : Nat × Nat}
    (found : numwords (lower word) = some entry) :
    phraseState (words ++ [word]) = accumulate (phraseState words) entry := by
  unfold phraseState
  rw [List.filterMap_append, List.foldl_append]
  simp only [List.filterMap_cons, found, List.filterMap_nil, List.foldl_cons, List.foldl_nil]

theorem phraseState_and (words : List Word) {conjunction : Word}
    (joins : isAnd conjunction = true) :
    phraseState (words ++ [conjunction]) = phraseState words := by
  have entry : numwords (lower conjunction) = some (1, 0) := by
    rw [lower_of_isAnd joins]
    exact numwords_and
  rw [phraseState_number words entry]
  simp [accumulate]

structure Idle (items : List Item) (reading : Reading) : Prop where
  new_text : reading.new_text = items.map Item.read
  number_started : reading.number_started = false
  values : (reading.result, reading.current) = (0, 0)
  copied : lower reading.previous_word = andWord → reading.previous_added = true

/-- The words of a phrase have been read, and the last was a number word. -/
structure Counting (before : List Item) (words : List Word) (reading : Reading) : Prop where
  new_text : reading.new_text = before.map Item.read
  number_started : reading.number_started = true
  values : (reading.result, reading.current) = phraseState words
  last : lower reading.previous_word ≠ andWord

/-- The words of a phrase have been read, and a conjunction after them. -/
structure Joining (before : List Item) (words : List Word) (conjunction : Word)
    (reading : Reading) : Prop where
  new_text : reading.new_text = before.map Item.read
  number_started : reading.number_started = true
  values : (reading.result, reading.current) = phraseState words
  previous_word : reading.previous_word = conjunction
  previous_added : reading.previous_added = false

/-- What has been read, by the last items. -/
inductive ReadsTo : List Item → Reading → Prop
  | idle {items : List Item} {reading : Reading} (closed : ¬ EndsOpen items)
      (idle : Idle items reading) : ReadsTo items reading
  | counting {before : List Item} {words : List Word} {reading : Reading}
      (counting : Counting before words reading) : ReadsTo (before ++ [.phrase words]) reading
  | joining {before : List Item} {words : List Word} {conjunction : Word} {reading : Reading}
      (joins : isAnd conjunction = true) (joining : Joining before words conjunction reading) :
      ReadsTo (before ++ [.phrase words, .word conjunction]) reading

theorem readWord_of_number {reading : Reading} {word : Word} {entry : Nat × Nat}
    (found : numwords (lower word) = some entry) (different : lower word ≠ andWord) :
    readWord false reading word = some (reading.continueNumber word entry) := by
  have stays : reading.turnsAway (lower word) = false := by
    simp [Reading.turnsAway, found, different]
  unfold readWord
  rw [stays, found]
  rfl

theorem readWord_of_turnsAway {reading : Reading} {word : Word}
    (away : reading.turnsAway (lower word) = true) :
    readWord false reading word = some (reading.finishNumber.copyWord word) := by
  unfold readWord
  rw [away]
  rfl

theorem Counting.of_number {before : List Item} {words : List Word} {reading : Reading}
    {word : Word} (new_text : reading.new_text = before.map Item.read)
    (values : (reading.result, reading.current) = phraseState words)
    (number : isNumberWord word = true) :
    ∃ next, readWord false reading word = some next ∧ Counting before (words ++ [word]) next := by
  rcases numberWord_entry number with ⟨⟨entry, found⟩, different⟩
  refine ⟨_, readWord_of_number found different, ?_⟩
  constructor
  · exact new_text
  · rfl
  · rw [phraseState_number words found, ← values]
    rfl
  · exact different

theorem Counting.and {before : List Item} {words : List Word} {reading : Reading}
    (counting : Counting before words reading) {conjunction : Word}
    (joins : isAnd conjunction = true) :
    ∃ next, readWord false reading conjunction = some next ∧
      Joining before words conjunction next := by
  have lowered := lower_of_isAnd joins
  have stays : reading.turnsAway (lower conjunction) = false := by
    simp [Reading.turnsAway, lowered, numwords_and, counting.number_started, counting.last]
  refine ⟨reading.continueNumber conjunction (1, 0), ?_, ?_⟩
  · unfold readWord
    rw [stays, lowered, numwords_and]
    rfl
  · constructor
    · exact counting.new_text
    · rfl
    · rw [← counting.values]
      simp [Reading.continueNumber, accumulate]
    · rfl
    · rfl

theorem Idle.phrase {items : List Item} {reading : Reading} {words : List Word}
    (idle : Idle items reading) (phrase : IsPhrase words) :
    ∃ next, words.foldlM (readWord false) reading = some next ∧ Counting items words next := by
  induction phrase with
  | single number =>
      have nothing : (reading.result, reading.current) = phraseState [] := idle.values
      rcases Counting.of_number idle.new_text nothing number with ⟨next, ran, counting⟩
      exact ⟨next, by rw [List.foldlM_cons, ran]; rfl, counting⟩
  | further _phrase number ih =>
      rcases ih with ⟨middle, ran, counting⟩
      rcases Counting.of_number counting.new_text counting.values number with
        ⟨next, step, after⟩
      refine ⟨next, ?_, after⟩
      rw [List.foldlM_append, ran, Option.bind_eq_bind, Option.bind_some, List.foldlM_cons, step]
      rfl
  | @joined words conjunction word _phrase joins number ih =>
      rcases ih with ⟨middle, ran, counting⟩
      rcases counting.and joins with ⟨pending, conjoined, joining⟩
      have values : (pending.result, pending.current) = phraseState (words ++ [conjunction]) := by
        rw [phraseState_and words joins]
        exact joining.values
      rcases Counting.of_number joining.new_text values number with ⟨next, step, after⟩
      refine ⟨next, ?_, ?_⟩
      · rw [List.foldlM_append, ran, Option.bind_eq_bind, Option.bind_some, List.foldlM_cons,
          conjoined, Option.bind_eq_bind, Option.bind_some, List.foldlM_cons, step]
        rfl
      · rw [List.append_assoc] at after
        exact after

theorem Idle.word {items : List Item} {reading : Reading} (idle : Idle items reading)
    {word : Word} (filled : word ≠ []) (other : isNumberWord word = false) :
    ∃ next, readWord false reading word = some next ∧ Idle (items ++ [.word word]) next := by
  have away : reading.turnsAway (lower word) = true := by
    rcases otherWord_cases filled other with unknown | conjunction
    · simp [Reading.turnsAway, unknown]
    · simp [Reading.turnsAway, conjunction, idle.number_started]
  have finished : reading.finishNumber = reading := by
    unfold Reading.finishNumber
    rw [idle.number_started]
    rfl
  have noneKept : (lower reading.previous_word = andWord && !reading.previous_added) = false := by
    by_cases conjunction : lower reading.previous_word = andWord
    · simp [idle.copied conjunction]
    · simp [conjunction]
  refine ⟨_, readWord_of_turnsAway away, ?_⟩
  rw [finished]
  constructor
  · unfold Reading.copyWord
    rw [noneKept, idle.new_text, List.map_append]
    rfl
  · exact idle.number_started
  · exact idle.values
  · exact fun _ => rfl

theorem Counting.word {before : List Item} {words : List Word} {reading : Reading}
    (counting : Counting before words reading) {word : Word} (filled : word ≠ [])
    (other : isNumberWord word = false) (different : isAnd word = false) :
    ∃ next, readWord false reading word = some next ∧
      Idle (before ++ [.phrase words, .word word]) next := by
  have away : reading.turnsAway (lower word) = true := by
    rcases otherWord_cases filled other with unknown | conjunction
    · simp [Reading.turnsAway, unknown]
    · exact absurd conjunction (of_decide_eq_false different)
  have value : reading.result + reading.current = readValue words := by
    unfold readValue
    rw [← counting.values]
  refine ⟨_, readWord_of_turnsAway away, ?_⟩
  constructor
  · simp [Reading.copyWord, Reading.finishNumber, counting.number_started, counting.new_text,
      counting.last, value, Item.read]
  · simp [Reading.copyWord, Reading.finishNumber, counting.number_started]
  · simp [Reading.copyWord, Reading.finishNumber, counting.number_started]
  · exact fun _ => rfl

theorem Joining.word {before : List Item} {words : List Word} {conjunction : Word}
    {reading : Reading} (joining : Joining before words conjunction reading)
    (joins : isAnd conjunction = true) {word : Word} (filled : word ≠ [])
    (other : isNumberWord word = false) :
    ∃ next, readWord false reading word = some next ∧
      Idle (before ++ [.phrase words, .word conjunction, .word word]) next := by
  have pending : lower reading.previous_word = andWord := by
    rw [joining.previous_word]
    exact lower_of_isAnd joins
  have away : reading.turnsAway (lower word) = true := by
    rcases otherWord_cases filled other with unknown | another
    · simp [Reading.turnsAway, unknown]
    · simp [Reading.turnsAway, another, joining.number_started, pending]
  have value : reading.result + reading.current = readValue words := by
    unfold readValue
    rw [← joining.values]
  refine ⟨_, readWord_of_turnsAway away, ?_⟩
  constructor
  · simp [Reading.copyWord, Reading.finishNumber, joining.number_started, joining.new_text,
      lower_of_isAnd joins, joining.previous_added, joining.previous_word, value, Item.read]
  · simp [Reading.copyWord, Reading.finishNumber, joining.number_started]
  · simp [Reading.copyWord, Reading.finishNumber, joining.number_started]
  · exact fun _ => rfl

/-! ### The reader on a segmented text -/

theorem idle_start : Idle [] Reading.start :=
  { new_text := rfl
    number_started := rfl
    values := rfl
    copied := fun conjunction => absurd conjunction (by decide +kernel) }

/-- After a word the end is open only if it is a conjunction behind a phrase. -/
theorem EndsOpen.of_word {items : List Item} {text : Word}
    (isOpen : EndsOpen (items ++ [.word text])) :
    isAnd text = true ∧ ∃ before words, items = before ++ [.phrase words] := by
  rcases isOpen with ⟨before, words, same⟩ | ⟨before, words, conjunction, joins, same⟩
  · cases List.singleton_inj.mp (List.append_inj' same rfl).2
  · have regrouped : before ++ [.phrase words, .word conjunction] =
        (before ++ [.phrase words]) ++ [.word conjunction] := by simp
    rw [regrouped] at same
    rcases List.append_inj' same rfl with ⟨sameItems, sameLast⟩
    cases List.singleton_inj.mp sameLast
    exact ⟨joins, before, words, sameItems⟩

theorem ReadsTo.word {items : List Item} {reading : Reading} {text : Word}
    (reads : ReadsTo items reading) (filled : text ≠ []) (other : isNumberWord text = false) :
    ∃ next, readWord false reading text = some next ∧ ReadsTo (items ++ [.word text]) next := by
  cases reads with
  | idle closed idle =>
      rcases idle.word filled other with ⟨next, step, after⟩
      refine ⟨next, step, .idle ?_ after⟩
      exact fun isOpen => closed (Or.inl isOpen.of_word.2)
  | @counting before words _ counting =>
      by_cases joins : isAnd text = true
      · rcases counting.and joins with ⟨next, step, after⟩
        refine ⟨next, step, ?_⟩
        rw [List.append_assoc]
        exact .joining joins after
      · rcases counting.word filled other (Bool.eq_false_iff.mpr joins) with ⟨next, step, after⟩
        rw [List.append_cons] at after
        refine ⟨next, step, .idle ?_ after⟩
        exact fun isOpen => joins isOpen.of_word.1
  | @joining before words conjunction _ joins joining =>
      rcases joining.word joins filled other with ⟨next, step, after⟩
      have regrouped : before ++ [.phrase words, .word conjunction, .word text] =
          (before ++ [.phrase words, .word conjunction]) ++ [.word text] := by simp
      rw [regrouped] at after
      refine ⟨next, step, .idle ?_ after⟩
      intro isOpen
      rcases isOpen.of_word.2 with ⟨others, phrase, same⟩
      have lasts : [Item.word conjunction] = [.phrase phrase] := by
        rw [List.append_cons] at same
        exact (List.append_inj' same rfl).2
      cases lasts

theorem ReadsTo.phrase {items : List Item} {reading : Reading} {words : List Word}
    (reads : ReadsTo items reading) (phrase : IsPhrase words) (closed : ¬ EndsOpen items) :
    ∃ next, words.foldlM (readWord false) reading = some next ∧
      ReadsTo (items ++ [.phrase words]) next := by
  cases reads with
  | idle _closed idle =>
      rcases idle.phrase phrase with ⟨next, step, counting⟩
      exact ⟨next, step, .counting counting⟩
  | counting counting => exact absurd (Or.inl ⟨_, _, rfl⟩) closed
  | joining joins joining => exact absurd (Or.inr ⟨_, _, _, joins, rfl⟩) closed

theorem Maximal.readsTo {items : List Item} (maximal : Maximal items)
    (filled : ∀ text, .word text ∈ items → text ≠ []) :
    ∃ reading, (items.flatMap Item.words).foldlM (readWord false) Reading.start = some reading ∧
      ReadsTo items reading := by
  induction items using List.reverseRecOn with
  | nil => exact ⟨Reading.start, rfl, .idle not_endsOpen_nil idle_start⟩
  | append_singleton items item ih =>
      rcases ih maximal.init (fun text member => filled text (List.mem_append_left _ member)) with
        ⟨reading, ran, reads⟩
      rw [List.flatMap_append, List.foldlM_append, ran, Option.bind_eq_bind, Option.bind_some,
        List.flatMap_singleton]
      cases item with
      | word text =>
          have other := maximal.others text (List.mem_append_right _ List.mem_cons_self)
          have some := filled text (List.mem_append_right _ List.mem_cons_self)
          rcases reads.word some other with ⟨next, step, after⟩
          refine ⟨next, ?_, after⟩
          rw [Item.words, List.foldlM_cons, step]
          rfl
      | phrase words =>
          have phrase := maximal.phrases words (List.mem_append_right _ List.mem_cons_self)
          exact reads.phrase phrase (maximal.apart items words [] rfl)

theorem cleanWord_str (n : Nat) : CleanWord (str n) := by
  constructor
  · exact Nat.toDigits_ne_nil
  · intro char member
    exact isSpace_of_isDigit (allDigits_toDigits n char member)

theorem Segmentation.cleanWord {textnum : List Char} {items : List Item}
    (segmentation : Segmentation (split textnum) items) {text : Word}
    (member : .word text ∈ items) : CleanWord text := by
  apply @cleanWord_of_mem_split textnum
  rw [← segmentation.spelled, List.mem_flatMap]
  exact ⟨.word text, member, List.mem_singleton_self text⟩

theorem Segmentation.clean_read {textnum : List Char} {items : List Item}
    (segmentation : Segmentation (split textnum) items) :
    ∀ word ∈ items.map Item.read, CleanWord word := by
  intro word member
  rcases List.mem_map.mp member with ⟨item, inItems, rfl⟩
  cases item with
  | word text => exact segmentation.cleanWord inItems
  | phrase words => exact cleanWord_str _

theorem Segmentation.clean_rendered {textnum : List Char} {items : List Item}
    (segmentation : Segmentation (split textnum) items) {rendered : List Word}
    (renders : List.Forall₂ (fun item word => Item.render item = some word) items rendered) :
    ∀ word ∈ rendered, CleanWord word := by
  intro word member
  obtain ⟨item, inItems, isWord⟩ := exists_of_forall₂ renders.flip member
  cases item with
  | word text =>
      cases isWord
      exact segmentation.cleanWord inItems
  | phrase words =>
      obtain ⟨value, _, rfl⟩ := Option.map_eq_some_iff.mp isWord
      exact cleanWord_str _

/-! ### The end of the text -/

theorem finish_of_filled {reading : Reading} {items : List Item}
    (new_text : reading.new_text = items.map Item.read) (filled : items ≠ []) :
    reading.finish = .text (join (items.map Item.read)) := by
  have present : reading.new_text ≠ [] := by
    rw [new_text]
    exact fun none => filled (List.map_eq_nil_iff.mp none)
  unfold Reading.finish
  rw [if_neg present, new_text]

theorem Joining.finish {words : List Word} {conjunction : Word} {reading : Reading}
    (joining : Joining [] words conjunction reading) (joins : isAnd conjunction = true) :
    reading.finish =
      .text (join ([Item.phrase words, .word conjunction].map Item.read)) := by
  have value : reading.result + reading.current = readValue words := by
    unfold readValue
    rw [← joining.values]
  unfold Reading.finish
  rw [joining.new_text, joining.previous_word, value, List.map_nil, if_pos rfl,
    if_pos (lower_of_isAnd joins)]
  rfl

/-- The text ends in a number phrase, or in one with a conjunction behind it that is not all. -/
def IsCut (items : List Item) : Prop :=
  EndsOpen items ∧ ¬ ∃ words conjunction, items = [.phrase words, .word conjunction]

theorem ReadsTo.finish {items : List Item} {reading : Reading} (reads : ReadsTo items reading)
    (other : ∃ text, .word text ∈ items) :
    ∃ shown rest, reading.finish = .text (join (shown.map Item.read)) ∧ items = shown ++ rest ∧
      (rest ≠ [] ↔ IsCut items) := by
  rcases other with ⟨text, inItems⟩
  cases reads with
  | idle closed idle =>
      refine ⟨items, [], finish_of_filled idle.new_text (List.ne_nil_of_mem inItems),
        (List.append_nil items).symm, ?_⟩
      exact iff_of_false (fun filled => filled rfl) (fun cut => closed cut.1)
  | @counting before words _ counting =>
      have earlier : .word text ∈ before := by
        rcases List.mem_append.mp inItems with inBefore | here
        · exact inBefore
        · cases List.mem_singleton.mp here
      refine ⟨before, [.phrase words],
        finish_of_filled counting.new_text (List.ne_nil_of_mem earlier), rfl, ?_⟩
      refine iff_of_true (List.cons_ne_nil _ _) ⟨Or.inl ⟨before, words, rfl⟩, ?_⟩
      rintro ⟨others, conjunction, same⟩
      have lasts : [Item.phrase words] = [.word conjunction] :=
        (List.append_inj' (same.trans (List.singleton_append).symm) rfl).2
      cases lasts
  | @joining before words conjunction _ joins joining =>
      cases before with
      | nil =>
          refine ⟨_, [], joining.finish joins, (List.append_nil _).symm, ?_⟩
          exact iff_of_false (fun filled => filled rfl)
            (fun cut => cut.2 ⟨words, conjunction, rfl⟩)
      | cons first others =>
          refine ⟨first :: others, [.phrase words, .word conjunction],
            finish_of_filled joining.new_text (List.cons_ne_nil first others), rfl, ?_⟩
          refine iff_of_true (List.cons_ne_nil _ _)
            ⟨Or.inr ⟨first :: others, words, conjunction, joins, rfl⟩, ?_⟩
          rintro ⟨phrase, last, same⟩
          have lengths := congrArg List.length same
          simp at lengths

theorem str_injective {first second : Nat} (same : str (first : Int) = str (second : Int)) :
    first = second := by
  have values := congrArg (fun digits => Nat.ofDigitChars 10 digits 0) same
  simp only [str, Nat.ofDigitChars_ten_toDigits] at values
  exact values

/-- What the reader writes for the items is what they should become exactly when all phrases are
plain. -/
theorem read_rendered_iff {items : List Item} {rendered : List Word}
    (renders : List.Forall₂ (fun item word => Item.render item = some word) items rendered) :
    items.map Item.read = rendered ↔ ∀ words, .phrase words ∈ items → IsPlain words := by
  induction renders with
  | nil => exact iff_of_true rfl (fun words member => absurd member List.not_mem_nil)
  | @cons item word items rendered isWord _ ih =>
      have here : Item.read item = word ↔ ∀ words, item = .phrase words → IsPlain words := by
        cases item with
        | word text =>
            cases isWord
            exact iff_of_true rfl (fun words impossible => by cases impossible)
        | phrase words =>
            obtain ⟨value, spoken, rfl⟩ := Option.map_eq_some_iff.mp isWord
            constructor
            · intro same others isSame
              cases isSame
              exact (readValue_eq_iff spoken).mp (str_injective same)
            · intro plain
              exact congrArg (fun value : Nat => str value)
                ((readValue_eq_iff spoken).mpr (plain words rfl))
      rw [List.map_cons, List.cons.injEq, ih, here]
      constructor
      · intro ⟨first, later⟩ words member
        rcases List.mem_cons.mp member with same | inItems
        · exact first words same.symm
        · exact later words inItems
      · intro all
        exact ⟨fun words same => all words (same ▸ List.mem_cons_self),
          fun words member => all words (List.mem_cons_of_mem item member)⟩

theorem exists_rendered {items : List Item}
    (plain : ∀ words, .phrase words ∈ items → IsPlain words) :
    ∃ rendered, List.Forall₂ (fun item word => Item.render item = some word) items rendered := by
  induction items with
  | nil => exact ⟨[], List.Forall₂.nil⟩
  | cons item items ih =>
      obtain ⟨rendered, renders⟩ :=
        ih (fun words member => plain words (List.mem_cons_of_mem item member))
      have isWord : ∃ word, Item.render item = some word := by
        cases item with
        | word text => exact ⟨text, rfl⟩
        | phrase words =>
            obtain ⟨value, spoken⟩ :=
              Option.isSome_iff_exists.mp (plain words List.mem_cons_self).spoken
            exact ⟨str value, congrArg (Option.map (fun value : Nat => str value)) spoken⟩
      exact ⟨isWord.choose :: rendered, List.Forall₂.cons isWord.choose_spec renders⟩

/-- A text with another word becomes what it should exactly when all of its number phrases are
plain and it does not end in a number phrase, nor, unless that is all, in one with a conjunction
behind it. -/
theorem textToNum_losesNothing_iff (textnum : List Char) (items : List Item)
    (segmentation : Segmentation (split textnum) items)
    (other : ∃ text, .word text ∈ items) :
    LosesNothing textnum items ↔
      (∀ words, .phrase words ∈ items → IsPlain words) ∧
        (EndsOpen items → ∃ words conjunction, items = [.phrase words, .word conjunction]) := by
  rcases segmentation.toMaximal.readsTo
    (fun text member => (segmentation.cleanWord member).nonempty) with ⟨reading, ran, reads⟩
  rw [segmentation.spelled] at ran
  rcases reads.finish other with ⟨shown, rest, finished, whole, isCut⟩
  have ends : rest = [] ↔
      (EndsOpen items → ∃ words conjunction, items = [.phrase words, .word conjunction]) := by
    rw [← not_iff_not, ← ne_eq, isCut, IsCut, Classical.not_imp]
  have cleanShown : ∀ word ∈ shown.map Item.read, CleanWord word := by
    intro word member
    apply segmentation.clean_read word
    rw [whole, List.map_append]
    exact List.mem_append_left _ member
  have written : ∀ {rendered : List Word},
      List.Forall₂ (fun item word => Item.render item = some word) items rendered →
        (textToNum textnum false = some (.text (join rendered)) ↔ shown.map Item.read = rendered) := by
    intro rendered renders
    rw [textToNum, ran, Option.map_some, finished, Option.some.injEq, Converted.text.injEq]
    exact ⟨join_injective cleanShown (segmentation.clean_rendered renders), congrArg join⟩
  rw [← ends]
  constructor
  · rintro ⟨rendered, renders, isText⟩
    have same := (written renders).mp isText
    have nothing : rest = [] := by
      have lengths := congrArg List.length same
      rw [← List.Forall₂.length_eq renders, whole, List.length_map, List.length_append] at lengths
      exact List.eq_nil_of_length_eq_zero (by omega)
    rw [nothing, List.append_nil] at whole
    rw [← whole] at same
    exact ⟨(read_rendered_iff renders).mp same, nothing⟩
  · intro ⟨plain, nothing⟩
    rw [nothing, List.append_nil] at whole
    obtain ⟨rendered, renders⟩ := exists_rendered plain
    refine ⟨rendered, renders, (written renders).mpr ?_⟩
    rw [← whole]
    exact (read_rendered_iff renders).mpr plain

def thousandCats : List Item :=
  [.phrase (["one", "thousand", "two", "hundred", "and", "five"].map String.toList),
    .word "cats".toList]

theorem isPhrase_thousand :
    IsPhrase (["one", "thousand", "two", "hundred", "and", "five"].map String.toList) := by
  have one : IsPhrase ["one".toList] := .single (by decide +kernel)
  have thousand := one.further (by decide +kernel : isNumberWord "thousand".toList = true)
  have two := thousand.further (by decide +kernel : isNumberWord "two".toList = true)
  have hundred := two.further (by decide +kernel : isNumberWord "hundred".toList = true)
  exact hundred.joined (by decide +kernel : isAnd "and".toList = true) (by decide +kernel)

theorem textToNum_losesNothing_iff_thousandCats :
    LosesNothing "one thousand two hundred and five cats".toList thousandCats := by
  have other : isNumberWord "cats".toList = false := by decide +kernel
  have maximal : Maximal thousandCats :=
    (Maximal.nil.phrase isPhrase_thousand not_endsOpen_nil).word other
  have segmentation :
      Segmentation (split "one thousand two hundred and five cats".toList) thousandCats :=
    { toMaximal := maximal
      spelled := by decide +kernel }
  refine (textToNum_losesNothing_iff _ _ segmentation
    ⟨"cats".toList, List.mem_cons_of_mem _ List.mem_cons_self⟩).mpr ⟨?_, fun _ => ⟨_, _, rfl⟩⟩
  intro words member
  rcases List.mem_pair.mp member with same | impossible
  · cases same
    exact ⟨by decide +kernel, by decide +kernel⟩
  · cases impossible

/-- The number at the end of the text is lost, a hundred alone is none, and a thousand millions
are one thousand. -/
theorem finalPhrase_lost :
    (Segmentation (split "cats five".toList) [.word "cats".toList, .phrase ["five".toList]] ∧
        ¬ LosesNothing "cats five".toList [.word "cats".toList, .phrase ["five".toList]]) ∧
      (textToNum "cats five".toList false = some (.text "cats".toList) ∧
        phraseValue ["five".toList] = some 5) ∧
      (textToNum "a hundred cats".toList false = some (.text "a 0 cats".toList) ∧
        phraseValue ["hundred".toList] = some 100) ∧
      textToNum "one thousand million cats".toList false = some (.text "1000 cats".toList) ∧
        phraseValue (["one", "thousand", "million"].map String.toList) = some (10 ^ 9) := by
  have otherWord : isNumberWord "cats".toList = false ∧ isAnd "cats".toList = false := by
    decide +kernel
  have closed : ¬ EndsOpen ([] ++ [.word "cats".toList]) := by
    intro isOpen
    have joins := isOpen.of_word.1
    rw [otherWord.2] at joins
    cases joins
  have maximal : Maximal [.word "cats".toList, .phrase ["five".toList]] :=
    (Maximal.nil.word otherWord.1).phrase (.single (by decide +kernel)) closed
  refine ⟨⟨⟨maximal, by decide +kernel⟩, ?_⟩, by decide +kernel, by decide +kernel,
    by decide +kernel⟩
  rintro ⟨rendered, renders, isText⟩
  cases renders with
  | @cons _ first _ rest isFirst later =>
      cases later with
      | @cons _ second _ none isSecond nothing =>
          cases nothing
          cases isFirst
          have isFive : Item.render (.phrase ["five".toList]) = some "5".toList := by decide +kernel
          cases isFive.symm.trans isSecond
          revert isText
          decide +kernel

end Numbers
