/-
The word table: which id a word gets, and when ids identify words.

Reading the seed corpus numbers its distinct words in the order of their first
occurrence.  The number is stored in sixteen bits, so the table identifies words
exactly up to 65535 of them.
-/

import DataSelection.Filter.Corpora

namespace Filter

open Library

/-- All words of a corpus in reading order. -/
def corpusWords (corpus : List Char) : List Word := (linesOf corpus).flatMap words

def assignId (wordids : WordMap) (word : Word) : WordMap :=
  if word ∈ wordids.keys then wordids
  else wordids.set word ((wordids.keys.length + missingWordId + 1) % 2 ^ 16)

/-- The table that reading a seed corpus builds. -/
def seedWordids (corpus : List Char) : WordMap := (corpusWords corpus).foldl assignId .empty

/-- The ids of a line's words under a finished table. -/
def idsOf (wordids : WordMap) (line : List Char) : List Nat :=
  (words line).map wordids.value

theorem value_of_notMem {wordids : WordMap} {word : Word} (missing : word ∉ wordids.keys) :
    wordids.value word = missingWordId := wordids.absent word missing

/-! ### Tokenizing -/

private theorem tokenizeWords_false (wordids : WordMap) (found : List Word) (ids : List Nat) :
    found.foldl (tokenizeWord false) (ids, wordids) =
      (ids ++ found.map wordids.value, wordids) := by
  induction found generalizing ids with
  | nil => simp
  | cons word rest ih =>
      rw [List.foldl_cons]
      by_cases known : word ∈ wordids.keys
      · simp only [tokenizeWord, if_pos known]
        rw [ih, List.map_cons, List.append_assoc, List.singleton_append]
      · simp only [tokenizeWord, if_neg known, Bool.false_eq_true, if_false]
        rw [ih, List.map_cons, value_of_notMem known, List.append_assoc, List.singleton_append]

/-- Without new ids, a word that is not in the table becomes the missing word. -/
theorem tokenize_false (line : List Char) (wordids : WordMap) :
    tokenize line wordids false = (idsOf wordids line, wordids) := by
  unfold tokenize idsOf
  rw [tokenizeWords_false, List.nil_append]

theorem mem_keys_assignId {wordids : WordMap} {word other : Word} :
    other ∈ (assignId wordids word).keys ↔ other = word ∨ other ∈ wordids.keys := by
  unfold assignId
  by_cases known : word ∈ wordids.keys
  · rw [if_pos known]
    constructor
    · exact Or.inr
    · intro either
      rcases either with same | present
      · rw [same]
        exact known
      · exact present
  · rw [if_neg known, DefaultDict.keys_set, DefaultDict.mem_keys_touch]

theorem value_assignId_of_mem {wordids : WordMap} {word other : Word}
    (known : other ∈ wordids.keys) :
    (assignId wordids word).value other = wordids.value other := by
  unfold assignId
  by_cases old : word ∈ wordids.keys
  · rw [if_pos old]
  · rw [if_neg old]
    apply DefaultDict.value_set_of_ne
    intro same
    exact old (same ▸ known)

theorem mem_keys_foldl_assignId {wordids : WordMap} {found : List Word} {word : Word} :
    word ∈ (found.foldl assignId wordids).keys ↔ word ∈ found ∨ word ∈ wordids.keys := by
  induction found generalizing wordids with
  | nil => simp
  | cons head rest ih =>
      rw [List.foldl_cons, ih, mem_keys_assignId, List.mem_cons]
      constructor
      · intro either
        rcases either with inRest | same | old
        · exact Or.inl (Or.inr inRest)
        · exact Or.inl (Or.inl same)
        · exact Or.inr old
      · intro either
        rcases either with (same | inRest) | old
        · exact Or.inr (Or.inl same)
        · exact Or.inl inRest
        · exact Or.inr (Or.inr old)

/-- A word keeps its id while the table grows. -/
theorem value_foldl_assignId_of_mem {wordids : WordMap} {word : Word} (found : List Word)
    (known : word ∈ wordids.keys) :
    (found.foldl assignId wordids).value word = wordids.value word := by
  induction found generalizing wordids with
  | nil => rfl
  | cons head rest ih =>
      rw [List.foldl_cons, ih (mem_keys_assignId.mpr (Or.inr known)),
        value_assignId_of_mem known]

private theorem tokenizeWord_true (ids : List Nat) (wordids : WordMap) (word : Word) :
    tokenizeWord true (ids, wordids) word =
      (ids ++ [(assignId wordids word).value word], assignId wordids word) := by
  unfold tokenizeWord assignId
  by_cases known : word ∈ wordids.keys
  · simp only [if_pos known]
  · simp only [if_neg known, if_true, DefaultDict.value_set_self]

private theorem tokenizeWords_true (wordids : WordMap) (found : List Word) (ids : List Nat) :
    found.foldl (tokenizeWord true) (ids, wordids) =
      (ids ++ found.map (found.foldl assignId wordids).value,
        found.foldl assignId wordids) := by
  induction found generalizing ids wordids with
  | nil => simp
  | cons word rest ih =>
      have inside : word ∈ (assignId wordids word).keys :=
        mem_keys_assignId.mpr (Or.inl rfl)
      rw [List.foldl_cons, tokenizeWord_true, ih, List.foldl_cons, List.map_cons,
        value_foldl_assignId_of_mem rest inside, List.append_assoc, List.singleton_append]

/-- With new ids, the ids of a line are those of the table it leaves behind. -/
theorem tokenize_true (line : List Char) (wordids : WordMap) :
    tokenize line wordids true =
      (idsOf ((words line).foldl assignId wordids) line,
        (words line).foldl assignId wordids) := by
  unfold tokenize idsOf
  rw [tokenizeWords_true, List.nil_append]

/-! ### The feature pass over a corpus -/

theorem mem_foldl_insert {grams features : List Ngram} {gram : Ngram} :
    gram ∈ grams.foldl (fun features gram => features.insert gram) features ↔
      gram ∈ grams ∨ gram ∈ features := by
  induction grams generalizing features with
  | nil => simp
  | cons head rest ih =>
      rw [List.foldl_cons, ih, List.mem_insert_iff, List.mem_cons]
      tauto

/-- The table after more words have been read. -/
def assignIds (addMissingWords : Bool) (wordids : WordMap) (found : List Word) : WordMap :=
  if addMissingWords then found.foldl assignId wordids else wordids

theorem tokenize_eq (addMissingWords : Bool) (line : List Char) (wordids : WordMap) :
    tokenize line wordids addMissingWords =
      (idsOf (assignIds addMissingWords wordids (words line)) line,
        assignIds addMissingWords wordids (words line)) := by
  cases addMissingWords with
  | false => exact tokenize_false line wordids
  | true => exact tokenize_true line wordids

private theorem assignIds_append (addMissingWords : Bool) (wordids : WordMap)
    (first second : List Word) :
    assignIds addMissingWords wordids (first ++ second) =
      assignIds addMissingWords (assignIds addMissingWords wordids first) second := by
  cases addMissingWords with
  | false => rfl
  | true => exact List.foldl_append

/-- The ids of a line that has been read do not change any more. -/
private theorem idsOf_assignIds (addMissingWords : Bool) (wordids : WordMap)
    (line : List Char) (more : List Word) :
    idsOf (assignIds addMissingWords (assignIds addMissingWords wordids (words line)) more) line =
      idsOf (assignIds addMissingWords wordids (words line)) line := by
  cases addMissingWords with
  | false => rfl
  | true =>
      unfold idsOf
      apply List.map_congr_left
      intro word present
      exact value_foldl_assignId_of_mem more
        (mem_keys_foldl_assignId.mpr (Or.inl present))

private theorem featuresOfLines (addMissingWords : Bool) (lines : List (List Char))
    (features : List Ngram) (wordids : WordMap) :
    ∃ collected,
      lines.foldl (fun state line => featuresOfLine addMissingWords line state)
          (features, wordids) =
        (collected, assignIds addMissingWords wordids (lines.flatMap words)) ∧
      ∀ gram, gram ∈ collected ↔ gram ∈ features ∨ ∃ line ∈ lines, gram ∈ getNgrams
        (idsOf (assignIds addMissingWords wordids (lines.flatMap words)) line) := by
  induction lines generalizing features wordids with
  | nil =>
      refine ⟨features, ?_, ?_⟩
      · cases addMissingWords <;> rfl
      · simp
  | cons line rest ih =>
      obtain ⟨collected, folded, members⟩ := ih
        ((getNgrams (idsOf (assignIds addMissingWords wordids (words line)) line)).foldl
          (fun features gram => features.insert gram) features)
        (assignIds addMissingWords wordids (words line))
      refine ⟨collected, ?_, ?_⟩
      · rw [List.foldl_cons, List.flatMap_cons, assignIds_append, ← folded]
        simp only [featuresOfLine, tokenize_eq]
      · intro gram
        rw [members gram, mem_foldl_insert, List.exists_mem_cons_iff, List.flatMap_cons,
          assignIds_append, idsOf_assignIds]
        tauto

/-- A feature pass collects the n-grams of every line under the table it ends with. -/
theorem getFeatures_eq (addMissingWords : Bool) (fuel : Nat) (corpus : List Char)
    (wordids : WordMap) (enough : corpus.length + 2 ≤ fuel) :
    ∃ features,
      getFeatures fuel corpus wordids addMissingWords =
        some (features, assignIds addMissingWords wordids (corpusWords corpus)) ∧
      ∀ gram, gram ∈ features ↔ ∃ line ∈ linesOf corpus, gram ∈ getNgrams
        (idsOf (assignIds addMissingWords wordids (corpusWords corpus)) line) := by
  obtain ⟨collected, folded, members⟩ :=
    featuresOfLines addMissingWords (linesOf corpus) [] wordids
  refine ⟨collected, ?_, ?_⟩
  · unfold getFeatures
    rw [IFStream.eofLoop_opened _ fuel corpus [] _ enough, folded]
    rfl
  · intro gram
    rw [members gram]
    simp only [List.not_mem_nil, false_or]
    rfl

/-! ### When ids identify words -/

/-- The ids count the keys from one, as far as sixteen bits can count. -/
def Numbered (wordids : WordMap) : Prop :=
  ∀ position (inRange : position < wordids.keys.length),
    wordids.value wordids.keys[position] = (position + 1) % 2 ^ 16

theorem Numbered.assignId {wordids : WordMap} (numbered : Numbered wordids) (word : Word) :
    Numbered (assignId wordids word) := by
  unfold Filter.assignId
  by_cases known : word ∈ wordids.keys
  · rw [if_pos known]
    exact numbered
  · rw [if_neg known]
    intro position inRange
    have keys : (wordids.set word ((wordids.keys.length + missingWordId + 1) % 2 ^ 16)).keys =
        wordids.keys ++ [word] := DefaultDict.keys_touch_of_notMem known
    simp only [keys, List.length_append, List.length_singleton] at inRange ⊢
    by_cases old : position < wordids.keys.length
    · rw [List.getElem_append_left old, DefaultDict.value_set_of_ne, numbered position old]
      intro same
      exact known (same ▸ List.getElem_mem old)
    · have last : position = wordids.keys.length := by omega
      subst last
      rw [List.getElem_append_right (Nat.le_refl _)]
      simp only [Nat.sub_self, List.getElem_cons_zero, DefaultDict.value_set_self]
      rfl

theorem numbered_foldl_assignId (found : List Word) {wordids : WordMap}
    (numbered : Numbered wordids) : Numbered (found.foldl assignId wordids) := by
  induction found generalizing wordids with
  | nil => exact numbered
  | cons word rest ih => exact ih (numbered.assignId word)

theorem numbered_seedWordids (corpus : List Char) : Numbered (seedWordids corpus) :=
  numbered_foldl_assignId (corpusWords corpus) (by intro position inRange; cases inRange)

/-- Distinct words have distinct ids, no word has the reserved id, and so a run of
ids stands for one run of words. -/
structure IdentifiesWords (wordids : WordMap) : Prop where
  distinct : ∀ left ∈ wordids.keys, ∀ right ∈ wordids.keys, left ≠ right →
    wordids.value left ≠ wordids.value right
  notMissing : ∀ word ∈ wordids.keys, wordids.value word ≠ missingWordId
  sequences : ∀ left right : List Word,
    (∀ word ∈ left, word ∈ wordids.keys) → (∀ word ∈ right, word ∈ wordids.keys) →
      (left.map wordids.value = right.map wordids.value ↔ left = right)

private theorem eq_of_map_eq {wordids : WordMap} {left right : List Word}
    (injective : ∀ first ∈ wordids.keys, ∀ second ∈ wordids.keys,
      wordids.value first = wordids.value second → first = second)
    (leftKnown : ∀ word ∈ left, word ∈ wordids.keys)
    (rightKnown : ∀ word ∈ right, word ∈ wordids.keys)
    (same : left.map wordids.value = right.map wordids.value) : left = right := by
  induction left generalizing right with
  | nil => exact (List.map_eq_nil_iff.mp same.symm).symm
  | cons word rest ih =>
      cases right with
      | nil => cases same
      | cons other others =>
          obtain ⟨headSame, tailSame⟩ := List.cons.inj same
          have words := injective word (leftKnown word List.mem_cons_self)
            other (rightKnown other List.mem_cons_self) headSame
          have rests := ih
            (fun item present => leftKnown item (List.mem_cons_of_mem word present))
            (fun item present => rightKnown item (List.mem_cons_of_mem other present)) tailSame
          rw [words, rests]

theorem Numbered.identifiesWords {wordids : WordMap} (numbered : Numbered wordids)
    (few : wordids.keys.length ≤ 65535) : IdentifiesWords wordids := by
  have injective : ∀ left ∈ wordids.keys, ∀ right ∈ wordids.keys,
      wordids.value left = wordids.value right → left = right := by
    intro left leftKnown right rightKnown same
    obtain ⟨first, firstRange, rfl⟩ := List.getElem_of_mem leftKnown
    obtain ⟨second, secondRange, rfl⟩ := List.getElem_of_mem rightKnown
    rw [numbered first firstRange, numbered second secondRange,
      Nat.mod_eq_of_lt (by omega), Nat.mod_eq_of_lt (by omega)] at same
    have positions : first = second := Nat.succ.inj same
    subst positions
    rfl
  refine ⟨?_, ?_, ?_⟩
  · intro left leftKnown right rightKnown different same
    exact different (injective left leftKnown right rightKnown same)
  · intro word known missing
    obtain ⟨position, inRange, rfl⟩ := List.getElem_of_mem known
    rw [numbered position inRange, Nat.mod_eq_of_lt (by omega)] at missing
    exact Nat.succ_ne_zero position missing
  · intro left right leftKnown rightKnown
    constructor
    · exact eq_of_map_eq injective leftKnown rightKnown
    · intro same
      rw [same]

/-- One word more than sixteen bits can number receives the reserved id. -/
theorem Numbered.exists_missing {wordids : WordMap} (numbered : Numbered wordids)
    (many : 65535 < wordids.keys.length) :
    ∃ word ∈ wordids.keys, wordids.value word = missingWordId := by
  refine ⟨wordids.keys[65535], List.getElem_mem many, ?_⟩
  rw [numbered 65535 many]
  rfl

theorem mem_keys_seedWordids {corpus : List Char} {word : Word} :
    word ∈ (seedWordids corpus).keys ↔ word ∈ corpusWords corpus := by
  unfold seedWordids
  rw [mem_keys_foldl_assignId]
  simp only [DefaultDict.keys_empty, List.not_mem_nil, or_false]

theorem length_keys_seedWordids (corpus : List Char) :
    (seedWordids corpus).keys.length = (corpusWords corpus).dedup.length := by
  apply List.Perm.length_eq
  rw [List.perm_ext_iff_of_nodup (seedWordids corpus).nodup (List.nodup_dedup _)]
  intro word
  rw [List.mem_dedup, mem_keys_seedWordids]

theorem seedWordids_identifiesWords_iff (corpus : List Char) :
    IdentifiesWords (seedWordids corpus) ↔ (corpusWords corpus).dedup.length ≤ 65535 := by
  rw [← length_keys_seedWordids]
  constructor
  · intro identifies
    by_contra many
    obtain ⟨word, known, missing⟩ :=
      (numbered_seedWordids corpus).exists_missing (Nat.lt_of_not_le many)
    exact identifies.notMissing word known missing
  · exact (numbered_seedWordids corpus).identifiesWords

/-- The table left by the seed pass identifies the words of the seed corpus exactly
when sixteen bits can number them. -/
theorem getFeatures_identifiesWords_iff (fuel : Nat) (corpus : List Char)
    (enough : corpus.length + 2 ≤ fuel) :
    ∃ features wordids, getFeatures fuel corpus .empty true = some (features, wordids) ∧
      (∀ word, word ∈ wordids.keys ↔ word ∈ corpusWords corpus) ∧
      (IdentifiesWords wordids ↔ (corpusWords corpus).dedup.length ≤ 65535) := by
  obtain ⟨features, read, _members⟩ := getFeatures_eq true fuel corpus .empty enough
  exact ⟨features, seedWordids corpus, read, fun _ => mem_keys_seedWordids,
    seedWordids_identifiesWords_iff corpus⟩

theorem getFeatures_identifiesWords_iff_twoWords :
    ∃ features wordids,
      getFeatures 5 ['a', ' ', 'b'] .empty true = some (features, wordids) ∧
      (∀ word, word ∈ wordids.keys ↔ word ∈ corpusWords ['a', ' ', 'b']) ∧
      (IdentifiesWords wordids ↔ (corpusWords ['a', ' ', 'b']).dedup.length ≤ 65535) :=
  getFeatures_identifiesWords_iff 5 ['a', ' ', 'b'] (Nat.le_refl 5)

/-! ### A seed corpus with too many words -/

theorem words_intercalate (found : List Word) (nonempty : ∀ word ∈ found, word ≠ [])
    (clean : ∀ word ∈ found, ∀ char ∈ word, char ≠ ' ' ∧ char ≠ '\t') :
    words ([' '].intercalate found) = found := by
  apply tokens_intercalate (by decide) found nonempty
  intro word member char present
  obtain ⟨notSpace, notTab⟩ := clean word member char present
  simp [notSpace, notTab]

private theorem mem_intercalate {separator char : Char} {found : List Word}
    (present : char ∈ [separator].intercalate found) :
    char = separator ∨ ∃ word ∈ found, char ∈ word := by
  induction found with
  | nil => cases present
  | cons word rest ih =>
      cases rest with
      | nil =>
          rw [List.intercalate_singleton] at present
          exact Or.inr ⟨word, List.mem_cons_self, present⟩
      | cons second others =>
          rw [List.intercalate_cons_cons, List.append_assoc, List.mem_append,
            List.singleton_append, List.mem_cons] at present
          rcases present with inWord | same | later
          · exact Or.inr ⟨word, List.mem_cons_self, inWord⟩
          · exact Or.inl same
          · rcases ih later with same | ⟨other, member, inOther⟩
            · exact Or.inl same
            · exact Or.inr ⟨other, List.mem_cons_of_mem word member, inOther⟩

private def letter (digit : Nat) : Char := Char.ofNat (97 + digit)

/-- The four-letter word with the hexadecimal digits of a number as letters. -/
private def fourLetterWord (number : Nat) : Word :=
  [letter (number / 4096), letter (number / 256 % 16), letter (number / 16 % 16),
    letter (number % 16)]

/-- All 65536 words of four letters from `a` to `p`, on one line. -/
def crowdedSeed : List Char :=
  [' '].intercalate ((List.range 65536).map fourLetterWord)

private theorem letter_facts : ∀ digit : Fin 16,
    letter digit ≠ ' ' ∧ letter digit ≠ '\t' ∧ letter digit ≠ '\n' ∧
      ∀ other : Fin 16, letter digit = letter other → digit = other := by
  decide

private theorem letter_clean {digit : Nat} (small : digit < 16) :
    letter digit ≠ ' ' ∧ letter digit ≠ '\t' ∧ letter digit ≠ '\n' := by
  obtain ⟨notSpace, notTab, notNewline, _⟩ := letter_facts ⟨digit, small⟩
  exact ⟨notSpace, notTab, notNewline⟩

private theorem letter_injective {left right : Nat} (leftSmall : left < 16)
    (rightSmall : right < 16) (same : letter left = letter right) : left = right :=
  congrArg Fin.val ((letter_facts ⟨left, leftSmall⟩).2.2.2 ⟨right, rightSmall⟩ same)

private theorem fourLetterWord_clean {number : Nat} (small : number < 65536) :
    ∀ char ∈ fourLetterWord number, char ≠ ' ' ∧ char ≠ '\t' ∧ char ≠ '\n' := by
  intro char present
  simp only [fourLetterWord, List.mem_cons, List.not_mem_nil, or_false] at present
  rcases present with rfl | rfl | rfl | rfl
  · exact letter_clean (by omega)
  · exact letter_clean (by omega)
  · exact letter_clean (by omega)
  · exact letter_clean (by omega)

private theorem fourLetterWord_injective {left right : Nat} (leftSmall : left < 65536)
    (rightSmall : right < 65536) (same : fourLetterWord left = fourLetterWord right) :
    left = right := by
  simp only [fourLetterWord, List.cons.injEq, and_true] at same
  rcases same with ⟨first, second, third, fourth⟩
  have firstDigit := letter_injective (by omega) (by omega) first
  have secondDigit := letter_injective (by omega) (by omega) second
  have thirdDigit := letter_injective (by omega) (by omega) third
  have fourthDigit := letter_injective (by omega) (by omega) fourth
  omega

private theorem mem_fourLetterWords {word : Word}
    (member : word ∈ (List.range 65536).map fourLetterWord) :
    ∃ number < 65536, fourLetterWord number = word := by
  rcases List.mem_map.mp member with ⟨number, inRange, same⟩
  exact ⟨number, List.mem_range.mp inRange, same⟩

theorem corpusWords_crowdedSeed :
    corpusWords crowdedSeed = (List.range 65536).map fourLetterWord := by
  have oneLine : linesOf crowdedSeed = [crowdedSeed] := by
    apply linesOf_of_noNewline
    intro present
    rcases mem_intercalate present with space | ⟨word, member, inWord⟩
    · exact absurd space (by decide)
    · obtain ⟨number, small, rfl⟩ := mem_fourLetterWords member
      exact (fourLetterWord_clean small '\n' inWord).2.2 rfl
  unfold corpusWords
  rw [oneLine, List.flatMap_singleton]
  apply words_intercalate
  · intro word member
    obtain ⟨number, _small, rfl⟩ := mem_fourLetterWords member
    exact List.cons_ne_nil _ _
  · intro word member char present
    obtain ⟨number, small, rfl⟩ := mem_fourLetterWords member
    obtain ⟨notSpace, notTab, _⟩ := fourLetterWord_clean small char present
    exact ⟨notSpace, notTab⟩

theorem crowdedSeed_notIdentified :
    ∃ features wordids,
      getFeatures (crowdedSeed.length + 2) crowdedSeed .empty true = some (features, wordids) ∧
      ¬ IdentifiesWords wordids ∧ ∃ word ∈ wordids.keys, wordids.value word = missingWordId := by
  obtain ⟨features, read, _members⟩ :=
    getFeatures_eq true (crowdedSeed.length + 2) crowdedSeed .empty (Nat.le_refl _)
  have distinct : ((List.range 65536).map fourLetterWord).Nodup := by
    apply List.Nodup.map_on _ List.nodup_range
    intro left leftMember right rightMember same
    exact fourLetterWord_injective (List.mem_range.mp leftMember)
      (List.mem_range.mp rightMember) same
  have size : (seedWordids crowdedSeed).keys.length = 65536 := by
    rw [length_keys_seedWordids, corpusWords_crowdedSeed, List.dedup_eq_self.mpr distinct,
      List.length_map, List.length_range]
  obtain ⟨word, known, missing⟩ :=
    (numbered_seedWordids crowdedSeed).exists_missing (by rw [size]; decide)
  refine ⟨features, seedWordids crowdedSeed, read, ?_, word, known, missing⟩
  intro identifies
  exact identifies.notMissing word known missing

end Filter
