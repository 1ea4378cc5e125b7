/-
Cluster names in the place of their words.

The words of all clusters are replaced one after another, each of them everywhere in the
text.  What is replaced contains an `@` from then on, so a word that was replaced once
never comes back, and a cluster that occurs has a word which does not.
-/

import DataSelection.WittenBell.ClusterMass

namespace WittenBell

open Library Dictionary

def isWordChar (char : Char) : Bool := char.isAlphanum || char = '_'

/-- The pattern `^[a-zA-Z0-9_\']+$`. -/
def isClusterWord (word : Word) : Bool := word ≠ [] && word.all isNameChar

/-- The assertion `\b` between two characters or at an end of the text. -/
def isBoundary (before after : Option Char) : Bool :=
  before.any isWordChar != after.any isWordChar

/-- The match of `(((?<!\')(?<!@)(?<!!))|^)\bword\b(?!\')` at the start of a text with a
character before it. -/
def matchesWord (word : Word) (before : Option Char) (text : List Char) : Bool :=
  word.isPrefixOf text && !before.any (fun char => char ∈ ['\'', '@', '!']) &&
    isBoundary before text.head? && isBoundary word.getLast? (text.drop word.length).head? &&
    (text.drop word.length).head? ≠ some '\''

/-- `re.sub` with this pattern.  The characters of a match are passed over. -/
def replaceWord (name word : Word) : Option Char → Nat → List Char → List Char
  | _, _, [] => []
  | _, covered + 1, char :: rest => replaceWord name word (some char) covered rest
  | before, 0, char :: rest =>
      if matchesWord word before (char :: rest) then
        name ++ replaceWord name word (some char) (word.length - 1) rest
      else char :: replaceWord name word (some char) 0 rest

/-- `substituteClusters` for a dictionary of clusters, which it goes through in some
order. -/
def substituteClusters (clusters : List (Word × List Word)) (text : List Char) : List Char :=
  clusters.foldl (fun text entry =>
    entry.2.foldl (fun text word => replaceWord entry.1 word none 0 text) text) text

/-! ### Whitespace ends a match -/

theorem accepts_of_isSpace (accept : Char → Bool)
    (spaces : [' ', '\t', '\n', '\r', '\x0b', '\x0c'].all accept = true) {char : Char}
    (space : isSpace char = true) : accept char = true :=
  List.all_eq_true.mp spaces char (of_decide_eq_true space)

theorem isWordChar_of_isSpace {char : Char} (space : isSpace char = true) :
    isWordChar char = false :=
  Bool.not_eq_true' _ ▸ accepts_of_isSpace (fun other => !isWordChar other) rfl space

theorem isSpace_of_isNameChar {char : Char} (isName : isNameChar char = true) :
    isSpace char = false := by
  by_contra space
  have noName := accepts_of_isSpace (fun other => !isNameChar other) rfl
    (Bool.eq_true_of_not_eq_false space)
  rw [isName] at noName
  cases noName

theorem open_of_isSpace {char : Char} (space : isSpace char = true) :
    (some char).any (fun other => other ∈ ['\'', '@', '!']) = false :=
  Bool.not_eq_true' _ ▸ accepts_of_isSpace
    (fun char => !(some char).any (fun other => other ∈ ['\'', '@', '!'])) rfl space

theorem isBoundary_before {char : Char} (space : isSpace char = true) (after : Option Char) :
    isBoundary (some char) after = isBoundary none after := by
  unfold isBoundary
  rw [Option.any_some, isWordChar_of_isSpace space]
  rfl

theorem isBoundary_after {char : Char} (space : isSpace char = true) (before : Option Char) :
    isBoundary before (some char) = isBoundary before none := by
  unfold isBoundary
  rw [Option.any_some, isWordChar_of_isSpace space]
  rfl

section

variable {word : Word} (clean : CleanWord word)

include clean

theorem isPrefixOf_append_space {front rest : List Char} {space : Char}
    (isSpace : isSpace space = true) :
    word.isPrefixOf (front ++ space :: rest) = word.isPrefixOf front := by
  rw [Bool.eq_iff_iff, List.isPrefixOf_iff_prefix, List.isPrefixOf_iff_prefix]
  constructor
  · intro isPrefix
    rcases List.prefix_or_prefix_of_prefix isPrefix (List.prefix_append front _) with
      within | ⟨others, rfl⟩
    · exact within
    · rw [List.prefix_append_right_inj] at isPrefix
      cases others with
      | nil => simp
      | cons head others =>
          rcases List.cons_prefix_cons.mp isPrefix with ⟨rfl, _⟩
          have notSpace := clean.clean head (by simp)
          rw [isSpace] at notSpace
          cases notSpace
  · exact fun within => within.trans (List.prefix_append _ _)

theorem matchesWord_append_space (before : Option Char) {front rest : List Char}
    (filled : front ≠ []) {space : Char} (isSpace : isSpace space = true) :
    matchesWord word before (front ++ space :: rest) = matchesWord word before front := by
  unfold matchesWord
  rw [isPrefixOf_append_space clean isSpace, List.head?_append_of_ne_nil front filled]
  cases isPrefix : word.isPrefixOf front with
  | false => rfl
  | true =>
      rcases List.isPrefixOf_iff_prefix.mp isPrefix with ⟨behind, rfl⟩
      rw [List.append_assoc, List.drop_left, List.drop_left]
      cases behind with
      | cons head others => rfl
      | nil =>
          have noQuote : space ≠ '\'' := by
            rintro rfl
            cases isSpace
          rw [List.nil_append, List.head?_cons, isBoundary_after isSpace, List.head?_nil]
          simp [noQuote]

theorem matchesWord_space (before : Option Char) {rest : List Char} {space : Char}
    (isSpace : isSpace space = true) : matchesWord word before (space :: rest) = false := by
  have missed : word.isPrefixOf ([] ++ space :: rest) = word.isPrefixOf [] :=
    isPrefixOf_append_space clean isSpace
  have filled : word.isPrefixOf [] = false := by
    cases word with
    | nil => exact absurd rfl clean.nonempty
    | cons head others => rfl
  unfold matchesWord
  rw [List.nil_append, filled] at missed
  rw [missed]
  rfl

omit clean in
theorem matchesWord_behind_space {space : Char} (isSpace : isSpace space = true)
    (text : List Char) : matchesWord word (some space) text = matchesWord word none text := by
  unfold matchesWord
  rw [isBoundary_before isSpace, open_of_isSpace isSpace]
  rfl

/-! ### Token by token -/

variable {name : Word}

omit clean in
theorem replaceWord_behind_space {space : Char} (isSpace : isSpace space = true)
    (text : List Char) :
    replaceWord name word (some space) 0 text = replaceWord name word none 0 text := by
  cases text with
  | nil => rfl
  | cons char rest => rw [replaceWord, replaceWord, matchesWord_behind_space isSpace]

theorem replaceWord_append_space {front rest : List Char} {space : Char}
    (isSpace : isSpace space = true) (before : Option Char) {covered : Nat}
    (within : covered ≤ front.length) :
    replaceWord name word before covered (front ++ space :: rest) =
      replaceWord name word before covered front ++ space :: replaceWord name word none 0 rest := by
  induction front generalizing before covered with
  | nil =>
      have atStart : covered = 0 := Nat.le_zero.mp within
      rw [atStart]
      change replaceWord name word before 0 (space :: rest) = space :: _
      rw [replaceWord, matchesWord_space clean before isSpace, if_neg Bool.false_ne_true,
        replaceWord_behind_space isSpace]
  | cons char front ih =>
      cases covered with
      | succ covered =>
          rw [List.cons_append, replaceWord, replaceWord]
          exact ih (some char) (Nat.le_of_succ_le_succ within)
      | zero =>
          have same : matchesWord word before (char :: (front ++ space :: rest)) =
              matchesWord word before (char :: front) :=
            matchesWord_append_space clean before (List.cons_ne_nil char front) isSpace
          rw [List.cons_append, replaceWord, replaceWord, same]
          by_cases matched : matchesWord word before (char :: front) = true
          · have isPrefix : word <+: char :: front := by
              unfold matchesWord at matched
              simp only [Bool.and_eq_true] at matched
              exact List.isPrefixOf_iff_prefix.mp matched.1.1.1.1
            have length := isPrefix.length_le
            rw [List.length_cons] at length
            rw [if_pos matched, if_pos matched, ih (some char) (by omega), List.append_assoc]
          · rw [if_neg matched, if_neg matched, ih (some char) (Nat.zero_le _), List.cons_append]

omit clean in
theorem mem_replaceWord {before : Option Char} {covered : Nat} {text : List Char} {char : Char}
    (member : char ∈ replaceWord name word before covered text) : char ∈ name ∨ char ∈ text := by
  induction text generalizing before covered with
  | nil => cases member
  | cons head rest ih =>
      have later : char ∈ name ∨ char ∈ rest → char ∈ name ∨ char ∈ head :: rest :=
        fun found => found.imp_right (List.mem_cons_of_mem head)
      cases covered with
      | succ covered => exact later (ih member)
      | zero =>
          rw [replaceWord] at member
          by_cases matched : matchesWord word before (head :: rest) = true
          · rw [if_pos matched] at member
            rcases List.mem_append.mp member with inName | inRest
            · exact Or.inl inName
            · exact later (ih inRest)
          · rw [if_neg matched] at member
            rcases List.mem_cons.mp member with rfl | inRest
            · exact Or.inr List.mem_cons_self
            · exact later (ih inRest)

omit clean in
theorem replaceWord_unchanged_or {mark : Char} (marked : mark ∈ name) (before : Option Char)
    (text : List Char) :
    replaceWord name word before 0 text = text ∨ mark ∈ replaceWord name word before 0 text := by
  induction text generalizing before with
  | nil => exact Or.inl rfl
  | cons head rest ih =>
      rw [replaceWord]
      by_cases matched : matchesWord word before (head :: rest) = true
      · rw [if_pos matched]
        exact Or.inr (List.mem_append_left _ marked)
      · rw [if_neg matched]
        rcases ih (some head) with same | found
        · rw [same]
          exact Or.inl rfl
        · exact Or.inr (List.mem_cons_of_mem head found)

omit clean in
theorem cleanWord_replaceWord (isName : CleanWord name) {token : Word} (isToken : CleanWord token) :
    CleanWord (replaceWord name word none 0 token) := by
  constructor
  · cases token with
    | nil => exact absurd rfl isToken.nonempty
    | cons head rest =>
        rw [replaceWord]
        split_ifs
        · exact List.append_ne_nil_of_left_ne_nil isName.nonempty _
        · exact List.cons_ne_nil _ _
  · intro char member
    rcases mem_replaceWord member with inName | inToken
    · exact isName.clean char inName
    · exact isToken.clean char inToken

omit clean in
private theorem mem_split_replaceWord_clean (isName : CleanWord name) {front : List Char}
    (isClean : ∀ char ∈ front, isSpace char = false) {token : Word}
    (member : token ∈ split (replaceWord name word none 0 front)) :
    ∃ old ∈ split front, token = replaceWord name word none 0 old := by
  by_cases empty : front = []
  · rw [empty] at member
    cases member
  · have replaced : CleanWord (replaceWord name word none 0 front) :=
      cleanWord_replaceWord isName ⟨empty, isClean⟩
    rw [split, tokens_word replaced.nonempty replaced.clean, List.mem_singleton] at member
    refine ⟨front, ?_, member⟩
    rw [split, tokens_word empty isClean]
    exact List.mem_singleton_self front

private theorem mem_split_replaceWord_append (isName : CleanWord name) {front text : List Char}
    (isClean : ∀ char ∈ front, isSpace char = false) {token : Word}
    (member : token ∈ split (replaceWord name word none 0 (front ++ text))) :
    ∃ old ∈ split (front ++ text), token = replaceWord name word none 0 old := by
  induction text generalizing front with
  | nil =>
      rw [List.append_nil] at member ⊢
      exact mem_split_replaceWord_clean isName isClean member
  | cons char rest ih =>
      cases space : isSpace char with
      | true =>
          have parts : split (front ++ char :: rest) = split front ++ split rest :=
            tokens_append_cons _ _ space
          rw [replaceWord_append_space clean space none (Nat.zero_le _), split,
            tokens_append_cons _ _ space] at member
          rw [parts]
          rcases List.mem_append.mp member with inFront | inRest
          · rcases mem_split_replaceWord_clean isName isClean inFront with ⟨old, isOld, same⟩
            exact ⟨old, List.mem_append_left _ isOld, same⟩
          · have fresh : ∀ other ∈ ([] : List Char), isSpace other = false :=
              fun other impossible => absurd impossible List.not_mem_nil
            rcases ih fresh inRest with ⟨old, isOld, same⟩
            exact ⟨old, List.mem_append_right _ isOld, same⟩
      | false =>
          have longer : ∀ other ∈ front ++ [char], isSpace other = false := by
            intro other inFront
            rcases List.mem_append.mp inFront with inFront | isLast
            · exact isClean other inFront
            · rw [List.mem_singleton.mp isLast]
              exact space
          rw [List.append_cons] at member ⊢
          exact ih longer member

/-- The words of the new text are the old words with the replacement made in each. -/
theorem mem_split_replaceWord (isName : CleanWord name) {text : List Char} {token : Word}
    (member : token ∈ split (replaceWord name word none 0 text)) :
    ∃ old ∈ split text, token = replaceWord name word none 0 old := by
  have fresh : ∀ other ∈ ([] : List Char), isSpace other = false :=
    fun other impossible => absurd impossible List.not_mem_nil
  exact mem_split_replaceWord_append clean isName fresh member

end

/-! ### No word comes back -/

theorem isNameChar_of_isClusterWord {word : Word} (isWord : isClusterWord word = true) :
    word ≠ [] ∧ ∀ char ∈ word, isNameChar char = true := by
  unfold isClusterWord at isWord
  rw [Bool.and_eq_true, decide_eq_true_iff, List.all_eq_true] at isWord
  exact isWord

theorem cleanWord_of_isClusterWord {word : Word} (isWord : isClusterWord word = true) :
    CleanWord word := by
  rcases isNameChar_of_isClusterWord isWord with ⟨nonempty, names⟩
  exact ⟨nonempty, fun char member => isSpace_of_isNameChar (names char member)⟩

theorem cleanWord_of_isClassName {name : Word} (isName : isClassName name = true) :
    CleanWord name := by
  unfold isClassName at isName
  split at isName
  · rw [Bool.and_eq_true, List.all_eq_true] at isName
    refine ⟨List.cons_ne_nil _ _, ?_⟩
    intro char member
    rcases List.mem_cons.mp member with rfl | member
    · rfl
    · rcases List.mem_cons.mp member with rfl | member
      · rfl
      · exact isSpace_of_isNameChar (isName.2 char member)
  · cases isName

/-- The character `@` is in every cluster name and in no word of a cluster. -/
theorem marked_of_isClassName {name : Word} (isName : isClassName name = true) : '@' ∈ name := by
  unfold isClassName at isName
  split at isName
  · exact List.mem_cons_self
  · cases isName

theorem unmarked_of_isClusterWord {word : Word} (isWord : isClusterWord word = true) :
    '@' ∉ word := by
  intro member
  have isName := (isNameChar_of_isClusterWord isWord).2 '@' member
  cases isName

theorem matchesWord_self {word : Word} (first : word.head?.any isWordChar = true)
    (last : word.getLast?.any isWordChar = true) : matchesWord word none word = true := by
  have whole : word.isPrefixOf word = true := List.isPrefixOf_iff_prefix.mpr (List.prefix_refl word)
  unfold matchesWord isBoundary
  rw [whole, first, last, List.drop_length]
  rfl

section

variable {name word : Word} (isName : isClassName name = true)
  (isWord : isClusterWord word = true)

include isName isWord

theorem notMem_split_replaceWord {other : Word} (unmarked : '@' ∉ other) {text : List Char}
    (absent : other ∉ split text) : other ∉ split (replaceWord name word none 0 text) := by
  intro member
  rcases mem_split_replaceWord (cleanWord_of_isClusterWord isWord) (cleanWord_of_isClassName isName)
    member with ⟨old, isOld, same⟩
  have either : replaceWord name word none 0 old = old ∨ '@' ∈ replaceWord name word none 0 old :=
    replaceWord_unchanged_or (marked_of_isClassName isName) none old
  rcases either with unchanged | marked
  · rw [unchanged] at same
    rw [same] at absent
    exact absent isOld
  · rw [← same] at marked
    exact unmarked marked

theorem notMem_split_replaceWord_self (first : word.head?.any isWordChar = true)
    (last : word.getLast?.any isWordChar = true) (text : List Char) :
    word ∉ split (replaceWord name word none 0 text) := by
  intro member
  have unmarked := unmarked_of_isClusterWord isWord
  rcases mem_split_replaceWord (cleanWord_of_isClusterWord isWord) (cleanWord_of_isClassName isName)
    member with ⟨old, isOld, same⟩
  have marked := marked_of_isClassName isName
  have either : replaceWord name word none 0 old = old ∨ '@' ∈ replaceWord name word none 0 old :=
    replaceWord_unchanged_or marked none old
  rcases either with unchanged | found
  · -- the word itself is replaced
    rw [unchanged] at same
    have inNew : '@' ∈ replaceWord name word none 0 word := by
      have matched := matchesWord_self first last
      cases isNonempty : word with
      | nil => exact absurd isNonempty (isNameChar_of_isClusterWord isWord).1
      | cons head rest =>
          rw [isNonempty] at matched
          rw [replaceWord, if_pos matched]
          exact List.mem_append_left _ marked
    rw [← same] at unchanged
    rw [unchanged] at inNew
    exact unmarked inNew
  · rw [← same] at found
    exact unmarked found

end

/-- After the substitution a plain word of a cluster is no word of the text. -/
theorem notMem_split_substituteClusters {clusters : List (Word × List Word)}
    (names : ∀ entry ∈ clusters, isClassName entry.1 = true)
    (words : ∀ entry ∈ clusters, ∀ word ∈ entry.2, isClusterWord word = true)
    {entry : Word × List Word} (isEntry : entry ∈ clusters) {word : Word} (isWord : word ∈ entry.2)
    (first : word.head?.any isWordChar = true) (last : word.getLast?.any isWordChar = true)
    (text : List Char) : word ∉ split (substituteClusters clusters text) := by
  have unmarked := unmarked_of_isClusterWord (words entry isEntry word isWord)
  have keeps : ∀ other ∈ clusters, ∀ replaced ∈ other.2, ∀ text : List Char, word ∉ split text →
      word ∉ split (replaceWord other.1 replaced none 0 text) :=
    fun other isOther replaced isReplaced text absent =>
      notMem_split_replaceWord (names other isOther) (words other isOther replaced isReplaced)
        unmarked absent
  apply foldl_established (fun text => word ∉ split text) isEntry
  · intro text
    apply foldl_established (fun text => word ∉ split text) isWord
    · exact notMem_split_replaceWord_self (names entry isEntry) (words entry isEntry word isWord)
        first last
    · exact keeps entry isEntry
  · intro other isOther text absent
    exact List.foldlRecOn (motive := fun text => word ∉ split text) other.2 _ absent
      (fun text absent replaced isReplaced => keeps other isOther replaced isReplaced text absent)

/-! ### The words of the lines -/

theorem split_space_cons {char : Char} (space : isSpace char = true) (rest : List Char) :
    split (char :: rest) = split rest := tokens_append_cons [] rest space

inductive Lined : List Char → List (List Char) → Prop
  | empty : Lined [] []
  | last (line : List Char) : Lined line [line]
  | ended (line : List Char) (newline : Char) (rest : List Char) (others : List (List Char))
      (space : isSpace newline = true) (behind : split rest = others.flatMap split) :
      Lined (line ++ newline :: rest) (line :: others)

theorem Lined.split_eq {text : List Char} {lines : List (List Char)} (lined : Lined text lines) :
    split text = lines.flatMap split := by
  cases lined with
  | empty => rfl
  | last => rw [List.flatMap_singleton]
  | ended line newline rest others space behind =>
      rw [List.flatMap_cons, ← behind]
      exact tokens_append_cons line rest space

theorem splitlines_lined (text : List Char) : Lined text (splitlines text) := by
  fun_induction splitlines text with
  | case1 => exact .empty
  | case2 rest ih =>
      exact .ended [] '\r' ('\n' :: rest) _ rfl ((split_space_cons rfl rest).trans ih.split_eq)
  | case3 char rest notBoth isEnd ih =>
      have space : isSpace char = true := by
        rcases isEnd with rfl | rfl <;> rfl
      exact .ended [] char rest _ space ih.split_eq
  | case4 char rest notBoth notEnd empty ih =>
      rw [empty] at ih
      cases ih
      exact .last [char]
  | case5 char rest notBoth notEnd line others found ih =>
      rw [found] at ih
      cases ih with
      | last => exact .last _
      | ended _ newline behind _ space same =>
          exact .ended (char :: line) newline behind others space same

theorem mem_wordList_of_seen {corpus : Corpus} {smoothed : Smoothed} (nonempty : corpus.lines ≠ [])
    (smoothing : smooth corpus = some smoothed) {word : Word}
    (isSeen : smoothed.dictionary.Seen [word]) : ∃ line ∈ corpus.lines, word ∈ wordList line := by
  rcases smooth_estimated corpus nonempty with
    ⟨counted, uniCount, estimated, _, isSmoothed, populated, estimates⟩
  rw [smoothing] at isSmoothed
  cases isSmoothed
  have occurs := ((populated.seen [word]).mp ((estimates.seen [word]).mp isSeen)).2
  rcases total_pos_iff_isInfix.mp occurs with ⟨line, inLines, isRun⟩
  exact ⟨line, inLines, (List.singleton_infix_iff word _).mp isRun⟩

/-- The text in which the clusters have been substituted is one for which the expansion is
meant, when every cluster has a word that begins and ends with a letter, a digit or an
underscore. -/
theorem substituteClusters_substituted {entries : List (Word × List Word)} {clusters : Clusters}
    (listed : ∀ name words, clusters.members name = some words → (name, words) ∈ entries)
    (names : ∀ entry ∈ entries, isClassName entry.1 = true)
    (isWord : ∀ entry ∈ entries, ∀ word ∈ entry.2, isClusterWord word = true)
    (plain : ∀ entry ∈ entries, ∃ word ∈ entry.2,
      word.head?.any isWordChar = true ∧ word.getLast?.any isWordChar = true)
    (text : List Char) {smoothed : Smoothed}
    (nonempty : (Corpus.str (substituteClusters entries text)).lines ≠ [])
    (smoothing : smooth (.str (substituteClusters entries text)) = some smoothed) :
    Substituted clusters smoothed.dictionary := by
  intro name words _ _ found
  have isEntry := listed name words found
  rcases plain (name, words) isEntry with ⟨word, member, first, last⟩
  refine ⟨word, member, ?_⟩
  intro isSeen
  have absent := notMem_split_substituteClusters names isWord isEntry member first last text
  have noSymbol : '<' ∉ word := by
    intro inWord
    have isName := (isNameChar_of_isClusterWord (isWord _ isEntry word member)).2 '<' inWord
    cases isName
  rcases mem_wordList_of_seen nonempty smoothing isSeen with ⟨line, inLines, inLine⟩
  rw [wordList_eq] at inLine
  rcases List.mem_cons.mp inLine with rfl | inLine
  · exact noSymbol List.mem_cons_self
  · rcases List.mem_append.mp inLine with inText | isEnd
    · apply absent
      rw [(splitlines_lined _).split_eq]
      exact List.mem_flatMap.mpr ⟨line, inLines, inText⟩
    · rw [List.mem_singleton.mp isEnd] at noSymbol
      exact noSymbol List.mem_cons_self

end WittenBell
