/-
The vocabulary: the words of a language model by index.

The beginning and the end of a sentence share the first index.  A fixed vocabulary adds no
words and answers with the index of the unknown word, if there is one.
-/

import DataSelection.Mitlm.NgramVector
import Mathlib.Data.Char
import Mathlib.Data.List.Lex

namespace Mitlm

open Library

abbrev Word := List Char

/-- The characters of a string are signed bytes. -/
def signedChar (char : Char) : UInt64 :=
  if char.toNat < 128 then UInt64.ofNat char.toNat else UInt64.ofNat char.toNat - 256

def stringHash (word : Word) : Nat :=
  (word.foldl (fun (i : UInt64) char => i + ((i <<< 3) + signedChar char)) 0 * 1103515245).toNat

structure Vocab where
  words : HashVector Word
  fixedVocab : Bool
  unkIndex : Option Nat

namespace Vocab

def endOfSentence : Nat := 0

def startSymbol : Word := ['<', 's', '>']

def endSymbol : Word := ['<', '/', 's', '>']

/-- A new vocabulary holds the end of a sentence. -/
def create : Option Vocab := do
  let reserved ← HashVector.reserve stringHash (2 ^ 16) HashVector.empty
  let (words, _) ← HashVector.add stringHash reserved endSymbol
  some { words := words, fixedVocab := false, unkIndex := none }

/-- The index of a word; the inner `none` is the invalid index. -/
def find (vocab : Vocab) (word : Word) : Option (Option Nat) :=
  if word = startSymbol then some (some endOfSentence)
  else (HashVector.find stringHash vocab.words word).map (fun index => index.or vocab.unkIndex)

def add (vocab : Vocab) (word : Word) : Option (Vocab × Option Nat) :=
  if word = startSymbol then some (vocab, some endOfSentence)
  else if vocab.fixedVocab then (vocab.find word).map (fun index => (vocab, index))
  else (HashVector.add stringHash vocab.words word).map (fun added =>
    ({ vocab with words := added.1 }, some added.2.1))

/-- The words in another order, with the index table rebuilt by applying the map of it. -/
def reorder (vocab : Vocab) (sortIndices : List Nat) : Vocab :=
  let entries := sortIndices.map (fun index => vocab.words.entries.getD index [])
  let indices := vocab.words.table.indices.map
    (Option.map (fun index => (inverse sortIndices).getD index 0))
  { vocab with
    words :=
      { table := { vocab.words.table with entries := entries, indices := indices }
        capacity := vocab.words.size } }

/-- Whether the words were sorted, the vocabulary, and the map from old to new indices.  The
first word, and the unknown word behind it, stay. -/
def sort (vocab : Vocab) : Option (Bool × Vocab × List Nat) := do
  let numFixedWords := if vocab.unkIndex.isNone then 1 else 2
  let compare := fun left right =>
    decide (vocab.words.entries.getD left [] < vocab.words.entries.getD right [])
  let (sorted, moved) ← denseSort compare ((List.range vocab.words.size).drop numFixedWords)
  let sortIndices := (List.range vocab.words.size).take numFixedWords ++ moved
  if sorted then some (true, vocab.reorder sortIndices, inverse sortIndices)
  else some (false, vocab, List.range vocab.words.size)

/-! ### What the operations keep -/

/-- The beginning of a sentence is read as its end. -/
def normal (word : Word) : Word := if word = startSymbol then endSymbol else word

structure Open (vocab : Vocab) : Prop where
  valid : vocab.words.Valid stringHash
  free : vocab.fixedVocab = false
  known : vocab.unkIndex = none
  first : vocab.words.entries[endOfSentence]? = some endSymbol
  ordinary : ∀ word ∈ vocab.words.entries, word ≠ startSymbol

theorem exists_create : ∃ vocab, create = some vocab ∧ vocab.Open ∧
    vocab.words.entries = [endSymbol] := by
  obtain ⟨reserved, isReserved, validReserved, same, _⟩ :=
    (HashVector.valid_empty : (HashVector.empty : HashVector Word).Valid stringHash).reserve_eq
      (Nat.zero_le (2 ^ 16))
  obtain ⟨words, added, valid, entered⟩ := validReserved.add_eq endSymbol
  have isSingle : words.entries = [endSymbol] := by
    rw [entered, same]
    rfl
  refine ⟨{ words := words, fixedVocab := false, unkIndex := none }, ?_, ?_, isSingle⟩
  · rw [create, isReserved, Option.bind_eq_bind, Option.bind_some, added]
    rfl
  · constructor
    · exact valid
    · rfl
    · rfl
    · show words.entries[0]? = _
      rw [isSingle]
      rfl
    · show ∀ word ∈ words.entries, word ≠ startSymbol
      intro word member
      rw [isSingle, List.mem_singleton] at member
      rw [member]
      decide

section

variable {vocab : Vocab} (isOpen : vocab.Open)

include isOpen

/-- A word gets the index where it stands, read as the end of a sentence if it is the
beginning of one. -/
theorem Open.add_eq (word : Word) :
    ∃ added index, vocab.add word = some (added, some index) ∧ added.Open ∧
      added.words.entries = HashVector.enter vocab.words.entries (normal word) ∧
      added.words.entries[index]? = some (normal word) := by
  by_cases isStart : word = startSymbol
  · have isEnd : normal word = endSymbol := if_pos isStart
    refine ⟨vocab, endOfSentence, if_pos isStart, isOpen, ?_, ?_⟩
    · rw [isEnd, HashVector.enter, if_pos (List.mem_of_getElem? isOpen.first)]
    · rw [isEnd, isOpen.first]
  · have same : normal word = word := if_neg isStart
    obtain ⟨words, index, isNew, added, valid, entered, found, _⟩ := isOpen.valid.exists_add word
    rw [same]
    have notFixed : ¬vocab.fixedVocab = true := by
      rw [isOpen.free]
      exact Bool.false_ne_true
    have isAdded : vocab.add word = some ({ vocab with words := words }, some index) := by
      rw [add, if_neg isStart, if_neg notFixed, added, Option.map_some]
    refine ⟨{ vocab with words := words }, index, isAdded, ?_, entered, found⟩
    · constructor
      · exact valid
      · exact isOpen.free
      · exact isOpen.known
      · show words.entries[endOfSentence]? = _
        rw [entered]
        exact HashVector.getElem?_of_prefix HashVector.prefix_enter isOpen.first
      · show ∀ word ∈ words.entries, word ≠ startSymbol
        intro other member
        rw [entered, HashVector.mem_enter] at member
        rcases member with isOld | rfl
        · exact isOpen.ordinary other isOld
        · exact isStart

/-- A sort keeps the words, the first one in its place, and moves each word to where the map
says. -/
theorem Open.sort_eq (several : 2 ≤ vocab.words.size) :
    ∃ sorted after sortMap, vocab.sort = some (sorted, after, sortMap) ∧
      after.Open ∧ after.words.entries.Perm vocab.words.entries ∧
      (∀ index < vocab.words.size,
        after.words.entries[sortMap.getD index 0]? = vocab.words.entries[index]?) := by
  have isFixed : (if vocab.unkIndex.isNone then 1 else 2) = 1 := by
    rw [isOpen.known]
    rfl
  have filled : ((List.range vocab.words.size).drop 1).isEmpty = false := by
    rw [List.isEmpty_eq_false_iff, ne_eq, List.drop_eq_nil_iff, List.length_range]
    omega
  obtain ⟨sorted, moved, ran⟩ : ∃ sorted moved,
      denseSort (fun left right =>
        decide (vocab.words.entries.getD left [] < vocab.words.entries.getD right []))
          ((List.range vocab.words.size).drop 1) = some (sorted, moved) := by
    rw [denseSort, filled, if_neg Bool.false_ne_true]
    split
    · exact ⟨_, _, rfl⟩
    · exact ⟨_, _, rfl⟩
  have perm : ((List.range vocab.words.size).take 1 ++ moved).Perm (List.range vocab.words.size) := by
    have appended := (denseSort_perm ran).append_left ((List.range vocab.words.size).take 1)
    rw [List.take_append_drop] at appended
    exact appended
  cases sorted with
  | false =>
      refine ⟨false, vocab, List.range vocab.words.size, ?_, isOpen, List.Perm.refl _, ?_⟩
      · simp only [sort, isFixed, ran, Option.bind_eq_bind, Option.bind_some, Bool.false_eq_true,
          if_false]
      · intro index inside
        rw [List.getD_eq_getElem?_getD, List.getElem?_range inside, Option.getD_some]
  | true =>
      let sortIndices := (List.range vocab.words.size).take 1 ++ moved
      let entries := sortIndices.map (fun index => vocab.words.entries.getD index [])
      have permEntries : entries.Perm vocab.words.entries := by
        have mapped := perm.map (fun index => vocab.words.entries.getD index [])
        have same := map_getD_range [] vocab.words.entries
        rw [HashVector.size, same] at mapped
        exact mapped
      have isMoved : ∀ index < vocab.words.size,
          entries[(inverse sortIndices).getD index 0]? = vocab.words.entries[index]? :=
        fun index inside => moved_inverse [] perm inside
      have isFirst : entries[0]? = some endSymbol := by
        obtain ⟨size, isSize⟩ : ∃ size, vocab.words.size = size + 1 :=
          ⟨vocab.words.size - 1, by omega⟩
        have first : vocab.words.entries[0]? = some endSymbol := isOpen.first
        simp only [entries, sortIndices, List.getElem?_map, isSize, List.range_succ_eq_map,
          List.take_succ_cons, List.cons_append, List.getElem?_cons_zero, Option.map_some,
          List.getD_eq_getElem?_getD, first, Option.getD_some]
      refine ⟨true, vocab.reorder sortIndices, inverse sortIndices, ?_, ⟨⟨?_, ?_, ?_⟩, ?_, ?_, ?_, ?_⟩,
        permEntries, isMoved⟩
      · simp only [sort, isFixed, ran, Option.bind_eq_bind, Option.bind_some, if_true]
        rfl
      · exact isOpen.valid.holds.relabel permEntries isMoved
      · exact permEntries.length_eq.le
      · show vocab.words.size < (vocab.words.table.indices.map _).length
        rw [List.length_map]
        exact Nat.lt_of_le_of_lt isOpen.valid.within isOpen.valid.room
      · exact isOpen.free
      · exact isOpen.known
      · exact isFirst
      · intro word member
        exact isOpen.ordinary word (permEntries.mem_iff.mp member)

end

end Vocab

end Mitlm
