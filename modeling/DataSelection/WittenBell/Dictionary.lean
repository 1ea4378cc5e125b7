/-
The nested dictionaries of n-grams and their access functions.

Every subscript of a missing key inserts an entry, so the functions that read return
the dictionary as well.  An entry is the list of its words; where the script passes a
string, the caller splits it.  An uncaught exception is `none`.
-/

import DataSelection.Library.DefaultDict
import DataSelection.WittenBell.Corpus
import Mathlib.Algebra.Order.Field.Rat
import Mathlib.Data.Char
import Mathlib.Data.List.Lex

namespace WittenBell

open Library

structure Gram where
  count : Nat
  probability : ℚ
  backoff : ℚ

instance : Inhabited Gram := ⟨{ count := 0, probability := 0, backoff := 0 }⟩

structure Dictionary where
  unigrams : DefaultDict Word Gram
  bigrams : DefaultDict Word (DefaultDict Word Gram)
  trigrams : DefaultDict Word (DefaultDict Word (DefaultDict Word Gram))

def getEmptyGramDict : Dictionary :=
  { unigrams := .empty
    bigrams := .empty
    trigrams := .empty }

namespace Dictionary

/-- The n-gram that is stored for an entry. -/
def gram (dictionary : Dictionary) : List Word → Gram
  | [w1] => dictionary.unigrams.value w1
  | [w1, w2] => (dictionary.bigrams.value w1).value w2
  | [w1, w2, w3] => ((dictionary.trigrams.value w1).value w2).value w3
  | _ => default

def Seen (dictionary : Dictionary) : List Word → Prop
  | [w1] => w1 ∈ dictionary.unigrams.keys
  | [w1, w2] => w2 ∈ (dictionary.bigrams.value w1).keys
  | [w1, w2, w3] => w3 ∈ ((dictionary.trigrams.value w1).value w2).keys
  | _ => False

instance (dictionary : Dictionary) (entry : List Word) : Decidable (dictionary.Seen entry) :=
  match entry with
  | [] => inferInstanceAs (Decidable False)
  | [w1] => inferInstanceAs (Decidable (w1 ∈ dictionary.unigrams.keys))
  | [w1, w2] => inferInstanceAs (Decidable (w2 ∈ (dictionary.bigrams.value w1).keys))
  | [w1, w2, w3] =>
      inferInstanceAs (Decidable (w3 ∈ ((dictionary.trigrams.value w1).value w2).keys))
  | _ :: _ :: _ :: _ :: _ => inferInstanceAs (Decidable False)

/-- The subscript `dictionary[n][entry[0]]..`, and a change of the n-gram it denotes. -/
def subscript (change : Gram → Gram) (entry : List Word) (dictionary : Dictionary) :
    Option Dictionary :=
  match entry with
  | [w1] => some { dictionary with unigrams := dictionary.unigrams.modify w1 change }
  | [w1, w2] =>
      some { dictionary with bigrams := dictionary.bigrams.modify w1 (·.modify w2 change) }
  | [w1, w2, w3] =>
      some { dictionary with
        trigrams := dictionary.trigrams.modify w1 (·.modify w2 (·.modify w3 change)) }
  | _ => none

/-- Reading one field of the n-gram of an entry. -/
def read {α : Type} (field : Gram → α) (entry : List Word) (dictionary : Dictionary) :
    Option (α × Dictionary) :=
  (dictionary.subscript id entry).map (fun after => (field (after.gram entry), after))

end Dictionary

def insertGram (entry : List Word) (dictionary : Dictionary) (uniCount : Nat) :
    Dictionary × Nat :=
  ((dictionary.subscript (fun gram => { gram with count := gram.count + 1 }) entry).getD dictionary,
    if entry.length = 1 then uniCount + 1 else uniCount)

def getCount (entry : List Word) (dictionary : Dictionary) : Option (Nat × Dictionary) :=
  dictionary.read Gram.count entry

def setCount (entry : List Word) (count : Nat) (dictionary : Dictionary) : Option Dictionary :=
  dictionary.subscript (fun gram => { gram with count := count }) entry

def sorted (grams : List (List Char)) : List (List Char) :=
  grams.mergeSort (fun left right => decide (left ≤ right))

def getGrams (n : Nat) (dictionary : Dictionary) : List (List Char) :=
  sorted (match n with
    | 1 => dictionary.unigrams.keys
    | 2 => dictionary.bigrams.keys.flatMap (fun w1 =>
        (dictionary.bigrams.value w1).keys.map (fun w2 => join [w1, w2]))
    | 3 => dictionary.trigrams.keys.flatMap (fun w1 =>
        (dictionary.trigrams.value w1).keys.flatMap (fun w2 =>
          ((dictionary.trigrams.value w1).value w2).keys.map (fun w3 => join [w1, w2, w3])))
    | _ => [])

/-- The words seen after an entry of one or two words. -/
def getNextGrams (entry : List Word) (dictionary : Dictionary) :
    Option (List Word × Dictionary) :=
  match entry with
  | [w1] =>
      some ((dictionary.bigrams.value w1).keys,
        { dictionary with bigrams := dictionary.bigrams.touch w1 })
  | [w1, w2] =>
      some (((dictionary.trigrams.value w1).value w2).keys,
        { dictionary with trigrams := dictionary.trigrams.modify w1 (·.touch w2) })
  | _ => none

def setProb (entry : List Word) (prob : ℚ) (dictionary : Dictionary) : Dictionary :=
  (dictionary.subscript (fun gram => { gram with probability := prob }) entry).getD dictionary

def setBO (entry : List Word) (bo : ℚ) (dictionary : Dictionary) : Dictionary :=
  (dictionary.subscript (fun gram => { gram with backoff := bo }) entry).getD dictionary

def getBO (entry : List Word) (dictionary : Dictionary) : Option (ℚ × Dictionary) :=
  dictionary.read Gram.backoff entry

/-- A bigram that was not seen is looked up as one word, which `split` leaves alone. -/
def getProb (entry : List Word) (dictionary : Dictionary) : Option (ℚ × Dictionary) :=
  match entry with
  | [w1, w2] =>
      let inserted := { dictionary with bigrams := dictionary.bigrams.touch w1 }
      if w2 ∈ (inserted.bigrams.value w1).keys then inserted.read Gram.probability entry
      else do
        let (bo, afterBO) ← getBO (split w1) inserted
        let (prob, afterProb) ← afterBO.read Gram.probability (split w2)
        return (bo * prob, afterProb)
  | _ => dictionary.read Gram.probability entry

/-! ### What the functions do to the stored n-grams -/

def IsEntry (entry : List Word) : Prop := 0 < entry.length ∧ entry.length ≤ 3

namespace Dictionary

theorem Seen.isEntry {dictionary : Dictionary} {entry : List Word}
    (seen : dictionary.Seen entry) : IsEntry entry := by
  match entry with
  | [] => cases seen
  | [_] => exact ⟨Nat.one_pos, Nat.le_add_left 1 2⟩
  | [_, _] => exact ⟨Nat.two_pos, Nat.le_add_left 2 1⟩
  | [_, _, _] => exact ⟨Nat.succ_pos 2, Nat.le_refl 3⟩
  | _ :: _ :: _ :: _ :: _ => cases seen

/-- The effect of one subscript. -/
structure Changes (change : Gram → Gram) (entry : List Word) (before after : Dictionary) :
    Prop where
  gram : ∀ other, after.gram other =
    if other = entry then change (before.gram other) else before.gram other
  seen : ∀ other, after.Seen other ↔ other = entry ∨ before.Seen other

theorem changes_unigram (change : Gram → Gram) (w1 : Word) (dictionary : Dictionary) :
    Changes change [w1] dictionary
      { dictionary with unigrams := dictionary.unigrams.modify w1 change } := by
  constructor
  · intro other
    match other with
    | [] => simp [gram]
    | [v1] => simp [gram, DefaultDict.value_modify]
    | [_, _] => simp [gram]
    | [_, _, _] => simp [gram]
    | _ :: _ :: _ :: _ :: _ => simp [gram]
  · intro other
    match other with
    | [] => simp [Seen]
    | [v1] => simp [Seen]
    | [_, _] => simp [Seen]
    | [_, _, _] => simp [Seen]
    | _ :: _ :: _ :: _ :: _ => simp [Seen]

theorem changes_bigram (change : Gram → Gram) (w1 w2 : Word) (dictionary : Dictionary) :
    Changes change [w1, w2] dictionary
      { dictionary with bigrams := dictionary.bigrams.modify w1 (·.modify w2 change) } := by
  constructor
  · intro other
    match other with
    | [] => simp [gram]
    | [_] => simp [gram]
    | [v1, v2] =>
        by_cases first : v1 = w1
        · simp [gram, DefaultDict.value_modify, first]
        · simp [gram, DefaultDict.value_modify, first]
    | [_, _, _] => simp [gram]
    | _ :: _ :: _ :: _ :: _ => simp [gram]
  · intro other
    match other with
    | [] => simp [Seen]
    | [_] => simp [Seen]
    | [v1, v2] =>
        by_cases first : v1 = w1
        · simp [Seen, first]
        · simp [Seen, DefaultDict.value_modify, first]
    | [_, _, _] => simp [Seen]
    | _ :: _ :: _ :: _ :: _ => simp [Seen]

theorem changes_trigram (change : Gram → Gram) (w1 w2 w3 : Word) (dictionary : Dictionary) :
    Changes change [w1, w2, w3] dictionary
      { dictionary with
        trigrams := dictionary.trigrams.modify w1 (·.modify w2 (·.modify w3 change)) } := by
  constructor
  · intro other
    match other with
    | [] => simp [gram]
    | [_] => simp [gram]
    | [_, _] => simp [gram]
    | [v1, v2, v3] =>
        by_cases first : v1 = w1
        · by_cases second : v2 = w2
          · simp [gram, DefaultDict.value_modify, first, second]
          · simp [gram, DefaultDict.value_modify, first, second]
        · simp [gram, DefaultDict.value_modify, first]
    | _ :: _ :: _ :: _ :: _ => simp [gram]
  · intro other
    match other with
    | [] => simp [Seen]
    | [_] => simp [Seen]
    | [_, _] => simp [Seen]
    | [v1, v2, v3] =>
        by_cases first : v1 = w1
        · by_cases second : v2 = w2
          · simp [Seen, first, second]
          · simp [Seen, DefaultDict.value_modify, first, second]
        · simp [Seen, DefaultDict.value_modify, first]
    | _ :: _ :: _ :: _ :: _ => simp [Seen]

theorem subscript_changes (change : Gram → Gram) {entry : List Word} (isEntry : IsEntry entry)
    (dictionary : Dictionary) :
    ∃ after, dictionary.subscript change entry = some after ∧
      Changes change entry dictionary after := by
  match entry with
  | [] => exact absurd isEntry.1 (Nat.lt_irrefl 0)
  | [w1] => exact ⟨_, rfl, changes_unigram change w1 dictionary⟩
  | [w1, w2] => exact ⟨_, rfl, changes_bigram change w1 w2 dictionary⟩
  | [w1, w2, w3] => exact ⟨_, rfl, changes_trigram change w1 w2 w3 dictionary⟩
  | _ :: _ :: _ :: _ :: rest =>
      have long := isEntry.2
      simp only [List.length_cons] at long
      omega

/-! ### Reading -/

/-- Two dictionaries that hold the same n-grams; one may have more empty levels. -/
structure Same (before after : Dictionary) : Prop where
  gram : ∀ entry, after.gram entry = before.gram entry
  seen : ∀ entry, after.Seen entry ↔ before.Seen entry

theorem Same.trans {first second third : Dictionary} (same : Same first second)
    (next : Same second third) : Same first third :=
  ⟨fun entry => (next.gram entry).trans (same.gram entry),
    fun entry => (next.seen entry).trans (same.seen entry)⟩

theorem same_touch_bigrams (w1 : Word) (dictionary : Dictionary) :
    Same dictionary { dictionary with bigrams := dictionary.bigrams.touch w1 } := by
  constructor
  · intro entry
    match entry with
    | [] => rfl
    | [_] => rfl
    | [_, _] => rfl
    | [_, _, _] => rfl
    | _ :: _ :: _ :: _ :: _ => rfl
  · intro entry
    match entry with
    | [] => exact Iff.rfl
    | [_] => exact Iff.rfl
    | [_, _] => exact Iff.rfl
    | [_, _, _] => exact Iff.rfl
    | _ :: _ :: _ :: _ :: _ => exact Iff.rfl

theorem same_touch_trigrams (w1 w2 : Word) (dictionary : Dictionary) :
    Same dictionary
      { dictionary with trigrams := dictionary.trigrams.modify w1 (·.touch w2) } := by
  constructor
  · intro entry
    match entry with
    | [] => rfl
    | [_] => rfl
    | [_, _] => rfl
    | [v1, v2, v3] =>
        by_cases first : v1 = w1
        · simp [gram, first]
        · simp [gram, DefaultDict.value_modify, first]
    | _ :: _ :: _ :: _ :: _ => rfl
  · intro entry
    match entry with
    | [] => exact Iff.rfl
    | [_] => exact Iff.rfl
    | [_, _] => exact Iff.rfl
    | [v1, v2, v3] =>
        by_cases first : v1 = w1
        · simp [Seen, first]
        · simp [Seen, DefaultDict.value_modify, first]
    | _ :: _ :: _ :: _ :: _ => exact Iff.rfl

theorem read_seen {α : Type} (field : Gram → α) {entry : List Word} {dictionary : Dictionary}
    (seen : dictionary.Seen entry) :
    ∃ after, dictionary.read field entry = some (field (dictionary.gram entry), after) ∧
      Same dictionary after := by
  obtain ⟨after, subscripted, changes⟩ := subscript_changes id seen.isEntry dictionary
  have sameGram : ∀ other, after.gram other = dictionary.gram other := by
    intro other
    rw [changes.gram other, id_eq, ite_self]
  refine ⟨after, ?_, sameGram, ?_⟩
  · unfold read
    rw [subscripted, Option.map_some, sameGram]
  · intro other
    rw [changes.seen other]
    constructor
    · intro either
      cases either with
      | inl same =>
          rw [same]
          exact seen
      | inr earlier => exact earlier
    · exact Or.inr

def nextWords (dictionary : Dictionary) : List Word → List Word
  | [w1] => (dictionary.bigrams.value w1).keys
  | [w1, w2] => ((dictionary.trigrams.value w1).value w2).keys
  | _ => []

def IsHistory (history : List Word) : Prop := 0 < history.length ∧ history.length ≤ 2

theorem isHistory_one (w1 : Word) : IsHistory [w1] := ⟨Nat.one_pos, Nat.le_succ 1⟩

theorem isHistory_two (w1 w2 : Word) : IsHistory [w1, w2] := ⟨Nat.two_pos, Nat.le_refl 2⟩

theorem one_or_two {history : List Word} (isHistory : IsHistory history) :
    (∃ w1, history = [w1]) ∨ ∃ w1 w2, history = [w1, w2] := by
  have bounds := isHistory
  unfold IsHistory at bounds
  by_cases one : history.length = 1
  · exact Or.inl (List.length_eq_one_iff.mp one)
  · exact Or.inr (List.length_eq_two.mp (by omega))

theorem mem_nextWords {dictionary : Dictionary} {history : List Word} {word : Word}
    (isHistory : IsHistory history) :
    word ∈ dictionary.nextWords history ↔ dictionary.Seen (history ++ [word]) := by
  match history with
  | [] => exact absurd isHistory.1 (Nat.lt_irrefl 0)
  | [_] => exact Iff.rfl
  | [_, _] => exact Iff.rfl
  | _ :: _ :: _ :: rest =>
      have long := isHistory.2
      simp only [List.length_cons] at long
      omega

theorem nodup_nextWords (dictionary : Dictionary) (history : List Word) :
    (dictionary.nextWords history).Nodup := by
  match history with
  | [] => exact List.nodup_nil
  | [w1] => exact (dictionary.bigrams.value w1).nodup
  | [w1, w2] => exact ((dictionary.trigrams.value w1).value w2).nodup
  | _ :: _ :: _ :: _ => exact List.nodup_nil

theorem getNextGrams_eq (dictionary : Dictionary) {history : List Word}
    (isHistory : IsHistory history) :
    ∃ after, getNextGrams history dictionary = some (dictionary.nextWords history, after) ∧
      Same dictionary after := by
  match history with
  | [] => exact absurd isHistory.1 (Nat.lt_irrefl 0)
  | [w1] => exact ⟨_, rfl, same_touch_bigrams w1 dictionary⟩
  | [w1, w2] => exact ⟨_, rfl, same_touch_trigrams w1 w2 dictionary⟩
  | _ :: _ :: _ :: rest =>
      have long := isHistory.2
      simp only [List.length_cons] at long
      omega

theorem getProb_seen {entry : List Word} {dictionary : Dictionary}
    (seen : dictionary.Seen entry) :
    ∃ after, getProb entry dictionary = some ((dictionary.gram entry).probability, after) ∧
      Same dictionary after := by
  match entry with
  | [] => cases seen
  | [_] => exact read_seen Gram.probability seen
  | [w1, w2] =>
      have touched := same_touch_bigrams w1 dictionary
      obtain ⟨after, read, same⟩ := read_seen Gram.probability ((touched.seen [w1, w2]).mpr seen)
      refine ⟨after, ?_, touched.trans same⟩
      unfold getProb
      dsimp only
      rw [if_pos (show w2 ∈ ((dictionary.bigrams.touch w1).value w1).keys from seen), read,
        touched.gram]
  | [_, _, _] => exact read_seen Gram.probability seen
  | _ :: _ :: _ :: _ :: _ => cases seen

/-- A bigram that was not seen gets its probability from the shorter history. -/
theorem getProb_unseen {w1 w2 : Word} {dictionary : Dictionary} (cleanFirst : CleanWord w1)
    (cleanSecond : CleanWord w2) (unseen : ¬ dictionary.Seen [w1, w2])
    (first : dictionary.Seen [w1]) (second : dictionary.Seen [w2]) :
    ∃ after, getProb [w1, w2] dictionary =
        some ((dictionary.gram [w1]).backoff * (dictionary.gram [w2]).probability, after) ∧
      Same dictionary after := by
  have touched := same_touch_bigrams w1 dictionary
  obtain ⟨afterBO, readBO, sameBO⟩ := read_seen Gram.backoff ((touched.seen [w1]).mpr first)
  have untilBO := touched.trans sameBO
  obtain ⟨after, readProb, sameProb⟩ :=
    read_seen Gram.probability ((untilBO.seen [w2]).mpr second)
  refine ⟨after, ?_, untilBO.trans sameProb⟩
  have splitFirst : split w1 = [w1] := tokens_word cleanFirst.nonempty cleanFirst.clean
  have splitSecond : split w2 = [w2] := tokens_word cleanSecond.nonempty cleanSecond.clean
  unfold getProb getBO
  dsimp only
  rw [if_neg (show w2 ∉ ((dictionary.bigrams.touch w1).value w1).keys from unseen), splitFirst,
    splitSecond, readBO]
  dsimp only [Option.bind_eq_bind, Option.bind_some]
  rw [readProb, touched.gram, untilBO.gram]
  rfl

end Dictionary

/-! ### Writing -/

section

open Dictionary

variable {entry : List Word} (isEntry : IsEntry entry) (dictionary : Dictionary)

include isEntry

theorem setCount_changes (count : Nat) :
    ∃ after, setCount entry count dictionary = some after ∧
      Changes (fun gram => { gram with count := count }) entry dictionary after :=
  subscript_changes _ isEntry dictionary

theorem setProb_changes (prob : ℚ) :
    Changes (fun gram => { gram with probability := prob }) entry dictionary
      (setProb entry prob dictionary) := by
  obtain ⟨after, subscripted, changes⟩ := subscript_changes
    (fun gram => { gram with probability := prob }) isEntry dictionary
  unfold setProb
  rw [subscripted]
  exact changes

theorem setBO_changes (bo : ℚ) :
    Changes (fun gram => { gram with backoff := bo }) entry dictionary
      (setBO entry bo dictionary) := by
  obtain ⟨after, subscripted, changes⟩ := subscript_changes
    (fun gram => { gram with backoff := bo }) isEntry dictionary
  unfold setBO
  rw [subscripted]
  exact changes

theorem insertGram_changes (uniCount : Nat) :
    Changes (fun gram => { gram with count := gram.count + 1 }) entry dictionary
      (insertGram entry dictionary uniCount).1 := by
  obtain ⟨after, subscripted, changes⟩ := subscript_changes
    (fun gram => { gram with count := gram.count + 1 }) isEntry dictionary
  unfold insertGram
  rw [subscripted]
  exact changes

end

end WittenBell
