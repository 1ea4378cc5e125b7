/-
Expanding the classes of a smoothed class model into their words.

Every n-gram of the class model is replaced by its expansions, one word for each of
its classes, and all of them get the statistics of the class n-gram.  A word that is
not the name of a class stands for itself.
-/

import Mathlib.Algebra.Order.BigOperators.GroupWithZero.List
import DataSelection.Library.Choices
import DataSelection.Library.Loops
import DataSelection.WittenBell.Grams
import DataSelection.WittenBell.Smoothing

namespace WittenBell

open Library Dictionary

def isNameChar (char : Char) : Bool :=
  char.isAlphanum || char = '_' || char = '\''

/-- The pattern `^@![a-zA-Z0-9_\']+$`, for a word without white space. -/
def isClassName : Word → Bool
  | '@' :: '!' :: name => name ≠ [] && name.all isNameChar
  | _ => false

/-- The predefined clusters: every cluster has a word, and its words are words. -/
structure Clusters where
  members : Word → Option (List Word)
  nonempty : ∀ name words, members name = some words → words ≠ []
  clean : ∀ name words, members name = some words → ∀ word ∈ words, CleanWord word

/-- The possibilities for one slot; an unknown cluster raises. -/
def possibilities (predefinedClusters : Clusters) (word : Word) : Option (List Word) :=
  if isClassName word then predefinedClusters.members word else some [word]

/-- The three slots, of which those without a word stay empty; a fourth word raises. -/
def fillSlots (predefinedClusters : Clusters) (words : List Word) : Option (List (List Word)) :=
  if words.length > 3 then none
  else (words.mapM (possibilities predefinedClusters)).map
    (fun filled => filled ++ List.replicate (3 - words.length) [])

/-- The loop that enumerates every combination of possibilities. -/
def combine (n : Nat) (slots : List (List Word)) : List (List Char) :=
  ((slots.drop 1).take (n - 1)).foldl
    (fun expansions slot => expansions.flatMap (fun original_expansion =>
      slot.map (fun possibility => original_expansion ++ ' ' :: possibility)))
    (slots.headD [])

structure GramStats where
  count : Nat
  probability : ℚ
  backoff : ℚ

def getGramStats (entry : List Word) (dictionary : Dictionary) : Option (GramStats × Dictionary) := do
  let (count, dictionary) ← dictionary.read Gram.count entry
  let (probability, dictionary) ← dictionary.read Gram.probability entry
  let (backoff, dictionary) ← dictionary.read Gram.backoff entry
  some ({ count := count
          probability := probability
          backoff := backoff }, dictionary)

def setStats (stats : GramStats) (newDict : Dictionary) (expansion : List Char) :
    Option Dictionary :=
  setCount (split expansion) stats.count
    (setBO (split expansion) stats.backoff
      (setProb (split expansion) stats.probability newDict))

/-- One turn of the loop over the n-grams of one order.  The state holds the new
dictionary and the old one, which reading may change. -/
def expandEntry (predefinedClusters : Clusters) (n : Nat) (state : Dictionary × Dictionary)
    (entry : List Char) : Option (Dictionary × Dictionary) := do
  let slots ← fillSlots predefinedClusters (split entry)
  let expansions := combine n slots
  let (stats, dictionary) ← getGramStats (split entry) state.2
  let probability ← divide stats.probability (expansions.length : ℚ)
  let newDict ← expansions.foldlM
    (setStats { stats with probability := probability }) state.1
  some (newDict, dictionary)

def expandDictionaryWithClusters (unigrams bigrams trigrams : List (List Char))
    (predefinedClusters : Clusters) (dictionary : Dictionary) :
    Option (Dictionary × Dictionary) := do
  let state ← unigrams.foldlM (expandEntry predefinedClusters 1) (getEmptyGramDict, dictionary)
  let state ← bigrams.foldlM (expandEntry predefinedClusters 2) state
  trigrams.foldlM (expandEntry predefinedClusters 3) state

/-! ### The combinations -/

def slotOf (clusters : Clusters) (word : Word) : List Word :=
  (possibilities clusters word).getD []

def Expands (clusters : Clusters) (words entry : List Word) : Prop :=
  Chosen words (entry.map (slotOf clusters))

def expansionCount (clusters : Clusters) (entry : List Word) : Nat :=
  (entry.map (fun word => (slotOf clusters word).length)).prod

def Known (clusters : Clusters) (entry : List Word) : Prop :=
  ∀ word ∈ entry, (possibilities clusters word).isSome = true

theorem foldl_combine (slots : List (List Word)) (found : List (List Word))
    (filled : ∀ front ∈ found, front ≠ []) :
    slots.foldl (fun expansions slot => expansions.flatMap (fun original_expansion =>
        slot.map (fun possibility => original_expansion ++ ' ' :: possibility)))
      (found.map join) = (slots.foldl extendChoices found).map join := by
  induction slots generalizing found with
  | nil => rfl
  | cons slot slots ih =>
      have next : (found.map join).flatMap (fun original_expansion =>
          slot.map (fun possibility => original_expansion ++ ' ' :: possibility)) =
          (extendChoices found slot).map join := by
        unfold extendChoices
        rw [List.flatMap_map, List.map_flatMap]
        apply List.flatMap_congr
        intro front member
        rw [List.map_map]
        apply List.map_congr_left
        intro word _inSlot
        have joined := join_append (filled front member) (List.cons_ne_nil word [])
        rw [join_singleton] at joined
        exact joined.symm
      rw [List.foldl_cons, List.foldl_cons, next]
      apply ih
      intro front member
      unfold extendChoices at member
      rcases List.mem_flatMap.mp member with ⟨earlier, _, inSlot⟩
      rcases List.mem_map.mp inSlot with ⟨word, _, rfl⟩
      simp

theorem combine_eq (slots : List (List Word)) (padding : List (List Word))
    (filled : slots ≠ []) :
    combine slots.length (slots ++ padding) = (choices slots).map join := by
  rcases List.exists_cons_of_ne_nil filled with ⟨first, others, rfl⟩
  have rest : ((first :: others ++ padding).drop 1).take ((first :: others).length - 1) =
      others := by
    simp
  have start : extendChoices [[]] first = first.map (fun word => [word]) := by
    simp [extendChoices]
  have singles : (first.map (fun word => [word])).map join = first := by
    rw [List.map_map]
    exact (List.map_congr_left (fun word _member => join_singleton word)).trans (List.map_id _)
  have folded := foldl_combine others (first.map (fun word => [word])) (by
    intro front member
    rcases List.mem_map.mp member with ⟨word, _, rfl⟩
    exact List.cons_ne_nil _ _)
  rw [singles] at folded
  unfold combine choices
  rw [rest, List.cons_append, List.headD_cons, List.foldl_cons, start]
  exact folded

theorem mapM_possibilities {clusters : Clusters} {words : List Word}
    (known : Known clusters words) :
    words.mapM (possibilities clusters) = some (words.map (slotOf clusters)) := by
  refine mapM_of_pure ?_
  intro word member
  rcases Option.isSome_iff_exists.mp (known word member) with ⟨slot, found⟩
  rw [slotOf, found]
  rfl

theorem known_of_mapM {clusters : Clusters} {words : List Word} {slots : List (List Word)}
    (filled : words.mapM (possibilities clusters) = some slots) : Known clusters words := by
  induction words generalizing slots with
  | nil =>
      intro word member
      cases member
  | cons first words ih =>
      rw [List.mapM_cons] at filled
      rcases Option.bind_eq_some_iff.mp filled with ⟨slot, found, rest⟩
      rcases Option.bind_eq_some_iff.mp rest with ⟨others, foundOthers, _⟩
      intro word member
      rcases List.mem_cons.mp member with atHead | later
      · rw [atHead, found]
        rfl
      · exact ih foundOthers word later

theorem slotOf_ne_nil {clusters : Clusters} {word : Word}
    (known : (possibilities clusters word).isSome = true) : slotOf clusters word ≠ [] := by
  rcases Option.isSome_iff_exists.mp known with ⟨slot, found⟩
  have isSlot : slotOf clusters word = slot := by
    rw [slotOf, found]
    rfl
  rw [isSlot]
  unfold possibilities at found
  split at found
  · exact clusters.nonempty word slot found
  · cases found
    exact List.cons_ne_nil _ _

theorem cleanWord_of_mem_slotOf {clusters : Clusters} {name word : Word}
    (clean : CleanWord name) (member : word ∈ slotOf clusters name) : CleanWord word := by
  unfold slotOf possibilities at member
  split at member
  · cases found : clusters.members name with
    | none =>
        rw [found] at member
        cases member
    | some words =>
        rw [found] at member
        exact clusters.clean name words found word member
  · rw [List.mem_singleton.mp member]
    exact clean

theorem expansionCount_pos {clusters : Clusters} {entry : List Word}
    (known : Known clusters entry) : 0 < expansionCount clusters entry := by
  unfold expansionCount
  apply List.prod_pos
  intro size member
  rcases List.mem_map.mp member with ⟨word, inEntry, rfl⟩
  exact List.length_pos_of_ne_nil (slotOf_ne_nil (known word inEntry))

theorem Expands.length_eq {clusters : Clusters} {words entry : List Word}
    (expands : Expands clusters words entry) : words.length = entry.length := by
  have lengths := List.Forall₂.length_eq expands
  rwa [List.length_map] at lengths

theorem Expands.clean {clusters : Clusters} {words entry : List Word}
    (expands : Expands clusters words entry) (clean : ∀ word ∈ entry, CleanWord word) :
    ∀ word ∈ words, CleanWord word := by
  unfold Expands at expands
  induction entry generalizing words with
  | nil =>
      cases expands
      intro word member
      cases member
  | cons name entry ih =>
      rw [List.map_cons] at expands
      cases expands with
      | @cons first _ rest _ inSlot others =>
          intro word member
          rcases List.mem_cons.mp member with atHead | later
          · rw [atHead]
            exact cleanWord_of_mem_slotOf (clean name List.mem_cons_self) inSlot
          · exact ih others (fun other inEntry => clean other (List.mem_cons_of_mem name inEntry))
              word later

theorem expands_concat {clusters : Clusters} {words entry : List Word} {word name : Word} :
    Expands clusters (words ++ [word]) (entry ++ [name]) ↔
      Expands clusters words entry ∧ word ∈ slotOf clusters name := by
  unfold Expands
  rw [List.map_append, List.map_singleton]
  exact chosen_concat

end WittenBell
