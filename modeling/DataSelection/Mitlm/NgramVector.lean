/-
The n-grams of one order, as pairs of a history index and a word index.

Sorting renumbers the histories and the words and then orders the pairs.  The sort of a
dense vector runs only when some element is smaller than the next one, so a vector in
strictly descending order stays as it is, and its index table is not rebuilt either.
-/

import DataSelection.Mitlm.HashVector
import Mathlib.Data.List.Sort
import Mathlib.Data.Prod.Lex

namespace Mitlm

open Library

/-- The hash of two keys, in 32 bits. -/
def superFastHash (key1 key2 : UInt32) : UInt32 :=
  let hash : UInt32 := 0
  let hash := hash + (key1 >>> 16)
  let tmp := ((key1 &&& 0xFFFF) <<< 11) ^^^ hash
  let hash := (hash <<< 16) ^^^ tmp
  let hash := hash + (hash >>> 11)
  let hash := hash + (key2 >>> 16)
  let tmp := ((key2 &&& 0xFFFF) <<< 11) ^^^ hash
  let hash := (hash <<< 16) ^^^ tmp
  let hash := hash + (hash >>> 11)
  -- force "avalanching" of final 127 bits
  let hash := hash ^^^ (hash <<< 3)
  let hash := hash + (hash >>> 5)
  let hash := hash ^^^ (hash <<< 4)
  let hash := hash + (hash >>> 17)
  let hash := hash ^^^ (hash <<< 25)
  hash + (hash >>> 6)

/-- An n-gram is its history index and its word index. -/
abbrev Ngram := Nat × Nat

def ngramHash (ngram : Ngram) : Nat :=
  (superFastHash (UInt32.ofNat ngram.1) (UInt32.ofNat ngram.2)).toNat

abbrev NgramVector := HashVector Ngram

/-! ### Sorting a dense vector -/

section

variable {α : Type}

def ascends (compare : α → α → Bool) : List α → Bool
  | first :: second :: rest => compare first second || ascends compare (second :: rest)
  | _ => false

/-- The position of each old index among the sorted ones. -/
def inverse (sortIndices : List Nat) : List Nat :=
  (List.range sortIndices.length).map (fun index => sortIndices.idxOf index)

/-- Whether the vector was sorted, and the vector; an empty one is read behind its end. -/
def denseSort (compare : α → α → Bool) (vector : List α) : Option (Bool × List α) :=
  if vector.isEmpty then none
  else if ascends compare vector then
    some (true, vector.mergeSort (fun left right => !compare right left))
  else some (false, vector)

theorem map_getD_range (default : α) (items : List α) :
    (List.range items.length).map (fun index => items.getD index default) = items := by
  apply List.ext_getElem
  · rw [List.length_map, List.length_range]
  · intro index _ inside
    rw [List.getElem_map, List.getElem_range, List.getD_eq_getElem?_getD,
      List.getElem?_eq_getElem inside, Option.getD_some]

theorem getD_inverse {sortIndices : List Nat} {length index : Nat}
    (perm : sortIndices.Perm (List.range length)) (inside : index < length) :
    (inverse sortIndices).getD index 0 = sortIndices.idxOf index := by
  have sameLength : sortIndices.length = length := by
    rw [perm.length_eq, List.length_range]
  rw [inverse, List.getD_eq_getElem?_getD, List.getElem?_map, List.getElem?_range (by omega),
    Option.map_some, Option.getD_some]

theorem moved_inverse (default : α) {items : List α} {sortIndices : List Nat}
    (perm : sortIndices.Perm (List.range items.length)) {index : Nat}
    (inside : index < items.length) :
    (sortIndices.map (fun index => items.getD index default))[
      (inverse sortIndices).getD index 0]? = items[index]? := by
  have member : index ∈ sortIndices := perm.mem_iff.mpr (List.mem_range.mpr inside)
  rw [getD_inverse perm inside, List.getElem?_map, List.getElem?_idxOf member, Option.map_some,
    List.getD_eq_getElem?_getD, List.getElem?_eq_getElem inside, Option.getD_some]

structure StrictOrder (compare : α → α → Bool) : Prop where
  irreflexive : ∀ element, compare element element = false
  transitive : ∀ first second third,
    compare first second = true → compare second third = true → compare first third = true
  connected : ∀ left right, compare left right = true ∨ left = right ∨ compare right left = true

variable {compare : α → α → Bool}

theorem ascends_map {β : Type} (f : β → α) (vector : List β) :
    ascends compare (vector.map f) = ascends (fun left right => compare (f left) (f right)) vector := by
  induction vector with
  | nil => rfl
  | cons first rest ih =>
      cases rest with
      | nil => rfl
      | cons second others =>
          rw [List.map_cons, List.map_cons, ascends, ascends, ← List.map_cons, ih]

theorem denseSort_map {β : Type} (f : β → α) (vector : List β) :
    denseSort compare (vector.map f) =
      (denseSort (fun left right => compare (f left) (f right)) vector).map
        (fun result => (result.1, result.2.map f)) := by
  rw [denseSort, denseSort, ascends_map, List.isEmpty_map]
  cases vector.isEmpty with
  | true => rfl
  | false =>
      cases ascends (fun left right => compare (f left) (f right)) vector with
      | false => rfl
      | true =>
          have mapped := List.map_mergeSort (f := f) (l := vector)
            (r := fun left right => !compare (f right) (f left))
            (s := fun left right => !compare right left) (fun _ _ _ _ => rfl)
          simp only [Bool.false_eq_true, if_false, if_true, Option.map_some, mapped]

theorem denseSort_perm {vector ordered : List α} {sorted : Bool}
    (ran : denseSort compare vector = some (sorted, ordered)) : ordered.Perm vector := by
  rw [denseSort] at ran
  split at ran
  · cases ran
  · split at ran
    · cases ran
      exact List.mergeSort_perm _ _
    · cases ran
      exact List.Perm.refl _

variable (order : StrictOrder compare)

include order

theorem ascends_eq_false_iff {vector : List α} (distinct : vector.Nodup) :
    ascends compare vector = false ↔
      vector.Pairwise (fun before after => compare after before = true) := by
  induction vector with
  | nil => simp [ascends]
  | cons first rest ih =>
      cases rest with
      | nil => simp [ascends]
      | cons second others =>
          have later := List.nodup_cons.mp distinct
          rw [ascends, Bool.or_eq_false_iff, ih later.2, List.pairwise_cons (l := second :: others)]
          have different : first ≠ second := by
            rintro rfl
            exact later.1 List.mem_cons_self
          constructor
          · rintro ⟨notLess, falls⟩
            have isGreater : compare second first = true := by
              rcases order.connected first second with less | same | greater
              · rw [less] at notLess
                cases notLess
              · exact absurd same different
              · exact greater
            refine ⟨?_, falls⟩
            intro other member
            rcases List.mem_cons.mp member with rfl | inOthers
            · exact isGreater
            · exact order.transitive _ _ _ ((List.pairwise_cons.mp falls).1 other inOthers) isGreater
          · rintro ⟨below, falls⟩
            refine ⟨?_, falls⟩
            have isGreater := below second List.mem_cons_self
            cases less : compare first second with
            | false => rfl
            | true =>
                have loop := order.transitive _ _ _ less isGreater
                rw [order.irreflexive] at loop
                cases loop

theorem denseSort_of_ascends {vector : List α} (distinct : vector.Nodup)
    (rises : ascends compare vector = true) :
    ∃ sorted, denseSort compare vector = some (true, sorted) ∧ sorted.Perm vector ∧
      sorted.Pairwise (fun before after => compare before after = true) := by
  have nonempty : vector.isEmpty = false := by
    cases vector with
    | nil => cases rises
    | cons first rest => rfl
  refine ⟨_, by rw [denseSort, nonempty, if_neg Bool.false_ne_true, if_pos rises],
    List.mergeSort_perm _ _, ?_⟩
  have transitive : ∀ first second third, (!compare second first) = true →
      (!compare third second) = true → (!compare third first) = true := by
    intro first second third le1 le2
    rw [Bool.not_eq_true'] at le1 le2 ⊢
    cases less : compare third first with
    | false => rfl
    | true =>
        rcases order.connected first second with below | rfl | above
        · have := order.transitive _ _ _ less below
          rw [this] at le2
          cases le2
        · rw [less] at le2
          cases le2
        · rw [above] at le1
          cases le1
  have total : ∀ left right, (!compare right left || !compare left right) = true := by
    intro left right
    cases less : compare right left with
    | false => rfl
    | true =>
        cases greater : compare left right with
        | false => rfl
        | true =>
            have loop := order.transitive _ _ _ less greater
            rw [order.irreflexive] at loop
            cases loop
  have sorted := List.pairwise_mergeSort transitive total vector
  have apart : (vector.mergeSort (fun left right => !compare right left)).Nodup :=
    (List.mergeSort_perm vector _).nodup_iff.mpr distinct
  refine (sorted.and apart).imp ?_
  rintro left right ⟨le, different⟩
  rw [Bool.not_eq_true'] at le
  rcases order.connected left right with less | same | greater
  · exact less
  · exact absurd same different
  · rw [greater] at le
    cases le

end

namespace NgramVector

def ngramIndexCompare (left right : Ngram) : Bool :=
  if left.1 = right.1 then decide (left.2 < right.2) else decide (left.1 < right.1)

def create : NgramVector := HashVector.empty

def find (vector : NgramVector) (hist word : Nat) : Option (Option Nat) :=
  HashVector.find ngramHash vector (hist, word)

def add (vector : NgramVector) (hist word : Nat) : Option (NgramVector × Nat × Bool) :=
  HashVector.add ngramHash vector (hist, word)

def reserve (capacity : Nat) (vector : NgramVector) : Option NgramVector :=
  HashVector.reserve ngramHash capacity vector

def renumber (vocabMap boNgramMap : List Nat) (ngram : Ngram) : Ngram :=
  (boNgramMap.getD ngram.1 0, vocabMap.getD ngram.2 0)

/-- Whether the elements were sorted, the vector, and the map from old to new indices. -/
def sort (vocabMap boNgramMap : List Nat) (vector : NgramVector) :
    Option (Bool × NgramVector × List Nat) := do
  let mapped := vector.entries.map (renumber vocabMap boNgramMap)
  let compare := fun left right =>
    ngramIndexCompare (mapped.getD left (0, 0)) (mapped.getD right (0, 0))
  let (sorted, sortIndices) ← denseSort compare (List.range vector.size)
  if sorted then
    let entries := sortIndices.map (fun index => mapped.getD index (0, 0))
    let table ← ProbeTable.rebuild ngramHash entries vector.table.indices.length
    some (true, { vector with table := table }, inverse sortIndices)
  else
    -- the index table still has the slots of the old pairs
    some (false, { vector with table := { vector.table with entries := mapped } },
      List.range vector.size)

theorem strictOrder_ngramIndexCompare : StrictOrder ngramIndexCompare := by
  have isLess : ∀ left right : Ngram, ngramIndexCompare left right = true ↔
      left.1 < right.1 ∨ left.1 = right.1 ∧ left.2 < right.2 := by
    intro left right
    rw [ngramIndexCompare]
    split <;> rw [decide_eq_true_eq] <;> omega
  constructor
  · intro element
    rw [Bool.eq_false_iff, ne_eq, isLess]
    omega
  · intro first second third
    rw [isLess, isLess, isLess]
    omega
  · intro left right
    rw [isLess, isLess, Prod.ext_iff]
    omega

section

variable {vector : NgramVector} {vocabMap boNgramMap : List Nat}

/-- What a sort does to the pairs: they are renumbered and moved, each to where the map
says. -/
structure Sorted (mapped : List Ngram) (after : NgramVector) (ngramMap : List Nat) : Prop where
  perm : after.entries.Perm mapped
  length : ngramMap.length = mapped.length
  moved : ∀ index < mapped.length, after.entries[ngramMap.getD index 0]? = mapped[index]?

theorem sort_of_ascends (valid : vector.Valid ngramHash)
    (distinct : (vector.entries.map (renumber vocabMap boNgramMap)).Nodup)
    (rises : ascends ngramIndexCompare (vector.entries.map (renumber vocabMap boNgramMap)) = true) :
    ∃ after ngramMap, sort vocabMap boNgramMap vector = some (true, after, ngramMap) ∧
      Sorted (vector.entries.map (renumber vocabMap boNgramMap)) after ngramMap ∧
      after.Valid ngramHash ∧
      after.entries.Pairwise (fun before after => ngramIndexCompare before after = true) := by
  set mapped := vector.entries.map (renumber vocabMap boNgramMap) with isMapped
  have sameSize : mapped.length = vector.size := by
    rw [isMapped, List.length_map, HashVector.size]
  obtain ⟨ordered, isSorted, perm, ascending⟩ :=
    denseSort_of_ascends strictOrder_ngramIndexCompare distinct rises
  have positions := @denseSort_map _ ngramIndexCompare _
    (fun index => mapped.getD index (0, 0)) (List.range mapped.length)
  rw [map_getD_range, isSorted] at positions
  obtain ⟨result, isResult, same⟩ := Option.map_eq_some_iff.mp positions.symm
  obtain ⟨_, sortIndices⟩ := result
  obtain ⟨rfl, isOrdered⟩ := Prod.mk.inj same
  have permIndices := denseSort_perm isResult
  obtain ⟨power, isLength, _⟩ := valid.holds.power
  have room : ordered.length < 2 ^ power := by
    have within := valid.within
    have below := valid.room
    rw [perm.length_eq, sameSize]
    omega
  obtain ⟨table, rebuilt, holds, sameEntries, tableLength⟩ :
      ∃ table, ProbeTable.rebuild ngramHash ordered (2 ^ power) = some table ∧
        table.Holds ngramHash ∧ table.entries = ordered ∧ table.indices.length = 2 ^ power :=
    ProbeTable.exists_rebuild (perm.nodup_iff.mpr distinct) room
  refine ⟨{ vector with table := table }, inverse sortIndices, ?_, ?_, ⟨holds, ?_, ?_⟩, ?_⟩
  · rw [← isLength] at rebuilt
    rw [sameSize] at isResult
    simp only [sort, ← isMapped, isResult, isOrdered, rebuilt, Option.bind_eq_bind,
      Option.bind_some, if_true]
  · constructor
    · show table.entries.Perm mapped
      rw [sameEntries]
      exact perm
    · rw [inverse, List.length_map, List.length_range, permIndices.length_eq, List.length_range]
    · intro index inside
      show table.entries[_]? = _
      rw [sameEntries, ← isOrdered]
      exact moved_inverse (0, 0) permIndices inside
  · show table.entries.length ≤ vector.capacity
    rw [sameEntries, perm.length_eq, sameSize]
    exact valid.within
  · show vector.capacity < table.indices.length
    rw [tableLength, ← isLength]
    exact valid.room
  · show table.entries.Pairwise _
    rw [sameEntries]
    exact ascending

/-- A vector whose renumbered pairs only descend keeps their order and its index table. -/
theorem sort_of_descends (nonempty : vector.entries ≠ [])
    (descends : ascends ngramIndexCompare
      (vector.entries.map (renumber vocabMap boNgramMap)) = false) :
    sort vocabMap boNgramMap vector = some (false,
      { vector with
        table := { vector.table with
          entries := vector.entries.map (renumber vocabMap boNgramMap) } },
      List.range vector.size) := by
  set mapped := vector.entries.map (renumber vocabMap boNgramMap) with isMapped
  have sameSize : mapped.length = vector.size := by
    rw [isMapped, List.length_map, HashVector.size]
  have filled : (List.range vector.size).isEmpty = false := by
    rw [HashVector.size, List.isEmpty_eq_false_iff, ne_eq, List.range_eq_nil,
      List.length_eq_zero_iff]
    exact nonempty
  have still : ascends (fun left right =>
      ngramIndexCompare (mapped.getD left (0, 0)) (mapped.getD right (0, 0)))
        (List.range vector.size) = false := by
    rw [← sameSize, ← ascends_map (fun index => mapped.getD index (0, 0)), map_getD_range]
    exact descends
  simp only [sort, ← isMapped, denseSort, filled, still, Option.bind_eq_bind, Option.bind_some,
    Bool.false_eq_true, if_false]

/-- A sort renumbers the pairs and moves them to where the map says. -/
theorem sort_eq (valid : vector.Valid ngramHash) (nonempty : vector.entries ≠ [])
    (distinct : (vector.entries.map (renumber vocabMap boNgramMap)).Nodup) :
    ∃ sorted after ngramMap, sort vocabMap boNgramMap vector = some (sorted, after, ngramMap) ∧
      Sorted (vector.entries.map (renumber vocabMap boNgramMap)) after ngramMap ∧
      sorted = ascends ngramIndexCompare (vector.entries.map (renumber vocabMap boNgramMap)) ∧
      (sorted = true → after.Valid ngramHash ∧
        after.entries.Pairwise (fun before after => ngramIndexCompare before after = true)) ∧
      (sorted = false → after.entries = vector.entries.map (renumber vocabMap boNgramMap) ∧
        ngramMap = List.range vector.size) := by
  cases rises : ascends ngramIndexCompare (vector.entries.map (renumber vocabMap boNgramMap)) with
  | true =>
      obtain ⟨after, ngramMap, ran, sorted, validAfter, ascending⟩ :=
        sort_of_ascends valid distinct rises
      exact ⟨true, after, ngramMap, ran, sorted, rfl, fun _ => ⟨validAfter, ascending⟩,
        fun impossible => by cases impossible⟩
  | false =>
      refine ⟨false, _, _, sort_of_descends nonempty rises, ?_, rfl, ?_, fun _ => ⟨rfl, rfl⟩⟩
      · constructor
        · exact List.Perm.refl _
        · rw [List.length_range, List.length_map, HashVector.size]
        · intro index inside
          rw [List.length_map] at inside
          have isSize : index < vector.size := inside
          rw [List.getD_eq_getElem?_getD, List.getElem?_range isSize, Option.getD_some]
          rfl
      · intro impossible
        cases impossible

/-- A sort puts the pairs in order, and leaves lookups right, unless there are several of them
in strictly descending order. -/
theorem sort_ascends_iff (valid : vector.Valid ngramHash) (nonempty : vector.entries ≠ [])
    (distinct : (vector.entries.map (renumber vocabMap boNgramMap)).Nodup) :
    ∃ sorted after ngramMap, sort vocabMap boNgramMap vector = some (sorted, after, ngramMap) ∧
      Sorted (vector.entries.map (renumber vocabMap boNgramMap)) after ngramMap ∧
      (after.entries.Pairwise (fun before after => ngramIndexCompare before after = true) ↔
        vector.size = 1 ∨ ¬(vector.entries.map (renumber vocabMap boNgramMap)).Pairwise
          (fun before after => ngramIndexCompare after before = true)) ∧
      (¬(vector.entries.map (renumber vocabMap boNgramMap)).Pairwise
          (fun before after => ngramIndexCompare after before = true) →
        after.Valid ngramHash) := by
  have isFall := ascends_eq_false_iff strictOrder_ngramIndexCompare distinct
  obtain ⟨sorted, after, ngramMap, ran, isSorted, isAscent, whenSorted, whenNot⟩ :=
    sort_eq valid nonempty distinct
  rw [← isFall, Bool.not_eq_false, ← isAscent]
  refine ⟨sorted, after, ngramMap, ran, isSorted, ?_, fun rises => (whenSorted rises).1⟩
  cases sorted with
  | true => exact ⟨fun _ => Or.inr rfl, fun _ => (whenSorted rfl).2⟩
  | false =>
      have falls := isFall.mp isAscent.symm
      rw [(whenNot rfl).1, HashVector.size, ← List.length_map (renumber vocabMap boNgramMap)]
      have filled : vector.entries.map (renumber vocabMap boNgramMap) ≠ [] := by
        rw [ne_eq, List.map_eq_nil_iff]
        exact nonempty
      generalize vector.entries.map (renumber vocabMap boNgramMap) = mapped at falls filled
      constructor
      · intro ascending
        left
        cases mapped with
        | nil => exact absurd rfl filled
        | cons first later =>
          cases later with
          | nil => rfl
          | cons second rest =>
            have less := (List.pairwise_cons.mp ascending).1 second List.mem_cons_self
            have greater := (List.pairwise_cons.mp falls).1 second List.mem_cons_self
            have loop := strictOrder_ngramIndexCompare.transitive _ _ _ less greater
            rw [strictOrder_ngramIndexCompare.irreflexive] at loop
            cases loop
      · rintro (single | impossible)
        · obtain ⟨one, rfl⟩ := List.length_eq_one_iff.mp single
          exact List.pairwise_singleton _ _
        · cases impossible

end

theorem sort_ascends_iff_two :
    ∃ vector : NgramVector, vector.entries = [(0, 2), (0, 1)] ∧
      ∃ sorted after ngramMap, sort [0, 1, 2] [0] vector = some (sorted, after, ngramMap) ∧
        Sorted [(0, 2), (0, 1)] after ngramMap ∧
        (after.entries.Pairwise (fun before after => ngramIndexCompare before after = true) ↔
          vector.size = 1 ∨ ¬[(0, 2), (0, 1)].Pairwise
            (fun before after => ngramIndexCompare after before = true)) ∧
        (¬[(0, 2), (0, 1)].Pairwise (fun before after => ngramIndexCompare after before = true) →
          after.Valid ngramHash) := by
  obtain ⟨_, _, _, _, validOne, isOne, _⟩ :=
    (HashVector.valid_empty : create.Valid ngramHash).exists_add (0, 2)
  obtain ⟨vector, _, _, _, valid, isVector, _⟩ := validOne.exists_add (0, 1)
  have entries : vector.entries = [(0, 2), (0, 1)] := by
    rw [isVector, isOne]
    rfl
  have mapped : vector.entries.map (renumber [0, 1, 2] [0]) = [(0, 2), (0, 1)] := by
    rw [entries]
    rfl
  refine ⟨vector, entries, ?_⟩
  rw [← mapped]
  refine sort_ascends_iff valid ?_ ?_
  · rw [entries]
    exact List.cons_ne_nil _ _
  · rw [mapped]
    decide

/-- From its construction on a vector answers every run of calls as the list of its n-grams,
in the order of their first insertion, does. -/
theorem run_answers {calls : List (HashVector.Call Ngram)} (fits : HashVector.Fits 0 [] calls) :
    ∃ last, HashVector.run ngramHash create calls =
        some (last, (HashVector.answers [] calls).2) ∧
      last.Valid ngramHash ∧ last.entries = (HashVector.answers [] calls).1 ∧
      last.table.indices.length ≤ 2 ^ 31 :=
  HashVector.valid_empty.run_eq (by decide) fits

/-- An n-gram that is added twice, one that is missing, and a reservation. -/
theorem run_answers_four :
    ∃ last, HashVector.run ngramHash create
        [.add (0, 1), .add (0, 1), .find (0, 2), .reserve 1] =
          some (last, [some 0, some 0, none, none]) ∧
      last.Valid ngramHash ∧ last.entries = [(0, 1)] ∧ last.table.indices.length ≤ 2 ^ 31 := by
  have small : ∀ capacity ≤ 2 ^ 16, HashVector.slots capacity ≤ 2 ^ 31 :=
    fun capacity within => HashVector.slots_le_iff.mpr (by omega)
  refine @run_answers [.add (0, 1), .add (0, 1), .find (0, 2), .reserve 1]
    ⟨?_, small _ (by decide), ?_, small _ (by decide), ?_, small _ (by decide), ?_,
      small _ (by decide), trivial⟩
  · intro reserved impossible
    cases impossible
  · intro reserved impossible
    cases impossible
  · intro reserved impossible
    cases impossible
  · intro reserved same
    cases same
    decide

/-- A reservation for which the index table would have too many slots. -/
example : ¬HashVector.Fits 0 [] [.reserve (2 ^ 31), HashVector.Call.add ((0, 1) : Ngram)] := by
  intro fits
  have small := HashVector.slots_le_iff.mp fits.2.1
  exact absurd small (by decide)

end NgramVector

end Mitlm
