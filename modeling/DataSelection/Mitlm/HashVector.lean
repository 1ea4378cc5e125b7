/-
The growing hash vectors of the language model toolkit.

The vocabulary and the n-gram vectors keep their values by index beside an index table with
quadratic probing.  Over any run of lookups, insertions and reservations such a vector is
the list of the values in the order of their first insertion.  Indices and positions are
numbers here and ints in the toolkit, which hold all positions of a table of 2^31 slots.
-/

import DataSelection.Library.QuadraticProbing
import Mathlib.Data.Nat.Size

namespace Mitlm

open Library

/-- The smallest power of 2 larger than x. -/
def nextPowerOf2 (x : Nat) : Nat := 1 <<< Nat.size x

theorem nextPowerOf2_eq (x : Nat) : nextPowerOf2 x = 2 ^ Nat.size x := by
  rw [nextPowerOf2, Nat.one_shiftLeft]

theorem lt_nextPowerOf2 (x : Nat) : x < nextPowerOf2 x := by
  rw [nextPowerOf2_eq]
  exact Nat.lt_size_self x

structure HashVector (K : Type) where
  table : ProbeTable K
  capacity : Nat

namespace HashVector

section

variable {K : Type}

def entries (vector : HashVector K) : List K := vector.table.entries

def size (vector : HashVector K) : Nat := vector.entries.length

/-- A vector before the first insertion: one slot, no capacity. -/
def empty : HashVector K :=
  { table := { entries := [], indices := [none], mask := 0 }
    capacity := 0 }

/-- The slots of the index table for a capacity. -/
def slots (capacity : Nat) : Nat := nextPowerOf2 (capacity + capacity / 4)

theorem slots_le_iff {capacity : Nat} : slots capacity ≤ 2 ^ 31 ↔ capacity + capacity / 4 < 2 ^ 31 := by
  rw [slots, nextPowerOf2_eq, Nat.pow_le_pow_iff_right Nat.one_lt_two, Nat.size_le]

/-- Reserves the index table and the values; a capacity below the size would cut values off. -/
def reserve (hash : K → Nat) (capacity : Nat) (vector : HashVector K) : Option (HashVector K) :=
  if capacity = vector.capacity then some vector
  else if capacity < vector.size then none
  else (ProbeTable.rebuild hash vector.entries (slots capacity)).map
    (fun table => { table := table, capacity := capacity })

/-- Increases the capacity as needed. -/
def grow (hash : K → Nat) (vector : HashVector K) : Option (HashVector K) :=
  if vector.size ≥ vector.capacity then
    vector.reserve hash (max (2 ^ 16) (vector.capacity * 2))
  else some vector

variable [DecidableEq K]

def find (hash : K → Nat) (vector : HashVector K) (key : K) : Option (Option Nat) :=
  vector.table.find hash key

/-- The vector, the index of the value, and whether the value is new. -/
def add (hash : K → Nat) (vector : HashVector K) (key : K) :
    Option (HashVector K × Nat × Bool) := do
  let slot ← vector.table.findSlot hash key
  match vector.table.indices.getD slot none with
  | some index => some (vector, index, false)
  | none =>
      let grown ← vector.grow hash
      let slot ← grown.table.findSlot hash key
      let table :=
        { grown.table with
          entries := grown.table.entries ++ [key]
          indices := grown.table.indices.set slot (some vector.size) }
      some ({ grown with table := table }, vector.size, true)

end

/-! ### What every operation keeps -/

structure Valid {K : Type} (hash : K → Nat) (vector : HashVector K) : Prop where
  holds : vector.table.Holds hash
  within : vector.size ≤ vector.capacity
  room : vector.capacity < vector.table.indices.length

theorem getElem?_of_prefix {K : Type} {before after : List K} (longer : before <+: after) {index : Nat}
    {item : K} (found : before[index]? = some item) : after[index]? = some item := by
  obtain ⟨rest, rfl⟩ := longer
  rw [List.getElem?_append_left (List.getElem?_eq_some_iff.mp found).1, found]

/-- The list of the values seen so far, with one more value. -/
def enter {K : Type} [DecidableEq K] (seen : List K) (key : K) : List K :=
  if key ∈ seen then seen else seen ++ [key]

section

variable {K : Type} [DecidableEq K] {seen : List K} {key other : K}

theorem prefix_enter : seen <+: enter seen key := by
  rw [enter]
  split
  · exact List.prefix_refl seen
  · exact List.prefix_append seen [key]

theorem mem_enter : other ∈ enter seen key ↔ other ∈ seen ∨ other = key := by
  rw [enter]
  split
  · next present =>
      constructor
      · exact Or.inl
      · rintro (isOld | rfl)
        · exact isOld
        · exact present
  · rw [List.mem_append, List.mem_singleton]

theorem length_enter_le : (enter seen key).length ≤ seen.length + 1 := by
  rw [enter]
  split
  · exact Nat.le_succ _
  · rw [List.length_append, List.length_singleton]

/-- What stands in the longer list stood there before, or is the new value at its end. -/
theorem getElem?_enter {index : Nat} (there : (enter seen key)[index]? = some other) :
    seen[index]? = some other ∨ key ∉ seen ∧ index = seen.length ∧ other = key := by
  rw [enter] at there
  split at there
  · exact Or.inl there
  · next absent =>
      rcases Nat.lt_or_ge index seen.length with inside | outside
      · rw [List.getElem?_append_left inside] at there
        exact Or.inl there
      · rw [List.getElem?_append_right outside, List.getElem?_singleton] at there
        split at there
        · have isLast : index = seen.length := by omega
          exact Or.inr ⟨absent, isLast, (Option.some.inj there).symm⟩
        · cases there

theorem nodup_enter (distinct : seen.Nodup) : (enter seen key).Nodup := by
  rw [enter]
  split
  · exact distinct
  · next absent =>
      rw [← List.concat_eq_append]
      exact distinct.concat absent

theorem getElem?_idxOf_enter : (enter seen key)[(enter seen key).idxOf key]? = some key :=
  List.getElem?_idxOf (mem_enter.mpr (Or.inr rfl))

end

section

variable {K : Type} {hash : K → Nat} {vector : HashVector K}

theorem valid_empty : (empty : HashVector K).Valid hash :=
  { holds := ProbeTable.holds_empty 0
    within := Nat.le_refl 0
    room := Nat.zero_lt_one }

variable (valid : vector.Valid hash)

include valid

theorem Valid.reserve_eq {capacity : Nat} (fits : vector.size ≤ capacity) :
    ∃ reserved, vector.reserve hash capacity = some reserved ∧ reserved.Valid hash ∧
      reserved.entries = vector.entries ∧ reserved.capacity = capacity ∧
      (reserved.table.indices.length = vector.table.indices.length ∨
        reserved.table.indices.length = slots capacity) := by
  rw [reserve]
  by_cases same : capacity = vector.capacity
  · rw [if_pos same]
    exact ⟨vector, rfl, valid, rfl, same.symm, Or.inl rfl⟩
  · rw [if_neg same, if_neg (Nat.not_lt.mpr fits)]
    have larger := lt_nextPowerOf2 (capacity + capacity / 4)
    have isSlots : slots capacity = 2 ^ Nat.size (capacity + capacity / 4) := nextPowerOf2_eq _
    rw [nextPowerOf2_eq] at larger
    have below : vector.entries.length < 2 ^ Nat.size (capacity + capacity / 4) := by
      have := fits
      rw [size] at this
      omega
    have distinct : vector.entries.Nodup := valid.holds.distinct
    obtain ⟨table, rebuilt, holds, sameEntries, isLength⟩ :
        ∃ table, ProbeTable.rebuild hash vector.entries
            (2 ^ Nat.size (capacity + capacity / 4)) = some table ∧ table.Holds hash ∧
          table.entries = vector.entries ∧
          table.indices.length = 2 ^ Nat.size (capacity + capacity / 4) :=
      ProbeTable.exists_rebuild distinct below
    rw [isSlots, rebuilt]
    refine ⟨_, rfl, ?_, sameEntries, rfl, Or.inr isLength⟩
    constructor
    · exact holds
    · show table.entries.length ≤ capacity
      rw [sameEntries]
      exact fits
    · show capacity < table.indices.length
      rw [isLength]
      omega

theorem Valid.grow_eq :
    ∃ grown, vector.grow hash = some grown ∧ grown.Valid hash ∧
      grown.entries = vector.entries ∧ vector.size < grown.capacity ∧
      grown.capacity = (if vector.capacity ≤ vector.size then max (2 ^ 16) (vector.capacity * 2)
        else vector.capacity) ∧
      (grown.table.indices.length = vector.table.indices.length ∨
        grown.table.indices.length = slots grown.capacity) := by
  have within := valid.within
  rw [grow]
  by_cases isFull : vector.size ≥ vector.capacity
  · rw [if_pos isFull, if_pos isFull]
    have fits : vector.size < max (2 ^ 16) (vector.capacity * 2) := by omega
    obtain ⟨grown, reserved, validGrown, sameEntries, isCapacity, isLength⟩ :=
      valid.reserve_eq (Nat.le_of_lt fits)
    exact ⟨grown, reserved, validGrown, sameEntries, isCapacity ▸ fits, isCapacity,
      isCapacity ▸ isLength⟩
  · rw [if_neg isFull, if_neg isFull]
    exact ⟨vector, rfl, valid, rfl, Nat.lt_of_not_le isFull, rfl, Or.inl rfl⟩

variable [DecidableEq K]

theorem Valid.find_eq (key : K) : vector.find hash key = some (vector.entries.idxOf? key) :=
  valid.holds.find_eq (Nat.lt_of_le_of_lt valid.within valid.room) key

theorem Valid.exists_find {key : K} (present : key ∈ vector.entries) :
    ∃ index, vector.find hash key = some (some index) := by
  rw [valid.find_eq]
  cases found : vector.entries.idxOf? key with
  | some index => exact ⟨index, rfl⟩
  | none => exact absurd present (List.idxOf?_eq_none_iff.mp found)

theorem Valid.add_spec (key : K) :
    ∃ added, vector.add hash key =
        some (added, (enter vector.entries key).idxOf key, decide (key ∉ vector.entries)) ∧
      added.Valid hash ∧ added.entries = enter vector.entries key ∧
      added.capacity = (if key ∉ vector.entries ∧ vector.capacity ≤ vector.entries.length
        then max (2 ^ 16) (vector.capacity * 2) else vector.capacity) ∧
      (added.table.indices.length = vector.table.indices.length ∨
        added.table.indices.length = slots added.capacity) := by
  by_cases present : key ∈ vector.entries
  · obtain ⟨index, inside, isKey⟩ := List.mem_iff_getElem.mp present
    have listed : vector.entries[index]? = some key := by
      rw [List.getElem?_eq_getElem inside, isKey]
    obtain ⟨slot, found, held⟩ := valid.holds.findSlot_of_listed listed
    have isPosition : vector.entries.idxOf key = index := by
      rw [← isKey]
      exact valid.holds.distinct.idxOf_getElem index inside
    have same : enter vector.entries key = vector.entries := if_pos present
    refine ⟨vector, ?_, valid, same.symm, (if_neg (fun both => both.1 present)).symm, Or.inl rfl⟩
    have isHeld : vector.table.indices.getD slot none = some index := by
      rw [List.getD_eq_getElem?_getD, held, Option.getD_some]
    simp only [add, found, Option.bind_eq_bind, Option.bind_some, isHeld, same, isPosition, present,
      not_true_eq_false, decide_false]
  · obtain ⟨first, found, isFree, _⟩ := valid.holds.findSlot_of_absent
      (Nat.lt_of_le_of_lt valid.within valid.room) present
    have isUnused : vector.table.indices.getD (probe vector.table.mask (hash key) first) none =
        none := by
      rw [List.getD_eq_getElem?_getD, isFree, Option.getD_some]
    obtain ⟨grown, isGrown, validGrown, sameEntries, larger, isCapacity, isLength⟩ := valid.grow_eq
    have absent : key ∉ grown.entries := by
      rw [sameEntries]
      exact present
    obtain ⟨last, foundGrown, isFreeGrown, passed⟩ := validGrown.holds.findSlot_of_absent
      (Nat.lt_of_le_of_lt validGrown.within validGrown.room) absent
    have entered : enter vector.entries key = vector.entries ++ [key] := if_neg present
    have position : (vector.entries ++ [key]).idxOf key = vector.entries.length := by
      rw [List.idxOf_append_of_notMem present, List.idxOf_cons_self, Nat.add_zero]
    have holds := validGrown.holds.insert absent isFreeGrown passed
    have sameSize : grown.table.entries.length = vector.size := congrArg List.length sameEntries
    rw [sameSize] at holds
    let table : ProbeTable K :=
      { entries := grown.table.entries ++ [key]
        indices := grown.table.indices.set (probe grown.table.mask (hash key) last)
          (some vector.size)
        mask := grown.table.mask }
    refine ⟨{ table := table, capacity := grown.capacity }, ?_, ⟨holds, ?_, ?_⟩, ?_, ?_, ?_⟩
    · simp only [add, found, Option.bind_eq_bind, Option.bind_some, isUnused, isGrown, foundGrown,
        entered, position, present, not_false_eq_true, decide_true]
      rfl
    · show (grown.table.entries ++ [key]).length ≤ grown.capacity
      rw [List.length_append, List.length_singleton, sameSize]
      exact larger
    · show grown.capacity < (grown.table.indices.set _ _).length
      rw [List.length_set]
      exact validGrown.room
    · show grown.table.entries ++ [key] = enter vector.entries key
      rw [entered]
      exact congrArg (· ++ [key]) sameEntries
    · show grown.capacity = _
      rw [isCapacity, size]
      simp only [present, not_false_eq_true, true_and]
    · show (grown.table.indices.set _ _).length = _ ∨ (grown.table.indices.set _ _).length = _
      rw [List.length_set]
      exact isLength

/-- A value gets the index of its first insertion. -/
theorem Valid.add_eq (key : K) :
    ∃ added, vector.add hash key =
        some (added, (enter vector.entries key).idxOf key, decide (key ∉ vector.entries)) ∧
      added.Valid hash ∧ added.entries = enter vector.entries key := by
  obtain ⟨added, isAdded, validAdded, entered, _⟩ := valid.add_spec key
  exact ⟨added, isAdded, validAdded, entered⟩

theorem Valid.exists_add (key : K) :
    ∃ added index isNew, vector.add hash key = some (added, index, isNew) ∧
      added.Valid hash ∧ added.entries = enter vector.entries key ∧
      added.entries[index]? = some key ∧ (isNew = true ↔ key ∉ vector.entries) := by
  obtain ⟨added, isAdded, validAdded, entered⟩ := valid.add_eq key
  refine ⟨added, _, _, isAdded, validAdded, entered, ?_, decide_eq_true_iff⟩
  rw [entered]
  exact getElem?_idxOf_enter

end

/-! ### Runs -/

section

inductive Call (K : Type) where
  | find (key : K)
  | add (key : K)
  | reserve (capacity : Nat)

variable {K : Type} [DecidableEq K]

/-- A call, with the index that it returns. -/
def call (hash : K → Nat) (vector : HashVector K) : Call K → Option (HashVector K × Option Nat)
  | .find key => (vector.find hash key).map (fun index => (vector, index))
  | .add key => (vector.add hash key).map (fun added => (added.1, some added.2.1))
  | .reserve capacity => (vector.reserve hash capacity).map (fun reserved => (reserved, none))

def run (hash : K → Nat) : HashVector K → List (Call K) → Option (HashVector K × List (Option Nat))
  | vector, [] => some (vector, [])
  | vector, first :: later => do
      let (vector, answer) ← vector.call hash first
      let (vector, answers) ← run hash vector later
      some (vector, answer :: answers)

def answer (seen : List K) : Call K → List K × Option Nat
  | .find key => (seen, seen.idxOf? key)
  | .add key => (enter seen key, some ((enter seen key).idxOf key))
  | .reserve _ => (seen, none)

def answers : List K → List (Call K) → List K × List (Option Nat)
  | seen, [] => (seen, [])
  | seen, first :: later =>
      let (seen, index) := answer seen first
      let (seen, indices) := answers seen later
      (seen, index :: indices)

/-- The capacity behind a call to a vector with some values. -/
def capacityAfter (seen : List K) (capacity : Nat) : Call K → Nat
  | .find _ => capacity
  | .add key =>
      if key ∉ seen ∧ capacity ≤ seen.length then max (2 ^ 16) (capacity * 2) else capacity
  | .reserve reserved => reserved

/-- No reservation is for less than what the vector holds then, and no index table has more slots
than there are positions in an int. -/
def Fits : Nat → List K → List (Call K) → Prop
  | _, _, [] => True
  | capacity, seen, first :: later =>
      (∀ reserved, first = .reserve reserved → seen.length ≤ reserved) ∧
        slots (capacityAfter seen capacity first) ≤ 2 ^ 31 ∧
        Fits (capacityAfter seen capacity first) (answer seen first).1 later

variable {hash : K → Nat} {vector : HashVector K}

theorem Valid.call_eq (valid : vector.Valid hash) {first : Call K}
    (fits : ∀ reserved, first = .reserve reserved → vector.size ≤ reserved) :
    ∃ next, vector.call hash first = some (next, (answer vector.entries first).2) ∧
      next.Valid hash ∧ next.entries = (answer vector.entries first).1 ∧
      next.capacity = capacityAfter vector.entries vector.capacity first ∧
      (next.table.indices.length = vector.table.indices.length ∨
        next.table.indices.length = slots next.capacity) := by
  cases first with
  | find key =>
      refine ⟨vector, ?_, valid, rfl, rfl, Or.inl rfl⟩
      rw [call, valid.find_eq]
      rfl
  | add key =>
      obtain ⟨added, isAdded, validAdded, entered, isCapacity, isLength⟩ := valid.add_spec key
      refine ⟨added, ?_, validAdded, entered, isCapacity, isLength⟩
      rw [call, isAdded]
      rfl
  | reserve capacity =>
      obtain ⟨reserved, isReserved, validReserved, same, isCapacity, isLength⟩ :=
        valid.reserve_eq (fits capacity rfl)
      refine ⟨reserved, ?_, validReserved, same, isCapacity, isCapacity ▸ isLength⟩
      rw [call, isReserved]
      rfl

/-- A vector answers every run of calls as the list of its values does, and the positions of its
index table stay ints. -/
theorem Valid.run_eq (valid : vector.Valid hash) (small : vector.table.indices.length ≤ 2 ^ 31)
    {calls : List (Call K)} (fits : Fits vector.capacity vector.entries calls) :
    ∃ last, vector.run hash calls = some (last, (answers vector.entries calls).2) ∧
      last.Valid hash ∧ last.entries = (answers vector.entries calls).1 ∧
      last.table.indices.length ≤ 2 ^ 31 := by
  induction calls generalizing vector with
  | nil => exact ⟨vector, rfl, valid, rfl, small⟩
  | cons first later ih =>
      obtain ⟨here, bounded, there⟩ := fits
      obtain ⟨next, called, validNext, isNext, isCapacity, isLength⟩ := valid.call_eq here
      rw [← isCapacity] at bounded there
      have smallNext : next.table.indices.length ≤ 2 ^ 31 := by
        rcases isLength with same | isSlots
        · rw [same]
          exact small
        · rw [isSlots]
          exact bounded
      rw [← isNext] at there
      obtain ⟨last, ran, validLast, isLast, smallLast⟩ := ih validNext smallNext there
      rw [isNext] at ran isLast
      refine ⟨last, ?_, validLast, isLast, smallLast⟩
      simp only [run, called, ran, Option.bind_eq_bind, Option.bind_some]
      rfl

end

end HashVector

end Mitlm
