/-
Finite dictionaries whose subscript creates a default entry for a missing key.

The keys are listed once each in insertion order, and the value of an absent
key is the default, so reading without inserting and reading with inserting
agree on the value and differ only in the key list.
-/

import Mathlib.Data.List.Dedup
import Mathlib.Logic.Function.Basic

namespace Library

structure DefaultDict (κ ν : Type) [Inhabited ν] where
  keys : List κ
  value : κ → ν
  nodup : keys.Nodup
  absent : ∀ key, key ∉ keys → value key = default

namespace DefaultDict

variable {κ ν : Type} [Inhabited ν]

def empty : DefaultDict κ ν :=
  { keys := []
    value := fun _ => default
    nodup := List.nodup_nil
    absent := fun _ _ => rfl }

instance : Inhabited (DefaultDict κ ν) := ⟨empty⟩

theorem mem_keys_of_ne_default {key : κ} {dict : DefaultDict κ ν}
    (filled : dict.value key ≠ default) : key ∈ dict.keys := by
  by_contra missing
  exact filled (dict.absent key missing)

@[simp] theorem keys_empty : (empty : DefaultDict κ ν).keys = [] := rfl

variable [DecidableEq κ]

/-- The subscript `d[key]` read for its effect: a missing key is inserted. -/
def touch (key : κ) (dict : DefaultDict κ ν) : DefaultDict κ ν :=
  { keys := if key ∈ dict.keys then dict.keys else dict.keys ++ [key]
    value := dict.value
    nodup := by
      by_cases present : key ∈ dict.keys
      · rw [if_pos present]
        exact dict.nodup
      · rw [if_neg present]
        exact List.nodup_append.mpr ⟨dict.nodup, List.nodup_singleton key, by
          intro left inKeys right inSingleton same
          rw [List.mem_singleton.mp inSingleton] at same
          exact present (same ▸ inKeys)⟩
    absent := by
      intro other missing
      apply dict.absent
      intro present
      apply missing
      by_cases inserted : key ∈ dict.keys
      · rw [if_pos inserted]
        exact present
      · rw [if_neg inserted]
        exact List.mem_append_left _ present }

@[simp] theorem mem_keys_touch (key other : κ) (dict : DefaultDict κ ν) :
    other ∈ (dict.touch key).keys ↔ other = key ∨ other ∈ dict.keys := by
  by_cases present : key ∈ dict.keys
  · simp only [touch, if_pos present]
    constructor
    · exact Or.inr
    · rintro (rfl | inKeys)
      · exact present
      · exact inKeys
  · simp only [touch, if_neg present, List.mem_append, List.mem_singleton]
    exact or_comm

@[simp] theorem value_touch (key other : κ) (dict : DefaultDict κ ν) :
    (dict.touch key).value other = dict.value other := rfl

theorem keys_touch_of_mem {key : κ} {dict : DefaultDict κ ν} (present : key ∈ dict.keys) :
    (dict.touch key).keys = dict.keys := if_pos present

theorem keys_touch_of_notMem {key : κ} {dict : DefaultDict κ ν} (missing : key ∉ dict.keys) :
    (dict.touch key).keys = dict.keys ++ [key] := if_neg missing

/-- The assignment `d[key] = item`. -/
def set (key : κ) (item : ν) (dict : DefaultDict κ ν) : DefaultDict κ ν :=
  { dict.touch key with
    value := Function.update dict.value key item
    absent := by
      intro other missing
      rw [mem_keys_touch] at missing
      rw [Function.update_of_ne (fun same => missing (Or.inl same))]
      exact dict.absent other (fun present => missing (Or.inr present)) }

@[simp] theorem keys_set (key : κ) (item : ν) (dict : DefaultDict κ ν) :
    (dict.set key item).keys = (dict.touch key).keys := rfl

@[simp] theorem value_set_self (key : κ) (item : ν) (dict : DefaultDict κ ν) :
    (dict.set key item).value key = item := by
  simp only [set, Function.update_self]

theorem value_set_of_ne {key other : κ} (different : other ≠ key) (item : ν)
    (dict : DefaultDict κ ν) : (dict.set key item).value other = dict.value other := by
  simp only [set, Function.update_of_ne different]

theorem value_set (key other : κ) (item : ν) (dict : DefaultDict κ ν) :
    (dict.set key item).value other = if other = key then item else dict.value other := by
  by_cases same : other = key
  · rw [if_pos same, same, value_set_self]
  · rw [if_neg same, value_set_of_ne same]

/-- The in-place update of the entry that `d[key]` denotes. -/
def modify (key : κ) (change : ν → ν) (dict : DefaultDict κ ν) : DefaultDict κ ν :=
  dict.set key (change (dict.value key))

@[simp] theorem keys_modify (key : κ) (change : ν → ν) (dict : DefaultDict κ ν) :
    (dict.modify key change).keys = (dict.touch key).keys := rfl

@[simp] theorem value_modify_self (key : κ) (change : ν → ν) (dict : DefaultDict κ ν) :
    (dict.modify key change).value key = change (dict.value key) :=
  value_set_self key _ dict

theorem value_modify_of_ne {key other : κ} (different : other ≠ key) (change : ν → ν)
    (dict : DefaultDict κ ν) : (dict.modify key change).value other = dict.value other :=
  value_set_of_ne different _ dict

theorem value_modify (key other : κ) (change : ν → ν) (dict : DefaultDict κ ν) :
    (dict.modify key change).value other =
      if other = key then change (dict.value other) else dict.value other := by
  unfold modify
  rw [value_set]
  by_cases same : other = key
  · rw [if_pos same, if_pos same, same]
  · rw [if_neg same, if_neg same]

theorem mem_keys_modify (key other : κ) (change : ν → ν) (dict : DefaultDict κ ν) :
    other ∈ (dict.modify key change).keys ↔ other = key ∨ other ∈ dict.keys :=
  mem_keys_touch key other dict

/-- The removal `d.pop(key)` of an entry. -/
def pop (key : κ) (dict : DefaultDict κ ν) : DefaultDict κ ν :=
  { keys := dict.keys.erase key
    value := Function.update dict.value key default
    nodup := dict.nodup.erase key
    absent := by
      intro other missing
      by_cases same : other = key
      · rw [same, Function.update_self]
      · rw [Function.update_of_ne same]
        exact dict.absent other (fun present => missing ((List.mem_erase_of_ne same).mpr present)) }

@[simp] theorem keys_pop (key : κ) (dict : DefaultDict κ ν) :
    (dict.pop key).keys = dict.keys.erase key := rfl

theorem mem_keys_pop {key other : κ} {dict : DefaultDict κ ν} :
    other ∈ (dict.pop key).keys ↔ other ≠ key ∧ other ∈ dict.keys := dict.nodup.mem_erase_iff

theorem value_pop_of_mem {key other : κ} {dict : DefaultDict κ ν}
    (present : other ∈ (dict.pop key).keys) : (dict.pop key).value other = dict.value other := by
  simp only [pop, Function.update_of_ne (mem_keys_pop.mp present).1]

def mapValues (change : ν → ν) (dict : DefaultDict κ ν) : DefaultDict κ ν :=
  { keys := dict.keys
    value := fun key => if key ∈ dict.keys then change (dict.value key) else default
    nodup := dict.nodup
    absent := fun _ missing => if_neg missing }

theorem value_mapValues_of_mem {key : κ} {dict : DefaultDict κ ν} (change : ν → ν)
    (present : key ∈ dict.keys) :
    (dict.mapValues change).value key = change (dict.value key) := if_pos present

end DefaultDict

end Library
