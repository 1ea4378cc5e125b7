/-
Dictionaries of counts.

A key that is met for the first time gets the count one, and a key that is met
again one more, so the counts are those of a list of keys.
-/

import DataSelection.Library.DefaultDict
import Mathlib.Algebra.BigOperators.Group.List.Basic
import Mathlib.Algebra.GroupWithZero.Nat
import Mathlib.Data.List.Count

namespace Library

abbrev Tally (κ : Type) := DefaultDict κ Nat

namespace Tally

variable {κ : Type}

def total (tally : Tally κ) : Nat :=
  (tally.keys.map tally.value).sum

/-- A key of the dictionary has been met. -/
def Counted (tally : Tally κ) : Prop :=
  ∀ key ∈ tally.keys, 0 < tally.value key

theorem counted_empty : Counted (DefaultDict.empty : Tally κ) := by
  intro key member
  cases member

variable [DecidableEq κ]

def increment (tally : Tally κ) (key : κ) : Tally κ :=
  if key ∈ tally.keys then tally.set key (tally.value key + 1) else tally.set key 1

def incrementAll (tally : Tally κ) (keys : List κ) : Tally κ :=
  keys.foldl increment tally

theorem increment_eq (tally : Tally κ) (key : κ) :
    tally.increment key = tally.set key (tally.value key + 1) := by
  unfold increment
  by_cases present : key ∈ tally.keys
  · rw [if_pos present]
  · have unmet : tally.value key = 0 := tally.absent key present
    rw [if_neg present, unmet]

theorem mem_keys_increment (tally : Tally κ) (key other : κ) :
    other ∈ (tally.increment key).keys ↔ other = key ∨ other ∈ tally.keys := by
  rw [increment_eq, DefaultDict.keys_set, DefaultDict.mem_keys_touch]

theorem value_increment (tally : Tally κ) (key other : κ) :
    (tally.increment key).value other = tally.value other + if other = key then 1 else 0 := by
  rw [increment_eq, DefaultDict.value_set]
  by_cases same : other = key
  · rw [if_pos same, if_pos same, same]
  · rw [if_neg same, if_neg same, Nat.add_zero]

theorem Counted.increment {tally : Tally κ} (counted : tally.Counted) (key : κ) :
    (tally.increment key).Counted := by
  intro other member
  rw [value_increment]
  by_cases same : other = key
  · rw [if_pos same]
    exact Nat.succ_pos _
  · have earlier := ((mem_keys_increment tally key other).mp member).resolve_left same
    rw [if_neg same, Nat.add_zero]
    exact counted other earlier

theorem sum_map_increment (tally : Tally κ) (key : κ) (keys : List κ) (distinct : keys.Nodup) :
    (keys.map (tally.increment key).value).sum =
      (keys.map tally.value).sum + if key ∈ keys then 1 else 0 := by
  induction keys with
  | nil => rfl
  | cons head rest ih =>
      have parts := List.nodup_cons.mp distinct
      rw [List.map_cons, List.sum_cons, List.map_cons, List.sum_cons, ih parts.2,
        value_increment]
      by_cases same : head = key
      · subst head
        simp only [parts.1, List.mem_cons, true_or, if_true, if_false]
        omega
      · simp only [same, Ne.symm same, List.mem_cons, false_or, if_false]
        omega

theorem total_increment (tally : Tally κ) (key : κ) :
    (tally.increment key).total = tally.total + 1 := by
  unfold total
  rw [sum_map_increment tally key _ (tally.increment key).nodup,
    if_pos ((mem_keys_increment tally key key).mpr (Or.inl rfl)), increment_eq,
    DefaultDict.keys_set]
  by_cases present : key ∈ tally.keys
  · rw [DefaultDict.keys_touch_of_mem present]
  · have unmet : tally.value key = 0 := tally.absent key present
    rw [DefaultDict.keys_touch_of_notMem present, List.map_append, List.sum_append,
      List.map_singleton, List.sum_singleton, unmet, Nat.add_zero]

theorem value_incrementAll (tally : Tally κ) (keys : List κ) (other : κ) :
    (tally.incrementAll keys).value other =
      tally.value other + keys.countP (fun key => key = other) := by
  induction keys generalizing tally with
  | nil => rfl
  | cons key keys ih =>
      have step : tally.incrementAll (key :: keys) = (tally.increment key).incrementAll keys := rfl
      rw [step, ih, value_increment, List.countP_cons]
      by_cases same : other = key
      · subst key
        simp only [if_true, decide_true]
        omega
      · simp only [same, Ne.symm same, if_false, decide_false, Bool.false_eq_true]
        omega

theorem total_incrementAll (tally : Tally κ) (keys : List κ) :
    (tally.incrementAll keys).total = tally.total + keys.length := by
  induction keys generalizing tally with
  | nil => rfl
  | cons key keys ih =>
      have step : tally.incrementAll (key :: keys) = (tally.increment key).incrementAll keys := rfl
      rw [step, ih, total_increment, List.length_cons]
      omega

theorem mem_keys_incrementAll (tally : Tally κ) (keys : List κ) (other : κ) :
    other ∈ (tally.incrementAll keys).keys ↔ other ∈ keys ∨ other ∈ tally.keys := by
  induction keys generalizing tally with
  | nil =>
      unfold incrementAll
      simp
  | cons key keys ih =>
      have step : tally.incrementAll (key :: keys) = (tally.increment key).incrementAll keys := rfl
      rw [step, ih, mem_keys_increment, List.mem_cons]
      tauto

theorem Counted.incrementAll {tally : Tally κ} (counted : tally.Counted) (keys : List κ) :
    (tally.incrementAll keys).Counted := by
  induction keys generalizing tally with
  | nil => exact counted
  | cons key keys ih => exact ih (counted.increment key)

end Tally

end Library
