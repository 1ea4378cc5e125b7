/-
Drawing the search queries at random by their weights.

Each query is taken out of the dictionary once it is drawn.  The total weight is added up
once, before the first query.
-/

import DataSelection.Library.CumulativeScan
import DataSelection.Library.DefaultDict
import Mathlib.Algebra.Order.Group.Int
import Mathlib.Data.Rat.Defs
import Mathlib.Algebra.Order.Ring.Rat

namespace Mining

open Library

section Items

variable {Trigram R : Type} [Inhabited R]

def items (dictionary : DefaultDict Trigram R) : List (Trigram × R) :=
  dictionary.keys.map (fun key => (key, dictionary.value key))

theorem items_keys (dictionary : DefaultDict Trigram R) :
    (items dictionary).map Prod.fst = dictionary.keys := by
  rw [items, List.map_map]
  exact List.map_id _

variable [AddCommGroup R]

def total_weight (dictionary : DefaultDict Trigram R) : R :=
  (dictionary.keys.map dictionary.value).sum

theorem weightSum_items (dictionary : DefaultDict Trigram R) :
    weightSum (items dictionary) = total_weight dictionary := by
  rw [weightSum, items, List.map_map]
  rfl

theorem total_weight_pop [DecidableEq Trigram] {dictionary : DefaultDict Trigram R} {entry : Trigram}
    (present : entry ∈ dictionary.keys) :
    dictionary.value entry + total_weight (dictionary.pop entry) = total_weight dictionary := by
  have same : ((dictionary.pop entry).keys.map (dictionary.pop entry).value) =
      (dictionary.keys.erase entry).map dictionary.value :=
    List.map_congr_left (fun key member => DefaultDict.value_pop_of_mem member)
  rw [total_weight, same, total_weight]
  exact List.sum_map_erase dictionary.value present

variable [LinearOrder R]

/-- A draw for one order of the items; without any item there is no key to return. -/
def weightedRandom (shuffled : List (Trigram × R)) (rand : R) : Option Trigram :=
  scanFrom rand 0 none shuffled

def PositiveWeights (dictionary : DefaultDict Trigram R) : Prop :=
  ∀ key ∈ dictionary.keys, 0 < dictionary.value key

theorem PositiveWeights.items {dictionary : DefaultDict Trigram R}
    (positive : PositiveWeights dictionary) : ∀ item ∈ items dictionary, 0 < item.2 := by
  intro item member
  rcases List.mem_map.mp member with ⟨key, present, rfl⟩
  exact positive key present

theorem PositiveWeights.pop [DecidableEq Trigram] {dictionary : DefaultDict Trigram R}
    (positive : PositiveWeights dictionary) (entry : Trigram) :
    PositiveWeights (dictionary.pop entry) := by
  intro key present
  rw [DefaultDict.value_pop_of_mem present]
  exact positive key (DefaultDict.mem_keys_pop.mp present).2

/-- Whatever the order of the items is, each key is returned for an interval of numbers as
long as its weight. -/
def DrawsByWeight (start dictionary : DefaultDict Trigram R) : Prop :=
  ∀ shuffled : List (Trigram × R), shuffled.Perm (items dictionary) →
    ∀ key ∈ dictionary.keys, ∃ low,
      {rand | 0 ≤ rand ∧ rand < total_weight start ∧ weightedRandom shuffled rand = some key} =
        Set.Ico low (low + dictionary.value key)

theorem drawsByWeight_iff_proportional (start dictionary : DefaultDict Trigram R) :
    DrawsByWeight start dictionary ↔ Proportional (total_weight start) (items dictionary) := by
  constructor
  · intro byWeight shuffled perm item member
    rcases List.mem_map.mp member with ⟨key, present, rfl⟩
    exact byWeight shuffled perm key present
  · intro proportional shuffled perm key present
    exact proportional shuffled perm (key, dictionary.value key)
      (List.mem_map.mpr ⟨key, present, rfl⟩)

end Items

section Turns

variable {Trigram R : Type} [Inhabited R] [AddCommGroup R] [LinearOrder R] [DecidableEq Trigram]

def performQuery (dictionary : DefaultDict Trigram R) (shuffled : List (Trigram × R)) (rand : R) :
    Option (Trigram × DefaultDict Trigram R) := do
  let entry ← weightedRandom shuffled rand
  some (entry, dictionary.pop entry)

theorem performQuery_cases {dictionary remaining : DefaultDict Trigram R}
    {shuffled : List (Trigram × R)} {rand : R} {entry : Trigram}
    (perm : shuffled.Perm (items dictionary))
    (drawn : performQuery dictionary shuffled rand = some (entry, remaining)) :
    entry ∈ dictionary.keys ∧ remaining = dictionary.pop entry := by
  unfold performQuery at drawn
  cases picked : weightedRandom shuffled rand with
  | none => simp [picked] at drawn
  | some key =>
      have taken : key = entry ∧ dictionary.pop key = remaining := by simpa [picked] using drawn
      rcases taken with ⟨rfl, rfl⟩
      have filled : shuffled ≠ [] := by
        rintro rfl
        cases picked
      have member := scanFrom_mem picked filled
      rw [(perm.map Prod.fst).mem_iff, items_keys] at member
      exact ⟨member, rfl⟩

/-- The dictionary at the draw of query `i`, in some run of the loop over the queries. -/
inductive AtDraw (start : DefaultDict Trigram R) (queries : Nat) :
    Nat → DefaultDict Trigram R → Prop
  | first (some : 0 < queries) : AtDraw start queries 0 start
  | next {i : Nat} {dictionary remaining : DefaultDict Trigram R}
      {shuffled : List (Trigram × R)} {rand : R} {entry : Trigram}
      (before : AtDraw start queries i dictionary) (perm : shuffled.Perm (items dictionary))
      (nonneg : 0 ≤ rand) (below : rand ≤ total_weight start)
      (drawn : performQuery dictionary shuffled rand = some (entry, remaining))
      (filled : remaining.keys ≠ []) (more : i + 1 < queries) :
      AtDraw start queries (i + 1) remaining

end Turns

section Runs

variable {Trigram R : Type} [Inhabited R] [AddCommGroup R] [LinearOrder R] [DecidableEq Trigram]
variable [IsOrderedAddMonoid R] {start dictionary : DefaultDict Trigram R} {queries i : Nat}

/-- What a run keeps: the keys are taken out one at a time, and their weights are missing. -/
structure Remaining (start : DefaultDict Trigram R) (i : Nat)
    (dictionary : DefaultDict Trigram R) : Prop where
  positive : PositiveWeights dictionary
  length : dictionary.keys.length + i = start.keys.length
  filled : i = 0 ∨ dictionary.keys ≠ []
  same : i = 0 → dictionary = start
  lighter : 0 < i → total_weight dictionary < total_weight start

theorem Remaining.next (remaining : Remaining start i dictionary) {entry : Trigram}
    (present : entry ∈ dictionary.keys) (filled : (dictionary.pop entry).keys ≠ []) :
    Remaining start (i + 1) (dictionary.pop entry) := by
  have weight := remaining.positive entry present
  have shorter : total_weight (dictionary.pop entry) < total_weight dictionary := by
    rw [← total_weight_pop present]
    exact lt_add_of_pos_left _ weight
  constructor
  · exact remaining.positive.pop entry
  · have counted := remaining.length
    have erased := List.length_erase_of_mem present
    have some := List.length_pos_of_mem present
    rw [DefaultDict.keys_pop]
    omega
  · exact Or.inr filled
  · intro impossible
    exact absurd impossible (Nat.succ_ne_zero i)
  · intro _
    rcases Nat.eq_zero_or_pos i with none | before
    · rw [remaining.same none] at shorter ⊢
      exact shorter
    · exact shorter.trans (remaining.lighter before)

theorem AtDraw.remaining (positive : PositiveWeights start)
    (atDraw : AtDraw start queries i dictionary) : Remaining start i dictionary := by
  induction atDraw with
  | first some =>
      exact ⟨positive, rfl, Or.inl rfl, fun _ => rfl,
        fun impossible => absurd impossible (Nat.lt_irrefl 0)⟩
  | next before perm nonneg below drawn filled more ih =>
      rcases performQuery_cases perm drawn with ⟨present, rfl⟩
      exact ih.next present filled

theorem AtDraw.drawsByWeight_iff (positive : PositiveWeights start)
    (atDraw : AtDraw start queries i dictionary) : DrawsByWeight start dictionary ↔ i = 0 := by
  have remaining := atDraw.remaining positive
  have nodup : ((items dictionary).map Prod.fst).Nodup := by
    rw [items_keys]
    exact dictionary.nodup
  rw [drawsByWeight_iff_proportional]
  constructor
  · intro byWeight
    by_contra later
    have nonempty : items dictionary ≠ [] := by
      intro empty
      exact (remaining.filled.resolve_left later) (List.map_eq_nil_iff.mp empty)
    have total := (proportional_iff nonempty nodup remaining.positive.items).mp byWeight
    rw [weightSum_items] at total
    exact absurd total (remaining.lighter (Nat.pos_of_ne_zero later)).ne'
  · intro isFirst
    rw [← remaining.same isFirst]
    have byWeight := proportional_weightSum nodup remaining.positive.items
    rw [weightSum_items] at byWeight
    exact byWeight

theorem AtDraw.second (positive : PositiveWeights start) {entry second : Trigram}
    {rest : List Trigram} (keys : start.keys = entry :: second :: rest) (many : 1 < queries) :
    AtDraw start queries 1 (start.pop entry) := by
  have present : entry ∈ start.keys := by
    rw [keys]
    exact List.mem_cons_self
  have hit : (0 : R) < 0 + start.value entry := by
    rw [zero_add]
    exact positive entry present
  have picked : weightedRandom (items start) 0 = some entry := by
    rw [weightedRandom, items, keys, List.map_cons, scanFrom, if_pos hit]
  have drawn : performQuery start (items start) 0 = some (entry, start.pop entry) := by
    rw [performQuery, picked]
    rfl
  have filled : (start.pop entry).keys ≠ [] := by
    rw [DefaultDict.keys_pop, keys, List.erase_cons_head]
    exact List.cons_ne_nil second rest
  have nonneg : 0 ≤ total_weight start := by
    rw [← weightSum_items]
    exact weightSum_nonneg positive.items
  exact .next (.first (Nat.lt_of_succ_lt many)) (List.Perm.refl _) (le_refl 0) nonneg drawn
    filled many

/-- Every draw of every run is by weight exactly when no run has a second draw. -/
theorem queryDraws_byWeight_iff (start : DefaultDict Trigram R) (queries : Nat)
    (positive : PositiveWeights start) :
    (∀ i dictionary, AtDraw start queries i dictionary → DrawsByWeight start dictionary) ↔
      queries ≤ 1 ∨ start.keys.length ≤ 1 := by
  constructor
  · intro always
    by_contra many
    push Not at many
    rcases many with ⟨moreQueries, moreKeys⟩
    obtain ⟨entry, second, rest, keys⟩ : ∃ entry second rest,
        start.keys = entry :: second :: rest := by
      match start.keys, moreKeys with
      | entry :: second :: rest, _ => exact ⟨entry, second, rest, rfl⟩
    have secondDraw := AtDraw.second positive keys moreQueries
    have isFirst := (secondDraw.drawsByWeight_iff positive).mp (always 1 _ secondDraw)
    exact absurd isFirst Nat.one_ne_zero
  · intro few i dictionary atDraw
    rw [atDraw.drawsByWeight_iff positive]
    have remaining := atDraw.remaining positive
    by_contra later
    rcases few with fewQueries | fewKeys
    · cases atDraw with
      | first some => exact later rfl
      | next before perm nonneg below drawn filled more => omega
    · have keys := List.length_pos_of_ne_nil (remaining.filled.resolve_left later)
      have counted := remaining.length
      omega

end Runs

def twoTrigrams : DefaultDict (List Char) ℚ :=
  (DefaultDict.empty.set ['a'] 1).set ['b'] 2

theorem positive_twoTrigrams : PositiveWeights twoTrigrams := by
  unfold PositiveWeights
  decide +kernel

theorem queryDraws_byWeight_iff_twoTrigrams :
    PositiveWeights twoTrigrams ∧
      ((∀ i dictionary, AtDraw twoTrigrams 1 i dictionary → DrawsByWeight twoTrigrams dictionary) ↔
        1 ≤ 1 ∨ twoTrigrams.keys.length ≤ 1) :=
  ⟨positive_twoTrigrams, queryDraws_byWeight_iff twoTrigrams 1 positive_twoTrigrams⟩

/-- After the first query the second trigram is drawn for every number below three. -/
theorem secondDraw_notByWeight :
    ¬ ∀ i dictionary, AtDraw twoTrigrams 2 i dictionary → DrawsByWeight twoTrigrams dictionary := by
  intro always
  have keys : twoTrigrams.keys = [['a'], ['b']] := by decide
  have secondDraw := AtDraw.second positive_twoTrigrams keys (Nat.lt_succ_self 1)
  have isFirst := (secondDraw.drawsByWeight_iff positive_twoTrigrams).mp (always 1 _ secondDraw)
  exact absurd isFirst Nat.one_ne_zero

end Mining
