/-
Picking an item by a cumulative scan of the weights.

The scan adds up the weights and stops at the first sum above the given number; past the
last sum it takes the last item.  The numbers for which an item is taken form the interval
between the sum before it and the sum behind it, but for the last item without an end.
-/

import Mathlib.Algebra.Order.BigOperators.Group.List
import Mathlib.Algebra.Order.Ring.Defs
import Mathlib.Algebra.Order.Group.Defs
import Mathlib.Data.List.Induction
import Mathlib.Order.Interval.Set.LinearOrder

namespace Library

section Scan

variable {α R : Type} [AddCommMonoid R]

def weightSum (items : List (α × R)) : R := (items.map Prod.snd).sum

theorem weightSum_append (before after : List (α × R)) :
    weightSum (before ++ after) = weightSum before + weightSum after := by
  rw [weightSum, List.map_append, List.sum_append]
  rfl

theorem weightSum_cons (key : α) (weight : R) (items : List (α × R)) :
    weightSum ((key, weight) :: items) = weight + weightSum items := List.sum_cons

variable [LinearOrder R]

/-- The scan with the sum so far and the item that was looked at before. -/
def scanFrom (rand : R) : R → Option α → List (α × R) → Option α
  | _, key, [] => key
  | sum, _, (key, weight) :: items =>
      if rand < sum + weight then some key else scanFrom rand (sum + weight) (some key) items

theorem scanFrom_mem {rand sum : R} {last : Option α} {items : List (α × R)} {key : α}
    (picked : scanFrom rand sum last items = some key) (filled : items ≠ []) :
    key ∈ items.map Prod.fst := by
  induction items generalizing sum last with
  | nil => exact absurd rfl filled
  | cons item items ih =>
      rcases item with ⟨first, weight⟩
      rw [scanFrom] at picked
      split at picked
      · cases picked
        exact List.mem_cons_self
      · cases items with
        | nil =>
            cases picked
            exact List.mem_cons_self
        | cons next rest => exact List.mem_cons_of_mem _ (ih picked (List.cons_ne_nil next rest))

/-- A number below the sum of the first items picks one of them. -/
theorem scanFrom_within {rand sum : R} {before after : List (α × R)} (last : Option α)
    (filled : before ≠ []) (below : rand < sum + weightSum before) :
    ∃ key ∈ before.map Prod.fst, scanFrom rand sum last (before ++ after) = some key := by
  induction before generalizing sum last with
  | nil => exact absurd rfl filled
  | cons first before ih =>
      rcases first with ⟨key, weight⟩
      rw [List.cons_append, scanFrom]
      by_cases here : rand < sum + weight
      · rw [if_pos here]
        exact ⟨key, List.mem_cons_self, rfl⟩
      · rw [if_neg here]
        rw [weightSum_cons, ← add_assoc] at below
        have more : before ≠ [] := by
          rintro rfl
          rw [weightSum, List.map_nil, List.sum_nil, add_zero] at below
          exact here below
        rcases ih (some key) more below with ⟨other, member, picked⟩
        exact ⟨other, List.mem_cons_of_mem _ member, picked⟩

variable [IsOrderedAddMonoid R]

theorem weightSum_nonneg {items : List (α × R)} (positive : ∀ item ∈ items, 0 < item.2) :
    0 ≤ weightSum items := by
  apply List.sum_nonneg
  intro weight member
  rcases List.mem_map.mp member with ⟨item, inItems, rfl⟩
  exact (positive item inItems).le

theorem scanFrom_pass {rand sum : R} {before : List (α × R)} {item : α × R}
    {after : List (α × R)} (last : Option α) (positive : ∀ item ∈ before, 0 < item.2)
    (above : sum + weightSum before ≤ rand) :
    ∃ last', scanFrom rand sum last (before ++ item :: after) =
      scanFrom rand (sum + weightSum before) last' (item :: after) := by
  induction before generalizing sum last with
  | nil =>
      refine ⟨last, ?_⟩
      rw [weightSum, List.map_nil, List.sum_nil, add_zero]
      rfl
  | cons first before ih =>
      rcases first with ⟨key, weight⟩
      rw [weightSum_cons, ← add_assoc] at above
      have later : ∀ item ∈ before, 0 < item.2 :=
        fun item member => positive item (List.mem_cons_of_mem _ member)
      have passed : ¬ rand < sum + weight :=
        not_lt.mpr ((le_add_of_nonneg_right (weightSum_nonneg later)).trans above)
      rcases ih (some key) later above with ⟨last', passes⟩
      refine ⟨last', ?_⟩
      rw [List.cons_append, scanFrom, if_neg passed, passes, weightSum_cons, add_assoc]

theorem scanFrom_eq_iff {rand : R} {before after : List (α × R)} {key : α} {weight : R}
    (nodup : ((before ++ (key, weight) :: after).map Prod.fst).Nodup)
    (positive : ∀ item ∈ before ++ (key, weight) :: after, 0 < item.2) (nonneg : 0 ≤ rand) :
    scanFrom rand 0 none (before ++ (key, weight) :: after) = some key ↔
      weightSum before ≤ rand ∧ (after = [] ∨ rand < weightSum before + weight) := by
  rw [List.map_append, List.map_cons, List.nodup_append] at nodup
  rcases nodup with ⟨_, nodupBehind, disjoint⟩
  have absentBefore : key ∉ before.map Prod.fst :=
    fun member => disjoint key member key List.mem_cons_self rfl
  have absentAfter : key ∉ after.map Prod.fst := (List.nodup_cons.mp nodupBehind).1
  by_cases above : weightSum before ≤ rand
  · have passes : 0 + weightSum before ≤ rand := by rwa [zero_add]
    rcases @scanFrom_pass α R _ _ _ rand 0 before (key, weight) after none
      (fun item member => positive item (List.mem_append_left _ member)) passes with
      ⟨last, passed⟩
    rw [passed, zero_add, scanFrom]
    by_cases here : rand < weightSum before + weight
    · rw [if_pos here]
      exact iff_of_true rfl ⟨above, Or.inr here⟩
    · rw [if_neg here]
      cases after with
      | nil => exact iff_of_true rfl ⟨above, Or.inl rfl⟩
      | cons next rest =>
          refine iff_of_false ?_ ?_
          · intro picked
            exact absentAfter (scanFrom_mem picked (List.cons_ne_nil next rest))
          · rintro ⟨_, impossible | below⟩
            · exact List.cons_ne_nil next rest impossible
            · exact here below
  · refine iff_of_false ?_ (fun both => above both.1)
    intro picked
    have below : rand < 0 + weightSum before := by rwa [zero_add, ← not_le]
    have filled : before ≠ [] := by
      rintro rfl
      rw [weightSum, List.map_nil, List.sum_nil] at above
      exact above nonneg
    rcases @scanFrom_within α R _ _ rand 0 before ((key, weight) :: after) none filled below with
      ⟨other, member, found⟩
    rw [found] at picked
    cases picked
    exact absentBefore member

end Scan

section Intervals

variable {α R : Type} [AddCommGroup R] [LinearOrder R]

/-- In whatever order the items are visited, each is picked for the numbers of an interval
as long as its weight. -/
def Proportional (total : R) (items : List (α × R)) : Prop :=
  ∀ order : List (α × R), order.Perm items → ∀ item ∈ items, ∃ low,
    {rand | 0 ≤ rand ∧ rand < total ∧ scanFrom rand 0 none order = some item.1} =
      Set.Ico low (low + item.2)

variable [IsOrderedAddMonoid R] {items : List (α × R)}

theorem proportional_weightSum (nodup : (items.map Prod.fst).Nodup)
    (positive : ∀ item ∈ items, 0 < item.2) : Proportional (weightSum items) items := by
  intro order perm item member
  rcases item with ⟨key, weight⟩
  rcases List.append_of_mem (perm.mem_iff.mpr member) with ⟨before, after, rfl⟩
  have nodupOrder := ((perm.map Prod.fst).nodup_iff).mpr nodup
  have positiveOrder : ∀ item ∈ before ++ (key, weight) :: after, 0 < item.2 :=
    fun item inOrder => positive item (perm.mem_iff.mp inOrder)
  have sums : weightSum items = weightSum before + (weight + weightSum after) := by
    rw [← weightSum_cons key, ← weightSum_append]
    exact ((perm.map Prod.snd).sum_eq).symm
  have behind : 0 ≤ weightSum after := weightSum_nonneg
    (fun item inAfter => positiveOrder item
      (List.mem_append_right _ (List.mem_cons_of_mem _ inAfter)))
  have ahead : 0 ≤ weightSum before := weightSum_nonneg
    (fun item inBefore => positiveOrder item (List.mem_append_left _ inBefore))
  refine ⟨weightSum before, Set.ext fun rand => ?_⟩
  rw [Set.mem_ofPred_eq, Set.mem_Ico]
  constructor
  · rintro ⟨nonneg, below, picked⟩
    rcases (scanFrom_eq_iff nodupOrder positiveOrder nonneg).mp picked with ⟨above, last | here⟩
    · rw [sums, last, weightSum, weightSum, List.map_nil, List.sum_nil, add_zero] at below
      exact ⟨above, below⟩
    · exact ⟨above, here⟩
  · rintro ⟨above, here⟩
    have nonneg : 0 ≤ rand := ahead.trans above
    have below : rand < weightSum items := by
      rw [sums, ← add_assoc]
      exact here.trans_le (le_add_of_nonneg_right behind)
    exact ⟨nonneg, below, (scanFrom_eq_iff nodupOrder positiveOrder nonneg).mpr
      ⟨above, Or.inr here⟩⟩

/-- The last item has the rest of the numbers, so the total must be the sum. -/
theorem proportional_iff {total : R} (filled : items ≠ []) (nodup : (items.map Prod.fst).Nodup)
    (positive : ∀ item ∈ items, 0 < item.2) :
    Proportional total items ↔ total = weightSum items := by
  constructor
  · intro proportional
    rcases List.eq_nil_or_concat items with empty | ⟨before, ⟨key, weight⟩, rfl⟩
    · exact absurd empty filled
    · rw [List.concat_eq_append] at nodup positive proportional ⊢
      have member : (key, weight) ∈ before ++ [(key, weight)] :=
        List.mem_append_right _ List.mem_cons_self
      have ahead : 0 ≤ weightSum before := weightSum_nonneg
        (fun item inBefore => positive item (List.mem_append_left _ inBefore))
      have numbers : {rand | 0 ≤ rand ∧ rand < total ∧
            scanFrom rand 0 none (before ++ [(key, weight)]) = some key} =
          Set.Ico (weightSum before) total := by
        ext rand
        rw [Set.mem_ofPred_eq, Set.mem_Ico]
        constructor
        · rintro ⟨nonneg, below, picked⟩
          exact ⟨((scanFrom_eq_iff nodup positive nonneg).mp picked).1, below⟩
        · rintro ⟨above, below⟩
          have nonneg : 0 ≤ rand := ahead.trans above
          exact ⟨nonneg, below, (scanFrom_eq_iff nodup positive nonneg).mpr
            ⟨above, Or.inl rfl⟩⟩
      rcases proportional _ (List.Perm.refl _) _ member with ⟨low, isInterval⟩
      rw [numbers] at isInterval
      have long : low < low + weight := lt_add_of_pos_right low (positive _ member)
      rcases (Set.Ico_eq_Ico_iff (Or.inr long)).mp isInterval with ⟨sameLow, sameTotal⟩
      rw [sameTotal, ← sameLow, weightSum_append, weightSum, weightSum, List.map_singleton,
        List.sum_singleton]
  · rintro rfl
    exact proportional_weightSum nodup positive

end Intervals

end Library
