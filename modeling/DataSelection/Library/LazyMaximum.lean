/-
Finding a greatest element of a queue whose stored priorities may be out of date.

The search refreshes what it takes from the front and puts it back while the front
stands higher.  It ends for any refresh that settles at once; if no stored element
stands below its refreshed form, what it ends with is a greatest element of all.
-/

import DataSelection.Library.PriorityQueue
import Mathlib.Data.List.Count
import Mathlib.Tactic.Common

namespace Library

variable {α : Type} {less : α → α → Bool}

/-- `none` stands for a search that reads the front of an empty queue or that
needs more than `fuel` comparisons. -/
def lazySelect (queue : PriorityQueue less) (refresh : α → α) :
    Nat → α → List α → Option (α × List α)
  | 0, _, _ => none
  | _ + 1, _, [] => none
  | fuel + 1, item, top :: rest =>
      if less item top then
        match queue.push item (top :: rest) with
        | [] => none
        | front :: behind =>
            lazySelect queue refresh fuel (refresh front) (queue.pop (front :: behind))
      else some (item, top :: rest)

/-- The rule of the search: what every exchange keeps holds at the end, where the
selected element does not stand below the front. -/
theorem lazySelect_rule (queue : PriorityQueue less) (refresh : α → α)
    (Invariant : α → List α → Prop)
    (exchange : ∀ item items front behind, Invariant item items →
      queue.push item items = front :: behind →
        Invariant (refresh front) (queue.pop (front :: behind)))
    (fuel : Nat) (item selected : α) (items left : List α) (holds : Invariant item items)
    (found : lazySelect queue refresh fuel item items = some (selected, left)) :
    Invariant selected left ∧
      ∃ top rest, left = top :: rest ∧ less selected top = false := by
  induction fuel generalizing item items with
  | zero => cases found
  | succ fuel ih =>
      cases items with
      | nil => cases found
      | cons top rest =>
          rw [lazySelect] at found
          by_cases below : less item top = true
          · rw [if_pos below] at found
            cases pushed : queue.push item (top :: rest) with
            | nil => rw [pushed] at found; cases found
            | cons front behind =>
                rw [pushed] at found
                exact ih _ _ (exchange item (top :: rest) front behind holds pushed) found
          · rw [if_neg below] at found
            obtain ⟨rfl, rfl⟩ := Prod.mk.inj (Option.some.inj found)
            exact ⟨holds, top, rest, rfl, Bool.eq_false_iff.mpr below⟩

/-- The situation between two comparisons: `item` has just been refreshed, and
refreshing again changes nothing. -/
structure Searching (queue : PriorityQueue less) (refresh : α → α) (item : α)
    (items : List α) : Prop where
  again : ∀ other, refresh (refresh other) = refresh other
  fresh : refresh item = item
  heap : queue.Heap items

theorem Searching.next {queue : PriorityQueue less} (order : WeakOrder less)
    {refresh : α → α} {item front : α} {items behind : List α}
    (searching : Searching queue refresh item items)
    (pushed : queue.push item items = front :: behind) :
    Searching queue refresh (refresh front) (queue.pop (front :: behind)) := by
  have heap : queue.Heap (front :: behind) := by
    rw [← pushed]
    exact queue.heap_push order item items searching.heap
  exact ⟨searching.again, searching.again front, queue.heap_pop order front behind heap⟩

theorem lazySelect_searching (queue : PriorityQueue less) (order : WeakOrder less)
    (refresh : α → α) (fuel : Nat) (item selected : α) (items left : List α)
    (searching : Searching queue refresh item items)
    (found : lazySelect queue refresh fuel item items = some (selected, left)) :
    Searching queue refresh selected left :=
  (lazySelect_rule queue refresh (Searching queue refresh)
    (fun _item _items _front _behind => Searching.next order)
    fuel item selected items left searching found).1

/-- No stored element stands below its refreshed form. -/
def Overestimates (less : α → α → Bool) (refresh : α → α) (items : List α) : Prop :=
  ∀ item ∈ items, less item (refresh item) = false

theorem Searching.next_overestimates {queue : PriorityQueue less} (order : WeakOrder less)
    {refresh : α → α} {item front : α} {items behind : List α}
    (searching : Searching queue refresh item items)
    (bounds : Overestimates less refresh items)
    (pushed : queue.push item items = front :: behind) :
    Overestimates less refresh (queue.pop (front :: behind)) := by
  intro other present
  have inBehind := (queue.pop_perm front behind).mem_iff.mp present
  have rearranged : (front :: behind).Perm (item :: items) := by
    rw [← pushed]
    exact queue.push_perm item items
  rcases List.mem_cons.mp (rearranged.mem_iff.mp (List.mem_cons_of_mem front inBehind)) with
    same | inItems
  · rw [same, searching.fresh]
    exact order.irrefl item
  · exact bounds other inItems

/-- The selected element stands below no refreshed element that is left. -/
theorem lazySelect_greatest (queue : PriorityQueue less) (order : WeakOrder less)
    (refresh : α → α) (fuel : Nat) (item selected : α) (items left : List α)
    (searching : Searching queue refresh item items)
    (bounds : Overestimates less refresh items)
    (found : lazySelect queue refresh fuel item items = some (selected, left)) :
    Overestimates less refresh left ∧
      ∀ other ∈ left, less selected (refresh other) = false := by
  obtain ⟨⟨ended, endBounds⟩, top, rest, same, aboveTop⟩ := lazySelect_rule queue refresh
    (fun item items => Searching queue refresh item items ∧ Overestimates less refresh items)
    (fun _item _items _front _behind both pushed =>
      ⟨both.1.next order pushed, both.1.next_overestimates order both.2 pushed⟩)
    fuel item selected items left ⟨searching, bounds⟩ found
  refine ⟨endBounds, ?_⟩
  intro other present
  have heap := ended.heap
  have aboveStored : less selected other = false := by
    rw [same] at present heap
    rcases List.mem_cons.mp present with isTop | inRest
    · rw [isTop]
      exact aboveTop
    · exact order.negTrans selected top other aboveTop
        (queue.top_greatest order top rest heap other inRest)
  exact order.negTrans selected other (refresh other) aboveStored (endBounds other present)

/-- Nothing is lost or duplicated: what refreshing does not change is permuted. -/
theorem lazySelect_perm {β : Type} (queue : PriorityQueue less) (refresh : α → α)
    (view : α → β) (unseen : ∀ item, view (refresh item) = view item)
    (fuel : Nat) (item selected : α) (items left : List α)
    (found : lazySelect queue refresh fuel item items = some (selected, left)) :
    ((selected :: left).map view).Perm ((item :: items).map view) := by
  refine (lazySelect_rule queue refresh
    (fun other others => ((other :: others).map view).Perm ((item :: items).map view))
    ?_ fuel item selected items left (List.Perm.refl _) found).1
  intro other others front behind permuted pushed
  have rearranged : (front :: behind).Perm (other :: others) := by
    rw [← pushed]
    exact queue.push_perm other others
  have refreshed : ((refresh front :: queue.pop (front :: behind)).map view).Perm
      ((front :: behind).map view) := by
    rw [List.map_cons, List.map_cons, unseen]
    exact ((queue.pop_perm front behind).map view).cons _
  exact (refreshed.trans (rearranged.map view)).trans permuted

/-! ### The search ends -/

private theorem lazySelect_stops (queue : PriorityQueue less) (refresh : α → α) (fuel : Nat)
    (item : α) (items : List α) (nonempty : items ≠ [])
    (greatest : ∀ other ∈ items, less item other = false) :
    lazySelect queue refresh (fuel + 1) item items = some (item, items) := by
  cases items with
  | nil => contradiction
  | cons top rest =>
      rw [lazySelect, greatest top List.mem_cons_self]
      rfl

section Ending

open scoped Classical in
noncomputable def staleCount (refresh : α → α) (items : List α) : Nat :=
  items.countP (fun item => refresh item ≠ item)

theorem staleCount_le_length (refresh : α → α) (items : List α) :
    staleCount refresh items ≤ items.length := List.countP_le_length

private theorem staleCount_of_perm {refresh : α → α} {items others : List α}
    (same : items.Perm others) : staleCount refresh items = staleCount refresh others :=
  same.countP_eq _

private theorem staleCount_cons_fresh {refresh : α → α} {item : α}
    (fresh : refresh item = item) (items : List α) :
    staleCount refresh (item :: items) = staleCount refresh items := by
  unfold staleCount
  rw [List.countP_cons_of_neg]
  simp [fresh]

private theorem staleCount_cons_stale {refresh : α → α} {item : α}
    (stale : refresh item ≠ item) (items : List α) :
    staleCount refresh (item :: items) = staleCount refresh items + 1 := by
  unfold staleCount
  rw [List.countP_cons_of_pos]
  simp [stale]

theorem greatest_of_push (queue : PriorityQueue less) (order : WeakOrder less) {item front : α}
    {items behind : List α} (heap : queue.Heap items)
    (pushed : queue.push item items = front :: behind) :
    ∀ other ∈ queue.pop (front :: behind), less front other = false := by
  have pushedHeap : queue.Heap (front :: behind) := by
    rw [← pushed]
    exact queue.heap_push order item items heap
  intro other present
  exact queue.top_greatest order front behind pushedHeap other
    ((queue.pop_perm front behind).mem_iff.mp present)

/-- One comparison for each stale element and two more are enough: a front that
is already fresh is a greatest element, so the next comparison ends the search. -/
theorem lazySelect_ends (queue : PriorityQueue less) (order : WeakOrder less)
    (refresh : α → α) (fuel : Nat) (item : α) (items : List α) (nonempty : items ≠ [])
    (searching : Searching queue refresh item items)
    (enough : staleCount refresh items + 2 ≤ fuel) :
    ∃ selected left, lazySelect queue refresh fuel item items = some (selected, left) := by
  induction fuel generalizing item items with
  | zero => omega
  | succ fuel ih =>
      cases items with
      | nil => contradiction
      | cons top rest =>
          rw [lazySelect]
          by_cases below : less item top = true
          · rw [if_pos below]
            have pushedLength := queue.length_push item (top :: rest)
            cases pushed : queue.push item (top :: rest) with
            | nil =>
                rw [pushed] at pushedLength
                cases pushedLength
            | cons front behind =>
                have rearranged : (front :: behind).Perm (item :: top :: rest) := by
                  rw [← pushed]
                  exact queue.push_perm item (top :: rest)
                have behindLength : behind.length = (top :: rest).length :=
                  Nat.succ.inj rearranged.length_eq
                have stillStale : staleCount refresh (front :: behind) =
                    staleCount refresh (top :: rest) := by
                  rw [staleCount_of_perm rearranged, staleCount_cons_fresh searching.fresh]
                have popped := queue.pop_perm front behind
                have restNonempty : queue.pop (front :: behind) ≠ [] := by
                  apply List.ne_nil_of_length_pos
                  rw [popped.length_eq, behindLength]
                  exact Nat.succ_pos _
                by_cases frontFresh : refresh front = front
                · -- a fresh front meets only elements that stand no higher
                  dsimp only
                  rw [frontFresh]
                  cases fuel with
                  | zero => omega
                  | succ fuel =>
                      refine ⟨front, queue.pop (front :: behind), ?_⟩
                      exact lazySelect_stops queue refresh fuel front _ restNonempty
                        (greatest_of_push queue order searching.heap pushed)
                · apply ih _ _ restNonempty (searching.next order pushed)
                  rw [staleCount_of_perm popped]
                  rw [staleCount_cons_stale frontFresh] at stillStale
                  omega
          · exact ⟨item, top :: rest, if_neg below⟩

end Ending

def lazyVisits (queue : PriorityQueue less) (refresh : α → α) : Nat → α → List α → List α
  | 0, _, _ => []
  | _ + 1, _, [] => []
  | fuel + 1, item, top :: rest =>
      if less item top then
        match queue.push item (top :: rest) with
        | [] => []
        | front :: behind =>
            front :: lazyVisits queue refresh fuel (refresh front) (queue.pop (front :: behind))
      else []

private theorem lazyVisits_stops (queue : PriorityQueue less) (refresh : α → α) (fuel : Nat)
    (item : α) (items : List α) (greatest : ∀ other ∈ items, less item other = false) :
    lazyVisits queue refresh fuel item items = [] := by
  cases fuel with
  | zero => rfl
  | succ fuel =>
      cases items with
      | nil => rfl
      | cons top rest =>
          rw [lazyVisits, greatest top List.mem_cons_self]
          rfl

private theorem stale_subperm {refresh : α → α} {item : α} {firsts items : List α}
    (fresh : refresh item = item) (within : firsts.Subperm (item :: items))
    (stale : ∀ first ∈ firsts, refresh first ≠ first) : firsts.Subperm items := by
  classical
  have kept := within.filter (fun other => decide (refresh other ≠ other))
  rw [List.filter_eq_self.mpr (fun first member => decide_eq_true (stale first member)),
    List.filter_cons_of_neg (by simp [fresh])] at kept
  exact kept.trans List.filter_sublist.subperm

/-- Every element is refreshed at most once while it is stale, and at most one
refresh more ends the search. -/
theorem lazyVisits_once (queue : PriorityQueue less) (order : WeakOrder less)
    (refresh : α → α) (fuel : Nat) (item : α) (items : List α)
    (searching : Searching queue refresh item items) :
    ∃ firsts again, lazyVisits queue refresh fuel item items = firsts ++ again ∧
      again.length ≤ 1 ∧ firsts.Subperm items ∧ ∀ first ∈ firsts, refresh first ≠ first := by
  induction fuel generalizing item items with
  | zero => exact ⟨[], [], rfl, Nat.zero_le 1, List.nil_subperm, by simp⟩
  | succ fuel ih =>
      cases items with
      | nil => exact ⟨[], [], rfl, Nat.zero_le 1, List.nil_subperm, by simp⟩
      | cons top rest =>
          rw [lazyVisits]
          by_cases below : less item top = true
          · rw [if_pos below]
            cases pushed : queue.push item (top :: rest) with
            | nil => exact ⟨[], [], rfl, Nat.zero_le 1, List.nil_subperm, by simp⟩
            | cons front behind =>
                have rearranged : (front :: behind).Perm (item :: top :: rest) := by
                  rw [← pushed]
                  exact queue.push_perm item (top :: rest)
                have popped := queue.pop_perm front behind
                have next := searching.next order pushed
                by_cases frontFresh : refresh front = front
                · refine ⟨[], [front], ?_, Nat.le_refl 1, List.nil_subperm, by simp⟩
                  dsimp only
                  rw [frontFresh, List.nil_append, lazyVisits_stops queue refresh fuel front _
                    (greatest_of_push queue order searching.heap pushed)]
                · obtain ⟨firsts, again, visits, atMost, inside, stale⟩ := ih _ _ next
                  have allStale : ∀ first ∈ front :: firsts, refresh first ≠ first := by
                    intro first member
                    rcases List.mem_cons.mp member with rfl | inFirsts
                    · exact frontFresh
                    · exact stale first inFirsts
                  have within : (front :: firsts).Subperm (item :: top :: rest) :=
                    ((List.subperm_cons front).mpr
                      (inside.trans popped.subperm)).trans rearranged.subperm
                  -- the item at hand is fresh, so it is not among the stale ones
                  refine ⟨front :: firsts, again, ?_, atMost,
                    stale_subperm searching.fresh within allStale, allStale⟩
                  dsimp only
                  rw [visits, List.cons_append]
          · rw [if_neg below]
            exact ⟨[], [], rfl, Nat.zero_le 1, List.nil_subperm, by simp⟩

/-- A change that no comparison can see runs along with the search, as long as it
commutes with refreshing on the elements that take part. -/
theorem lazySelect_map (queue : PriorityQueue less) {refresh refresh' change : α → α}
    (keeps : KeepsOrder less change) (Within : α → Prop)
    (closed : ∀ item, Within item → Within (refresh item))
    (commutes : ∀ item, Within item → refresh' (change item) = change (refresh item))
    (fuel : Nat) (item : α) (items : List α) (itemWithin : Within item)
    (itemsWithin : ∀ other ∈ items, Within other) :
    lazySelect queue refresh' fuel (change item) (items.map change) =
      (lazySelect queue refresh fuel item items).map
        (fun found => (change found.1, found.2.map change)) := by
  induction fuel generalizing item items with
  | zero => rfl
  | succ fuel ih =>
      cases items with
      | nil => rfl
      | cons top rest =>
          rw [List.map_cons, lazySelect, lazySelect, keeps item top, ← List.map_cons,
            queue.push_map change keeps]
          by_cases below : less item top = true
          · rw [if_pos below, if_pos below]
            cases pushed : queue.push item (top :: rest) with
            | nil => rfl
            | cons front behind =>
                have inside : ∀ other ∈ front :: behind, Within other := by
                  intro other present
                  rw [← pushed, (queue.push_perm item (top :: rest)).mem_iff] at present
                  rcases List.mem_cons.mp present with rfl | inItems
                  · exact itemWithin
                  · exact itemsWithin other inItems
                have frontWithin := inside front List.mem_cons_self
                rw [List.map_cons]
                dsimp only
                rw [commutes front frontWithin, ← List.map_cons, queue.pop_map change keeps]
                apply ih _ _ (closed front frontWithin)
                intro other present
                exact inside other (List.mem_cons_of_mem front
                  ((queue.pop_perm front behind).mem_iff.mp present))
          · rw [if_neg below, if_neg below]
            rfl

end Library
