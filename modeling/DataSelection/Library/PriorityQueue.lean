/-
Priority queues kept in a vector whose front is a greatest element.

The interface leaves open which of several greatest elements stands in front,
and how the elements behind it are arranged.  It says that the operations
rearrange the elements by comparing them and in no other way, and that the front
is a greatest element whenever the comparison is a strict weak order.
-/

import Mathlib.Data.List.Basic
import Mathlib.Data.List.Perm.Basic

namespace Library

variable {α : Type}

/-- The comparisons a heap may be ordered by: two elements neither of which is
less than the other are tied, and ties are transitive. -/
structure WeakOrder (less : α → α → Bool) : Prop where
  asymm : ∀ left right, less left right = true → less right left = false
  negTrans : ∀ left middle right,
    less left middle = false → less middle right = false → less left right = false

theorem WeakOrder.irrefl {less : α → α → Bool} (order : WeakOrder less) (item : α) :
    less item item = false := by
  cases compared : less item item with
  | false => rfl
  | true => exact compared.symm.trans (order.asymm item item compared)

/-- A change of the elements that no comparison can see. -/
def KeepsOrder (less : α → α → Bool) (change : α → α) : Prop :=
  ∀ left right, less (change left) (change right) = less left right

structure PriorityQueue (less : α → α → Bool) where
  Heap : List α → Prop
  ofList : List α → List α
  push : α → List α → List α
  pop : List α → List α
  ofList_perm : ∀ items, (ofList items).Perm items
  push_perm : ∀ item queue, (push item queue).Perm (item :: queue)
  pop_perm : ∀ top rest, (pop (top :: rest)).Perm rest
  heap_ofList : WeakOrder less → ∀ items, Heap (ofList items)
  heap_push : WeakOrder less → ∀ item queue, Heap queue → Heap (push item queue)
  heap_pop : WeakOrder less → ∀ top rest, Heap (top :: rest) → Heap (pop (top :: rest))
  top_greatest : WeakOrder less → ∀ top rest, Heap (top :: rest) →
    ∀ item ∈ rest, less top item = false
  ofList_map : ∀ change, KeepsOrder less change → ∀ items,
    ofList (items.map change) = (ofList items).map change
  push_map : ∀ change, KeepsOrder less change → ∀ item queue,
    push (change item) (queue.map change) = (push item queue).map change
  pop_map : ∀ change, KeepsOrder less change → ∀ queue,
    pop (queue.map change) = (pop queue).map change

namespace PriorityQueue

variable {less : α → α → Bool}

theorem length_push (queue : PriorityQueue less) (item : α) (items : List α) :
    (queue.push item items).length = items.length + 1 :=
  (queue.push_perm item items).length_eq

theorem length_pop (queue : PriorityQueue less) (top : α) (rest : List α) :
    (queue.pop (top :: rest)).length = rest.length :=
  (queue.pop_perm top rest).length_eq

theorem length_ofList (queue : PriorityQueue less) (items : List α) :
    (queue.ofList items).length = items.length :=
  (queue.ofList_perm items).length_eq

end PriorityQueue

/-! ### A queue that keeps its elements sorted -/

def insertSorted (less : α → α → Bool) (item : α) : List α → List α
  | [] => [item]
  | head :: rest =>
      if less item head then head :: insertSorted less item rest
      else item :: head :: rest

theorem insertSorted_perm (less : α → α → Bool) (item : α) (items : List α) :
    (insertSorted less item items).Perm (item :: items) := by
  induction items with
  | nil => exact List.Perm.refl _
  | cons head rest ih =>
      rw [insertSorted]
      split
      · exact (ih.cons head).trans (List.Perm.swap item head rest)
      · exact List.Perm.refl _

private theorem insertSorted_pairwise {less : α → α → Bool} (order : WeakOrder less)
    (item : α) (items : List α)
    (sorted : items.Pairwise (fun left right => less left right = false)) :
    (insertSorted less item items).Pairwise (fun left right => less left right = false) := by
  induction items with
  | nil => exact List.pairwise_singleton _ item
  | cons head rest ih =>
      rcases List.pairwise_cons.mp sorted with ⟨headGreatest, restSorted⟩
      rw [insertSorted]
      by_cases below : less item head = true
      · rw [if_pos below]
        apply List.pairwise_cons.mpr
        refine ⟨?_, ih restSorted⟩
        intro other present
        rcases List.mem_cons.mp ((insertSorted_perm less item rest).mem_iff.mp present) with
          same | inRest
        · rw [same]
          exact order.asymm item head below
        · exact headGreatest other inRest
      · rw [if_neg below]
        have notBelow : less item head = false := Bool.eq_false_iff.mpr below
        apply List.pairwise_cons.mpr
        refine ⟨?_, sorted⟩
        intro other present
        rcases List.mem_cons.mp present with same | inRest
        · rw [same]
          exact notBelow
        · exact order.negTrans item head other notBelow (headGreatest other inRest)

private theorem insertSorted_map {less : α → α → Bool} {change : α → α}
    (keeps : KeepsOrder less change) (item : α) (items : List α) :
    insertSorted less (change item) (items.map change) =
      (insertSorted less item items).map change := by
  induction items with
  | nil => rfl
  | cons head rest ih =>
      simp only [List.map_cons, insertSorted, keeps item head, ih]
      split <;> rfl

def sortedQueue (less : α → α → Bool) : PriorityQueue less :=
  { Heap := fun items => items.Pairwise (fun left right => less left right = false)
    ofList := List.foldr (insertSorted less) []
    push := insertSorted less
    pop := List.tail
    ofList_perm := by
      intro items
      induction items with
      | nil => exact List.Perm.refl _
      | cons head rest ih => exact (insertSorted_perm less head _).trans (ih.cons head)
    push_perm := insertSorted_perm less
    pop_perm := fun _top rest => List.Perm.refl rest
    heap_ofList := by
      intro order items
      induction items with
      | nil => exact List.Pairwise.nil
      | cons head rest ih => exact insertSorted_pairwise order head _ ih
    heap_push := fun order item queue sorted => insertSorted_pairwise order item queue sorted
    heap_pop := fun _order _top _rest sorted => (List.pairwise_cons.mp sorted).2
    top_greatest := fun _order _top _rest sorted => (List.pairwise_cons.mp sorted).1
    ofList_map := by
      intro change keeps items
      induction items with
      | nil => rfl
      | cons head rest ih =>
          simp only [List.map_cons, List.foldr_cons, ih]
          exact insertSorted_map keeps head _
    push_map := fun _change keeps item queue => insertSorted_map keeps item queue
    pop_map := fun _change _keeps _queue => List.map_tail.symm }

end Library
