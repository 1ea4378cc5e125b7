/-
Recursion along a relation.

A recursion with a bounded depth gets through all that a starting point uses only if nothing
there uses itself again; and if so, a depth of as many levels as there are points is enough.
-/

import Mathlib.Data.Finset.Card
import Mathlib.Data.Finset.Filter
import Mathlib.Logic.Relation

namespace Library

section

variable {α : Type} {uses : α → α → Prop}

/-- Nothing that a starting point reaches uses itself again. -/
def Acyclic (uses : α → α → Prop) (start : α) : Prop :=
  ∀ point, Relation.ReflTransGen uses start point → ¬Relation.TransGen uses point point

theorem Acyclic.next {start next : α} (acyclic : Acyclic uses start) (used : uses start next) :
    Acyclic uses next :=
  fun point reached => acyclic point (Relation.ReflTransGen.head used reached)

section

variable {works : Nat → α → Prop}
  (falls : ∀ limit start next, works (limit + 1) start → uses start next → works limit next)
  (fails : ∀ start, ¬works 0 start)

include falls fails

theorem works_of_transGen {limit : Nat} {start point : α} (does : works limit start)
    (reached : Relation.TransGen uses start point) : ∃ less < limit, works less point := by
  have step : ∀ {limit : Nat} {start next : α}, works limit start → uses start next →
      ∃ less < limit, works less next := by
    intro limit start next does used
    cases limit with
    | zero => exact absurd does (fails start)
    | succ limit => exact ⟨limit, Nat.lt_succ_self limit, falls limit start next does used⟩
  induction reached with
  | single used => exact step does used
  | tail _ used ih =>
      obtain ⟨less, isLess, doesThere⟩ := ih
      obtain ⟨fewer, isFewer, doesNext⟩ := step doesThere used
      exact ⟨fewer, Nat.lt_trans isFewer isLess, doesNext⟩

theorem acyclic_of_works {limit : Nat} {start : α} (does : works limit start) :
    Acyclic uses start := by
  have noCycle : ∀ (limit : Nat) point, works limit point → ¬Relation.TransGen uses point point := by
    intro limit
    induction limit using Nat.strong_induction_on with
    | _ limit ih =>
        intro point doesThere cycle
        obtain ⟨less, isLess, doesAgain⟩ := works_of_transGen falls fails doesThere cycle
        exact ih less isLess point doesAgain cycle
  intro point reached
  rcases Relation.reflTransGen_iff_eq_or_transGen.mp reached with rfl | later
  · exact noCycle limit point does
  · obtain ⟨less, _, doesThere⟩ := works_of_transGen falls fails does later
    exact noCycle less point doesThere

end

open scoped Classical in
noncomputable def reachable (uses : α → α → Prop) (known : Finset α) (start : α) : Finset α :=
  known.filter (fun point => Relation.ReflTransGen uses start point)

theorem mem_reachable {known : Finset α} {start point : α} :
    point ∈ reachable uses known start ↔
      point ∈ known ∧ Relation.ReflTransGen uses start point := by
  classical
  exact Finset.mem_filter

theorem card_reachable_lt {known : Finset α} {start next : α} (isKnown : start ∈ known)
    (acyclic : Acyclic uses start) (used : uses start next) :
    (reachable uses known next).card < (reachable uses known start).card := by
  refine Finset.card_lt_card ⟨?_, ?_⟩
  · intro point member
    obtain ⟨inside, reached⟩ := mem_reachable.mp member
    exact mem_reachable.mpr ⟨inside, Relation.ReflTransGen.head used reached⟩
  · intro all
    have member := all (mem_reachable.mpr ⟨isKnown, Relation.ReflTransGen.refl⟩)
    exact acyclic start Relation.ReflTransGen.refl
      (Relation.TransGen.head' used (mem_reachable.mp member).2)

/-- Without cycles a depth of as many levels as there are points is enough. -/
theorem works_of_acyclic {works : Nat → α → Prop} {known : Finset α}
    (step : ∀ limit start, start ∈ known → (∀ next, uses start next → works limit next) →
      works (limit + 1) start) {limit : Nat} {start : α}
    (inside : ∀ point, Relation.ReflTransGen uses start point → point ∈ known)
    (acyclic : Acyclic uses start) (enough : (reachable uses known start).card ≤ limit) :
    works limit start := by
  have isKnown := inside start Relation.ReflTransGen.refl
  induction limit generalizing start with
  | zero =>
      have member : start ∈ reachable uses known start :=
        mem_reachable.mpr ⟨isKnown, Relation.ReflTransGen.refl⟩
      rw [Finset.card_eq_zero.mp (Nat.le_zero.mp enough)] at member
      exact absurd member (Finset.notMem_empty start)
  | succ limit ih =>
      refine step limit start isKnown ?_
      intro next used
      have insideNext : ∀ point, Relation.ReflTransGen uses next point → point ∈ known :=
        fun point reached => inside point (Relation.ReflTransGen.head used reached)
      have less := card_reachable_lt isKnown acyclic used
      exact ih insideNext (acyclic.next used) (by omega)
        (insideNext next Relation.ReflTransGen.refl)

end

end Library
