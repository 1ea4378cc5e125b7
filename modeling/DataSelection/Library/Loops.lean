/-
Loops whose body may fail.

A body that never fails under an invariant of the items it has handled runs to the
end of the list, and the invariant then holds for the whole list.
-/

namespace Library

variable {α σ : Type} {step : σ → α → Option σ} {Invariant : List α → σ → Prop}

private theorem foldlM_from (items done : List α) (state : σ)
    (steps : ∀ done item state, item ∈ items → Invariant done state →
      ∃ next, step state item = some next ∧ Invariant (done ++ [item]) next)
    (start : Invariant done state) :
    ∃ after, items.foldlM step state = some after ∧ Invariant (done ++ items) after := by
  induction items generalizing done state with
  | nil => exact ⟨state, rfl, (List.append_nil done).symm ▸ start⟩
  | cons item rest ih =>
      obtain ⟨next, stepped, holds⟩ := steps done item state List.mem_cons_self start
      obtain ⟨after, ran, final⟩ := ih (done ++ [item]) next
        (fun done other state member => steps done other state (List.mem_cons_of_mem item member))
        holds
      refine ⟨after, ?_, ?_⟩
      · rw [List.foldlM_cons, stepped]
        exact ran
      · rw [List.append_assoc, List.singleton_append] at final
        exact final

theorem foldlM_run (Invariant : List α → σ → Prop) {items : List α} {state : σ}
    (start : Invariant [] state)
    (steps : ∀ done item state, item ∈ items → Invariant done state →
      ∃ next, step state item = some next ∧ Invariant (done ++ [item]) next) :
    ∃ after, items.foldlM step state = some after ∧ Invariant items after :=
  foldlM_from items [] state steps start

private theorem foldlM_followed_from (items done : List α) (state after : σ)
    (steps : ∀ done item state next, item ∈ items → step state item = some next →
      Invariant done state → Invariant (done ++ [item]) next)
    (start : Invariant done state) (ran : items.foldlM step state = some after) :
    Invariant (done ++ items) after := by
  induction items generalizing done state with
  | nil =>
      cases ran
      rw [List.append_nil]
      exact start
  | cons item rest ih =>
      rw [List.foldlM_cons] at ran
      rcases Option.bind_eq_some_iff.mp ran with ⟨next, stepped, others⟩
      have followed := ih (done ++ [item]) next
        (fun done other state next member =>
          steps done other state next (List.mem_cons_of_mem item member))
        (steps done item state next List.mem_cons_self stepped start) others
      rw [List.append_assoc, List.singleton_append] at followed
      exact followed

/-- What every successful turn of the body carries on holds after a successful loop. -/
theorem foldlM_followed (Invariant : List α → σ → Prop) {items : List α} {state after : σ}
    (start : Invariant [] state)
    (steps : ∀ done item state next, item ∈ items → step state item = some next →
      Invariant done state → Invariant (done ++ [item]) next)
    (ran : items.foldlM step state = some after) : Invariant items after :=
  foldlM_followed_from items [] state after steps start ran

/-! ### Loops that collect results -/

section

variable {β : Type} {m : Type → Type} [Monad m] [LawfulMonad m] {body : α → m β}

theorem mapM_congr {other : α → m β} {items : List α}
    (same : ∀ item ∈ items, body item = other item) : items.mapM body = items.mapM other := by
  induction items with
  | nil => rfl
  | cons item items ih =>
      rw [List.mapM_cons, List.mapM_cons, same item List.mem_cons_self,
        ih (fun next member => same next (List.mem_cons_of_mem item member))]

theorem mapM_of_pure {result : α → β} {items : List α}
    (each : ∀ item ∈ items, body item = pure (result item)) :
    items.mapM body = pure (items.map result) :=
  (mapM_congr each).trans List.mapM_pure

end

section

variable {β : Type}

theorem exists_of_mem_mapM {body : α → Option β} {items : List α} {values : List β}
    (collected : items.mapM body = some values) {value : β} (member : value ∈ values) :
    ∃ item ∈ items, body item = some value := by
  induction items generalizing values with
  | nil =>
      cases collected
      cases member
  | cons item items ih =>
      simp only [List.mapM_cons, Option.bind_eq_bind, Option.bind_eq_some_iff, Option.pure_def,
        Option.some.injEq] at collected
      obtain ⟨first, isFirst, later, areLater, rfl⟩ := collected
      rcases List.mem_cons.mp member with rfl | isLater
      · exact ⟨item, List.mem_cons_self, isFirst⟩
      · obtain ⟨other, isOther, found⟩ := ih areLater isLater
        exact ⟨other, List.mem_cons_of_mem item isOther, found⟩

end

/-! ### Loops without failures -/

/-- A loop over all items ends with what one item brings about and all items keep. -/
theorem foldl_established {step : σ → α → σ} (holds : σ → Prop) {items : List α} {item : α}
    (member : item ∈ items) (establishes : ∀ state, holds (step state item))
    (keeps : ∀ other ∈ items, ∀ state, holds state → holds (step state other)) (state : σ) :
    holds (items.foldl step state) := by
  rcases List.append_of_mem member with ⟨before, after, rfl⟩
  rw [List.foldl_append, List.foldl_cons]
  exact List.foldlRecOn after step (establishes _) (fun state isHeld other inAfter =>
    keeps other (List.mem_append_right before (List.mem_cons_of_mem item inAfter)) state isHeld)

end Library
