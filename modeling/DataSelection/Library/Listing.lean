/-
Lists that go through a relation once.

A list of values enumerates a relation between witnesses and values if it has one entry for each
witness, with the value of the witness.  Such lists are put together like the relations are.
-/

import Mathlib.Data.List.Forall2
import Mathlib.Data.List.Nodup

namespace Library

/-- One entry for each witness. -/
def Enumerates {α β : Type} (related : α → β → Prop) (values : List β) : Prop :=
  ∃ witnesses : List α, witnesses.Nodup ∧ List.Forall₂ related witnesses values ∧
    ∀ witness value, related witness value → witness ∈ witnesses

section

variable {α β γ δ ε ζ : Type}

theorem exists_of_forall₂ {related : α → β → Prop} {witnesses : List α} {values : List β}
    (areValues : List.Forall₂ related witnesses values) {witness : α} (member : witness ∈ witnesses) :
    ∃ value ∈ values, related witness value := by
  induction areValues with
  | nil => cases member
  | cons isFirst _ ih =>
      rcases List.mem_cons.mp member with rfl | later
      · exact ⟨_, List.mem_cons_self, isFirst⟩
      · obtain ⟨value, inside, isValue⟩ := ih later
        exact ⟨value, List.mem_cons_of_mem _ inside, isValue⟩

theorem Enumerates.congr {related other : α → β → Prop} {values : List β}
    (listed : Enumerates related values) (same : ∀ witness value, related witness value ↔
      other witness value) : Enumerates other values := by
  obtain ⟨witnesses, distinct, areValues, complete⟩ := listed
  exact ⟨witnesses, distinct, areValues.imp (fun witness value => (same witness value).mp),
    fun witness value isOther => complete witness value ((same witness value).mpr isOther)⟩

/-- The values are those of some witness if each witness has one value. -/
theorem Enumerates.mem_iff {related : α → β → Prop} {values : List β}
    (listed : Enumerates related values)
    (functional : ∀ witness value other, related witness value → related witness other →
      value = other) {value : β} : value ∈ values ↔ ∃ witness, related witness value := by
  obtain ⟨witnesses, _, areValues, complete⟩ := listed
  constructor
  · intro member
    obtain ⟨witness, _, isValue⟩ := exists_of_forall₂ areValues.flip member
    exact ⟨witness, isValue⟩
  · intro ⟨witness, isValue⟩
    obtain ⟨other, inside, isOther⟩ := exists_of_forall₂ areValues (complete witness value isValue)
    rw [functional witness value other isValue isOther]
    exact inside

theorem Enumerates.append {related other : α → β → Prop} {values others : List β}
    (listed : Enumerates related values) (listedOther : Enumerates other others)
    (apart : ∀ witness value another, related witness value → ¬other witness another) :
    Enumerates (fun witness value => related witness value ∨ other witness value)
      (values ++ others) := by
  obtain ⟨witnesses, distinct, areValues, complete⟩ := listed
  obtain ⟨more, distinctMore, areOthers, completeMore⟩ := listedOther
  refine ⟨witnesses ++ more, ?_, ?_, ?_⟩
  · refine List.nodup_append.mpr ⟨distinct, distinctMore, ?_⟩
    intro witness isHere same isThere
    rintro rfl
    obtain ⟨value, _, isValue⟩ := exists_of_forall₂ areValues isHere
    obtain ⟨another, _, isAnother⟩ := exists_of_forall₂ areOthers isThere
    exact apart witness value another isValue isAnother
  · exact List.rel_append (areValues.imp fun _ _ => Or.inl) (areOthers.imp fun _ _ => Or.inr)
  · intro witness value either
    rcases either with here | there
    · exact List.mem_append_left _ (complete witness value here)
    · exact List.mem_append_right _ (completeMore witness value there)

theorem Enumerates.map {related : α → β → Prop} {values : List β}
    (listed : Enumerates related values) {rename : α → γ} (injective : Function.Injective rename)
    (change : β → δ) :
    Enumerates (fun witness value => ∃ before old, witness = rename before ∧ value = change old ∧
      related before old) (values.map change) := by
  obtain ⟨witnesses, distinct, areValues, complete⟩ := listed
  refine ⟨witnesses.map rename, distinct.map injective, ?_, ?_⟩
  · rw [List.forall₂_map_left_iff, List.forall₂_map_right_iff]
    exact areValues.imp (fun before old isOld => ⟨before, old, rfl, rfl, isOld⟩)
  · rintro witness value ⟨before, old, rfl, rfl, isOld⟩
    exact List.mem_map_of_mem (complete before old isOld)

theorem forall₂_product {related : α → β → Prop} {witnesses : List α} {values : List β}
    (areValues : List.Forall₂ related witnesses values) {other : γ → δ → Prop} {more : List γ}
    {others : List δ} (areOthers : List.Forall₂ other more others) {pair : α → γ → ε}
    {combine : β → δ → ζ} :
    List.Forall₂ (fun witness value => ∃ first old second new, witness = pair first second ∧
        value = combine old new ∧ related first old ∧ other second new)
      (witnesses.flatMap (fun first => more.map (pair first)))
      (values.flatMap (fun old => others.map (combine old))) := by
  induction areValues with
  | nil => exact List.Forall₂.nil
  | @cons first old witnesses values isOld _ ih =>
      rw [List.flatMap_cons, List.flatMap_cons]
      refine List.rel_append ?_ ih
      rw [List.forall₂_map_left_iff, List.forall₂_map_right_iff]
      exact areOthers.imp
        (fun second new isNew => ⟨first, old, second, new, rfl, rfl, isOld, isNew⟩)

theorem Enumerates.product {related : α → β → Prop} {values : List β} {other : γ → δ → Prop}
    {others : List δ} (listed : Enumerates related values) (listedOther : Enumerates other others)
    {pair : α → γ → ε} (injective : Function.Injective2 pair) (combine : β → δ → ζ) :
    Enumerates (fun witness value => ∃ first old second new, witness = pair first second ∧
        value = combine old new ∧ related first old ∧ other second new)
      (values.flatMap (fun old => others.map (combine old))) := by
  obtain ⟨witnesses, distinct, areValues, complete⟩ := listed
  obtain ⟨more, distinctMore, areOthers, completeMore⟩ := listedOther
  refine ⟨witnesses.flatMap (fun first => more.map (pair first)), ?_, ?_, ?_⟩
  · refine List.nodup_flatMap.mpr ⟨?_, ?_⟩
    · intro first _
      exact distinctMore.map (fun second another same => (injective same).2)
    · refine distinct.imp (fun different => List.disjoint_left.mpr ?_)
      intro both isFirst isSecond
      obtain ⟨_, _, rfl⟩ := List.mem_map.mp isFirst
      obtain ⟨_, _, same⟩ := List.mem_map.mp isSecond
      exact different (injective same).1.symm
  · exact forall₂_product areValues areOthers
  · rintro witness value ⟨first, old, second, new, rfl, rfl, isOld, isNew⟩
    exact List.mem_flatMap.mpr ⟨first, complete first old isOld,
      List.mem_map_of_mem (completeMore second new isNew)⟩

end

end Library
