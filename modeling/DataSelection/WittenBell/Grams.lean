/-
The lists of n-grams and the loops that fill in one field of each.

An n-gram in such a list is its words joined by blanks, and splitting it gives the
words back.  A loop that sets a field for every n-gram of a list changes nothing else.
-/

import DataSelection.Library.Loops
import DataSelection.WittenBell.Dictionary

namespace WittenBell

open Library Dictionary

/-- All words that the dictionary holds come from `split`. -/
def Clean (dictionary : Dictionary) : Prop :=
  ∀ entry, dictionary.Seen entry → ∀ word ∈ entry, CleanWord word

theorem Clean.of_same {before after : Dictionary} (clean : Clean before)
    (seen : ∀ entry, after.Seen entry ↔ before.Seen entry) : Clean after :=
  fun entry isSeen => clean entry ((seen entry).mp isSeen)

/-! ### The lists of n-grams -/

theorem mem_sorted {text : List Char} {grams : List (List Char)} :
    text ∈ sorted grams ↔ text ∈ grams := (List.mergeSort_perm grams _).mem_iff

private theorem bigrams_key {dictionary : Dictionary} {w1 w2 : Word}
    (seen : dictionary.Seen [w1, w2]) : w1 ∈ dictionary.bigrams.keys := by
  apply DefaultDict.mem_keys_of_ne_default
  intro isDefault
  have inEmpty : w2 ∈ (default : DefaultDict Word Gram).keys := isDefault ▸ seen
  exact List.not_mem_nil inEmpty

private theorem trigrams_keys {dictionary : Dictionary} {w1 w2 w3 : Word}
    (seen : dictionary.Seen [w1, w2, w3]) :
    w1 ∈ dictionary.trigrams.keys ∧ w2 ∈ (dictionary.trigrams.value w1).keys := by
  constructor
  · apply DefaultDict.mem_keys_of_ne_default
    intro isDefault
    have inEmpty : w3 ∈ ((default : DefaultDict Word (DefaultDict Word Gram)).value w2).keys :=
      isDefault ▸ seen
    exact List.not_mem_nil inEmpty
  · apply DefaultDict.mem_keys_of_ne_default
    intro isDefault
    have inEmpty : w3 ∈ (default : DefaultDict Word Gram).keys := isDefault ▸ seen
    exact List.not_mem_nil inEmpty

theorem mem_getGrams {dictionary : Dictionary} {n : Nat} (isWidth : 0 < n ∧ n ≤ 3)
    {text : List Char} :
    text ∈ getGrams n dictionary ↔
      ∃ entry, dictionary.Seen entry ∧ entry.length = n ∧ join entry = text := by
  unfold getGrams
  rw [mem_sorted]
  match n with
  | 0 => exact absurd isWidth.1 (Nat.lt_irrefl 0)
  | 1 =>
      constructor
      · intro member
        exact ⟨[text], member, rfl, join_singleton text⟩
      · rintro ⟨entry, seen, one, rfl⟩
        rcases List.length_eq_one_iff.mp one with ⟨word, rfl⟩
        rw [join_singleton]
        exact seen
  | 2 =>
      simp only [List.mem_flatMap, List.mem_map]
      constructor
      · rintro ⟨w1, _isKey, w2, isNext, rfl⟩
        exact ⟨[w1, w2], isNext, rfl, rfl⟩
      · rintro ⟨entry, seen, two, rfl⟩
        rcases List.length_eq_two.mp two with ⟨w1, w2, rfl⟩
        exact ⟨w1, bigrams_key seen, w2, seen, rfl⟩
  | 3 =>
      simp only [List.mem_flatMap, List.mem_map]
      constructor
      · rintro ⟨w1, _isKey, w2, _isNext, w3, isLast, rfl⟩
        exact ⟨[w1, w2, w3], isLast, rfl, rfl⟩
      · rintro ⟨entry, seen, three, rfl⟩
        rcases List.length_eq_three.mp three with ⟨w1, w2, w3, rfl⟩
        exact ⟨w1, (trigrams_keys seen).1, w2, (trigrams_keys seen).2, w3, seen, rfl⟩
  | _ + 4 => exact absurd isWidth.2 (by omega)

theorem getGrams_eq {dictionary : Dictionary} (clean : Clean dictionary) {n : Nat}
    (isWidth : 0 < n ∧ n ≤ 3) :
    ∃ entries : List (List Word), getGrams n dictionary = entries.map join ∧
      ∀ entry, entry ∈ entries ↔ dictionary.Seen entry ∧ entry.length = n := by
  have joined : ∀ text ∈ getGrams n dictionary, join (split text) = text := by
    intro text member
    rcases (mem_getGrams isWidth).mp member with ⟨entry, seen, _width, rfl⟩
    rw [split_join (clean entry seen)]
  refine ⟨(getGrams n dictionary).map split, ?_, ?_⟩
  · rw [List.map_map]
    exact (List.map_congr_left joined).symm ▸ (List.map_id _).symm
  · intro entry
    rw [List.mem_map]
    constructor
    · rintro ⟨text, member, rfl⟩
      rcases (mem_getGrams isWidth).mp member with ⟨entry, seen, width, rfl⟩
      rw [split_join (clean entry seen)]
      exact ⟨seen, width⟩
    · rintro ⟨seen, width⟩
      exact ⟨join entry, (mem_getGrams isWidth).mpr ⟨entry, seen, width, rfl⟩,
        split_join (clean entry seen)⟩

/-! ### Loops that set one field -/

/-- One field is set to the given value in every entry of the list. -/
structure Writes (assign : ℚ → Gram → Gram) (value : List Word → ℚ)
    (entries : List (List Word)) (before after : Dictionary) : Prop where
  written : ∀ entry ∈ entries, after.gram entry = assign (value entry) (before.gram entry)
  others : ∀ entry, entry ∉ entries → after.gram entry = before.gram entry
  seen : ∀ entry, after.Seen entry ↔ before.Seen entry

section

variable {assign : ℚ → Gram → Gram} {value : List Word → ℚ} {entries : List (List Word)}
  {before current after : Dictionary}

theorem Writes.none (dictionary : Dictionary) : Writes assign value [] dictionary dictionary := by
  constructor
  · intro entry member
    cases member
  · exact fun _ _ => rfl
  · exact fun _ => Iff.rfl

theorem Writes.keeps {α : Type} (writes : Writes assign value entries before after)
    (field : Gram → α) (untouched : ∀ item gram, field (assign item gram) = field gram)
    (entry : List Word) : field (after.gram entry) = field (before.gram entry) := by
  by_cases member : entry ∈ entries
  · rw [writes.written entry member, untouched]
  · rw [writes.others entry member]

variable (again : ∀ first second gram, assign second (assign first gram) = assign second gram)

include again

theorem Writes.step {entry : List Word} {read : Dictionary}
    (writes : Writes assign value entries before current) (same : Same current read)
    (changes : Changes (assign (value entry)) entry read after) (seen : before.Seen entry) :
    Writes assign value (entries ++ [entry]) before after := by
  have changed : ∀ other, after.gram other =
      if other = entry then assign (value entry) (current.gram other)
      else current.gram other := by
    intro other
    rw [changes.gram other, same.gram other]
  constructor
  · intro other member
    rw [changed]
    by_cases isEntry : other = entry
    · subst isEntry
      rw [if_pos rfl]
      by_cases earlier : other ∈ entries
      · rw [writes.written other earlier, again]
      · rw [writes.others other earlier]
    · rw [if_neg isEntry]
      cases List.mem_append.mp member with
      | inl earlier => exact writes.written other earlier
      | inr last => exact absurd (List.mem_singleton.mp last) isEntry
  · intro other absent
    rw [List.mem_append, not_or, List.mem_singleton] at absent
    rw [changed, if_neg absent.2, writes.others other absent.1]
  · intro other
    rw [changes.seen, same.seen, writes.seen]
    constructor
    · intro either
      cases either with
      | inl isEntry =>
          rw [isEntry]
          exact seen
      | inr earlier => exact earlier
    · exact Or.inr

/-- The run of a loop whose body sets the field of one entry. -/
theorem foldlM_writes {step : Dictionary → List Char → Option Dictionary}
    {earlier : List (List Word)} (seen : ∀ entry ∈ entries, before.Seen entry)
    (start : Writes assign value earlier before current)
    (steps : ∀ done entry state, entry ∈ entries → Writes assign value done before state →
      ∃ read after, step state (join entry) = some after ∧ Same state read ∧
        Changes (assign (value entry)) entry read after) :
    ∃ after, (entries.map join).foldlM step current = some after ∧
      Writes assign value (earlier ++ entries) before after := by
  rw [List.foldlM_map]
  apply foldlM_run (fun done state => Writes assign value (earlier ++ done) before state)
  · rw [List.append_nil]
    exact start
  · intro done entry state member writes
    obtain ⟨read, after, stepped, same, changes⟩ := steps _ entry state member writes
    refine ⟨after, stepped, ?_⟩
    rw [← List.append_assoc]
    exact writes.step again same changes (seen entry member)

end

end WittenBell
