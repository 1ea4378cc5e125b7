/-
The reader of number words on a numeral.

The reader multiplies by hundred what it has read of a group, and puts the group aside at a
larger scale word.  It never reads more than the numeral says, and less if a scale word stands
alone or if its number has itself been put aside.
-/

import DataSelection.Numbers.English
import DataSelection.Numbers.TextToNum

namespace Numbers

open WittenBell (Word)

/-! ### The words of the reader -/

theorem numwords_small {word : Word} {value : Nat} (listed : (word, value) ∈ ones ++ teens ++ tens) :
    numwords word = some (1, value) ∧ 0 < value := by
  have checked : (ones ++ teens ++ tens).all (fun entry =>
      decide (numwords entry.1 = some (1, entry.2) ∧ 0 < entry.2)) = true := by
    decide +kernel
  exact of_decide_eq_true (List.all_eq_true.mp checked (word, value) listed)

theorem numwords_scale {name : Word} {unit : Nat} (listed : (name, unit) ∈ scales) :
    numwords name = some (unit, 0) ∧ 100 < unit := by
  have checked : scales.all (fun entry =>
      decide (numwords entry.1 = some (entry.2, 0) ∧ 100 < entry.2)) = true := by
    decide +kernel
  exact of_decide_eq_true (List.all_eq_true.mp checked (name, unit) listed)

theorem numwords_hundred : numwords hundredWord = some (100, 0) := by decide +kernel

/-- The number put aside and the one being built, after some words. -/
def readFrom (state : Nat × Nat) (words : List Word) : Nat × Nat :=
  (words.filterMap numwords).foldl accumulate state

theorem readFrom_append (state : Nat × Nat) (words others : List Word) :
    readFrom state (words ++ others) = readFrom (readFrom state words) others := by
  rw [readFrom, List.filterMap_append, List.foldl_append]
  rfl

theorem readFrom_cons {word : Word} {entry : Nat × Nat} (found : numwords word = some entry)
    (state : Nat × Nat) (words : List Word) :
    readFrom state (word :: words) = readFrom (accumulate state entry) words := by
  rw [readFrom, List.filterMap_cons, found]
  rfl

theorem accumulate_small (state : Nat × Nat) (value : Nat) :
    accumulate state (1, value) = (state.1, state.2 + value) := by
  simp [accumulate]

theorem accumulate_hundred (state : Nat × Nat) :
    accumulate state (100, 0) = (state.1, state.2 * 100) := by
  simp [accumulate]

theorem accumulate_large {unit : Nat} (large : 100 < unit) (state : Nat × Nat) :
    accumulate state (unit, 0) = (state.1 + state.2 * unit, 0) := by
  simp [accumulate, large]

/-! ### Numbers below one thousand -/

theorem readFrom_belowHundred {words : List Word} {value : Nat}
    (isValue : belowHundred words = some value) (state : Nat × Nat) :
    readFrom state words = (state.1, state.2 + value) ∧ 0 < value := by
  rcases belowHundred_cases isValue with
    ⟨word, rfl, listed⟩ | ⟨ten, one, upper, lower, rfl, tenListed, oneListed, rfl⟩
  · obtain ⟨found, positive⟩ := numwords_small listed
    refine ⟨?_, positive⟩
    rw [readFrom_cons found, accumulate_small]
    rfl
  · obtain ⟨foundTen, positive⟩ := numwords_small tenListed
    have foundOne := (numwords_small oneListed).1
    refine ⟨?_, Nat.add_pos_left positive lower⟩
    rw [readFrom_cons foundTen, readFrom_cons foundOne, accumulate_small, accumulate_small,
      Nat.add_assoc]
    rfl

theorem readFrom_valueOr {smaller : List Word → Option Nat} {words : List Word} {rest : Nat}
    (isRest : valueOr 0 smaller words = some rest) :
    (words = [] ∧ rest = 0) ∨ smaller words = some rest := by
  cases words with
  | nil => exact Or.inl ⟨rfl, (Option.some.inj isRest).symm⟩
  | cons word words => exact Or.inr isRest

/-- Of a group nothing is lost but a hundred that stands alone. -/
theorem readFrom_belowThousand {words : List Word} {value : Nat}
    (isValue : belowThousand words = some value) :
    ∃ current, (∀ result, readFrom (result, 0) words = (result, current)) ∧ current ≤ value ∧
      (current = value ↔ hundredsPlain words = true) ∧ 0 < value := by
  rcases scaled_cases isValue with
    ⟨absent, isSmall⟩ | ⟨before, after, coefficient, rest, isSplit, isCoefficient, isRest, rfl⟩
  · have positive := (readFrom_belowHundred isSmall (0, 0)).2
    refine ⟨value, ?_, Nat.le_refl value, ?_, positive⟩
    · intro result
      rw [(readFrom_belowHundred isSmall (result, 0)).1, Nat.zero_add]
    · rw [hundredsPlain, absent]
      exact iff_of_true rfl rfl
  · obtain ⟨rfl, _⟩ := splitAtWord_eq_some isSplit
    have readAfter : ∀ state, readFrom state after = (state.1, state.2 + rest) := by
      intro state
      rcases readFrom_valueOr isRest with ⟨rfl, rfl⟩ | isSmall
      · rfl
      · exact (readFrom_belowHundred isSmall state).1
    rw [hundredsPlain, isSplit]
    cases before with
    | nil =>
        -- nothing is multiplied
        cases isCoefficient
        refine ⟨rest, ?_, ?_, ?_, ?_⟩
        · intro result
          rw [List.nil_append, readFrom_cons numwords_hundred, accumulate_hundred, readAfter,
            Nat.zero_mul, Nat.zero_add]
        · exact Nat.le_add_left rest _
        · refine iff_of_false ?_ Bool.false_ne_true
          omega
        · omega
    | cons word before =>
        have readBefore := readFrom_belowHundred isCoefficient
        have positive := (readBefore (0, 0)).2
        refine ⟨coefficient * 100 + rest, ?_, Nat.le_refl _, iff_of_true rfl rfl, by omega⟩
        intro result
        rw [readFrom_append, (readBefore _).1, readFrom_cons numwords_hundred,
          accumulate_hundred, readAfter, Nat.zero_add]

theorem small_of_belowThousand {words : List Word} {value : Nat}
    (isValue : belowThousand words = some value) {name : Word} {unit : Nat}
    (listed : (name, unit) ∈ scales) : name ∉ words := by
  have large := numwords_scale listed
  have notSmall : ∀ value, (name, value) ∉ ones ++ teens ++ tens := by
    intro value member
    have same := (numwords_small member).1.symm.trans large.1
    cases same
    exact absurd large.2 (by decide)
  have below : ∀ {words : List Word} {value : Nat}, belowHundred words = some value →
      name ∉ words := by
    intro words value isSmall member
    rcases belowHundred_cases isSmall with
      ⟨word, rfl, here⟩ | ⟨ten, one, upper, lower, rfl, tenListed, oneListed, _⟩
    · rw [List.mem_singleton] at member
      exact notSmall _ (member ▸ here)
    · rcases List.mem_pair.mp member with rfl | rfl
      · exact notSmall _ tenListed
      · exact notSmall _ oneListed
  rcases scaled_cases isValue with
    ⟨_, isSmall⟩ | ⟨before, after, coefficient, rest, isSplit, isCoefficient, isRest, _⟩
  · exact below isSmall
  · obtain ⟨rfl, _⟩ := splitAtWord_eq_some isSplit
    intro member
    rcases List.mem_append.mp member with inBefore | behind
    · cases before with
      | nil => cases inBefore
      | cons word before => exact below isCoefficient inBefore
    · rcases List.mem_cons.mp behind with rfl | inAfter
      · have same := numwords_hundred.symm.trans large.1
        cases same
        exact absurd large.2 (by decide)
      · cases after with
        | nil => cases inAfter
        | cons word after => exact below isRest inAfter

theorem numeralBelow_of_belowThousand {table : List (Word × Nat)}
    (part : ∀ entry ∈ table, entry ∈ scales) {words : List Word} {value : Nat}
    (isValue : belowThousand words = some value) : numeralBelow table words = some value := by
  induction table with
  | nil => exact isValue
  | cons entry smaller ih =>
      have absent := small_of_belowThousand isValue (part entry List.mem_cons_self)
      rw [numeralBelow, scaled, splitAtWord_of_absent absent]
      exact ih (fun other member => part other (List.mem_cons_of_mem entry member))

/-! ### All numerals -/

/-- What is put aside is added to what has been put aside before. -/
structure ReadsNumeral (table : List (Word × Nat)) (words : List Word) (value aside current : Nat) :
    Prop where
  read : ∀ result, readFrom (result, 0) words = (result + aside, current)
  bound : aside + current ≤ value
  plain : aside + current = value ↔ scalesPlain table words = true
  small : aside = 0 → current = value → belowThousand words = some value
  positive : 0 < value

theorem readsNumeral_of_belowThousand {words : List Word} {value : Nat}
    (isValue : belowThousand words = some value) :
    ∃ current, ReadsNumeral [] words value 0 current := by
  obtain ⟨current, read, bound, plain, positive⟩ := readFrom_belowThousand isValue
  refine ⟨current, read, ?_, ?_, fun _ _ => isValue, positive⟩
  · rw [Nat.zero_add]
    exact bound
  · rw [Nat.zero_add]
    exact plain

theorem readFrom_scale {name : Word} {unit : Nat} (listed : (name, unit) ∈ scales)
    {before : List Word} {aside current : Nat}
    (read : ∀ result, readFrom (result, 0) before = (result + aside, current)) (result : Nat)
    (after : List Word) :
    readFrom (result, 0) (before ++ name :: after) =
      readFrom (result + (aside + current * unit), 0) after := by
  obtain ⟨found, large⟩ := numwords_scale listed
  rw [readFrom_append, read, readFrom_cons found, accumulate_large large, Nat.add_assoc]

theorem scalesPlain_nil (table : List (Word × Nat)) : scalesPlain table [] = true := by
  induction table with
  | nil => rfl
  | cons entry smaller ih => exact ih

/-- The number of a scale word is read as a whole exactly when it is a plain one below a
thousand. -/
theorem ReadsNumeral.whole_iff {table : List (Word × Nat)}
    (part : ∀ entry ∈ table, entry ∈ scales) {words : List Word} {value aside current : Nat}
    (reads : ReadsNumeral table words value aside current)
    (isValue : numeralBelow table words = some value) :
    aside = 0 ∧ current = value ↔
      (belowThousand words).isSome = true ∧ hundredsPlain words = true := by
  have ofSmall : ∀ {small : Nat}, belowThousand words = some small → small = value ∧ aside = 0 ∧
      (current = value ↔ hundredsPlain words = true) := by
    intro small isSmall
    have same : small = value :=
      Option.some.inj ((numeralBelow_of_belowThousand part isSmall).symm.trans isValue)
    obtain ⟨whole, read, _, plain, _⟩ := readFrom_belowThousand isSmall
    have states := (reads.read 0).symm.trans (read 0)
    rw [Prod.mk.injEq, Nat.zero_add] at states
    rw [states.2, ← same]
    exact ⟨rfl, states.1, plain⟩
  constructor
  · intro ⟨noneAside, isCurrent⟩
    have isSmall := reads.small noneAside isCurrent
    rw [isSmall]
    exact ⟨rfl, (ofSmall isSmall).2.2.mp isCurrent⟩
  · intro ⟨isSome, plain⟩
    obtain ⟨small, isSmall⟩ := Option.isSome_iff_exists.mp isSome
    obtain ⟨_, noneAside, isPlain⟩ := ofSmall isSmall
    exact ⟨noneAside, isPlain.mpr plain⟩

theorem scaled_le {aside current coefficient unit : Nat} (large : 100 < unit)
    (bound : aside + current ≤ coefficient) :
    aside + current * unit ≤ coefficient * unit ∧
      (aside + current * unit = coefficient * unit ↔ aside = 0 ∧ current = coefficient) := by
  have product := Nat.mul_le_mul_right unit bound
  rw [Nat.add_mul] at product
  have shrinks : aside ≤ aside * unit := Nat.le_mul_of_pos_right aside (by omega)
  refine ⟨by omega, ?_, ?_⟩
  · intro same
    have noneAside : aside = 0 := by
      by_contra positive
      have grows : aside * 101 ≤ aside * unit := Nat.mul_le_mul_left aside large
      omega
    rw [noneAside, Nat.zero_add] at same
    exact ⟨noneAside, Nat.eq_of_mul_eq_mul_right (by omega) same⟩
  · intro ⟨noneAside, isCurrent⟩
    rw [noneAside, isCurrent, Nat.zero_add]

/-- The reader reads a numeral right exactly when it is plain. -/
theorem readsNumeral {table : List (Word × Nat)} (part : ∀ entry ∈ table, entry ∈ scales)
    {words : List Word} {value : Nat} (isValue : numeralBelow table words = some value) :
    ∃ aside current, ReadsNumeral table words value aside current := by
  induction table generalizing words value with
  | nil => exact ⟨0, readsNumeral_of_belowThousand isValue⟩
  | cons entry smaller ih =>
      obtain ⟨name, unit⟩ := entry
      have listed := part (name, unit) List.mem_cons_self
      have large := (numwords_scale listed).2
      have later : ∀ entry ∈ smaller, entry ∈ scales :=
        fun other member => part other (List.mem_cons_of_mem _ member)
      rcases scaled_cases isValue with
        ⟨absent, isSmall⟩ | ⟨before, after, coefficient, rest, isSplit, isCoefficient, isRest, rfl⟩
      · obtain ⟨aside, current, reads⟩ := ih later isSmall
        refine ⟨aside, current, reads.read, reads.bound, ?_, reads.small, reads.positive⟩
        rw [scalesPlain, absent]
        exact reads.plain
      · obtain ⟨rfl, _⟩ := splitAtWord_eq_some isSplit
        -- what stands behind the scale word
        obtain ⟨asideAfter, currentAfter, readAfter, boundAfter, plainAfter⟩ :
            ∃ aside current, (∀ result, readFrom (result, 0) after = (result + aside, current)) ∧
              aside + current ≤ rest ∧
              (aside + current = rest ↔ scalesPlain smaller after = true) := by
          rcases readFrom_valueOr isRest with ⟨rfl, rfl⟩ | isSmall
          · refine ⟨0, 0, fun _ => rfl, Nat.le_refl 0, iff_of_true rfl ?_⟩
            exact scalesPlain_nil smaller
          · obtain ⟨aside, current, reads⟩ := ih later isSmall
            exact ⟨aside, current, reads.read, reads.bound, reads.plain⟩
        have isPlain : scalesPlain ((name, unit) :: smaller) (before ++ name :: after) =
            ((belowThousand before).isSome && hundredsPlain before && scalesPlain smaller after) := by
          rw [scalesPlain, isSplit]
        cases before with
        | nil =>
            cases isCoefficient
            refine ⟨asideAfter, currentAfter, ?_, by omega, ?_, by omega, by omega⟩
            · intro result
              have nothing : ∀ result, readFrom (result, 0) [] = (result + 0, 0) := fun _ => rfl
              rw [readFrom_scale listed nothing, readAfter, Nat.zero_mul, Nat.add_zero]
            · rw [isPlain]
              exact iff_of_false (by omega) Bool.false_ne_true
        | cons word before =>
            obtain ⟨aside, current, reads⟩ := ih later isCoefficient
            obtain ⟨bound, whole⟩ := scaled_le large reads.bound
            have positive := Nat.mul_pos reads.positive (Nat.lt_trans (by decide) large)
            refine ⟨aside + current * unit + asideAfter, currentAfter, ?_, by omega, ?_, ?_,
              Nat.add_pos_left positive rest⟩
            · intro result
              rw [readFrom_scale listed reads.read, readAfter, Nat.add_assoc]
            · rw [isPlain, Bool.and_eq_true, Bool.and_eq_true,
                ← reads.whole_iff later isCoefficient, ← plainAfter, ← whole]
              constructor
              · intro same
                exact ⟨by omega, by omega⟩
              · intro ⟨sameBefore, sameAfter⟩
                omega
            · intro noneAside isCurrent
              omega

end Numbers
