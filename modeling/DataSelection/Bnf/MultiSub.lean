/-
Replacing several names in a text at once.

The names are free of metacharacters, so the joined pattern is a choice of literal
strings.  The text is scanned once from the left, and what was put in is not scanned.
-/

import DataSelection.Bnf.RegexText
import DataSelection.Library.Loops
import Mathlib.Data.List.Pairwise

namespace Bnf

/-- The pairs of the dictionary, names first.  Python does not promise an order. -/
abbrev MultiSub := List (Name × Text)

/-- The matches of the joined pattern and the characters between them. -/
def pieces (names : List Name) : Nat → Text → List Piece
  | _, [] => []
  | covered + 1, _ :: rest => pieces names covered rest
  | 0, char :: rest =>
      match names.find? (fun name => name.isPrefixOf (char :: rest)) with
      | some name => .name name :: pieces names (name.length - 1) rest
      | none => .char char :: pieces names 0 rest

/-- The pattern `\\g<[^>]*>` occurs. -/
def hasGroupReference (value : Text) : Bool :=
  value.tails.any (fun rest => ['\\', 'g', '<'].isPrefixOf rest && rest.contains '>')

/-- The replacement value for the matched string.  The names have no groups, so that a
group reference in the value raises. -/
def replacement (dictionary : MultiSub) (matched_string : Name) : Option Text := do
  let entry ← dictionary.find? (fun entry => entry.1 = matched_string)
  if hasGroupReference entry.2 then none else some entry.2

def sub (dictionary : MultiSub) (text : Text) : Option Text :=
  if dictionary.length = 0 then some text
  else do
    let written ← (pieces (dictionary.map Prod.fst) 0 text).mapM (fun piece =>
      match piece with
      | .char char => some [char]
      | .name name => replacement dictionary name)
    some written.flatten

/-! ### Scanning -/

def PrefixFree (names : List Name) : Prop :=
  names.Pairwise (fun first second => ¬ first <+: second ∧ ¬ second <+: first)

instance decidablePrefixFree (names : List Name) : Decidable (PrefixFree names) :=
  inferInstanceAs (Decidable (List.Pairwise _ _))

theorem PrefixFree.eq_of_prefix {names : List Name} (free : PrefixFree names)
    {first second : Name} (inFirst : first ∈ names) (inSecond : second ∈ names)
    (isPrefix : first <+: second) : first = second := by
  by_contra different
  have symmetric : Std.Symm (fun first second : Name => ¬ first <+: second ∧ ¬ second <+: first) :=
    ⟨fun _ _ both => ⟨both.2, both.1⟩⟩
  exact (free.forall inFirst inSecond different).1 isPrefix

theorem startsWith_of_find? {names : List Name} {text : Text} {name : Name}
    (found : names.find? (fun name => name.isPrefixOf text) = some name) :
    name ∈ names ∧ name <+: text := by
  have holds := List.find?_some found
  exact ⟨List.mem_of_find?_eq_some found, List.isPrefixOf_iff_prefix.mp holds⟩

theorem find?_name {names others : List Name} (free : PrefixFree names)
    (same : ∀ name, name ∈ others ↔ name ∈ names) (text : Text) :
    others.find? (fun name => name.isPrefixOf text) =
      names.find? (fun name => name.isPrefixOf text) := by
  cases found : names.find? (fun name => name.isPrefixOf text) with
  | none =>
      rw [List.find?_eq_none] at found ⊢
      exact fun name member => found name ((same name).mp member)
  | some name =>
      rcases startsWith_of_find? found with ⟨member, isPrefix⟩
      cases foundOther : others.find? (fun name => name.isPrefixOf text) with
      | none =>
          rw [List.find?_eq_none] at foundOther
          exact absurd (List.isPrefixOf_iff_prefix.mpr isPrefix)
            (foundOther name ((same name).mpr member))
      | some other =>
          rcases startsWith_of_find? foundOther with ⟨inOthers, otherPrefix⟩
          have otherMember := (same other).mp inOthers
          cases List.prefix_or_prefix_of_prefix isPrefix otherPrefix with
          | inl before => rw [free.eq_of_prefix member otherMember before]
          | inr before => rw [free.eq_of_prefix otherMember member before]

theorem pieces_order {names others : List Name} (free : PrefixFree names)
    (same : ∀ name, name ∈ others ↔ name ∈ names) (covered : Nat) (text : Text) :
    pieces others covered text = pieces names covered text := by
  induction text generalizing covered with
  | nil =>
      cases covered with
      | zero => rfl
      | succ covered => rfl
  | cons char rest ih =>
      cases covered with
      | zero =>
          rw [pieces, pieces, find?_name free same]
          cases names.find? (fun name => name.isPrefixOf (char :: rest)) with
          | none => exact congrArg (Piece.char char :: ·) (ih 0)
          | some name => exact congrArg (Piece.name name :: ·) (ih (name.length - 1))
      | succ covered => exact ih covered

theorem mem_names_of_mem_pieces {names : List Name} {covered : Nat} {text : Text} {name : Name}
    (member : .name name ∈ pieces names covered text) : name ∈ names := by
  induction text generalizing covered with
  | nil =>
      cases covered with
      | zero => cases member
      | succ covered => cases member
  | cons char rest ih =>
      cases covered with
      | zero =>
          rw [pieces] at member
          cases found : names.find? (fun name => name.isPrefixOf (char :: rest)) with
          | none =>
              rw [found] at member
              cases member with
              | tail _ later => exact ih later
          | some first =>
              rw [found] at member
              cases member with
              | head _ => exact List.mem_of_find?_eq_some found
              | tail _ later => exact ih later
      | succ covered => exact ih member

theorem pieces_nil (text : Text) : pieces [] 0 text = text.map .char := by
  induction text with
  | nil => rfl
  | cons char rest ih =>
      rw [pieces, List.map_cons, ← ih]
      rfl

/-! ### Writing -/

theorem mapM_replacement {dictionary : MultiSub} {texts : Name → Text} {found : List Piece}
    (plain : ∀ name, .name name ∈ found → replacement dictionary name = some (texts name)) :
    found.mapM (fun piece =>
        match piece with
        | .char char => some [char]
        | .name name => replacement dictionary name) =
      some (found.map (writePiece texts)) := by
  refine Library.mapM_of_pure ?_
  intro piece member
  cases piece with
  | char char => rfl
  | name name => exact plain name member

theorem sub_eq {dictionary : MultiSub} {texts : Name → Text} {text : Text}
    (plain : ∀ name, .name name ∈ pieces (dictionary.map Prod.fst) 0 text →
      replacement dictionary name = some (texts name)) :
    sub dictionary text =
      some ((pieces (dictionary.map Prod.fst) 0 text).flatMap (writePiece texts)) := by
  unfold sub
  by_cases empty : dictionary.length = 0
  · rw [if_pos empty, List.eq_nil_of_length_eq_zero empty, List.map_nil, pieces_nil,
      List.flatMap_map]
    exact congrArg some (List.flatMap_singleton' text).symm
  · rw [if_neg empty, mapM_replacement plain]
    rfl

end Bnf
