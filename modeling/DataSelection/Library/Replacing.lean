/-
Replacing the matches of a pattern in a text.

The text is scanned once from the left.  An empty match counts unless it stands right
behind another match, and the scan moves on by one character after it.
-/

import Mathlib.Data.List.Basic

namespace Library

variable {α : Type}

/-- A character between the matches, or a match. -/
inductive Segment (α : Type)
  | copied (char : α)
  | matched (word : List α)
  deriving DecidableEq

/-- The matches in the text and the characters between them.  The first `covered`
characters belong to a match that was found before, and `adjacent` says that one ended
here. -/
def segments (matchAt : List α → Option Nat) : Nat → Bool → List α → List (Segment α)
  | 0, adjacent, [] =>
      if adjacent = false ∧ matchAt [] = some 0 then [.matched []] else []
  | _ + 1, _, [] => []
  | covered + 1, _, _ :: rest => segments matchAt covered true rest
  | 0, adjacent, char :: rest =>
      match matchAt (char :: rest) with
      | some (length + 1) =>
          .matched ((char :: rest).take (length + 1)) :: segments matchAt length true rest
      | some 0 =>
          if adjacent then .copied char :: segments matchAt 0 false rest
          else .matched [] :: .copied char :: segments matchAt 0 false rest
      | none => .copied char :: segments matchAt 0 false rest

theorem segments_matched {matchAt : List α → Option Nat} {covered : Nat} {adjacent : Bool}
    {text word : List α} (member : .matched word ∈ segments matchAt covered adjacent text) :
    ∃ rest length, matchAt rest = some length ∧ word = rest.take length := by
  induction text generalizing covered adjacent with
  | nil =>
      cases covered with
      | succ covered => cases member
      | zero =>
          rw [segments] at member
          by_cases ends : adjacent = false ∧ matchAt [] = some 0
          · rw [if_pos ends, List.mem_singleton] at member
            exact ⟨[], 0, ends.2, Segment.matched.inj member⟩
          · rw [if_neg ends] at member
            cases member
  | cons char rest ih =>
      cases covered with
      | succ covered => exact ih member
      | zero =>
          rw [segments] at member
          cases found : matchAt (char :: rest) with
          | none =>
              rw [found] at member
              cases member with
              | tail _ later => exact ih later
          | some length =>
              rw [found] at member
              cases length with
              | succ length =>
                  cases member with
                  | head _ => exact ⟨char :: rest, length + 1, found, rfl⟩
                  | tail _ later => exact ih later
              | zero =>
                  cases adjacent with
                  | true =>
                      cases member with
                      | tail _ later => exact ih later
                  | false =>
                      cases member with
                      | head _ => exact ⟨char :: rest, 0, found, rfl⟩
                      | tail _ later =>
                          cases later with
                          | tail _ later => exact ih later

theorem segments_none (text : List α) :
    segments (fun _ => none) 0 false text = text.map .copied := by
  induction text with
  | nil => rfl
  | cons char rest ih =>
      rw [segments, List.map_cons, ih]

def writeSegment (texts : List α → List α) : Segment α → List α
  | .copied char => [char]
  | .matched word => texts word

/-! ### Simultaneous replacement -/

/-- Every key that is met is replaced, every other character is copied, and what was put
in is not looked at. -/
inductive Replaced (value : List α → Option (List α)) : List α → List α → Prop
  | done : Replaced value [] []
  | key {char : α} {rest replacement text written : List α}
      (known : value (char :: rest) = some replacement) (later : Replaced value text written) :
      Replaced value (char :: rest ++ text) (replacement ++ written)
  | copy {char : α} {text written : List α}
      (absent : ∀ key, (value key).isSome → ¬ key <+: char :: text)
      (later : Replaced value text written) : Replaced value (char :: text) (char :: written)

def KeysPrefixFree (value : List α → Option (List α)) : Prop :=
  ∀ first second, (value first).isSome → (value second).isSome → first <+: second → first = second

theorem KeysPrefixFree.eq_of_prefixes {value : List α → Option (List α)}
    (free : KeysPrefixFree value) {first second text : List α} (isFirst : (value first).isSome)
    (isSecond : (value second).isSome) (firstPrefix : first <+: text)
    (secondPrefix : second <+: text) : first = second := by
  rcases List.prefix_or_prefix_of_prefix firstPrefix secondPrefix with before | after
  · exact free first second isFirst isSecond before
  · exact (free second first isSecond isFirst after).symm

theorem Replaced.unique {value : List α → Option (List α)} (free : KeysPrefixFree value)
    {text first second : List α} (isFirst : Replaced value text first)
    (isSecond : Replaced value text second) : first = second := by
  induction isFirst generalizing second with
  | done => cases isSecond with | done => rfl
  | @key char rest replacement text written known later ih =>
      have isKey : (value (char :: rest)).isSome := by rw [known]; rfl
      generalize whole : char :: rest ++ text = all at isSecond
      cases isSecond with
      | done => exact absurd whole (List.cons_ne_nil _ _)
      | @key otherChar otherRest otherReplacement otherText otherWritten otherKnown otherLater =>
          have isOther : (value (otherChar :: otherRest)).isSome := by rw [otherKnown]; rfl
          have sameKey : char :: rest = otherChar :: otherRest :=
            free.eq_of_prefixes isKey isOther (List.prefix_append _ text)
              (whole ▸ List.prefix_append _ otherText)
          rw [← sameKey] at whole otherKnown
          have sameText : text = otherText := List.append_cancel_left whole
          subst sameText
          rw [ih otherLater, Option.some.inj (known.symm.trans otherKnown)]
      | copy absent otherLater =>
          exact absurd (whole ▸ List.prefix_append _ text) (absent _ isKey)
  | @copy char text written absent later ih =>
      generalize whole : char :: text = all at isSecond
      cases isSecond with
      | done => exact absurd whole (List.cons_ne_nil _ _)
      | @key otherChar otherRest otherReplacement otherText otherWritten otherKnown otherLater =>
          have isOther : (value (otherChar :: otherRest)).isSome := by rw [otherKnown]; rfl
          exact absurd (whole ▸ List.prefix_append _ otherText) (absent _ isOther)
      | copy otherAbsent otherLater =>
          obtain ⟨sameChar, sameText⟩ := List.cons.inj whole
          subst sameChar
          subst sameText
          rw [ih otherLater]

structure FindsKeys (value : List α → Option (List α)) (matchAt : List α → Option Nat) :
    Prop where
  found : ∀ text length, matchAt text = some length →
    0 < length ∧ length ≤ text.length ∧ (value (text.take length)).isSome
  missed : ∀ text, matchAt text = none → ∀ key, (value key).isSome → ¬ key <+: text

theorem segments_replaced {value : List α → Option (List α)} {matchAt : List α → Option Nat}
    (finds : FindsKeys value matchAt) {texts : List α → List α}
    (known : ∀ key, (value key).isSome → value key = some (texts key))
    (covered : Nat) (adjacent : Bool) (text : List α) :
    Replaced value (text.drop covered)
      ((segments matchAt covered adjacent text).flatMap (writeSegment texts)) := by
  induction text generalizing covered adjacent with
  | nil =>
      cases covered with
      | zero =>
          have noEmptyMatch : matchAt [] ≠ some 0 :=
            fun found => Nat.lt_irrefl 0 (finds.found [] 0 found).1
          rw [segments, if_neg (fun both => noEmptyMatch both.2)]
          exact .done
      | succ covered => exact .done
  | cons char rest ih =>
      cases covered with
      | succ covered => exact ih covered true
      | zero =>
          rw [segments, List.drop_zero]
          cases found : matchAt (char :: rest) with
          | none => exact .copy (finds.missed _ found) (ih 0 false)
          | some length =>
              have facts := finds.found _ _ found
              cases length with
              | zero => exact absurd facts.1 (Nat.lt_irrefl 0)
              | succ length =>
                  have later := ih length true
                  have isKey := known _ facts.2.2
                  have whole : char :: rest.take length ++ rest.drop length = char :: rest := by
                    rw [List.cons_append, List.take_append_drop]
                  have replaced := Replaced.key isKey later
                  rw [whole] at replaced
                  exact replaced

end Library
