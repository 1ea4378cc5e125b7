/-
The loops that replace the matches of a search in the mined text.

Each loop keeps the whole text, the offset behind the last replacement and the part of
the text that is still to be searched.  The bounds of a match count from the start of
that part.
-/

import DataSelection.Library.Splicing
import DataSelection.Numbers.Speller

namespace Mining

open Library

structure Splices where
  mined_text : List Char
  start : Nat
  next : List Char

def Splices.enter (mined_text : List Char) : Splices :=
  { mined_text := mined_text
    start := 0
    next := mined_text }

def Splices.splice (state : Splices) (found : Match state.next) (replacement : List Char) :
    Splices :=
  { mined_text := state.mined_text.take (state.start + found.start) ++ replacement ++
      state.mined_text.drop (state.start + found.stop)
    start := state.start + (found.start + replacement.length)
    next := state.next.drop found.stop }

/-- The body of the loop over phone numbers, which writes nothing. -/
def Splices.cut (state : Splices) (found : Match state.next) : Splices :=
  { mined_text := state.mined_text.take (state.start + found.start) ++
      state.mined_text.drop (state.start + found.stop)
    start := state.start + found.start
    next := state.next.drop found.stop }

def cutLoop (search : Search Char) (state : Splices) : List Char :=
  match search state.next with
  | none => state.mined_text
  | some found => cutLoop search (state.cut found)
termination_by state.next.length
decreasing_by exact found.length_drop_lt

def deletePhoneNumbers (phone_re : Search Char) (mined_text : List Char) : List Char :=
  cutLoop phone_re (.enter mined_text)

section

variable {m : Type → Type} [Monad m]

def spliceLoop (search : Search Char) (replace : List Char → m (List Char)) (state : Splices) :
    m (List Char) :=
  match search state.next with
  | none => pure state.mined_text
  | some found => do
      let replacement ← replace found.text
      spliceLoop search replace (state.splice found replacement)
termination_by state.next.length
decreasing_by exact found.length_drop_lt

def replaceTimes (time_re : Search Char) (replaceTime : List Char → m (List Char))
    (mined_text : List Char) : m (List Char) :=
  spliceLoop time_re replaceTime (.enter mined_text)

def replaceDates (date_re : Search Char) (replaceDate : List Char → m (List Char))
    (mined_text : List Char) : m (List Char) :=
  spliceLoop date_re replaceDate (.enter mined_text)

def replaceNumbers (number_re : Search Char) (numToWordString : List Char → m (List Char))
    (mined_text : List Char) : m (List Char) :=
  spliceLoop number_re numToWordString (.enter mined_text)

end

/-! ### The offset and the remaining text -/

/-- The offset points to the part that is still to be searched. -/
def Splices.InStep (state : Splices) : Prop := state.mined_text.drop state.start = state.next

theorem inStep_enter (mined_text : List Char) : (Splices.enter mined_text).InStep := rfl

theorem Splices.cut_eq (state : Splices) (found : Match state.next) :
    state.cut found = state.splice found [] := by
  unfold cut splice
  rw [List.append_nil, List.length_nil, Nat.add_zero]

theorem Splices.InStep.whole {state : Splices} (inStep : state.InStep) :
    state.mined_text.take state.start ++ state.next = state.mined_text :=
  (congrArg (state.mined_text.take state.start ++ ·) inStep.symm).trans
    (List.take_append_drop state.start state.mined_text)

section

variable {state : Splices} (inStep : state.InStep) (found : Match state.next)

include inStep

theorem Splices.InStep.splice (replacement : List Char) :
    (state.splice found replacement).InStep := by
  unfold InStep Splices.splice
  dsimp only
  rw [← Nat.add_assoc]
  exact drop_splice inStep found replacement

theorem Splices.InStep.take_splice (replacement : List Char) :
    (state.splice found replacement).mined_text.take (state.splice found replacement).start =
      state.mined_text.take state.start ++ (state.next.take found.start ++ replacement) := by
  unfold Splices.splice
  dsimp only
  rw [← Nat.add_assoc]
  exact Library.take_splice inStep found replacement

end

/-- The states at the head of an iteration, whatever the replacements are. -/
inductive AtHead (search : Search Char) (mined_text : List Char) : Splices → Prop
  | enter : AtHead search mined_text (.enter mined_text)
  | splice {state : Splices} {found : Match state.next} (replacement : List Char)
      (earlier : AtHead search mined_text state) (present : search state.next = some found) :
      AtHead search mined_text (state.splice found replacement)
  | cut {state : Splices} {found : Match state.next}
      (earlier : AtHead search mined_text state) (present : search state.next = some found) :
      AtHead search mined_text (state.cut found)

theorem AtHead.inStep {search : Search Char} {mined_text : List Char} {state : Splices}
    (atHead : AtHead search mined_text state) : state.InStep := by
  induction atHead with
  | enter => exact inStep_enter mined_text
  | splice replacement _earlier _present ih => exact ih.splice _ replacement
  | cut _earlier _present ih =>
      rw [Splices.cut_eq]
      exact ih.splice _ []

/-! ### The results of the loops -/

section

variable {m : Type → Type} [Monad m] {search : Search Char} {replace : List Char → m (List Char)}
  {state : Splices}

theorem spliceLoop_none (absent : search state.next = none) :
    spliceLoop search replace state = pure state.mined_text := by
  rw [spliceLoop, absent]

theorem spliceLoop_some {found : Match state.next} (present : search state.next = some found) :
    spliceLoop search replace state = (do
      let replacement ← replace found.text
      spliceLoop search replace (state.splice found replacement)) := by
  rw [spliceLoop, present]

/-- The loop leaves what lies before the offset and replaces the matches behind it. -/
theorem spliceLoop_eq [LawfulMonad m] (inStep : state.InStep) :
    spliceLoop search replace state =
      (state.mined_text.take state.start ++ ·) <$> replaceMatches search replace state.next := by
  induction state using spliceLoop.induct search with
  | case1 state absent =>
      rw [spliceLoop_none absent, replaceMatches_none absent, map_pure, inStep.whole]
  | case2 state found present ih =>
      rw [spliceLoop_some present, replaceMatches_some present, map_bind]
      apply bind_congr
      intro replacement
      rw [ih replacement (inStep.splice found replacement), map_bind,
        inStep.take_splice found replacement]
      simp only [map_pure, bind_pure_comp, List.append_assoc]
      rfl

theorem spliceLoop_enter [LawfulMonad m] (mined_text : List Char) :
    spliceLoop search replace (.enter mined_text) = replaceMatches search replace mined_text := by
  rw [spliceLoop_eq (inStep_enter mined_text)]
  exact id_map _

theorem cutLoop_eq (search : Search Char) (state : Splices) :
    cutLoop search state = Id.run (spliceLoop search (fun _ => pure []) state) := by
  induction state using cutLoop.induct search with
  | case1 state absent =>
      rw [spliceLoop_none absent, cutLoop, absent]
      rfl
  | case2 state found present ih =>
      rw [spliceLoop_some present, pure_bind, ← Splices.cut_eq, ← ih, cutLoop, present]

/-- Each loop replaces every match in one pass. -/
theorem loops_replaceMatches [LawfulMonad m] (search : Search Char)
    (replace : List Char → m (List Char)) (mined_text : List Char) :
    replaceTimes search replace mined_text = replaceMatches search replace mined_text ∧
      replaceDates search replace mined_text = replaceMatches search replace mined_text ∧
      replaceNumbers search replace mined_text = replaceMatches search replace mined_text ∧
      deletePhoneNumbers search mined_text =
        Id.run (replaceMatches search (fun _ => pure []) mined_text) ∧
      ∀ state, AtHead search mined_text state →
        state.mined_text.drop state.start = state.next := by
  refine ⟨spliceLoop_enter mined_text, spliceLoop_enter mined_text, spliceLoop_enter mined_text,
    ?_, fun state atHead => atHead.inStep⟩
  unfold deletePhoneNumbers
  rw [cutLoop_eq, spliceLoop_enter]

end

/-- The first digit of a text is a match. -/
def firstDigit : Search Char := fun text =>
  let start := text.findIdx Char.isDigit
  if inside : start < text.length then
    some { start := start, stop := start + 1, nonempty := Nat.lt_succ_self start, inside := inside }
  else none

theorem loops_replaceMatches_digits :
    replaceNumbers firstDigit Numbers.numToWordString "7 OF 12".toList =
        replaceMatches firstDigit Numbers.numToWordString "7 OF 12".toList ∧
      replaceMatches firstDigit Numbers.numToWordString "7 OF 12".toList =
        some "SEVEN OF ONETWO".toList :=
  ⟨(loops_replaceMatches firstDigit Numbers.numToWordString "7 OF 12".toList).2.2.1,
    by decide +kernel⟩

end Mining
