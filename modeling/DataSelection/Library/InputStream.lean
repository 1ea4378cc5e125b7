/-
Reading a text file line by line through a standard input stream.

A stream is the unread text with its state flags.  The loops modelled here test
the end-of-file flag before a line is read, so a text with a final newline, and
an empty text as well, yields one more empty line.
-/

import DataSelection.Library.Tokens

namespace Library

structure IFStream where
  unread : List Char
  eofbit : Bool
  failbit : Bool
  badbit : Bool
  deriving DecidableEq

namespace IFStream

def opened (content : List Char) : IFStream :=
  { unread := content
    eofbit := false
    failbit := false
    badbit := false }

def good (stream : IFStream) : Bool :=
  !stream.eofbit && !stream.failbit && !stream.badbit

/-- `getline` leaves the string alone when the stream is not good.  Otherwise it
stores the text before the next newline; at the end of the text it sets eofbit,
and failbit as well if there was nothing left to read. -/
def getline (stream : IFStream) (line : List Char) : List Char × IFStream :=
  if stream.good then
    match stream.unread.dropWhile (· ≠ '\n') with
    | [] =>
        (stream.unread,
          { stream with
            unread := []
            eofbit := true
            failbit := stream.unread.isEmpty })
    | _ :: rest =>
        (stream.unread.takeWhile (· ≠ '\n'), { stream with unread := rest })
  else (line, { stream with failbit := true })

/-- The loop `while (!stream.eof()) { getline(stream, line); body }`. -/
def eofLoop {σ : Type} (body : List Char → σ → σ) :
    Nat → IFStream → List Char → σ → Option σ
  | 0, _, _, _ => none
  | fuel + 1, stream, line, state =>
      if stream.eofbit then some state
      else
        let next := stream.getline line
        eofLoop body fuel next.2 next.1 (body next.1 state)

end IFStream

/-- The lines that reading to the end of a text produces. -/
def linesOf (content : List Char) : List (List Char) := content.splitOn '\n'

theorem linesOf_ne_nil (content : List Char) : linesOf content ≠ [] :=
  List.splitOn_ne_nil '\n' content

theorem linesOf_of_noNewline {content : List Char} (clean : '\n' ∉ content) :
    linesOf content = [content] := by
  unfold linesOf
  rw [List.splitOn_eq_splitOnP]
  apply List.splitOnP_eq_singleton
  intro char inContent
  simp only [beq_eq_false_iff_ne]
  rintro rfl
  exact clean inContent

theorem linesOf_append_newline (line rest : List Char) (clean : '\n' ∉ line) :
    linesOf (line ++ '\n' :: rest) = line :: linesOf rest := by
  unfold linesOf
  rw [List.splitOn_eq_splitOnP, List.splitOnP_append_cons line rest (by simp),
    ← List.splitOn_eq_splitOnP, ← List.splitOn_eq_splitOnP]
  have first := linesOf_of_noNewline clean
  unfold linesOf at first
  rw [first, List.singleton_append]

namespace IFStream

theorem getline_opened_last {content : List Char} (clean : '\n' ∉ content) (line : List Char) :
    (opened content).getline line =
      (content, { unread := [], eofbit := true, failbit := content.isEmpty, badbit := false }) := by
  have dropped : content.dropWhile (· ≠ '\n') = [] :=
    List.dropWhile_eq_nil_iff.mpr (passes_of_absent clean)
  simp only [getline, opened, good, Bool.not_false, Bool.and_self, if_true]
  rw [dropped]

theorem getline_opened_newline {first : List Char} (clean : '\n' ∉ first)
    (rest line : List Char) :
    (opened (first ++ '\n' :: rest)).getline line = (first, opened rest) := by
  simp only [getline, opened, good, Bool.not_false, Bool.and_self, if_true]
  rw [dropWhile_of_absent clean, takeWhile_of_absent clean]

/-- The end-of-file loop over a readable file runs its body once for each line. -/
theorem eofLoop_opened {σ : Type} (body : List Char → σ → σ) (fuel : Nat)
    (content line : List Char) (state : σ) (enough : content.length + 2 ≤ fuel) :
    eofLoop body fuel (opened content) line state =
      some ((linesOf content).foldl (fun acc next => body next acc) state) := by
  induction fuel generalizing content line state with
  | zero => omega
  | succ fuel ih =>
      have unfolded : eofLoop body (fuel + 1) (opened content) line state =
          eofLoop body fuel ((opened content).getline line).2 ((opened content).getline line).1
            (body ((opened content).getline line).1 state) := rfl
      rw [unfolded]
      by_cases newline : '\n' ∈ content
      · obtain ⟨first, rest, rfl, clean⟩ := List.eq_append_cons_of_mem newline
        rw [getline_opened_newline clean, linesOf_append_newline first rest clean,
          List.foldl_cons]
        apply ih
        simp only [List.length_append, List.length_cons] at enough
        omega
      · rw [getline_opened_last newline, linesOf_of_noNewline newline]
        cases fuel with
        | zero => omega
        | succ fuel => rfl

/-- `count` further calls of `getline`, as a loop that skips to a line makes them. -/
def advance : Nat → List Char × IFStream → List Char × IFStream
  | 0, position => position
  | count + 1, position => advance count (position.2.getline position.1)

theorem advance_add (first second : Nat) (position : List Char × IFStream) :
    advance (first + second) position = advance second (advance first position) := by
  induction first generalizing position with
  | zero => rw [Nat.zero_add]; rfl
  | succ first ih =>
      rw [Nat.add_right_comm]
      exact ih _

theorem advance_opened (content line : List Char) (index : Nat)
    (inRange : index < (linesOf content).length) :
    (advance (index + 1) (line, opened content)).1 = (linesOf content)[index] := by
  induction index generalizing content line with
  | zero =>
      change ((opened content).getline line).1 = _
      by_cases newline : '\n' ∈ content
      · obtain ⟨first, rest, rfl, clean⟩ := List.eq_append_cons_of_mem newline
        rw [getline_opened_newline clean]
        simp only [linesOf_append_newline first rest clean, List.getElem_cons_zero]
      · rw [getline_opened_last newline]
        simp only [linesOf_of_noNewline newline, List.getElem_cons_zero]
  | succ index ih =>
      change (advance (index + 1) ((opened content).getline line)).1 = _
      by_cases newline : '\n' ∈ content
      · obtain ⟨first, rest, rfl, clean⟩ := List.eq_append_cons_of_mem newline
        rw [getline_opened_newline clean]
        simp only [linesOf_append_newline first rest clean, List.length_cons] at inRange
        simp only [linesOf_append_newline first rest clean, List.getElem_cons_succ]
        exact ih rest first (by omega)
      · rw [linesOf_of_noNewline newline, List.length_singleton] at inRange
        omega

end IFStream

theorem linesOf_length_le (content : List Char) :
    (linesOf content).length ≤ content.length + 1 := by
  induction content with
  | nil => simp [linesOf]
  | cons char rest ih =>
      unfold linesOf at ih ⊢
      rw [List.splitOn_cons_eq_if_modifyHead]
      split
      · simp only [List.length_cons]
        omega
      · simp only [List.length_modifyHead, List.length_cons]
        omega

end Library
