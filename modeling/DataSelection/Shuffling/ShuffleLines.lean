/-
The memory-efficient line shuffler.

A first pass records where each line starts.  The second pass visits these
offsets in a random order and prints the line found at each.  The scan leaves
the stream usable exactly when the text ends with a newline.
-/

import Mathlib.Data.List.Perm.Basic
import DataSelection.Library.FileStream

namespace Shuffling

open Library
open Library.FileStream

abbrev Index := Int

/-- A call of `random_shuffle` produces some permutation of the offsets. -/
structure RandomShuffle where
  shuffle : List Index → List Index
  perm : ∀ offsets, (shuffle offsets).Perm offsets

def findOffsets : Nat → FileStream → List Char → List Index →
    Option (FileStream × List Char × List Index)
  | 0, _, _, _ => none
  | fuel + 1, file, line, lineStartOffsets =>
      if file.eof then some (file, line, lineStartOffsets)
      else
        let told := file.tellg
        let next := told.2.getline line
        findOffsets fuel next.2.peek next.1 (lineStartOffsets ++ [told.1])

def printLines (file : FileStream) (line : List Char) : List Index → List (List Char)
  | [] => []
  | offset :: offsets =>
      let next := (file.seekg offset).getline line
      next.1 :: printLines next.2 next.1 offsets

def main (random_shuffle : RandomShuffle) (content : List Char) : Option (List (List Char)) :=
  match findOffsets (content.length + 2) (FileStream.opened content) [] [] with
  | none => none
  | some (file, line, lineStartOffsets) =>
      some (printLines file line (random_shuffle.shuffle lineStartOffsets))

def EndsWithNewline (content : List Char) : Prop :=
  content.getLast? = some '\n'

instance (content : List Char) : Decidable (EndsWithNewline content) :=
  inferInstanceAs (Decidable (content.getLast? = some '\n'))

theorem endsWithNewline_append {first rest : List Char} (present : rest ≠ []) :
    EndsWithNewline (first ++ '\n' :: rest) ↔ EndsWithNewline rest := by
  unfold EndsWithNewline
  rw [List.getLast?_append_of_ne_nil first (List.cons_ne_nil _ _),
    List.getLast?_cons_of_ne_nil present]

theorem scan_newline {first : List Char} (clean : '\n' ∉ first) (fuel : Nat)
    (read rest line : List Char) (offsets : List Index) :
    findOffsets (fuel + 1) (reading read (first ++ '\n' :: rest)) line offsets =
      findOffsets fuel (reading (read ++ first ++ ['\n']) rest).peek first
        (offsets ++ [(read.length : Int)]) := by
  simp only [findOffsets, reading_eof, tellg_reading, getline_reading_newline clean,
    Bool.false_eq_true, if_false]

theorem scan_last {rest : List Char} (clean : '\n' ∉ rest) (fuel : Nat)
    (read line : List Char) (offsets : List Index) :
    ∃ file : FileStream, file.reader.failbit = true ∧
      findOffsets (fuel + 2) (reading read rest) line offsets =
        some (file, rest, offsets ++ [(read.length : Int)]) := by
  exact ⟨_, rfl, by
    simp only [findOffsets, reading_eof, tellg_reading, getline_reading_last clean,
      Bool.false_eq_true, if_false]
    rfl⟩

/-- What the first pass leaves behind on a text that ends with a newline. -/
structure Scanned (read rest : List Char) (offsets : List Index)
    (file : FileStream) (found : List Index) : Prop where
  content : file.content = read ++ rest
  usable : file.reader.fail = false
  lines : ∃ starts, found = offsets ++ starts ∧
    (∀ start ∈ starts, start.toNat < (read ++ rest).length) ∧
    starts.map (lineAt (read ++ rest)) = fileLines rest

theorem Scanned.extend {read first rest : List Char} {offsets found : List Index}
    {file : FileStream} (clean : '\n' ∉ first)
    (scanned : Scanned (read ++ first ++ ['\n']) rest
      (offsets ++ [(read.length : Int)]) file found) :
    Scanned read (first ++ '\n' :: rest) offsets file found := by
  have regroup : read ++ first ++ ['\n'] ++ rest = read ++ (first ++ '\n' :: rest) := by
    simp only [List.append_assoc, List.singleton_append]
  rcases scanned.lines with ⟨starts, split, inside, lines⟩
  rw [regroup] at inside lines
  constructor
  · rw [scanned.content, regroup]
  · exact scanned.usable
  · use (read.length : Int) :: starts
    constructor
    · rw [split, List.append_assoc, List.singleton_append]
    constructor
    · intro start member
      rcases List.mem_cons.mp member with atHead | later
      · subst start
        simp only [Int.toNat_natCast, List.length_append, List.length_cons]
        omega
      · exact inside start later
    · rw [List.map_cons, lines, lineAt_length clean, fileLines_append_newline first rest clean]

theorem findOffsets_terminated (fuel : Nat) (read rest line : List Char)
    (offsets : List Index) (ends : EndsWithNewline rest) (enough : rest.length + 2 ≤ fuel) :
    ∃ file last found, findOffsets fuel (reading read rest) line offsets =
        some (file, last, found) ∧ Scanned read rest offsets file found := by
  induction fuel generalizing read rest line offsets with
  | zero => omega
  | succ fuel ih =>
      have newline : '\n' ∈ rest := List.mem_of_getLast? ends
      rcases List.eq_append_cons_of_mem newline with ⟨first, after, rfl, clean⟩
      rw [scan_newline clean]
      simp only [List.length_append, List.length_cons] at enough
      cases after with
      | nil =>
          cases fuel with
          | zero => omega
          | succ fuel =>
              refine ⟨_, first, _, rfl, ?_⟩
              apply Scanned.extend clean
              constructor
              · rfl
              · rfl
              · exact ⟨[], by rw [List.append_nil], by simp, by rw [fileLines_nil, List.map_nil]⟩
      | cons char after =>
          rw [peek_reading_cons]
          have remaining : EndsWithNewline (char :: after) :=
            (endsWithNewline_append (List.cons_ne_nil char after)).mp ends
          rcases ih (read ++ first ++ ['\n']) (char :: after) first
            (offsets ++ [(read.length : Int)]) remaining
            (by simp only [List.length_cons] at enough ⊢; omega)
            with ⟨file, last, found, ran, scanned⟩
          exact ⟨file, last, found, ran, scanned.extend clean⟩

/-- Without a final newline the stream has failed, and the line is the last one. -/
theorem findOffsets_unterminated (fuel : Nat) (read rest line : List Char)
    (offsets : List Index) (unended : ¬ EndsWithNewline rest) (enough : rest.length + 2 ≤ fuel) :
    ∃ file last starts, findOffsets fuel (reading read rest) line offsets =
        some (file, last, offsets ++ starts) ∧
      file.reader.failbit = true ∧ (linesOf rest).getLast? = some last ∧
      starts.length = (linesOf rest).length := by
  induction fuel generalizing read rest line offsets with
  | zero => omega
  | succ fuel ih =>
      by_cases newline : '\n' ∈ rest
      · rcases List.eq_append_cons_of_mem newline with ⟨first, after, rfl, clean⟩
        rw [scan_newline clean]
        simp only [List.length_append, List.length_cons] at enough
        have present : after ≠ [] := by
          rintro rfl
          exact unended (by simp [EndsWithNewline])
        rcases List.exists_cons_of_ne_nil present with ⟨char, others, rfl⟩
        rw [peek_reading_cons]
        have remaining : ¬ EndsWithNewline (char :: others) := by
          rwa [endsWithNewline_append present] at unended
        rcases ih (read ++ first ++ ['\n']) (char :: others) first
          (offsets ++ [(read.length : Int)]) remaining
          (by simp only [List.length_cons] at enough ⊢; omega)
          with ⟨file, last, starts, ran, failed, lastLine, counted⟩
        refine ⟨file, last, (read.length : Int) :: starts, ?_, failed, ?_, ?_⟩
        · rw [ran, List.append_assoc, List.singleton_append]
        · rw [linesOf_append_newline first _ clean,
            List.getLast?_cons_of_ne_nil (linesOf_ne_nil _), lastLine]
        · rw [linesOf_append_newline first _ clean, List.length_cons, List.length_cons, counted]
      · cases fuel with
        | zero => omega
        | succ fuel =>
            rcases scan_last newline fuel read line offsets with ⟨file, failed, ran⟩
            refine ⟨file, rest, [(read.length : Int)], ran, failed, ?_, ?_⟩
            · rw [linesOf_of_noNewline newline, List.getLast?_singleton]
            · rw [linesOf_of_noNewline newline, List.length_singleton, List.length_singleton]

theorem printLines_usable (file : FileStream) (line : List Char) (offsets : List Index)
    (usable : file.reader.fail = false)
    (inside : ∀ offset ∈ offsets, offset.toNat < file.content.length) :
    printLines file line offsets = offsets.map (lineAt file.content) := by
  induction offsets generalizing file line with
  | nil => rfl
  | cons offset offsets ih =>
      have kept : ((file.seekg offset).getline line).2.content = file.content := by
        rw [getline_content, seekg_content]
      have still := getline_seekg_usable file offset line usable
        (inside offset List.mem_cons_self)
      have rest := ih ((file.seekg offset).getline line).2 ((file.seekg offset).getline line).1
        still (by
          intro other member
          rw [kept]
          exact inside other (List.mem_cons_of_mem offset member))
      rw [printLines, rest, kept, getline_seekg file offset line usable, List.map_cons]

theorem printLines_failed (file : FileStream) (line : List Char) (offsets : List Index)
    (failed : file.reader.failbit = true) :
    printLines file line offsets = List.replicate offsets.length line := by
  induction offsets generalizing file line with
  | nil => rfl
  | cons offset offsets ih =>
      rcases getline_seekg_failed file offset line failed with ⟨unchanged, still⟩
      rw [printLines, ih _ _ still, unchanged, List.length_cons, List.replicate_succ]

theorem main_terminated (random_shuffle : RandomShuffle) (content : List Char)
    (ends : EndsWithNewline content) :
    ∃ printed, main random_shuffle content = some printed ∧ printed.Perm (fileLines content) := by
  rcases findOffsets_terminated (content.length + 2) [] content [] [] ends (Nat.le_refl _)
    with ⟨file, last, found, ran, scanned⟩
  rcases scanned.lines with ⟨starts, split, inside, lines⟩
  rw [List.nil_append] at split inside lines
  subst found
  have shuffled := random_shuffle.perm starts
  have printed := printLines_usable file last (random_shuffle.shuffle starts) scanned.usable (by
    intro offset member
    rw [scanned.content]
    exact inside offset (shuffled.mem_iff.mp member))
  rw [scanned.content, List.nil_append] at printed
  refine ⟨printLines file last (random_shuffle.shuffle starts), ?_, ?_⟩
  · rw [main, opened_eq_reading, ran]
  · rw [printed, ← lines]
    exact shuffled.map _

theorem main_unterminated (random_shuffle : RandomShuffle) (content : List Char)
    (unended : ¬ EndsWithNewline content) :
    ∃ last, main random_shuffle content =
        some (List.replicate (linesOf content).length last) ∧
      (linesOf content).getLast? = some last := by
  rcases findOffsets_unterminated (content.length + 2) [] content [] [] unended (Nat.le_refl _)
    with ⟨file, last, starts, ran, failed, lastLine, counted⟩
  refine ⟨last, ?_, lastLine⟩
  rw [main, opened_eq_reading, ran, List.nil_append]
  simp only [printLines_failed file last _ failed, (random_shuffle.perm starts).length_eq, counted]

theorem fileLines_unterminated {content : List Char} (present : content ≠ [])
    (unended : ¬ EndsWithNewline content) : fileLines content = linesOf content := by
  by_cases newline : '\n' ∈ content
  · rcases List.eq_append_cons_of_mem newline with ⟨first, after, rfl, clean⟩
    have remains : after ≠ [] := by
      rintro rfl
      exact unended (by simp [EndsWithNewline])
    rw [endsWithNewline_append remains] at unended
    rw [fileLines_append_newline first after clean, linesOf_append_newline first after clean,
      fileLines_unterminated remains unended]
  · rw [fileLines_of_noNewline newline present, linesOf_of_noNewline newline]
termination_by content.length

/-- The lines written are the lines of the file, in some order, exactly when the
file is not empty and either ends with a newline or repeats one line. -/
theorem main_permutes_iff (random_shuffle : RandomShuffle) (content : List Char) :
    ∃ printed, main random_shuffle content = some printed ∧
      (printed.Perm (fileLines content) ↔
        content ≠ [] ∧
          (EndsWithNewline content ∨
            ∀ first ∈ fileLines content, ∀ second ∈ fileLines content, first = second)) := by
  by_cases ends : EndsWithNewline content
  · rcases main_terminated random_shuffle content ends with ⟨printed, ran, perm⟩
    refine ⟨printed, ran, fun _ => ⟨?_, Or.inl ends⟩, fun _ => perm⟩
    rintro rfl
    simp [EndsWithNewline] at ends
  · rcases main_unterminated random_shuffle content ends with ⟨last, ran, lastLine⟩
    refine ⟨_, ran, ?_⟩
    by_cases present : content = []
    · subst present
      simp [fileLines, linesOf]
    · rw [fileLines_unterminated present ends]
      have member : last ∈ linesOf content := List.mem_of_getLast? lastLine
      constructor
      · intro perm
        refine ⟨present, Or.inr ?_⟩
        have allLast : ∀ line ∈ linesOf content, line = last := by
          intro line inLines
          exact List.eq_of_mem_replicate (perm.symm.mem_iff.mp inLines)
        intro first inFirst second inSecond
        rw [allLast first inFirst, allLast second inSecond]
      · rintro ⟨-, ended | same⟩
        · exact absurd ended ends
        · have repeated : linesOf content = List.replicate (linesOf content).length last :=
            List.eq_replicate_iff.mpr ⟨rfl, fun line inLines => same line inLines last member⟩
          rw [← repeated]

def keepOrder : RandomShuffle :=
  { shuffle := id
    perm := List.Perm.refl }

theorem main_unterminated_repeatsLast :
    main keepOrder ['a', '\n', 'b'] = some [['b'], ['b']] ∧
      ¬ [['b'], ['b']].Perm (fileLines ['a', '\n', 'b']) := by
  constructor
  · decide
  · decide

end Shuffling
