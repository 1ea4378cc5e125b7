/-
The arguments of a submitted job.

Both quotes of an argument are doubled, the argument is put between single quotes, and the
whole value between double quotes.  The value is read up to the end of its line, so an
argument with a line break is cut there.
-/

import DataSelection.Library.Doubling
import DataSelection.Library.Tokens
import Mathlib.Data.List.Infix

namespace Submitting

open Library

abbrev Argument := List Char

structure Job where
  command : Argument
  arguments : List Argument
  errorfile : Option (List Char)
  outputfile : Option (List Char)

/-- With one file for both streams the command becomes an argument of a wrapper script. -/
def Job.passedArguments (job : Job) : List Argument :=
  if job.outputfile = job.errorfile then job.command :: job.arguments else job.arguments

def header : List Char := "Arguments = ".toList

/-- `arg.replace('"','""')` and then `arg.replace("'","''")`, between single quotes. -/
def writeArgument (arg : Argument) : List Char :=
  '\'' :: (double '\'' (double '"' arg) ++ ['\'', ' '])

/-- The entry of the job file; there is none for an empty list. -/
def argumentsEntry (arguments : List Argument) : List Char :=
  if arguments.length > 0 then
    header ++ '"' :: (arguments.flatMap writeArgument ++ ['"', '\n'])
  else []

def Job.argumentsEntry (job : Job) : List Char := Submitting.argumentsEntry job.passedArguments

/-! ### The syntax of the submit command -/

def isBlank (char : Char) : Bool := char = ' ' || char = '\t'

/-- Arguments are separated by blanks outside single quotes.  The current argument is `none`
between two of them. -/
def readArguments : Option Argument → Bool → List Char → Option (List Argument)
  | current, false, [] => some current.toList
  | _, true, [] => none
  | current, false, char :: rest =>
      if isBlank char then (readArguments none false rest).map (current.toList ++ ·)
      else if char = '\'' then readArguments (some (current.getD [])) true rest
      else readArguments (some (current.getD [] ++ [char])) false rest
  | current, true, '\'' :: '\'' :: rest =>
      readArguments (some (current.getD [] ++ ['\''])) true rest
  | current, true, char :: rest =>
      if char = '\'' then readArguments current false rest
      else readArguments (some (current.getD [] ++ [char])) true rest

/-- A value between double quotes, to the end of the line. -/
def readValue : List Char → Option (List Argument)
  | '"' :: quoted =>
      match readDoubled '"' quoted with
      | some (value, []) => readArguments none false value
      | _ => none
  | _ => none

/-- One submit command per line; without the command there are no arguments. -/
def readEntry (entry : List Char) : Option (List Argument) :=
  if entry = [] then some []
  else ((entry.takeWhile (· ≠ '\n')).dropPrefix? header).bind readValue

/-! ### Arguments between single quotes -/

def quoteArgument (arg : Argument) : List Char := '\'' :: (double '\'' arg ++ ['\'', ' '])

theorem writeArgument_eq (arg : Argument) : writeArgument arg = double '"' (quoteArgument arg) := by
  have closing : double '"' ['\'', ' '] = ['\'', ' '] := by decide
  rw [writeArgument, quoteArgument, double_cons_of_ne (by decide), double_append, closing,
    double_comm (by decide : '"' ≠ '\'')]

theorem flatMap_writeArgument (arguments : List Argument) :
    arguments.flatMap writeArgument = double '"' (arguments.flatMap quoteArgument) := by
  induction arguments with
  | nil => rfl
  | cons arg arguments ih =>
      rw [List.flatMap_cons, List.flatMap_cons, ih, writeArgument_eq, double_append]

theorem newline_mem_flatMap {arguments : List Argument} :
    '\n' ∈ arguments.flatMap quoteArgument ↔ ∃ arg ∈ arguments, '\n' ∈ arg := by
  rw [List.mem_flatMap]
  constructor
  · rintro ⟨arg, member, inside⟩
    refine ⟨arg, member, ?_⟩
    rcases List.mem_cons.mp inside with impossible | later
    · exact absurd impossible (by decide)
    · rcases List.mem_append.mp later with doubled | closing
      · exact mem_double.mp doubled
      · exact absurd closing (by decide)
  · rintro ⟨arg, member, inside⟩
    exact ⟨arg, member, List.mem_cons_of_mem _ (List.mem_append_left _ (mem_double.mpr inside))⟩

theorem readArguments_char {char : Char} (different : char ≠ '\'') (current : Option Argument)
    (rest : List Char) : readArguments current true (char :: rest) =
      readArguments (some (current.getD [] ++ [char])) true rest := by
  rw [readArguments, if_neg different]
  intro others isQuote
  exact absurd isQuote different

theorem readArguments_double (read arg : Argument) (rest : List Char) :
    readArguments (some read) true (double '\'' arg ++ '\'' :: ' ' :: rest) =
      (readArguments none false rest).map ([read ++ arg] ++ ·) := by
  induction arg generalizing read with
  | nil =>
      rw [List.append_nil]
      change readArguments (some read) true ('\'' :: ' ' :: rest) = _
      rw [readArguments, if_pos rfl, readArguments, if_pos (by decide)]
      · rfl
      · intro others _ impossible
        exact absurd (List.cons.inj impossible).1 (by decide)
  | cons char arg ih =>
      have grown : read ++ char :: arg = read ++ [char] ++ arg := by
        rw [List.append_assoc, List.singleton_append]
      rw [grown]
      by_cases isQuote : char = '\''
      · subst isQuote
        rw [double_cons_self, List.cons_append, List.cons_append, readArguments]
        exact ih (read ++ ['\''])
      · rw [double_cons_of_ne isQuote, List.cons_append, readArguments_char isQuote]
        exact ih (read ++ [char])

theorem readArguments_flatMap (arguments : List Argument) :
    readArguments none false (arguments.flatMap quoteArgument) = some arguments := by
  induction arguments with
  | nil => rfl
  | cons arg arguments ih =>
      have shape : (arg :: arguments).flatMap quoteArgument =
          '\'' :: (double '\'' arg ++ '\'' :: ' ' :: arguments.flatMap quoteArgument) := by
        rw [List.flatMap_cons, quoteArgument, List.cons_append, List.append_assoc]
        rfl
      have opened := readArguments_double [] arg (arguments.flatMap quoteArgument)
      rw [ih] at opened
      rw [shape, readArguments, if_neg (by decide), if_pos rfl]
      exact opened

/-! ### The line of the entry -/

theorem argumentsEntry_of_ne {arguments : List Argument} (filled : arguments ≠ []) :
    argumentsEntry arguments =
      header ++ '"' :: (double '"' (arguments.flatMap quoteArgument) ++ ['"', '\n']) := by
  rw [argumentsEntry, if_pos (List.length_pos_of_ne_nil filled), flatMap_writeArgument]

theorem readEntry_of_line {entry line rest : List Char} (clean : '\n' ∉ line)
    (isEntry : entry = header ++ '"' :: (line ++ '\n' :: rest)) :
    readEntry entry = readValue ('"' :: line) := by
  have absent : '\n' ∉ header ++ '"' :: line := by
    intro member
    rcases List.mem_append.mp member with inHeader | later
    · revert inHeader
      decide
    · rcases List.mem_cons.mp later with impossible | inLine
      · exact absurd impossible (by decide)
      · exact clean inLine
  have shape : entry = (header ++ '"' :: line) ++ '\n' :: rest := by
    rw [isEntry, List.append_assoc, List.cons_append]
  have cut : entry.takeWhile (· ≠ '\n') = header ++ '"' :: line := by
    rw [shape, takeWhile_of_absent absent]
  have filled : entry ≠ [] := by
    rw [isEntry]
    exact List.append_ne_nil_of_left_ne_nil (by decide) _
  rw [readEntry, if_neg filled, cut, List.dropPrefix?_append_of_beq _ (beq_self_eq_true header)]
  rfl

theorem readEntry_clean {arguments : List Argument} (filled : arguments ≠ [])
    (clean : ∀ arg ∈ arguments, '\n' ∉ arg) :
    readEntry (argumentsEntry arguments) = some arguments := by
  have cleanLine : '\n' ∉ double '"' (arguments.flatMap quoteArgument) ++ ['"'] := by
    intro member
    rcases List.mem_append.mp member with inside | closing
    · rcases newline_mem_flatMap.mp (mem_double.mp inside) with ⟨arg, inArguments, present⟩
      exact clean arg inArguments present
    · exact absurd closing (by decide)
  have isEntry : argumentsEntry arguments =
      header ++ '"' :: (double '"' (arguments.flatMap quoteArgument) ++ ['"'] ++ '\n' :: []) := by
    rw [argumentsEntry_of_ne filled, List.append_assoc]
    rfl
  rw [readEntry_of_line cleanLine isEntry, readValue,
    readDoubled_double (arguments.flatMap quoteArgument) (by decide)]
  exact readArguments_flatMap arguments

/-- With a line break in an argument the line ends before the closing quote. -/
theorem readEntry_broken {arguments : List Argument} {arg : Argument} (member : arg ∈ arguments)
    (broken : '\n' ∈ arg) : readEntry (argumentsEntry arguments) = none := by
  have inside := newline_mem_flatMap.mpr ⟨arg, member, broken⟩
  rcases List.eq_append_cons_of_mem inside with ⟨front, back, split, clean⟩
  have cleanFront : '\n' ∉ double '"' front := fun present => clean (mem_double.mp present)
  have isEntry : argumentsEntry arguments =
      header ++ '"' :: (double '"' front ++ '\n' :: (double '"' back ++ ['"', '\n'])) := by
    rw [argumentsEntry_of_ne (List.ne_nil_of_mem member), split, double_append,
      double_cons_of_ne (by decide), List.append_assoc, List.cons_append]
  rw [readEntry_of_line cleanFront isEntry, readValue, readDoubled_unclosed]

/-- The arguments reach the command exactly when none of them has a line break. -/
theorem argumentsEntry_readsBack_iff (job : Job) :
    readEntry job.argumentsEntry = some job.passedArguments ↔
      ∀ arg ∈ job.passedArguments, '\n' ∉ arg := by
  unfold Job.argumentsEntry
  constructor
  · intro readBack arg member broken
    rw [readEntry_broken member broken] at readBack
    cases readBack
  · intro clean
    by_cases empty : job.passedArguments = []
    · rw [empty]
      rfl
    · exact readEntry_clean empty clean

example : readEntry (argumentsEntry ["a b".toList, "".toList, "it's \"x\"".toList, "'".toList]) =
    some ["a b".toList, "".toList, "it's \"x\"".toList, "'".toList] := by decide

def brokenJob : Job :=
  { command := "run".toList
    arguments := ["a\nb".toList]
    errorfile := none
    outputfile := some "out".toList }

theorem lineBreak_lost :
    brokenJob.passedArguments = ["a\nb".toList] ∧
      readEntry brokenJob.argumentsEntry ≠ some brokenJob.passedArguments := by
  decide

end Submitting
