/-
A file stream that can be repositioned.

The stream keeps the text of its file beside the unread part, so that a position
is the number of characters already read.  A failed stream stays where it is.
-/

import DataSelection.Library.InputStream

namespace Library

namespace IFStream

/-- `peek` on a stream that is not good only sets failbit; at the end of the text
it sets eofbit. -/
def peek (stream : IFStream) : IFStream :=
  if stream.good then
    match stream.unread with
    | [] => { stream with eofbit := true }
    | _ :: _ => stream
  else { stream with failbit := true }

def fail (stream : IFStream) : Bool :=
  stream.failbit || stream.badbit

end IFStream

structure FileStream where
  content : List Char
  reader : IFStream
  deriving DecidableEq

namespace FileStream

def opened (content : List Char) : FileStream :=
  { content := content
    reader := IFStream.opened content }

def eof (file : FileStream) : Bool :=
  file.reader.eofbit

/-- The position, or -1 on a failed stream; a stream that is not good fails. -/
def tellg (file : FileStream) : Int × FileStream :=
  if file.reader.good then
    (file.content.length - file.reader.unread.length, file)
  else (-1, { file with reader := { file.reader with failbit := true } })

/-- `seekg` clears eofbit, and moves a stream that has not failed. -/
def seekg (file : FileStream) (offset : Int) : FileStream :=
  if file.reader.fail then
    { file with reader := { file.reader with eofbit := false } }
  else
    { file with
      reader :=
        { file.reader with
          unread := file.content.drop offset.toNat
          eofbit := false } }

def getline (file : FileStream) (line : List Char) : List Char × FileStream :=
  let next := file.reader.getline line
  (next.1, { file with reader := next.2 })

def peek (file : FileStream) : FileStream :=
  { file with reader := file.reader.peek }

/-- A stream over `read ++ rest` that has read `read` without trouble. -/
def reading (read rest : List Char) : FileStream :=
  { content := read ++ rest
    reader := IFStream.opened rest }

theorem opened_eq_reading (content : List Char) : opened content = reading [] content := rfl

@[simp] theorem reading_eof (read rest : List Char) : (reading read rest).eof = false := rfl

@[simp] theorem tellg_reading (read rest : List Char) :
    (reading read rest).tellg = ((read.length : Int), reading read rest) := by
  have position : (((read ++ rest).length : Int) - rest.length) = read.length := by
    rw [List.length_append]
    omega
  simp only [tellg, reading, IFStream.opened, IFStream.good, Bool.not_false, Bool.and_self,
    if_true, position]

theorem getline_reading_newline {first : List Char} (clean : '\n' ∉ first)
    (read rest line : List Char) :
    (reading read (first ++ '\n' :: rest)).getline line =
      (first, reading (read ++ first ++ ['\n']) rest) := by
  simp only [getline, reading, IFStream.getline_opened_newline clean, List.append_assoc,
    List.singleton_append]

theorem getline_reading_last {rest : List Char} (clean : '\n' ∉ rest) (read line : List Char) :
    (reading read rest).getline line =
      (rest,
        { content := read ++ rest
          reader :=
            { unread := []
              eofbit := true
              failbit := rest.isEmpty
              badbit := false } }) := by
  simp only [getline, reading, IFStream.getline_opened_last clean]

theorem peek_reading_cons (read : List Char) (char : Char) (rest : List Char) :
    (reading read (char :: rest)).peek = reading read (char :: rest) := rfl

/-- The text from an offset up to the next newline. -/
def lineAt (content : List Char) (offset : Int) : List Char :=
  (content.drop offset.toNat).takeWhile (· ≠ '\n')

theorem lineAt_length {first : List Char} (clean : '\n' ∉ first) (read rest : List Char) :
    lineAt (read ++ (first ++ '\n' :: rest)) (read.length : Int) = first := by
  simp only [lineAt, Int.toNat_natCast, List.drop_left]
  exact takeWhile_of_absent clean rest

theorem seekg_reader {file : FileStream} (offset : Int) (usable : file.reader.fail = false) :
    (file.seekg offset).reader = IFStream.opened (file.content.drop offset.toNat) := by
  have flags : file.reader.failbit = false ∧ file.reader.badbit = false := by
    simpa [IFStream.fail] using usable
  simp [seekg, usable, IFStream.opened, flags]

theorem getline_content (file : FileStream) (line : List Char) :
    (file.getline line).2.content = file.content := rfl

theorem seekg_content (file : FileStream) (offset : Int) :
    (file.seekg offset).content = file.content := by
  unfold seekg
  split <;> rfl

theorem getline_seekg (file : FileStream) (offset : Int) (line : List Char)
    (usable : file.reader.fail = false) :
    ((file.seekg offset).getline line).1 = lineAt file.content offset := by
  simp only [getline, seekg_reader offset usable, lineAt]
  by_cases newline : '\n' ∈ file.content.drop offset.toNat
  · rcases List.eq_append_cons_of_mem newline with ⟨first, rest, split, clean⟩
    rw [split, IFStream.getline_opened_newline clean, takeWhile_of_absent clean]
  · rw [IFStream.getline_opened_last newline,
      List.takeWhile_eq_self_iff.mpr (passes_of_absent newline)]

theorem getline_seekg_usable (file : FileStream) (offset : Int) (line : List Char)
    (usable : file.reader.fail = false) (inside : offset.toNat < file.content.length) :
    ((file.seekg offset).getline line).2.reader.fail = false := by
  simp only [getline, seekg_reader offset usable]
  by_cases newline : '\n' ∈ file.content.drop offset.toNat
  · rcases List.eq_append_cons_of_mem newline with ⟨first, rest, split, clean⟩
    rw [split, IFStream.getline_opened_newline clean]
    rfl
  · rw [IFStream.getline_opened_last newline]
    simp only [IFStream.fail, Bool.or_false, List.isEmpty_eq_false_iff, ne_eq,
      List.drop_eq_nil_iff]
    omega

theorem getline_seekg_failed (file : FileStream) (offset : Int) (line : List Char)
    (failed : file.reader.failbit = true) :
    ((file.seekg offset).getline line).1 = line ∧
      ((file.seekg offset).getline line).2.reader.failbit = true := by
  simp [seekg, IFStream.fail, failed, getline, IFStream.getline, IFStream.good]

end FileStream

/-- The lines of a text file: a newline ends a line, and the text after the last
newline is a line only when it is not empty. -/
def fileLines (content : List Char) : List (List Char) :=
  if (linesOf content).getLast? = some [] then (linesOf content).dropLast
  else linesOf content

theorem fileLines_nil : fileLines [] = [] := rfl

theorem fileLines_of_noNewline {content : List Char} (clean : '\n' ∉ content)
    (present : content ≠ []) : fileLines content = [content] := by
  simp [fileLines, linesOf_of_noNewline clean, present]

theorem fileLines_append_newline (line rest : List Char) (clean : '\n' ∉ line) :
    fileLines (line ++ '\n' :: rest) = line :: fileLines rest := by
  have nonempty := linesOf_ne_nil rest
  simp only [fileLines, linesOf_append_newline line rest clean,
    List.getLast?_cons_of_ne_nil nonempty, List.dropLast_cons_of_ne_nil nonempty]
  split <;> rfl

end Library
