/-
Input streams of files that may not open, or fail while they are read.

A failed open sets failbit and a failed read sets badbit.  Neither sets eofbit, so a loop
that waits for eofbit alone never ends on such a stream.
-/

import DataSelection.Library.FileStream

namespace Library

/-- What a file name stands for. -/
inductive NamedFile
  | readable (content : List Char)
  | unopenable
  /-- Reading fails behind the given text. -/
  | failing (content : List Char)
  deriving DecidableEq

def NamedFile.Readable : NamedFile → Prop
  | .readable _ => True
  | .unopenable => False
  | .failing _ => False

instance (file : NamedFile) : Decidable file.Readable :=
  match file with
  | .readable _ => isTrue trivial
  | .unopenable => isFalse id
  | .failing _ => isFalse id

structure DeviceStream where
  file : FileStream
  /-- Whether the end of the text is a failure of the device. -/
  fails : Bool
  deriving DecidableEq

namespace DeviceStream

def opened : NamedFile → DeviceStream
  | .readable content => { file := FileStream.opened content, fails := false }
  | .unopenable =>
      { file :=
          { content := []
            reader := { unread := [], eofbit := false, failbit := true, badbit := false } }
        fails := false }
  | .failing content => { file := FileStream.opened content, fails := true }

def eof (stream : DeviceStream) : Bool := stream.file.eof

/-- A read that reaches the failure stores the text before it, and sets badbit. -/
def getline (stream : DeviceStream) (line : List Char) : List Char × DeviceStream :=
  let reader := stream.file.reader
  if stream.fails && reader.good && !reader.unread.elem '\n' then
    (reader.unread,
      { stream with
        file :=
          { stream.file with
            reader :=
              { unread := []
                eofbit := false
                failbit := reader.unread.isEmpty
                badbit := true } } })
  else
    let next := stream.file.getline line
    (next.1, { stream with file := next.2 })

def peek (stream : DeviceStream) : DeviceStream :=
  let reader := stream.file.reader
  if stream.fails && reader.good && reader.unread.isEmpty then
    { stream with file := { stream.file with reader := { reader with badbit := true } } }
  else { stream with file := stream.file.peek }

def tellg (stream : DeviceStream) : Int × DeviceStream :=
  let told := stream.file.tellg
  (told.1, { stream with file := told.2 })

/-- The loop `while (!stream.eof()) { getline(stream, line); body }`. -/
def eofLoop {σ : Type} (body : List Char → σ → σ) :
    Nat → DeviceStream → List Char → σ → Option σ
  | 0, _, _, _ => none
  | fuel + 1, stream, line, state =>
      if stream.eof then some state
      else
        let next := stream.getline line
        eofLoop body fuel next.2 next.1 (body next.1 state)

/-! ### Readable files -/

/-- The stream of a file that does not fail. -/
def reliable (file : FileStream) : DeviceStream := { file := file, fails := false }

theorem opened_readable (content : List Char) :
    opened (.readable content) = reliable (FileStream.opened content) := rfl

theorem getline_reliable (file : FileStream) (line : List Char) :
    (reliable file).getline line = ((file.getline line).1, reliable (file.getline line).2) := rfl

theorem eofLoop_reliable {σ : Type} (body : List Char → σ → σ) (fuel : Nat) (file : FileStream)
    (line : List Char) (state : σ) :
    eofLoop body fuel (reliable file) line state =
      IFStream.eofLoop body fuel file.reader line state := by
  induction fuel generalizing file line state with
  | zero => rfl
  | succ fuel ih =>
      rw [eofLoop, IFStream.eofLoop, getline_reliable, ih]
      rfl

/-! ### Streams that never reach their end -/

/-- A stream that has failed, or is going to fail before its end. -/
structure Stuck (stream : DeviceStream) : Prop where
  noEof : stream.file.reader.eofbit = false
  fails : stream.file.reader.good = true → stream.fails = true

theorem stuck_opened {file : NamedFile} (unreadable : ¬ file.Readable) : Stuck (opened file) := by
  cases file with
  | readable content => exact absurd trivial unreadable
  | unopenable => exact ⟨rfl, fun impossible => absurd impossible (by decide)⟩
  | failing content => exact ⟨rfl, fun _ => rfl⟩

theorem stuck_of_notGood {stream : DeviceStream} (noEof : stream.file.reader.eofbit = false)
    (failed : stream.file.reader.good = false) : Stuck stream := by
  constructor
  · exact noEof
  · intro good
    rw [failed] at good
    cases good

theorem Stuck.eof {stream : DeviceStream} (stuck : Stuck stream) : stream.eof = false := stuck.noEof

theorem flags_getline {reader : IFStream} (good : reader.good = true)
    (newline : '\n' ∈ reader.unread) (line : List Char) :
    (reader.getline line).2.eofbit = reader.eofbit := by
  unfold IFStream.getline
  rw [if_pos good]
  cases ahead : reader.unread.dropWhile (· ≠ '\n') with
  | nil =>
      have passed := List.dropWhile_eq_nil_iff.mp ahead '\n' newline
      exact absurd passed (by decide)
  | cons char rest => rfl

theorem Stuck.getline {stream : DeviceStream} (stuck : Stuck stream) (line : List Char) :
    Stuck (stream.getline line).2 := by
  rcases stream with ⟨⟨content, reader⟩, fails⟩
  rcases stuck with ⟨noEof, fails_of_good⟩
  dsimp only at noEof fails_of_good
  unfold DeviceStream.getline
  by_cases good : reader.good = true
  · have failing : fails = true := fails_of_good good
    subst failing
    by_cases newline : '\n' ∈ reader.unread
    · simp only [good, List.elem_eq_mem, newline, decide_true, Bool.not_true, Bool.and_false,
        Bool.false_eq_true, if_false, FileStream.getline]
      constructor
      · rw [flags_getline good newline, noEof]
      · intro _
        rfl
    · simp only [good, List.elem_eq_mem, newline, decide_false, Bool.not_false, Bool.and_true,
        if_true]
      exact stuck_of_notGood rfl (by simp [IFStream.good])
  · simp only [good, Bool.and_false, Bool.false_and, Bool.false_eq_true, if_false,
      FileStream.getline, IFStream.getline]
    exact stuck_of_notGood noEof (by simp [IFStream.good])

theorem Stuck.peek {stream : DeviceStream} (stuck : Stuck stream) : Stuck stream.peek := by
  rcases stream with ⟨⟨content, reader⟩, fails⟩
  rcases stuck with ⟨noEof, fails_of_good⟩
  dsimp only at noEof fails_of_good
  unfold DeviceStream.peek
  by_cases good : reader.good = true
  · have failing : fails = true := fails_of_good good
    subst failing
    by_cases atEnd : reader.unread.isEmpty = true
    · simp only [good, atEnd, Bool.and_self, if_true]
      exact stuck_of_notGood noEof (by simp [IFStream.good])
    · have ahead : reader.unread ≠ [] := by
        simpa only [List.isEmpty_iff] using atEnd
      rcases List.exists_cons_of_ne_nil ahead with ⟨char, rest, split⟩
      simp only [good, FileStream.peek, IFStream.peek, if_true, split]
      exact ⟨noEof, fun _ => rfl⟩
  · simp only [good, Bool.and_false, Bool.false_and, Bool.false_eq_true, if_false,
      FileStream.peek, IFStream.peek]
    exact stuck_of_notGood noEof (by simp [IFStream.good])

theorem Stuck.tellg {stream : DeviceStream} (stuck : Stuck stream) : Stuck stream.tellg.2 := by
  rcases stream with ⟨⟨content, reader⟩, fails⟩
  rcases stuck with ⟨noEof, fails_of_good⟩
  dsimp only at noEof fails_of_good
  by_cases good : reader.good = true
  · simp only [DeviceStream.tellg, FileStream.tellg, good, if_true]
    exact ⟨noEof, fails_of_good⟩
  · simp only [DeviceStream.tellg, FileStream.tellg, good, Bool.false_eq_true, if_false]
    exact stuck_of_notGood noEof (by simp [IFStream.good])

theorem Stuck.eofLoop {σ : Type} {stream : DeviceStream} (stuck : Stuck stream)
    (body : List Char → σ → σ) (fuel : Nat) (line : List Char) (state : σ) :
    DeviceStream.eofLoop body fuel stream line state = none := by
  induction fuel generalizing stream line state with
  | zero => rfl
  | succ fuel ih =>
      rw [DeviceStream.eofLoop, stuck.eof]
      exact ih (stuck.getline line) _ _

end DeviceStream

end Library
