/-
Interpolating trained models.

The lines of every model file from its hidden layer on are stored, and added up position by
position.  The index that decides when the total is cleared and when it is written is that
of the position, where the number of files expects that of the file.
-/

import DataSelection.Library.Loops
import DataSelection.WittenBell.Corpus
import Mathlib.Algebra.BigOperators.Group.List.Basic
import Mathlib.Algebra.Order.Field.Rat

namespace Interpolation

open Library
open WittenBell (readLines)

abbrev Line := List Char

/-- How `str` writes a number. -/
structure FloatText where
  str : ℚ → List Char
  oneLine : ∀ x, '\n' ∉ str x

def withoutNewlines (line : Line) : List Char := line.filter (· ≠ '\n')

/-- The text in front of the place that a dollar sign matches. -/
def beforeEnd (line : Line) : List Char :=
  if line.getLast? = some '\n' then line.dropLast else line

def hidden_layer_re (line : Line) : Bool := beforeEnd line = "Hidden layer activation:".toList

def unsigned (number : List Char) : List Char :=
  if number.head? = some '-' then number.tail else number

def wholeDigits (number : List Char) : List Char := (unsigned number).takeWhile Char.isDigit

/-- The text behind the digits of the whole part. -/
def fractionText (number : List Char) : List Char := (unsigned number).dropWhile Char.isDigit

/-- A minus sign may come first, and a point with digits behind the digits. -/
def number_line_re (line : Line) : Bool :=
  let number := beforeEnd line
  !(wholeDigits number).isEmpty &&
    match fractionText number with
    | [] => true
    | point :: digits => point == '.' && !digits.isEmpty && digits.all Char.isDigit

/-- The value of a text that `number_line_re` matches. -/
def float (number : List Char) : ℚ :=
  let fraction := (fractionText number).tail
  let size : ℚ := (Nat.ofDigitChars 10 (wholeDigits number ++ fraction) 0 : ℚ) /
    10 ^ fraction.length
  if number.head? = some '-' then -size else size

/-! ### Reading the model files -/

structure Collected where
  outfile : List Char
  start : Bool
  stored : List Line

def readLine (first : Bool) (collected : Collected) (line : Line) : Collected :=
  let outfile :=
    if first then collected.outfile ++ (withoutNewlines line ++ ['\n']) else collected.outfile
  let start := collected.start || hidden_layer_re line
  { outfile := outfile
    start := start
    stored := if start then collected.stored ++ [line] else collected.stored }

def modelLines (file : List Char) : List Line := readLines file.length file

/-- The output so far, and the stored lines of each file. -/
def readFiles : Nat → List Char → List (List Char) → List Char × List (List Line)
  | _, outfile, [] => (outfile, [])
  | i, outfile, file :: rnnlm_files =>
      let read := (modelLines file).foldl (readLine (i = 0))
        { outfile := outfile, start := false, stored := [] }
      let others := readFiles (i + 1) read.outfile rnnlm_files
      (others.1, read.stored :: others.2)

/-! ### Adding up -/

structure Totals where
  running_total : ℚ
  outfile : List Char

def addLine (floatText : FloatText) (seeds i : Nat) (totals : Totals) (line : Line) : Totals :=
  if number_line_re line then
    -- `i` is the position of the line
    if i = 0 then { totals with running_total := 0 }
    else
      let running_total := totals.running_total + float (withoutNewlines line)
      if i = seeds - 1 then
        { running_total := running_total / seeds
          outfile := totals.outfile ++ (floatText.str (running_total / seeds) ++ ['\n']) }
      else { totals with running_total := running_total }
  else if i = 0 then { totals with outfile := totals.outfile ++ (line ++ ['\n']) }
  else totals

/-- `line_list[i]` raises when the list is too short. -/
def addPosition (floatText : FloatText) (seeds : Nat) (lines : List (List Line))
    (totals : Totals) (i : Nat) : Option Totals :=
  lines.foldlM (fun totals line_list =>
    line_list[i]?.map (addLine floatText seeds i totals)) totals

def interpolate (floatText : FloatText) (rnnlm_files : List (List Char)) : Option (List Char) := do
  let (outfile, lines) := readFiles 0 [] rnnlm_files
  let first ← lines.head?
  let totals ← (List.range first.length).foldlM
    (addPosition floatText rnnlm_files.length lines) { running_total := 0, outfile := outfile }
  some totals.outfile

/-! ### The interpolated model -/

def header (file : List Char) : List Line := (modelLines file).takeWhile (!hidden_layer_re ·)

def activations (file : List Char) : List Line := (modelLines file).dropWhile (!hidden_layer_re ·)

/-- Equally many lines from the hidden layer on, and numbers at the same positions. -/
def SameLayout (files : List (List Char)) : Prop :=
  ∀ left ∈ files, ∀ right ∈ files,
    (activations left).map number_line_re = (activations right).map number_line_re

instance (files : List (List Char)) : Decidable (SameLayout files) :=
  inferInstanceAs (Decidable (∀ left ∈ files, ∀ right ∈ files,
    (activations left).map number_line_re = (activations right).map number_line_re))

def mean (values : List ℚ) : ℚ := values.sum / values.length

def averagedLine (floatText : FloatText) (files : List (List Char)) (first : List Char) (i : Nat) :
    List Char :=
  let line := (activations first).getD i []
  if number_line_re line then
    floatText.str (mean (files.map (fun file =>
      float (withoutNewlines ((activations file).getD i [])))))
  else withoutNewlines line

def writeLines (lines : List (List Char)) : List Char := lines.flatMap (· ++ ['\n'])

def averaged (floatText : FloatText) (files : List (List Char)) : List Char :=
  match files with
  | [] => []
  | first :: _ =>
      writeLines ((header first).map withoutNewlines ++
        (List.range (activations first).length).map (averagedLine floatText files first))

/-! ### What is read -/

theorem foldl_readLine_started (first : Bool) (lines : List Line) (outfile : List Char)
    (stored : List Line) :
    lines.foldl (readLine first) { outfile := outfile, start := true, stored := stored } =
      { outfile := if first then outfile ++ writeLines (lines.map withoutNewlines) else outfile
        start := true
        stored := stored ++ lines } := by
  induction lines generalizing outfile stored with
  | nil => cases first <;> simp [writeLines]
  | cons line lines ih =>
      have step : readLine first { outfile := outfile, start := true, stored := stored } line =
          { outfile := if first then outfile ++ (withoutNewlines line ++ ['\n']) else outfile
            start := true
            stored := stored ++ [line] } := rfl
      rw [List.foldl_cons, step, ih]
      cases first <;> simp [writeLines]

theorem foldl_readLine (first : Bool) (lines : List Line) (outfile : List Char) :
    let read := lines.foldl (readLine first) { outfile := outfile, start := false, stored := [] }
    read.outfile =
        (if first then outfile ++ writeLines (lines.map withoutNewlines) else outfile) ∧
      read.stored = lines.dropWhile (!hidden_layer_re ·) := by
  induction lines generalizing outfile with
  | nil => cases first <;> simp [writeLines]
  | cons line lines ih =>
      have step : readLine first { outfile := outfile, start := false, stored := [] } line =
          { outfile := if first then outfile ++ (withoutNewlines line ++ ['\n']) else outfile
            start := hidden_layer_re line
            stored := if hidden_layer_re line then [line] else [] } := rfl
      rw [List.foldl_cons, step]
      cases hidden : hidden_layer_re line with
      | false =>
          rw [List.dropWhile_cons_of_pos (by rw [hidden]; rfl)]
          have rest := ih (if first then outfile ++ (withoutNewlines line ++ ['\n']) else outfile)
          refine ⟨rest.1.trans ?_, rest.2⟩
          cases first <;> simp [writeLines]
      | true =>
          rw [List.dropWhile_cons_of_neg (by rw [hidden]; decide), if_pos rfl,
            foldl_readLine_started]
          refine ⟨?_, List.singleton_append⟩
          cases first <;> simp [writeLines]

theorem readFiles_later (i : Nat) (outfile : List Char) (files : List (List Char)) :
    readFiles (i + 1) outfile files = (outfile, files.map activations) := by
  induction files generalizing i with
  | nil => rfl
  | cons file files ih =>
      have read := foldl_readLine (decide (i + 1 = 0)) (modelLines file) outfile
      rw [readFiles, read.1, read.2]
      simp only [Nat.add_eq_zero_iff, Nat.one_ne_zero, and_false, decide_false,
        Bool.false_eq_true, if_false, ih, List.map_cons]
      rfl

theorem readFiles_first (first : List Char) (others : List (List Char)) :
    readFiles 0 [] (first :: others) =
      (writeLines ((modelLines first).map withoutNewlines), (first :: others).map activations) := by
  have read := foldl_readLine true (modelLines first) []
  rw [if_pos rfl, List.nil_append] at read
  have start : readFiles 0 [] (first :: others) =
      let read := (modelLines first).foldl (readLine true)
        { outfile := [], start := false, stored := [] }
      let later := readFiles 1 read.outfile others
      (later.1, read.stored :: later.2) := rfl
  rw [start]
  dsimp only
  rw [read.1, read.2, readFiles_later]
  rfl

/-! ### How many lines are written -/

theorem newline_notMem_withoutNewlines (line : Line) : '\n' ∉ withoutNewlines line := by
  simp [withoutNewlines]

theorem count_writeLines {lines : List (List Char)} (clean : ∀ line ∈ lines, '\n' ∉ line) :
    (writeLines lines).count '\n' = lines.length := by
  induction lines with
  | nil => rfl
  | cons line lines ih =>
      have head := List.count_eq_zero_of_not_mem (clean line List.mem_cons_self)
      have rest := ih (fun other member => clean other (List.mem_cons_of_mem line member))
      rw [writeLines, List.flatMap_cons, List.count_append, List.count_append, head]
      rw [writeLines] at rest
      rw [rest, List.count_singleton_self, List.length_cons]
      omega

/-- The newlines that a line of a file adds to the output. -/
def written (seeds i : Nat) (line : Line) : Nat :=
  if number_line_re line then (if i ≠ 0 ∧ i = seeds - 1 then 1 else 0)
  else if i = 0 then line.count '\n' + 1 else 0

def writtenAt (seeds : Nat) (lines : List (List Line)) (i : Nat) : Nat :=
  (lines.map (fun line_list => written seeds i (line_list.getD i []))).sum

theorem writtenAt_append (seeds i : Nat) (lines : List (List Line)) (line_list : List Line) :
    writtenAt seeds (lines ++ [line_list]) i =
      writtenAt seeds lines i + written seeds i (line_list.getD i []) := by
  rw [writtenAt, List.map_append, List.sum_append, List.map_singleton, List.sum_singleton]
  rfl

theorem count_addLine (floatText : FloatText) (seeds i : Nat) (totals : Totals) (line : Line) :
    (addLine floatText seeds i totals line).outfile.count '\n' =
      totals.outfile.count '\n' + written seeds i line := by
  unfold addLine written
  cases number_line_re line with
  | true =>
      by_cases atStart : i = 0
      · simp only [atStart, if_true, ne_eq, not_true, false_and, if_false, Nat.add_zero]
      · by_cases atLast : i = seeds - 1
        · have clean := List.count_eq_zero_of_not_mem
            (floatText.oneLine ((totals.running_total + float (withoutNewlines line)) / seeds))
          rw [if_pos rfl, if_pos rfl, if_neg atStart, if_pos atLast, if_pos ⟨atStart, atLast⟩]
          simp only [List.count_append, clean, List.count_singleton_self, Nat.zero_add]
        · rw [if_pos rfl, if_pos rfl, if_neg atStart, if_neg atLast,
            if_neg (fun both => atLast both.2), Nat.add_zero]
  | false =>
      by_cases atStart : i = 0
      · simp only [Bool.false_eq_true, if_false, if_pos atStart, List.count_append,
          List.count_singleton_self]
      · simp only [Bool.false_eq_true, if_false, if_neg atStart, Nat.add_zero]

theorem count_addPosition (floatText : FloatText) (seeds i : Nat) (lines : List (List Line))
    (totals : Totals) (inside : ∀ line_list ∈ lines, i < line_list.length) :
    ∃ after, addPosition floatText seeds lines totals i = some after ∧
      after.outfile.count '\n' = totals.outfile.count '\n' + writtenAt seeds lines i := by
  refine foldlM_run (fun (done : List (List Line)) (reached : Totals) =>
    reached.outfile.count '\n' = totals.outfile.count '\n' + writtenAt seeds done i) rfl ?_
  intro done line_list reached member counted
  have found : line_list[i]? = some (line_list.getD i []) := by
    rw [List.getD_eq_getElem?_getD, List.getElem?_eq_getElem (inside line_list member),
      Option.getD_some]
  refine ⟨_, by rw [found]; rfl, ?_⟩
  rw [count_addLine, counted, writtenAt_append, Nat.add_assoc]

theorem count_positions (floatText : FloatText) (seeds positions : Nat) (lines : List (List Line))
    (totals : Totals) (inside : ∀ line_list ∈ lines, positions ≤ line_list.length) :
    ∃ after, (List.range positions).foldlM (addPosition floatText seeds lines) totals =
        some after ∧
      after.outfile.count '\n' = totals.outfile.count '\n' +
        ((List.range positions).map (writtenAt seeds lines)).sum := by
  refine foldlM_run (fun (done : List Nat) (reached : Totals) =>
    reached.outfile.count '\n' =
      totals.outfile.count '\n' + (done.map (writtenAt seeds lines)).sum) rfl ?_
  intro done i reached member counted
  have position := List.mem_range.mp member
  rcases count_addPosition floatText seeds i lines reached (fun line_list present =>
    Nat.lt_of_lt_of_le position (inside line_list present)) with ⟨next, stepped, more⟩
  refine ⟨next, stepped, ?_⟩
  rw [more, counted, List.map_append, List.sum_append, List.map_singleton, List.sum_singleton,
    Nat.add_assoc]

theorem SameLayout.length_eq {first : List Char} {others : List (List Char)}
    (layout : SameLayout (first :: others)) {file : List Char} (member : file ∈ first :: others) :
    (activations file).length = (activations first).length := by
  have same := congrArg List.length (layout file member first List.mem_cons_self)
  rwa [List.length_map, List.length_map] at same

theorem count_interpolate (floatText : FloatText) {first : List Char} {others : List (List Char)}
    (layout : SameLayout (first :: others)) :
    ∃ output, interpolate floatText (first :: others) = some output ∧
      output.count '\n' = (modelLines first).length +
        ((List.range (activations first).length).map
          (writtenAt (others.length + 1) ((first :: others).map activations))).sum := by
  have inside : ∀ line_list ∈ (first :: others).map activations,
      (activations first).length ≤ line_list.length := by
    intro line_list member
    rcases List.mem_map.mp member with ⟨file, present, rfl⟩
    exact Nat.le_of_eq (layout.length_eq present).symm
  rcases count_positions floatText (others.length + 1) (activations first).length
    ((first :: others).map activations)
    { running_total := 0, outfile := writeLines ((modelLines first).map withoutNewlines) } inside
    with ⟨after, ran, counted⟩
  refine ⟨after.outfile, ?_, ?_⟩
  · unfold interpolate
    rw [readFiles_first]
    simp only [List.map_cons, List.head?_cons, Option.bind_eq_bind, Option.bind_some,
      List.length_cons]
    rw [List.map_cons] at ran
    rw [ran]
    rfl
  · have copied : (writeLines ((modelLines first).map withoutNewlines)).count '\n' =
        (modelLines first).length := by
      rw [count_writeLines, List.length_map]
      intro line member
      rcases List.mem_map.mp member with ⟨source, _, rfl⟩
      exact newline_notMem_withoutNewlines source
    rw [counted, copied]

theorem clean_averagedLine (floatText : FloatText) (files : List (List Char)) (first : List Char)
    (i : Nat) : '\n' ∉ averagedLine floatText files first i := by
  unfold averagedLine
  dsimp only
  split
  · exact floatText.oneLine _
  · exact newline_notMem_withoutNewlines _

theorem count_averaged (floatText : FloatText) (first : List Char) (others : List (List Char)) :
    (averaged floatText (first :: others)).count '\n' = (modelLines first).length := by
  have parts : (header first).length + (activations first).length = (modelLines first).length := by
    have whole := congrArg List.length
      (List.takeWhile_append_dropWhile (p := (!hidden_layer_re ·)) (l := modelLines first))
    rwa [List.length_append] at whole
  rw [averaged, count_writeLines, List.length_append, List.length_map, List.length_map,
    List.length_range, parts]
  intro line member
  rcases List.mem_append.mp member with inHeader | inPositions
  · rcases List.mem_map.mp inHeader with ⟨source, _, rfl⟩
    exact newline_notMem_withoutNewlines source
  · rcases List.mem_map.mp inPositions with ⟨i, _, rfl⟩
    exact clean_averagedLine floatText _ first i

/-- The line of the hidden layer is no number, and it is written once more for the first file. -/
theorem written_hidden {line : Line} (hidden : hidden_layer_re line = true) (seeds : Nat) :
    1 ≤ written seeds 0 line := by
  have text : beforeEnd line = "Hidden layer activation:".toList := of_decide_eq_true hidden
  have noNumber : number_line_re line = false := by
    rw [number_line_re, text]
    decide
  rw [written, noNumber]
  simp

theorem interpolate_longer (floatText : FloatText) {first : List Char}
    {others : List (List Char)} (layout : SameLayout (first :: others))
    (present : activations first ≠ []) :
    interpolate floatText (first :: others) ≠ some (averaged floatText (first :: others)) := by
  rcases count_interpolate floatText layout with ⟨output, ran, counted⟩
  rcases List.exists_cons_of_ne_nil present with ⟨line, rest, split⟩
  have hidden : hidden_layer_re line = true := by
    have stopped := List.head?_dropWhile_not (!hidden_layer_re ·) (modelLines first)
    rw [activations] at split
    rw [split] at stopped
    simpa using stopped
  intro same
  have output_eq : output = averaged floatText (first :: others) :=
    Option.some.inj (ran.symm.trans same)
  have more := written_hidden hidden (others.length + 1)
  rw [output_eq, count_averaged, split, List.length_cons, List.range_succ_eq_map] at counted
  simp only [List.map_cons, List.sum_cons, writtenAt, split, List.getD_cons_zero] at counted
  omega

/-- The models are averaged exactly when no file has a hidden layer. -/
theorem interpolate_averages_iff (floatText : FloatText) (files : List (List Char))
    (several : 2 ≤ files.length) (layout : SameLayout files) :
    interpolate floatText files = some (averaged floatText files) ↔
      ∀ file ∈ files, activations file = [] := by
  cases files with
  | nil => exact absurd several (by decide)
  | cons first others =>
      by_cases present : activations first = []
      · have noLines : ∀ file ∈ first :: others, activations file = [] := by
          intro file member
          have same := layout.length_eq member
          rw [present] at same
          exact List.eq_nil_of_length_eq_zero same
        have allHeader : header first = modelLines first := by
          have whole := List.takeWhile_append_dropWhile
            (p := (!hidden_layer_re ·)) (l := modelLines first)
          rw [activations] at present
          rwa [present, List.append_nil] at whole
        refine iff_of_true ?_ noLines
        unfold interpolate averaged
        rw [readFiles_first]
        simp [present, allHeader]
      · exact iff_of_false (interpolate_longer floatText layout present)
          (fun noLines => present (noLines first List.mem_cons_self))

def wholeText : FloatText :=
  { str := fun x =>
      (if x < 0 then ['-'] else []) ++ (Nat.toDigits 10 x.num.natAbs ++ ['.', '0'])
    oneLine := by
      intro x member
      have noDigit : '\n' ∉ Nat.toDigits 10 x.num.natAbs := fun inDigits =>
        absurd (Nat.isDigit_of_mem_toDigits (by decide) (by decide) inDigits) (by decide)
      split at member <;> simp [noDigit] at member }

def twoModels : List (List Char) :=
  ["Hidden layer activation:\n4\n".toList, "Hidden layer activation:\n2\n".toList]

theorem interpolate_averages_iff_twoModels :
    2 ≤ twoModels.length ∧ SameLayout twoModels ∧
      (interpolate wholeText twoModels = some (averaged wholeText twoModels) ↔
        ∀ file ∈ twoModels, activations file = []) :=
  have layout : SameLayout twoModels := by decide +kernel
  ⟨by decide, layout, interpolate_averages_iff wholeText twoModels (by decide) layout⟩

/-- The first file is copied whole, the line of the hidden layer follows once for each file
with an empty line behind it, and two partial totals are written for one number. -/
theorem twoModels_repeated :
    SameLayout twoModels ∧
      averaged wholeText twoModels = "Hidden layer activation:\n3.0\n".toList ∧
      interpolate wholeText twoModels = some
        ("Hidden layer activation:\n4\n" ++
          "Hidden layer activation:\n\nHidden layer activation:\n\n2.0\n2.0\n").toList ∧
      interpolate wholeText twoModels ≠ some (averaged wholeText twoModels) := by
  decide +kernel

end Interpolation
