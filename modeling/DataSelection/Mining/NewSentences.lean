/-
Which of the filtered sentences are appended to the mined file.

The seed, the mined file and the new text are filtered together, in two passes over the
shuffled lines.  The filter strips a line before it writes it out, and what it wrote is
compared with the lines of the two files as they stand there.
-/

import DataSelection.EntropyFilter.Tracking
import DataSelection.Library.Loops

namespace Mining

open Library
open WittenBell (split strip splitlines isSpace CleanLine cleanLine_of_mem_splitlines
  splitlines_append_newline)
open EntropyFilter (FloatArithmetic TraversalOrder Counts countGrams getCounts getTotalCount divide T2
  foldlM_improve_isSome getCounts_counted getTotalCount_eq insertionOrder log10_exact
  lt_exact improve getDictCtSafe)

abbrev Line := List Char

/-- The order in which the elements of a set are listed, or in which they are shuffled. -/
structure SetOrder where
  listed : List Line → List Line
  perm : ∀ lines, (listed lines).Perm lines.dedup

structure Filtering where
  w : Counts
  output : List Char

def previousLines (previously_mined : Option (List Char)) : List Line :=
  match previously_mined with
  | none => []
  | some content => splitlines content

def writeLine (line : Line) : List Char := line ++ ['\n']

section Filter

variable {R : Type} [FloatArithmetic R]

/-- The test of a line in iteration `i - 10`; a division by zero raises. -/
def accepts (R : Type) [FloatArithmetic R] (traversal : TraversalOrder) (p w : Counts) (n i : Nat)
    (line : Line) : Option Bool := do
  let wordList := split (strip line)
  let growth ← divide ((n + wordList.length : Nat) : R) n
  let strictness ← divide ((1 : Nat) : R) i
  let t_two ← T2 traversal p w (countGrams 3 DefaultDict.empty wordList)
  some (FloatArithmetic.lt (FloatArithmetic.log10 growth + strictness) t_two)

def filterLine (R : Type) [FloatArithmetic R] (traversal : TraversalOrder) (p : Counts) (n i : Nat)
    (state : Filtering) (line : Line) : Option Filtering := do
  let accepted ← accepts R traversal p state.w n i line
  if accepted then
    some
      { w := state.w.incrementAll
          (traversal.order (countGrams 3 DefaultDict.empty (split (strip line))).keys)
        output := state.output ++ writeLine (strip line) }
  else some state

def startFilter (seed_file : List Char) : Filtering :=
  { w := getCounts seed_file 3
    output := [] }

def incrementalFilter (R : Type) [FloatArithmetic R] (traversal : TraversalOrder)
    (shuffle : SetOrder) (seed_file : List Char) (previously_mined : Option (List Char))
    (mined_text : List Char) : Option (List Char) := do
  let p := getCounts seed_file 3
  let n := getTotalCount (getCounts seed_file 3)
  let lines := shuffle.listed
    (splitlines seed_file ++ previousLines previously_mined ++ splitlines mined_text)
  let state ← [11, 12].foldlM (fun state i => lines.foldlM (filterLine R traversal p n i) state)
    (startFilter seed_file)
  some state.output

/-- The text that is appended at the end of `main`. -/
def appendNew (R : Type) [FloatArithmetic R] (traversal : TraversalOrder)
    (shuffle filteredOrder : SetOrder) (seed_file : List Char)
    (previously_mined : Option (List Char)) (mined_text : List Char) : Option (List Char) := do
  let sentences ← incrementalFilter R traversal shuffle seed_file previously_mined mined_text
  let filtered := filteredOrder.listed ((splitlines sentences).filter (fun sentence =>
    sentence ∉ splitlines seed_file ∧ sentence ∉ previousLines previously_mined))
  some (filtered.flatMap (fun sentence => writeLine (strip sentence)))

end Filter

/-! ### Lines -/

theorem splitlines_writeLine {line : Line} (clean : CleanLine line) (rest : List Char) :
    splitlines (writeLine line ++ rest) = line :: splitlines rest := by
  unfold writeLine
  rw [List.append_assoc, List.singleton_append, splitlines_append_newline clean]

theorem splitlines_flatMap_writeLine {lines : List Line} (clean : ∀ line ∈ lines, CleanLine line) :
    splitlines (lines.flatMap writeLine) = lines := by
  induction lines with
  | nil => rfl
  | cons line lines ih =>
      rw [List.flatMap_cons, splitlines_writeLine (clean line List.mem_cons_self),
        ih (fun other member => clean other (List.mem_cons_of_mem line member))]

theorem strip_subset (text : List Char) : strip text ⊆ text := by
  intro char member
  exact (List.dropWhile_suffix isSpace).subset
    ((List.rdropWhile_prefix isSpace _).subset member)

theorem dropWhile_eq_of_start {text part : List Char} (isPrefix : part <+: text.dropWhile isSpace) :
    part.dropWhile isSpace = part := by
  cases part with
  | nil => rfl
  | cons char rest =>
      rcases isPrefix with ⟨behind, whole⟩
      have nonempty : text.dropWhile isSpace ≠ [] := by
        rw [← whole]
        exact List.cons_ne_nil char _
      have first := List.head_dropWhile_not isSpace nonempty
      simp only [← whole, List.cons_append, List.head_cons] at first
      rw [List.dropWhile_cons, first]
      rfl

theorem strip_strip (text : List Char) : strip (strip text) = strip text := by
  unfold strip
  rw [dropWhile_eq_of_start (List.rdropWhile_prefix isSpace _), List.rdropWhile_idempotent]

/-! ### What passes the filter -/

section Runs

variable {R : Type} [FloatArithmetic R] {traversal : TraversalOrder}

theorem filterLine_cases {p : Counts} {n i : Nat} {state next : Filtering} {line : Line}
    (ran : filterLine R traversal p n i state line = some next) :
    (accepts R traversal p state.w n i line = some true ∧
      next =
        { w := state.w.incrementAll
            (traversal.order (countGrams 3 DefaultDict.empty (split (strip line))).keys)
          output := state.output ++ writeLine (strip line) }) ∨
      (accepts R traversal p state.w n i line = some false ∧ next = state) := by
  unfold filterLine at ran
  cases tested : accepts R traversal p state.w n i line with
  | none => simp [tested] at ran
  | some accepted =>
      cases accepted with
      | true => exact Or.inl ⟨rfl, by simpa [tested] using ran.symm⟩
      | false => exact Or.inr ⟨rfl, by simpa [tested] using ran.symm⟩

def visits (lines : List Line) : List (Nat × Line) :=
  [11, 12].flatMap (fun i => lines.map (fun line => (i, line)))

def filterVisit (R : Type) [FloatArithmetic R] (traversal : TraversalOrder) (p : Counts) (n : Nat)
    (state : Filtering) (visit : Nat × Line) : Option Filtering :=
  filterLine R traversal p n visit.1 state visit.2

def AcceptedAt (R : Type) [FloatArithmetic R] (traversal : TraversalOrder) (p : Counts) (n : Nat)
    (start : Filtering) (visited : List (Nat × Line)) (line : Line) : Prop :=
  ∃ before i after state, visited = before ++ (i, line) :: after ∧
    before.foldlM (filterVisit R traversal p n) start = some state ∧
    accepts R traversal p state.w n i line = some true

theorem acceptedAt_concat {p : Counts} {n : Nat} {start state : Filtering}
    {visited : List (Nat × Line)} (i : Nat) (line : Line)
    (ran : visited.foldlM (filterVisit R traversal p n) start = some state) (other : Line) :
    AcceptedAt R traversal p n start (visited ++ [(i, line)]) other ↔
      AcceptedAt R traversal p n start visited other ∨
        (other = line ∧ accepts R traversal p state.w n i line = some true) := by
  constructor
  · rintro ⟨before, j, after, reached, parts, ranBefore, accepted⟩
    rcases List.eq_nil_or_concat after with rfl | ⟨middle, last, rfl⟩
    · rcases List.append_inj' parts rfl with ⟨rfl, same⟩
      cases same
      rw [ran] at ranBefore
      cases ranBefore
      exact Or.inr ⟨rfl, accepted⟩
    · rw [List.concat_eq_append, ← List.cons_append, ← List.append_assoc] at parts
      exact Or.inl ⟨before, j, middle, reached, (List.append_inj' parts rfl).1, ranBefore, accepted⟩
  · rintro (⟨before, j, after, reached, rfl, ranBefore, accepted⟩ | ⟨rfl, accepted⟩)
    · exact ⟨before, j, after ++ [(i, line)], reached,
        by rw [List.append_assoc, List.cons_append], ranBefore, accepted⟩
    · exact ⟨visited, i, [], state, rfl, ran, accepted⟩

theorem output_accepted {p : Counts} {n : Nat} {start final : Filtering}
    (silent : start.output = []) {visited : List (Nat × Line)}
    (ran : visited.foldlM (filterVisit R traversal p n) start = some final) :
    ∃ accepted : List Line,
      final.output = accepted.flatMap (fun line => writeLine (strip line)) ∧
      ∀ line, line ∈ accepted ↔ AcceptedAt R traversal p n start visited line := by
  induction visited using List.reverseRecOn generalizing final with
  | nil =>
      cases ran
      refine ⟨[], silent, fun line => ?_⟩
      constructor
      · intro member
        cases member
      · rintro ⟨before, i, after, _, impossible, _⟩
        exact absurd impossible.symm (by simp)
  | append_singleton visited visit ih =>
      rcases visit with ⟨i, line⟩
      rw [List.foldlM_append] at ran
      cases before : visited.foldlM (filterVisit R traversal p n) start with
      | none => simp [before] at ran
      | some state =>
          rcases ih before with ⟨accepted, output, members⟩
          have step : filterLine R traversal p n i state line = some final := by
            rw [before] at ran
            simpa [filterVisit] using ran
          have next := acceptedAt_concat i line before
          rcases filterLine_cases step with ⟨passed, rfl⟩ | ⟨failed, rfl⟩
          · refine ⟨accepted ++ [line], ?_, fun other => ?_⟩
            · rw [List.flatMap_append, List.flatMap_singleton, ← output]
            · rw [next, List.mem_append, List.mem_singleton, members]
              exact or_congr_right ⟨fun same => ⟨same, passed⟩, And.left⟩
          · refine ⟨accepted, output, fun other => ?_⟩
            rw [next, members]
            constructor
            · exact Or.inl
            · rintro (earlier | ⟨rfl, passed⟩)
              · exact earlier
              · rw [failed] at passed
                cases passed

theorem accepts_total (p : Counts) {w : Counts} {n i : Nat} (line : Line) (counted : w.Counted)
    (filled : 0 < n) (iteration : 0 < i) :
    ∃ accepted, accepts R traversal p w n i line = some accepted := by
  have nonzero : n ≠ 0 := Nat.ne_of_gt filled
  have iterationNonzero : i ≠ 0 := Nat.ne_of_gt iteration
  have improved := foldlM_improve_isSome (R := R) p w
    (countGrams 3 DefaultDict.empty (split (strip line))) counted
    (traversal.order (countGrams 3 DefaultDict.empty (split (strip line))).keys) 0
  rcases Option.isSome_iff_exists.mp improved with ⟨t_two, ran⟩
  unfold accepts T2
  dsimp only
  rw [ran]
  simp [divide, nonzero, iterationNonzero]

theorem accepts_of_zero (p w : Counts) (i : Nat) (line : Line) :
    accepts R traversal p w 0 i line = none := by
  simp [accepts, divide]

/-- With a trigram in the seed the filter reaches the end of the last pass. -/
theorem filterVisit_run {p : Counts} {n : Nat} {start : Filtering} (counted : start.w.Counted)
    (filled : 0 < n) (lines : List Line) :
    ∃ final, (visits lines).foldlM (filterVisit R traversal p n) start = some final := by
  have steps : ∀ (_done : List (Nat × Line)) (visit : Nat × Line) (state : Filtering),
      visit ∈ visits lines → state.w.Counted →
        ∃ next, filterVisit R traversal p n state visit = some next ∧ next.w.Counted := by
    rintro _done ⟨i, line⟩ state member counted
    have iteration : 0 < i := by
      rcases List.mem_flatMap.mp member with ⟨j, inPasses, inLines⟩
      rcases List.mem_map.mp inLines with ⟨_, _, same⟩
      cases same
      simp only [List.mem_cons, List.not_mem_nil, or_false] at inPasses
      omega
    have test : ∃ accepted, accepts R traversal p state.w n i line = some accepted :=
      accepts_total p line counted filled iteration
    rcases test with ⟨accepted, tested⟩
    cases accepted with
    | true =>
        refine ⟨{ w := state.w.incrementAll
                    (traversal.order (countGrams 3 DefaultDict.empty (split (strip line))).keys)
                  output := state.output ++ writeLine (strip line) }, ?_, counted.incrementAll _⟩
        simp [filterVisit, filterLine, tested]
    | false => exact ⟨state, by simp [filterVisit, filterLine, tested], counted⟩
  have reached : ∃ final, (visits lines).foldlM (filterVisit R traversal p n) start = some final ∧
      final.w.Counted :=
    foldlM_run (fun _done (state : Filtering) => state.w.Counted) counted steps
  exact reached.imp (fun _ both => both.1)

/-! ### What is appended -/

/-- The lines of the two files, as they stand there. -/
def knownLines (seed_file : List Char) (previously_mined : Option (List Char)) : List Line :=
  splitlines seed_file ++ previousLines previously_mined

def allLines (seed_file : List Char) (previously_mined : Option (List Char))
    (mined_text : List Char) : List Line :=
  splitlines seed_file ++ previousLines previously_mined ++ splitlines mined_text

/-- No line comes twice, and stripped it is no stripped line of the two files. -/
structure OnlyNew (seed_file : List Char) (previously_mined : Option (List Char))
    (appended : List Char) : Prop where
  distinct : (splitlines appended).Nodup
  unknown : ∀ line ∈ splitlines appended,
    strip line ∉ (knownLines seed_file previously_mined).map strip

/-- A line that the files contain only with blanks around it. -/
def OnlyPadded (seed_file : List Char) (previously_mined : Option (List Char)) (line : Line) :
    Prop :=
  strip line ∈ (knownLines seed_file previously_mined).map strip ∧
    strip line ∉ knownLines seed_file previously_mined

/-- Whenever such a line is visited, it fails the test. -/
def PaddedFails (R : Type) [FloatArithmetic R] (traversal : TraversalOrder) (shuffle : SetOrder)
    (seed_file : List Char) (previously_mined : Option (List Char)) (mined_text : List Char) :
    Prop :=
  ∀ before i line after state,
    visits (shuffle.listed (allLines seed_file previously_mined mined_text)) =
        before ++ (i, line) :: after →
      before.foldlM (filterVisit R traversal (getCounts seed_file 3)
        (getTotalCount (getCounts seed_file 3))) (startFilter seed_file) = some state →
      OnlyPadded seed_file previously_mined line →
      accepts R traversal (getCounts seed_file 3) state.w
        (getTotalCount (getCounts seed_file 3)) i line ≠ some true

theorem cleanLine_of_mem_allLines {seed_file : List Char} {previously_mined : Option (List Char)}
    {mined_text : List Char} {line : Line}
    (member : line ∈ allLines seed_file previously_mined mined_text) : CleanLine line := by
  rcases List.mem_append.mp member with inFiles | inText
  · rcases List.mem_append.mp inFiles with inSeed | inPrevious
    · exact cleanLine_of_mem_splitlines line inSeed
    · cases previously_mined with
      | none => cases inPrevious
      | some content => exact cleanLine_of_mem_splitlines line inPrevious
  · exact cleanLine_of_mem_splitlines line inText

theorem mem_visits {lines : List Line} {i : Nat} {line : Line} (member : (i, line) ∈ visits lines) :
    line ∈ lines := by
  rcases List.mem_flatMap.mp member with ⟨j, _, inLines⟩
  rcases List.mem_map.mp inLines with ⟨other, inPass, same⟩
  cases same
  exact inPass

theorem incrementalFilter_eq (shuffle : SetOrder) (seed_file : List Char)
    (previously_mined : Option (List Char)) (mined_text : List Char) :
    incrementalFilter R traversal shuffle seed_file previously_mined mined_text =
      ((visits (shuffle.listed (allLines seed_file previously_mined mined_text))).foldlM
        (filterVisit R traversal (getCounts seed_file 3) (getTotalCount (getCounts seed_file 3)))
        (startFilter seed_file)).map Filtering.output := by
  have passes : ∀ lines : List Line, visits lines =
      lines.map (fun line => (11, line)) ++ lines.map (fun line => (12, line)) := by
    intro lines
    rw [visits, List.flatMap_cons, List.flatMap_singleton]
  unfold incrementalFilter
  rw [passes, List.foldlM_append, List.foldlM_map, Option.map_eq_bind]
  simp only [List.foldlM_cons, List.foldlM_nil, List.foldlM_map, Option.bind_eq_bind,
    Option.bind_assoc]
  rfl

theorem AcceptedAt.cleanLine {shuffle : SetOrder} {seed_file : List Char}
    {previously_mined : Option (List Char)} {mined_text : List Char} {p : Counts} {n : Nat}
    {start : Filtering} {raw : Line}
    (passed : AcceptedAt R traversal p n start
      (visits (shuffle.listed (allLines seed_file previously_mined mined_text))) raw) :
    CleanLine raw := by
  rcases passed with ⟨before, i, after, _, parts, _⟩
  have visited : raw ∈ shuffle.listed (allLines seed_file previously_mined mined_text) := by
    apply mem_visits (i := i)
    rw [parts]
    exact List.mem_append_right before List.mem_cons_self
  exact cleanLine_of_mem_allLines (List.mem_dedup.mp ((shuffle.perm _).mem_iff.mp visited))

theorem mem_sentences {shuffle : SetOrder} {seed_file : List Char}
    {previously_mined : Option (List Char)} {mined_text : List Char} {p : Counts} {n : Nat}
    {start final : Filtering} (silent : start.output = [])
    (ran : (visits (shuffle.listed (allLines seed_file previously_mined mined_text))).foldlM
      (filterVisit R traversal p n) start = some final) (line : Line) :
    line ∈ splitlines final.output ↔ ∃ raw, strip raw = line ∧
      AcceptedAt R traversal p n start
        (visits (shuffle.listed (allLines seed_file previously_mined mined_text))) raw := by
  rcases output_accepted silent ran with ⟨accepted, output, members⟩
  have clean : ∀ line ∈ accepted.map strip, CleanLine line := by
    intro line member
    rcases List.mem_map.mp member with ⟨raw, inAccepted, rfl⟩
    exact ((members raw).mp inAccepted).cleanLine.subset (strip_subset raw)
  have sentences : splitlines final.output = accepted.map strip := by
    rw [output, ← splitlines_flatMap_writeLine clean, List.flatMap_map]
  rw [sentences, List.mem_map]
  constructor
  · rintro ⟨raw, inAccepted, same⟩
    exact ⟨raw, same, (members raw).mp inAccepted⟩
  · rintro ⟨raw, same, passed⟩
    exact ⟨raw, (members raw).mpr passed, same⟩

theorem splitlines_written {lines : List Line} (clean : ∀ line ∈ lines, CleanLine line)
    (stripped : ∀ line ∈ lines, strip line = line) :
    splitlines (lines.flatMap (fun line => writeLine (strip line))) = lines := by
  have written : lines.flatMap (fun line => writeLine (strip line)) = lines.flatMap writeLine :=
    List.flatMap_congr (fun line member => by rw [stripped line member])
  rw [written]
  exact splitlines_flatMap_writeLine clean

theorem appendNew_eq (shuffle filteredOrder : SetOrder) {seed_file : List Char}
    {previously_mined : Option (List Char)} {mined_text : List Char} {final : Filtering}
    (ran : (visits (shuffle.listed (allLines seed_file previously_mined mined_text))).foldlM
      (filterVisit R traversal (getCounts seed_file 3) (getTotalCount (getCounts seed_file 3)))
      (startFilter seed_file) = some final) :
    ∃ appended, appendNew R traversal shuffle filteredOrder seed_file previously_mined mined_text =
        some appended ∧
      (splitlines appended).Nodup ∧
      ∀ line, line ∈ splitlines appended ↔ line ∉ knownLines seed_file previously_mined ∧
        ∃ raw, strip raw = line ∧
          AcceptedAt R traversal (getCounts seed_file 3) (getTotalCount (getCounts seed_file 3))
            (startFilter seed_file)
            (visits (shuffle.listed (allLines seed_file previously_mined mined_text))) raw := by
  let remaining := (splitlines final.output).filter (fun sentence =>
    sentence ∉ splitlines seed_file ∧ sentence ∉ previousLines previously_mined)
  have perm := filteredOrder.perm remaining
  have mem_filtered : ∀ sentence, sentence ∈ filteredOrder.listed remaining ↔
      sentence ∈ splitlines final.output ∧ sentence ∉ knownLines seed_file previously_mined := by
    intro sentence
    rw [perm.mem_iff, List.mem_dedup, List.mem_filter, decide_eq_true_iff, knownLines,
      List.mem_append, not_or]
  have lines : splitlines ((filteredOrder.listed remaining).flatMap
      (fun sentence => writeLine (strip sentence))) = filteredOrder.listed remaining := by
    apply splitlines_written
    · exact fun sentence member =>
        cleanLine_of_mem_splitlines sentence ((mem_filtered sentence).mp member).1
    · intro sentence member
      have inOutput := ((mem_filtered sentence).mp member).1
      rcases (mem_sentences rfl ran sentence).mp inOutput with ⟨raw, rfl, _⟩
      exact strip_strip raw
  refine ⟨(filteredOrder.listed remaining).flatMap (fun sentence => writeLine (strip sentence)),
    ?_, ?_, ?_⟩
  · unfold appendNew
    rw [incrementalFilter_eq, ran]
    rfl
  · rw [lines]
    exact perm.nodup_iff.mpr (List.nodup_dedup remaining)
  · intro line
    rw [lines, mem_filtered, mem_sentences rfl ran]
    exact and_comm

theorem onlyNew_of_paddedFails {shuffle filteredOrder : SetOrder} {seed_file : List Char}
    {previously_mined : Option (List Char)} {mined_text : List Char}
    (fails : PaddedFails R traversal shuffle seed_file previously_mined mined_text)
    {appended : List Char}
    (ran : appendNew R traversal shuffle filteredOrder seed_file previously_mined mined_text =
      some appended) : OnlyNew seed_file previously_mined appended := by
  cases filtered : (visits (shuffle.listed (allLines seed_file previously_mined mined_text))).foldlM
      (filterVisit R traversal (getCounts seed_file 3) (getTotalCount (getCounts seed_file 3)))
      (startFilter seed_file) with
  | none =>
      unfold appendNew at ran
      rw [incrementalFilter_eq, filtered] at ran
      cases ran
  | some final =>
      rcases appendNew_eq shuffle filteredOrder filtered with ⟨written, isWritten, distinct, lines⟩
      cases Option.some.inj (ran.symm.trans isWritten)
      refine ⟨distinct, fun line member known => ?_⟩
      rcases (lines line).mp member with ⟨unknown, raw, rfl, passed⟩
      rcases passed with ⟨before, i, after, state, parts, ranBefore, accepted⟩
      rw [strip_strip] at known
      exact fails before i raw after state parts ranBefore ⟨known, unknown⟩ accepted

theorem paddedFails_of_onlyNew {shuffle filteredOrder : SetOrder} {seed_file : List Char}
    {previously_mined : Option (List Char)} {mined_text : List Char}
    (new : ∀ appended,
      appendNew R traversal shuffle filteredOrder seed_file previously_mined mined_text =
        some appended → OnlyNew seed_file previously_mined appended) :
    PaddedFails R traversal shuffle seed_file previously_mined mined_text := by
  intro before i line after state parts ranBefore padded accepted
  have filled : 0 < getTotalCount (getCounts seed_file 3) := by
    by_contra empty
    rw [Nat.eq_zero_of_not_pos empty, accepts_of_zero] at accepted
    cases accepted
  have reached : ∃ final,
      (visits (shuffle.listed (allLines seed_file previously_mined mined_text))).foldlM
        (filterVisit R traversal (getCounts seed_file 3) (getTotalCount (getCounts seed_file 3)))
        (startFilter seed_file) = some final :=
    filterVisit_run (getCounts_counted seed_file 3) filled _
  rcases reached with ⟨final, filtered⟩
  rcases appendNew_eq shuffle filteredOrder filtered with ⟨written, isWritten, _, lines⟩
  have inWritten : strip line ∈ splitlines written :=
    (lines (strip line)).mpr
      ⟨padded.2, line, rfl, before, i, after, state, parts, ranBefore, accepted⟩
  apply (new written isWritten).unknown (strip line) inWritten
  rw [strip_strip]
  exact padded.1

/-- Only new sentences are appended exactly when the test turns down every line that the
files contain only with blanks around it. -/
theorem onlyNew_iff (shuffle filteredOrder : SetOrder) (seed_file : List Char)
    (previously_mined : Option (List Char)) (mined_text : List Char) :
    (∀ appended,
      appendNew R traversal shuffle filteredOrder seed_file previously_mined mined_text =
        some appended → OnlyNew seed_file previously_mined appended) ↔
      PaddedFails R traversal shuffle seed_file previously_mined mined_text :=
  ⟨paddedFails_of_onlyNew, fun fails _ ran => onlyNew_of_paddedFails fails ran⟩

/-- The files have no blanks around their lines, or also contain the stripped lines. -/
theorem onlyNew_of_stripped {shuffle filteredOrder : SetOrder} {seed_file : List Char}
    {previously_mined : Option (List Char)} {mined_text : List Char}
    (stripped : ∀ line ∈ knownLines seed_file previously_mined,
      strip line ∈ knownLines seed_file previously_mined) {appended : List Char}
    (ran : appendNew R traversal shuffle filteredOrder seed_file previously_mined mined_text =
      some appended) : OnlyNew seed_file previously_mined appended := by
  apply onlyNew_of_paddedFails (R := R) _ ran
  intro before i line after state _ _ padded
  rcases List.mem_map.mp padded.1 with ⟨known, inKnown, same⟩
  exact absurd (same ▸ stripped known inKnown) padded.2

end Runs

/-! ### A seed with a blank in front of its lines -/

open scoped EntropyFilter

def asListed : SetOrder :=
  { listed := List.dedup
    perm := fun _ => List.Perm.refl _ }

def paddedSeed : List Char := " a b c\n a b c\n a b c\n a b c\n".toList

def paddedLine : Line := " a b c".toList

def paddedGram : EntropyFilter.Gram := [['a'], ['b'], ['c']]

theorem paddedSeed_counts :
    (getCounts paddedSeed 3).keys = [paddedGram] ∧
      (getCounts paddedSeed 3).value paddedGram = 4 ∧
      getTotalCount (getCounts paddedSeed 3) = 4 := by
  rw [getTotalCount_eq]
  decide +kernel

theorem paddedLine_counts :
    (split (strip paddedLine)).length = 3 ∧
      (countGrams 3 DefaultDict.empty (split (strip paddedLine))).keys = [paddedGram] ∧
      (countGrams 3 DefaultDict.empty (split (strip paddedLine))).value paddedGram = 1 := by
  decide +kernel

/-- The four occurrences in the seed outweigh the growth by three words. -/
theorem four_occurrences_outweigh :
    Real.log (7 / 4) / Real.log 10 + 1 / 11 < Real.log (5 / 4) / Real.log 10 * 4 := by
  have positive : 0 < Real.log 10 := Real.log_pos (by norm_num)
  have bound : Real.log 10 < Real.log ((5 / 4 : ℝ) ^ 44 / (7 / 4) ^ 11) :=
    Real.log_lt_log (by norm_num) (by norm_num)
  rw [Real.log_div (by norm_num) (by norm_num), Real.log_pow, Real.log_pow] at bound
  push_cast at bound
  rw [← sub_pos]
  have scaled : Real.log (5 / 4) / Real.log 10 * 4 - (Real.log (7 / 4) / Real.log 10 + 1 / 11) =
      (44 * Real.log (5 / 4) - 11 * Real.log (7 / 4) - Real.log 10) / (11 * Real.log 10) := by
    field_simp
    ring
  rw [scaled]
  exact div_pos (by linarith) (by linarith)

theorem paddedLine_accepted :
    accepts ℝ insertionOrder (getCounts paddedSeed 3) (getCounts paddedSeed 3)
      (getTotalCount (getCounts paddedSeed 3)) 11 paddedLine = some true := by
  rcases paddedSeed_counts with ⟨seedKeys, seedCount, seedTotal⟩
  rcases paddedLine_counts with ⟨length, gramKeys, gramCount⟩
  have outweigh := four_occurrences_outweigh
  unfold accepts T2
  dsimp only
  rw [gramKeys, length, seedTotal]
  simp only [insertionOrder, id, List.foldlM_cons, List.foldlM_nil, improve, seedKeys,
    List.mem_singleton, if_true, seedCount, gramCount, divide, getDictCtSafe, log10_exact,
    lt_exact]
  norm_num at outweigh ⊢
  exact outweigh

/-- The line of the seed is appended without its blank. -/
theorem paddedSeed_appended :
    ∃ appended,
      appendNew ℝ insertionOrder asListed asListed paddedSeed (some []) [] = some appended ∧
        "a b c".toList ∈ splitlines appended ∧ ¬ OnlyNew paddedSeed (some []) appended := by
  have seedTotal := paddedSeed_counts.2.2
  have visited : visits (asListed.listed (allLines paddedSeed (some []) [])) =
      [(11, paddedLine), (12, paddedLine)] := by
    decide +kernel
  have reached : ∃ final,
      (visits (asListed.listed (allLines paddedSeed (some []) []))).foldlM
        (filterVisit ℝ insertionOrder (getCounts paddedSeed 3)
          (getTotalCount (getCounts paddedSeed 3))) (startFilter paddedSeed) = some final :=
    filterVisit_run (getCounts_counted paddedSeed 3) (by rw [seedTotal]; decide) _
  rcases reached with ⟨final, filtered⟩
  rcases appendNew_eq asListed asListed filtered with ⟨appended, ran, _, lines⟩
  have isAppended : "a b c".toList ∈ splitlines appended := by
    rw [lines]
    refine ⟨by decide +kernel, paddedLine, by decide +kernel, ?_⟩
    exact ⟨[], 11, [(12, paddedLine)], startFilter paddedSeed, visited, rfl, paddedLine_accepted⟩
  refine ⟨appended, ran, isAppended, fun new => ?_⟩
  exact new.unknown _ isAppended (by decide +kernel)

end Mining
