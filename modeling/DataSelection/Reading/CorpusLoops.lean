/-
The loops over a corpus, on any file name.

The corpus readers and the line shuffler construct their streams from a name that nothing
has looked at, and read until eofbit is set.  Only the end of a readable text sets it.
-/

import DataSelection.Filter.Corpora
import DataSelection.Shuffling.ShuffleLines
import DataSelection.Library.DeviceStream

namespace Reading

open Library (DeviceStream FileStream IFStream NamedFile)
open Filter (Counters CountType DoubleArithmetic FeatureMap Ngram Sentence WordMap)
open Shuffling (Index)

def getFeatures (fuel : Nat) (corpusFileName : NamedFile) (wordids : WordMap)
    (addMissingWords : Bool) : Option (List Ngram × WordMap) :=
  DeviceStream.eofLoop (Filter.featuresOfLine addMissingWords) fuel
    (DeviceStream.opened corpusFileName) [] ([], wordids)

def countFeatures {R : Type} [DoubleArithmetic R] (counters : Counters) (fuel : Nat)
    (features : FeatureMap R) (corpusFileName : NamedFile) (sentences : List (Sentence R))
    (countType : CountType) (wordids : WordMap) :
    Option (FeatureMap R × List (Sentence R)) :=
  (DeviceStream.eofLoop (Filter.countLine counters countType wordids) fuel
    (DeviceStream.opened corpusFileName) []
    { features := features, sentences := sentences, lineIndex := 0 }).map
      (fun state => (state.features, state.sentences))

/-- The loop of the line shuffler that collects the line markers. -/
def findOffsets : Nat → DeviceStream → List Char → List Index →
    Option (DeviceStream × List Char × List Index)
  | 0, _, _, _ => none
  | fuel + 1, file, line, lineStartOffsets =>
      if file.eof then some (file, line, lineStartOffsets)
      else
        let told := file.tellg
        let next := told.2.getline line
        findOffsets fuel next.2.peek next.1 (lineStartOffsets ++ [told.1])

/-- Some number of iterations is enough for the loop. -/
def Terminates {σ : Type} (loop : Nat → Option σ) : Prop :=
  ∃ fuel, (loop fuel).isSome

/-! ### Readable files -/

theorem getFeatures_readable (fuel : Nat) (corpus : List Char) (wordids : WordMap)
    (addMissingWords : Bool) :
    getFeatures fuel (.readable corpus) wordids addMissingWords =
      Filter.getFeatures fuel corpus wordids addMissingWords :=
  DeviceStream.eofLoop_reliable _ fuel _ [] _

theorem countFeatures_readable {R : Type} [DoubleArithmetic R] (counters : Counters)
    (fuel : Nat) (features : FeatureMap R) (corpus : List Char) (sentences : List (Sentence R))
    (countType : CountType) (wordids : WordMap) :
    countFeatures counters fuel features (.readable corpus) sentences countType wordids =
      Filter.countFeatures counters fuel features corpus sentences countType wordids := by
  unfold countFeatures Filter.countFeatures
  rw [DeviceStream.opened_readable, DeviceStream.eofLoop_reliable]
  rfl

theorem findOffsets_reliable (fuel : Nat) (file : FileStream) (line : List Char)
    (lineStartOffsets : List Index) :
    findOffsets fuel (DeviceStream.reliable file) line lineStartOffsets =
      (Shuffling.findOffsets fuel file line lineStartOffsets).map
        (fun scanned => (DeviceStream.reliable scanned.1, scanned.2)) := by
  induction fuel generalizing file line lineStartOffsets with
  | zero => rfl
  | succ fuel ih =>
      have sameEof : (DeviceStream.reliable file).eof = file.eof := rfl
      rw [findOffsets, Shuffling.findOffsets, sameEof]
      by_cases atEnd : file.eof = true
      · rw [if_pos atEnd, if_pos atEnd]
        rfl
      · rw [if_neg atEnd, if_neg atEnd]
        exact ih _ _ _

theorem eofLoop_terminates {σ : Type} (body : List Char → σ → σ) (content line : List Char)
    (state : σ) :
    Terminates (fun fuel =>
      DeviceStream.eofLoop body fuel (DeviceStream.opened (.readable content)) line state) := by
  have ran := IFStream.eofLoop_opened body (content.length + 2) content line state (Nat.le_refl _)
  use content.length + 2
  dsimp only
  rw [DeviceStream.opened_readable, DeviceStream.eofLoop_reliable]
  exact Option.isSome_iff_exists.mpr ⟨_, ran⟩

theorem findOffsets_terminates (content : List Char) :
    Terminates (fun fuel =>
      findOffsets fuel (DeviceStream.opened (.readable content)) [] []) := by
  use content.length + 2
  dsimp only
  rw [DeviceStream.opened_readable, findOffsets_reliable, Option.isSome_map,
    FileStream.opened_eq_reading]
  by_cases ends : Shuffling.EndsWithNewline content
  · rcases Shuffling.findOffsets_terminated (content.length + 2) [] content [] [] ends
      (Nat.le_refl _) with ⟨file, last, found, ran, _⟩
    rw [ran, Option.isSome_some]
  · rcases Shuffling.findOffsets_unterminated (content.length + 2) [] content [] [] ends
      (Nat.le_refl _) with ⟨file, last, starts, ran, _⟩
    rw [ran, Option.isSome_some]

/-! ### Files that cannot be read -/

theorem findOffsets_stuck {file : DeviceStream} (stuck : file.Stuck) (fuel : Nat)
    (line : List Char) (lineStartOffsets : List Index) :
    findOffsets fuel file line lineStartOffsets = none := by
  induction fuel generalizing file line lineStartOffsets with
  | zero => rfl
  | succ fuel ih =>
      rw [findOffsets, stuck.eof]
      exact ih (stuck.tellg.getline line).peek _ _

theorem not_terminates {σ : Type} {loop : Nat → Option σ} (endless : ∀ fuel, loop fuel = none) :
    ¬ Terminates loop := by
  rintro ⟨fuel, ended⟩
  rw [endless fuel] at ended
  cases ended

/-! ### Every file -/

theorem eofLoop_terminates_iff {σ : Type} (body : List Char → σ → σ) (file : NamedFile)
    (line : List Char) (state : σ) :
    Terminates (fun fuel =>
      DeviceStream.eofLoop body fuel (DeviceStream.opened file) line state) ↔ file.Readable := by
  constructor
  · intro terminates
    by_contra unreadable
    exact not_terminates
      (fun fuel => (DeviceStream.stuck_opened unreadable).eofLoop body fuel line state) terminates
  · intro readable
    cases file with
    | readable content => exact eofLoop_terminates body content line state
    | unopenable => exact readable.elim
    | failing content => exact readable.elim

theorem findOffsets_terminates_iff (file : NamedFile) :
    Terminates (fun fuel => findOffsets fuel (DeviceStream.opened file) [] []) ↔
      file.Readable := by
  constructor
  · intro terminates
    by_contra unreadable
    exact not_terminates
      (fun fuel => findOffsets_stuck (DeviceStream.stuck_opened unreadable) fuel [] []) terminates
  · intro readable
    cases file with
    | readable content => exact findOffsets_terminates content
    | unopenable => exact readable.elim
    | failing content => exact readable.elim

/-- Each of the three loops ends exactly on the files that open and never fail. -/
theorem corpusLoops_terminate_iff {R : Type} [DoubleArithmetic R] (counters : Counters)
    (features : FeatureMap R) (sentences : List (Sentence R)) (countType : CountType)
    (wordids : WordMap) (addMissingWords : Bool) (file : NamedFile) :
    (Terminates (fun fuel => getFeatures fuel file wordids addMissingWords) ↔ file.Readable) ∧
    (Terminates (fun fuel =>
      countFeatures counters fuel features file sentences countType wordids) ↔ file.Readable) ∧
    (Terminates (fun fuel => findOffsets fuel (DeviceStream.opened file) [] []) ↔
      file.Readable) := by
  refine ⟨eofLoop_terminates_iff _ file [] _, ?_, findOffsets_terminates_iff file⟩
  unfold Terminates countFeatures
  simp only [Option.isSome_map]
  exact eofLoop_terminates_iff _ file [] _

open scoped Filter in
/-- On the name of a file that is not there none of the three loops ends. -/
theorem missingFile_endless :
    ¬ Terminates (fun fuel => getFeatures fuel .unopenable .empty true) ∧
    ¬ Terminates (fun fuel => countFeatures (R := ℝ) .machine fuel .empty .unopenable [] .seed
        .empty) ∧
    ¬ Terminates (fun fuel => findOffsets fuel (DeviceStream.opened .unopenable) [] []) := by
  have stuck : (DeviceStream.opened .unopenable).Stuck := DeviceStream.stuck_opened id
  refine ⟨not_terminates ?_, not_terminates ?_, not_terminates ?_⟩
  · intro fuel
    exact stuck.eofLoop _ fuel [] _
  · intro fuel
    rw [countFeatures, stuck.eofLoop]
    rfl
  · intro fuel
    exact findOffsets_stuck stuck fuel [] []

end Reading
