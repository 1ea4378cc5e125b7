/-
Records of a stream, which end with a separator.

Several readers share one stream: each takes a number of records and leaves the rest to the
next reader.  Together they take everything, and no record is cut in two.
-/

import Mathlib.Algebra.GroupWithZero.Nat
import Mathlib.Algebra.BigOperators.Group.List.Basic

namespace Library

variable {α : Type} [DecidableEq α] (separator : α)

/-- The records without their separators; the last one may lack it. -/
def records : List α → List (List α)
  | [] => []
  | item :: items =>
      if item = separator then [] :: records items
      else
        match records items with
        | [] => [[item]]
        | first :: later => (item :: first) :: later

/-- What a reader of some records takes, and what it leaves. -/
def takeRecords : Nat → List α → List α × List α
  | 0, stream => ([], stream)
  | _ + 1, [] => ([], [])
  | count + 1, item :: stream =>
      let (taken, left) :=
        if item = separator then takeRecords count stream else takeRecords (count + 1) stream
      (item :: taken, left)

/-- What readers take one after the other; the last one takes everything that is left. -/
def shareRecords : List Nat → List α → List (List α)
  | [], stream => [stream]
  | count :: counts, stream =>
      let (taken, left) := takeRecords separator count stream
      taken :: shareRecords counts left

/-- Everything that begins behind it begins a record. -/
def Ended (part : List α) : Prop := part = [] ∨ part.getLast? = some separator

variable {separator}

omit [DecidableEq α] in
theorem ended_nil : Ended separator ([] : List α) := Or.inl rfl

omit [DecidableEq α] in
theorem Ended.tail {item : α} {items : List α} (ended : Ended separator (item :: items)) :
    Ended separator items := by
  cases items with
  | nil => exact ended_nil
  | cons second items =>
      right
      rcases ended with impossible | isLast
      · cases impossible
      · rw [List.getLast?_cons_cons] at isLast
        exact isLast

theorem records_append {part : List α} (ended : Ended separator part) (rest : List α) :
    records separator (part ++ rest) = records separator part ++ records separator rest := by
  induction part with
  | nil => rfl
  | cons item items ih =>
      have later := ih ended.tail
      rw [List.cons_append, records, records, later]
      by_cases ends : item = separator
      · rw [if_pos ends, if_pos ends, List.cons_append]
      · rw [if_neg ends, if_neg ends]
        cases items with
        | nil =>
            rcases ended with impossible | isLast
            · cases impossible
            · exact absurd (Option.some.inj isLast) ends
        | cons second items =>
            have filled : records separator (second :: items) ≠ [] := by
              rw [records]
              split
              · exact List.cons_ne_nil _ _
              · cases records separator items with
                | nil => exact List.cons_ne_nil _ _
                | cons first later => exact List.cons_ne_nil _ _
            cases isRecords : records separator (second :: items) with
            | nil => exact absurd isRecords filled
            | cons first more => rfl

theorem records_of_absent {part : List α} (absent : separator ∉ part) (filled : part ≠ []) :
    records separator part = [part] := by
  induction part with
  | nil => exact absurd rfl filled
  | cons item items ih =>
      rw [List.mem_cons, not_or] at absent
      rw [records, if_neg (fun same => absent.1 same.symm)]
      cases items with
      | nil => rfl
      | cons second items => rw [ih absent.2 (List.cons_ne_nil second items)]

theorem records_append_cons {body : List α} (absent : separator ∉ body) (rest : List α) :
    records separator (body ++ separator :: rest) = body :: records separator rest := by
  induction body with
  | nil => rw [List.nil_append, records, if_pos rfl]
  | cons item items ih =>
      rw [List.mem_cons, not_or] at absent
      rw [List.cons_append, records, if_neg (fun same => absent.1 same.symm), ih absent.2]

theorem left_of_taken_nil {count : Nat} {stream : List α}
    (nothing : (takeRecords separator (count + 1) stream).1 = []) :
    (takeRecords separator (count + 1) stream).2 = [] := by
  cases stream with
  | nil => rfl
  | cons item stream =>
      rw [takeRecords] at nothing
      cases nothing

theorem takeRecords_spec (count : Nat) (stream : List α) :
    (takeRecords separator count stream).1 ++ (takeRecords separator count stream).2 = stream ∧
      (takeRecords separator count stream).1.count separator =
        min count (stream.count separator) ∧
      (Ended separator (takeRecords separator count stream).1 ∨
        (takeRecords separator count stream).2 = []) := by
  induction stream generalizing count with
  | nil =>
      cases count with
      | zero => exact ⟨rfl, rfl, Or.inl ended_nil⟩
      | succ count => exact ⟨rfl, rfl, Or.inr rfl⟩
  | cons item stream ih =>
      cases count with
      | zero => exact ⟨rfl, (Nat.zero_min _).symm, Or.inl ended_nil⟩
      | succ count =>
          rw [takeRecords]
          by_cases ends : item = separator
          · obtain ⟨whole, counted, ended⟩ := ih count
            simp only [if_pos ends]
            refine ⟨by rw [List.cons_append, whole], ?_, ?_⟩
            · rw [ends, List.count_cons_self, List.count_cons_self, counted]
              omega
            · rcases ended with (empty | isLast) | nothing
              · left
                rw [empty]
                exact Or.inr (congrArg some ends)
              · left
                right
                rw [List.getLast?_cons, isLast]
                rfl
              · exact Or.inr nothing
          · obtain ⟨whole, counted, ended⟩ := ih (count + 1)
            simp only [if_neg ends]
            refine ⟨by rw [List.cons_append, whole], ?_, ?_⟩
            · rw [List.count_cons_of_ne ends, List.count_cons_of_ne ends, counted]
            · rcases ended with (empty | isLast) | nothing
              · exact Or.inr (left_of_taken_nil empty)
              · left
                right
                rw [List.getLast?_cons, isLast]
                rfl
              · exact Or.inr nothing

theorem flatten_shareRecords (counts : List Nat) (stream : List α) :
    (shareRecords separator counts stream).flatten = stream := by
  induction counts generalizing stream with
  | nil => exact List.append_nil stream
  | cons count counts ih =>
      rw [shareRecords, List.flatten_cons, ih]
      exact (takeRecords_spec count stream).1

theorem length_shareRecords (counts : List Nat) (stream : List α) :
    (shareRecords separator counts stream).length = counts.length + 1 := by
  induction counts generalizing stream with
  | nil => rfl
  | cons count counts ih => rw [shareRecords, List.length_cons, ih, List.length_cons]

/-- A part is cut short only if the stream ends. -/
theorem count_shareRecords {counts : List Nat} (stream : List α) {place count : Nat}
    (wanted : counts[place]? = some count) :
    ∃ part, (shareRecords separator counts stream)[place]? = some part ∧
      part.count separator =
        min count (stream.count separator - (counts.take place).sum) := by
  induction counts generalizing stream place with
  | nil => cases wanted
  | cons first counts ih =>
      obtain ⟨whole, counted, _⟩ := @takeRecords_spec _ _ separator first stream
      cases place with
      | zero =>
          refine ⟨_, rfl, ?_⟩
          rw [counted, Option.some.inj wanted, List.take_zero, List.sum_nil, Nat.sub_zero]
      | succ place =>
          obtain ⟨part, isPart, partCounted⟩ := ih (takeRecords separator first stream).2 wanted
          refine ⟨part, isPart, ?_⟩
          have both := congrArg (List.count separator) whole
          rw [List.count_append] at both
          rw [partCounted, List.take_succ_cons, List.sum_cons]
          omega

/-- A reader that can stop behind a separator finds the same in the parts as in the stream. -/
theorem flatMap_shareRecords {β : Type} {read : List α → List β} (nothing : read [] = [])
    (append : ∀ {part}, Ended separator part → ∀ rest, read (part ++ rest) = read part ++ read rest)
    (counts : List Nat) (stream : List α) :
    (shareRecords separator counts stream).flatMap read = read stream := by
  induction counts generalizing stream with
  | nil => exact List.append_nil _
  | cons count counts ih =>
      obtain ⟨whole, _, ended⟩ := @takeRecords_spec _ _ separator count stream
      rw [shareRecords, List.flatMap_cons, ih]
      rcases ended with isEnded | nothingLeft
      · rw [← append isEnded, whole]
      · rw [nothingLeft, List.append_nil] at whole
        rw [nothingLeft, nothing, List.append_nil, whole]

theorem records_shareRecords (counts : List Nat) (stream : List α) :
    ((shareRecords separator counts stream).map (records separator)).flatten =
      records separator stream := by
  rw [← List.flatMap_def]
  exact flatMap_shareRecords rfl records_append counts stream

end Library
