/-
Records that are read into a buffer.

A reader whose buffer is too small for a record takes it in several pieces.  Pieces never reach
over a separator, so that the records of the parts of a stream are read apart.
-/

import DataSelection.Library.Records

namespace Library

variable {α : Type} [DecidableEq α] (separator : α)

/-- What a buffer takes of a stream, without the separator that ends it, and what it leaves. -/
def takeBuffered : Nat → List α → List α × List α
  | 0, stream => ([], stream)
  | _ + 1, [] => ([], [])
  | room + 1, item :: stream =>
      if item = separator then ([], stream)
      else
        let (taken, left) := takeBuffered room stream
        (item :: taken, left)

variable {separator}

theorem takeBuffered_left_le (room : Nat) (stream : List α) :
    (takeBuffered separator room stream).2.length ≤ stream.length := by
  induction stream generalizing room with
  | nil =>
      cases room with
      | zero => exact Nat.le_refl _
      | succ room => exact Nat.le_refl _
  | cons item stream ih =>
      cases room with
      | zero => exact Nat.le_refl _
      | succ room =>
          rw [takeBuffered]
          split
          · exact Nat.le_succ _
          · exact Nat.le_succ_of_le (ih room)

theorem takeBuffered_left_lt (room : Nat) (item : α) (stream : List α) :
    (takeBuffered separator (room + 1) (item :: stream)).2.length < (item :: stream).length := by
  rw [takeBuffered]
  split
  · exact Nat.lt_succ_self _
  · exact Nat.lt_succ_of_le (takeBuffered_left_le room stream)

variable (separator) in
/-- What a buffer with room for one more item than `room` takes until the stream ends. -/
def bufferedRecords (room : Nat) : List α → List (List α)
  | [] => []
  | item :: stream =>
      (takeBuffered separator (room + 1) (item :: stream)).1 ::
        bufferedRecords room (takeBuffered separator (room + 1) (item :: stream)).2
termination_by stream => stream.length
decreasing_by exact takeBuffered_left_lt room item stream

/-- What stands behind a part that ends with a separator is not touched. -/
theorem takeBuffered_append {part : List α} (ended : Ended separator part) (filled : part ≠ [])
    (rest : List α) (room : Nat) :
    takeBuffered separator room (part ++ rest) =
        ((takeBuffered separator room part).1, (takeBuffered separator room part).2 ++ rest) ∧
      Ended separator (takeBuffered separator room part).2 := by
  induction part generalizing room with
  | nil => exact absurd rfl filled
  | cons item part ih =>
      cases room with
      | zero => exact ⟨rfl, ended⟩
      | succ room =>
          rw [List.cons_append, takeBuffered, takeBuffered]
          by_cases ends : item = separator
          · rw [if_pos ends, if_pos ends]
            exact ⟨rfl, ended.tail⟩
          · have more : part ≠ [] := by
              rintro rfl
              rcases ended with impossible | isLast
              · cases impossible
              · exact ends (Option.some.inj isLast)
            obtain ⟨same, endedLeft⟩ := ih ended.tail more room
            rw [if_neg ends, if_neg ends, same]
            exact ⟨rfl, endedLeft⟩

theorem bufferedRecords_append {part : List α} (ended : Ended separator part) (rest : List α)
    (room : Nat) : bufferedRecords separator room (part ++ rest) =
      bufferedRecords separator room part ++ bufferedRecords separator room rest := by
  induction part using bufferedRecords.induct separator room with
  | case1 => rw [bufferedRecords, List.nil_append, List.nil_append]
  | case2 item part ih =>
      obtain ⟨same, endedLeft⟩ :=
        takeBuffered_append ended (List.cons_ne_nil item part) rest (room + 1)
      rw [List.cons_append] at same
      rw [List.cons_append, bufferedRecords, same, ih endedLeft, bufferedRecords, List.cons_append]

/-- A buffer that is large enough for a record takes it whole. -/
theorem takeBuffered_records {room : Nat} {stream record : List α} {later : List (List α)}
    (isFirst : records separator stream = record :: later) (fits : record.length < room) :
    ∃ left, takeBuffered separator room stream = (record, left) ∧
      records separator left = later := by
  induction stream generalizing room record with
  | nil => cases isFirst
  | cons item stream ih =>
      obtain ⟨less, rfl⟩ : ∃ less, room = less + 1 := ⟨room - 1, by omega⟩
      rw [records] at isFirst
      rw [takeBuffered]
      by_cases ends : item = separator
      · rw [if_pos ends] at isFirst ⊢
        cases isFirst
        exact ⟨stream, rfl, rfl⟩
      · rw [if_neg ends] at isFirst ⊢
        cases isRest : records separator stream with
        | nil =>
            rw [isRest] at isFirst
            cases isFirst
            have isEmpty : stream = [] := by
              cases stream with
              | nil => rfl
              | cons second stream =>
                  rw [records] at isRest
                  split at isRest
                  · cases isRest
                  · split at isRest <;> cases isRest
            rw [isEmpty]
            cases less with
            | zero => exact ⟨[], rfl, rfl⟩
            | succ less => exact ⟨[], rfl, rfl⟩
        | cons first more =>
            rw [isRest] at isFirst
            cases isFirst
            obtain ⟨left, taken, isLater⟩ :=
              ih isRest (Nat.lt_of_succ_lt_succ fits)
            rw [taken]
            exact ⟨left, rfl, isLater⟩

/-- Short records are read as they are. -/
theorem bufferedRecords_eq {room : Nat} {stream : List α}
    (fits : ∀ record ∈ records separator stream, record.length ≤ room) :
    bufferedRecords separator room stream = records separator stream := by
  induction stream using bufferedRecords.induct separator room with
  | case1 => rw [bufferedRecords, records]
  | case2 item stream ih =>
      cases isAll : records separator (item :: stream) with
      | nil =>
          rw [records] at isAll
          split at isAll
          · cases isAll
          · split at isAll <;> cases isAll
      | cons record later =>
          rw [isAll] at fits
          obtain ⟨left, taken, isLater⟩ := takeBuffered_records isAll
            (Nat.lt_succ_of_le (fits record List.mem_cons_self))
          rw [taken] at ih
          rw [bufferedRecords, taken, ih (by
            rw [isLater]
            exact fun other member => fits other (List.mem_cons_of_mem record member)), isLater]

end Library
