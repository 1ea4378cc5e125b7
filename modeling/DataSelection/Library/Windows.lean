/-
Contiguous windows of a list, by width and in order of position.

All but the last of the windows of one width are the windows of the next width, each
without its last item.
-/

import Mathlib.Data.List.Count
import Mathlib.Data.List.Range

namespace Library

variable {α : Type}

def windows (width : Nat) (items : List α) : List (List α) :=
  (List.range (items.length + 1 - width)).map (fun start => (items.drop start).take width)

theorem windows_of_short {width : Nat} {items : List α} (short : items.length < width) :
    windows width items = [] := by
  unfold windows
  rw [Nat.sub_eq_zero_of_le short, List.range_zero, List.map_nil]

theorem windows_cons {width : Nat} {item : α} {items : List α}
    (fits : width ≤ items.length + 1) :
    windows width (item :: items) = (item :: items).take width :: windows width items := by
  unfold windows
  have count : (item :: items).length + 1 - width = (items.length + 1 - width) + 1 := by
    rw [List.length_cons]
    omega
  rw [count, List.range_succ_eq_map, List.map_cons, List.drop_zero, List.map_map]
  rfl

theorem mem_windows {width : Nat} {items window : List α} :
    window ∈ windows width items ↔
      ∃ start, start + width ≤ items.length ∧ (items.drop start).take width = window := by
  unfold windows
  simp only [List.mem_map, List.mem_range]
  constructor
  · rintro ⟨start, bound, same⟩
    exact ⟨start, by omega, same⟩
  · rintro ⟨start, bound, same⟩
    exact ⟨start, by omega, same⟩

theorem length_of_mem_windows {width : Nat} {items window : List α}
    (member : window ∈ windows width items) : window.length = width := by
  rcases mem_windows.mp member with ⟨start, bound, rfl⟩
  rw [List.length_take, List.length_drop]
  omega

theorem subset_of_mem_windows {width : Nat} {items window : List α}
    (member : window ∈ windows width items) : window ⊆ items := by
  rcases mem_windows.mp member with ⟨start, bound, rfl⟩
  exact fun item present => List.mem_of_mem_drop (List.mem_of_mem_take present)

theorem length_windows (width : Nat) (items : List α) :
    (windows width items).length = items.length + 1 - width := by
  unfold windows
  rw [List.length_map, List.length_range]

/-- All but the last window of a width are the shortened windows of the next width. -/
theorem windows_eq_map_take_append {width : Nat} {items : List α} (fits : width ≤ items.length) :
    windows width items =
      (windows (width + 1) items).map (List.take width) ++
        [items.drop (items.length - width)] := by
  unfold windows
  have count : items.length + 1 - width = (items.length + 1 - (width + 1)) + 1 := by omega
  have last : items.length + 1 - (width + 1) = items.length - width := by omega
  rw [count, List.range_succ, List.map_append, List.map_singleton, List.map_map, last]
  congr 1
  · apply List.map_congr_left
    intro start _member
    rw [Function.comp_apply, List.take_take, Nat.min_eq_left (Nat.le_succ width)]
  · rw [List.take_of_length_le]
    rw [List.length_drop]
    omega

theorem windows_one (items : List α) : windows 1 items = items.map (fun item => [item]) := by
  induction items with
  | nil => rfl
  | cons item rest ih =>
      rw [windows_cons (Nat.le_add_left 1 _), ih]
      rfl

theorem windows_concat {width : Nat} {items : List α} (item : α) (fits : width ≤ items.length + 1) :
    windows width (items ++ [item]) =
      windows width items ++ [(items ++ [item]).drop (items.length + 1 - width)] := by
  unfold windows
  have count : (items ++ [item]).length + 1 - width = (items.length + 1 - width) + 1 := by
    rw [List.length_append, List.length_singleton]
    omega
  rw [count, List.range_succ, List.map_append, List.map_singleton]
  congr 1
  · apply List.map_congr_left
    intro start member
    have before : start < items.length + 1 - width := List.mem_range.mp member
    rw [List.drop_append_of_le_length (by omega), List.take_append_of_le_length]
    rw [List.length_drop]
    omega
  · rw [List.take_of_length_le]
    rw [List.length_drop, List.length_append, List.length_singleton]
    omega

variable [DecidableEq α]

/-- How many times `gram` occurs in `items` as a run of neighbours. -/
def occurrences (gram items : List α) : Nat := (windows gram.length items).count gram

theorem occurrences_pos_iff {gram items : List α} :
    0 < occurrences gram items ↔ gram ∈ windows gram.length items :=
  List.count_pos_iff

theorem occurrences_eq_countP (gram items : List α) :
    occurrences gram items = (windows gram.length items).countP (fun window => window = gram) := by
  unfold occurrences
  rw [List.count_eq_countP]
  apply List.countP_congr
  intro window _member
  rw [beq_iff_eq, decide_eq_true_iff]

theorem occurrences_le_length {gram items : List α} (nonempty : gram ≠ []) :
    occurrences gram items ≤ items.length := by
  have bound : occurrences gram items ≤ (windows gram.length items).length :=
    List.count_le_length
  have positive : 0 < gram.length := List.length_pos_of_ne_nil nonempty
  rw [length_windows] at bound
  omega

theorem occurrences_singleton_cons (item head : α) (rest : List α) :
    occurrences [item] (head :: rest) =
      (if item = head then 1 else 0) + occurrences [item] rest := by
  unfold occurrences
  rw [List.length_singleton, windows_cons (Nat.le_add_left 1 _), List.count_cons, Nat.add_comm]
  by_cases same : item = head
  · simp [same]
  · simp [same, Ne.symm same]

/-- One more item behind a text adds an occurrence of each of its ends. -/
theorem occurrences_concat {gram : List α} (items : List α) (item : α) :
    occurrences gram (items ++ [item]) =
      occurrences gram items + if gram <:+ items ++ [item] then 1 else 0 := by
  unfold occurrences
  by_cases fits : gram.length ≤ items.length + 1
  · have isEnd : gram <:+ items ++ [item] ↔
        (items ++ [item]).drop (items.length + 1 - gram.length) = gram := by
      rw [List.suffix_iff_eq_drop, List.length_append, List.length_singleton, eq_comm]
    rw [windows_concat item fits, List.count_append, List.count_singleton]
    simp only [isEnd, beq_iff_eq]
  · have long : (items ++ [item]).length < gram.length := by
      rw [List.length_append, List.length_singleton]
      omega
    have notEnd : ¬gram <:+ items ++ [item] := by
      intro isEnd
      have := isEnd.length_le
      omega
    rw [windows_of_short long, windows_of_short (by omega), if_neg notEnd]
    rfl

theorem occurrences_singleton_pos_iff {item : α} {items : List α} :
    0 < occurrences [item] items ↔ item ∈ items := by
  rw [occurrences_pos_iff, List.length_singleton, windows_one, List.mem_map]
  simp

end Library
