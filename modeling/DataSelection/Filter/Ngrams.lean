/-
The n-grams of a token list are its windows without a missing word.

Skipping ahead past a missing word loses no window, because every window that
starts no later than that word and no earlier than the scan contains it.
-/

import DataSelection.Filter.Corpora
import DataSelection.Library.Windows

namespace Filter

open Library

def noMissingWord (gram : Ngram) : Bool := decide (missingWordId ∉ gram)

private def windowsFrom (tokens : List Nat) (order start : Nat) : List Ngram :=
  (List.range' start (tokens.length - order - start)).map
    (fun position => (tokens.drop position).take (order + 1))

private theorem readGram_ok (tokens : List Nat) (remaining word : Nat) (gram read : Ngram)
    (result : readGram tokens remaining word gram = .ok read)
    (inRange : word + remaining ≤ tokens.length) :
    read = gram ++ (tokens.drop word).take remaining ∧
      missingWordId ∉ (tokens.drop word).take remaining := by
  induction remaining generalizing word gram with
  | zero =>
      cases result
      simp
  | succ remaining ih =>
      rw [readGram] at result
      have inside : word < tokens.length := by omega
      have here : tokens.drop word = tokens[word] :: tokens.drop (word + 1) :=
        List.drop_eq_getElem_cons inside
      have token : tokens.getD word missingWordId = tokens[word] := by
        rw [List.getD_eq_getElem?_getD, List.getElem?_eq_getElem inside, Option.getD_some]
      simp only [token] at result
      by_cases missing : tokens[word] = missingWordId
      · rw [if_pos missing] at result
        cases result
      · rw [if_neg missing] at result
        obtain ⟨same, clean⟩ := ih (word + 1) (gram ++ [tokens[word]]) result (by omega)
        rw [here, List.take_succ_cons]
        refine ⟨?_, ?_⟩
        · rw [same, List.append_assoc, List.singleton_append]
        · rw [List.mem_cons]
          exact fun either => either.elim (fun equal => missing equal.symm) clean

theorem readGram_error (tokens : List Nat) (remaining word found : Nat) (gram : Ngram)
    (result : readGram tokens remaining word gram = .error found)
    (inRange : word + remaining ≤ tokens.length) :
    word ≤ found ∧ found < word + remaining ∧ tokens[found]? = some missingWordId := by
  induction remaining generalizing word gram with
  | zero => cases result
  | succ remaining ih =>
      rw [readGram] at result
      have inside : word < tokens.length := by omega
      have token : tokens.getD word missingWordId = tokens[word] := by
        rw [List.getD_eq_getElem?_getD, List.getElem?_eq_getElem inside, Option.getD_some]
      simp only [token] at result
      by_cases missing : tokens[word] = missingWordId
      · rw [if_pos missing] at result
        cases result
        exact ⟨Nat.le_refl _, by omega, (List.getElem?_eq_getElem inside).trans
          (congrArg some missing)⟩
      · rw [if_neg missing] at result
        obtain ⟨lower, upper, isMissing⟩ := ih (word + 1) _ result (by omega)
        exact ⟨by omega, by omega, isMissing⟩

private theorem mem_window {tokens : List Nat} {found position width : Nat}
    (isMissing : tokens[found]? = some missingWordId) (lower : position ≤ found)
    (upper : found < position + width) :
    missingWordId ∈ (tokens.drop position).take width := by
  apply List.mem_of_getElem? (i := found - position)
  rw [List.getElem?_take_of_lt (by omega), List.getElem?_drop,
    Nat.add_sub_of_le lower]
  exact isMissing

private theorem filter_windowsFrom_skip {tokens : List Nat} {order start found : Nat}
    (isMissing : tokens[found]? = some missingWordId) (lower : start ≤ found)
    (upper : found < start + (order + 1)) (fits : start < tokens.length - order) :
    (windowsFrom tokens order start).filter noMissingWord =
      (windowsFrom tokens order (found + 1)).filter noMissingWord := by
  have dirty : ∀ position, start ≤ position → position ≤ found →
      noMissingWord ((tokens.drop position).take (order + 1)) = false := by
    intro position afterStart beforeFound
    apply decide_eq_false
    exact not_not.mpr (mem_window isMissing beforeFound (by omega))
  unfold windowsFrom
  by_cases inside : found + 1 ≤ tokens.length - order
  · have count : tokens.length - order - start =
        (found + 1 - start) + (tokens.length - order - (found + 1)) := by omega
    rw [count, ← List.range'_append_1, List.map_append, List.filter_append]
    have skipped : ((List.range' start (found + 1 - start)).map
        (fun position => (tokens.drop position).take (order + 1))).filter noMissingWord = [] := by
      rw [List.filter_eq_nil_iff]
      intro gram member
      rcases List.mem_map.mp member with ⟨position, inRange, rfl⟩
      rcases List.mem_range'_1.mp inRange with ⟨afterStart, beforeEnd⟩
      rw [dirty position afterStart (by omega)]
      exact Bool.false_ne_true
    rw [skipped, List.nil_append, Nat.add_sub_of_le (by omega)]
  · have noneLeft : tokens.length - order - (found + 1) = 0 := by omega
    rw [noneLeft, List.range'_zero, List.map_nil, List.filter_nil, List.filter_eq_nil_iff]
    intro gram member
    rcases List.mem_map.mp member with ⟨position, inRange, rfl⟩
    rcases List.mem_range'_1.mp inRange with ⟨afterStart, beforeEnd⟩
    rw [dirty position afterStart (by omega)]
    exact Bool.false_ne_true

private theorem windowsFrom_cons {tokens : List Nat} {order start : Nat}
    (fits : start < tokens.length - order) :
    windowsFrom tokens order start =
      (tokens.drop start).take (order + 1) :: windowsFrom tokens order (start + 1) := by
  unfold windowsFrom
  have count : tokens.length - order - start = (tokens.length - order - (start + 1)) + 1 := by
    omega
  rw [count, List.range'_succ, List.map_cons]

private theorem ngramsOfOrder_eq (tokens : List Nat) (order start : Nat) :
    ngramsOfOrder tokens order start = (windowsFrom tokens order start).filter noMissingWord := by
  induction start using ngramsOfOrder.induct tokens order with
  | case1 start fits word stopped ih =>
      obtain ⟨lower, upper, isMissing⟩ :=
        readGram_error tokens (order + 1) start word [] stopped (by omega)
      rw [ngramsOfOrder, if_pos fits, stopped]
      dsimp only
      rw [ih, filter_windowsFrom_skip isMissing lower upper fits, Nat.add_sub_of_le lower]
  | case2 start fits gram read ih =>
      obtain ⟨same, clean⟩ := readGram_ok tokens (order + 1) start [] gram read (by omega)
      rw [List.nil_append] at same
      have kept : noMissingWord ((tokens.drop start).take (order + 1)) = true :=
        decide_eq_true clean
      rw [ngramsOfOrder, if_pos fits, read]
      dsimp only
      rw [ih, windowsFrom_cons fits, List.filter_cons_of_pos kept, same]
  | case3 start done =>
      have noneLeft : tokens.length - order - start = 0 := by omega
      rw [ngramsOfOrder, if_neg done, windowsFrom, noneLeft]
      rfl

private theorem flatMap_takeWhile_range {β : Type} (limit count : Nat)
    (scanned full : Nat → List β) (same : ∀ order < limit, scanned order = full order)
    (short : ∀ order, limit ≤ order → full order = []) :
    ((List.range count).takeWhile (· < limit)).flatMap scanned =
      (List.range count).flatMap full := by
  induction count with
  | zero => rfl
  | succ count ih =>
      rw [List.range_succ, List.flatMap_append, ← ih]
      by_cases below : count < limit
      · have passes : ∀ order ∈ List.range count, decide (order < limit) = true := by
          intro order member
          have bound := List.mem_range.mp member
          exact decide_eq_true (by omega)
        have passesLast : ∀ order ∈ List.range count ++ [count],
            decide (order < limit) = true := by
          intro order member
          rcases List.mem_append.mp member with inRange | last
          · exact passes order inRange
          · rw [List.mem_singleton.mp last]
            exact decide_eq_true below
        rw [List.takeWhile_eq_self_iff.mpr passesLast, List.takeWhile_eq_self_iff.mpr passes,
          List.flatMap_append, List.flatMap_singleton, List.flatMap_singleton, same count below]
      · have stops : [count].takeWhile (· < limit) = [] := by
          simp [Nat.le_of_not_lt below]
        rw [List.takeWhile_append, stops, List.flatMap_singleton,
          short count (Nat.le_of_not_lt below), List.append_nil, List.append_nil]
        split
        · rename_i complete
          rw [(List.takeWhile_prefix _).eq_of_length complete]
        · rfl

/-- Order by order, `getNgrams` lists the windows that contain no missing word. -/
theorem getNgrams_eq (tokens : List Nat) :
    getNgrams tokens =
      (List.range ngramOrder).flatMap
        (fun order => (windows (order + 1) tokens).filter noMissingWord) := by
  unfold getNgrams
  apply flatMap_takeWhile_range
  · intro order below
    have sameCount : tokens.length - order = tokens.length + 1 - (order + 1) := by omega
    rw [ngramsOfOrder_eq]
    unfold windowsFrom windows
    rw [Nat.sub_zero, ← List.range_eq_range', sameCount]
  · intro order above
    rw [windows_of_short (by omega)]
    rfl

/-- The keys a feature can have: one to three words, none of them missing. -/
def IsGram (gram : Ngram) : Prop :=
  0 < gram.length ∧ gram.length ≤ ngramOrder ∧ missingWordId ∉ gram

theorem mem_getNgrams {tokens : List Nat} {gram : Ngram} :
    gram ∈ getNgrams tokens ↔ IsGram gram ∧ 0 < occurrences gram tokens := by
  rw [getNgrams_eq, List.mem_flatMap, occurrences_pos_iff]
  constructor
  · rintro ⟨order, inRange, member⟩
    rcases List.mem_filter.mp member with ⟨isWindow, clean⟩
    have width := length_of_mem_windows isWindow
    have bound := List.mem_range.mp inRange
    refine ⟨⟨by omega, by omega, of_decide_eq_true clean⟩, ?_⟩
    rw [width]
    exact isWindow
  · rintro ⟨⟨positive, bound, clean⟩, isWindow⟩
    refine ⟨gram.length - 1, List.mem_range.mpr (by omega), ?_⟩
    rw [Nat.sub_add_cancel positive]
    exact List.mem_filter.mpr ⟨isWindow, decide_eq_true clean⟩

private theorem count_windows_of_order {tokens : List Nat} {gram : Ngram}
    (clean : missingWordId ∉ gram) (order : Nat) :
    ((windows (order + 1) tokens).filter noMissingWord).count gram =
      if order + 1 = gram.length then occurrences gram tokens else 0 := by
  have kept : noMissingWord gram = true := decide_eq_true clean
  rw [List.count_filter kept]
  by_cases width : order + 1 = gram.length
  · rw [if_pos width, occurrences, width]
  · rw [if_neg width, List.count_eq_zero]
    intro member
    exact width (length_of_mem_windows member).symm

theorem count_getNgrams {tokens : List Nat} {gram : Ngram} (isGram : IsGram gram) :
    (getNgrams tokens).count gram = occurrences gram tokens := by
  rcases isGram with ⟨positive, bound, clean⟩
  have orders : List.range ngramOrder = [0, 1, 2] := rfl
  rw [getNgrams_eq, List.count_flatMap, orders]
  simp only [List.map_cons, List.map_nil, Function.comp_apply, List.sum_cons, List.sum_nil,
    count_windows_of_order clean]
  have width : gram.length = 1 ∨ gram.length = 2 ∨ gram.length = 3 := by
    unfold ngramOrder at bound
    omega
  rcases width with one | two | three
  · simp [one]
  · simp [two]
  · simp [three]

end Filter
