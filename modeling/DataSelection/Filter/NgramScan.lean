/-
The n-gram loops in the integers of the machine.

Positions are 32-bit unsigned and a vector is read without a check of its bounds, so
the loops are written with every sum reduced and every read and difference checked.
Below 2^32 tokens nothing wraps, and the loops list the n-grams of the token list.
-/

import DataSelection.Filter.Ngrams

namespace Filter.Unsigned

open Library

/-- Why a loop gives no result: a read past the end of the vector, a difference below
zero, or fuel that did not last. -/
inductive Fault
  | pastEnd
  | belowZero
  | unfinished
  deriving DecidableEq

def uint (value : Nat) : Nat := Counters.machine.uint value

def readAt (tokens : List Nat) (position : Nat) : Except Fault Nat :=
  match tokens[position]? with
  | none => .error .pastEnd
  | some id => .ok id

def minus (left right : Nat) : Except Fault Nat :=
  if right ≤ left then .ok (left - right) else .error .belowZero

/-- The loop over `word`.  A missing word moves `start` and cancels the gram. -/
def readWords (tokens : List Nat) (order : Nat) :
    Nat → Nat → Nat → Ngram → Except Fault (Nat × Option Ngram)
  | 0, _, _, _ => .error .unfinished
  | fuel + 1, start, word, gram =>
      if word ≤ uint (start + order) then do
        let id ← readAt tokens word
        if id = missingWordId then
          let skipped ← minus word start
          return (uint (start + skipped), none)
        else readWords tokens order fuel start (uint (word + 1)) (gram ++ [id])
      else return (start, some gram)

def readStarts (tokens : List Nat) (order : Nat) :
    Nat → Nat → List Ngram → Except Fault (List Ngram)
  | 0, _, _ => .error .unfinished
  | fuel + 1, start, ngrams => do
      let bound ← minus tokens.length order
      if start < bound then
        let (stopped, gram) ← readWords tokens order fuel start start []
        readStarts tokens order fuel (uint (stopped + 1)) (ngrams ++ gram.toList)
      else return ngrams

def readOrders (tokens : List Nat) : Nat → Nat → List Ngram → Except Fault (List Ngram)
  | 0, _, _ => .error .unfinished
  | fuel + 1, order, ngrams =>
      if order < ngramOrder ∧ order < tokens.length then do
        let collected ← readStarts tokens order fuel 0 ngrams
        readOrders tokens fuel (uint (order + 1)) collected
      else return ngrams

def getNgrams (fuel : Nat) (tokens : List Nat) : Except Fault (List Ngram) :=
  readOrders tokens fuel 0 []

theorem ok_bind {α β : Type} (value : α) (next : α → Except Fault β) :
    (Except.ok value >>= next) = next value := rfl

theorem uint_of_lt {value : Nat} (small : value < 2 ^ 32) : uint value = value :=
  Counters.machine.uint_of_lt small

theorem uint_lt (value : Nat) : uint value < 2 ^ 32 :=
  Nat.mod_lt value (Nat.two_pow_pos 32)

theorem minus_of_le {left right : Nat} (ordered : right ≤ left) :
    minus left right = .ok (left - right) := by
  unfold minus
  rw [if_pos ordered]

variable {tokens : List Nat} {order : Nat}

theorem readAt_of_lt {position : Nat} (inside : position < tokens.length) :
    readAt tokens position = .ok (tokens.getD position missingWordId) := by
  unfold readAt
  rw [List.getD_eq_getElem?_getD, List.getElem?_eq_getElem inside, Option.getD_some]

/-! ### Fewer tokens than positions -/

section

variable (fits : tokens.length < 2 ^ 32)

include fits

theorem readWords_eq {start word remaining fuel : Nat} (gram : Ngram)
    (inside : start + order < tokens.length) (reached : start ≤ word)
    (left : word + remaining = start + order + 1) (enough : remaining < fuel) :
    readWords tokens order fuel start word gram =
      match readGram tokens remaining word gram with
      | .error found => .ok (found, none)
      | .ok read => .ok (start, some read) := by
  have last : uint (start + order) = start + order := uint_of_lt (inside.trans fits)
  induction remaining generalizing word gram fuel with
  | zero =>
      obtain ⟨fuel, rfl⟩ := Nat.exists_eq_add_one_of_ne_zero (Nat.ne_zero_of_lt enough)
      have finished : ¬ word ≤ uint (start + order) := by
        rw [last]
        omega
      rw [readWords, if_neg finished]
      rfl
  | succ remaining ih =>
      obtain ⟨fuel, rfl⟩ := Nat.exists_eq_add_one_of_ne_zero (Nat.ne_zero_of_lt enough)
      have goesOn : word ≤ uint (start + order) := by
        rw [last]
        omega
      have within : word < tokens.length := by omega
      have following : uint (word + 1) = word + 1 := uint_of_lt (by omega)
      rw [readWords, if_pos goesOn, readAt_of_lt within, readGram]
      simp only [ok_bind]
      by_cases missing : tokens.getD word missingWordId = missingWordId
      · have moved : uint (start + (word - start)) = word := by
          rw [Nat.add_sub_of_le reached]
          exact uint_of_lt (within.trans fits)
        rw [if_pos missing, if_pos missing, minus_of_le reached]
        simp only [ok_bind, moved]
        rfl
      · rw [if_neg missing, if_neg missing, following]
        exact ih _ (by omega) (by omega) (by omega)

theorem readStarts_turn {start fuel : Nat} (ngrams : List Ngram)
    (inside : start < tokens.length - order) (enough : order + 1 < fuel) :
    readStarts tokens order (fuel + 1) start ngrams =
      match readGram tokens (order + 1) start [] with
      | .error found => readStarts tokens order fuel (found + 1) ngrams
      | .ok gram => readStarts tokens order fuel (start + 1) (ngrams ++ [gram]) := by
  have nonempty : order ≤ tokens.length := by omega
  have following : ∀ position < tokens.length, uint (position + 1) = position + 1 :=
    fun position bound => uint_of_lt (by omega)
  rw [readStarts, minus_of_le nonempty, ok_bind, if_pos inside,
    readWords_eq fits [] (by omega) (Nat.le_refl start) (Nat.add_assoc start order 1).symm enough]
  cases read : readGram tokens (order + 1) start [] with
  | error found =>
      obtain ⟨_reached, near, _isMissing⟩ :=
        readGram_error tokens (order + 1) start found [] read (by omega)
      simp only [ok_bind, following found (by omega), Option.toList_none, List.append_nil]
  | ok gram => simp only [ok_bind, following start (by omega), Option.toList_some]

theorem readStarts_eq {start fuel : Nat} (ngrams : List Ngram) (nonempty : order < tokens.length)
    (reached : start ≤ tokens.length) (enough : tokens.length - start + order + 2 < fuel) :
    readStarts tokens order fuel start ngrams =
      .ok (ngrams ++ ngramsOfOrder tokens order start) := by
  obtain ⟨fuel, rfl⟩ := Nat.exists_eq_add_one_of_ne_zero (Nat.ne_zero_of_lt enough)
  induction start using ngramsOfOrder.induct tokens order generalizing ngrams fuel with
  | case1 start inside found stopped ih =>
      obtain ⟨after, near, _isMissing⟩ :=
        readGram_error tokens (order + 1) start found [] stopped (by omega)
      obtain ⟨fuel, rfl⟩ := Nat.exists_eq_add_one_of_ne_zero (by omega : fuel ≠ 0)
      rw [Nat.add_sub_of_le after] at ih
      rw [readStarts_turn fits ngrams inside (by omega), ngramsOfOrder, if_pos inside, stopped]
      dsimp only
      rw [ih ngrams (by omega) fuel (by omega), Nat.add_sub_of_le after]
  | case2 start inside gram read ih =>
      obtain ⟨fuel, rfl⟩ := Nat.exists_eq_add_one_of_ne_zero (by omega : fuel ≠ 0)
      rw [readStarts_turn fits ngrams inside (by omega), ngramsOfOrder, if_pos inside, read]
      dsimp only
      rw [ih (ngrams ++ [gram]) (by omega) fuel (by omega), List.append_assoc,
        List.singleton_append]
  | case3 start done =>
      rw [readStarts, minus_of_le nonempty.le, ok_bind, if_neg done, ngramsOfOrder, if_neg done,
        List.append_nil]
      rfl

theorem readOrders_eq {orders fuel : Nat} (ngrams : List Ngram) (below : orders ≤ ngramOrder)
    (enough : tokens.length + ngramOrder + 2 + orders < fuel) :
    readOrders tokens fuel (ngramOrder - orders) ngrams =
      .ok (ngrams ++ ((List.range' (ngramOrder - orders) orders).takeWhile
        (· < tokens.length)).flatMap (fun order => ngramsOfOrder tokens order 0)) := by
  induction orders generalizing ngrams fuel with
  | zero =>
      obtain ⟨fuel, rfl⟩ := Nat.exists_eq_add_one_of_ne_zero (Nat.ne_zero_of_lt enough)
      have finished : ¬ (ngramOrder - 0 < ngramOrder ∧ ngramOrder - 0 < tokens.length) :=
        fun both => Nat.lt_irrefl ngramOrder both.1
      rw [readOrders, if_neg finished, List.range'_zero]
      simp only [List.takeWhile_nil, List.flatMap_nil, List.append_nil]
      rfl
  | succ orders ih =>
      obtain ⟨fuel, rfl⟩ := Nat.exists_eq_add_one_of_ne_zero (Nat.ne_zero_of_lt enough)
      have here : ngramOrder - (orders + 1) < ngramOrder := by omega
      have next : ngramOrder - (orders + 1) + 1 = ngramOrder - orders := by omega
      rw [readOrders, List.range'_succ, List.takeWhile_cons, next]
      by_cases nonempty : ngramOrder - (orders + 1) < tokens.length
      · have collected := readStarts_eq fits ngrams nonempty (Nat.zero_le _)
          (by omega : tokens.length - 0 + (ngramOrder - (orders + 1)) + 2 < fuel)
        have following : uint (ngramOrder - orders) = ngramOrder - orders := by
          unfold ngramOrder
          exact uint_of_lt (by omega)
        rw [if_pos ⟨here, nonempty⟩, collected, ok_bind, following, ih _ (by omega) (by omega)]
        rw [if_pos (decide_eq_true nonempty), List.flatMap_cons, List.append_assoc]
      · rw [if_neg (fun both => nonempty both.2), if_neg (by simpa using nonempty)]
        simp only [List.flatMap_nil, List.append_nil]
        rfl

theorem getNgrams_eq_ok {fuel : Nat} (enough : tokens.length + 2 * ngramOrder + 2 < fuel) :
    getNgrams fuel tokens = .ok (Filter.getNgrams tokens) := by
  have scanned := readOrders_eq fits [] (Nat.le_refl ngramOrder) (by omega : _ < fuel)
  rw [Nat.sub_self, List.nil_append, ← List.range_eq_range'] at scanned
  exact scanned

end

theorem getNgrams_listsWindows {fuel : Nat} (fits : tokens.length < 2 ^ 32)
    (enough : tokens.length + 2 * ngramOrder + 2 < fuel) :
    getNgrams fuel tokens = .ok ((List.range ngramOrder).flatMap
      (fun order => (windows (order + 1) tokens).filter noMissingWord)) := by
  rw [getNgrams_eq_ok fits enough, getNgrams_eq]

theorem getNgrams_listsWindows_skipped :
    getNgrams 14 [4, 0, 5, 6, 5] = .ok [[4], [5], [6], [5], [5, 6], [6, 5], [5, 6, 5]] :=
  getNgrams_listsWindows (by decide) (by decide)

/-! ### As many tokens as positions, or more -/

/-- No position reaches the end of the vector, so the first order is never finished. -/
theorem readStarts_endless (long : 2 ^ 32 ≤ tokens.length) {start : Nat} (small : start < 2 ^ 32)
    (fuel : Nat) (ngrams collected : List Ngram) :
    readStarts tokens 0 fuel start ngrams ≠ .ok collected := by
  induction fuel generalizing start ngrams with
  | zero => exact fun finished => nomatch finished
  | succ fuel ih =>
      have inside : start < tokens.length - 0 := small.trans_le long
      rw [readStarts, minus_of_le (Nat.zero_le _), ok_bind, if_pos inside]
      cases readWords tokens 0 fuel start start [] with
      | error fault => exact fun finished => nomatch finished
      | ok read => exact ih (uint_lt _) _

theorem getNgrams_endless (long : 2 ^ 32 ≤ tokens.length) (fuel : Nat) (collected : List Ngram) :
    getNgrams fuel tokens ≠ .ok collected := by
  cases fuel with
  | zero => exact fun finished => nomatch finished
  | succ fuel =>
      have nonempty : 0 < tokens.length := (Nat.two_pow_pos 32).trans_le long
      have first : 0 < ngramOrder ∧ 0 < tokens.length := ⟨Nat.zero_lt_succ 2, nonempty⟩
      rw [getNgrams, readOrders, if_pos first]
      cases ran : readStarts tokens 0 fuel 0 [] with
      | error fault => exact fun finished => nomatch finished
      | ok ngrams =>
          exact absurd ran (readStarts_endless long (Nat.two_pow_pos 32) fuel [] ngrams)

theorem missingWords_neverScanned :
    ¬ ∃ fuel collected,
      getNgrams fuel (List.replicate (2 ^ 32) missingWordId) = .ok collected := by
  intro ⟨fuel, collected, finished⟩
  have long : 2 ^ 32 ≤ (List.replicate (2 ^ 32) missingWordId).length :=
    List.length_replicate.ge
  exact getNgrams_endless long fuel collected finished

end Filter.Unsigned
