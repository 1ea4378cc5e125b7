/-
Texts, lines and word lists of the smoothing script.

A corpus is a file that is read line by line or a string that is split into lines.
-/

import DataSelection.Library.Tokens
import Mathlib.Data.List.TakeWhile

namespace WittenBell

open Library

abbrev Word := List Char

/-- The characters that `split` and `strip` take for whitespace. -/
def isSpace (char : Char) : Bool :=
  char ∈ [' ', '\t', '\n', '\r', '\x0b', '\x0c']

def split (text : List Char) : List Word := tokens isSpace text

def strip (text : List Char) : List Char := (text.dropWhile isSpace).rdropWhile isSpace

/-- `' '.join(words)`. -/
def join (words : List Word) : List Char := [' '].intercalate words

def startSymbol : Word := ['<', 's', '>']

def endSymbol : Word := ['<', '/', 's', '>']

inductive Corpus
  | file (content : List Char)
  | str (text : List Char)

/-- The rest of the line with its newline, and the text behind it. -/
def readline (unread : List Char) : List Char × List Char :=
  match unread.dropWhile (· ≠ '\n') with
  | [] => (unread, [])
  | newline :: rest => (unread.takeWhile (· ≠ '\n') ++ [newline], rest)

/-- The loop `while line: lines.append(line); line = corpus.readline()`. -/
def readLines : Nat → List Char → List (List Char)
  | 0, _ => []
  | fuel + 1, unread =>
      let next := readline unread
      if next.1 = [] then [] else next.1 :: readLines fuel next.2

theorem readLines_nil (fuel : Nat) : readLines fuel [] = [] := by
  cases fuel with
  | zero => rfl
  | succ fuel => rfl

theorem readLines_complete (fuel : Nat) (unread : List Char) (enough : unread.length ≤ fuel) :
    (readLines fuel unread).flatten = unread := by
  induction fuel generalizing unread with
  | zero =>
      rw [List.eq_nil_of_length_eq_zero (Nat.le_zero.mp enough), readLines_nil]
      rfl
  | succ fuel ih =>
      have whole : unread.takeWhile (· ≠ '\n') ++ unread.dropWhile (· ≠ '\n') = unread :=
        List.takeWhile_append_dropWhile
      cases behind : unread.dropWhile (· ≠ '\n') with
      | nil =>
          have last : readline unread = (unread, []) := by
            unfold readline
            rw [behind]
          rw [readLines, last]
          by_cases empty : unread = []
          · rw [if_pos empty, empty]
            rfl
          · rw [if_neg empty, readLines_nil, List.flatten_singleton]
      | cons newline rest =>
          have next : readline unread = (unread.takeWhile (· ≠ '\n') ++ [newline], rest) := by
            unfold readline
            rw [behind]
          have filled : unread.takeWhile (· ≠ '\n') ++ [newline] ≠ [] := by simp
          rw [behind] at whole
          have shorter : rest.length ≤ fuel := by
            have lengths := congrArg List.length whole
            simp only [List.length_append, List.length_cons] at lengths
            omega
          rw [readLines, next]
          dsimp only
          rw [if_neg filled, List.flatten_cons, ih rest shorter, List.append_assoc,
            List.singleton_append, whole]

def IsLine (line : List Char) : Prop := ∃ body, line = body ++ ['\n'] ∧ '\n' ∉ body

theorem readLines_isLine {body : List Char} (clean : '\n' ∉ body) (fuel : Nat)
    (rest : List Char) :
    readLines (fuel + 1) (body ++ '\n' :: rest) = (body ++ ['\n']) :: readLines fuel rest := by
  have next : readline (body ++ '\n' :: rest) = (body ++ ['\n'], rest) := by
    unfold readline
    rw [dropWhile_of_absent clean, takeWhile_of_absent clean]
  rw [readLines, next]
  dsimp only
  rw [if_neg (by simp)]

theorem readLines_flatten {lines : List (List Char)} (each : ∀ line ∈ lines, IsLine line)
    (fuel : Nat) (enough : lines.flatten.length ≤ fuel) :
    readLines fuel lines.flatten = lines := by
  induction lines generalizing fuel with
  | nil => exact readLines_nil fuel
  | cons line lines ih =>
      rcases each line List.mem_cons_self with ⟨body, rfl, clean⟩
      rw [List.flatten_cons, List.append_assoc, List.singleton_append]
      simp only [List.flatten_cons, List.length_append, List.length_singleton] at enough
      cases fuel with
      | zero => omega
      | succ fuel =>
          rw [readLines_isLine clean, ih (fun other member =>
            each other (List.mem_cons_of_mem _ member)) fuel (by omega)]

/-- Lines end at `\n`, at `\r` and at the pair of both, and the ends are dropped. -/
def splitlines : List Char → List (List Char)
  | [] => []
  | '\r' :: '\n' :: rest => [] :: splitlines rest
  | char :: rest =>
      if char = '\n' ∨ char = '\r' then [] :: splitlines rest
      else
        match splitlines rest with
        | [] => [[char]]
        | line :: others => (char :: line) :: others

structure CleanLine (line : List Char) : Prop where
  newline : '\n' ∉ line
  carriage : '\r' ∉ line

theorem CleanLine.subset {line part : List Char} (clean : CleanLine line) (included : part ⊆ line) :
    CleanLine part :=
  ⟨fun member => clean.newline (included member), fun member => clean.carriage (included member)⟩

theorem cleanLine_nil : CleanLine [] := ⟨List.not_mem_nil, List.not_mem_nil⟩

theorem cleanLine_of_mem_splitlines {text : List Char} :
    ∀ line ∈ splitlines text, CleanLine line := by
  fun_induction splitlines text with
  | case1 =>
      intro line member
      cases member
  | case2 rest ih =>
      intro line member
      rcases List.mem_cons.mp member with rfl | later
      · exact cleanLine_nil
      · exact ih line later
  | case3 char rest notBoth isEnd ih =>
      intro line member
      rcases List.mem_cons.mp member with rfl | later
      · exact cleanLine_nil
      · exact ih line later
  | case4 char rest notBoth notEnd empty ih =>
      intro line member
      rw [List.mem_singleton.mp member]
      rw [not_or] at notEnd
      exact ⟨fun here => notEnd.1 (List.mem_singleton.mp here).symm,
        fun here => notEnd.2 (List.mem_singleton.mp here).symm⟩
  | case5 char rest notBoth notEnd first others found ih =>
      rw [found] at ih
      rw [not_or] at notEnd
      intro line member
      rcases List.mem_cons.mp member with rfl | later
      · have clean := ih first List.mem_cons_self
        constructor
        · rw [List.mem_cons, not_or]
          exact ⟨Ne.symm notEnd.1, clean.newline⟩
        · rw [List.mem_cons, not_or]
          exact ⟨Ne.symm notEnd.2, clean.carriage⟩
      · exact ih line (List.mem_cons_of_mem first later)

theorem splitlines_append_newline {line : List Char} (clean : CleanLine line)
    (rest : List Char) : splitlines (line ++ '\n' :: rest) = line :: splitlines rest := by
  induction line with
  | nil =>
      rw [List.nil_append, splitlines, if_pos (Or.inl rfl)]
      intro others isCarriage
      exact absurd isCarriage (by decide)
  | cons char line ih =>
      have tailClean := clean.subset (List.subset_cons_self char line)
      have notEnd : ¬ (char = '\n' ∨ char = '\r') := by
        rintro (rfl | rfl)
        · exact clean.newline List.mem_cons_self
        · exact clean.carriage List.mem_cons_self
      rw [List.cons_append, splitlines, if_neg notEnd, ih tailClean]
      intro others isCarriage
      exact absurd (Or.inr isCarriage) notEnd

def Corpus.lines : Corpus → List (List Char)
  | .file content => readLines (content.length + 1) content
  | .str text => splitlines text

/-- `' '.join(('<s>', line.strip(), '</s>')).split()`. -/
def wordList (line : List Char) : List Word :=
  split (join [startSymbol, strip line, endSymbol])

/-! ### The words of a line -/

theorem isSpace_blank : isSpace ' ' = true := by decide

theorem split_strip (line : List Char) : split (strip line) = split line := by
  unfold split strip
  rw [tokens_rdropWhile, tokens_dropWhile]

theorem wordList_eq (line : List Char) :
    wordList line = startSymbol :: (split line ++ [endSymbol]) := by
  have joined : join [startSymbol, strip line, endSymbol] =
      startSymbol ++ ' ' :: (strip line ++ ' ' :: endSymbol) := by
    simp [join, List.intercalate_cons_cons, List.intercalate_singleton]
  have start : split startSymbol = [startSymbol] := by decide
  have stop : split endSymbol = [endSymbol] := by decide
  unfold wordList
  rw [joined]
  unfold split at start stop ⊢
  rw [tokens_append_cons _ _ isSpace_blank, tokens_append_cons _ _ isSpace_blank, start, stop]
  exact congrArg (fun found => startSymbol :: (found ++ [endSymbol])) (split_strip line)

/-- What `split` returns: without whitespace and not empty. -/
structure CleanWord (word : Word) : Prop where
  nonempty : word ≠ []
  clean : ∀ char ∈ word, isSpace char = false

theorem cleanWord_of_mem_split {text : List Char} {word : Word} (member : word ∈ split text) :
    CleanWord word := ⟨ne_nil_of_mem_tokens member, clean_of_mem_tokens member⟩

theorem CleanWord.newline_notMem {word : Word} (clean : CleanWord word) : '\n' ∉ word := by
  intro member
  have space := clean.clean '\n' member
  revert space
  decide

theorem newline_notMem_join {words : List Word} (clean : ∀ word ∈ words, CleanWord word) :
    '\n' ∉ join words := by
  induction words with
  | nil => exact List.not_mem_nil
  | cons word words ih =>
      have head := (clean word List.mem_cons_self).newline_notMem
      have tail := ih (fun other member => clean other (List.mem_cons_of_mem word member))
      cases words with
      | nil => simpa [join] using head
      | cons second others =>
          unfold join at tail ⊢
          rw [List.intercalate_cons_cons]
          simp only [List.mem_append, List.mem_singleton, not_or]
          exact ⟨⟨head, by decide⟩, tail⟩

theorem split_join {words : List Word} (clean : ∀ word ∈ words, CleanWord word) :
    split (join words) = words :=
  tokens_intercalate isSpace_blank words (fun word member => (clean word member).nonempty)
    (fun word member => (clean word member).clean)

theorem join_injective {left right : List Word} (leftClean : ∀ word ∈ left, CleanWord word)
    (rightClean : ∀ word ∈ right, CleanWord word) (same : join left = join right) :
    left = right := by
  rw [← split_join leftClean, same, split_join rightClean]

theorem join_singleton (word : Word) : join [word] = word := List.intercalate_singleton

theorem join_append {front back : List Word} (filledFront : front ≠ []) (filledBack : back ≠ []) :
    join (front ++ back) = join front ++ ' ' :: join back := by
  unfold join
  induction front with
  | nil => exact absurd rfl filledFront
  | cons first rest ih =>
      cases rest with
      | nil =>
          rw [List.singleton_append, List.intercalate_cons_of_ne_nil filledBack,
            List.intercalate_singleton, List.append_assoc]
          rfl
      | cons second others =>
          have later := ih (List.cons_ne_nil second others)
          rw [List.cons_append] at later
          rw [List.cons_append, List.cons_append, List.intercalate_cons_cons, later,
            List.intercalate_cons_cons]
          simp only [List.append_assoc]

end WittenBell
