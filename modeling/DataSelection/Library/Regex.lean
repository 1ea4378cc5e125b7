/-
Reading a regular expression from its tokens.

The reader keeps a frame for every group that is still unfinished.  A frame holds the
finished branches, the items of the branch being read and its last item, which a
quantifier may still change.
-/

import Mathlib.Computability.RegularExpressions
import Mathlib.Order.CompletePartialOrder

namespace Library

inductive Token (α : Type)
  | atom (symbol : α)
  | opening
  | closing
  | bar
  | quest
  | times (least : Nat) (most : Option Nat)
  deriving DecidableEq

/-- Whether an item was quantified: not yet, by a count, or by a lazy count. -/
inductive Marks
  | plain
  | counted
  | reluctant
  deriving DecidableEq

structure Item (α : Type) where
  regex : RegularExpression α
  marks : Marks

structure Frame (α : Type) where
  branches : List (List (RegularExpression α))
  items : List (RegularExpression α)
  last : Option (Item α)

section

variable {α : Type}

namespace Frame

def empty : Frame α :=
  { branches := []
    items := []
    last := none }

def sequence (frame : Frame α) : List (RegularExpression α) :=
  frame.items ++ (frame.last.map Item.regex).toList

def flush (frame : Frame α) : Frame α :=
  { branches := frame.branches
    items := frame.sequence
    last := none }

def push (frame : Frame α) (regex : RegularExpression α) : Frame α :=
  { branches := frame.branches
    items := frame.sequence
    last := some { regex := regex
                   marks := .plain } }

def branch (frame : Frame α) : Frame α :=
  { branches := frame.branches ++ [frame.sequence]
    items := []
    last := none }

def close (frame : Frame α) : RegularExpression α :=
  ((frame.branches ++ [frame.sequence]).map List.prod).sum

end Frame

/-- The copies of an item from the least to the greatest number; without a greatest
number there is no end. -/
def repeated (regex : RegularExpression α) (least : Nat) : Option Nat → RegularExpression α
  | none => regex ^ least * regex.star
  | some most => regex ^ least * (1 + regex) ^ (most - least)

/-- A quantifier behind an item.  A question mark behind a count makes it lazy, which
does not change what is matched as a whole. -/
def Item.quantify (item : Item α) : Token α → Option (Item α)
  | .quest =>
      match item.marks with
      | .plain => some { regex := repeated item.regex 0 (some 1)
                         marks := .counted }
      | .counted => some { item with marks := .reluctant }
      | .reluctant => none
  | .times least most =>
      match item.marks with
      | .plain => some { regex := repeated item.regex least most
                         marks := .counted }
      | _ => none
  | _ => none

/-- One token, for the frames from the innermost group to the whole expression. -/
def readToken : List (Frame α) → Token α → Option (List (Frame α))
  | [], _ => none
  | frame :: outer, .atom symbol => some (frame.push (.char symbol) :: outer)
  | frame :: outer, .opening => some (.empty :: frame.flush :: outer)
  | [_], .closing => none
  | frame :: next :: outer, .closing => some (next.push frame.close :: outer)
  | frame :: outer, .bar => some (frame.branch :: outer)
  | frame :: outer, quantifier => do
      let item ← frame.last
      let quantified ← item.quantify quantifier
      some ({ frame with last := some quantified } :: outer)

def readTokens (tokens : List (Token α)) : Option (Frame α) := do
  match ← tokens.foldlM readToken [.empty] with
  | [frame] => some frame
  | _ => none

/-! ### What an expression denotes -/

variable {β : Type}

/-- The language of an expression whose atoms stand for languages. -/
noncomputable def denote (meaning : α → Language β) : RegularExpression α → Language β
  | .zero => 0
  | .epsilon => 1
  | .char symbol => meaning symbol
  | .plus left right => denote meaning left + denote meaning right
  | .comp left right => denote meaning left * denote meaning right
  | .star regex => KStar.kstar (denote meaning regex)

variable (meaning : α → Language β)

theorem denote_one : denote meaning (1 : RegularExpression α) = 1 := rfl

theorem denote_char (symbol : α) :
    denote meaning (RegularExpression.char symbol) = meaning symbol := rfl

theorem denote_add (left right : RegularExpression α) :
    denote meaning (left + right) = denote meaning left + denote meaning right := rfl

theorem denote_mul (left right : RegularExpression α) :
    denote meaning (left * right) = denote meaning left * denote meaning right := rfl

theorem denote_star (regex : RegularExpression α) :
    denote meaning regex.star = KStar.kstar (denote meaning regex) := rfl

theorem denote_pow (regex : RegularExpression α) (n : Nat) :
    denote meaning (regex ^ n) = denote meaning regex ^ n := by
  induction n with
  | zero => rfl
  | succ n ih =>
      rw [pow_succ, ← ih]
      rfl

theorem denote_prod (items : List (RegularExpression α)) :
    denote meaning items.prod = (items.map (denote meaning)).prod := by
  induction items with
  | nil => rfl
  | cons item items ih =>
      rw [List.prod_cons, List.map_cons, List.prod_cons, denote_mul, ih]

theorem denote_sum (items : List (RegularExpression α)) :
    denote meaning items.sum = (items.map (denote meaning)).sum := by
  induction items with
  | nil => rfl
  | cons item items ih =>
      rw [List.sum_cons, List.map_cons, List.sum_cons, denote_add, ih]

theorem denote_repeated (regex : RegularExpression α) (least : Nat) (most : Option Nat) :
    denote meaning (repeated regex least most) =
      match most with
      | none => denote meaning regex ^ least * KStar.kstar (denote meaning regex)
      | some most => denote meaning regex ^ least * (1 + denote meaning regex) ^ (most - least) := by
  cases most with
  | none => rw [repeated, denote_mul, denote_pow, denote_star]
  | some most => rw [repeated, denote_mul, denote_pow, denote_pow, denote_add, denote_one]

noncomputable def choiceOf (branches : List (List (RegularExpression α))) : Language β :=
  (branches.map (fun branch => denote meaning branch.prod)).sum

theorem choiceOf_append (branches others : List (List (RegularExpression α))) :
    choiceOf meaning (branches ++ others) = choiceOf meaning branches + choiceOf meaning others := by
  unfold choiceOf
  rw [List.map_append, List.sum_append]

theorem choiceOf_singleton (items : List (RegularExpression α)) :
    choiceOf meaning [items] = denote meaning items.prod := List.sum_singleton

theorem denote_close (frame : Frame α) :
    denote meaning frame.close =
      choiceOf meaning frame.branches + denote meaning frame.sequence.prod := by
  rw [← choiceOf_singleton, ← choiceOf_append, Frame.close, denote_sum, List.map_map]
  rfl

theorem denote_append (items others : List (RegularExpression α)) :
    denote meaning (items ++ others).prod =
      denote meaning items.prod * denote meaning others.prod := by
  rw [denote_prod, denote_prod, denote_prod, List.map_append, List.prod_append]

theorem denote_singleton (regex : RegularExpression α) :
    denote meaning [regex].prod = denote meaning regex := by
  rw [denote_prod, List.map_singleton, List.prod_singleton]

/-! ### Words of an expression -/

variable {meaning} {word : List β}

theorem mem_prod_nil : word ∈ denote meaning ([] : List (RegularExpression α)).prod ↔ word = [] :=
  Language.mem_one word

theorem mem_prod_cons {item : RegularExpression α} {items : List (RegularExpression α)} :
    word ∈ denote meaning (item :: items).prod ↔
      ∃ front ∈ denote meaning item, ∃ back ∈ denote meaning items.prod, front ++ back = word := by
  rw [List.prod_cons, denote_mul]
  exact Language.mem_mul

theorem mem_choiceOf {branches : List (List (RegularExpression α))} :
    word ∈ choiceOf meaning branches ↔ ∃ branch ∈ branches, word ∈ denote meaning branch.prod := by
  induction branches with
  | nil =>
      constructor
      · intro impossible
        exact absurd impossible (Language.notMem_zero word)
      · rintro ⟨branch, member, _⟩
        cases member
  | cons branch branches ih =>
      have split : choiceOf meaning (branch :: branches) =
          denote meaning branch.prod + choiceOf meaning branches := rfl
      rw [split, Language.mem_add, ih]
      simp

theorem mem_close {frame : Frame α} :
    word ∈ denote meaning frame.close ↔
      ∃ branch ∈ frame.branches ++ [frame.sequence], word ∈ denote meaning branch.prod := by
  rw [denote_close, ← choiceOf_singleton, ← choiceOf_append, mem_choiceOf]

/-! ### Forms -/

/-- A form is a list of atoms.  Its language has a word of every atom in turn. -/
noncomputable def denoteForm (meaning : α → Language β) (form : List α) : Language β :=
  (form.map meaning).prod

theorem denoteForm_append (meaning : α → Language β) (form other : List α) :
    denoteForm meaning (form ++ other) = denoteForm meaning form * denoteForm meaning other := by
  unfold denoteForm
  rw [List.map_append, List.prod_append]

theorem denoteForm_singleton (meaning : α → Language β) (symbol : α) :
    denoteForm meaning [symbol] = meaning symbol := by
  unfold denoteForm
  rw [List.map_singleton, List.prod_singleton]

theorem denoteForm_flatten_le {meaning : α → Language β} {language : Language β}
    (forms : List (List α)) (bounded : ∀ form ∈ forms, denoteForm meaning form ≤ language) :
    denoteForm meaning forms.flatten ≤ KStar.kstar language := by
  induction forms with
  | nil => exact one_le_kstar
  | cons form forms ih =>
      have later := ih (fun other member => bounded other (List.mem_cons_of_mem form member))
      rw [List.flatten_cons, denoteForm_append]
      calc denoteForm meaning form * denoteForm meaning forms.flatten
          ≤ language * KStar.kstar language := mul_le_mul' (bounded form List.mem_cons_self) later
        _ ≤ KStar.kstar language := mul_kstar_le_kstar

/-- What the expression matches as a list of atoms may be written out atom by atom. -/
theorem denoteForm_le_denote {meaning : α → Language β} {regex : RegularExpression α}
    {form : List α} (matched : form ∈ regex.matches') :
    denoteForm meaning form ≤ denote meaning regex := by
  induction regex generalizing form with
  | zero => exact absurd matched (Language.notMem_zero form)
  | epsilon =>
      rw [(Language.mem_one form).mp matched]
      exact le_refl _
  | char symbol =>
      rw [Set.mem_singleton_iff.mp matched, denoteForm_singleton]
      exact le_refl _
  | plus left right ihLeft ihRight =>
      rcases (Language.mem_add _ _ form).mp matched with inLeft | inRight
      · exact fun word member => Or.inl (ihLeft inLeft member)
      · exact fun word member => Or.inr (ihRight inRight member)
  | comp left right ihLeft ihRight =>
      rcases Language.mem_mul.mp matched with ⟨front, inLeft, back, inRight, rfl⟩
      rw [denoteForm_append]
      exact mul_le_mul' (ihLeft inLeft) (ihRight inRight)
  | star regex ih =>
      rcases Language.mem_kstar.mp matched with ⟨forms, rfl, members⟩
      exact denoteForm_flatten_le forms (fun form member => ih (members form member))

end

end Library
