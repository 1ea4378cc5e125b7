/-
The dictionary that replaces its keys in a text.

Of the patterns, choices of literal texts are read, each with an optional `$` behind it.
Its keys are texts until it is compiled and patterns afterwards.
-/

import DataSelection.Bnf.MultiSub
import DataSelection.Library.Replacing

namespace Multisub

open Bnf (Text hasGroupReference PrefixFree find?_name)
open Library

/-! ### Patterns -/

def isMetacharacter (char : Char) : Bool :=
  ['.', '^', '$', '*', '+', '?', '{', '}', '[', ']', '\\', '|', '(', ')'].contains char

structure Alternative where
  literal : Text
  atEnd : Bool
  deriving DecidableEq

/-- The pattern `$` also matches in front of a newline that ends the text. -/
def Alternative.matchAt (alternative : Alternative) (text : Text) : Option Nat :=
  let rest := text.drop alternative.literal.length
  if alternative.literal.isPrefixOf text &&
      (!alternative.atEnd || rest == [] || rest == ['\n']) then
    some alternative.literal.length
  else none

def readAlternative (text : Text) : Option Alternative :=
  let literal := if text.getLast? = some '$' then text.dropLast else text
  if literal.any isMetacharacter then none
  else some { literal := literal, atEnd := text.getLast? = some '$' }

/-- The alternatives of a choice, in the order in which they are tried. -/
abbrev Pattern := List Alternative

def Pattern.matchAt (pattern : Pattern) (text : Text) : Option Nat :=
  pattern.findSome? (fun alternative => alternative.matchAt text)

def readPattern (text : Text) : Option Pattern := (text.splitOn '|').mapM readAlternative

/-! ### The object -/

inductive Failure
  /-- An item of a join is no text. -/
  | typeError
  /-- A text or nothing stands where a pattern is used. -/
  | attributeError
  /-- No group has the name of a reference. -/
  | indexError
  /-- A key to be removed is missing. -/
  | keyError
  /-- A pattern that is not a choice of literal texts. -/
  | unread
  deriving DecidableEq

inductive Key
  | text (key : Text)
  | pattern (compiled : Pattern)
  deriving DecidableEq

abbrev Entries := List (Key × Text)

structure MultiSub where
  entries : Entries
  re : Option Text
  regex : Option Pattern
  deriving DecidableEq

def init (dic : List (Text × Text)) : MultiSub :=
  { entries := dic.map (fun entry => (.text entry.1, entry.2))
    re := none
    regex := none }

/-- The order in which Python lists the entries of a dictionary. -/
structure HashOrder where
  listed : Entries → Entries
  perm : ∀ entries, (listed entries).Perm entries

section Entries

variable {κ : Type} [DecidableEq κ]

/-- `self[key] = value`. -/
def setItem (entries : List (κ × Text)) (key : κ) (value : Text) : List (κ × Text) :=
  if key ∈ entries.map Prod.fst then
    entries.map (fun entry => if entry.1 = key then (key, value) else entry)
  else entries ++ [(key, value)]

def pop (key : κ) (entries : List (κ × Text)) : Except Failure (List (κ × Text)) :=
  if key ∈ entries.map Prod.fst then .ok (entries.filter (fun entry => entry.1 ≠ key))
  else .error .keyError

end Entries

/-- `re.compile`. -/
def compilePattern (text : Text) : Except Failure Pattern :=
  match readPattern text with
  | some pattern => .ok pattern
  | none => .error .unread

def keyText : Key → Except Failure Text
  | .text key => .ok key
  | .pattern _ => .error .typeError

/-- The body of the loop that compiles the keys. -/
def compileKey (entries : Entries) (entry : Key × Text) : Except Failure Entries := do
  let rest ← pop entry.1 entries
  let key ← keyText entry.1
  let compiled ← compilePattern (key ++ ['$'])
  .ok (setItem rest (.pattern compiled) entry.2)

def compile (order : HashOrder) (self : MultiSub) : Except Failure MultiSub :=
  if self.entries.length > 0 then do
    let keys ← (order.listed self.entries).mapM (fun entry => keyText entry.1)
    let temp_re := ['|'].intercalate keys
    if self.re ≠ some temp_re then
      let regex ← compilePattern temp_re
      let entries ← (order.listed self.entries).foldlM compileKey self.entries
      .ok { entries := entries, re := some temp_re, regex := some regex }
    else .ok self
  else .ok self

/-- The value in which the references to groups are replaced.  The patterns have no
groups. -/
def expand (value : Text) : Except Failure Text :=
  if hasGroupReference value then .error .indexError else .ok value

/-- The loop of `__call__`.  Nothing is written when no key matches. -/
def callOn (matched_string : Text) : Entries → Except Failure Text
  | [] => .ok []
  | (.text _, _) :: _ => .error .attributeError
  | (.pattern compiled, value) :: rest =>
      if (compiled.matchAt matched_string).isSome then expand value
      else callOn matched_string rest

def call (order : HashOrder) (self : MultiSub) (matched_string : Text) : Except Failure Text :=
  callOn matched_string (order.listed self.entries)

def rewriteSegment (called : Text → Except Failure Text) : Segment Char → Except Failure Text
  | .copied char => .ok [char]
  | .matched word => called word

/-- `re.sub` with a function for the matches. -/
def rewrite (pattern : Pattern) (called : Text → Except Failure Text) (text : Text) :
    Except Failure Text := do
  let written ← (segments pattern.matchAt 0 false text).mapM (rewriteSegment called)
  .ok written.flatten

def sub (order : HashOrder) (self : MultiSub) (text : Text) : Except Failure Text :=
  if self.entries.length = 0 then .ok text
  else
    match self.regex with
    | none => .error .attributeError
    | some regex => rewrite regex (call order self) text

end Multisub
