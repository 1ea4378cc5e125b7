/-
The text of a regular expression, with rule names as placeholders.

What has no counterpart among the regular expressions (anchors, references to groups,
assertions and flags) is not read.
-/

import DataSelection.Library.RegexSubstitution

namespace Bnf

open Library

abbrev Name := List Char

abbrev Text := List Char

/-- What matches one character. -/
inductive CharSet
  | one (char : Char)
  | any
  | ranges (negated : Bool) (spans : List (Char × Char))
  deriving DecidableEq

def CharSet.accepts : CharSet → Char → Bool
  | .one expected, char => char = expected
  | .any, char => char ≠ '\n'
  | .ranges negated spans, char =>
      spans.any (fun span => span.1 ≤ char && char ≤ span.2) != negated

/-- A character of the text, or a rule name in it. -/
inductive Piece
  | char (char : Char)
  | name (name : Name)
  deriving DecidableEq

abbrev Atom := CharSet ⊕ Name

/-- A character set matches its characters, and a rule name what it stands for. -/
def meaning (env : Name → Language Char) : Atom → Language Char
  | .inl set => {word | ∃ char, word = [char] ∧ set.accepts char = true}
  | .inr name => env name

/-! ### Tokens -/

def digits : List (Char × Char) := [('0', '9')]

def wordRanges : List (Char × Char) := [('a', 'z'), ('A', 'Z'), ('0', '9'), ('_', '_')]

def spaceRanges : List (Char × Char) := [(' ', ' '), ('\t', '\r')]

def escape : Char → Option CharSet
  | 'd' => some (.ranges false digits)
  | 'D' => some (.ranges true digits)
  | 'w' => some (.ranges false wordRanges)
  | 'W' => some (.ranges true wordRanges)
  | 's' => some (.ranges false spaceRanges)
  | 'S' => some (.ranges true spaceRanges)
  | 'n' => some (.one '\n')
  | 't' => some (.one '\t')
  | 'r' => some (.one '\r')
  | 'f' => some (.one '\x0c')
  | 'v' => some (.one '\x0b')
  | char => if char.isAlphanum then none else some (.one char)

/-- The part of a character set that was read; its last entry may still begin a range. -/
structure SetPart where
  negated : Bool
  spans : List (Char × Char)
  pending : Option CharSet
  dash : Bool

def SetPart.opened (negated : Bool) : SetPart :=
  { negated := negated
    spans := []
    pending := none
    dash := false }

def SetPart.finish (part : SetPart) : List (Char × Char) :=
  part.spans ++
    (match part.pending with
      | some (.one char) => [(char, char)]
      | some (.ranges _ spans) => spans
      | _ => []) ++
    (if part.dash then [('-', '-')] else [])

def SetPart.add (part : SetPart) (entry : CharSet) : Option SetPart :=
  if part.dash then
    match part.pending, entry with
    | some (.one low), .one high =>
        if low ≤ high then some { part with spans := part.spans ++ [(low, high)]
                                            pending := none
                                            dash := false }
        else none
    | _, _ => none
  else
    match entry with
    | .ranges true _ => none
    | _ => some { part with spans := part.finish
                            pending := some entry }

/-- Inside a token of several characters. -/
inductive Inside
  | escaped
  | counting (least : List Char)
  | countingTo (least most : List Char)
  | setOpened
  | inSet (first : Bool) (part : SetPart)
  | setEscaped (part : SetPart)

/-- A character leads into a token, or it ends one. -/
abbrev Read := Inside ⊕ Token CharSet

def count (numeral : List Char) : Nat :=
  numeral.foldl (fun value digit => 10 * value + (digit.toNat - '0'.toNat)) 0

def readOutside : Char → Option Read
  | '\\' => some (.inl .escaped)
  | '(' => some (.inr .opening)
  | ')' => some (.inr .closing)
  | '|' => some (.inr .bar)
  | '*' => some (.inr (.times 0 none))
  | '+' => some (.inr (.times 1 none))
  | '?' => some (.inr .quest)
  | '.' => some (.inr (.atom .any))
  | '[' => some (.inl .setOpened)
  | '{' => some (.inl (.counting []))
  | '^' => none
  | '$' => none
  | char => some (.inr (.atom (.one char)))

/-- A closing bracket ends the set unless it is its first character. -/
def readInSet (first : Bool) (part : SetPart) (char : Char) : Option Read :=
  if char = ']' && !first then some (.inr (.atom (.ranges part.negated part.finish)))
  else if char = '\\' then some (.inl (.setEscaped part))
  else if char = '-' && part.pending.isSome && !part.dash then
    some (.inl (.inSet false { part with dash := true }))
  else (part.add (.one char)).map (fun part => .inl (.inSet false part))

def readInside : Inside → Char → Option Read
  | .escaped, char => (escape char).map (fun set => .inr (.atom set))
  | .counting least, char =>
      if char.isDigit then some (.inl (.counting (least ++ [char])))
      else if char = ',' then some (.inl (.countingTo least []))
      else if char = '}' && least ≠ [] then
        some (.inr (.times (count least) (some (count least))))
      else none
  | .countingTo least most, char =>
      if char.isDigit then some (.inl (.countingTo least (most ++ [char])))
      else if char ≠ '}' then none
      else if most = [] then some (.inr (.times (count least) none))
      else if count most < count least then none
      else some (.inr (.times (count least) (some (count most))))
  | .setOpened, char =>
      if char = '^' then some (.inl (.inSet true (.opened true)))
      else readInSet true (.opened false) char
  | .inSet first part, char => readInSet first part char
  | .setEscaped part, char => do
      let set ← escape char
      let part ← part.add set
      some (.inl (.inSet false part))

/-- The token of an expression in which rule names may stand as well. -/
def withNames : Token CharSet → Token Atom
  | .atom set => .atom (.inl set)
  | .opening => .opening
  | .closing => .closing
  | .bar => .bar
  | .quest => .quest
  | .times least most => .times least most

/-- The tokens that were read, and the unfinished one. -/
structure Lexed where
  inside : Option Inside
  tokens : List (Token Atom)

def readChar : Option Inside → Char → Option Read
  | none, char => readOutside char
  | some inside, char => readInside inside char

def Lexed.after (lexed : Lexed) : Read → Lexed
  | .inl inside => { inside := some inside
                     tokens := lexed.tokens }
  | .inr token => { inside := none
                    tokens := lexed.tokens ++ [withNames token] }

def lexPiece (lexed : Lexed) : Piece → Option Lexed
  | .char char => (readChar lexed.inside char).map lexed.after
  | .name name =>
      match lexed.inside with
      | none => some { inside := none
                       tokens := lexed.tokens ++ [.atom (.inr name)] }
      | some _ => none

def lex (pieces : List Piece) : Option (List (Token Atom)) := do
  let lexed ← pieces.foldlM lexPiece { inside := none
                                       tokens := [] }
  match lexed.inside with
  | none => some lexed.tokens
  | some _ => none

def readRegex (pieces : List Piece) : Option (Frame Atom) := do
  let tokens ← lex pieces
  readTokens tokens

/-- The text is a regular expression, and it matches the whole word. -/
def FullyMatches (text : Text) (word : List Char) : Prop :=
  ∃ frame, readRegex (text.map .char) = some frame ∧
    word ∈ denote (meaning (fun _ => 0)) frame.close

theorem lex_eq_some {pieces : List Piece} {tokens : List (Token Atom)} :
    lex pieces = some tokens ↔ pieces.foldlM lexPiece { inside := none
                                                        tokens := [] } =
      some { inside := none
             tokens := tokens } := by
  unfold lex
  cases pieces.foldlM lexPiece { inside := none
                                 tokens := [] } with
  | none => simp
  | some lexed =>
      cases lexed with
      | mk inside found =>
          cases inside with
          | none => simp
          | some inside => simp

theorem lexPiece_advances {before after : Lexed} {piece : Piece}
    (read : lexPiece before piece = some after) : after.inside ≠ none ∨ after.tokens ≠ [] := by
  cases piece with
  | char char =>
      rcases Option.map_eq_some_iff.mp read with ⟨result, _, rfl⟩
      cases result with
      | inl inside => exact .inl (Option.some_ne_none inside)
      | inr token => exact .inr (by simp [Lexed.after])
  | name name =>
      unfold lexPiece at read
      cases isInside : before.inside with
      | none =>
          rw [isInside] at read
          cases read
          exact .inr (by simp)
      | some inside =>
          rw [isInside] at read
          cases read

theorem lex_ne_nil {pieces : List Piece} {tokens : List (Token Atom)} (filled : pieces ≠ [])
    (lexed : lex pieces = some tokens) : tokens ≠ [] := by
  have ran := lex_eq_some.mp lexed
  rw [← List.dropLast_append_getLast filled, List.foldlM_append] at ran
  rcases Option.bind_eq_some_iff.mp ran with ⟨before, _, last⟩
  rw [List.foldlM_cons] at last
  rcases Option.bind_eq_some_iff.mp last with ⟨after, read, isAfter⟩
  cases isAfter
  exact (lexPiece_advances read).resolve_left (fun absent => absent rfl)

theorem foldlM_lexPiece_names {pieces : List Piece} {before after : Lexed} {name : Name}
    (ran : pieces.foldlM lexPiece before = some after)
    (member : .atom (.inr name) ∈ after.tokens) :
    .atom (.inr name) ∈ before.tokens ∨ .name name ∈ pieces := by
  induction pieces generalizing before with
  | nil =>
      cases ran
      exact .inl member
  | cons piece pieces ih =>
      rw [List.foldlM_cons] at ran
      rcases Option.bind_eq_some_iff.mp ran with ⟨middle, first, rest⟩
      cases ih rest with
      | inr later => exact .inr (List.mem_cons_of_mem piece later)
      | inl inMiddle =>
          cases piece with
          | char char =>
              rcases Option.map_eq_some_iff.mp first with ⟨result, _, rfl⟩
              cases result with
              | inl inside => exact .inl inMiddle
              | inr token =>
                  cases List.mem_append.mp inMiddle with
                  | inl earlier => exact .inl earlier
                  | inr last =>
                      have same := List.mem_singleton.mp last
                      cases token with
                      | _ => cases same
          | name other =>
              unfold lexPiece at first
              cases isInside : before.inside with
              | some inside =>
                  rw [isInside] at first
                  cases first
              | none =>
                  rw [isInside] at first
                  cases first
                  cases List.mem_append.mp inMiddle with
                  | inl earlier => exact .inl earlier
                  | inr last =>
                      cases List.mem_singleton.mp last
                      exact .inr List.mem_cons_self

theorem mem_pieces_of_mem_lex {pieces : List Piece} {tokens : List (Token Atom)} {name : Name}
    (lexed : lex pieces = some tokens) (member : .atom (.inr name) ∈ tokens) :
    .name name ∈ pieces :=
  (foldlM_lexPiece_names (lex_eq_some.mp lexed) member).resolve_left List.not_mem_nil

/-! ### Texts in the place of names -/

theorem lexPiece_behind (inside : Option Inside) (front tokens : List (Token Atom))
    (piece : Piece) :
    lexPiece { inside := inside
               tokens := front ++ tokens } piece =
      (lexPiece { inside := inside
                  tokens := tokens } piece).map
        (fun lexed => { lexed with tokens := front ++ lexed.tokens }) := by
  cases piece with
  | char char =>
      unfold lexPiece
      rw [Option.map_map]
      apply congrArg (Option.map · (readChar inside char))
      funext result
      cases result with
      | inl inside => rfl
      | inr token => simp [Lexed.after]
  | name name =>
      unfold lexPiece
      cases inside with
      | none => simp
      | some inside => rfl

theorem foldlM_lexPiece_behind (inside : Option Inside) (front tokens : List (Token Atom))
    (pieces : List Piece) :
    pieces.foldlM lexPiece { inside := inside
                             tokens := front ++ tokens } =
      (pieces.foldlM lexPiece { inside := inside
                                tokens := tokens }).map
        (fun lexed => { lexed with tokens := front ++ lexed.tokens }) := by
  induction pieces generalizing inside tokens with
  | nil => rfl
  | cons piece pieces ih =>
      rw [List.foldlM_cons, List.foldlM_cons, lexPiece_behind]
      cases lexPiece { inside := inside
                       tokens := tokens } piece with
      | none => rfl
      | some lexed => exact ih lexed.inside lexed.tokens

theorem lex_behind {pieces : List Piece} {tokens : List (Token Atom)}
    (lexed : lex pieces = some tokens) (front : List (Token Atom)) :
    pieces.foldlM lexPiece { inside := none
                             tokens := front } =
      some { inside := none
             tokens := front ++ tokens } := by
  have behind := foldlM_lexPiece_behind none front [] pieces
  rw [List.append_nil, lex_eq_some.mp lexed] at behind
  exact behind

/-- The text with other texts in the place of the names. -/
def writePiece (texts : Name → Text) : Piece → Text
  | .char char => [char]
  | .name name => texts name

def bodyOf (bodies : Name → List (Token Atom)) : Atom → List (Token Atom)
  | .inl set => [.atom (.inl set)]
  | .inr name => bodies name

theorem expandToken_withNames (bodies : Name → List (Token Atom)) (token : Token CharSet) :
    expandToken (bodyOf bodies) (withNames token) = [withNames token] := by
  cases token with
  | _ => rfl

theorem foldlM_written {texts : Name → Text} {bodies : Name → List (Token Atom)}
    {pieces : List Piece} {before after : Lexed}
    (known : ∀ name, .name name ∈ pieces → lex ((texts name).map .char) = some (bodies name))
    (ran : pieces.foldlM lexPiece before = some after) :
    ((pieces.flatMap (writePiece texts)).map .char).foldlM lexPiece
        { inside := before.inside
          tokens := before.tokens.flatMap (expandToken (bodyOf bodies)) } =
      some { inside := after.inside
             tokens := after.tokens.flatMap (expandToken (bodyOf bodies)) } := by
  induction pieces generalizing before with
  | nil =>
      cases ran
      rfl
  | cons piece pieces ih =>
      rw [List.foldlM_cons] at ran
      rcases Option.bind_eq_some_iff.mp ran with ⟨middle, first, rest⟩
      have behind := ih (fun name member => known name (List.mem_cons_of_mem piece member)) rest
      rw [List.flatMap_cons, List.map_append, List.foldlM_append]
      cases piece with
      | char char =>
          rcases Option.map_eq_some_iff.mp first with ⟨result, read, rfl⟩
          have step : lexPiece { inside := before.inside
                                 tokens := before.tokens.flatMap
                                   (expandToken (bodyOf bodies)) } (.char char) =
              some { inside := (before.after result).inside
                     tokens := (before.after result).tokens.flatMap
                       (expandToken (bodyOf bodies)) } := by
            unfold lexPiece
            dsimp only
            rw [read]
            cases result with
            | inl inside => rfl
            | inr token => simp [Lexed.after, expandToken_withNames]
          have alone : ((writePiece texts (.char char)).map Piece.char) = [.char char] := rfl
          rw [alone, List.foldlM_cons, step]
          exact behind
      | name name =>
          unfold lexPiece at first
          cases isInside : before.inside with
          | some inside =>
              rw [isInside] at first
              cases first
          | none =>
              rw [isInside] at first
              cases first
              have step := lex_behind (known name List.mem_cons_self)
                (before.tokens.flatMap (expandToken (bodyOf bodies)))
              rw [writePiece, step]
              rw [List.flatMap_append, List.flatMap_singleton] at behind
              exact behind

theorem lex_written {texts : Name → Text} {bodies : Name → List (Token Atom)}
    {pieces : List Piece} {tokens : List (Token Atom)}
    (known : ∀ name, .name name ∈ pieces → lex ((texts name).map .char) = some (bodies name))
    (lexed : lex pieces = some tokens) :
    lex ((pieces.flatMap (writePiece texts)).map .char) =
      some (tokens.flatMap (expandToken (bodyOf bodies))) :=
  lex_eq_some.mpr (foldlM_written known (lex_eq_some.mp lexed))

end Bnf
