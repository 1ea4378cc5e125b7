/-
Expressions whose atoms are replaced by the tokens of other expressions.

The tokens of a body that are put in the place of an atom are read with the tokens
around them.  The whole still denotes what it should as long as a body with a choice
has a branch to itself and a body of several items is not quantified.
-/

import DataSelection.Library.Regex
import Mathlib.Data.List.Forall2
import Mathlib.Data.Option.Defs

namespace Library

variable {α β γ : Type}

/-! ### Reading a body inside other tokens -/

/-- The frame after a body that was read in the place of an item. -/
def Frame.extend (frame body : Frame α) : Frame α :=
  match body.branches with
  | [] =>
      { branches := frame.branches
        items := frame.sequence ++ body.items
        last := body.last }
  | first :: others =>
      { branches := frame.branches ++ (frame.sequence ++ first) :: others
        items := body.items
        last := body.last }

theorem extend_flush (frame body : Frame α) :
    (frame.extend body).flush = frame.extend body.flush := by
  unfold Frame.extend Frame.flush Frame.sequence
  cases body.branches with
  | nil => simp
  | cons first others => simp

theorem extend_push (frame body : Frame α) (regex : RegularExpression α) :
    (frame.extend body).push regex = frame.extend (body.push regex) := by
  unfold Frame.extend Frame.push Frame.sequence
  cases body.branches with
  | nil => simp
  | cons first others => simp

theorem extend_branch (frame body : Frame α) :
    (frame.extend body).branch = frame.extend body.branch := by
  unfold Frame.extend Frame.branch Frame.sequence
  cases body.branches with
  | nil => simp
  | cons first others => simp

theorem extend_last (frame body : Frame α) : (frame.extend body).last = body.last := by
  unfold Frame.extend
  cases body.branches with
  | nil => rfl
  | cons first others => rfl

theorem extend_setLast (frame body : Frame α) (last : Option (Item α)) :
    { frame.extend body with last := last } = frame.extend { body with last := last } := by
  unfold Frame.extend
  cases body.branches with
  | nil => rfl
  | cons first others => rfl

/-- The frames of a body, of which the last one belongs to the frame around it. -/
def within (frame : Frame α) (outer : List (Frame α)) : List (Frame α) → List (Frame α)
  | [] => outer
  | [body] => frame.extend body :: outer
  | body :: next :: rest => body :: within frame outer (next :: rest)

theorem within_cons (frame : Frame α) (outer : List (Frame α)) (body : Frame α)
    {rest : List (Frame α)} (filled : rest ≠ []) :
    within frame outer (body :: rest) = body :: within frame outer rest := by
  cases rest with
  | nil => exact absurd rfl filled
  | cons next rest => rfl

/-- A change of the innermost frame that passes through the frame around it. -/
theorem within_change (frame : Frame α) (outer : List (Frame α)) {body changed : Frame α}
    (rest : List (Frame α)) (change : Frame α → Frame α) (isChange : change body = changed)
    (passes : change (frame.extend body) = frame.extend changed) :
    ∃ head others, within frame outer (body :: rest) = head :: others ∧
      head.last = body.last ∧ within frame outer (changed :: rest) = change head :: others := by
  cases rest with
  | nil =>
      refine ⟨frame.extend body, outer, rfl, extend_last frame body, ?_⟩
      rw [passes]
      rfl
  | cons next rest =>
      refine ⟨body, within frame outer (next :: rest), rfl, rfl, ?_⟩
      rw [isChange]
      rfl

theorem readToken_quantifier {state next : List (Frame α)} {token : Token α}
    (isQuantifier : token = .quest ∨ ∃ least most, token = .times least most) :
    readToken state token = some next ↔ ∃ body rest item quantified, state = body :: rest ∧
      body.last = some item ∧ item.quantify token = some quantified ∧
      next = { body with last := some quantified } :: rest := by
  cases state with
  | nil => simp [readToken]
  | cons body rest =>
      have unfolded : readToken (body :: rest) token = (do
          let item ← body.last
          let quantified ← item.quantify token
          some ({ body with last := some quantified } :: rest)) := by
        rcases isQuantifier with rfl | ⟨least, most, rfl⟩
        · rfl
        · rfl
      rw [unfolded]
      constructor
      · intro read
        rcases Option.bind_eq_some_iff.mp read with ⟨item, isLast, found⟩
        rcases Option.bind_eq_some_iff.mp found with ⟨quantified, isQuantified, result⟩
        exact ⟨body, rest, item, quantified, rfl, isLast, isQuantified,
          (Option.some.inj result).symm⟩
      · rintro ⟨_, _, item, quantified, same, isLast, isQuantified, rfl⟩
        cases same
        rw [isLast, Option.bind_eq_bind, Option.bind_some, isQuantified]
        rfl

theorem readToken_within_quantifier (frame : Frame α) (outer : List (Frame α))
    {state next : List (Frame α)} {token : Token α}
    (isQuantifier : token = .quest ∨ ∃ least most, token = .times least most)
    (read : readToken state token = some next) :
    next ≠ [] ∧ readToken (within frame outer state) token = some (within frame outer next) := by
  rcases (readToken_quantifier isQuantifier).mp read with
    ⟨body, rest, item, quantified, rfl, isLast, isQuantified, rfl⟩
  rcases within_change frame outer rest (fun frame => { frame with last := some quantified }) rfl
    (extend_setLast frame body _) with ⟨head, others, before, last, after⟩
  refine ⟨List.cons_ne_nil _ _, (readToken_quantifier isQuantifier).mpr ?_⟩
  exact ⟨head, others, item, quantified, before, last.trans isLast, isQuantified, after⟩

theorem readToken_within (frame : Frame α) (outer : List (Frame α)) {state next : List (Frame α)}
    {token : Token α} (read : readToken state token = some next) :
    next ≠ [] ∧ readToken (within frame outer state) token = some (within frame outer next) := by
  cases state with
  | nil => cases read
  | cons body rest =>
      cases token with
      | atom symbol =>
          cases read
          rcases within_change frame outer rest (Frame.push · (.char symbol)) rfl
            (extend_push frame body _) with ⟨head, others, before, _, after⟩
          refine ⟨List.cons_ne_nil _ _, ?_⟩
          rw [before, after]
          rfl
      | opening =>
          cases read
          rcases within_change frame outer rest Frame.flush rfl (extend_flush frame body) with
            ⟨head, others, before, _, after⟩
          refine ⟨List.cons_ne_nil _ _, ?_⟩
          rw [before, within_cons frame outer _ (List.cons_ne_nil _ _), after]
          rfl
      | closing =>
          cases rest with
          | nil => cases read
          | cons below rest =>
              cases read
              rcases within_change frame outer rest (Frame.push · body.close) rfl
                (extend_push frame below _) with ⟨head, others, before, _, after⟩
              refine ⟨List.cons_ne_nil _ _, ?_⟩
              rw [within_cons frame outer _ (List.cons_ne_nil _ _), before, after]
              rfl
      | bar =>
          cases read
          rcases within_change frame outer rest Frame.branch rfl (extend_branch frame body) with
            ⟨head, others, before, _, after⟩
          refine ⟨List.cons_ne_nil _ _, ?_⟩
          rw [before, after]
          rfl
      | quest => exact readToken_within_quantifier frame outer (.inl rfl) read
      | times least most =>
          exact readToken_within_quantifier frame outer (.inr ⟨least, most, rfl⟩) read

theorem foldlM_within (frame : Frame α) (outer : List (Frame α)) {tokens : List (Token α)}
    {state next : List (Frame α)} (read : tokens.foldlM readToken state = some next) :
    tokens.foldlM readToken (within frame outer state) = some (within frame outer next) := by
  induction tokens generalizing state with
  | nil =>
      cases read
      rfl
  | cons token tokens ih =>
      rw [List.foldlM_cons] at read ⊢
      rcases Option.bind_eq_some_iff.mp read with ⟨middle, first, others⟩
      rw [(readToken_within frame outer first).2]
      exact ih others

theorem readToken_flush (frame : Frame α) (outer : List (Frame α)) {token : Token α}
    {next : List (Frame α)} (begins : readToken [.empty] token = some next) :
    readToken (frame :: outer) token = readToken (frame.flush :: outer) token := by
  have sequence : frame.flush.sequence = frame.sequence := List.append_nil _
  cases token with
  | atom symbol =>
      simp only [readToken, Frame.push, sequence]
      rfl
  | opening =>
      have again : frame.flush.flush = frame.flush := by
        unfold Frame.flush at sequence ⊢
        rw [sequence]
      simp only [readToken, again]
  | closing => cases begins
  | bar =>
      simp only [readToken, Frame.branch, sequence]
      rfl
  | quest => cases begins
  | times least most => cases begins

theorem foldlM_body (frame : Frame α) (outer : List (Frame α)) {tokens : List (Token α)}
    {body : Frame α} (filled : tokens ≠ []) (read : tokens.foldlM readToken [.empty] = some [body]) :
    tokens.foldlM readToken (frame :: outer) = some (frame.extend body :: outer) := by
  have start : within frame outer [.empty] = frame.flush :: outer := by
    simp [within, Frame.extend, Frame.empty, Frame.flush]
  have inside := foldlM_within frame outer read
  rw [start] at inside
  cases tokens with
  | nil => exact absurd rfl filled
  | cons token tokens =>
      rw [List.foldlM_cons] at read inside ⊢
      rcases Option.bind_eq_some_iff.mp read with ⟨middle, first, _⟩
      rw [readToken_flush frame outer first]
      exact inside

/-! ### Shapes -/

/-- What the tokens of an expression are on their own: one item, several items, or a
choice between branches. -/
inductive Shape
  | item
  | sequence
  | choice
  deriving DecidableEq

def Frame.shape (shapes : α → Shape) (frame : Frame α) : Shape :=
  match frame.branches, frame.items, frame.last with
  | _ :: _, _, _ => .choice
  | [], [], some { regex := .char symbol, marks := .plain } => shapes symbol
  | [], [], some { regex := _, marks := .plain } => .item
  | [], _, _ => .sequence

def Frame.Fits (frame : Frame α) : Shape → Prop
  | .item => frame.branches = [] ∧ frame.items = [] ∧ frame.last.map Item.marks = some .plain
  | .sequence => frame.branches = []
  | .choice => True

theorem Frame.fits_of_item {frame : Frame α} (fits : frame.Fits .item) (shape : Shape) :
    frame.Fits shape := by
  cases shape with
  | item => exact fits
  | sequence => exact fits.1
  | choice => trivial

/-- Tokens of the given shape that denote a language. -/
structure Stands (meaning : α → Language β) (tokens : List (Token α)) (shape : Shape)
    (language : Language β) : Prop where
  filled : tokens ≠ []
  reads : ∃ frame, tokens.foldlM readToken [.empty] = some [frame] ∧ frame.Fits shape ∧
    denote meaning frame.close = language

def isQuantifier : Token α → Bool
  | .quest => true
  | .times _ _ => true
  | _ => false

def endsBranch : List (Token α) → Bool
  | [] => true
  | .bar :: _ => true
  | .closing :: _ => true
  | _ => false

/-- Every atom stands where a body of its shape can be put: one of several items is not
quantified, and a choice has a branch to itself. -/
def Safe (shapes : α → Shape) : Bool → List (Token α) → Bool
  | _, [] => true
  | atStart, .atom symbol :: rest =>
      (match shapes symbol with
        | .item => true
        | .sequence => !(rest.head?.any isQuantifier)
        | .choice => atStart && endsBranch rest) && Safe shapes false rest
  | _, .opening :: rest => Safe shapes true rest
  | _, .bar :: rest => Safe shapes true rest
  | _, _ :: rest => Safe shapes false rest

def expandToken (bodies : α → List (Token γ)) : Token α → List (Token γ)
  | .atom symbol => bodies symbol
  | .opening => [.opening]
  | .closing => [.closing]
  | .bar => [.bar]
  | .quest => [.quest]
  | .times least most => [.times least most]

/-! ### The frames of the two readings -/

theorem sequence_push (frame : Frame α) (regex : RegularExpression α) :
    (frame.push regex).sequence = frame.sequence ++ [regex] := rfl

theorem denote_close_extend (meaning : α → Language β) {frame : Frame α} (body : Frame α)
    (noItem : frame.sequence = []) : denote meaning (frame.extend body).close =
      choiceOf meaning frame.branches + denote meaning body.close := by
  rw [denote_close, denote_close, ← add_assoc, ← choiceOf_append]
  unfold Frame.extend
  rw [noItem]
  cases body.branches with
  | nil => simp [Frame.sequence]
  | cons first others => rfl

section

variable (inner : α → Language β) (outer : γ → Language β)

structure SameItem (item : Item α) (other : Item γ) : Prop where
  marks : item.marks = other.marks
  language : denote inner item.regex = denote outer other.regex

structure Agrees (frame : Frame α) (other : Frame γ) : Prop where
  noBranch : frame.branches = [] → other.branches = []
  branches : choiceOf inner frame.branches = choiceOf outer other.branches
  noItem : frame.items = [] → other.items = []
  items : denote inner frame.items.prod = denote outer other.items.prod
  last : Option.Rel (SameItem inner outer) frame.last other.last

structure AgreesFlushed (frame : Frame α) (other : Frame γ) : Prop where
  noBranch : frame.branches = [] → other.branches = []
  branches : choiceOf inner frame.branches = choiceOf outer other.branches
  noItem : frame.sequence = [] → other.sequence = []
  items : denote inner frame.sequence.prod = denote outer other.sequence.prod

variable {inner outer} {frame : Frame α} {other : Frame γ}

theorem Agrees.flushed (agrees : Agrees inner outer frame other) :
    AgreesFlushed inner outer frame other := by
  constructor
  · exact agrees.noBranch
  · exact agrees.branches
  · intro empty
    unfold Frame.sequence at empty ⊢
    rcases List.append_eq_nil_iff.mp empty with ⟨noItem, noLast⟩
    have last := agrees.last
    cases isLast : frame.last with
    | some item =>
        rw [isLast] at noLast
        cases noLast
    | none =>
        rw [isLast] at last
        cases otherLast : other.last with
        | some item =>
            rw [otherLast] at last
            cases last
        | none => rw [agrees.noItem noItem]; rfl
  · unfold Frame.sequence
    rw [denote_append, denote_append, agrees.items]
    have last := agrees.last
    cases isLast : frame.last with
    | none =>
        rw [isLast] at last
        cases otherLast : other.last with
        | none => rfl
        | some item =>
            rw [otherLast] at last
            cases last
    | some item =>
        rw [isLast] at last
        cases otherLast : other.last with
        | none =>
            rw [otherLast] at last
            cases last
        | some otherItem =>
            rw [otherLast] at last
            cases last with
            | some same =>
                have equal : denote inner [item.regex].prod = denote outer [otherItem.regex].prod := by
                  rw [denote_singleton, denote_singleton, same.language]
                exact congrArg (denote outer other.items.prod * ·) equal

theorem Agrees.fits_item (agrees : Agrees inner outer frame other)
    (noBranch : frame.branches = []) (noItem : frame.items = []) {regex : RegularExpression α}
    (isLast : frame.last = some { regex := regex
                                  marks := .plain }) : other.Fits .item := by
  refine ⟨agrees.noBranch noBranch, agrees.noItem noItem, ?_⟩
  have last := agrees.last
  rw [isLast] at last
  cases otherLast : other.last with
  | none =>
      rw [otherLast] at last
      cases last
  | some item =>
      rw [otherLast] at last
      cases last with
      | some same => exact congrArg some same.marks.symm

theorem agrees_empty : Agrees inner outer Frame.empty Frame.empty :=
  { noBranch := fun _ => rfl
    branches := rfl
    noItem := fun _ => rfl
    items := rfl
    last := Option.Rel.none }

namespace AgreesFlushed

variable (agrees : AgreesFlushed inner outer frame other)

include agrees

theorem close : denote inner frame.close = denote outer other.close := by
  rw [denote_close, denote_close, agrees.branches, agrees.items]

theorem flush : Agrees inner outer frame.flush other.flush :=
  { noBranch := agrees.noBranch
    branches := agrees.branches
    noItem := agrees.noItem
    items := agrees.items
    last := Option.Rel.none }

theorem push {regex : RegularExpression α} {otherRegex : RegularExpression γ}
    (same : denote inner regex = denote outer otherRegex) :
    Agrees inner outer (frame.push regex) (other.push otherRegex) :=
  { noBranch := agrees.noBranch
    branches := agrees.branches
    noItem := agrees.noItem
    items := agrees.items
    last := Option.Rel.some ⟨rfl, same⟩ }

end AgreesFlushed

theorem agrees_branch (same : denote inner frame.close = denote outer other.close) :
    Agrees inner outer frame.branch other.branch := by
  rw [denote_close, denote_close] at same
  constructor
  · intro empty
    exact absurd empty (by simp [Frame.branch])
  · unfold Frame.branch
    rw [choiceOf_append, choiceOf_append, choiceOf_singleton, choiceOf_singleton]
    exact same
  · exact fun _ => rfl
  · rfl
  · exact Option.Rel.none

end

/-! ### Bodies in the place of atoms -/

section

variable {inner : α → Language β} {outer : γ → Language β} (shapes : α → Shape)

/-- How the frames are related in front of the remaining tokens, once an atom was read
in the one and its body in the other. -/
inductive Related (inner : α → Language β) (outer : γ → Language β) (frame : Frame α)
    (other : Frame γ) (rest : List (Token α)) : Prop
  | agrees (agrees : Agrees inner outer frame other)
  | sequence (symbol : α)
      (last : frame.last = some { regex := .char symbol
                                  marks := .plain })
      (shape : shapes symbol = .sequence) (next : rest.head?.any isQuantifier = false)
      (agrees : AgreesFlushed inner outer frame other)
  | choice (symbol : α)
      (last : frame.last = some { regex := .char symbol
                                  marks := .plain })
      (shape : shapes symbol = .choice) (alone : frame.items = [])
      (next : endsBranch rest = true)
      (same : denote inner frame.close = denote outer other.close)

variable {shapes} {frame : Frame α} {other : Frame γ} {rest : List (Token α)}

theorem Related.close (related : Related shapes inner outer frame other rest) :
    denote inner frame.close = denote outer other.close := by
  cases related with
  | agrees agrees => exact agrees.flushed.close
  | sequence _ _ _ _ agrees => exact agrees.close
  | choice _ _ _ _ _ same => exact same

theorem Related.flushed (related : Related shapes inner outer frame other rest)
    (inBranch : endsBranch rest = false) : AgreesFlushed inner outer frame other := by
  cases related with
  | agrees agrees => exact agrees.flushed
  | sequence _ _ _ _ agrees => exact agrees
  | choice _ _ _ _ next _ =>
      rw [next] at inBranch
      cases inBranch

theorem Related.whole {token : Token α}
    (related : Related shapes inner outer frame other (token :: rest))
    (quantifies : isQuantifier token = true) : Agrees inner outer frame other := by
  cases related with
  | agrees agrees => exact agrees
  | sequence _ _ _ next _ =>
      have isNext : isQuantifier token = false := next
      rw [isNext] at quantifies
      cases quantifies
  | choice _ _ _ _ next _ =>
      cases token with
      | quest => cases next
      | times least most => cases next
      | atom symbol => cases quantifies
      | opening => cases quantifies
      | closing => cases quantifies
      | bar => cases quantifies

theorem Related.fits (related : Related shapes inner outer frame other []) :
    other.Fits (frame.shape shapes) := by
  unfold Frame.shape
  split
  · trivial
  · rename_i symbol noBranch noItem isLast
    cases related with
    | agrees agrees =>
        exact Frame.fits_of_item (agrees.fits_item noBranch noItem isLast) _
    | sequence other last shape _ agrees =>
        rw [isLast] at last
        cases last
        rw [shape]
        exact agrees.noBranch noBranch
    | choice other last shape _ _ _ =>
        rw [isLast] at last
        cases last
        rw [shape]
        trivial
  · rename_i regex notAtom noBranch noItem isLast
    cases related with
    | agrees agrees => exact agrees.fits_item noBranch noItem isLast
    | sequence other last _ _ _ =>
        rw [isLast] at last
        cases last
        exact absurd rfl (notAtom other)
    | choice other last _ _ _ _ =>
        rw [isLast] at last
        cases last
        exact absurd rfl (notAtom other)
  · rename_i noBranch _ notItem
    cases related with
    | agrees agrees => exact agrees.noBranch noBranch
    | sequence _ _ _ _ agrees => exact agrees.noBranch noBranch
    | choice _ last _ alone _ _ => exact absurd last (notItem _ alone)

theorem related_extend_item {symbol : α} {body : Frame γ}
    (agrees : AgreesFlushed inner outer frame other) (fits : body.Fits .item)
    (language : choiceOf outer body.branches + denote outer body.sequence.prod = inner symbol) :
    Related shapes inner outer (frame.push (.char symbol)) (other.extend body) rest := by
  rcases fits with ⟨noBranch, noItem, marks⟩
  rcases Option.map_eq_some_iff.mp marks with ⟨item, isLast, isPlain⟩
  have extended : other.extend body = other.push item.regex := by
    unfold Frame.extend Frame.push
    rw [noBranch, noItem, isLast, List.append_nil, ← isPlain]
  rw [noBranch, Frame.sequence, noItem, isLast] at language
  have same : inner symbol = denote outer item.regex := by
    rw [← language]
    change 0 + denote outer [item.regex].prod = _
    rw [zero_add, denote_singleton]
  rw [extended]
  exact .agrees (agrees.push same)

theorem related_extend_sequence {symbol : α} {body : Frame γ}
    (agrees : AgreesFlushed inner outer frame other) (shape : shapes symbol = .sequence)
    (noBranch : body.branches = [])
    (language : choiceOf outer body.branches + denote outer body.sequence.prod = inner symbol)
    (next : rest.head?.any isQuantifier = false) :
    Related shapes inner outer (frame.push (.char symbol)) (other.extend body) rest := by
  have extended : other.extend body =
      { branches := other.branches
        items := other.sequence ++ body.items
        last := body.last } := by
    unfold Frame.extend
    rw [noBranch]
  have whole : (other.extend body).sequence = other.sequence ++ body.sequence := by
    rw [extended]
    exact List.append_assoc _ _ _
  rw [noBranch] at language
  have same : inner symbol = denote outer body.sequence.prod := by
    rw [← language]
    exact zero_add _
  refine .sequence symbol rfl shape next ?_
  constructor
  · intro empty
    rw [extended]
    exact agrees.noBranch empty
  · rw [extended]
    exact agrees.branches
  · intro empty
    exact absurd empty (by simp [Frame.push, Frame.sequence])
  · rw [whole, sequence_push, denote_append, denote_append, agrees.items,
      denote_singleton, denote_char, same]

theorem related_extend_choice {symbol : α} {body : Frame γ}
    (agrees : AgreesFlushed inner outer frame other) (shape : shapes symbol = .choice)
    (noSequence : frame.sequence = [])
    (language : choiceOf outer body.branches + denote outer body.sequence.prod = inner symbol)
    (next : endsBranch rest = true) :
    Related shapes inner outer (frame.push (.char symbol)) (other.extend body) rest := by
  refine .choice symbol rfl shape noSequence next ?_
  rw [denote_close_extend outer body (agrees.noItem noSequence), denote_close inner,
    denote_close outer, language, sequence_push, noSequence, List.nil_append, denote_singleton,
    denote_char]
  exact congrArg (· + inner symbol) agrees.branches

theorem related_extend {symbol : α} {body : Frame γ} {atStart : Bool}
    (agrees : AgreesFlushed inner outer frame other) (fits : body.Fits (shapes symbol))
    (language : denote outer body.close = inner symbol)
    (start : atStart = true → frame.sequence = [])
    (safe : Safe shapes atStart (.atom symbol :: rest) = true) :
    Related shapes inner outer (frame.push (.char symbol)) (other.extend body) rest := by
  rw [denote_close] at language
  rw [Safe, Bool.and_eq_true] at safe
  cases shape : shapes symbol with
  | item =>
      rw [shape] at fits
      exact related_extend_item agrees fits language
  | sequence =>
      rw [shape] at fits safe
      have next : rest.head?.any isQuantifier = false := by simpa using safe.1
      exact related_extend_sequence agrees shape fits language next
  | choice =>
      rw [shape] at safe
      rcases safe with ⟨here, _⟩
      rw [Bool.and_eq_true] at here
      exact related_extend_choice agrees shape (start here.1) language here.2

/-- The frames of both readings in front of the remaining tokens. -/
inductive Alongside (shapes : α → Shape) (inner : α → Language β) (outer : γ → Language β)
    (atStart : Bool) (rest : List (Token α)) : List (Frame α) → List (Frame γ) → Prop
  | intro {frame : Frame α} {other : Frame γ} {frames : List (Frame α)} {others : List (Frame γ)}
      (related : Related shapes inner outer frame other rest)
      (around : List.Forall₂ (Agrees inner outer) frames others)
      (start : atStart = true → frame.sequence = []) :
      Alongside shapes inner outer atStart rest (frame :: frames) (other :: others)

variable {bodies : α → List (Token γ)}

theorem alongside_quantifier {token : Token α} {otherToken : Token γ} {atStart : Bool}
    {frames next : List (Frame α)} {others : List (Frame γ)}
    (quantifies : token = .quest ∨ ∃ least most, token = .times least most)
    (otherQuantifies : otherToken = .quest ∨ ∃ least most, otherToken = .times least most)
    (same : ∀ (item quantified : Item α) (other : Item γ), SameItem inner outer item other →
      item.quantify token = some quantified → ∃ otherQuantified,
        other.quantify otherToken = some otherQuantified ∧
        SameItem inner outer quantified otherQuantified)
    (alongside : Alongside shapes inner outer atStart (token :: rest) frames others)
    (read : readToken frames token = some next) :
    ∃ nextOthers, readToken others otherToken = some nextOthers ∧
      Alongside shapes inner outer false rest next nextOthers := by
  cases alongside with
  | @intro frame other frames others related around start =>
      have isQuantifier : isQuantifier token = true := by
        rcases quantifies with rfl | ⟨least, most, rfl⟩
        · rfl
        · rfl
      have agrees := related.whole isQuantifier
      rcases (readToken_quantifier quantifies).mp read with
        ⟨_, _, item, quantified, isFrames, isLast, isQuantified, rfl⟩
      cases isFrames
      have last := agrees.last
      rw [isLast] at last
      cases otherLast : other.last with
      | none =>
          rw [otherLast] at last
          cases last
      | some otherItem =>
          rw [otherLast] at last
          cases last with
          | some sameItem =>
              rcases same item quantified otherItem sameItem isQuantified with
                ⟨otherQuantified, isOther, sameQuantified⟩
              refine ⟨{ other with last := some otherQuantified } :: others,
                (readToken_quantifier otherQuantifies).mpr
                  ⟨other, others, otherItem, otherQuantified, rfl, otherLast, isOther, rfl⟩,
                .intro (.agrees ?_) around (fun impossible => by cases impossible)⟩
              exact
                { noBranch := agrees.noBranch
                  branches := agrees.branches
                  noItem := agrees.noItem
                  items := agrees.items
                  last := Option.Rel.some sameQuantified }

theorem sameItem_quest {item quantified : Item α} {other : Item γ}
    (same : SameItem inner outer item other)
    (isQuantified : item.quantify (.quest : Token α) = some quantified) :
    ∃ otherQuantified, other.quantify (.quest : Token γ) = some otherQuantified ∧
      SameItem inner outer quantified otherQuantified := by
  have marks := same.marks
  unfold Item.quantify at isQuantified ⊢
  cases isMarks : item.marks with
  | plain =>
      rw [isMarks] at isQuantified marks
      cases isQuantified
      rw [← marks]
      refine ⟨_, rfl, rfl, ?_⟩
      rw [denote_repeated, denote_repeated, same.language]
  | counted =>
      rw [isMarks] at isQuantified marks
      cases isQuantified
      rw [← marks]
      exact ⟨_, rfl, rfl, same.language⟩
  | reluctant =>
      rw [isMarks] at isQuantified
      cases isQuantified

theorem sameItem_times {least : Nat} {most : Option Nat} {item quantified : Item α}
    {other : Item γ} (same : SameItem inner outer item other)
    (isQuantified : item.quantify (.times least most : Token α) = some quantified) :
    ∃ otherQuantified, other.quantify (.times least most : Token γ) = some otherQuantified ∧
      SameItem inner outer quantified otherQuantified := by
  have marks := same.marks
  unfold Item.quantify at isQuantified ⊢
  cases isMarks : item.marks with
  | plain =>
      rw [isMarks] at isQuantified marks
      cases isQuantified
      rw [← marks]
      refine ⟨_, rfl, rfl, ?_⟩
      rw [denote_repeated, denote_repeated, same.language]
  | counted =>
      rw [isMarks] at isQuantified
      cases isQuantified
  | reluctant =>
      rw [isMarks] at isQuantified
      cases isQuantified

theorem alongside_step {token : Token α} {atStart : Bool} {frames next : List (Frame α)}
    {others : List (Frame γ)}
    (stands : ∀ symbol, token = .atom symbol →
      Stands outer (bodies symbol) (shapes symbol) (inner symbol))
    (safe : Safe shapes atStart (token :: rest) = true)
    (alongside : Alongside shapes inner outer atStart (token :: rest) frames others)
    (read : readToken frames token = some next) :
    ∃ nextStart nextOthers,
      (expandToken bodies token).foldlM readToken others = some nextOthers ∧
      Safe shapes nextStart rest = true ∧
      Alongside shapes inner outer nextStart rest next nextOthers := by
  cases token with
  | atom symbol =>
      cases alongside with
      | @intro frame other frames others related around start =>
          cases read
          have standing := stands symbol rfl
          rcases standing.reads with ⟨body, reads, fits, language⟩
          refine ⟨false, other.extend body :: others,
            foldlM_body other others standing.filled reads, ?_, .intro ?_ around
            (fun impossible => by cases impossible)⟩
          · rw [Safe, Bool.and_eq_true] at safe
            exact safe.2
          · exact related_extend (related.flushed rfl) fits language start safe
  | opening =>
      cases alongside with
      | @intro frame other frames others related around start =>
          cases read
          refine ⟨true, .empty :: other.flush :: others, rfl, safe, .intro (.agrees agrees_empty)
            (List.Forall₂.cons (related.flushed rfl).flush around) (fun _ => rfl)⟩
  | closing =>
      cases alongside with
      | @intro frame other frames others related around start =>
          cases around with
          | nil => cases read
          | @cons below otherBelow frames others agrees around =>
              cases read
              refine ⟨false, otherBelow.push other.close :: others, rfl, safe,
                .intro (.agrees (agrees.flushed.push related.close)) around
                (fun impossible => by cases impossible)⟩
  | bar =>
      cases alongside with
      | @intro frame other frames others related around start =>
          cases read
          exact ⟨true, other.branch :: others, rfl, safe,
            .intro (.agrees (agrees_branch related.close)) around (fun _ => rfl)⟩
  | quest =>
      rcases alongside_quantifier (.inl rfl) (.inl rfl) (fun _ _ _ => sameItem_quest) alongside
        read with ⟨nextOthers, reads, next⟩
      refine ⟨false, nextOthers, ?_, safe, next⟩
      rw [expandToken, List.foldlM_cons, reads]
      rfl
  | times least most =>
      rcases alongside_quantifier (.inr ⟨least, most, rfl⟩) (.inr ⟨least, most, rfl⟩)
        (fun _ _ _ => sameItem_times) alongside read with ⟨nextOthers, reads, next⟩
      refine ⟨false, nextOthers, ?_, safe, next⟩
      rw [expandToken, List.foldlM_cons, reads]
      rfl

theorem alongside_run {tokens : List (Token α)} {atStart : Bool} {frames next : List (Frame α)}
    {others : List (Frame γ)}
    (stands : ∀ symbol, .atom symbol ∈ tokens →
      Stands outer (bodies symbol) (shapes symbol) (inner symbol))
    (safe : Safe shapes atStart tokens = true)
    (alongside : Alongside shapes inner outer atStart tokens frames others)
    (read : tokens.foldlM readToken frames = some next) :
    ∃ lastStart nextOthers,
      (tokens.flatMap (expandToken bodies)).foldlM readToken others = some nextOthers ∧
      Alongside shapes inner outer lastStart [] next nextOthers := by
  induction tokens generalizing atStart frames others with
  | nil =>
      cases read
      exact ⟨atStart, others, rfl, alongside⟩
  | cons token tokens ih =>
      rw [List.foldlM_cons] at read
      rcases Option.bind_eq_some_iff.mp read with ⟨middle, first, rest⟩
      rcases alongside_step
        (fun symbol isToken => stands symbol (isToken ▸ List.mem_cons_self)) safe alongside
        first with
        ⟨nextStart, middleOthers, reads, safeRest, after⟩
      rcases ih (fun symbol member => stands symbol (List.mem_cons_of_mem token member)) safeRest
        after rest with
        ⟨lastStart, nextOthers, readsRest, final⟩
      refine ⟨lastStart, nextOthers, ?_, final⟩
      rw [List.flatMap_cons, List.foldlM_append, reads]
      exact readsRest

theorem flatMap_expandToken_ne_nil {tokens : List (Token α)}
    (stands : ∀ symbol, .atom symbol ∈ tokens →
      Stands outer (bodies symbol) (shapes symbol) (inner symbol))
    (filled : tokens ≠ []) : tokens.flatMap (expandToken bodies) ≠ [] := by
  rcases List.exists_cons_of_ne_nil filled with ⟨token, tokens, rfl⟩
  intro empty
  rw [List.flatMap_cons, List.append_eq_nil_iff] at empty
  cases token with
  | atom symbol => exact (stands symbol List.mem_cons_self).filled empty.1
  | opening => cases empty.1
  | closing => cases empty.1
  | bar => cases empty.1
  | quest => cases empty.1
  | times least most => cases empty.1

/-- Tokens with bodies in the place of their atoms denote what the tokens denote when
every atom denotes its body. -/
theorem reads_flatMap {tokens : List (Token α)} {frame : Frame α}
    (stands : ∀ symbol, .atom symbol ∈ tokens →
      Stands outer (bodies symbol) (shapes symbol) (inner symbol))
    (safe : Safe shapes true tokens = true)
    (reads : tokens.foldlM readToken [.empty] = some [frame]) :
    ∃ other, (tokens.flatMap (expandToken bodies)).foldlM readToken [.empty] = some [other] ∧
      other.Fits (frame.shape shapes) ∧ denote outer other.close = denote inner frame.close := by
  have start : Alongside shapes inner outer true tokens [.empty] [.empty] :=
    .intro (.agrees agrees_empty) List.Forall₂.nil (fun _ => rfl)
  rcases alongside_run stands safe start reads with ⟨lastStart, others, readsOther, final⟩
  cases final with
  | @intro _ other _ _ related around _ =>
      cases around
      exact ⟨other, readsOther, related.fits, related.close.symm⟩

end

end Library
