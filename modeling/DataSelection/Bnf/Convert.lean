/-
Converting a grammar into one regular expression.

Every rule is expanded when it is read, with the rules before it.  The bodies are put
in as text and without parentheses around them, so what is around a rule name can bind
more tightly than what is in its body.
-/

import DataSelection.Bnf.MultiSub
import DataSelection.Library.Strings
import DataSelection.WittenBell.Corpus

namespace Bnf

open Library WittenBell

def assignment_operator : Text := [':', ':', '=']

/-- The match of `^\s*(\S+)\s*::=\s*(.+)\s*$` for a line without blanks around it: the
longest name behind which the operator and a body follow. -/
def readRule (line : Text) : Option (Name × Text) :=
  (List.range (line.takeWhile (fun char => !isSpace char)).length).reverse.findSome? (fun k =>
    let rest := (line.drop (k + 1)).dropWhile isSpace
    let regex := (rest.drop assignment_operator.length).dropWhile isSpace
    if assignment_operator.isPrefixOf rest && regex ≠ [] then some (line.take (k + 1), regex)
    else none)

/-- `dictionary[id] = regex`. -/
def assign (dictionary : MultiSub) (id : Name) (regex : Text) : MultiSub :=
  if id ∈ dictionary.map Prod.fst then
    dictionary.map (fun entry => if entry.1 = id then (id, regex) else entry)
  else dictionary ++ [(id, regex)]

/-- The loop over the lines of the file.  Without an accepted regular expression the
function returns nothing. -/
def convertFrom (dictionary : MultiSub) : List Text → Option (Option Text)
  | [] => some none
  | line :: lines =>
      if find (strip line) assignment_operator > -1 then do
        let (id, regex) ← readRule (strip line)
        let regex ← if dictionary.length > 0 then sub dictionary regex else some regex
        convertFrom (assign dictionary id regex) lines
      else do
        let accepted ← sub dictionary (strip line)
        some (some accepted)

def convert (bnf_file : List Text) : Option (Option Text) := convertFrom [] bnf_file

/-! ### What the grammar means -/

/-- A rule whose body is a regular expression with the names of earlier rules. -/
structure Definition where
  name : Name
  found : List Piece
  tokens : List (Token Atom)
  frame : Frame Atom

/-- The body of a rule behind the given definitions, of which the last one comes first. -/
def readDefinition (definitions : List Definition) (rule : Name × Text) : Option Definition := do
  let found := pieces (definitions.map Definition.name) 0 rule.2
  let tokens ← lex found
  let frame ← readTokens tokens
  some { name := rule.1
         found := found
         tokens := tokens
         frame := frame }

def readRules (definitions : List Definition) (rules : List (Name × Text)) :
    Option (List Definition) :=
  rules.foldlM (fun definitions rule =>
    (readDefinition definitions rule).map (· :: definitions)) definitions

structure Grammar where
  definitions : List Definition
  accepted : Definition

def readGrammar (rules : List (Name × Text)) (accepted : Text) : Option Grammar := do
  let definitions ← readRules [] rules
  let accepted ← readDefinition definitions ([], accepted)
  some { definitions := definitions
         accepted := accepted }

/-- Every rule name denotes the language of its rule. -/
noncomputable def languageOf : List Definition → Name → Language Char
  | [], _ => 0
  | definition :: earlier, name =>
      if name = definition.name then
        denote (meaning (languageOf earlier)) definition.frame.close
      else languageOf earlier name

noncomputable def Grammar.language (grammar : Grammar) : Language Char :=
  denote (meaning (languageOf grammar.definitions)) grammar.accepted.frame.close

/-- A file in the documented format: one rule a line, and the accepted regular
expression, which is read like the body of a rule, in the last line. -/
structure Documented (bnf_file : List Text) (rules : List (Name × Text)) (accepted : Text) :
    Prop where
  lines : ∃ ruleLines last, bnf_file = ruleLines ++ [last] ∧
    List.Forall₂ (fun line rule => find (strip line) assignment_operator > -1 ∧
      readRule (strip line) = some rule) ruleLines rules ∧
    ¬ find (strip last) assignment_operator > -1 ∧ strip last = accepted
  prefixFree : PrefixFree (rules.map Prod.fst)
  literal : ∀ rule ∈ rules, ∀ char ∈ rule.1,
    char ∉ ['.', '^', '$', '*', '+', '?', '{', '}', '[', ']', '\\', '|', '(', ')']

theorem literal_of_all {rules : List (Name × Text)} {special : List Char}
    (checked : rules.all (fun rule => rule.1.all (fun char => !special.contains char)) = true) :
    ∀ rule ∈ rules, ∀ char ∈ rule.1, char ∉ special := by
  intro rule member char inName isSpecial
  have plain := List.all_eq_true.mp (List.all_eq_true.mp checked rule member) char inName
  rw [List.contains_iff_mem.mpr isSpecial] at plain
  cases plain

/-- What is returned for the file matches the language of its grammar. -/
def PreservesLanguage (bnf_file : List Text) (grammar : Grammar) : Prop :=
  ∃ regex, convert bnf_file = some (some regex) ∧
    ∀ word, FullyMatches regex word ↔ word ∈ grammar.language

/-! ### Where the bodies can be put in -/

def atomShape (shapes : Name → Shape) : Atom → Shape
  | .inl _ => .item
  | .inr name => shapes name

def shapeOf : List Definition → Name → Shape
  | [], _ => .item
  | definition :: earlier, name =>
      if name = definition.name then definition.frame.shape (atomShape (shapeOf earlier))
      else shapeOf earlier name

/-- The body of a rule with the earlier bodies written out. -/
def writtenText : List Definition → Name → Text
  | [], _ => []
  | definition :: earlier, name =>
      if name = definition.name then definition.found.flatMap (writePiece (writtenText earlier))
      else writtenText earlier name

/-- No body that is put in loses an item or a branch to what is around it. -/
def SafeBody (earlier : List Definition) (definition : Definition) : Prop :=
  Safe (atomShape (shapeOf earlier)) true definition.tokens = true

/-- No body that is put in has a group reference. -/
def Unreferenced (earlier : List Definition) (definition : Definition) : Prop :=
  ∀ piece ∈ definition.found, match piece with
    | .char _ => True
    | .name name => hasGroupReference (writtenText earlier name) = false

def Definition.uses (definition : Definition) (name : Name) : Bool :=
  definition.found.any (fun piece =>
    match piece with
    | .char _ => false
    | .name other => decide (other = name))

/-- All rules can be written out, those that are needed without a loss.  A rule that is needed needs
the rules that it uses. -/
def SafeRules : (Name → Bool) → List Definition → Prop
  | _, [] => True
  | needed, definition :: earlier =>
      Unreferenced earlier definition ∧
        (needed definition.name = true → SafeBody earlier definition) ∧
        SafeRules (fun name => needed name || needed definition.name && definition.uses name) earlier

/-- The accepted expression, and what it needs, can be written out. -/
def Grammar.Safe (grammar : Grammar) : Prop :=
  SafeRules grammar.accepted.uses grammar.definitions ∧
    Unreferenced grammar.definitions grammar.accepted ∧
      SafeBody grammar.definitions grammar.accepted

instance decidableSafePiece (earlier : List Definition) (piece : Piece) :
    Decidable (match piece with
      | .char _ => True
      | .name name => hasGroupReference (writtenText earlier name) = false) :=
  match piece with
  | .char _ => inferInstanceAs (Decidable True)
  | .name _ => inferInstanceAs (Decidable (_ = _))

instance decidableSafeBody (earlier : List Definition) (definition : Definition) :
    Decidable (SafeBody earlier definition) := inferInstanceAs (Decidable (_ = _))

instance decidableUnreferenced (earlier : List Definition) (definition : Definition) :
    Decidable (Unreferenced earlier definition) :=
  inferInstanceAs (Decidable (∀ piece ∈ definition.found, _))

instance decidableSafeRules : (needed : Name → Bool) → (definitions : List Definition) →
    Decidable (SafeRules needed definitions)
  | _, [] => inferInstanceAs (Decidable True)
  | needed, definition :: earlier =>
      have := decidableSafeRules
        (fun name => needed name || needed definition.name && definition.uses name) earlier
      inferInstanceAs (Decidable (_ ∧ (_ → _) ∧ _))

instance decidableSafe (grammar : Grammar) : Decidable grammar.Safe :=
  inferInstanceAs (Decidable (_ ∧ _ ∧ _))

/-! ### The dictionary -/

def tokensOf (definitions : List Definition) (name : Name) : List (Token Atom) :=
  (lex ((writtenText definitions name).map .char)).getD []

/-- What the dictionary holds for a rule name; a name that is needed stands for its language. -/
structure Holds (needed : Name → Bool) (dictionary : MultiSub) (definitions : List Definition)
    (name : Name) : Prop where
  found : dictionary.find? (fun entry => entry.1 = name) = some (name, writtenText definitions name)
  lexed : lex ((writtenText definitions name).map .char) = some (tokensOf definitions name)
  stands : needed name = true → Stands (meaning (fun _ => 0)) (tokensOf definitions name)
    (shapeOf definitions name) (languageOf definitions name)

structure Represents (needed : Name → Bool) (dictionary : MultiSub) (definitions : List Definition) :
    Prop where
  names : dictionary.map Prod.fst = (definitions.map Definition.name).reverse
  holds : ∀ name ∈ definitions.map Definition.name, Holds needed dictionary definitions name

theorem pieces_ne_nil {names : List Name} {text : Text} (filled : text ≠ []) :
    pieces names 0 text ≠ [] := by
  cases text with
  | nil => exact absurd rfl filled
  | cons char rest =>
      rw [pieces]
      cases names.find? (fun name => name.isPrefixOf (char :: rest)) with
      | none => exact List.cons_ne_nil _ _
      | some name => exact List.cons_ne_nil _ _

theorem stands_charSet (env : Name → Language Char) (set : CharSet) :
    Stands (meaning (fun _ => 0)) [.atom (.inl set)] .item (meaning env (.inl set)) := by
  constructor
  · exact List.cons_ne_nil _ _
  · refine ⟨Frame.empty.push (.char (.inl set)), rfl, ⟨rfl, rfl, rfl⟩, ?_⟩
    rw [denote_close, sequence_push]
    change 0 + denote _ [_].prod = _
    rw [zero_add, denote_singleton]
    rfl

def Reads (definitions : List Definition) (definition : Definition) (text written : Text) : Prop :=
  ∃ tokens frame, lex (written.map .char) = some tokens ∧
    (text ≠ [] → tokens ≠ []) ∧ tokens.foldlM readToken [.empty] = some [frame] ∧
    frame.Fits (definition.frame.shape (atomShape (shapeOf definitions))) ∧
    denote (meaning (fun _ => 0)) frame.close =
      denote (meaning (languageOf definitions)) definition.frame.close

structure Written (needed : Prop) (definitions : List Definition) (definition : Definition)
    (text written : Text) : Prop where
  eq : written = definition.found.flatMap (writePiece (writtenText definitions))
  lexes : ∃ tokens, lex (written.map .char) = some tokens
  reads : needed → Reads definitions definition text written

theorem readTokens_eq_some {α : Type} {tokens : List (Token α)} {frame : Frame α} :
    readTokens tokens = some frame ↔ tokens.foldlM readToken [.empty] = some [frame] := by
  unfold readTokens
  cases tokens.foldlM readToken [.empty] with
  | none => simp
  | some frames =>
      match frames with
      | [] => simp
      | [_] => simp
      | _ :: _ :: _ => simp

theorem uses_of_mem {definition : Definition} {name : Name}
    (member : .name name ∈ definition.found) : definition.uses name = true :=
  List.any_eq_true.mpr ⟨.name name, member, decide_eq_true rfl⟩

theorem Represents.written {wanted : Name → Bool} {needed : Prop} {dictionary : MultiSub}
    {definitions : List Definition} (represents : Represents wanted dictionary definitions)
    (free : PrefixFree (definitions.map Definition.name)) {rule : Name × Text}
    {definition : Definition} (read : readDefinition definitions rule = some definition)
    (unreferenced : Unreferenced definitions definition)
    (safe : needed → SafeBody definitions definition ∧
      ∀ name, definition.uses name = true → wanted name = true) :
    ∃ written, sub dictionary rule.2 = some written ∧
      Written needed definitions definition rule.2 written := by
  unfold readDefinition at read
  rcases Option.bind_eq_some_iff.mp read with ⟨tokens, lexed, rest⟩
  rcases Option.bind_eq_some_iff.mp rest with ⟨frame, reads, result⟩
  cases result
  have names : ∀ name, name ∈ dictionary.map Prod.fst ↔
      name ∈ definitions.map Definition.name := by
    intro name
    rw [represents.names, List.mem_reverse]
  have scanned : pieces (dictionary.map Prod.fst) 0 rule.2 =
      pieces (definitions.map Definition.name) 0 rule.2 := pieces_order free names 0 rule.2
  have holds : ∀ name, .name name ∈ pieces (definitions.map Definition.name) 0 rule.2 →
      Holds wanted dictionary definitions name :=
    fun name member => represents.holds name (mem_names_of_mem_pieces member)
  have plain : ∀ name, .name name ∈ pieces (dictionary.map Prod.fst) 0 rule.2 →
      replacement dictionary name = some (writtenText definitions name) := by
    intro name member
    rw [scanned] at member
    have noReference : hasGroupReference (writtenText definitions name) = false :=
      unreferenced (.name name) member
    unfold replacement
    rw [(holds name member).found, Option.bind_eq_bind, Option.bind_some, noReference]
    rfl
  have written := lex_written (fun name member => (holds name member).lexed) lexed
  refine ⟨_, (sub_eq plain).trans (by rw [scanned]), rfl, ⟨_, written⟩, ?_⟩
  intro isNeeded
  obtain ⟨safeBody, wantsUsed⟩ := safe isNeeded
  have bodies : ∀ symbol, .atom symbol ∈ tokens →
      Stands (meaning (fun _ => 0)) (bodyOf (tokensOf definitions) symbol)
        (atomShape (shapeOf definitions) symbol) (meaning (languageOf definitions) symbol) := by
    intro symbol member
    cases symbol with
    | inl set => exact stands_charSet _ set
    | inr name =>
        have isPiece := mem_pieces_of_mem_lex lexed member
        exact (holds name isPiece).stands (wantsUsed name (uses_of_mem isPiece))
  rcases reads_flatMap bodies safeBody (readTokens_eq_some.mp reads) with
    ⟨other, readsOther, fits, same⟩
  refine ⟨_, other, written, ?_, readsOther, fits, same⟩
  intro filled
  exact flatMap_expandToken_ne_nil bodies (lex_ne_nil (pieces_ne_nil filled) lexed)

/-! ### One more rule -/

theorem shapeOf_earlier {definition : Definition} {definitions : List Definition} {name : Name}
    (other : name ≠ definition.name) :
    shapeOf (definition :: definitions) name = shapeOf definitions name := if_neg other

theorem languageOf_earlier {definition : Definition} {definitions : List Definition} {name : Name}
    (other : name ≠ definition.name) :
    languageOf (definition :: definitions) name = languageOf definitions name := by
  rw [languageOf, if_neg other]

theorem writtenText_earlier {definition : Definition} {definitions : List Definition}
    {name : Name} (other : name ≠ definition.name) :
    writtenText (definition :: definitions) name = writtenText definitions name := if_neg other

theorem find?_key_append {dictionary : MultiSub} {id name : Name} (text : Text)
    (other : name ≠ id) :
    (dictionary ++ [(id, text)]).find? (fun entry => entry.1 = name) =
      dictionary.find? (fun entry => entry.1 = name) := by
  have missed : [(id, text)].find? (fun entry => entry.1 = name) = none := by
    rw [List.find?_cons_of_neg (by simpa using other.symm), List.find?_nil]
  rw [List.find?_append, missed, Option.or_none]

theorem find?_key_last {dictionary : MultiSub} {id : Name} (text : Text)
    (absent : id ∉ dictionary.map Prod.fst) :
    (dictionary ++ [(id, text)]).find? (fun entry => entry.1 = id) = some (id, text) := by
  have missed : dictionary.find? (fun entry => entry.1 = id) = none := by
    rw [List.find?_eq_none]
    intro entry member same
    exact absent (List.mem_map.mpr ⟨entry, member, of_decide_eq_true same⟩)
  rw [List.find?_append, missed, Option.none_or, List.find?_cons_of_pos (by simp)]

theorem Holds.append {wanted needed : Name → Bool} {dictionary : MultiSub}
    {definitions : List Definition} {name : Name} (holds : Holds wanted dictionary definitions name)
    (more : needed name = true → wanted name = true) {definition : Definition} (text : Text)
    (other : name ≠ definition.name) :
    Holds needed (dictionary ++ [(definition.name, text)]) (definition :: definitions) name := by
  have sameTokens : tokensOf (definition :: definitions) name = tokensOf definitions name := by
    unfold tokensOf
    rw [writtenText_earlier other]
  constructor
  · rw [find?_key_append text other, writtenText_earlier other]
    exact holds.found
  · rw [writtenText_earlier other, sameTokens]
    exact holds.lexed
  · rw [sameTokens, shapeOf_earlier other, languageOf_earlier other]
    exact fun isNeeded => holds.stands (more isNeeded)

theorem Represents.append {wanted needed : Name → Bool} {dictionary : MultiSub}
    {definitions : List Definition} (represents : Represents wanted dictionary definitions)
    (more : ∀ name, needed name = true → wanted name = true) {definition : Definition}
    {text written : Text}
    (isWritten : Written (needed definition.name = true) definitions definition text written)
    (filled : text ≠ []) (absent : definition.name ∉ definitions.map Definition.name) :
    Represents needed (assign dictionary definition.name written) (definition :: definitions) := by
  have absentKey : definition.name ∉ dictionary.map Prod.fst := by
    rw [represents.names, List.mem_reverse]
    exact absent
  have assigned : assign dictionary definition.name written =
      dictionary ++ [(definition.name, written)] := if_neg absentKey
  have isText : writtenText (definition :: definitions) definition.name = written := by
    rw [writtenText, if_pos rfl, isWritten.eq]
  rw [assigned]
  constructor
  · rw [List.map_append, represents.names, List.map_singleton, List.map_cons, List.reverse_cons]
  · intro name member
    by_cases same : name = definition.name
    · subst same
      obtain ⟨tokens, lexed⟩ := isWritten.lexes
      have isTokens : tokensOf (definition :: definitions) definition.name = tokens := by
        unfold tokensOf
        rw [isText, lexed]
        rfl
      constructor
      · rw [isText]
        exact find?_key_last written absentKey
      · rw [isText, isTokens]
        exact lexed
      · intro isNeeded
        obtain ⟨others, frame, lexedOthers, notEmpty, reads, fits, language⟩ :=
          isWritten.reads isNeeded
        obtain rfl := Option.some.inj (lexed.symm.trans lexedOthers)
        rw [isTokens]
        refine ⟨notEmpty filled, frame, reads, ?_, ?_⟩
        · rw [shapeOf, if_pos rfl]
          exact fits
        · rw [languageOf, if_pos rfl]
          exact language
    · rw [List.map_cons, List.mem_cons] at member
      exact (represents.holds name (member.resolve_left same)).append (more name) written same

theorem readRule_filled {line : Text} {rule : Name × Text} (read : readRule line = some rule) :
    rule.2 ≠ [] := by
  unfold readRule at read
  rcases List.exists_of_findSome?_eq_some read with ⟨k, _, found⟩
  dsimp only at found
  split at found
  · rename_i both
    cases found
    rw [Bool.and_eq_true] at both
    exact of_decide_eq_true both.2
  · cases found

theorem readDefinition_name {definitions : List Definition} {rule : Name × Text}
    {definition : Definition} (read : readDefinition definitions rule = some definition) :
    definition.name = rule.1 := by
  unfold readDefinition at read
  rcases Option.bind_eq_some_iff.mp read with ⟨tokens, _, rest⟩
  rcases Option.bind_eq_some_iff.mp rest with ⟨frame, _, result⟩
  cases result
  rfl

/-! ### The whole file -/

theorem sub_empty {dictionary : MultiSub} (empty : ¬ dictionary.length > 0) (text : Text) :
    sub dictionary text = some text := by
  rw [sub, if_pos (Nat.eq_zero_of_not_pos empty)]

theorem convertFrom_rules {ruleLines rest : List Text} {rules : List (Name × Text)}
    {needed : Name → Bool} {definitions final : List Definition}
    (lines : List.Forall₂ (fun line rule => find (strip line) assignment_operator > -1 ∧
      readRule (strip line) = some rule) ruleLines rules)
    (read : readRules definitions rules = some final)
    (free : PrefixFree (definitions.map Definition.name ++ rules.map Prod.fst))
    (safe : SafeRules needed final) :
    ∃ wanted, SafeRules wanted definitions ∧ ∀ dictionary, Represents wanted dictionary definitions →
      ∃ finalDictionary,
        convertFrom dictionary (ruleLines ++ rest) = convertFrom finalDictionary rest ∧
        Represents needed finalDictionary final ∧ PrefixFree (final.map Definition.name) := by
  induction lines generalizing definitions with
  | nil =>
      cases read
      rw [List.map_nil, List.append_nil] at free
      exact ⟨needed, safe, fun dictionary represents => ⟨dictionary, rfl, represents, free⟩⟩
  | @cons line rule ruleLines rules isRule _ ih =>
      rw [readRules, List.foldlM_cons] at read
      rcases Option.bind_eq_some_iff.mp read with ⟨next, first, others⟩
      rcases Option.map_eq_some_iff.mp first with ⟨definition, isDefinition, rfl⟩
      have name := readDefinition_name isDefinition
      have freeHere : PrefixFree (definitions.map Definition.name) :=
        free.sublist (List.sublist_append_left _ _)
      have absent : definition.name ∉ definitions.map Definition.name := by
        intro member
        have apart := (List.pairwise_append.mp free).2.2 _ member rule.1 List.mem_cons_self
        rw [name] at apart
        exact apart.1 (List.prefix_refl _)
      have nextFree : PrefixFree ((definition :: definitions).map Definition.name ++
          rules.map Prod.fst) := by
        rw [List.map_cons, name]
        exact free.perm List.perm_middle (fun both => ⟨both.2, both.1⟩)
      obtain ⟨wanted, ⟨unreferenced, safeHere, safeEarlier⟩, continued⟩ := ih others nextFree
      refine ⟨_, safeEarlier, ?_⟩
      intro dictionary represents
      have more : ∀ other, wanted other = true →
          (wanted other || wanted definition.name && definition.uses other) = true := by
        intro other isWanted
        rw [isWanted, Bool.true_or]
      have used : wanted definition.name = true → SafeBody definitions definition ∧
          ∀ other, definition.uses other = true →
            (wanted other || wanted definition.name && definition.uses other) = true := by
        intro isWanted
        refine ⟨safeHere isWanted, ?_⟩
        intro other isUsed
        rw [isWanted, isUsed, Bool.and_true, Bool.or_true]
      obtain ⟨written, isSub, isWritten⟩ :=
        represents.written freeHere isDefinition unreferenced used
      obtain ⟨finalDictionary, converted, final⟩ := continued _
        (represents.append more isWritten (readRule_filled isRule.2) absent)
      refine ⟨finalDictionary, ?_, final⟩
      rw [← converted, List.cons_append, convertFrom, if_pos isRule.1, isRule.2, name,
        Option.bind_eq_bind, Option.bind_some]
      dsimp only
      by_cases filled : dictionary.length > 0
      · rw [if_pos filled, isSub]
        rfl
      · have same := (sub_empty filled rule.2).symm.trans isSub
        rw [if_neg filled, same]
        rfl

theorem convert_written {bnf_file : List Text} {rules : List (Name × Text)} {accepted : Text}
    {grammar : Grammar} (documented : Documented bnf_file rules accepted)
    (read : readGrammar rules accepted = some grammar) (safe : grammar.Safe) :
    ∃ regex frame, convert bnf_file = some (some regex) ∧
      readRegex (regex.map .char) = some frame ∧
      denote (meaning (fun _ => 0)) frame.close = grammar.language := by
  rcases Option.bind_eq_some_iff.mp read with ⟨definitions, readDefinitions, rest⟩
  rcases Option.bind_eq_some_iff.mp rest with ⟨last, readLast, result⟩
  cases result
  rcases documented.lines with ⟨ruleLines, lastLine, isFile, lines, notRule, isAccepted⟩
  obtain ⟨safeRules, unreferenced, safeBody⟩ := safe
  obtain ⟨wanted, _, continued⟩ :=
    convertFrom_rules lines readDefinitions documented.prefixFree safeRules
  obtain ⟨dictionary, converted, represents, free⟩ := continued []
    ⟨rfl, fun name member => absurd member List.not_mem_nil⟩
  obtain ⟨regex, isSub, isWritten⟩ := represents.written free readLast unreferenced
    (fun _ : True => ⟨safeBody, fun name isUsed => isUsed⟩)
  obtain ⟨tokens, frame, lexed, _, reads, _, language⟩ := isWritten.reads trivial
  refine ⟨regex, frame, ?_, ?_, language⟩
  · rw [convert, isFile, converted, convertFrom, if_neg notRule, isAccepted, isSub]
    rfl
  · unfold readRegex
    rw [lexed]
    exact readTokens_eq_some.mpr reads

theorem fullyMatches_iff {regex : Text} {frame : Frame Atom} (read : readRegex (regex.map .char) =
    some frame) (word : List Char) :
    FullyMatches regex word ↔ word ∈ denote (meaning (fun _ => 0)) frame.close := by
  constructor
  · rintro ⟨other, readOther, matched⟩
    rw [read] at readOther
    cases readOther
    exact matched
  · intro matched
    exact ⟨frame, read, matched⟩

/-- The language of a file in the documented format is preserved where no body loses an
item or a branch to what is around it. -/
theorem convert_preservesLanguage (bnf_file : List Text) (rules : List (Name × Text))
    (accepted : Text) (grammar : Grammar) (documented : Documented bnf_file rules accepted)
    (read : readGrammar rules accepted = some grammar) (safe : grammar.Safe) :
    PreservesLanguage bnf_file grammar := by
  rcases convert_written documented read safe with ⟨regex, frame, converted, isRegex, language⟩
  refine ⟨regex, converted, ?_⟩
  intro word
  rw [fullyMatches_iff isRegex, language]

/-- The grammar of the script's documentation. -/
def exampleFile : List Text :=
  ["a      ::= b\n".toList, "rule1  ::= abc\n".toList, "<rule2>::=de(f?)\n".toList,
    "rule3::=g\n".toList, "rule1|<rule2>|rule3\n".toList]

def exampleRules : List (Name × Text) :=
  [("a".toList, "b".toList), ("rule1".toList, "abc".toList), ("<rule2>".toList, "de(f?)".toList),
    ("rule3".toList, "g".toList)]

theorem exampleFile_documented :
    Documented exampleFile exampleRules "rule1|<rule2>|rule3".toList := by
  constructor
  · exact ⟨exampleFile.dropLast, "rule1|<rule2>|rule3\n".toList, rfl, by decide +kernel,
      by decide +kernel, by decide +kernel⟩
  · decide +kernel
  · exact literal_of_all (by decide +kernel)

theorem convert_preservesLanguage_example :
    ∃ grammar, readGrammar exampleRules "rule1|<rule2>|rule3".toList = some grammar ∧
      PreservesLanguage exampleFile grammar := by
  have checked : (readGrammar exampleRules "rule1|<rule2>|rule3".toList).any
      (fun grammar => decide grammar.Safe) = true := by decide +kernel
  rcases (Option.any_eq_true _ _).mp checked with ⟨grammar, read, safe⟩
  exact ⟨grammar, read, convert_preservesLanguage exampleFile exampleRules _ grammar
    exampleFile_documented read (of_decide_eq_true safe)⟩

def looseFile : List Text := ["r ::= a|b\n".toList, "rc\n".toList]

def looseRules : List (Name × Text) := [("r".toList, "a|b".toList)]

def letter (char : Char) : RegularExpression Atom := .char (.inl (.one char))

theorem mem_letter {env : Name → Language Char} {char : Char} {word : List Char} :
    word ∈ denote (meaning env) (letter char) ↔ word = [char] := by
  constructor
  · rintro ⟨found, rfl, accepted⟩
    rw [of_decide_eq_true accepted]
  · rintro rfl
    exact ⟨char, rfl, decide_eq_true rfl⟩

def looseGrammar : Grammar :=
  { definitions :=
      [{ name := ['r']
         found := [.char 'a', .char '|', .char 'b']
         tokens := [.atom (.inl (.one 'a')), .bar, .atom (.inl (.one 'b'))]
         frame := { branches := [[letter 'a']]
                    items := []
                    last := some { regex := letter 'b'
                                   marks := .plain } } }]
    accepted :=
      { name := []
        found := [.name ['r'], .char 'c']
        tokens := [.atom (.inr ['r']), .atom (.inl (.one 'c'))]
        frame := { branches := []
                   items := [.char (.inr ['r'])]
                   last := some { regex := letter 'c'
                                  marks := .plain } } } }

theorem looseFile_documented : Documented looseFile looseRules "rc".toList := by
  constructor
  · exact ⟨["r ::= a|b\n".toList], "rc\n".toList, rfl, by decide +kernel, by decide +kernel,
      by decide +kernel⟩
  · decide +kernel
  · exact literal_of_all (by decide +kernel)

/-- The grammar has the word `ac`, which the expression `a|bc` does not match. -/
theorem convert_loosensChoice :
    Documented looseFile looseRules "rc".toList ∧
      readGrammar looseRules "rc".toList = some looseGrammar ∧
      ¬ PreservesLanguage looseFile looseGrammar := by
  refine ⟨looseFile_documented, rfl, ?_⟩
  rintro ⟨regex, converted, same⟩
  have isRegex : convert looseFile = some (some "a|bc".toList) := by decide +kernel
  rw [isRegex] at converted
  cases converted
  have inRule : ['a'] ∈ languageOf looseGrammar.definitions ['r'] := by
    rw [looseGrammar, languageOf, if_pos rfl]
    exact mem_close.mpr ⟨[letter 'a'], List.mem_cons_self,
      mem_prod_cons.mpr ⟨['a'], mem_letter.mpr rfl, [], mem_prod_nil.mpr rfl, rfl⟩⟩
  have inGrammar : ['a', 'c'] ∈ looseGrammar.language :=
    mem_close.mpr ⟨_, List.mem_cons_self, mem_prod_cons.mpr ⟨['a'], inRule, ['c'],
      mem_prod_cons.mpr ⟨['c'], mem_letter.mpr rfl, [], mem_prod_nil.mpr rfl, rfl⟩, rfl⟩⟩
  have isFrame : readRegex ("a|bc".toList.map .char) =
      some { branches := [[letter 'a']]
             items := [letter 'b']
             last := some { regex := letter 'c'
                            marks := .plain } } := rfl
  have matched := (fullyMatches_iff isFrame _).mp ((same ['a', 'c']).mpr inGrammar)
  rcases mem_close.mp matched with ⟨branch, member, inBranch⟩
  rcases List.mem_cons.mp member with rfl | member
  · rcases mem_prod_cons.mp inBranch with ⟨front, isA, back, isEmpty, whole⟩
    rw [mem_letter.mp isA, mem_prod_nil.mp isEmpty] at whole
    exact absurd whole (by decide)
  · rw [List.mem_singleton.mp member] at inBranch
    rcases mem_prod_cons.mp inBranch with ⟨front, isB, back, _, whole⟩
    rw [mem_letter.mp isB] at whole
    exact absurd (List.cons.inj whole).1 (by decide)

end Bnf
