/-
Reading a JSGF grammar and writing down its sentences.

The productions of the parser carry the values that their actions build.  The sentences of
a rule are collected alternative by alternative, item by item.
-/

import Mathlib.Data.List.Basic

namespace Jsgf

abbrev Word := List Char

/-- An item of an alternative: a word, or the name of a rule. -/
inductive Item where
  | word (text : Word)
  | itemName (rule : Word)

/-- The rules in the order of their definitions. -/
abbrev Model := List (Word × List (List Item))

/-- The rule that was defined last under a name. -/
def Model.rule? (model : Model) (name : Word) : Option (List (List Item)) :=
  (model.reverse.find? (fun rule => rule.1 = name)).map Prod.snd

/-! ### The parser -/

inductive Token where
  | str (text : Word)
  | semicolon
  | equals
  | pipe
  | less
  | greater
  | lbracket
  | rbracket

mutual

/-- The productions of an item, with the value of each. -/
inductive ParsesItem : List Token → List Item → Prop where
  | p_Word (text : Word) : ParsesItem [.str text] [.word text]
  | p_Wlist {tokens : List Token} {items : List Item} :
      ParsesItemList tokens items → ParsesItem (.lbracket :: (tokens ++ [.rbracket])) items
  | p_Itemname (rule : Word) : ParsesItem [.less, .str rule, .greater] [.itemName rule]

inductive ParsesItemList : List Token → List Item → Prop where
  | p_ItemList {tokens more : List Token} {items others : List Item} :
      ParsesItemList tokens items → ParsesItem more others →
        ParsesItemList (tokens ++ more) (items ++ others)
  | p_SingleItemList {tokens : List Token} {items : List Item} :
      ParsesItem tokens items → ParsesItemList tokens items

end

inductive ParsesRuleList : List Token → List (List Item) → Prop where
  | p_Alternative {tokens more : List Token} {alternatives : List (List Item)} {items : List Item} :
      ParsesRuleList tokens alternatives → ParsesItemList more items →
        ParsesRuleList (tokens ++ .pipe :: more) (alternatives ++ [items])
  | p_SingleRuleList {tokens : List Token} {items : List Item} :
      ParsesItemList tokens items → ParsesRuleList tokens [items]

inductive ParsesRule : List Token → Word × List (List Item) → Prop where
  | p_Rule {name : Word} {tokens : List Token} {alternatives : List (List Item)} :
      ParsesRuleList tokens alternatives →
        ParsesRule (.less :: .str name :: .greater :: .equals :: (tokens ++ [.semicolon]))
          (name, alternatives)
  | p_Rule_Public {modifier name : Word} {tokens : List Token} {alternatives : List (List Item)} :
      ParsesRuleList tokens alternatives →
        ParsesRule
          (.str modifier :: .less :: .str name :: .greater :: .equals :: (tokens ++ [.semicolon]))
          (name, alternatives)

inductive ParsesModel : List Token → Model → Prop where
  | p_Model {tokens more : List Token} {model : Model} {rule : Word × List (List Item)} :
      ParsesModel tokens model → ParsesRule more rule → ParsesModel (tokens ++ more) (model ++ [rule])
  | p_Rules {tokens : List Token} {rule : Word × List (List Item)} :
      ParsesRule tokens rule → ParsesModel tokens [rule]

inductive ParsesGrammar : List Token → Model → Prop where
  | p_Grammar {header version : Word} {tokens : List Token} {model : Model} :
      ParsesModel tokens model →
        ParsesGrammar (.str header :: .str version :: .semicolon :: tokens) model

/-! ### Sentences -/

inductive Error where
  | keyError (name : Word)
  | recursionDepth

/-- The possible sentences of an alternative with one more item. -/
def addItem (getSentences : Word → Except Error (List (List Word))) (p : List (List Word)) :
    Item → Except Error (List (List Word))
  | .itemName w => do
      let subsentences ← getSentences w
      if p.length > 0 then pure (p.flatMap (fun l => subsentences.map (fun s => l ++ s)))
      else pure subsentences
  | .word w => if p.length > 0 then pure (p.map (fun l => l ++ [w])) else pure [[w]]

/-- The sentences so far with those of one more alternative. -/
def addAlternative (getSentences : Word → Except Error (List (List Word))) (res : List (List Word))
    (alternative : List Item) : Except Error (List (List Word)) := do
  let p ← alternative.foldlM (addItem getSentences) []
  pure (res ++ p)

/-- The sentences of a rule; the depth is what the interpreter still allows for calls. -/
def getSentences (model : Model) : Nat → Word → Except Error (List (List Word))
  | 0, _ => throw .recursionDepth
  | depth + 1, start =>
      match model.rule? start with
      | none => throw (.keyError start)
      | some alternatives => alternatives.foldlM (addAlternative (getSentences model depth)) []

end Jsgf
