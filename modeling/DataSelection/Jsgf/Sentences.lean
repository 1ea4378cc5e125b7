/-
The sentences of a grammar are those that its rules derive.

For a grammar that was parsed, the list of a rule has one sentence for each derivation from it;
and it is complete whenever it is returned, which happens for exactly the rules that reach no
undefined rule and no rule that uses itself.
-/

import DataSelection.Jsgf.Grammar
import DataSelection.Library.Acyclic
import DataSelection.Library.Listing
import Mathlib.Data.Finset.Dedup

namespace Jsgf

open Library

/-! ### Derivations -/

/-- The alternative that a rule takes, and a derivation for each rule that is named in it. -/
inductive Derivation where
  | rule (choice : Nat) (parts : List Derivation)

mutual

inductive Derives (model : Model) : Word → Derivation → List Word → Prop where
  | rule {start : Word} {alternatives : List (List Item)} {choice : Nat} {alternative : List Item}
      {parts : List Derivation} {sentence : List Word} :
      model.rule? start = some alternatives → alternatives[choice]? = some alternative →
        Spells model alternative parts sentence →
          Derives model start (.rule choice parts) sentence

inductive Spells (model : Model) : List Item → List Derivation → List Word → Prop where
  | nil : Spells model [] [] []
  | word {text : Word} {items : List Item} {parts : List Derivation} {sentence : List Word} :
      Spells model items parts sentence → Spells model (.word text :: items) parts (text :: sentence)
  | itemName {rule : Word} {items : List Item} {part : Derivation} {parts : List Derivation}
      {first sentence : List Word} :
      Derives model rule part first → Spells model items parts sentence →
        Spells model (.itemName rule :: items) (part :: parts) (first ++ sentence)

end

section

variable {model : Model}

theorem derives_iff {start : Word} {choice : Nat} {parts : List Derivation} {sentence : List Word} :
    Derives model start (.rule choice parts) sentence ↔
      ∃ alternatives alternative, model.rule? start = some alternatives ∧
        alternatives[choice]? = some alternative ∧ Spells model alternative parts sentence := by
  constructor
  · intro derives
    cases derives with
    | rule isRule isAlternative spells => exact ⟨_, _, isRule, isAlternative, spells⟩
  · intro ⟨alternatives, alternative, isRule, isAlternative, spells⟩
    exact Derives.rule isRule isAlternative spells

theorem Spells.unique {items : List Item} {parts : List Derivation} {sentence other : List Word}
    (spells : Spells model items parts sentence) (spellsOther : Spells model items parts other) :
    sentence = other := by
  refine @Spells.rec model
    (fun start tree sentence _ => ∀ other, Derives model start tree other → sentence = other)
    (fun items parts sentence _ => ∀ other, Spells model items parts other → sentence = other)
    ?_ ?_ ?_ ?_ items parts sentence spells other spellsOther
  · intro start alternatives choice alternative parts sentence isRule isAlternative _ same other derives
    cases derives with
    | rule isRule' isAlternative' spells' =>
        obtain rfl := Option.some.inj (isRule.symm.trans isRule')
        obtain rfl := Option.some.inj (isAlternative.symm.trans isAlternative')
        exact same other spells'
  · intro other isNil
    cases isNil
    rfl
  · intro text items parts sentence _ same other isWord
    cases isWord with
    | word later => rw [same _ later]
  · intro rule items part parts first sentence _ _ sameFirst same other isName
    cases isName with
    | itemName isFirst later => rw [sameFirst _ isFirst, same _ later]

theorem Derives.unique {start : Word} {tree : Derivation} {sentence other : List Word}
    (derives : Derives model start tree sentence) (derivesOther : Derives model start tree other) :
    sentence = other := by
  cases derives with
  | rule isRule isAlternative spells =>
      obtain ⟨_, _, isRule', isAlternative', spells'⟩ := derives_iff.mp derivesOther
      obtain rfl := Option.some.inj (isRule.symm.trans isRule')
      obtain rfl := Option.some.inj (isAlternative.symm.trans isAlternative')
      exact spells.unique spells'

theorem Spells.append {items more : List Item} {parts others : List Derivation}
    {sentence rest : List Word} (spells : Spells model items parts sentence)
    (spellsMore : Spells model more others rest) :
    Spells model (items ++ more) (parts ++ others) (sentence ++ rest) := by
  induction items generalizing parts sentence with
  | nil =>
      cases spells
      exact spellsMore
  | cons item items ih =>
      cases spells with
      | word later => exact Spells.word (ih later)
      | itemName isFirst later =>
          rw [List.append_assoc]
          exact Spells.itemName isFirst (ih later)

theorem spells_append_iff {items more : List Item} {parts : List Derivation} {sentence : List Word} :
    Spells model (items ++ more) parts sentence ↔
      ∃ front back first rest, parts = front ++ back ∧ sentence = first ++ rest ∧
        Spells model items front first ∧ Spells model more back rest := by
  constructor
  · intro spells
    induction items generalizing parts sentence with
    | nil => exact ⟨[], parts, [], sentence, rfl, rfl, Spells.nil, spells⟩
    | cons item items ih =>
        cases spells with
        | word later =>
            obtain ⟨front, back, first, rest, rfl, rfl, isFront, isBack⟩ := ih later
            exact ⟨front, back, _ :: first, rest, rfl, rfl, Spells.word isFront, isBack⟩
        | itemName isFirst later =>
            obtain ⟨front, back, first, rest, rfl, rfl, isFront, isBack⟩ := ih later
            exact ⟨_ :: front, back, _ ++ first, rest, rfl, (List.append_assoc _ _ _).symm,
              Spells.itemName isFirst isFront, isBack⟩
  · rintro ⟨front, back, first, rest, rfl, rfl, isFront, isBack⟩
    exact isFront.append isBack

theorem spells_word_iff {text : Word} {parts : List Derivation} {sentence : List Word} :
    Spells model [.word text] parts sentence ↔ parts = [] ∧ sentence = [text] := by
  constructor
  · intro spells
    cases spells with
    | word later =>
        cases later
        exact ⟨rfl, rfl⟩
  · rintro ⟨rfl, rfl⟩
    exact Spells.word Spells.nil

theorem spells_itemName_iff {rule : Word} {parts : List Derivation} {sentence : List Word} :
    Spells model [.itemName rule] parts sentence ↔
      ∃ part, parts = [part] ∧ Derives model rule part sentence := by
  constructor
  · intro spells
    cases spells with
    | itemName isFirst later =>
        cases later
        rw [List.append_nil]
        exact ⟨_, rfl, isFirst⟩
  · rintro ⟨part, rfl, derives⟩
    have spells := Spells.itemName derives Spells.nil
    rw [List.append_nil] at spells
    exact spells

end

/-! ### Grammars that were parsed -/

/-- Each rule has an alternative, and each alternative an item. -/
def WellFormed (model : Model) : Prop :=
  ∀ rule ∈ model, rule.2 ≠ [] ∧ ∀ alternative ∈ rule.2, alternative ≠ []

theorem ParsesItemList.nonempty {tokens : List Token} {items : List Item}
    (parses : ParsesItemList tokens items) : items ≠ [] := by
  refine @ParsesItemList.rec (fun _ items _ => items ≠ []) (fun _ items _ => items ≠ [])
    ?_ ?_ ?_ ?_ ?_ tokens items parses
  · exact fun _ => List.cons_ne_nil _ _
  · exact fun _ nonempty => nonempty
  · exact fun _ => List.cons_ne_nil _ _
  · exact fun _ _ nonempty _ => List.append_ne_nil_of_left_ne_nil nonempty _
  · exact fun _ nonempty => nonempty

theorem ParsesRuleList.nonempty {tokens : List Token} {alternatives : List (List Item)}
    (parses : ParsesRuleList tokens alternatives) :
    alternatives ≠ [] ∧ ∀ alternative ∈ alternatives, alternative ≠ [] := by
  induction parses with
  | p_Alternative _ isItems ih =>
      refine ⟨List.append_ne_nil_of_left_ne_nil ih.1 _, ?_⟩
      intro alternative member
      rcases List.mem_append.mp member with before | here
      · exact ih.2 alternative before
      · rw [List.mem_singleton.mp here]
        exact isItems.nonempty
  | p_SingleRuleList isItems =>
      refine ⟨List.cons_ne_nil _ _, ?_⟩
      intro alternative member
      rw [List.mem_singleton.mp member]
      exact isItems.nonempty

theorem ParsesRule.nonempty {tokens : List Token} {rule : Word × List (List Item)}
    (parses : ParsesRule tokens rule) :
    rule.2 ≠ [] ∧ ∀ alternative ∈ rule.2, alternative ≠ [] := by
  cases parses with
  | p_Rule isList => exact isList.nonempty
  | p_Rule_Public isList => exact isList.nonempty

theorem ParsesModel.wellFormed {tokens : List Token} {model : Model}
    (parses : ParsesModel tokens model) : WellFormed model := by
  induction parses with
  | p_Model _ isRule ih =>
      intro rule member
      rcases List.mem_append.mp member with before | here
      · exact ih rule before
      · rw [List.mem_singleton.mp here]
        exact isRule.nonempty
  | p_Rules isRule =>
      intro rule member
      rw [List.mem_singleton.mp member]
      exact isRule.nonempty

theorem ParsesGrammar.wellFormed {tokens : List Token} {model : Model}
    (parses : ParsesGrammar tokens model) : WellFormed model := by
  cases parses with
  | p_Grammar isModel => exact isModel.wellFormed

theorem Model.mem_of_rule? {model : Model} {name : Word} {alternatives : List (List Item)}
    (isRule : model.rule? name = some alternatives) : (name, alternatives) ∈ model := by
  obtain ⟨⟨found, list⟩, isFound, rfl⟩ := Option.map_eq_some_iff.mp isRule
  have same := List.find?_some isFound
  rw [decide_eq_true_eq] at same
  rw [← same]
  exact List.mem_reverse.mp (List.mem_of_find?_eq_some isFound)

theorem Model.rule?_ne_none_iff {model : Model} {name : Word} :
    model.rule? name ≠ none ↔ name ∈ model.map Prod.fst := by
  rw [Model.rule?, ne_eq, Option.map_eq_none_iff, List.find?_eq_none]
  simp only [List.mem_reverse, decide_eq_true_eq, List.mem_map]
  constructor
  · intro some
    push Not at some
    obtain ⟨rule, member, same⟩ := some
    exact ⟨rule, member, same⟩
  · intro ⟨rule, member, same⟩ none
    exact none rule member same

/-! ### Collecting sentences -/

/-- Before its first item an alternative stands for the empty sentence. -/
def whole (p : List (List Word)) : List (List Word) := if p = [] then [[]] else p

theorem whole_of_ne_nil {p : List (List Word)} (nonempty : p ≠ []) : whole p = p := if_neg nonempty

theorem addItem_word (getSentences : Word → Except Error (List (List Word))) (p : List (List Word))
    (text : Word) :
    addItem getSentences p (.word text) = pure ((whole p).map (fun l => l ++ [text])) := by
  cases p with
  | nil => rfl
  | cons first rest => rfl

theorem addItem_itemName {getSentences : Word → Except Error (List (List Word))}
    (p : List (List Word)) {rule : Word} {subsentences : List (List Word)}
    (ran : getSentences rule = .ok subsentences) :
    addItem getSentences p (.itemName rule) =
      .ok ((whole p).flatMap (fun l => subsentences.map (fun s => l ++ s))) := by
  rw [addItem, ran]
  cases p with
  | nil =>
      show Except.ok subsentences = _
      rw [whole, if_pos rfl, List.flatMap_singleton]
      simp only [List.nil_append, List.map_id']
  | cons first rest => rfl

section

variable {model : Model} {getSentences : Word → Except Error (List (List Word))}
  (sound : ∀ rule res, getSentences rule = .ok res →
    res ≠ [] ∧ Enumerates (Derives model rule) res)

include sound

theorem addItem_enumerates {items : List Item} {item : Item} {p after : List (List Word)}
    (listed : Enumerates (Spells model items) (whole p))
    (ran : addItem getSentences p item = .ok after) :
    after ≠ [] ∧ Enumerates (Spells model (items ++ [item])) after := by
  have filled : whole p ≠ [] := by
    rw [whole]
    split
    · exact List.cons_ne_nil _ _
    · assumption
  cases item with
  | word text =>
      rw [addItem_word] at ran
      cases ran
      refine ⟨fun isNil => filled (List.map_eq_nil_iff.mp isNil), ?_⟩
      refine (listed.map Function.injective_id (fun l => l ++ [text])).congr ?_
      intro parts sentence
      constructor
      · rintro ⟨_, first, rfl, rfl, spells⟩
        have isWord : Spells model [.word text] [] [text] := spells_word_iff.mpr ⟨rfl, rfl⟩
        have longer := spells.append isWord
        rw [List.append_nil] at longer
        exact longer
      · intro spells
        obtain ⟨front, back, first, rest, rfl, rfl, isFront, isBack⟩ := spells_append_iff.mp spells
        obtain ⟨rfl, rfl⟩ := spells_word_iff.mp isBack
        exact ⟨front, first, List.append_nil _, rfl, isFront⟩
  | itemName rule =>
      cases called : getSentences rule with
      | error error =>
          rw [addItem, called] at ran
          cases ran
      | ok subsentences =>
          rw [addItem_itemName p called] at ran
          cases ran
          obtain ⟨nonempty, listedRule⟩ := sound rule subsentences called
          refine ⟨?_, ?_⟩
          · obtain ⟨first, isFirst⟩ := List.exists_mem_of_ne_nil _ filled
            obtain ⟨second, isSecond⟩ := List.exists_mem_of_ne_nil _ nonempty
            exact List.ne_nil_of_mem (List.mem_flatMap.mpr
              ⟨first, isFirst, List.mem_map_of_mem isSecond⟩)
          · have injective : Function.Injective2
                (fun (parts : List Derivation) part => parts ++ [part]) := by
              intro front other part another same
              obtain ⟨sameFront, samePart⟩ := List.append_inj' same rfl
              exact ⟨sameFront, List.singleton_injective samePart⟩
            refine (listed.product listedRule injective (fun l s => l ++ s)).congr ?_
            intro parts sentence
            constructor
            · rintro ⟨front, first, part, rest, rfl, rfl, isFront, derives⟩
              exact isFront.append (spells_itemName_iff.mpr ⟨part, rfl, derives⟩)
            · intro spells
              obtain ⟨front, back, first, rest, rfl, rfl, isFront, isBack⟩ :=
                spells_append_iff.mp spells
              obtain ⟨part, rfl, derives⟩ := spells_itemName_iff.mp isBack
              exact ⟨front, first, part, rest, rfl, rfl, isFront, derives⟩

theorem foldlM_addItem_enumerates {items : List Item} {p : List (List Word)}
    (ran : items.foldlM (addItem getSentences) [] = .ok p) :
    (items ≠ [] → p ≠ []) ∧ Enumerates (Spells model items) (whole p) := by
  induction items using List.reverseRecOn generalizing p with
  | nil =>
      cases ran
      refine ⟨fun impossible => absurd rfl impossible, [[]], List.nodup_singleton _,
        List.Forall₂.cons Spells.nil List.Forall₂.nil, ?_⟩
      intro parts sentence spells
      cases spells
      exact List.mem_singleton.mpr rfl
  | append_singleton items item ih =>
      rw [List.foldlM_append] at ran
      cases before : items.foldlM (addItem getSentences) [] with
      | error error =>
          rw [before] at ran
          cases ran
      | ok earlier =>
          rw [before] at ran
          change List.foldlM (addItem getSentences) earlier [item] = .ok p at ran
          rw [List.foldlM_cons] at ran
          cases added : addItem getSentences earlier item with
          | error error =>
              rw [added] at ran
              cases ran
          | ok after =>
              rw [added] at ran
              cases ran
              obtain ⟨filled, listed⟩ := addItem_enumerates sound (ih before).2 added
              rw [whole_of_ne_nil filled]
              exact ⟨fun _ => filled, listed⟩

theorem foldlM_alternatives_enumerates {alternatives : List (List Item)}
    (filled : ∀ alternative ∈ alternatives, alternative ≠ []) {res : List (List Word)}
    (ran : alternatives.foldlM (addAlternative getSentences) [] = .ok res) :
    (alternatives ≠ [] → res ≠ []) ∧
      Enumerates (fun (derivation : Nat × List Derivation) sentence =>
        ∃ alternative, alternatives[derivation.1]? = some alternative ∧
          Spells model alternative derivation.2 sentence) res := by
  induction alternatives using List.reverseRecOn generalizing res with
  | nil =>
      cases ran
      refine ⟨fun impossible => absurd rfl impossible, [], List.nodup_nil, List.Forall₂.nil, ?_⟩
      rintro derivation sentence ⟨alternative, isAlternative, _⟩
      cases isAlternative
  | append_singleton alternatives alternative ih =>
      rw [List.foldlM_append] at ran
      cases before : alternatives.foldlM (addAlternative getSentences) [] with
      | error error =>
          rw [before] at ran
          cases ran
      | ok earlier =>
          rw [before] at ran
          change List.foldlM (addAlternative getSentences) earlier [alternative] = .ok res at ran
          rw [List.foldlM_cons, addAlternative] at ran
          cases collected : alternative.foldlM (addItem getSentences) [] with
          | error error =>
              rw [collected] at ran
              cases ran
          | ok p =>
              rw [collected] at ran
              cases ran
              obtain ⟨_, listedEarlier⟩ :=
                ih (fun other member => filled other (List.mem_append_left _ member)) before
              obtain ⟨isFilled, listed⟩ := foldlM_addItem_enumerates sound collected
              have nonempty := isFilled
                (filled alternative (List.mem_append_right _ List.mem_cons_self))
              rw [whole_of_ne_nil nonempty] at listed
              refine ⟨fun _ => List.append_ne_nil_of_right_ne_nil _ nonempty, ?_⟩
              have injective : Function.Injective
                  (fun parts : List Derivation => (alternatives.length, parts)) :=
                fun _ _ same => (Prod.mk.inj same).2
              have listedHere := listed.map injective id
              rw [List.map_id] at listedHere
              refine (listedEarlier.append listedHere ?_).congr ?_
              · rintro ⟨choice, parts⟩ sentence another ⟨other, isOther, _⟩ ⟨_, _, same, _⟩
                have inside := (List.getElem?_eq_some_iff.mp isOther).1
                have isLast : choice = alternatives.length := (Prod.mk.inj same).1
                simp only at inside
                omega
              · rintro ⟨choice, parts⟩ sentence
                constructor
                · rintro (⟨other, isOther, spells⟩ | ⟨_, _, same, rfl, spells⟩)
                  · refine ⟨other, ?_, spells⟩
                    rw [List.getElem?_append_left (List.getElem?_eq_some_iff.mp isOther).1]
                    exact isOther
                  · obtain ⟨rfl, rfl⟩ := Prod.mk.inj same
                    exact ⟨alternative, List.getElem?_concat_length, spells⟩
                · rintro ⟨other, isOther, spells⟩
                  simp only at isOther spells
                  rcases Nat.lt_or_ge choice alternatives.length with inside | outside
                  · rw [List.getElem?_append_left inside] at isOther
                    exact Or.inl ⟨other, isOther, spells⟩
                  · have bound := (List.getElem?_eq_some_iff.mp isOther).1
                    rw [List.length_append, List.length_singleton] at bound
                    obtain rfl : choice = alternatives.length := by omega
                    rw [List.getElem?_concat_length] at isOther
                    obtain rfl := Option.some.inj isOther
                    exact Or.inr ⟨parts, sentence, rfl, rfl, spells⟩

end

theorem getSentences_sound {model : Model} (wellFormed : WellFormed model) (depth : Nat)
    {start : Word} {res : List (List Word)} (ran : getSentences model depth start = .ok res) :
    res ≠ [] ∧ Enumerates (Derives model start) res := by
  induction depth generalizing start res with
  | zero => cases ran
  | succ depth ih =>
      rw [getSentences] at ran
      cases isRule : model.rule? start with
      | none =>
          rw [isRule] at ran
          cases ran
      | some alternatives =>
          rw [isRule] at ran
          obtain ⟨nonempty, filled⟩ := wellFormed _ (Model.mem_of_rule? isRule)
          obtain ⟨isFilled, listed⟩ := foldlM_alternatives_enumerates
            (fun rule res called => ih called) filled ran
          refine ⟨isFilled nonempty, ?_⟩
          have injective : Function.Injective
              (fun derivation : Nat × List Derivation =>
                Derivation.rule derivation.1 derivation.2) := by
            intro first second same
            injection same with sameChoice sameParts
            exact Prod.ext sameChoice sameParts
          have listedRule := listed.map injective id
          rw [List.map_id] at listedRule
          refine listedRule.congr ?_
          rintro ⟨choice, parts⟩ sentence
          rw [derives_iff]
          constructor
          · rintro ⟨⟨_, _⟩, _, same, rfl, alternative, isAlternative, spells⟩
            injection same with sameChoice sameParts
            subst sameChoice
            subst sameParts
            exact ⟨alternatives, alternative, isRule, isAlternative, spells⟩
          · rintro ⟨others, alternative, isOther, isAlternative, spells⟩
            obtain rfl := Option.some.inj (isRule.symm.trans isOther)
            exact ⟨(choice, parts), sentence, rfl, rfl, alternative, isAlternative, spells⟩

/-- What a parsed grammar writes down for a rule are the sentences of its derivations, one for
each. -/
theorem getSentences_enumerates {tokens : List Token} {model : Model}
    (parses : ParsesGrammar tokens model) {depth : Nat} {start : Word} {res : List (List Word)}
    (ran : getSentences model depth start = .ok res) :
    Enumerates (Derives model start) res ∧
      ∀ sentence, sentence ∈ res ↔ ∃ tree, Derives model start tree sentence := by
  have listed := (getSentences_sound parses.wellFormed depth ran).2
  exact ⟨listed, fun sentence => listed.mem_iff (fun tree value other => Derives.unique)⟩

theorem getSentences_enumerates_two :
    Enumerates
        (Derives [(['a'], [[.word ['x']], [.itemName ['b'], .word ['y']]]), (['b'], [[.word ['z']]])]
          ['a'])
        [[['x']], [['z'], ['y']]] ∧
      ∀ sentence, sentence ∈ [[['x']], [['z'], ['y']]] ↔
        ∃ tree, Derives
          [(['a'], [[.word ['x']], [.itemName ['b'], .word ['y']]]), (['b'], [[.word ['z']]])]
          ['a'] tree sentence := by
  have single := fun text : Word => ParsesItemList.p_SingleItemList (ParsesItem.p_Word text)
  have named := ParsesItemList.p_SingleItemList (ParsesItem.p_Itemname ['b'])
  have grouped := ParsesItemList.p_SingleItemList
    (ParsesItem.p_Wlist (ParsesItemList.p_ItemList named (ParsesItem.p_Word ['y'])))
  have alternatives := ParsesRuleList.p_Alternative
    (ParsesRuleList.p_SingleRuleList (single ['x'])) grouped
  have first := @ParsesRule.p_Rule_Public ['p'] ['a'] _ _ alternatives
  have second := @ParsesRule.p_Rule ['b'] _ _ (ParsesRuleList.p_SingleRuleList (single ['z']))
  have parses := @ParsesGrammar.p_Grammar ['g'] ['v'] _ _
    (ParsesModel.p_Model (ParsesModel.p_Rules first) second)
  have ran := @getSentences_enumerates _ _ parses 2 ['a'] [[['x']], [['z'], ['y']]] rfl
  exact ran

/-! ### Rules that return -/

def Uses (model : Model) (start next : Word) : Prop :=
  ∃ alternatives, model.rule? start = some alternatives ∧
    ∃ alternative ∈ alternatives, .itemName next ∈ alternative

/-- A rule is written down. -/
def Returns (model : Model) (depth : Nat) (start : Word) : Prop :=
  ∃ res, getSentences model depth start = .ok res

theorem foldlM_ok_iff {α β : Type} {step : β → α → Except Error β} {needs : α → Prop}
    (isStep : ∀ before item, (∃ after, step before item = .ok after) ↔ needs item) (items : List α)
    (start : β) : (∃ after, items.foldlM step start = .ok after) ↔ ∀ item ∈ items, needs item := by
  induction items generalizing start with
  | nil => exact iff_of_true ⟨start, rfl⟩ (fun item member => by cases member)
  | cons item items ih =>
      rw [List.foldlM_cons, List.forall_mem_cons, ← isStep start item]
      cases ran : step start item with
      | error error =>
          refine iff_of_false ?_ (fun both => ?_)
          · rintro ⟨after, impossible⟩
            cases impossible
          · obtain ⟨⟨after, impossible⟩, _⟩ := both
            cases impossible
      | ok next =>
          refine (ih next).trans ⟨fun later => ⟨⟨next, rfl⟩, later⟩, fun both => both.2⟩

theorem returns_succ_iff {model : Model} {depth : Nat} {start : Word} :
    Returns model (depth + 1) start ↔
      model.rule? start ≠ none ∧ ∀ next, Uses model start next → Returns model depth next := by
  rw [Returns, getSentences]
  cases isRule : model.rule? start with
  | none =>
      refine iff_of_false ?_ (fun both => both.1 rfl)
      rintro ⟨res, impossible⟩
      cases impossible
  | some alternatives =>
      have isItem : ∀ (p : List (List Word)) item,
          (∃ after, addItem (getSentences model depth) p item = .ok after) ↔
            ∀ next, item = .itemName next → Returns model depth next := by
        intro p item
        cases item with
        | word text =>
            rw [addItem_word]
            exact iff_of_true ⟨_, rfl⟩ (fun next impossible => by cases impossible)
        | itemName rule =>
            cases called : getSentences model depth rule with
            | error error =>
                rw [addItem, called]
                refine iff_of_false ?_ (fun all => ?_)
                · rintro ⟨after, impossible⟩
                  cases impossible
                · obtain ⟨res, impossible⟩ := all rule rfl
                  rw [called] at impossible
                  cases impossible
            | ok subsentences =>
                rw [addItem_itemName p called]
                refine iff_of_true ⟨_, rfl⟩ ?_
                intro next same
                cases same
                exact ⟨subsentences, called⟩
      have isAlternative : ∀ (res : List (List Word)) (alternative : List Item),
          (∃ after, addAlternative (getSentences model depth) res alternative = .ok after) ↔
            ∀ item ∈ alternative, ∀ next, item = .itemName next →
              Returns model depth next := by
        intro res alternative
        rw [← foldlM_ok_iff isItem alternative [], addAlternative]
        cases alternative.foldlM (addItem (getSentences model depth)) [] with
        | error error =>
            refine iff_of_false ?_ ?_
            · rintro ⟨after, impossible⟩
              cases impossible
            · rintro ⟨after, impossible⟩
              cases impossible
        | ok p => exact iff_of_true ⟨_, rfl⟩ ⟨_, rfl⟩
      refine (foldlM_ok_iff isAlternative alternatives []).trans ?_
      constructor
      · intro all
        refine ⟨Option.some_ne_none _, ?_⟩
        rintro next ⟨others, isOther, alternative, member, inside⟩
        obtain rfl := Option.some.inj (isRule.symm.trans isOther)
        exact all alternative member _ inside next rfl
      · rintro ⟨_, all⟩ alternative member item inside next rfl
        exact all next ⟨alternatives, isRule, alternative, member, inside⟩

/-- A rule is written down, with calls as deep as there are rules, exactly when everything that it
reaches is defined and nothing there uses itself; at no depth is any other rule. -/
theorem getSentences_returns_iff (model : Model) (start : Word) :
    ((∃ depth, Returns model depth start) ↔
      (∀ name, Relation.ReflTransGen (Uses model) start name → model.rule? name ≠ none) ∧
        Acyclic (Uses model) start) ∧
    ∀ depth, model.length ≤ depth →
      (∀ name, Relation.ReflTransGen (Uses model) start name → model.rule? name ≠ none) →
      Acyclic (Uses model) start → Returns model depth start := by
  have falls : ∀ depth start next, Returns model (depth + 1) start → Uses model start next →
      Returns model depth next :=
    fun depth start next returns used => (returns_succ_iff.mp returns).2 next used
  have fails : ∀ start, ¬Returns model 0 start := by
    rintro start ⟨res, impossible⟩
    cases impossible
  have isDefined : ∀ (depth : Nat) start, Returns model depth start → model.rule? start ≠ none := by
    intro depth start returns
    cases depth with
    | zero => exact absurd returns (fails start)
    | succ depth => exact (returns_succ_iff.mp returns).1
  have enough : ∀ depth, model.length ≤ depth →
      (∀ name, Relation.ReflTransGen (Uses model) start name → model.rule? name ≠ none) →
      Acyclic (Uses model) start → Returns model depth start := by
    intro depth deep defined acyclic
    have inside : ∀ name, Relation.ReflTransGen (Uses model) start name →
        name ∈ (model.map Prod.fst).toFinset := fun name reached =>
      List.mem_toFinset.mpr (Model.rule?_ne_none_iff.mp (defined name reached))
    have step : ∀ limit point, point ∈ (model.map Prod.fst).toFinset →
        (∀ next, Uses model point next → Returns model limit next) →
          Returns model (limit + 1) point :=
      fun limit point isKnown all => returns_succ_iff.mpr
        ⟨Model.rule?_ne_none_iff.mpr (List.mem_toFinset.mp isKnown), all⟩
    refine works_of_acyclic step inside acyclic ?_
    have atMost : (reachable (Uses model) (model.map Prod.fst).toFinset start).card ≤
        (model.map Prod.fst).toFinset.card :=
      Finset.card_le_card (fun name member => (mem_reachable.mp member).1)
    have isShort := List.toFinset_card_le (model.map Prod.fst)
    rw [List.length_map] at isShort
    omega
  refine ⟨⟨?_, ?_⟩, enough⟩
  · rintro ⟨depth, returns⟩
    refine ⟨?_, acyclic_of_works falls fails returns⟩
    intro name reached
    rcases Relation.reflTransGen_iff_eq_or_transGen.mp reached with rfl | later
    · exact isDefined depth name returns
    · obtain ⟨less, _, returnsThere⟩ := works_of_transGen falls fails returns later
      exact isDefined less name returnsThere
  · rintro ⟨defined, acyclic⟩
    exact ⟨model.length, enough model.length (Nat.le_refl _) defined acyclic⟩

end Jsgf
