/-
The grammar of written numbers covers the number speller.

The rules of the grammar follow the groups of the speller, so that each way to put words
together has a branch of its own.  The branches are checked once against the rules that
were read; everything else is about languages of words.
-/

import DataSelection.Bnf.Convert
import DataSelection.Numbers.Agreement

namespace Bnf

open Library
open WittenBell (Word strip join join_singleton join_append)
open Numbers (english upper spellHundreds spellTens spellScale spellGroup spellValue
  spellValue_of_le thousand_pow_pos div_lt_thousand groupWords groupsOf_le_iff lt_pow_groupsOf
  allDigits_toDigits numToText numToText_digits str)

def characters (text : String) : Text :=
  text.toUTF8.data.toList.map Char.ofUInt8

def num_bnf : List Text :=
  ["<single_digit> ::= ONE|TWO|THREE|FOUR|FIVE|SIX|SEVEN|EIGHT|NINE\n",
    "<teens>        ::= TEN|ELEVEN|TWELVE|THIRTEEN|FOURTEEN|FIFTEEN|SIXTEEN|SEVENTEEN|EIGHTEEN" ++
      "|NINETEEN\n",
    "<tens>         ::= TWENTY|THIRTY|FORTY|FIFTY|SIXTY|SEVENTY|EIGHTY|NINETY\n",
    "<lt_hundred>   ::= <single_digit>|<teens>|<tens>|(<tens>) (<single_digit>)\n",
    "<hundreds>     ::= (<single_digit>|A) HUNDRED( (AND )?(<lt_hundred>))?\n",
    "<lt_thousand>  ::= <hundreds>|<lt_hundred>\n",
    "<thousands>    ::= (<lt_thousand>|A) THOUSAND( (AND )?(<lt_thousand>))?\n",
    "<lt_million>   ::= <lt_thousand>|<thousands>\n",
    "<millions>     ::= (<lt_thousand>|A) MILLION( (AND )?(<lt_million>))?\n",
    "<lt_million>|<millions>|((<single_digit>|(<tens>) (<single_digit>)|<teens>) " ++
      "(HUNDRED|(<tens>) (<single_digit>)|(OH (<single_digit>))|<tens>|<teens>))\n"].map characters

def num_rules : List (Name × Text) :=
  num_bnf.dropLast.filterMap (fun line => readRule (strip line))

def num_accepted : Text := strip (num_bnf.getLastD [])

def single_digit : Name := characters "<single_digit>"
def teens : Name := characters "<teens>"
def tens : Name := characters "<tens>"
def lt_hundred : Name := characters "<lt_hundred>"
def hundreds : Name := characters "<hundreds>"
def lt_thousand : Name := characters "<lt_thousand>"
def thousands : Name := characters "<thousands>"
def lt_million : Name := characters "<lt_million>"
def millions : Name := characters "<millions>"

/-- The accepted expression is read like a rule without a name. -/
def number : Name := []

/-! ### Branches of a rule -/

/-- Whether the body of a rule matches a form as it stands, with names for the rules
before it. -/
def derives : List Definition → Name → List Atom → Bool
  | [], _, _ => false
  | definition :: earlier, name, form =>
      if ∀ symbol ∈ form, symbol ≠ .inr definition.name then
        if name = definition.name then definition.frame.close.rmatch form
        else derives earlier name form
      else false

theorem denoteForm_earlier {definition : Definition} {definitions : List Definition}
    {form : List Atom} (absent : ∀ symbol ∈ form, symbol ≠ .inr definition.name) :
    denoteForm (meaning (languageOf (definition :: definitions))) form =
      denoteForm (meaning (languageOf definitions)) form := by
  unfold denoteForm
  congr 1
  apply List.map_congr_left
  intro symbol member
  cases symbol with
  | inl set => rfl
  | inr name =>
      apply languageOf_earlier
      rintro rfl
      exact absent _ member rfl

theorem denoteForm_le_languageOf {definitions : List Definition} {name : Name} {form : List Atom}
    (derived : derives definitions name form = true) :
    denoteForm (meaning (languageOf definitions)) form ≤ languageOf definitions name := by
  induction definitions with
  | nil => cases derived
  | cons definition earlier ih =>
      rw [derives] at derived
      by_cases absent : ∀ symbol ∈ form, symbol ≠ .inr definition.name
      · rw [if_pos absent] at derived
        rw [denoteForm_earlier absent]
        by_cases same : name = definition.name
        · rw [if_pos same] at derived
          rw [languageOf, if_pos same]
          exact denoteForm_le_denote ((RegularExpression.rmatch_iff_matches' _ _).mp derived)
        · rw [if_neg same] at derived
          rw [languageOf_earlier same]
          exact ih derived
      · rw [if_neg absent] at derived
        cases derived

/-- A text as a form. -/
def written (text : Text) : List Atom := text.map (fun char => .inl (.one char))

def named (name : Name) : List Atom := [.inr name]

theorem mem_written (rule : Name → Language Char) (text : Text) :
    text ∈ denoteForm (meaning rule) (written text) := by
  induction text with
  | nil => exact (Language.mem_one []).mpr rfl
  | cons char text ih =>
      have parts : written (char :: text) = [.inl (.one char)] ++ written text := rfl
      rw [parts, denoteForm_append, denoteForm_singleton]
      exact Language.mem_mul.mpr ⟨[char], ⟨char, rfl, decide_eq_true rfl⟩, text, ih, rfl⟩

theorem mem_named {rule : Name → Language Char} {name : Name} {word : List Char}
    (member : word ∈ rule name) : word ∈ denoteForm (meaning rule) (named name) := by
  rw [named, denoteForm_singleton]
  exact member

theorem mem_append {rule : Name → Language Char} {form other : List Atom} {front back : List Char}
    (first : front ∈ denoteForm (meaning rule) form)
    (second : back ∈ denoteForm (meaning rule) other) :
    front ++ back ∈ denoteForm (meaning rule) (form ++ other) := by
  rw [denoteForm_append]
  exact Language.mem_mul.mpr ⟨front, first, back, second, rfl⟩

/-! ### The branches for the speller -/

def thousandWord : Word := "thousand".toList
def millionWord : Word := "million".toList

/-- A number and a word behind it, such as a hundred or a scale. -/
def counted (front : Name) (word : Word) : List Atom := named front ++ written (' ' :: upper word)

/-- The same with a smaller number behind the word. -/
def continued (front : Name) (word : Word) (rest : Name) : List Atom :=
  counted front word ++ (written [' '] ++ named rest)

/-- The ways in which the speller puts a number together from smaller ones. -/
def compounds : List (Name × List Atom) :=
  [(lt_hundred, named single_digit),
    (lt_hundred, named teens),
    (lt_hundred, named tens),
    (lt_hundred, named tens ++ (written [' '] ++ named single_digit)),
    (hundreds, counted single_digit english.hundred),
    (hundreds, continued single_digit english.hundred lt_hundred),
    (lt_thousand, named hundreds),
    (lt_thousand, named lt_hundred),
    (thousands, counted lt_thousand thousandWord),
    (thousands, continued lt_thousand thousandWord lt_thousand),
    (lt_million, named lt_thousand),
    (lt_million, named thousands),
    (millions, counted lt_thousand millionWord),
    (millions, continued lt_thousand millionWord lt_million),
    (number, named lt_million),
    (number, named millions)]

/-- The rules have a branch for everything that the speller does. -/
structure Covers (definitions : List Definition) : Prop where
  unit : ∀ u : Fin 10, u ≠ 0 →
    derives definitions single_digit (written (upper (english.units u))) = true
  teen : ∀ u : Fin 10, u ≠ 0 → derives definitions teens (written (upper (english.teens u))) = true
  ten : derives definitions teens (written (upper (english.tens 1))) = true
  decade : ∀ t : Fin 10, t.val > 1 →
    derives definitions tens (written (upper (english.tens t))) = true
  compound : ∀ branch ∈ compounds, derives definitions branch.1 branch.2 = true

instance decidableCovers (definitions : List Definition) : Decidable (Covers definitions) :=
  decidable_of_iff
    ((∀ u : Fin 10, u ≠ 0 →
        derives definitions single_digit (written (upper (english.units u))) = true) ∧
      (∀ u : Fin 10, u ≠ 0 → derives definitions teens (written (upper (english.teens u))) = true) ∧
      derives definitions teens (written (upper (english.tens 1))) = true ∧
      (∀ t : Fin 10, t.val > 1 →
        derives definitions tens (written (upper (english.tens t))) = true) ∧
      ∀ branch ∈ compounds, derives definitions branch.1 branch.2 = true)
    ⟨fun all => ⟨all.1, all.2.1, all.2.2.1, all.2.2.2.1, all.2.2.2.2⟩,
      fun covers => ⟨covers.unit, covers.teen, covers.ten, covers.decade, covers.compound⟩⟩

theorem num_bnf_checked :
    (num_bnf = num_bnf.dropLast ++ [num_bnf.getLastD []] ∧
      List.Forall₂ (fun line rule => find (strip line) assignment_operator > -1 ∧
        readRule (strip line) = some rule) num_bnf.dropLast num_rules ∧
      ¬ find num_accepted assignment_operator > -1 ∧
      PrefixFree (num_rules.map Prod.fst) ∧
      num_rules.all (fun rule => rule.1.all (fun char =>
        !(['.', '^', '$', '*', '+', '?', '{', '}', '[', ']', '\\', '|', '(', ')'].contains
          char))) = true) ∧
    (readGrammar num_rules num_accepted).any (fun grammar =>
      decide (grammar.Safe ∧ Covers (grammar.accepted :: grammar.definitions))) = true := by
  decide +kernel

theorem num_bnf_documented : Documented num_bnf num_rules num_accepted := by
  rcases num_bnf_checked.1 with ⟨parts, lines, notRule, prefixFree, literal⟩
  exact ⟨⟨_, _, parts, lines, notRule, rfl⟩, prefixFree, literal_of_all literal⟩

/-! ### One group -/

section

variable {definitions : List Definition}

theorem Covers.mem (covers : Covers definitions) {name : Name} {form : List Atom} {word : List Char}
    (listed : (name, form) ∈ compounds)
    (built : word ∈ denoteForm (meaning (languageOf definitions)) form) :
    word ∈ languageOf definitions name :=
  denoteForm_le_languageOf (covers.compound (name, form) listed) built

theorem Covers.mem_counted (covers : Covers definitions) {name front : Name} {word : Word}
    {first : List Char} (listed : (name, counted front word) ∈ compounds)
    (member : first ∈ languageOf definitions front) :
    first ++ ' ' :: upper word ∈ languageOf definitions name :=
  covers.mem listed (mem_append (mem_named member) (mem_written _ _))

theorem Covers.mem_continued (covers : Covers definitions) {name front rest : Name} {word : Word}
    {first second : List Char} (listed : (name, continued front word rest) ∈ compounds)
    (member : first ∈ languageOf definitions front)
    (later : second ∈ languageOf definitions rest) :
    first ++ ' ' :: upper word ++ ' ' :: second ∈ languageOf definitions name :=
  covers.mem listed (mem_append (mem_append (mem_named member) (mem_written _ _))
    (mem_append (mem_written _ [' ']) (mem_named later)))

theorem mem_of_derives_written {name : Name} {text : Text}
    (derived : derives definitions name (written text) = true) :
    text ∈ languageOf definitions name :=
  denoteForm_le_languageOf derived (mem_written _ text)

theorem capitals_singleton (word : Word) : upper (join [word]) = upper word := by
  rw [join_singleton]

theorem capitals_append {front back : List Word} (filledFront : front ≠ [])
    (filledBack : back ≠ []) :
    upper (join (front ++ back)) = upper (join front) ++ ' ' :: upper (join back) := by
  rw [join_append filledFront filledBack, upper, List.map_append]
  rfl

theorem capitals_cons (word : Word) {rest : List Word} (filled : rest ≠ []) :
    upper (join (word :: rest)) = upper word ++ ' ' :: upper (join rest) := by
  rw [← capitals_singleton word, ← capitals_append (List.cons_ne_nil word []) filled]
  rfl

theorem spellTens_ne_nil {t u : Fin 10} (spoken : 0 < 10 * t.val + u.val) :
    spellTens english t u ≠ [] := by
  unfold spellTens
  split_ifs
  all_goals first | exact List.cons_ne_nil _ _ | omega

theorem Covers.mem_lt_hundred (covers : Covers definitions) {t u : Fin 10}
    (spoken : 0 < 10 * t.val + u.val) :
    upper (join (spellTens english t u)) ∈ languageOf definitions lt_hundred := by
  have unit : u.val ≥ 1 → upper (english.units u) ∈ languageOf definitions single_digit :=
    fun positive => mem_of_derives_written (covers.unit u (by omega))
  unfold spellTens
  by_cases many : t.val > 1
  · have decade := mem_of_derives_written (covers.decade t many)
    rw [if_pos many]
    by_cases positive : u.val ≥ 1
    · rw [if_pos positive, capitals_cons _ (List.cons_ne_nil _ _), capitals_singleton]
      have both : (lt_hundred, named tens ++ (written [' '] ++ named single_digit)) ∈ compounds := by
        simp [compounds]
      exact covers.mem both (mem_append (mem_named decade)
        (mem_append (mem_written _ [' ']) (mem_named (unit positive))))
    · rw [if_neg positive, capitals_singleton]
      exact covers.mem (by simp [compounds]) (mem_named decade)
  · rw [if_neg many]
    by_cases one : t.val = 1
    · rw [if_pos one]
      by_cases positive : u.val ≥ 1
      · have teen := mem_of_derives_written (covers.teen u (by omega))
        rw [if_pos positive, capitals_singleton]
        exact covers.mem (by simp [compounds]) (mem_named teen)
      · have ten := mem_of_derives_written covers.ten
        have same : t = 1 := Fin.ext one
        rw [if_neg positive, capitals_singleton, same]
        exact covers.mem (by simp [compounds]) (mem_named ten)
    · have positive : u.val ≥ 1 := by omega
      rw [if_neg one, if_pos positive, capitals_singleton]
      exact covers.mem (by simp [compounds]) (mem_named (unit positive))

theorem Covers.mem_hundreds (covers : Covers definitions) {h : Fin 10} (t u : Fin 10)
    (hundred : h.val ≥ 1) :
    upper (join (spellHundreds english h ++ spellTens english t u)) ∈
      languageOf definitions hundreds := by
  have digit := mem_of_derives_written (covers.unit h (by omega))
  have front : upper (join (spellHundreds english h)) =
      upper (english.units h) ++ ' ' :: upper english.hundred := by
    rw [spellHundreds, if_pos hundred, capitals_cons _ (List.cons_ne_nil _ _), capitals_singleton]
  by_cases spoken : 0 < 10 * t.val + u.val
  · have filled : spellHundreds english h ≠ [] := by
      rw [spellHundreds, if_pos hundred]
      exact List.cons_ne_nil _ _
    rw [capitals_append filled (spellTens_ne_nil spoken), front]
    exact covers.mem_continued (by simp [compounds]) digit (covers.mem_lt_hundred spoken)
  · have noTen : t = 0 := by omega
    have noUnit : u = 0 := by omega
    have silent : spellTens english t u = [] := by
      rw [noTen, noUnit]
      rfl
    rw [silent, List.append_nil, front]
    exact covers.mem_counted (by simp [compounds]) digit

theorem groupWords_below_hundred {m : Nat} (positive : 0 < m) (small : m < 100) :
    groupWords english m = spellTens english (Fin.ofNat 10 (m / 10)) (Fin.ofNat 10 m) ∧
      0 < 10 * (Fin.ofNat 10 (m / 10)).val + (Fin.ofNat 10 m).val := by
  have noHundred : ¬ (Fin.ofNat 10 (m / 100)).val ≥ 1 := by
    simp only [Fin.ofNat]
    omega
  constructor
  · rw [groupWords, spellHundreds, if_neg noHundred, List.nil_append]
  · simp only [Fin.ofNat]
    omega

theorem hundreds_digit {m : Nat} (large : 100 ≤ m) (bound : m < 1000) :
    (Fin.ofNat 10 (m / 100)).val ≥ 1 := by
  simp only [Fin.ofNat]
  omega

theorem groupWords_ne_nil {m : Nat} (positive : 0 < m) (bound : m < 1000) :
    groupWords english m ≠ [] := by
  by_cases small : m < 100
  · have below := groupWords_below_hundred positive small
    rw [below.1]
    exact spellTens_ne_nil below.2
  · rw [groupWords, spellHundreds, if_pos (hundreds_digit (Nat.le_of_not_lt small) bound)]
    exact List.cons_ne_nil _ _

theorem Covers.mem_lt_thousand (covers : Covers definitions) {m : Nat} (positive : 0 < m)
    (bound : m < 1000) :
    upper (join (groupWords english m)) ∈ languageOf definitions lt_thousand := by
  by_cases small : m < 100
  · have below := groupWords_below_hundred positive small
    have member := covers.mem_lt_hundred below.2
    rw [← below.1] at member
    exact covers.mem (by simp [compounds]) (mem_named member)
  · have member := covers.mem_hundreds (Fin.ofNat 10 (m / 10)) (Fin.ofNat 10 m)
      (hundreds_digit (Nat.le_of_not_lt small) bound)
    exact covers.mem (by simp [compounds]) (mem_named member)

end

/-! ### All groups -/

/-- The speller writes a word of the language for the number, in the given groups. -/
def Spells (language : Language Char) (g n : Nat) : Prop :=
  ∃ words, spellValue english g n = some words ∧ words ≠ [] ∧ upper (join words) ∈ language

theorem Spells.mono {language larger : Language Char} {g n : Nat} (spells : Spells language g n)
    (contained : ∀ word ∈ language, word ∈ larger) : Spells larger g n := by
  rcases spells with ⟨words, ran, filled, member⟩
  exact ⟨words, ran, filled, contained _ member⟩

theorem Spells.of_le {language : Language Char} {g k n : Nat} (spells : Spells language g n)
    (small : n < 1000 ^ g) (fewer : g ≤ k) : Spells language k n := by
  rcases spells with ⟨words, ran, filled, member⟩
  exact ⟨words, (Numbers.spellValue_of_le english small fewer).trans ran, filled, member⟩

theorem spellGroup_scaled {g m : Nat} {word : Word} (scaled : 0 < g)
    (scale : english.scale g = some [word]) (positive : 0 < m) (bound : m < 1000) :
    spellGroup english g (Fin.ofNat 10 (m / 100)) (Fin.ofNat 10 (m / 10)) (Fin.ofNat 10 m) =
      some (groupWords english m ++ [word]) := by
  have spoken : g ≥ 1 ∧ (Fin.ofNat 10 (m / 100)).val + (Fin.ofNat 10 (m / 10)).val +
      (Fin.ofNat 10 m).val > 0 := by
    simp only [Fin.ofNat]
    omega
  unfold spellGroup spellScale
  rw [if_pos spoken, scale]
  rfl

section

variable {definitions : List Definition}

/-- One more group, when a rule has both branches for its scale word. -/
theorem Covers.spells_scaled (covers : Covers definitions) {name rest : Name} {g : Nat}
    {word : Word} (scaled : 0 < g) (scale : english.scale g = some [word])
    (alone : (name, counted lt_thousand word) ∈ compounds)
    (both : (name, continued lt_thousand word rest) ∈ compounds)
    (lower : ∀ n, 0 < n → n < 1000 ^ g → Spells (languageOf definitions rest) g n) {n : Nat}
    (large : 1000 ^ g ≤ n) (bound : n < 1000 ^ (g + 1)) :
    Spells (languageOf definitions name) (g + 1) n := by
  have unit := thousand_pow_pos g
  have positive : 0 < n / 1000 ^ g := Nat.div_pos large unit
  have quotient := div_lt_thousand bound
  have here := spellGroup_scaled scaled scale positive quotient
  have filled := groupWords_ne_nil positive quotient
  have first := covers.mem_lt_thousand positive quotient
  have front : upper (join (groupWords english (n / 1000 ^ g) ++ [word])) =
      upper (join (groupWords english (n / 1000 ^ g))) ++ ' ' :: upper word := by
    rw [capitals_append filled (List.cons_ne_nil word []), capitals_singleton]
  by_cases last : n % 1000 ^ g = 0
  · have silent : spellValue english g 0 = some [] :=
      spellValue_of_le english (g := 0) Nat.one_pos (Nat.zero_le g)
    refine ⟨groupWords english (n / 1000 ^ g) ++ [word], ?_, ?_, ?_⟩
    · rw [spellValue, here, last, silent]
      exact congrArg some (List.append_nil _)
    · exact List.append_ne_nil_of_left_ne_nil filled _
    · rw [front]
      exact covers.mem_counted alone first
  · rcases lower (n % 1000 ^ g) (Nat.pos_of_ne_zero last) (Nat.mod_lt n unit) with
      ⟨others, othersRan, othersFilled, second⟩
    refine ⟨groupWords english (n / 1000 ^ g) ++ [word] ++ others, ?_, ?_, ?_⟩
    · rw [spellValue, here, othersRan]
      rfl
    · exact List.append_ne_nil_of_right_ne_nil _ othersFilled
    · rw [capitals_append (List.append_ne_nil_of_left_ne_nil filled _) othersFilled, front]
      exact covers.mem_continued both first second

theorem Covers.spells_lt_thousand (covers : Covers definitions) {n : Nat} (positive : 0 < n)
    (bound : n < 1000) : Spells (languageOf definitions lt_thousand) 1 n := by
  refine ⟨groupWords english n, ?_, groupWords_ne_nil positive bound,
    covers.mem_lt_thousand positive bound⟩
  have whole : n / 1000 ^ 0 = n := by
    rw [Nat.pow_zero, Nat.div_one]
  rw [spellValue, whole]
  simp [spellValue, spellGroup, spellScale, groupWords]

theorem Covers.spells_lt_million (covers : Covers definitions) {n : Nat} (positive : 0 < n)
    (bound : n < 1000 ^ 2) : Spells (languageOf definitions lt_million) 2 n := by
  by_cases small : n < 1000
  · exact ((covers.spells_lt_thousand positive small).of_le small (Nat.le_succ 1)).mono
      (fun _ member => covers.mem (by simp [compounds]) (mem_named member))
  · have scale : english.scale 1 = some [thousandWord] := rfl
    have lower : ∀ n, 0 < n → n < 1000 ^ 1 → Spells (languageOf definitions lt_thousand) 1 n :=
      fun _ filled below => covers.spells_lt_thousand filled below
    have spells : Spells (languageOf definitions thousands) 2 n :=
      covers.spells_scaled Nat.one_pos scale (by simp [compounds]) (by simp [compounds]) lower
        (Nat.le_of_not_lt small) bound
    exact spells.mono (fun _ member => covers.mem (by simp [compounds]) (mem_named member))

theorem Covers.spells_number (covers : Covers definitions) {n : Nat} (positive : 0 < n)
    (bound : n < 1000 ^ 3) : Spells (languageOf definitions number) 3 n := by
  by_cases small : n < 1000 ^ 2
  · exact ((covers.spells_lt_million positive small).of_le small (Nat.le_succ 2)).mono
      (fun _ member => covers.mem (by simp [compounds]) (mem_named member))
  · have scale : english.scale 2 = some [millionWord] := rfl
    have lower : ∀ n, 0 < n → n < 1000 ^ 2 → Spells (languageOf definitions lt_million) 2 n :=
      fun _ filled below => covers.spells_lt_million filled below
    have spells : Spells (languageOf definitions millions) 3 n :=
      covers.spells_scaled Nat.two_pos scale (by simp [compounds]) (by simp [compounds]) lower
        (Nat.le_of_not_lt small) bound
    exact spells.mono (fun _ member => covers.mem (by simp [compounds]) (mem_named member))

end

theorem Grammar.language_eq {rules : List (Name × Text)} {accepted : Text} {grammar : Grammar}
    (read : readGrammar rules accepted = some grammar) :
    grammar.language = languageOf (grammar.accepted :: grammar.definitions) number := by
  unfold readGrammar readDefinition at read
  rcases Option.bind_eq_some_iff.mp read with ⟨definitions, _, rest⟩
  rcases Option.bind_eq_some_iff.mp rest with ⟨last, readLast, result⟩
  rcases Option.bind_eq_some_iff.mp readLast with ⟨tokens, _, framed⟩
  rcases Option.bind_eq_some_iff.mp framed with ⟨frame, _, isLast⟩
  cases result
  cases isLast
  rw [languageOf]
  exact (if_pos rfl).symm

/-- Every number from one to below one billion, as the speller writes it and in capitals,
is matched by the regular expression for the grammar. -/
theorem num_bnf_matches_numToText (n : Nat) (positive : 1 ≤ n) (small : n < 10 ^ 9) :
    ∃ text regex, numToText (str n) = some text ∧ convert num_bnf = some (some regex) ∧
      FullyMatches regex (upper text) := by
  rcases (Option.any_eq_true _ _).mp num_bnf_checked.2 with ⟨grammar, read, checked⟩
  rcases of_decide_eq_true checked with ⟨safe, covers⟩
  rcases convert_written num_bnf_documented read safe with
    ⟨regex, frame, converted, isRegex, language⟩
  have power : (10 : Nat) ^ 9 = 1000 ^ 3 := by decide
  rw [power] at small
  rcases covers.spells_number positive small with ⟨words, ran, _, member⟩
  have value : Nat.ofDigitChars 10 (Nat.toDigits 10 n) 0 = n := Nat.ofDigitChars_ten_toDigits
  have groups := spellValue_of_le english (lt_pow_groupsOf n)
    ((groupsOf_le_iff (by decide)).mpr small)
  have spelled := numToText_digits (allDigits_toDigits n) Nat.toDigits_ne_nil
  rw [value, if_neg (Nat.ne_of_gt positive), ← groups, ran] at spelled
  refine ⟨join words, regex, spelled, converted, ?_⟩
  have accepted := language.trans (Grammar.language_eq read)
  rw [fullyMatches_iff isRegex, accepted]
  exact member

theorem num_bnf_matches_numToText_largest :
    (1 ≤ 999999999 ∧ 999999999 < 10 ^ 9) ∧
      ∃ text regex, numToText (str (999999999 : Nat)) = some text ∧
        convert num_bnf = some (some regex) ∧ FullyMatches regex (upper text) :=
  ⟨by decide, num_bnf_matches_numToText 999999999 (by decide) (by decide)⟩

end Bnf
