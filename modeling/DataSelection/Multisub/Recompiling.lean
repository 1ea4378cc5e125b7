/-
Adding entries and compiling more than once.

Compiling replaces the texts by patterns, and patterns cannot be joined again.  A second
call of `compile` fails unless the dictionary was empty at the first one.
-/

import DataSelection.Multisub.Substitution

namespace Multisub

open Bnf (Text PrefixFree)

inductive Operation
  | add (key value : Text)
  | compile (order : HashOrder)

def add (key value : Text) (self : MultiSub) : MultiSub :=
  { self with entries := setItem self.entries (.text key) value }

def perform (self : MultiSub) : Operation → Except Failure MultiSub
  | .add key value => .ok (add key value self)
  | .compile order => compile order self

def run (self : MultiSub) (operations : List Operation) : Except Failure MultiSub :=
  operations.foldlM perform self

/-- The pairs of a dictionary to which the entries have been added. -/
def dictionaryAfter (dic : List (Text × Text)) : List Operation → List (Text × Text)
  | [] => dic
  | .add key value :: later => dictionaryAfter (setItem dic key value) later
  | .compile _ :: later => dictionaryAfter dic later

/-- After the last call of `compile` the object substitutes like a fresh one. -/
def SubstitutesAfresh (dic : List (Text × Text)) (operations : List Operation)
    (last : HashOrder) : Prop :=
  ∃ self, run (init dic) (operations ++ [.compile last]) = .ok self ∧
    ∀ building, ∃ fresh, compile building (init (dictionaryAfter dic operations)) = .ok fresh ∧
      ∀ lookup freshLookup text, sub lookup self text = sub freshLookup fresh text

/-- Every call of `compile` before the last one meets an empty dictionary. -/
def CompiledEmpty (dic : List (Text × Text)) (operations : List Operation) : Prop :=
  ∀ before order later, operations = before ++ .compile order :: later →
    dictionaryAfter dic before = []

/-! ### Entries -/

theorem setItem_textEntry (dic : List (Text × Text)) (key value : Text) :
    setItem (dic.map textEntry) (.text key) value = (setItem dic key value).map textEntry := by
  unfold setItem
  by_cases present : key ∈ dic.map Prod.fst
  · rw [if_pos present, if_pos (mem_keys_textEntry.mpr present), List.map_map, List.map_map]
    refine List.map_congr_left (fun entry _ => ?_)
    by_cases same : entry.1 = key
    · simp [textEntry, same]
    · simp [textEntry, same]
  · rw [if_neg present, if_neg (fun member => present (mem_keys_textEntry.mp member)),
      List.map_append]
    rfl

theorem add_init (key value : Text) (dic : List (Text × Text)) :
    add key value (init dic) = init (setItem dic key value) :=
  congrArg (fun entries => MultiSub.mk entries none none) (setItem_textEntry dic key value)

theorem keys_setItem {κ : Type} [DecidableEq κ] (entries : List (κ × Text)) (key : κ)
    (value : Text) : entries.map Prod.fst <+: (setItem entries key value).map Prod.fst := by
  unfold setItem
  by_cases present : key ∈ entries.map Prod.fst
  · rw [if_pos present, List.map_map]
    have same : entries.map (Prod.fst ∘ fun entry => if entry.1 = key then (key, value) else entry) =
        entries.map Prod.fst := by
      refine List.map_congr_left (fun entry _ => ?_)
      by_cases same : entry.1 = key
      · simp [same]
      · simp [same]
    rw [same]
  · rw [if_neg present, List.map_append]
    exact List.prefix_append _ _

/-- The keys of a dictionary stay in it. -/
theorem keys_dictionaryAfter (dic : List (Text × Text)) (operations : List Operation) :
    dic.map Prod.fst <+: (dictionaryAfter dic operations).map Prod.fst := by
  induction operations generalizing dic with
  | nil => exact List.prefix_refl _
  | cons operation later ih =>
      cases operation with
      | add key value => exact (keys_setItem dic key value).trans (ih (setItem dic key value))
      | compile order => exact ih dic

theorem Literal.of_dictionaryAfter {dic : List (Text × Text)} {operations : List Operation}
    (literal : Literal (dictionaryAfter dic operations)) : Literal dic := by
  have isPrefix := keys_dictionaryAfter dic operations
  constructor
  · intro entry member
    have inKeys := isPrefix.subset (List.mem_map_of_mem member)
    rcases List.mem_map.mp inKeys with ⟨other, inAll, same⟩
    rw [← same]
    exact literal.literal other inAll
  · exact literal.prefixFree.sublist isPrefix.sublist

/-! ### Runs -/

theorem run_cons (self : MultiSub) (operation : Operation) (later : List Operation) :
    run self (operation :: later) = (perform self operation).bind (fun next => run next later) :=
  List.foldlM_cons

def HasPattern (self : MultiSub) : Prop :=
  ∃ compiled, Key.pattern compiled ∈ self.entries.map Prod.fst

theorem HasPattern.add {self : MultiSub} (compiled : HasPattern self) (key value : Text) :
    HasPattern (add key value self) := by
  rcases compiled with ⟨pattern, member⟩
  exact ⟨pattern, (keys_setItem self.entries (.text key) value).subset member⟩

theorem mapM_keyText_pattern {entries : Entries} {compiled : Pattern}
    (member : Key.pattern compiled ∈ entries.map Prod.fst) :
    entries.mapM (fun entry => keyText entry.1) = .error .typeError := by
  induction entries with
  | nil => cases member
  | cons entry entries ih =>
      rw [List.mapM_cons]
      rcases entry with ⟨key, value⟩
      cases key with
      | pattern other => rfl
      | text key =>
          have later : Key.pattern compiled ∈ entries.map Prod.fst := by
            cases member with
            | tail _ later => exact later
          rw [ih later]
          rfl

theorem HasPattern.compile {self : MultiSub} (compiled : HasPattern self) (order : HashOrder) :
    compile order self = .error .typeError := by
  rcases compiled with ⟨pattern, member⟩
  have nonempty : self.entries.length > 0 := by
    rcases List.mem_map.mp member with ⟨entry, inEntries, _⟩
    exact List.length_pos_of_mem inEntries
  have listed : Key.pattern pattern ∈ (order.listed self.entries).map Prod.fst :=
    ((order.perm self.entries).map Prod.fst).mem_iff.mpr member
  unfold Multisub.compile
  rw [if_pos nonempty, mapM_keyText_pattern listed]
  rfl

/-- With a pattern among the keys the next call of `compile` fails. -/
theorem HasPattern.run {self : MultiSub} (compiled : HasPattern self)
    (operations : List Operation) (last : HashOrder) :
    run self (operations ++ [.compile last]) = .error .typeError := by
  induction operations generalizing self with
  | nil =>
      rw [List.nil_append, run_cons, perform, compiled.compile last]
      rfl
  | cons operation later ih =>
      rw [List.cons_append, run_cons]
      cases operation with
      | add key value => exact ih (compiled.add key value)
      | compile order =>
          rw [perform, compiled.compile order]
          rfl

theorem compiledEmpty_nil (dic : List (Text × Text)) : CompiledEmpty dic [] :=
  fun _before _order _later split => absurd split.symm (by simp)

theorem compiledEmpty_add {dic : List (Text × Text)} {key value : Text} {later : List Operation} :
    CompiledEmpty dic (.add key value :: later) ↔
      CompiledEmpty (setItem dic key value) later := by
  constructor
  · intro empty before order rest split
    exact empty (.add key value :: before) order rest (congrArg (Operation.add key value :: ·) split)
  · intro empty before order rest split
    cases before with
    | nil => cases split
    | cons first before =>
        cases (List.cons.inj split).1
        exact empty before order rest (List.cons.inj split).2

theorem compiledEmpty_compile {dic : List (Text × Text)} {order : HashOrder}
    {later : List Operation} :
    CompiledEmpty dic (.compile order :: later) ↔ dic = [] ∧ CompiledEmpty dic later := by
  constructor
  · intro empty
    refine ⟨empty [] order later rfl, fun before other rest split => ?_⟩
    exact empty (.compile order :: before) other rest (congrArg (Operation.compile order :: ·) split)
  · rintro ⟨noEntries, empty⟩ before other rest split
    cases before with
    | nil => exact noEntries
    | cons first before =>
        cases (List.cons.inj split).1
        exact empty before other rest (List.cons.inj split).2

theorem run_init {dic : List (Text × Text)} {operations : List Operation}
    (empty : CompiledEmpty dic operations) (later : List Operation) :
    run (init dic) (operations ++ later) = run (init (dictionaryAfter dic operations)) later := by
  induction operations generalizing dic with
  | nil => rfl
  | cons operation rest ih =>
      rw [List.cons_append, run_cons]
      cases operation with
      | add key value =>
          have next := ih (compiledEmpty_add.mp empty)
          rw [← add_init] at next
          exact next
      | compile order =>
          rcases compiledEmpty_compile.mp empty with ⟨noEntries, restEmpty⟩
          subst noEntries
          exact ih restEmpty

theorem compiledEmpty_of_run {dic : List (Text × Text)} {operations : List Operation}
    (literal : Literal (dictionaryAfter dic operations)) {last : HashOrder} {self : MultiSub}
    (ran : run (init dic) (operations ++ [.compile last]) = .ok self) :
    CompiledEmpty dic operations := by
  induction operations generalizing dic with
  | nil => exact compiledEmpty_nil dic
  | cons operation rest ih =>
      rw [List.cons_append, run_cons] at ran
      cases operation with
      | add key value =>
          have next : run (add key value (init dic)) (rest ++ [.compile last]) = .ok self := ran
          rw [add_init] at next
          exact compiledEmpty_add.mpr (ih literal next)
      | compile order =>
          by_cases noEntries : dic = []
          · subst noEntries
            exact compiledEmpty_compile.mpr ⟨rfl, ih literal ran⟩
          · have literals : Literal dic := Literal.of_dictionaryAfter literal
            rcases compile_init literals noEntries order with ⟨listing, perm, compiled⟩
            rw [perform, compiled] at ran
            cases listing with
            | nil => exact absurd (List.nil_perm.mp perm) noEntries
            | cons entry listing =>
                have stuck : HasPattern
                    { entries := (entry :: listing).map compiledEntry
                      re := some (['|'].intercalate ((entry :: listing).map Prod.fst))
                      regex := some (((entry :: listing).map Prod.fst).map bare) } :=
                  ⟨[anchored entry.1], List.mem_cons_self⟩
                cases (stuck.run rest last).symm.trans ran

/-- Compiling again works exactly when nothing had been compiled before. -/
theorem substitutesAfresh_iff {dic : List (Text × Text)} {operations : List Operation}
    (literal : Literal (dictionaryAfter dic operations)) (last : HashOrder) :
    SubstitutesAfresh dic operations last ↔ CompiledEmpty dic operations := by
  constructor
  · rintro ⟨self, ran, _⟩
    exact compiledEmpty_of_run literal ran
  · intro empty
    rcases sub_compile literal last with ⟨self, compiled, written⟩
    refine ⟨self, ?_, fun building => ?_⟩
    · rw [run_init empty, run_cons, perform, compiled]
      rfl
    · rcases sub_compile literal building with ⟨fresh, freshCompiled, freshWritten⟩
      exact ⟨fresh, freshCompiled, fun lookup freshLookup text =>
        (written lookup text).trans (freshWritten freshLookup text).symm⟩

def insertionOrder : HashOrder :=
  { listed := id
    perm := List.Perm.refl }

theorem swapped_literal : Literal swapped := swapped_simple.toLiteral

theorem substitutesAfresh_iff_swapped :
    SubstitutesAfresh []
      [.compile insertionOrder, .add "cat".toList "dog".toList, .add "dog".toList "cat".toList]
      insertionOrder := by
  have literal : Literal (dictionaryAfter []
      [.compile insertionOrder, .add "cat".toList "dog".toList,
        .add "dog".toList "cat".toList]) :=
    swapped_literal
  exact (substitutesAfresh_iff literal insertionOrder).mpr
    (compiledEmpty_compile.mpr
      ⟨rfl, compiledEmpty_add.mpr (compiledEmpty_add.mpr (compiledEmpty_nil _))⟩)

/-- The same object compiled twice in a row. -/
theorem compiledTwice_fails :
    Literal (dictionaryAfter swapped [.compile insertionOrder]) ∧
      run (init swapped) ([.compile insertionOrder] ++ [.compile insertionOrder]) =
        .error .typeError ∧
      ¬ SubstitutesAfresh swapped [.compile insertionOrder] insertionOrder := by
  have stuck : run (init swapped) ([.compile insertionOrder] ++ [.compile insertionOrder]) =
      .error .typeError := by
    decide +kernel
  refine ⟨swapped_literal, stuck, ?_⟩
  rintro ⟨self, ran, _⟩
  cases stuck.symm.trans ran

end Multisub
