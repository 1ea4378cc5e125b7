/-
What is written for a text when the keys are literal.

The orders in which Python lists the entries decide in which order the alternatives of the
pattern are tried and in which order the value is looked up.  Neither changes the result.
-/

import DataSelection.Library.Loops
import DataSelection.Multisub.Object

namespace Multisub

open Bnf (Text hasGroupReference PrefixFree find?_name startsWith_of_find?)
open Library

/-- The keys contain no metacharacters, and none is a prefix of another one. -/
structure Literal (dic : List (Text × Text)) : Prop where
  literal : ∀ entry ∈ dic, ∀ char ∈ entry.1, isMetacharacter char = false
  prefixFree : PrefixFree (dic.map Prod.fst)

theorem prefixFree_perm {first second : List Text} (perm : first.Perm second)
    (free : PrefixFree second) : PrefixFree first :=
  (perm.pairwise_iff (fun both => ⟨both.2, both.1⟩)).mpr free

theorem prefixFree_nodup {keys : List Text} (free : PrefixFree keys) : keys.Nodup :=
  free.imp (fun both same => by
    subst same
    exact both.1 (List.prefix_refl _))

theorem Literal.perm {first second : List (Text × Text)} (literal : Literal second)
    (perm : first.Perm second) : Literal first := by
  constructor
  · exact fun entry member => literal.literal entry (perm.mem_iff.mp member)
  · exact prefixFree_perm (perm.map Prod.fst) literal.prefixFree

/-! ### Reading the patterns of literal keys -/

def bare (key : Text) : Alternative :=
  { literal := key
    atEnd := false }

def anchored (key : Text) : Alternative :=
  { literal := key
    atEnd := true }

theorem any_isMetacharacter {key : Text} (plain : ∀ char ∈ key, isMetacharacter char = false) :
    key.any isMetacharacter = false :=
  List.any_eq_false.mpr (fun char member => by rw [plain char member]; exact Bool.false_ne_true)

theorem not_mem_of_literal {key : Text} (plain : ∀ char ∈ key, isMetacharacter char = false)
    {char : Char} (special : isMetacharacter char = true) : char ∉ key :=
  fun member => Bool.false_ne_true ((plain char member).symm.trans special)

theorem readAlternative_bare {key : Text} (plain : ∀ char ∈ key, isMetacharacter char = false) :
    readAlternative key = some (bare key) := by
  have noEnd : ¬ key.getLast? = some '$' :=
    fun ends => not_mem_of_literal plain rfl (List.mem_of_getLast? ends)
  unfold readAlternative
  simp only [if_neg noEnd, any_isMetacharacter plain, decide_eq_false noEnd]
  rfl

theorem readAlternative_anchored {key : Text}
    (plain : ∀ char ∈ key, isMetacharacter char = false) :
    readAlternative (key ++ ['$']) = some (anchored key) := by
  have ends : (key ++ ['$']).getLast? = some '$' := List.getLast?_concat
  unfold readAlternative
  simp only [if_pos ends, List.dropLast_concat, any_isMetacharacter plain, decide_eq_true ends]
  rfl

theorem mapM_readAlternative {keys : List Text}
    (plain : ∀ key ∈ keys, ∀ char ∈ key, isMetacharacter char = false) :
    keys.mapM readAlternative = some (keys.map bare) :=
  mapM_of_pure (fun key member => readAlternative_bare (plain key member))

theorem compilePattern_keys {keys : List Text} (some_key : keys ≠ [])
    (plain : ∀ key ∈ keys, ∀ char ∈ key, isMetacharacter char = false) :
    compilePattern (['|'].intercalate keys) = .ok (keys.map bare) := by
  have separated : ∀ key ∈ keys, '|' ∉ key :=
    fun key member => not_mem_of_literal (plain key member) rfl
  unfold compilePattern readPattern
  rw [List.splitOn_intercalate '|' separated some_key, mapM_readAlternative plain]

theorem compilePattern_anchored {key : Text}
    (plain : ∀ char ∈ key, isMetacharacter char = false) :
    compilePattern (key ++ ['$']) = .ok [anchored key] := by
  have whole : '|' ∉ key ++ ['$'] := by
    rw [List.mem_append, List.mem_singleton]
    rintro (inKey | impossible)
    · exact not_mem_of_literal plain rfl inKey
    · exact absurd impossible (by decide)
  unfold compilePattern readPattern
  rw [List.splitOn_eq_singleton whole, List.mapM_cons, readAlternative_anchored plain]
  rfl

/-! ### Compiling -/

def textEntry (entry : Text × Text) : Key × Text := (.text entry.1, entry.2)

def compiledEntry (entry : Text × Text) : Key × Text := (.pattern [anchored entry.1], entry.2)

/-- The entries that are listed come from the same pairs. -/
theorem listed_map (order : HashOrder) (entryOf : Text × Text → Key × Text)
    (pairOf : Key × Text → Text × Text) (inverse : ∀ pair, pairOf (entryOf pair) = pair)
    (dic : List (Text × Text)) :
    ∃ listing : List (Text × Text), listing.Perm dic ∧
      order.listed (dic.map entryOf) = listing.map entryOf := by
  have perm := order.perm (dic.map entryOf)
  refine ⟨(order.listed (dic.map entryOf)).map pairOf, ?_, ?_⟩
  · have back : (dic.map entryOf).map pairOf = dic := by
      rw [List.map_map]
      exact (List.map_congr_left (fun pair _ => inverse pair)).trans (List.map_id dic)
    have mapped := perm.map pairOf
    rw [back] at mapped
    exact mapped
  · rw [List.map_map]
    symm
    refine (List.map_congr_left ?_).trans (List.map_id _)
    intro entry member
    rcases List.mem_map.mp (perm.mem_iff.mp member) with ⟨pair, _, rfl⟩
    exact congrArg entryOf (inverse pair)

def pairOf : Key × Text → Text × Text
  | (.text key, value) => (key, value)
  | (.pattern [], value) => ([], value)
  | (.pattern (alternative :: _), value) => (alternative.literal, value)

theorem mapM_keyText (listing : List (Text × Text)) :
    (listing.map textEntry).mapM (fun entry => keyText entry.1) =
      .ok (listing.map Prod.fst) := by
  rw [List.mapM_map]
  exact mapM_of_pure (fun entry _ => rfl)

theorem mem_keys_textEntry {key : Text} {rest : List (Text × Text)} :
    Key.text key ∈ (rest.map textEntry).map Prod.fst ↔ key ∈ rest.map Prod.fst := by
  rw [List.map_map, List.mem_map, List.mem_map]
  constructor
  · rintro ⟨entry, member, same⟩
    exact ⟨entry, member, Key.text.inj same⟩
  · rintro ⟨entry, member, rfl⟩
    exact ⟨entry, member, rfl⟩

theorem pattern_not_mem_textEntry (compiled : Pattern) (rest : List (Text × Text)) :
    Key.pattern compiled ∉ (rest.map textEntry).map Prod.fst := by
  rw [List.map_map, List.mem_map]
  rintro ⟨entry, _, same⟩
  cases same

theorem text_not_mem_compiledEntry (key : Text) (done : List (Text × Text)) :
    Key.text key ∉ (done.map compiledEntry).map Prod.fst := by
  rw [List.map_map, List.mem_map]
  rintro ⟨entry, _, same⟩
  cases same

theorem anchored_not_mem_compiledEntry {key : Text} {done : List (Text × Text)}
    (fresh : key ∉ done.map Prod.fst) :
    Key.pattern [anchored key] ∉ (done.map compiledEntry).map Prod.fst := by
  rw [List.map_map, List.mem_map]
  rintro ⟨entry, member, same⟩
  have sameAlternative := (List.cons.inj (Key.pattern.inj same)).1
  have sameKey : entry.1 = key := congrArg Alternative.literal sameAlternative
  exact fresh (List.mem_map.mpr ⟨entry, member, sameKey⟩)

theorem filter_key {key : Key} {entries : Entries} (absent : key ∉ entries.map Prod.fst) :
    entries.filter (fun entry => entry.1 ≠ key) = entries := by
  rw [List.filter_eq_self]
  intro entry member
  exact decide_eq_true (fun same => absent (List.mem_map.mpr ⟨entry, member, same⟩))

/-- One key is replaced by its pattern, which comes last. -/
theorem compileKey_eq {entry : Text × Text} {rest done : List (Text × Text)} {waiting : Entries}
    (literal : ∀ char ∈ entry.1, isMetacharacter char = false)
    (notDone : entry.1 ∉ done.map Prod.fst)
    (left : waiting.Perm ((entry :: rest).map textEntry)) :
    compileKey (waiting ++ done.map compiledEntry) (textEntry entry) =
      .ok (waiting.filter (fun other => other.1 ≠ .text entry.1) ++
        (done ++ [entry]).map compiledEntry) := by
  have present : Key.text entry.1 ∈ (waiting ++ done.map compiledEntry).map Prod.fst := by
    rw [List.map_append, List.mem_append, (left.map Prod.fst).mem_iff, mem_keys_textEntry]
    exact Or.inl List.mem_cons_self
  have stays := filter_key (text_not_mem_compiledEntry entry.1 done)
  have absent : Key.pattern [anchored entry.1] ∉
      (waiting.filter (fun other => other.1 ≠ .text entry.1) ++
        done.map compiledEntry).map Prod.fst := by
    rw [List.map_append, List.mem_append]
    rintro (inWaiting | inDone)
    · have inAll := (List.filter_sublist.map Prod.fst).subset inWaiting
      rw [(left.map Prod.fst).mem_iff] at inAll
      exact pattern_not_mem_textEntry _ _ inAll
    · exact anchored_not_mem_compiledEntry notDone inDone
  have popped : pop (Key.text entry.1) (waiting ++ done.map compiledEntry) =
      .ok (waiting.filter (fun other => other.1 ≠ .text entry.1) ++
        done.map compiledEntry) := by
    unfold pop
    rw [if_pos present, List.filter_append, stays]
  have added : setItem (waiting.filter (fun other => other.1 ≠ .text entry.1) ++
      done.map compiledEntry) (.pattern [anchored entry.1]) entry.2 =
        waiting.filter (fun other => other.1 ≠ .text entry.1) ++
          (done ++ [entry]).map compiledEntry := by
    unfold setItem
    rw [if_neg absent, List.map_append, List.append_assoc]
    rfl
  calc compileKey (waiting ++ done.map compiledEntry) (textEntry entry)
      = (pop (Key.text entry.1) (waiting ++ done.map compiledEntry) >>= fun rest =>
          compilePattern (entry.1 ++ ['$']) >>= fun compiled =>
            .ok (setItem rest (.pattern compiled) entry.2)) := rfl
    _ = _ := by
      rw [popped, compilePattern_anchored literal]
      exact congrArg Except.ok added

theorem foldlM_compileKey (rest done : List (Text × Text)) {waiting : Entries}
    (literal : ∀ entry ∈ rest, ∀ char ∈ entry.1, isMetacharacter char = false)
    (distinct : ((done ++ rest).map Prod.fst).Nodup) (left : waiting.Perm (rest.map textEntry)) :
    (rest.map textEntry).foldlM compileKey (waiting ++ done.map compiledEntry) =
      .ok ((done ++ rest).map compiledEntry) := by
  induction rest generalizing done waiting with
  | nil =>
      rw [List.perm_nil.mp left, List.append_nil]
      rfl
  | cons entry rest ih =>
      have parts := distinct
      rw [List.map_append, List.map_cons, List.nodup_append, List.nodup_cons] at parts
      have notDone : entry.1 ∉ done.map Prod.fst :=
        fun member => parts.2.2 _ member _ List.mem_cons_self rfl
      have notLater : Key.text entry.1 ∉ (rest.map textEntry).map Prod.fst :=
        fun member => parts.2.1.1 (mem_keys_textEntry.mp member)
      have stillLeft : (waiting.filter (fun other => other.1 ≠ .text entry.1)).Perm
          (rest.map textEntry) := by
        have filtered := left.filter (fun other => other.1 ≠ .text entry.1)
        rw [List.map_cons, List.filter_cons_of_neg (by simp [textEntry]),
          filter_key notLater] at filtered
        exact filtered
      have later := ih (done ++ [entry])
        (fun other member => literal other (List.mem_cons_of_mem entry member))
        (by rwa [List.append_assoc]) stillLeft
      rw [List.map_cons, List.foldlM_cons,
        compileKey_eq (literal entry List.mem_cons_self) notDone left]
      rw [List.append_assoc] at later
      exact later

/-- A compiled object, up to the order of the entries and of the alternatives. -/
theorem compile_init {dic : List (Text × Text)} (literal : Literal dic) (filled : dic ≠ [])
    (order : HashOrder) :
    ∃ listing : List (Text × Text), listing.Perm dic ∧ compile order (init dic) =
      .ok { entries := listing.map compiledEntry
            re := some (['|'].intercalate (listing.map Prod.fst))
            regex := some ((listing.map Prod.fst).map bare) } := by
  rcases listed_map order textEntry pairOf (fun _ => rfl) dic with ⟨listing, perm, listed⟩
  refine ⟨listing, perm, ?_⟩
  have literals := literal.perm perm
  have someKey : listing.map Prod.fst ≠ [] := by
    intro noKeys
    rw [List.map_eq_nil_iff.mp noKeys] at perm
    exact filled (List.nil_perm.mp perm)
  have plain : ∀ key ∈ listing.map Prod.fst, ∀ char ∈ key, isMetacharacter char = false := by
    intro key member
    rcases List.mem_map.mp member with ⟨entry, inListing, rfl⟩
    exact literals.literal entry inListing
  have nonempty : (init dic).entries.length > 0 := by
    rw [init, List.length_map]
    exact List.length_pos_iff.mpr filled
  have changed : (init dic).re ≠ some (['|'].intercalate (listing.map Prod.fst)) :=
    (Option.some_ne_none _).symm
  have compiled : (listing.map textEntry).foldlM compileKey (init dic).entries =
      .ok (listing.map compiledEntry) := by
    have whole := foldlM_compileKey listing [] literals.literal
      (prefixFree_nodup literals.prefixFree) (perm.symm.map textEntry)
    rw [List.map_nil, List.append_nil, List.nil_append] at whole
    exact whole
  unfold compile
  rw [if_pos nonempty, show order.listed (init dic).entries = listing.map textEntry from listed,
    mapM_keyText]
  dsimp only [bind, Except.bind]
  rw [if_pos changed, compilePattern_keys someKey plain]
  dsimp only
  rw [compiled]

/-! ### Matching -/

theorem bare_matchAt (key text : Text) :
    (bare key).matchAt text = if key.isPrefixOf text then some key.length else none := by
  unfold Alternative.matchAt bare
  simp

theorem anchored_matchAt_self (key : Text) : ((anchored key).matchAt key).isSome = true := by
  unfold Alternative.matchAt anchored
  simp

theorem prefix_of_anchored {key text : Text} (found : ((anchored key).matchAt text).isSome = true) :
    key <+: text := by
  unfold Alternative.matchAt anchored at found
  by_cases isPrefix : key.isPrefixOf text = true
  · exact List.isPrefixOf_iff_prefix.mp isPrefix
  · simp [isPrefix] at found

theorem matchAt_bare (keys : List Text) (text : Text) :
    Pattern.matchAt (keys.map bare) text =
      (keys.find? (fun key => key.isPrefixOf text)).map List.length := by
  unfold Pattern.matchAt
  induction keys with
  | nil => rfl
  | cons key keys ih =>
      rw [List.map_cons, List.findSome?_cons, bare_matchAt, ih, List.find?_cons]
      cases key.isPrefixOf text with
      | true => rfl
      | false => rfl

theorem matchAt_order {keys others : List Text} (free : PrefixFree keys)
    (same : others.Perm keys) :
    Pattern.matchAt (others.map bare) = Pattern.matchAt (keys.map bare) := by
  funext text
  rw [matchAt_bare, matchAt_bare, find?_name free (fun key => same.mem_iff)]

theorem mem_of_matchAt {keys : List Text} {text : Text} {length : Nat}
    (found : Pattern.matchAt (keys.map bare) text = some length) : text.take length ∈ keys := by
  rw [matchAt_bare, Option.map_eq_some_iff] at found
  rcases found with ⟨key, first, rfl⟩
  rcases startsWith_of_find? first with ⟨member, isPrefix⟩
  rw [← List.prefix_iff_eq_take.mp isPrefix]
  exact member

/-! ### Looking up the value -/

def valueOf (dic : List (Text × Text)) (word : Text) : Option Text :=
  (dic.find? (fun entry => entry.1 = word)).map Prod.snd

theorem valueOf_entry {dic : List (Text × Text)} (distinct : (dic.map Prod.fst).Nodup)
    {entry : Text × Text} (member : entry ∈ dic) : valueOf dic entry.1 = some entry.2 := by
  unfold valueOf
  cases found : dic.find? (fun other => other.1 = entry.1) with
  | none => exact absurd (decide_eq_true rfl) (List.find?_eq_none.mp found entry member)
  | some other =>
      have holds := List.find?_some found
      have sameKey : other.1 = entry.1 := of_decide_eq_true holds
      rw [List.inj_on_of_nodup_map distinct (List.mem_of_find?_eq_some found) member sameKey]
      rfl

theorem valueOf_isSome {dic : List (Text × Text)} {word : Text} :
    (valueOf dic word).isSome = true ↔ word ∈ dic.map Prod.fst := by
  unfold valueOf
  rw [Option.isSome_map, List.find?_isSome, List.mem_map]
  simp

/-- Only the key that was matched matches the matched text to its end. -/
theorem callOn_compiled {listing : List (Text × Text)} (free : PrefixFree (listing.map Prod.fst))
    {entry : Text × Text} (member : entry ∈ listing) :
    callOn entry.1 (listing.map compiledEntry) = expand entry.2 := by
  have distinct := prefixFree_nodup free
  have only : ∀ other ∈ listing, ((anchored other.1).matchAt entry.1).isSome = true →
      other = entry := fun other inListing found =>
    List.inj_on_of_nodup_map distinct inListing member
      (free.eq_of_prefix (List.mem_map_of_mem inListing) (List.mem_map_of_mem member)
        (prefix_of_anchored found))
  clear distinct free
  induction listing with
  | nil => cases member
  | cons first listing ih =>
      rw [List.map_cons, compiledEntry, callOn]
      have single : Pattern.matchAt [anchored first.1] entry.1 =
          (anchored first.1).matchAt entry.1 := by
        unfold Pattern.matchAt
        rw [List.findSome?_cons]
        cases (anchored first.1).matchAt entry.1 with
        | none => rfl
        | some length => rfl
      rw [single]
      by_cases found : ((anchored first.1).matchAt entry.1).isSome = true
      · rw [if_pos found, only first List.mem_cons_self found]
      · rw [if_neg found]
        cases member with
        | head _ => exact absurd (anchored_matchAt_self entry.1) found
        | tail _ later =>
            exact ih later (fun other inListing => only other (List.mem_cons_of_mem first inListing))

/-! ### The written text -/

theorem mapM_rewriteSegment {called other : Text → Except Failure Text}
    {found : List (Segment Char)}
    (same : ∀ word, .matched word ∈ found → called word = other word) :
    found.mapM (rewriteSegment called) = found.mapM (rewriteSegment other) := by
  apply mapM_congr
  intro segment member
  cases segment with
  | copied char => rfl
  | matched word => rw [rewriteSegment, same word member, rewriteSegment]

theorem mapM_copied (called : Text → Except Failure Text) (text : Text) :
    (text.map Segment.copied).mapM (rewriteSegment called) =
      .ok (text.map (fun char => [char])) := by
  rw [List.mapM_map]
  exact mapM_of_pure (fun char _ => rfl)

theorem rewrite_congr {keys : List Text} {called other : Text → Except Failure Text}
    (same : ∀ word ∈ keys, called word = other word) (text : Text) :
    rewrite (keys.map bare) called text = rewrite (keys.map bare) other text := by
  unfold rewrite
  rw [mapM_rewriteSegment]
  intro word member
  rcases segments_matched member with ⟨rest, length, found, rfl⟩
  exact same _ (mem_of_matchAt found)

/-- What is written, without any order. -/
def substitute (dic : List (Text × Text)) (text : Text) : Except Failure Text :=
  rewrite ((dic.map Prod.fst).map bare) (fun word => expand ((valueOf dic word).getD [])) text

theorem substitute_nil (text : Text) : substitute [] text = .ok text := by
  have nothing : Pattern.matchAt [] = fun _ => none := rfl
  unfold substitute rewrite
  rw [List.map_nil, List.map_nil, nothing, segments_none, mapM_copied]
  exact congrArg Except.ok (List.flatMap_singleton' text)

theorem sub_compiled {dic listing : List (Text × Text)} (literal : Literal dic)
    (filled : dic ≠ []) (perm : listing.Perm dic) (lookup : HashOrder) (re : Option Text)
    (text : Text) :
    sub lookup
      { entries := listing.map compiledEntry
        re := re
        regex := some ((listing.map Prod.fst).map bare) } text = substitute dic text := by
  have keysPerm := perm.map Prod.fst
  have nonempty : (listing.map compiledEntry).length ≠ 0 := by
    rw [List.length_map, perm.length_eq]
    exact fun none => filled (List.eq_nil_of_length_eq_zero none)
  unfold sub substitute
  rw [if_neg nonempty]
  dsimp only
  have sameMatches := matchAt_order literal.prefixFree keysPerm
  have sameWritten : rewrite ((listing.map Prod.fst).map bare) =
      rewrite ((dic.map Prod.fst).map bare) := by
    unfold rewrite
    rw [sameMatches]
  rw [sameWritten]
  refine rewrite_congr (fun word member => ?_) text
  rcases List.mem_map.mp member with ⟨entry, inDic, rfl⟩
  rcases listed_map lookup compiledEntry pairOf (fun _ => rfl) listing with
    ⟨looked, lookedPerm, listed⟩
  have lookedDic := lookedPerm.trans perm
  unfold call
  rw [listed, callOn_compiled (literal.perm lookedDic).prefixFree (lookedDic.mem_iff.mpr inDic),
    valueOf_entry (prefixFree_nodup literal.prefixFree) inDic]
  rfl

theorem compile_nil (order : HashOrder) : compile order (init []) = .ok (init []) := rfl

theorem sub_init_nil (lookup : HashOrder) (text : Text) :
    sub lookup (init []) text = .ok text := rfl

/-- After one call of `compile` the orders no longer matter. -/
theorem sub_compile {dic : List (Text × Text)} (literal : Literal dic) (building : HashOrder) :
    ∃ self, compile building (init dic) = .ok self ∧
      ∀ lookup text, sub lookup self text = substitute dic text := by
  by_cases empty : dic = []
  · subst empty
    exact ⟨init [], compile_nil building, fun lookup text =>
      (sub_init_nil lookup text).trans (substitute_nil text).symm⟩
  · rcases compile_init literal empty building with ⟨listing, perm, compiled⟩
    exact ⟨_, compiled, fun lookup text => sub_compiled literal empty perm lookup _ text⟩

/-! ### Simultaneous substitution -/

/-- Literal keys that match some character, and values without references to groups. -/
structure Simple (dic : List (Text × Text)) : Prop extends Literal dic where
  nonempty : ∀ entry ∈ dic, entry.1 ≠ []
  plain : ∀ entry ∈ dic, hasGroupReference entry.2 = false

theorem Literal.keysPrefixFree {dic : List (Text × Text)} (literal : Literal dic) :
    KeysPrefixFree (valueOf dic) := by
  intro first second isFirst isSecond isPrefix
  exact literal.prefixFree.eq_of_prefix (valueOf_isSome.mp isFirst) (valueOf_isSome.mp isSecond)
    isPrefix

theorem Simple.findsKeys {dic : List (Text × Text)} (simple : Simple dic) :
    FindsKeys (valueOf dic) (Pattern.matchAt ((dic.map Prod.fst).map bare)) := by
  constructor
  · intro text length found
    have isKey := mem_of_matchAt found
    rw [matchAt_bare, Option.map_eq_some_iff] at found
    rcases found with ⟨key, first, rfl⟩
    rcases startsWith_of_find? first with ⟨inKeys, isPrefix⟩
    rcases List.mem_map.mp inKeys with ⟨entry, member, rfl⟩
    exact ⟨List.length_pos_iff.mpr (simple.nonempty entry member), isPrefix.length_le,
      valueOf_isSome.mpr isKey⟩
  · intro text missed key isKey isPrefix
    rw [matchAt_bare, Option.map_eq_none_iff, List.find?_eq_none] at missed
    exact missed key (valueOf_isSome.mp isKey) (List.isPrefixOf_iff_prefix.mpr isPrefix)

theorem mapM_written (called : Text → Except Failure Text) (texts : Text → Text)
    {found : List (Segment Char)}
    (plain : ∀ word, .matched word ∈ found → called word = .ok (texts word)) :
    found.mapM (rewriteSegment called) = .ok (found.map (writeSegment texts)) := by
  refine mapM_of_pure ?_
  intro segment member
  cases segment with
  | copied char => rfl
  | matched word =>
      rw [rewriteSegment, plain word member]
      rfl

theorem Simple.expand_value {dic : List (Text × Text)} (simple : Simple dic) {word : Text}
    (isKey : word ∈ dic.map Prod.fst) :
    expand ((valueOf dic word).getD []) = .ok ((valueOf dic word).getD []) := by
  rcases List.mem_map.mp isKey with ⟨entry, member, rfl⟩
  rw [valueOf_entry (prefixFree_nodup simple.prefixFree) member]
  unfold expand
  rw [Option.getD_some, simple.plain entry member]
  rfl

theorem substitute_replaced {dic : List (Text × Text)} (simple : Simple dic) (text : Text) :
    ∃ written, substitute dic text = .ok written ∧ Replaced (valueOf dic) text written := by
  let texts : Text → Text := fun word => (valueOf dic word).getD []
  refine ⟨(segments (Pattern.matchAt ((dic.map Prod.fst).map bare)) 0 false text).flatMap
    (writeSegment texts), ?_, ?_⟩
  · unfold substitute rewrite
    rw [mapM_written _ texts]
    · rfl
    · intro word member
      rcases segments_matched member with ⟨rest, length, found, rfl⟩
      exact simple.expand_value (mem_of_matchAt found)
  · refine segments_replaced simple.findsKeys (fun key isKey => ?_) 0 false text
    rcases Option.isSome_iff_exists.mp isKey with ⟨value, known⟩
    have written : (valueOf dic key).getD [] = value := by rw [known, Option.getD_some]
    exact known.trans (congrArg some written.symm)

/-! ### The substitution without an object -/

def segmentOf : Bnf.Piece → Segment Char
  | .char char => .copied char
  | .name name => .matched name

theorem segments_pieces {keys : List Text} (nonempty : ∀ key ∈ keys, key ≠ []) (covered : Nat)
    (adjacent : Bool) (text : Text) :
    segments (Pattern.matchAt (keys.map bare)) covered adjacent text =
      (Bnf.pieces keys covered text).map segmentOf := by
  induction text generalizing covered adjacent with
  | nil =>
      cases covered with
      | succ covered => rfl
      | zero =>
          have noEmptyMatch : Pattern.matchAt (keys.map bare) [] ≠ some 0 := by
            intro found
            exact nonempty _ (mem_of_matchAt found) List.take_nil
          rw [segments, if_neg (fun both => noEmptyMatch both.2)]
          rfl
  | cons char rest ih =>
      cases covered with
      | succ covered => exact ih covered true
      | zero =>
          rw [segments, Bnf.pieces, matchAt_bare]
          cases found : keys.find? (fun key => key.isPrefixOf (char :: rest)) with
          | none => exact congrArg (Segment.copied char :: ·) (ih 0 false)
          | some key =>
              rcases startsWith_of_find? found with ⟨member, isPrefix⟩
              have taken := List.prefix_iff_eq_take.mp isPrefix
              cases key with
              | nil => exact absurd rfl (nonempty [] member)
              | cons first others =>
                  have same := ih others.length true
                  rw [Option.map_some, List.length_cons]
                  dsimp only
                  rw [← List.length_cons (a := first), ← taken, same]
                  rfl

/-- An error is a missing result. -/
theorem mapM_toOption (called : Text → Except Failure Text) (other : Text → Option Text)
    (found : List Bnf.Piece)
    (same : ∀ name, .name name ∈ found → (called name).toOption = other name) :
    ((found.map segmentOf).mapM (rewriteSegment called)).toOption =
      found.mapM (fun piece =>
        match piece with
        | .char char => some [char]
        | .name name => other name) := by
  induction found with
  | nil => rfl
  | cons piece found ih =>
      have rest := ih (fun name member => same name (List.mem_cons_of_mem piece member))
      rw [List.map_cons, List.mapM_cons, List.mapM_cons, ← rest]
      cases piece with
      | char char =>
          cases (found.map segmentOf).mapM (rewriteSegment called) with
          | error failure => rfl
          | ok written => rfl
      | name name =>
          dsimp only
          rw [← same name List.mem_cons_self, segmentOf, rewriteSegment]
          cases called name with
          | error failure => rfl
          | ok value =>
              cases (found.map segmentOf).mapM (rewriteSegment called) with
              | error failure => rfl
              | ok written => rfl

theorem expand_toOption {dic : List (Text × Text)} {word : Text}
    (isKey : word ∈ dic.map Prod.fst) :
    (expand ((valueOf dic word).getD [])).toOption = Bnf.replacement dic word := by
  rcases Option.isSome_iff_exists.mp (valueOf_isSome.mpr isKey) with ⟨value, known⟩
  rw [known, Option.getD_some]
  unfold valueOf at known
  rcases Option.map_eq_some_iff.mp known with ⟨entry, found, rfl⟩
  unfold expand Bnf.replacement
  rw [found]
  cases references : hasGroupReference entry.2 with
  | true => simp [references, Except.toOption]
  | false => simp [references, Except.toOption]

/-- The object does what the function on the dictionary does. -/
theorem substitute_toOption {dic : List (Text × Text)} (nonempty : ∀ entry ∈ dic, entry.1 ≠ [])
    (text : Text) : (substitute dic text).toOption = Bnf.sub dic text := by
  by_cases empty : dic = []
  · subst empty
    rw [substitute_nil]
    rfl
  · have keysNonempty : ∀ key ∈ dic.map Prod.fst, key ≠ [] := by
      intro key member
      rcases List.mem_map.mp member with ⟨entry, inDic, rfl⟩
      exact nonempty entry inDic
    have pieces := mapM_toOption (fun word => expand ((valueOf dic word).getD []))
      (Bnf.replacement dic) (Bnf.pieces (dic.map Prod.fst) 0 text)
      (fun name member => expand_toOption (Bnf.mem_names_of_mem_pieces member))
    have sub_eq : Bnf.sub dic text =
        (((Bnf.pieces (dic.map Prod.fst) 0 text).map segmentOf).mapM (rewriteSegment (fun word =>
          expand ((valueOf dic word).getD [])))).toOption.bind
            (fun written => some written.flatten) := by
      unfold Bnf.sub
      rw [if_neg (fun none => empty (List.eq_nil_of_length_eq_zero none)), pieces]
      rfl
    unfold substitute rewrite
    rw [segments_pieces keysNonempty, sub_eq]
    cases ((Bnf.pieces (dic.map Prod.fst) 0 text).map segmentOf).mapM
        (rewriteSegment (fun word => expand ((valueOf dic word).getD []))) with
    | error failure => rfl
    | ok written => rfl

theorem sub_compile_toOption {dic : List (Text × Text)} (literal : Literal dic)
    (nonempty : ∀ entry ∈ dic, entry.1 ≠ []) (building : HashOrder) :
    ∃ self, compile building (init dic) = .ok self ∧
      ∀ lookup text, (sub lookup self text).toOption = Bnf.sub dic text := by
  rcases sub_compile literal building with ⟨self, compiled, written⟩
  refine ⟨self, compiled, fun lookup text => ?_⟩
  rw [written lookup text, substitute_toOption nonempty]

/-- The keys are replaced in one scan from the left, whatever the two orders are. -/
theorem sub_simultaneous {dic : List (Text × Text)} (simple : Simple dic) (text : Text) :
    ∃ written, (∀ other, Replaced (valueOf dic) text other ↔ other = written) ∧
      ∀ building lookup, ∃ self,
        compile building (init dic) = .ok self ∧ sub lookup self text = .ok written := by
  rcases substitute_replaced simple text with ⟨written, substituted, replaced⟩
  refine ⟨written, fun other => ?_, fun building lookup => ?_⟩
  · constructor
    · exact fun isOther => isOther.unique simple.keysPrefixFree replaced
    · exact fun same => same ▸ replaced
  · rcases sub_compile simple.toLiteral building with ⟨self, compiled, written⟩
    exact ⟨self, compiled, (written lookup text).trans substituted⟩

def swapped : List (Text × Text) :=
  [("cat".toList, "dog".toList), ("dog".toList, "cat".toList)]

theorem swapped_simple : Simple swapped := by
  have literal : swapped.all (fun entry => entry.1.all (fun char => !isMetacharacter char)) =
      true := by
    decide +kernel
  simp only [List.all_eq_true, Bool.not_eq_true'] at literal
  exact ⟨⟨literal, by decide⟩, by decide, by decide +kernel⟩

theorem sub_simultaneous_swapped :
    ∃ written, (∀ other, Replaced (valueOf swapped) "a cat, a dog".toList other ↔
        other = written) ∧
      ∀ building lookup, ∃ self, compile building (init swapped) = .ok self ∧
        sub lookup self "a cat, a dog".toList = .ok written :=
  sub_simultaneous swapped_simple "a cat, a dog".toList

example : substitute swapped "a cat, a dog".toList = .ok "a dog, a cat".toList := by
  decide +kernel

end Multisub
