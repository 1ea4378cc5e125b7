/-
The classes that a word stands for.

A class n-gram is expanded slot by slot.  Where the clusters share no word, and no word
of a cluster is left in the text, every expansion belongs to one class n-gram.
-/

import DataSelection.WittenBell.Expansion

namespace WittenBell

open Library Dictionary

/-- No word belongs to two clusters. -/
def Clusters.PairwiseDisjoint (clusters : Clusters) : Prop :=
  ∀ name words other others, clusters.members name = some words →
    clusters.members other = some others → name ≠ other → List.Disjoint words others

def Clusters.RepetitionFree (clusters : Clusters) : Prop :=
  ∀ name words, clusters.members name = some words → words.Nodup

/-- No word of a cluster that occurs is left. -/
def Replaced (clusters : Clusters) (dictionary : Dictionary) : Prop :=
  ∀ name words, isClassName name = true → dictionary.Seen [name] →
    clusters.members name = some words → ∀ word ∈ words, ¬ dictionary.Seen [word]

/-! ### Slots -/

theorem slotOf_className {clusters : Clusters} {name : Word} {words : List Word}
    (isName : isClassName name = true) (found : clusters.members name = some words) :
    slotOf clusters name = words := by
  rw [slotOf, possibilities, if_pos isName, found]
  rfl

theorem slotOf_plain (clusters : Clusters) {word : Word} (isPlain : ¬ isClassName word = true) :
    slotOf clusters word = [word] := by
  rw [slotOf, possibilities, if_neg isPlain]
  rfl

theorem members_of_known {clusters : Clusters} {name : Word} (isName : isClassName name = true)
    (known : (possibilities clusters name).isSome = true) :
    ∃ words, clusters.members name = some words := by
  rw [possibilities, if_pos isName] at known
  exact Option.isSome_iff_exists.mp known

theorem nodup_slotOf {clusters : Clusters} (distinct : clusters.RepetitionFree) (name : Word) :
    (slotOf clusters name).Nodup := by
  by_cases isName : isClassName name = true
  · cases found : clusters.members name with
    | none =>
        have none : slotOf clusters name = [] := by
          rw [slotOf, possibilities, if_pos isName, found]
          rfl
        rw [none]
        exact List.nodup_nil
    | some words =>
        rw [slotOf_className isName found]
        exact distinct name words found
  · rw [slotOf_plain clusters isName]
    exact List.nodup_singleton name

theorem className_unique {clusters : Clusters} (disjoint : clusters.PairwiseDisjoint)
    {name other word : Word} (isName : isClassName name = true)
    (isOther : isClassName other = true) (inName : word ∈ slotOf clusters name)
    (inOther : word ∈ slotOf clusters other) : name = other := by
  cases found : clusters.members name with
  | none =>
      rw [slotOf, possibilities, if_pos isName, found] at inName
      cases inName
  | some words =>
      cases foundOther : clusters.members other with
      | none =>
          rw [slotOf, possibilities, if_pos isOther, foundOther] at inOther
          cases inOther
      | some others =>
          rw [slotOf_className isName found] at inName
          rw [slotOf_className isOther foundOther] at inOther
          by_contra different
          exact disjoint name words other others found foundOther different inName inOther

theorem expands_singleton {clusters : Clusters} {word name : Word} :
    Expands clusters [word] [name] ↔ word ∈ slotOf clusters name := by
  have concat : Expands clusters ([] ++ [word]) ([] ++ [name]) ↔
      Expands clusters [] [] ∧ word ∈ slotOf clusters name := expands_concat
  rw [List.nil_append, List.nil_append] at concat
  rw [concat]
  exact and_iff_right List.Forall₂.nil

theorem expands_pair {clusters : Clusters} {word follower name next : Word} :
    Expands clusters [word, follower] [name, next] ↔
      word ∈ slotOf clusters name ∧ follower ∈ slotOf clusters next := by
  have concat : Expands clusters ([word] ++ [follower]) ([name] ++ [next]) ↔
      Expands clusters [word] [name] ∧ follower ∈ slotOf clusters next := expands_concat
  rw [expands_singleton] at concat
  exact concat

theorem Expands.tail {clusters : Clusters} {words entry : List Word}
    (expands : Expands clusters words entry) : Expands clusters words.tail entry.tail := by
  unfold Expands at expands ⊢
  cases entry with
  | nil =>
      rw [List.map_nil] at expands
      cases expands
      exact List.Forall₂.nil
  | cons name rest =>
      rw [List.map_cons] at expands
      cases expands with
      | cons _ others => exact others

theorem expands_split {clusters : Clusters} {words : List Word} {word : Word} {entry : List Word}
    (expands : Expands clusters (words ++ [word]) entry) :
    ∃ front name, entry = front ++ [name] ∧ Expands clusters words front ∧
      word ∈ slotOf clusters name := by
  rcases List.eq_nil_or_concat entry with empty | ⟨front, name, rfl⟩
  · have lengths := expands.length_eq
    rw [empty, List.length_append, List.length_singleton, List.length_nil] at lengths
    omega
  · rw [List.concat_eq_append] at expands ⊢
    exact ⟨front, name, rfl, expands_concat.mp expands⟩

theorem expands_history_tail {clusters : Clusters} {words front : List Word} {word name : Word}
    (expands : Expands clusters words front) (member : word ∈ slotOf clusters name) :
    Expands clusters (words.tail ++ [word]) (front.tail ++ [name]) :=
  expands_concat.mpr ⟨expands.tail, member⟩

/-! ### The class n-gram of an expansion -/

theorem not_seen_of_replaced {clusters : Clusters} {dictionary : Dictionary}
    (replaced : Replaced clusters dictionary) {name word : Word} (isName : isClassName name = true)
    (seen : dictionary.Seen [name]) (member : word ∈ slotOf clusters name) :
    ¬ dictionary.Seen [word] := by
  cases found : clusters.members name with
  | none =>
      rw [slotOf, possibilities, if_pos isName, found] at member
      cases member
  | some words =>
      rw [slotOf_className isName found] at member
      exact replaced name words isName seen found word member

section

variable {clusters : Clusters} {dictionary : Dictionary}
  (disjoint : clusters.PairwiseDisjoint) (replaced : Replaced clusters dictionary)

include disjoint replaced

theorem class_unique {name other word : Word} (seen : dictionary.Seen [name])
    (seenOther : dictionary.Seen [other]) (inName : word ∈ slotOf clusters name)
    (inOther : word ∈ slotOf clusters other) : name = other := by
  by_cases isName : isClassName name = true
  · by_cases isOther : isClassName other = true
    · exact className_unique disjoint isName isOther inName inOther
    · rw [slotOf_plain clusters isOther, List.mem_singleton] at inOther
      subst inOther
      exact absurd seenOther (not_seen_of_replaced replaced isName seen inName)
  · rw [slotOf_plain clusters isName, List.mem_singleton] at inName
    subst inName
    by_cases isOther : isClassName other = true
    · exact absurd seen (not_seen_of_replaced replaced isOther seenOther inOther)
    · rw [slotOf_plain clusters isOther, List.mem_singleton] at inOther
      exact inOther

theorem entry_unique {entry other words : List Word}
    (seen : ∀ word ∈ entry, dictionary.Seen [word])
    (seenOther : ∀ word ∈ other, dictionary.Seen [word]) (expands : Expands clusters words entry)
    (expandsOther : Expands clusters words other) : entry = other := by
  induction words generalizing entry other with
  | nil =>
      rw [List.eq_nil_of_length_eq_zero expands.length_eq.symm,
        List.eq_nil_of_length_eq_zero expandsOther.length_eq.symm]
  | cons word words ih =>
      cases entry with
      | nil => cases expands
      | cons name entry =>
          cases other with
          | nil => cases expandsOther
          | cons otherName other =>
              have heads : name = otherName := by
                unfold Expands at expands expandsOther
                rw [List.map_cons] at expands expandsOther
                cases expands with
                | cons inName _ =>
                    cases expandsOther with
                    | cons inOther _ =>
                        exact class_unique disjoint replaced
                          (seen name List.mem_cons_self)
                          (seenOther otherName List.mem_cons_self) inName inOther
              have tails := ih
                (fun word member => seen word (List.mem_cons_of_mem name member))
                (fun word member => seenOther word (List.mem_cons_of_mem otherName member))
                expands.tail expandsOther.tail
              rw [heads, tails]

end

/-! ### One cluster -/

/-- The dictionary of one cluster, with its words in a text. -/
def singleCluster (name : Word) (text : List Char) (nonempty : split text ≠ []) : Clusters where
  members := fun other => if other = name then some (split text) else none
  nonempty := by
    intro other found isFound
    rcases Option.ite_none_right_eq_some.mp isFound with ⟨_, same⟩
    rw [← Option.some.inj same]
    exact nonempty
  clean := by
    intro other found isFound
    rcases Option.ite_none_right_eq_some.mp isFound with ⟨_, same⟩
    rw [← Option.some.inj same]
    exact fun word => cleanWord_of_mem_split

theorem singleCluster_members {name other : Word} {text : List Char} {nonempty : split text ≠ []}
    {found : List Word} : (singleCluster name text nonempty).members other = some found ↔
      other = name ∧ split text = found := by
  unfold singleCluster
  rw [Option.ite_none_right_eq_some, Option.some_inj]

theorem singleCluster_pairwiseDisjoint {name : Word} {text : List Char}
    {nonempty : split text ≠ []} : (singleCluster name text nonempty).PairwiseDisjoint := by
  intro first _ second _ foundFirst foundSecond different
  have isFirst := (singleCluster_members.mp foundFirst).1
  have isSecond := (singleCluster_members.mp foundSecond).1
  exact absurd (isFirst.trans isSecond.symm) different

theorem singleCluster_repetitionFree {name : Word} {text : List Char}
    {nonempty : split text ≠ []} (distinct : (split text).Nodup) :
    (singleCluster name text nonempty).RepetitionFree := by
  intro other found isFound
  rw [← (singleCluster_members.mp isFound).2]
  exact distinct

def nameX : Word := ['@', '!', 'X']

def clusterB : Clusters := singleCluster nameX ['b'] (by decide)

def clusterBC : Clusters := singleCluster nameX ['b', ' ', 'c'] (by decide)

end WittenBell
