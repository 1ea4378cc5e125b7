/-
Open addressing with a step that grows by one from probe to probe.

The probes of a key visit every slot of a table whose size is a power of two.  A search in
a table with a free slot therefore ends, and a table built by insertions finds the position
of each of its entries and nothing else.
-/

import Mathlib.Algebra.Order.Ring.Nat
import Mathlib.Algebra.Ring.Parity
import Mathlib.Data.Fintype.EquivFin
import Mathlib.Data.Nat.ModEq
import Mathlib.Data.Nat.Prime.Basic
import Mathlib.Tactic.Positivity
import Mathlib.Tactic.Ring

namespace Library

/-! ### The slots of the probes -/

def probe (mask start : Nat) : Nat → Nat
  | 0 => start &&& mask
  | count + 1 => (probe mask start count + (count + 1)) &&& mask

/-- The first slot from a probe on that stops the search. -/
def probeFrom (stops : Nat → Bool) (mask : Nat) : Nat → Nat → Nat → Option Nat
  | 0, _, _ => none
  | fuel + 1, slot, skip =>
      if stops slot then some slot
      else probeFrom stops mask fuel ((slot + (skip + 1)) &&& mask) (skip + 1)

theorem stops_of_probeFrom {stops : Nat → Bool} {mask fuel slot skip found : Nat}
    (ended : probeFrom stops mask fuel slot skip = some found) : stops found = true := by
  induction fuel generalizing slot skip with
  | zero => cases ended
  | succ fuel ih =>
      rw [probeFrom] at ended
      split at ended
      · next stopped =>
          cases ended
          exact stopped
      · exact ih ended

section

variable {size power mask start : Nat}

theorem probe_eq (isPower : mask + 1 = 2 ^ power) (count : Nat) :
    probe mask start count = (start + count * (count + 1) / 2) % 2 ^ power := by
  have masked : ∀ value : Nat, value &&& mask = value % 2 ^ power := by
    intro value
    have isMask : mask = 2 ^ power - 1 := by omega
    rw [isMask, Nat.and_two_pow_sub_one_eq_mod]
  induction count with
  | zero => rw [probe, masked, Nat.zero_mul, Nat.zero_div, Nat.add_zero]
  | succ count ih =>
      have next : (count + 1) * (count + 1 + 1) / 2 = count * (count + 1) / 2 + (count + 1) := by
        have twice : (count + 1) * (count + 1 + 1) = count * (count + 1) + 2 * (count + 1) := by
          ring
        rw [twice]
        omega
      rw [probe, masked, ih, next, Nat.mod_add_mod, Nat.add_assoc]

theorem probe_lt (isPower : mask + 1 = 2 ^ power) (count : Nat) :
    probe mask start count < 2 ^ power := by
  rw [probe_eq isPower]
  exact Nat.mod_lt _ (by positivity)

/-- Two triangular numbers agree modulo a power of two only when they are the same one. -/
private theorem triangle_injective {left right : Nat} (ordered : left ≤ right)
    (inside : right < 2 ^ power)
    (same : left * (left + 1) / 2 ≡ right * (right + 1) / 2 [MOD 2 ^ power]) : left = right := by
  obtain ⟨gap, rfl⟩ := Nat.exists_eq_add_of_le ordered
  have half : ∀ count : Nat, 2 * (count * (count + 1) / 2) = count * (count + 1) := by
    intro count
    exact Nat.mul_div_cancel' (Nat.even_mul_succ_self count).two_dvd
  have doubled : 2 ^ (power + 1) ∣ gap * (2 * left + gap + 1) := by
    have divides : 2 ^ power ∣ (left + gap) * (left + gap + 1) / 2 - left * (left + 1) / 2 := by
      have grows : left * (left + 1) / 2 ≤ (left + gap) * (left + gap + 1) / 2 :=
        Nat.div_le_div_right (Nat.mul_le_mul (by omega) (by omega))
      exact (Nat.modEq_iff_dvd' grows).mp same
    obtain ⟨quotient, found⟩ := divides
    refine ⟨quotient, ?_⟩
    have expanded : (left + gap) * (left + gap + 1) =
        left * (left + 1) + gap * (2 * left + gap + 1) := by ring
    have first := half left
    have second := half (left + gap)
    have split : 2 ^ (power + 1) * quotient = 2 * (2 ^ power * quotient) := by ring
    rw [split, ← found]
    omega
  by_cases isZero : gap = 0
  · omega
  · exfalso
    have positive : 0 < gap := Nat.pos_of_ne_zero isZero
    -- one factor is odd, so the other one is a multiple of the whole power
    rcases Nat.even_or_odd gap with even | odd
    · have oddFactor : Odd (2 * left + gap + 1) := by
        rw [Nat.add_assoc]
        exact (even_two_mul left).add_odd even.add_one
      have coprime : Nat.Coprime (2 ^ (power + 1)) (2 * left + gap + 1) :=
        Nat.Coprime.pow_left _ (Nat.coprime_two_left.mpr oddFactor)
      have large := Nat.le_of_dvd positive (coprime.dvd_of_dvd_mul_right doubled)
      rw [Nat.pow_succ] at large
      omega
    · have coprime : Nat.Coprime (2 ^ (power + 1)) gap :=
        Nat.Coprime.pow_left _ (Nat.coprime_two_left.mpr odd)
      have large := Nat.le_of_dvd (by omega) (coprime.dvd_of_dvd_mul_left doubled)
      rw [Nat.pow_succ] at large
      omega

theorem exists_probe_eq (isPower : mask + 1 = 2 ^ power) {slot : Nat} (inside : slot < 2 ^ power) :
    ∃ count < 2 ^ power, probe mask start count = slot := by
  let visit : Fin (2 ^ power) → Fin (2 ^ power) := fun count =>
    ⟨probe mask start count, probe_lt isPower count⟩
  have injective : Function.Injective visit := by
    intro left right same
    have slots : probe mask start left = probe mask start right := congrArg Fin.val same
    rw [probe_eq isPower, probe_eq isPower] at slots
    have triangles : left.val * (left.val + 1) / 2 ≡ right.val * (right.val + 1) / 2 [MOD 2 ^ power] :=
      Nat.ModEq.add_left_cancel' start slots
    apply Fin.ext
    rcases Nat.le_total left.val right.val with before | after
    · exact triangle_injective before right.isLt triangles
    · exact (triangle_injective after left.isLt triangles.symm).symm
  obtain ⟨count, found⟩ := (Finite.injective_iff_surjective.mp injective) ⟨slot, inside⟩
  exact ⟨count.val, count.isLt, congrArg Fin.val found⟩

end

/-! ### A search -/

section

variable {stops : Nat → Bool} {mask start : Nat}

theorem probeFrom_eq {first last fuel : Nat} (ordered : first ≤ last) (near : last < first + fuel)
    (stopped : stops (probe mask start last) = true)
    (passed : ∀ count, first ≤ count → count < last → stops (probe mask start count) = false) :
    probeFrom stops mask fuel (probe mask start first) first = some (probe mask start last) := by
  induction fuel generalizing first with
  | zero => omega
  | succ fuel ih =>
      rw [probeFrom]
      by_cases here : first = last
      · subst here
        rw [if_pos stopped]
      · have before : first < last := by omega
        have goesOn := passed first (Nat.le_refl first) before
        rw [goesOn, if_neg Bool.false_ne_true]
        exact ih before (by omega) (fun count above below => passed count (by omega) below)

/-- A search ends when some slot stops it. -/
theorem exists_probeFrom_eq {power slot : Nat} (isPower : mask + 1 = 2 ^ power)
    (inside : slot < 2 ^ power) (stopped : stops slot = true) :
    ∃ last, probeFrom stops mask (2 ^ power) (start &&& mask) 0 = some (probe mask start last) ∧
      stops (probe mask start last) = true ∧
      ∀ count < last, stops (probe mask start count) = false := by
  obtain ⟨count, near, visited⟩ : ∃ count < 2 ^ power, probe mask start count = slot :=
    exists_probe_eq isPower inside
  have stopsThere : ∃ count, stops (probe mask start count) = true :=
    ⟨count, by rw [visited, stopped]⟩
  have isFirst : Nat.find stopsThere ≤ count := Nat.find_min' stopsThere (by rw [visited, stopped])
  have passed : ∀ earlier < Nat.find stopsThere, stops (probe mask start earlier) = false := by
    intro earlier before
    exact Bool.eq_false_iff.mpr (Nat.find_min stopsThere before)
  refine ⟨Nat.find stopsThere, ?_, Nat.find_spec stopsThere, passed⟩
  exact probeFrom_eq (Nat.zero_le _) (by omega) (Nat.find_spec stopsThere)
    (fun earlier _ before => passed earlier before)

end

/-! ### A table of positions -/

/-- Entries by position, beside an index table that maps slots to positions. -/
structure ProbeTable (K : Type) where
  entries : List K
  indices : List (Option Nat)
  mask : Nat

namespace ProbeTable

section

variable {K : Type} [DecidableEq K]

def stopsAt (table : ProbeTable K) (key : K) (slot : Nat) : Bool :=
  match table.indices.getD slot none with
  | none => true
  | some index => decide (table.entries[index]? = some key)

def findSlot (hash : K → Nat) (table : ProbeTable K) (key : K) : Option Nat :=
  probeFrom (table.stopsAt key) table.mask table.indices.length (hash key &&& table.mask) 0

/-- The position of a key; the outer `none` is a search without an end. -/
def find (hash : K → Nat) (table : ProbeTable K) (key : K) : Option (Option Nat) :=
  (table.findSlot hash key).map (fun slot => table.indices.getD slot none)

end

section

variable {K : Type}

/-- Puts a position into the first free slot of its key. -/
def place (hash : K → Nat) (mask : Nat) (indices : List (Option Nat)) (entry : K × Nat) :
    Option (List (Option Nat)) :=
  (probeFrom (fun slot => (indices.getD slot none).isNone) mask indices.length
    (hash entry.1 &&& mask) 0).map (fun slot => indices.set slot (some entry.2))

def rebuild (hash : K → Nat) (entries : List K) (size : Nat) : Option (ProbeTable K) :=
  (entries.zipIdx.foldlM (place hash (size - 1)) (List.replicate size none)).map (fun indices =>
    { entries := entries, indices := indices, mask := size - 1 })

/-- What a search relies on. -/
structure Holds (hash : K → Nat) (table : ProbeTable K) : Prop where
  power : ∃ power, table.indices.length = 2 ^ power ∧ table.mask + 1 = 2 ^ power
  distinct : table.entries.Nodup
  occupied : table.indices.countP Option.isSome = table.entries.length
  bounded : ∀ slot index : Nat, table.indices[slot]? = some (some index) → index < table.entries.length
  reachable : ∀ (index : Nat) key, table.entries[index]? = some key →
    ∃ count, table.indices[probe table.mask (hash key) count]? = some (some index) ∧
      ∀ earlier < count, ∃ other,
        table.indices[probe table.mask (hash key) earlier]? = some (some other)

variable {hash : K → Nat} {table : ProbeTable K}

private theorem getD_eq {slot : Nat} {found : Option Nat} {indices : List (Option Nat)}
    (held : indices[slot]? = some found) : indices.getD slot none = found := by
  rw [List.getD_eq_getElem?_getD, held, Option.getD_some]

theorem Holds.exists_free (holds : table.Holds hash)
    (room : table.entries.length < table.indices.length) :
    ∃ slot < table.indices.length, table.indices[slot]? = some none := by
  have notAll : ¬∀ entry ∈ table.indices, Option.isSome entry = true := by
    intro all
    have full := List.countP_eq_length.mpr all
    rw [holds.occupied] at full
    omega
  push Not at notAll
  obtain ⟨entry, member, isNone⟩ := notAll
  obtain ⟨slot, inside, found⟩ := List.mem_iff_getElem.mp member
  refine ⟨slot, inside, ?_⟩
  rw [List.getElem?_eq_getElem inside, found]
  cases entry with
  | none => rfl
  | some index => exact absurd rfl isNone

theorem Holds.probe_inside (holds : table.Holds hash) (start count : Nat) :
    ∃ held, table.indices[probe table.mask start count]? = some held := by
  obtain ⟨power, isLength, isPower⟩ := holds.power
  have inside : probe table.mask start count < table.indices.length := by
    rw [isLength]
    exact probe_lt isPower count
  exact ⟨_, List.getElem?_eq_getElem inside⟩

/-- An insertion into the first free slot of a new key. -/
theorem Holds.insert (holds : table.Holds hash) {key : K} {last : Nat}
    (isNew : key ∉ table.entries)
    (free : table.indices[probe table.mask (hash key) last]? = some none)
    (passed : ∀ earlier < last, ∃ other,
      table.indices[probe table.mask (hash key) earlier]? = some (some other)) :
    Holds hash
      { entries := table.entries ++ [key]
        indices := table.indices.set (probe table.mask (hash key) last) (some table.entries.length)
        mask := table.mask } := by
  obtain ⟨inside, isFree⟩ := List.getElem?_eq_some_iff.mp free
  have other : ∀ {slot index : Nat}, table.indices[slot]? = some (some index) →
      (table.indices.set (probe table.mask (hash key) last) (some table.entries.length))[slot]? =
        some (some index) := by
    intro slot index held
    have different : probe table.mask (hash key) last ≠ slot := by
      rintro rfl
      rw [held] at free
      cases free
    rw [List.getElem?_set_ne different, held]
  have here : (table.indices.set (probe table.mask (hash key) last)
      (some table.entries.length))[probe table.mask (hash key) last]? =
        some (some table.entries.length) := by
    rw [List.getElem?_set_self inside]
  constructor
  · obtain ⟨power, isLength, isPower⟩ := holds.power
    exact ⟨power, by rw [List.length_set, isLength], isPower⟩
  · exact List.nodup_append.mpr ⟨holds.distinct, List.nodup_singleton key, by
      intro left present right isKey
      rw [List.mem_singleton.mp isKey]
      rintro rfl
      exact isNew present⟩
  · rw [List.countP_set inside, isFree, holds.occupied]
    simp
  · intro slot index held
    change (table.indices.set _ _)[slot]? = _ at held
    rw [List.length_append, List.length_singleton]
    by_cases same : probe table.mask (hash key) last = slot
    · rw [← same, here] at held
      have isLast : table.entries.length = index := by simpa using held
      omega
    · rw [List.getElem?_set_ne same] at held
      have := holds.bounded slot index held
      omega
  · intro index found listed
    change (table.entries ++ [key])[index]? = some found at listed
    rcases Nat.lt_or_ge index table.entries.length with old | new
    · rw [List.getElem?_append_left old] at listed
      obtain ⟨count, held, before⟩ := holds.reachable index found listed
      refine ⟨count, other held, ?_⟩
      intro earlier less
      obtain ⟨index, heldThere⟩ := before earlier less
      exact ⟨index, other heldThere⟩
    · have isLast : index = table.entries.length := by
        have bound := (List.getElem?_eq_some_iff.mp listed).1
        rw [List.length_append, List.length_singleton] at bound
        omega
      subst isLast
      have isKey : key = found := by simpa using listed
      subst isKey
      refine ⟨last, here, ?_⟩
      intro earlier less
      obtain ⟨index, heldThere⟩ := passed earlier less
      exact ⟨index, other heldThere⟩

theorem holds_empty (power : Nat) :
    Holds hash { entries := [], indices := List.replicate (2 ^ power) none, mask := 2 ^ power - 1 } := by
  have positive : 0 < 2 ^ power := by positivity
  constructor
  · exact ⟨power, by rw [List.length_replicate], by show 2 ^ power - 1 + 1 = _; omega⟩
  · exact List.nodup_nil
  · show (List.replicate (2 ^ power) none).countP Option.isSome = 0
    rw [List.countP_replicate]
    rfl
  · intro slot index held
    have member := List.mem_of_getElem? held
    cases List.eq_of_mem_replicate member
  · intro index key listed
    cases listed

/-- The same entries in another order, with each position in the index table replaced by the
new one. -/
theorem Holds.relabel (holds : table.Holds hash) {entries : List K} (perm : entries.Perm table.entries)
    {moved : Nat → Nat}
    (isMoved : ∀ index < table.entries.length, entries[moved index]? = table.entries[index]?) :
    Holds hash
      { entries := entries
        indices := table.indices.map (Option.map moved)
        mask := table.mask } := by
  have distinct : entries.Nodup := perm.nodup_iff.mpr holds.distinct
  have relabelled : ∀ {slot index : Nat}, table.indices[slot]? = some (some index) →
      (table.indices.map (Option.map moved))[slot]? = some (some (moved index)) := by
    intro slot index held
    rw [List.getElem?_map, held]
    rfl
  constructor
  · obtain ⟨power, isLength, isPower⟩ := holds.power
    exact ⟨power, by rw [List.length_map, isLength], isPower⟩
  · exact distinct
  · show (table.indices.map (Option.map moved)).countP Option.isSome = entries.length
    rw [perm.length_eq, ← holds.occupied, List.countP_map]
    refine List.countP_congr ?_
    intro held _
    rw [Function.comp_apply, Option.isSome_map]
  · intro slot index held
    change (table.indices.map (Option.map moved))[slot]? = _ at held
    rw [List.getElem?_map, Option.map_eq_some_iff] at held
    obtain ⟨before, isBefore, isIndex⟩ := held
    obtain ⟨old, rfl, rfl⟩ := Option.map_eq_some_iff.mp isIndex
    have inside := holds.bounded slot old isBefore
    have there := isMoved old inside
    rw [List.getElem?_eq_getElem inside] at there
    exact (List.getElem?_eq_some_iff.mp there).1
  · intro index key listed
    change entries[index]? = some key at listed
    obtain ⟨old, wasThere⟩ :=
      List.mem_iff_getElem?.mp (perm.mem_iff.mp (List.mem_of_getElem? listed))
    have inside := (List.getElem?_eq_some_iff.mp wasThere).1
    have isIndex : index = moved old :=
      (List.getElem?_inj (List.getElem?_eq_some_iff.mp listed).1 distinct).mp
        (listed.trans ((isMoved old inside).trans wasThere).symm)
    obtain ⟨count, held, before⟩ := holds.reachable old key wasThere
    refine ⟨count, ?_, ?_⟩
    · rw [isIndex]
      exact relabelled held
    · intro earlier less
      obtain ⟨other, heldThere⟩ := before earlier less
      exact ⟨moved other, relabelled heldThere⟩

theorem idxOf?_eq_some_iff_of_nodup [DecidableEq K] {entries : List K} (distinct : entries.Nodup) {key : K}
    {index : Nat} : entries.idxOf? key = some index ↔ entries[index]? = some key := by
  rw [List.idxOf?_eq_some_iff, List.getElem?_eq_some_iff]
  constructor
  · rintro ⟨inside, isKey, _⟩
    exact ⟨inside, isKey⟩
  · rintro ⟨inside, isKey⟩
    refine ⟨inside, isKey, ?_⟩
    intro earlier before same
    have equal := (distinct.getElem_inj_iff).mp (same.trans isKey.symm)
    omega

theorem Holds.place_eq (holds : table.Holds hash)
    (room : table.entries.length < table.indices.length) {key : K} (absent : key ∉ table.entries) :
    ∃ indices, place hash table.mask table.indices (key, table.entries.length) = some indices ∧
      indices.length = table.indices.length ∧
      Holds hash { entries := table.entries ++ [key], indices := indices, mask := table.mask } := by
  obtain ⟨power, isLength, isPower⟩ := holds.power
  obtain ⟨slot, inside, isFree⟩ := holds.exists_free room
  obtain ⟨last, found, stopped, passed⟩ :
      ∃ last, probeFrom (fun slot => (table.indices.getD slot none).isNone) table.mask (2 ^ power)
          (hash key &&& table.mask) 0 = some (probe table.mask (hash key) last) ∧
        (table.indices.getD (probe table.mask (hash key) last) none).isNone = true ∧
        ∀ count < last,
          (table.indices.getD (probe table.mask (hash key) count) none).isNone = false := by
    refine exists_probeFrom_eq isPower (isLength ▸ inside) ?_
    rw [getD_eq isFree, Option.isNone_none]
  have isPlaced : place hash table.mask table.indices (key, table.entries.length) =
      some (table.indices.set (probe table.mask (hash key) last) (some table.entries.length)) := by
    rw [place, isLength, found, Option.map_some]
  refine ⟨_, isPlaced, List.length_set, holds.insert absent ?_ ?_⟩
  · obtain ⟨held, isHeld⟩ := holds.probe_inside (hash key) last
    rw [getD_eq isHeld, Option.isNone_iff_eq_none] at stopped
    rw [isHeld, stopped]
  · intro earlier less
    obtain ⟨held, isHeld⟩ := holds.probe_inside (hash key) earlier
    have taken := passed earlier less
    rw [getD_eq isHeld] at taken
    cases held with
    | none => cases taken
    | some other => exact ⟨other, isHeld⟩

/-- Every list of distinct entries has an index table of any larger power of two. -/
theorem exists_rebuild {entries : List K} {power : Nat} (distinct : entries.Nodup)
    (room : entries.length < 2 ^ power) :
    ∃ table, rebuild hash entries (2 ^ power) = some table ∧ table.Holds hash ∧
      table.entries = entries ∧ table.indices.length = 2 ^ power := by
  suffices placed : ∃ indices,
      entries.zipIdx.foldlM (place hash (2 ^ power - 1)) (List.replicate (2 ^ power) none) =
          some indices ∧ indices.length = 2 ^ power ∧
        Holds hash { entries := entries, indices := indices, mask := 2 ^ power - 1 } by
    obtain ⟨indices, found, isLength, holds⟩ := placed
    exact ⟨_, by rw [rebuild, found, Option.map_some], holds, rfl, isLength⟩
  induction entries using List.reverseRecOn with
  | nil => exact ⟨_, rfl, List.length_replicate, holds_empty power⟩
  | append_singleton before key ih =>
      rw [List.length_append, List.length_singleton] at room
      obtain ⟨isBefore, _, apart⟩ := List.nodup_append.mp distinct
      obtain ⟨indices, found, isLength, holds⟩ := ih isBefore (by omega)
      have absent : key ∉ before := by
        intro present
        exact apart key present key (List.mem_singleton_self key) rfl
      have roomBefore : before.length < indices.length := by omega
      obtain ⟨later, isPlaced, sameLength, holdsLater⟩ := holds.place_eq roomBefore absent
      refine ⟨later, ?_, sameLength.trans isLength, holdsLater⟩
      rw [List.zipIdx_append, List.foldlM_append, found, Nat.zero_add]
      exact congrArg (fun placed => placed >>= pure) isPlaced

/-- Whatever the index table holds, a position that is found is one of the key. -/
theorem getElem?_of_find [DecidableEq K] {key : K} {index : Nat}
    (found : table.find hash key = some (some index)) : table.entries[index]? = some key := by
  obtain ⟨slot, isSlot, held⟩ := Option.map_eq_some_iff.mp found
  have stopped := stops_of_probeFrom isSlot
  rw [stopsAt, held] at stopped
  exact of_decide_eq_true stopped

section

variable [DecidableEq K] (holds : table.Holds hash)

include holds

/-- The search for an entry ends at a slot with its position. -/
theorem Holds.findSlot_of_listed {index : Nat} {key : K}
    (listed : table.entries[index]? = some key) :
    ∃ slot, table.findSlot hash key = some slot ∧ table.indices[slot]? = some (some index) := by
  obtain ⟨power, isLength, isPower⟩ := holds.power
  obtain ⟨count, held, before⟩ := holds.reachable index key listed
  have stopsThere : table.stopsAt key (probe table.mask (hash key) count) = true := by
    rw [stopsAt, getD_eq held]
    exact decide_eq_true listed
  obtain ⟨last, found, stopped, passed⟩ := exists_probeFrom_eq isPower
    (probe_lt isPower count) stopsThere
  have isSlot : table.findSlot hash key = some (probe table.mask (hash key) last) := by
    rw [findSlot, isLength, found]
  refine ⟨_, isSlot, ?_⟩
  rcases Nat.lt_trichotomy last count with earlier | rfl | later
  · -- the slot holds an entry, and no other entry is equal to the key
    obtain ⟨other, heldThere⟩ := before last earlier
    rw [stopsAt, getD_eq heldThere] at stopped
    have sameKey : table.entries[other]? = some key := of_decide_eq_true stopped
    have isIndex : other = index :=
      (List.getElem?_inj (List.getElem?_eq_some_iff.mp sameKey).1 holds.distinct).mp
        (sameKey.trans listed.symm)
    rw [heldThere, isIndex]
  · exact held
  · rw [passed count later] at stopsThere
    cases stopsThere

/-- The search for anything else ends at the first free slot. -/
theorem Holds.findSlot_of_absent (room : table.entries.length < table.indices.length) {key : K}
    (absent : key ∉ table.entries) :
    ∃ last, table.findSlot hash key = some (probe table.mask (hash key) last) ∧
      table.indices[probe table.mask (hash key) last]? = some none ∧
      ∀ earlier < last, ∃ other,
        table.indices[probe table.mask (hash key) earlier]? = some (some other) := by
  obtain ⟨power, isLength, isPower⟩ := holds.power
  obtain ⟨slot, inside, isFree⟩ := holds.exists_free room
  have stopsThere : table.stopsAt key slot = true := by
    rw [stopsAt, getD_eq isFree]
  obtain ⟨last, found, stopped, passed⟩ := exists_probeFrom_eq isPower (isLength ▸ inside)
    stopsThere
  have isSlot : table.findSlot hash key = some (probe table.mask (hash key) last) := by
    rw [findSlot, isLength, found]
  refine ⟨last, isSlot, ?_, ?_⟩
  · obtain ⟨held, isHeld⟩ := holds.probe_inside (hash key) last
    cases held with
    | none => exact isHeld
    | some other =>
        rw [stopsAt, getD_eq isHeld] at stopped
        have sameKey : table.entries[other]? = some key := of_decide_eq_true stopped
        exact absurd (List.mem_of_getElem? sameKey) absent
  · intro earlier less
    obtain ⟨held, isHeld⟩ := holds.probe_inside (hash key) earlier
    cases held with
    | some other => exact ⟨other, isHeld⟩
    | none =>
        have stops := passed earlier less
        rw [stopsAt, getD_eq isHeld] at stops
        cases stops

theorem Holds.find_eq (room : table.entries.length < table.indices.length) (key : K) :
    table.find hash key = some (table.entries.idxOf? key) := by
  by_cases present : key ∈ table.entries
  · obtain ⟨index, inside, isKey⟩ := List.mem_iff_getElem.mp present
    have listed : table.entries[index]? = some key := by
      rw [List.getElem?_eq_getElem inside, isKey]
    obtain ⟨slot, found, held⟩ := holds.findSlot_of_listed listed
    rw [find, found, Option.map_some, getD_eq held,
      (idxOf?_eq_some_iff_of_nodup holds.distinct).mpr listed]
  · obtain ⟨last, found, isFree, _⟩ := holds.findSlot_of_absent room present
    rw [find, found, Option.map_some, getD_eq isFree, List.idxOf?_eq_none_iff.mpr present]

end

end

end ProbeTable

end Library
