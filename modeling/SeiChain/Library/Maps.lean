/-
This file is about two kinds of maps. Maps with missing entries are functions to options that
are changed at one key at a time: an entry of a changed map is an entry of the map before. In
an ordered map a walk down stops first at the greatest entry that has a property.
-/

import Mathlib.Logic.Function.Basic
import Std.Data.ExtTreeMap

namespace SeiChain.Library

open Function Std List Std.ExtTreeMap

variable {Key Value : Type}

section

variable [DecidableEq Key] {map : Key → Option Value} {key other : Key} {entry : Option Value}
  {found : Value}

theorem update_eq_some (stored : update map key entry other = some found) :
    other = key ∧ entry = some found ∨ other ≠ key ∧ map other = some found := by
  rw [update_apply] at stored
  split at stored
  case isTrue same => exact .inl ⟨same, stored⟩
  case isFalse different => exact .inr ⟨different, stored⟩

theorem update_none_eq_some (stored : update map key none other = some found) :
    other ≠ key ∧ map other = some found :=
  (update_eq_some stored).resolve_left nofun

theorem isSome_update_none :
    (update map key none other).isSome ↔ other ≠ key ∧ (map other).isSome := by
  rw [update_apply]
  split <;> simp_all

end

variable [Ord Key] [TransOrd Key] [LawfulEqOrd Key]

/-- The greatest entry that is `chosen`. -/
def lastEntry (map : ExtTreeMap Key Value) (chosen : Key → Value → Bool) : Option (Key × Value) :=
  (map.toList.filter fun entry => chosen entry.1 entry.2).getLast?

variable {map : ExtTreeMap Key Value} {chosen : Key → Value → Bool} {key : Key} {value : Value}

theorem lastEntry_spec (found : lastEntry map chosen = some (key, value)) :
    map[key]? = some value ∧ chosen key value = true ∧
      ∀ other otherValue, map[other]? = some otherValue → chosen other otherValue = true →
        compare other key ≠ .gt := by
  obtain ⟨front, split⟩ := getLast?_eq_some_iff.mp found
  have last : (key, value) ∈ map.toList.filter fun entry => chosen entry.1 entry.2 := by
    rw [split]
    exact mem_append_right _ mem_cons_self
  obtain ⟨inMap, isChosen⟩ := mem_filter.mp last
  refine ⟨mem_toList_iff_getElem?_eq_some.mp inMap, isChosen, ?_⟩
  intro other otherValue isOther otherChosen
  have member : (other, otherValue) ∈ map.toList.filter fun entry => chosen entry.1 entry.2 :=
    mem_filter.mpr ⟨mem_toList_iff_getElem?_eq_some.mpr isOther, otherChosen⟩
  have ordered := ordered_keys_toList (t := map).filter fun entry => chosen entry.1 entry.2
  rw [split] at ordered member
  rcases mem_append.mp member with inFront | isLast
  · have before := (pairwise_append.mp ordered).2.2 _ inFront _ mem_cons_self
    rw [before]
    exact nofun
  · cases mem_singleton.mp isLast
    rw [compare_self]
    exact nofun

theorem lastEntry_eq_none (absent : lastEntry map chosen = none) (found : map[key]? = some value) :
    chosen key value = false := by
  rw [lastEntry, getLast?_eq_none_iff, filter_eq_nil_iff] at absent
  simpa using absent (key, value) (mem_toList_iff_getElem?_eq_some.mpr found)

end SeiChain.Library
