/-
This file is about lists of writes to a map. A write puts a value under a key or
deletes the key, and the last write to a key decides what is there. The overlay
of a list of writes on a map is the map after all of them. Lists of writes are
compared by their last writes, so that it does not matter how a program collects
the writes before it applies them. The second half moves a batch of entries from
one map to another one while a caller writes to both: seen as one map, the two
change by the caller's writes only.
-/

import Mathlib.Data.List.Basic

namespace SeiChain.Library

open List Function

variable {Key Value : Type}

/-- Put a value under a key, or delete the key. -/
structure KeyWrite (Key Value : Type) where
  key : Key
  value : Option Value
  deriving DecidableEq, Repr

variable [DecidableEq Key]

/-- What the last write to `key` leaves there, if there is one. -/
def lastWrite : List (KeyWrite Key Value) → Key → Option (Option Value)
  | [], _ => none
  | write :: rest, key =>
    (lastWrite rest key).or (if write.key = key then some write.value else none)

/-- The map `base` after the writes. -/
def overlay (base : Key → Option Value) (writes : List (KeyWrite Key Value)) (key : Key) :
    Option Value :=
  (lastWrite writes key).getD (base key)

variable {first second writes : List (KeyWrite Key Value)} {key : Key} {base : Key → Option Value}

@[simp]
theorem lastWrite_nil : lastWrite ([] : List (KeyWrite Key Value)) key = none := rfl

theorem lastWrite_append :
    lastWrite (first ++ second) key = (lastWrite second key).or (lastWrite first key) := by
  induction first with
  | nil => simp [lastWrite]
  | cons write rest ih =>
    rw [cons_append, lastWrite, lastWrite, ih, Option.or_assoc]

/-- A key without a write among the chosen ones, where the choice depends on the key. -/
theorem lastWrite_filter (chosen : Key → Bool) :
    lastWrite (writes.filter fun write => chosen write.key) key =
      if chosen key then lastWrite writes key else none := by
  induction writes with
  | nil => simp [lastWrite]
  | cons write =>
    by_cases same : write.key = key
    · cases isChosen : chosen write.key with
      | true => simp_all [lastWrite]
      | false => simp_all
    · cases isChosen : chosen write.key with
      | true => simp_all [lastWrite]
      | false => simp_all [lastWrite]

theorem lastWrite_eq_none_iff :
    lastWrite writes key = none ↔ ∀ write ∈ writes, write.key ≠ key := by
  induction writes with
  | nil => simp
  | cons write rest ih => simp [lastWrite, ih, and_comm]

/-- The last write to a key is in the list. -/
theorem exists_of_lastWrite {value : Option Value} (found : lastWrite writes key = some value) :
    ∃ write ∈ writes, write.key = key ∧ write.value = value := by
  induction writes with
  | nil => cases found
  | cons write rest ih =>
    rw [lastWrite, Option.or_eq_some_iff] at found
    rcases found with later | ⟨_, here⟩
    · obtain ⟨other, member, isOther⟩ := ih later
      exact ⟨other, .tail _ member, isOther⟩
    · obtain ⟨same, ⟨⟩⟩ := Option.ite_none_right_eq_some.mp here
      exact ⟨write, .head _, same, rfl⟩

/-- Where all writes to a key agree, the last one is any of them. -/
theorem lastWrite_eq_some {write : KeyWrite Key Value} (member : write ∈ writes)
    (agree : ∀ other ∈ writes, other.key = write.key → other.value = write.value) :
    lastWrite writes write.key = some write.value := by
  cases found : lastWrite writes write.key with
  | none => exact absurd rfl (lastWrite_eq_none_iff.mp found write member)
  | some =>
    obtain ⟨other, otherMember, sameKey, rfl⟩ := exists_of_lastWrite found
    rw [agree other otherMember sameKey]

theorem overlay_append : overlay base (first ++ second) = overlay (overlay base first) second := by
  funext key
  rw [overlay, overlay, lastWrite_append]
  cases lastWrite second key <;> rfl

theorem overlay_cons {write : KeyWrite Key Value} :
    overlay base (write :: writes) = overlay (update base write.key write.value) writes := by
  have single : overlay base [write] = update base write.key write.value := by
    funext key
    by_cases same : write.key = key
    · subst same
      simp [overlay, lastWrite]
    · simp [overlay, lastWrite, same, update_of_ne (Ne.symm same)]
  rw [← single, ← overlay_append]
  rfl

/-- Two lists with the same last writes have the same effect. -/
theorem overlay_congr (same : ∀ key, lastWrite first key = lastWrite second key) :
    overlay base first = overlay base second := by
  funext key
  rw [overlay, overlay, same]

/-! ### Moving entries to another map -/

/-- The writes that delete a batch of entries. -/
def deletions (batch : List (Key × Value)) : List (KeyWrite Key Value) :=
  batch.map fun entry => ⟨entry.1, none⟩

/-- The writes that put a batch of entries. -/
def copies (batch : List (Key × Value)) : List (KeyWrite Key Value) :=
  batch.map fun entry => ⟨entry.1, some entry.2⟩

variable {batch : List (Key × Value)} {value : Value} {old new : Key → Option Value}

theorem lastWrite_deletions_of_mem (member : (key, value) ∈ batch) :
    lastWrite (deletions batch) key = some none := by
  have isWrite : (⟨key, none⟩) ∈ deletions batch := mem_map.mpr ⟨(key, value), member, rfl⟩
  refine lastWrite_eq_some isWrite fun other isOther _ => ?_
  obtain ⟨_, _, rfl⟩ := mem_map.mp isOther
  rfl

theorem lastWrite_copies_of_mem (member : (key, value) ∈ batch)
    (single : ∀ other, (key, other) ∈ batch → other = value) :
    lastWrite (copies batch) key = some (some value) := by
  have isWrite : (⟨key, some value⟩) ∈ copies batch := mem_map.mpr ⟨(key, value), member, rfl⟩
  refine lastWrite_eq_some isWrite fun other isOther sameKey => ?_
  obtain ⟨⟨otherKey, otherValue⟩, isEntry, rfl⟩ := mem_map.mp isOther
  cases sameKey
  rw [single otherValue isEntry]

/-- A stable sort that does not tell entries of one key apart leaves what is written last. -/
theorem lastWrite_copies_mergeSort {le : Key × Value → Key × Value → Bool}
    (trans : ∀ first second third, le first second → le second third → le first third)
    (total : ∀ first second, le first second || le second first)
    (sameKey : ∀ first second : Key × Value, first.1 = second.1 → le first second) :
    lastWrite (copies (batch.mergeSort le)) key = lastWrite (copies batch) key := by
  have filtered : (batch.mergeSort le).filter (·.1 = key) = batch.filter (·.1 = key) := by
    have pairwise : (batch.filter (·.1 = key)).Pairwise fun first second => le first second := by
      refine pairwise_of_forall_mem_list fun first isFirst second isSecond =>
        sameKey first second ?_
      rw [of_decide_eq_true (mem_filter.mp isFirst).2, of_decide_eq_true (mem_filter.mp isSecond).2]
    have sublist := (sublist_mergeSort trans total pairwise filter_sublist).filter
      fun entry => decide (entry.1 = key)
    simp only [filter_filter, Bool.and_self] at sublist
    exact (sublist.eq_of_length ((mergeSort_perm batch le).filter _).length_eq.symm).symm
  have restricted : ∀ entries : List (Key × Value), lastWrite (copies entries) key =
      lastWrite (copies (entries.filter (·.1 = key))) key := by
    intro entries
    have kept : lastWrite ((copies entries).filter fun write => write.key = key) key =
        lastWrite (copies entries) key := by
      rw [lastWrite_filter fun other => decide (other = key), if_pos (by simp)]
    rw [copies, filter_map] at kept
    exact kept.symm
  rw [restricted, filtered, ← restricted]

theorem lastWrite_batch_of_not_mem (absent : ∀ value, (key, value) ∉ batch) :
    lastWrite (deletions batch) key = none ∧ lastWrite (copies batch) key = none := by
  constructor
  all_goals
    refine lastWrite_eq_none_iff.mpr fun write isWrite sameKey => ?_
    obtain ⟨entry, isEntry, rfl⟩ := mem_map.mp isWrite
    cases sameKey
    exact absent entry.2 isEntry

/-- When a batch moves from `old` to `new` and the caller's writes go to `new` where `toNew` says
so, what there is at a key. -/
structure MovedAt (old new : Key → Option Value) (toNew : Key → Bool)
    (batch : List (Key × Value)) (writes : List (KeyWrite Key Value)) (key : Key) : Prop where
  union : (overlay old (deletions batch ++ writes.filter fun write => !toNew write.key) key).or
      (overlay new (copies batch ++ writes.filter fun write => toNew write.key) key) =
    overlay (fun key => (old key).or (new key)) writes key
  disjoint : overlay old (deletions batch ++ writes.filter fun write => !toNew write.key) key =
      none ∨
    overlay new (copies batch ++ writes.filter fun write => toNew write.key) key = none
  gone : toNew key = true →
    overlay old (deletions batch ++ writes.filter fun write => !toNew write.key) key = none

/-- The two maps change by the caller's writes only, if the batch holds what is in `old` where
writes go to `new`, and nothing where writes go to `old`. -/
theorem movedAt {toNew : Key → Bool} (live : ∀ value, (key, value) ∈ batch → old key = some value)
    (moved : toNew key = true → ∀ value, old key = some value → (key, value) ∈ batch)
    (kept : toNew key = false → (old key).isSome ∧ ∀ value, (key, value) ∉ batch)
    (disjoint : old key = none ∨ new key = none) :
    MovedAt old new toNew batch writes key := by
  have oldWrites : lastWrite (writes.filter fun write => !toNew write.key) key =
      if !toNew key then lastWrite writes key else none :=
    lastWrite_filter fun key => !toNew key
  have newWrites : lastWrite (writes.filter fun write => toNew write.key) key =
      if toNew key then lastWrite writes key else none :=
    lastWrite_filter toNew
  cases isNew : toNew key with
  | false =>
    obtain ⟨isLive, absent⟩ := kept isNew
    obtain ⟨value, isValue⟩ := Option.isSome_iff_exists.mp isLive
    obtain ⟨noDeletion, noCopy⟩ := lastWrite_batch_of_not_mem absent
    have notNew : new key = none := disjoint.resolve_left (by simp [isValue])
    constructor <;> simp [overlay, lastWrite_append, oldWrites, newWrites, isNew, noDeletion,
      noCopy, notNew, isValue]
  | true =>
    cases isOld : old key with
    | none =>
      have absent : ∀ value, (key, value) ∉ batch := by
        intro value member
        cases (live value member).symm.trans isOld
      obtain ⟨noDeletion, noCopy⟩ := lastWrite_batch_of_not_mem absent
      constructor <;> simp [overlay, lastWrite_append, oldWrites, newWrites, isNew, noDeletion,
        noCopy, isOld]
    | some value =>
      have member := moved isNew value isOld
      have deleted := lastWrite_deletions_of_mem member
      have copied := lastWrite_copies_of_mem member fun other isOther =>
        Option.some.inj ((live other isOther).symm.trans isOld)
      constructor <;> simp [overlay, lastWrite_append, oldWrites, newWrites, isNew, deleted,
        copied, isOld]

end SeiChain.Library
