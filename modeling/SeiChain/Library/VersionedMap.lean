/-
This file is about maps that keep their history. Every change of such a map has
a version, and what it writes to a key is kept in a row of that key and that
version. Reading a key at a version takes the newest row that is not newer. The
meaning of a list of changes is the map after those changes that are not newer
than the version that is asked for, and the rows of a list of changes in order
of their versions show exactly that.
-/

import Mathlib.Data.List.Induction
import SeiChain.Library.WriteLog

namespace SeiChain.Library

open List

variable {Key Value : Type}

/-- What was written under a key at a version. A row without a value is a deletion. -/
abbrev Rows (Key Value : Type) := Key × Nat → Option (Option Value)

/-- The value of the newest row of `key` that is not newer than `version`. -/
def Rows.read (rows : Rows Key Value) (key : Key) : Nat → Option Value
  | 0 => (rows (key, 0)).join
  | version + 1 =>
    match rows (key, version + 1) with
    | some value => value
    | none => rows.read key version

/-- The writes of one version. -/
structure VersionedChange (Key Value : Type) where
  version : Nat
  writes : List (KeyWrite Key Value)
  deriving DecidableEq, Repr

/-- The rows that a change puts. -/
def VersionedChange.rowWrites (change : VersionedChange Key Value) :
    List (KeyWrite (Key × Nat) (Option Value)) :=
  change.writes.map fun write => ⟨(write.key, change.version), some write.value⟩

variable [DecidableEq Key]

/-- Put the rows of a change. -/
def Rows.put (rows : Rows Key Value) (change : VersionedChange Key Value) : Rows Key Value :=
  overlay rows change.rowWrites

variable (changes : List (VersionedChange Key Value))

/-- The rows of a list of changes. -/
def rowsOf : Rows Key Value := changes.foldl Rows.put fun _ => none

/-- What the changes up to `version` leave under `key`. -/
def valueAt (version : Nat) (key : Key) : Option Value :=
  overlay (fun _ => none)
    ((changes.filter fun change => change.version ≤ version).flatMap VersionedChange.writes) key

/-- Changes in the order of their versions. -/
def InOrder : Prop := changes.Pairwise fun first second => first.version ≤ second.version

variable {rows other : Rows Key Value} {change : VersionedChange Key Value} {key : Key}
  {changes : List (VersionedChange Key Value)} {version : Nat}

/-! ### Reading rows -/

omit [DecidableEq Key] in
theorem Rows.read_congr (same : ∀ old ≤ version, rows (key, old) = other (key, old)) :
    rows.read key version = other.read key version := by
  induction version with
  | zero => rw [Rows.read, Rows.read, same 0 (Nat.le_refl 0)]
  | succ version ih =>
    rw [Rows.read, Rows.read, same (version + 1) (Nat.le_refl _),
      ih fun old older => same old (Nat.le_succ_of_le older)]

omit [DecidableEq Key] in
/-- The newest row decides. -/
theorem Rows.read_of_newest {newest : Nat} {value : Option Value} (notNewer : newest ≤ version)
    (found : rows (key, newest) = some value)
    (none_above : ∀ later, newest < later → later ≤ version → rows (key, later) = none) :
    rows.read key version = value := by
  induction version with
  | zero =>
    cases Nat.le_zero.mp notNewer
    rw [Rows.read, found, Option.join_some]
  | succ version ih =>
    rcases Nat.le_succ_iff.mp notNewer with older | rfl
    · rw [Rows.read, none_above (version + 1) (Nat.lt_succ_of_le older) (Nat.le_refl _)]
      exact ih older fun later isLater notNewer =>
        none_above later isLater (Nat.le_succ_of_le notNewer)
    · rw [Rows.read, found]

omit [DecidableEq Key] in
/-- What is read stands in some row. -/
theorem Rows.exists_of_read {value : Value} (found : rows.read key version = some value) :
    ∃ old ≤ version, rows (key, old) = some (some value) := by
  induction version with
  | zero =>
    rw [Rows.read, Option.join_eq_some_iff] at found
    exact ⟨0, Nat.le_refl _, found⟩
  | succ version ih =>
    rw [Rows.read] at found
    cases atVersion : rows (key, version + 1) with
    | some written =>
      rw [atVersion] at found
      exact ⟨version + 1, Nat.le_refl _, by rw [atVersion, ← found]⟩
    | none =>
      rw [atVersion] at found
      obtain ⟨old, older, written⟩ := ih found
      exact ⟨old, Nat.le_succ_of_le older, written⟩

omit [DecidableEq Key] in
theorem Rows.read_eq_none (empty : ∀ old ≤ version, rows (key, old) = none) :
    rows.read key version = none := by
  cases found : rows.read key version with
  | none => rfl
  | some =>
    obtain ⟨old, older, written⟩ := Rows.exists_of_read found
    rw [empty old older] at written
    cases written

/-! ### The rows of changes -/

theorem lastWrite_rowWrites :
    lastWrite change.rowWrites (key, version) =
      if change.version = version then (lastWrite change.writes key).map some else none := by
  obtain ⟨changed, writes⟩ := change
  simp only [VersionedChange.rowWrites]
  induction writes with
  | nil => simp
  | cons write rest ih =>
    rw [map_cons, lastWrite, ih, lastWrite]
    by_cases atVersion : changed = version
    · by_cases sameKey : write.key = key
      · simp only [atVersion, sameKey, if_true]
        cases lastWrite rest key <;> rfl
      · simp [atVersion, sameKey]
    · simp [atVersion]

theorem Rows.put_apply :
    rows.put change (key, version) =
      if change.version = version then
        ((lastWrite change.writes key).map some).getD (rows (key, version))
      else rows (key, version) := by
  rw [Rows.put, overlay, lastWrite_rowWrites]
  split <;> rfl

theorem rowsOf_append : rowsOf (changes ++ [change]) = (rowsOf changes).put change := by
  rw [rowsOf, foldl_append]
  rfl

/-- The rows of changes are those that some change writes. -/
theorem exists_rowsOf_iff : (∃ value, rowsOf changes (key, version) = some value) ↔
    ∃ change ∈ changes, change.version = version ∧ ∃ write ∈ change.writes, write.key = key := by
  induction changes using List.reverseRecOn with
  | nil => simp [rowsOf]
  | append_singleton rest last ih =>
    rw [rowsOf_append, Rows.put_apply]
    simp only [mem_append, mem_singleton, or_and_right, exists_or, exists_eq_left, ← ih]
    by_cases atVersion : last.version = version
    · cases written : lastWrite last.writes key with
      | none =>
        have untouched := lastWrite_eq_none_iff.mp written
        simpa [atVersion] using fun write member sameKey => absurd sameKey (untouched write member)
      | some value =>
        obtain ⟨write, member, sameKey, -⟩ := exists_of_lastWrite written
        simpa [atVersion] using Or.inr ⟨write, member, sameKey⟩
    · simp [atVersion]

theorem rowsOf_eq_none (others : ∀ change ∈ changes, change.version ≠ version) :
    rowsOf changes (key, version) = none := by
  refine Option.eq_none_iff_forall_ne_some.mpr fun value found => ?_
  obtain ⟨change, member, atVersion, -⟩ := exists_rowsOf_iff.mp ⟨value, found⟩
  exact others change member atVersion

omit [DecidableEq Key] in
theorem InOrder.dropLast (inOrder : InOrder (changes ++ [change])) :
    InOrder changes ∧ ∀ earlier ∈ changes, earlier.version ≤ change.version := by
  obtain ⟨front, -, before⟩ := pairwise_append.mp inOrder
  exact ⟨front, fun earlier member => before earlier member change mem_cons_self⟩

theorem valueAt_append :
    valueAt (changes ++ [change]) version key =
      if change.version ≤ version then
        (lastWrite change.writes key).getD (valueAt changes version key)
      else valueAt changes version key := by
  rw [valueAt, filter_append, flatMap_append, overlay_append]
  by_cases notNewer : change.version ≤ version
  · rw [if_pos notNewer, filter_cons_of_pos (by simpa using notNewer), filter_nil,
      flatMap_singleton]
    rfl
  · rw [if_neg notNewer, filter_cons_of_neg (by simpa using notNewer)]
    rfl

/-- Changes that are newer than the version asked for do not count. -/
theorem valueAt_append_newer {later : List (VersionedChange Key Value)}
    (newer : ∀ change ∈ later, version < change.version) :
    valueAt (changes ++ later) version key = valueAt changes version key := by
  have none_left : later.filter (fun change => change.version ≤ version) = [] :=
    filter_eq_nil_iff.mpr fun change member => by simpa using newer change member
  rw [valueAt, filter_append, none_left, append_nil, valueAt]

/-- The rows of changes in order show what the changes up to a version leave. -/
theorem read_rowsOf (inOrder : InOrder changes) :
    (rowsOf changes).read key version = valueAt changes version key := by
  induction changes using List.reverseRecOn with
  | nil =>
    induction version with
    | zero => rfl
    | succ version ih => exact ih
  | append_singleton rest last ih =>
    obtain ⟨restInOrder, before⟩ := inOrder.dropLast
    have shown := ih restInOrder
    rw [rowsOf_append, valueAt_append]
    cases written : lastWrite last.writes key with
    | none =>
      -- the last change does not touch the key: all its rows stay
      have untouched : ((rowsOf rest).put last).read key version =
          (rowsOf rest).read key version :=
        Rows.read_congr fun old _ => by
          rw [Rows.put_apply, written]
          exact ite_self _
      rw [untouched, shown]
      exact (ite_self _).symm
    | some =>
      by_cases notNewer : last.version ≤ version
      · rw [if_pos notNewer]
        refine Rows.read_of_newest notNewer ?_ fun later isLater _ => ?_
        · rw [Rows.put_apply, if_pos rfl, written]
          rfl
        · rw [Rows.put_apply, if_neg (Nat.ne_of_lt isLater)]
          exact rowsOf_eq_none fun earlier member =>
            Nat.ne_of_lt (Nat.lt_of_le_of_lt (before earlier member) isLater)
      · rw [if_neg notNewer, ← shown]
        refine Rows.read_congr fun old older => ?_
        rw [Rows.put_apply, if_neg]
        omega

end SeiChain.Library
