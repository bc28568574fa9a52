/-
This file follows an iterator over a list of keys. It only assumes what the seeks
do: seeking a key of the list finds its newest visible row, and advancing from a
key leads to the one that comes after it in the list. From that, an iterator that
is used up yields those keys of the list that have a value, in the order of the
list.
-/

import SeiChain.StateStore.Mvcc.Contents
import SeiChain.StateStore.Mvcc.Iterator

namespace SeiChain.StateStore.Mvcc

open Library List Iterator Library.Cursor

/-- The iterator with its source in some position. -/
def Iterator.placedAt (base : Iterator) (position : List (Bytes × Bytes)) (valid : Bool) :
    Iterator :=
  { base with source := { base.source with position }, valid }

variable {base itr : Iterator} {visiting : List Bytes} {shown : Bytes → Option Bytes}
  {ready : List (Bytes × Bytes) → Bytes → Prop} {position : List (Bytes × Bytes)} {key : Bytes}
  {before after keys : List Bytes} {fuel : Nat}

/-- The source stands on the row that decides what `key` shows. -/
def Shows (base : Iterator) (shown : Bytes → Option Bytes) (position : List (Bytes × Bytes))
    (key : Bytes) : Prop :=
  ∃ (entry : Entry) (rest : List (Bytes × Bytes)),
    position = entry.row base.descending :: rest ∧ entry.key = key ∧
    0 < entry.version ∧ entry.version ≤ maxInt64 ∧ entry.version ≤ base.version ∧
      entry.value = shown key

/-- What the seeks of an iterator do on a list of keys. `ready` says from which positions it can
advance. -/
structure Walk (base : Iterator) (visiting : List Bytes) (shown : Bytes → Option Bytes)
    (ready : List (Bytes × Bytes) → Bytes → Prop) : Prop where
  seek : ∀ key ∈ visiting, ∀ position valid, ∃ sought found,
    (base.placedAt position valid).seekVisibleVersionForKey key = base.placedAt sought found ∧
      ready sought key ∧
        (found = false ∧ shown key = none ∨ found = true ∧ Shows base shown sought key)
  advance : ∀ before key after, visiting = before ++ key :: after →
    ∀ position valid, ready position key → ∃ moved,
      base.advance (base.placedAt position valid) key = (base.placedAt moved valid, after.head?)
  fromStore : ∀ key ∈ visiting, base.storePrefix <+: key
  beforeEnd : ∀ key ∈ visiting, ∀ endKey ∈ base.endKey, key.drop base.storePrefix.length < endKey

/-- What the iterator yields for a list of keys. -/
def yielded (base : Iterator) (shown : Bytes → Option Bytes) (keys : List Bytes) :
    List (Bytes × Bytes) :=
  keys.filterMap fun key => (shown key).map fun value =>
    (key.drop base.storePrefix.length, value)

/-- The iterator stands on the first of `keys` that has a value, or is done if none has. -/
def Positioned (base : Iterator) (shown : Bytes → Option Bytes)
    (ready : List (Bytes × Bytes) → Bytes → Prop) (keys : List Bytes) (itr : Iterator) : Prop :=
  (∃ position, itr = base.placedAt position false ∧ ∀ key ∈ keys, shown key = none) ∨
    ∃ position skipped key rest, itr = base.placedAt position true ∧
      keys = skipped ++ key :: rest ∧ (∀ other ∈ skipped, shown other = none) ∧
        (shown key).isSome ∧ Shows base shown position key ∧ ready position key

/-! ### Reading the row -/

theorem splitMVCCKey_row {entry : Entry} {descending : Bool} (positive : 0 < entry.version) :
    splitMVCCKey (entry.row descending).1 =
      some (entry.key, encodeVersion descending entry.version) := by
  rw [Entry.row, splitMVCCKey_mvccEncode, versionBytes, if_pos positive]

section

variable (standing : Shows base shown position key)

include standing

theorem Shows.cursorTombstoned (valid : Bool) :
    (base.placedAt position valid).cursorTombstoned = .ok (shown key).isNone := by
  obtain ⟨entry, -, rfl, rfl, positive, fits, visible, value_eq⟩ := standing
  have nonempty : encodeVersion base.descending entry.version ≠ [] := ne_nil_of_length_pos (by simp)
  rw [← value_eq]
  cases value : entry.value with
  | some =>
    simp [cursorTombstoned, placedAt, current, Entry.row, value, versionBytes]
  | none =>
    simp [cursorTombstoned, placedAt, current, Entry.row, value,
      versionBytes, positive, nonempty, decode_encodeVersion fits, visible]

theorem Shows.key_eq (fromStore : base.storePrefix <+: key) :
    (base.placedAt position true).key = .ok (key.drop base.storePrefix.length) := by
  obtain ⟨entry, -, rfl, rfl, positive, -⟩ := standing
  have long : ¬ entry.key.length < base.storePrefix.length := not_lt.mpr fromStore.length_le
  simp [key, placedAt, current, splitMVCCKey_row positive, long]

theorem Shows.value_spec {value : Bytes} (hasValue : shown key = some value) :
    (base.placedAt position true).value = .ok value ∧
      ∀ row ∈ position.head?, valTombstoned row.2 = .ok false := by
  obtain ⟨entry, -, rfl, rfl, -, -, -, value_eq⟩ := standing
  rw [hasValue] at value_eq
  simp [Iterator.value, Iterator.placedAt, current, Entry.row, value_eq, valTombstoned,
    versionBytes]

theorem Shows.checkValid (fromStore : base.storePrefix <+: key)
    (beforeEnd : ∀ endKey ∈ base.endKey, key.drop base.storePrefix.length < endKey) :
    (base.placedAt position true).checkValid = .ok (base.placedAt position true) := by
  have keyRead := standing.key_eq fromStore
  obtain ⟨entry, rest, rfl, -⟩ := standing
  have sourceValid : (base.placedAt (entry.row base.descending :: rest) true).source.valid = true :=
    rfl
  unfold checkValid
  rw [sourceValid]
  cases ends : base.endKey with
  | none => simp [placedAt, ends]
  | some endKey =>
    have notPast : ¬ endKey ≤ key.drop base.storePrefix.length := not_le.mpr (beforeEnd endKey ends)
    have sameEnd : (base.placedAt (entry.row base.descending :: rest) true).endKey = some endKey :=
      ends
    rw [sameEnd, keyRead]
    simp [placedAt, notPast, bind, Except.bind, pure, Except.pure]

end

section

variable (walk : Walk base visiting shown ready)

include walk

theorem Positioned.checkValid (among : ∀ key ∈ keys, key ∈ visiting)
    (positioned : Positioned base shown ready keys itr) :
    itr.checkValid = .ok itr := by
  rcases positioned with ⟨position, rfl, -⟩ |
    ⟨position, skipped, key, rest, rfl, rfl, -, -, standing, -⟩
  · rfl
  · have visited : key ∈ visiting := among key (by simp)
    exact standing.checkValid (walk.fromStore key visited) (walk.beforeEnd key visited)

/-! ### Moving on -/

/-- Looking for a live key from some key on. -/
theorem Walk.positionFrom (split : visiting = before ++ key :: after) (enough : after.length < fuel)
    (position : List (Bytes × Bytes)) (valid : Bool) :
    ∃ itr, positionFrom base.advance fuel (base.placedAt position valid) key = .ok itr ∧
      Positioned base shown ready (key :: after) itr := by
  induction fuel generalizing before key after position valid with
  | zero => omega
  | succ fuel ih =>
    obtain ⟨sought, found, sought_eq, isReady, outcome⟩ :=
      walk.seek key (by simp [split]) position valid
    obtain ⟨moved, advance_eq⟩ := walk.advance before key after split sought found isReady
    -- a key without a value is skipped
    have skip (dead : shown key = none) {run : Except Failure Iterator} (run_eq : ∀ itr next,
        base.advance (base.placedAt sought found) key = (itr, next) → run =
          next.elim (.ok { itr with valid := false }) (positionFrom base.advance fuel itr)) :
        ∃ itr, run = .ok itr ∧ Positioned base shown ready (key :: after) itr := by
      rw [run_eq _ _ advance_eq]
      cases after with
      | nil =>
        refine ⟨_, rfl, .inl ⟨moved, rfl, ?_⟩⟩
        simpa using dead
      | cons next after =>
        obtain ⟨itr, found_eq, positioned⟩ := @ih next
          (before ++ [key]) after (by simp [split]) (by simpa using enough) moved found
        refine ⟨itr, found_eq, ?_⟩
        rcases positioned with ⟨position, rfl, allDead⟩ |
          ⟨position, skipped, live, rest, rfl, keys_eq, allDead, rest'⟩
        · exact .inl ⟨position, rfl, forall_mem_cons.mpr ⟨dead, allDead⟩⟩
        · refine .inr ⟨position, key :: skipped, live, rest, rfl, ?_, ?_, rest'⟩
          · rw [keys_eq, cons_append]
          · exact forall_mem_cons.mpr ⟨dead, allDead⟩
    rw [positionFrom, sought_eq]
    rcases outcome with ⟨rfl, dead⟩ | ⟨rfl, standing⟩
    · refine skip dead fun itr next advanced => ?_
      rw [advanced]
      cases next <;> rfl
    · have tombstoned := standing.cursorTombstoned true
      cases isShown : shown key with
      | none =>
        rw [isShown] at tombstoned
        refine skip isShown fun itr next advanced => ?_
        simp only [show (base.placedAt sought true).valid = true from rfl, if_true, tombstoned]
        rw [advanced]
        cases next <;> rfl
      | some =>
        rw [isShown] at tombstoned
        refine ⟨base.placedAt sought true, ?_, .inr ⟨sought, [], key, after, rfl, rfl,
          forall_mem_nil _, by simp [isShown], standing, isReady⟩⟩
        simp only [show (base.placedAt sought true).valid = true from rfl, if_true, tombstoned]
        rfl

section

variable (few : visiting.length ≤ base.source.rows.length)

include few

/-- Going on from a live key. -/
theorem Walk.next (split : visiting = before ++ key :: after)
    (standing : Shows base shown position key)
    (isReady : ready position key) :
    ∃ itr, (base.placedAt position true).next = .ok itr ∧
      Positioned base shown ready after itr := by
  obtain ⟨moved, advance_eq⟩ := walk.advance before key after split position true isReady
  have current : ∃ row, (base.placedAt position true).source.current = some row ∧
      ∃ version, splitMVCCKey row.1 = some (key, version) := by
    obtain ⟨entry, -, rfl, rfl, positive, -⟩ := standing
    exact ⟨_, rfl, _, splitMVCCKey_row positive⟩
  obtain ⟨row, row_eq, version, split_eq⟩ := current
  have nextWith_eq : ∃ itr, nextWith base.advance (base.placedAt position true) = .ok itr ∧
      Positioned base shown ready after itr := by
    rw [nextWith, row_eq]
    simp only [split_eq, advance_eq]
    cases after with
    | nil => exact ⟨_, rfl, .inl ⟨moved, rfl, forall_mem_nil _⟩⟩
    | cons next after =>
      have nextSplit : visiting = (before ++ [key]) ++ next :: after := by simp [split]
      refine walk.positionFrom nextSplit ?_ moved true
      rw [split] at few
      simp only [length_append, length_cons] at few
      change after.length < base.source.rows.length + 1
      omega
  obtain ⟨itr, itr_eq, positioned⟩ := nextWith_eq
  refine ⟨itr, ?_, positioned⟩
  have valid := positioned.checkValid walk (by simp [split]; tauto)
  rw [Iterator.next, show (base.placedAt position true).advance = base.advance from rfl, itr_eq]
  exact valid

/-- Using an iterator up. -/
theorem Walk.drain (split : visiting = before ++ keys)
    (positioned : Positioned base shown ready keys itr) (enough : keys.length < fuel) :
    itr.drain fuel = .ok (yielded base shown keys) := by
  induction fuel generalizing itr before keys with
  | zero => omega
  | succ fuel ih =>
    have valid := positioned.checkValid walk fun key member => by simp [split, member]
    rw [drain, valid]
    rcases positioned with ⟨position, rfl, allDead⟩ |
      ⟨position, skipped, key, rest, rfl, rfl, allDead, isShown, standing, isReady⟩
    · have nothing : yielded base shown keys = [] :=
        filterMap_eq_nil_iff.mpr fun key member => by rw [allDead key member]; rfl
      rw [nothing]
      rfl
    · obtain ⟨value, hasValue⟩ := Option.isSome_iff_exists.mp isShown
      have visited : key ∈ visiting := by simp [split]
      have nothing : skipped.filterMap (fun key => (shown key).map fun value =>
          (key.drop base.storePrefix.length, value)) = [] :=
        filterMap_eq_nil_iff.mpr fun key member => by rw [allDead key member]; rfl
      have yielded_eq : yielded base shown (skipped ++ key :: rest) =
          (key.drop base.storePrefix.length, value) :: yielded base shown rest := by
        rw [yielded, filterMap_append, nothing, filterMap_cons, hasValue]
        rfl
      obtain ⟨itr, next_eq, positioned⟩ := walk.next few
        (by rw [split, append_assoc]) standing isReady
      have restSplit : visiting = (before ++ skipped ++ [key]) ++ rest := by simp [split]
      have rest_eq := ih restSplit positioned (by simp at enough; omega)
      rw [yielded_eq]
      simp only [bind, Except.bind, pure, Except.pure,
        standing.key_eq (walk.fromStore key visited), (standing.value_spec hasValue).1, next_eq,
        rest_eq]
      rfl

omit few in
omit walk in
/-- A row that shows a value is no deletion. -/
theorem Positioned.skipTombstone (positioned : Positioned base shown ready keys itr) :
    itr.skipTombstone = .ok itr := by
  rcases positioned with ⟨position, rfl, -⟩ |
    ⟨position, -, key, rest, rfl, -, -, isShown, standing, -⟩
  · rfl
  · obtain ⟨value, hasValue⟩ := Option.isSome_iff_exists.mp isShown
    have tombstone := (standing.value_spec hasValue).2
    obtain ⟨entry, rest, rfl, -⟩ := standing
    have notTombstoned := tombstone _ rfl
    simp [skipTombstone, placedAt, current, notTombstoned, bind, Except.bind]

/-- Where the source of a new iterator is put. -/
def Iterator.firstPosition (base : Iterator) : List (Bytes × Bytes) :=
  if base.reverse then base.source.last.position else base.source.first.position

/-- Making an iterator, if the row it begins with is one of the first key. -/
theorem Walk.start {earliestVersion : Nat} (notPruned : earliestVersion ≤ base.version)
    (begins : visiting = [] ∧ base.firstPosition = [] ∨
      ∃ (entry : Entry) (rest : List (Bytes × Bytes)) (after : List Bytes), 0 < entry.version ∧
        visiting = entry.key :: after ∧ base.firstPosition = entry.row base.descending :: rest) :
    ∃ itr, base.start earliestVersion = .ok itr ∧ Positioned base shown ready visiting itr := by
  have placed : ({ base with
      source := if base.reverse then base.source.last else base.source.first
      valid := (if base.reverse then base.source.last else base.source.first).valid }) =
        base.placedAt base.firstPosition (!base.firstPosition.isEmpty) := by
    obtain ⟨source, -, -, -, valid, reverse, -, -⟩ := base
    cases reverse <;> rfl
  have found : ∃ itr, (base.placedAt base.firstPosition
      (!base.firstPosition.isEmpty)).findFirst = .ok itr ∧
        Positioned base shown ready visiting itr := by
    rcases begins with ⟨rfl, empty⟩ | ⟨entry, rest, after, positive, rfl, position_eq⟩
    · rw [empty]
      exact ⟨_, rfl, .inl ⟨[], rfl, forall_mem_nil _⟩⟩
    · have current : (base.placedAt base.firstPosition
          (!base.firstPosition.isEmpty)).source.current = some (entry.row base.descending) := by
        rw [position_eq]
        rfl
      rw [findFirst, current]
      simp only [splitMVCCKey_row positive]
      refine walk.positionFrom (nil_append _).symm ?_ _ _
      simp only [length_cons] at few
      change after.length < base.source.rows.length + 1
      omega
  obtain ⟨itr, itr_eq, positioned⟩ := found
  refine ⟨itr, ?_, positioned⟩
  have valid := positioned.checkValid walk fun key member => member
  rw [Iterator.start, if_neg (not_lt.mpr notPruned)]
  dsimp only
  rw [placed, itr_eq]
  simp only [bind, Except.bind, positioned.skipTombstone, valid]

end

end

end SeiChain.StateStore.Mvcc
