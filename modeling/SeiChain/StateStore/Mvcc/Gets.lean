/-
This file shows that reading one key finds its newest row that is not newer than
the version asked for. A read goes through a Pebble iterator of its own, whose
bounds leave that row as the first or as the last one.
-/

import SeiChain.StateStore.Mvcc.Sources

namespace SeiChain.StateStore.Mvcc

open Library List Entry

variable {db : Database} {rows : Rows Address Bytes} {storeKey : StoreKey} {version : Nat}
  {key : Bytes} {entry : Entry}

/-- The value of a visible row is what was written there. -/
theorem visibleValueAtVersion_row {descending : Bool} (positive : 0 < entry.version)
    (fits : entry.version ≤ maxInt64) (oldEnough : entry.version ≤ version) :
    visibleValueAtVersion descending (entry.row descending).2 version = .ok entry.value := by
  have nonempty : encodeVersion descending entry.version ≠ [] := ne_nil_of_length_pos (by simp)
  unfold visibleValueAtVersion row
  cases entry.value with
  | some => simp [versionBytes]
  | none =>
    simp [versionBytes, positive, nonempty, decode_encodeVersion fits, not_lt.mpr oldEnough]

/-- The bounds of a read in a database with descending versions. -/
def readBounds (storeKey : StoreKey) (key : Bytes) : Option (Bytes × Nat) :=
  (prefixEnd (prependStoreKey storeKey key)).map fun bound => (bound, 0)

/-- The string above all that begin with `bytes` is a front of it with the next byte. -/
theorem prefixEnd_spec {bytes bound : Bytes} (isBound : prefixEnd bytes = some bound) :
    ∃ front last rest, bytes = front ++ last :: rest ∧ bound = front ++ [last + 1] ∧
      last ≠ 255 := by
  unfold prefixEnd at isBound
  have split : bytes.reverse.takeWhile (fun byte => decide (byte = 0xff)) ++
      bytes.reverse.dropWhile (fun byte => decide (byte = 0xff)) = bytes.reverse :=
    takeWhile_append_dropWhile
  have stops := head?_dropWhile_not (fun byte : UInt8 => decide (byte = 0xff)) bytes.reverse
  cases dropped : bytes.reverse.dropWhile (fun byte => decide (byte = 0xff)) with
  | nil =>
    rw [dropped] at isBound
    cases isBound
  | cons last front =>
    rw [dropped] at isBound split stops
    cases isBound
    have reversed := congrArg List.reverse split
    rw [reverse_reverse] at reversed
    exact ⟨front.reverse, last, (bytes.reverse.takeWhile fun byte => byte = 0xff).reverse,
      reversed.symm.trans (by simp), rfl, of_decide_eq_false stops⟩

theorem lt_prefixEnd {bytes bound : Bytes} (isBound : prefixEnd bytes = some bound) :
    bytes < bound := by
  obtain ⟨front, last, rest, rfl, rfl, notLast⟩ := prefixEnd_spec isBound
  have begins : (front ++ [last]) <+: front ++ last :: rest := ⟨rest, by simp⟩
  exact ((isPrefix_iff_between notLast).mp begins).2

/-- The entries have all rows of the key up to the version. -/
def Complete (rows : Rows Address Bytes) (storeKey : StoreKey) (key : Bytes) (version : Nat)
    (entries : List Entry) : Prop :=
  ∀ entry, IsStored rows entry → entry.key = prependStoreKey storeKey key →
    entry.version ≤ version → entry ∈ entries

section

variable {entries : List Entry} (stored : ∀ entry ∈ entries, IsStored rows entry)
  (complete : Complete rows storeKey key version entries)

include stored complete

theorem reads_key : Reads entries version [prependStoreKey storeKey key]
    (shownAt rows storeKey version) := by
  refine reads_shownAt stored ?_ fun other isKey => mem_singleton.mp isKey ▸ prefix_append _ _
  intro other isKey entry isStored sameKey oldEnough
  exact complete entry isStored (sameKey.trans (mem_singleton.mp isKey)) oldEnough

/-- A read gives what the leading entry holds. -/
theorem read_of_leading (leading : Leading entries version (prependStoreKey storeKey key) entry)
    (member : entry ∈ entries) : rows.read (storeKey, key) version =
      if entry.key = prependStoreKey storeKey key ∧ entry.version ≤ version then entry.value
      else none := by
  have reads := reads_key stored complete
  rw [← shownAt_prependStoreKey]
  split
  · next isVisible =>
    rw [← isVisible.1]
    exact reads.newest entry (leading.newest member isVisible) (mem_singleton.mpr isVisible.1)
  · next notVisible => exact reads.unborn _ mem_cons_self (leading.unborn notVisible)

end

theorem read_of_nil (complete : Complete rows storeKey key version []) :
    rows.read (storeKey, key) version = none := by
  rw [← shownAt_prependStoreKey]
  exact (reads_key (forall_mem_nil _) complete).unborn _ mem_cons_self (forall_mem_nil _)

/-! ### Descending versions -/

theorem decodeMVCCEntryDescending_row (positive : 0 < entry.version)
    (fits : entry.version ≤ maxInt64) :
    decodeMVCCEntryDescending (entry.row true).1 (entry.row true).2 key version =
      if entry.key = key ∧ entry.version ≤ version then .ok (entry.row true).2
      else .error .recordNotFound := by
  have decoded : decodeVersion true (encodeVersion true entry.version) = .ok entry.version :=
    decode_encodeVersion fits
  rw [decodeVersion, if_pos rfl] at decoded
  unfold decodeMVCCEntryDescending
  simp only [splitMVCCKey_row positive, decoded]
  by_cases sameKey : entry.key = key
  · by_cases oldEnough : entry.version ≤ version
    · simp [sameKey, oldEnough]
    · simp [sameKey, oldEnough, not_le.mp oldEnough]
  · simp [sameKey]

section

variable (notPruned : db.earliestVersion ≤ version)

include notPruned

/-- What a read at some version gives, newest first. -/
theorem get_descending (holds : db.Holds rows) (isDescending : db.descending = true)
    (orderly : Orderly db rows (prependStoreKey storeKey key, version) (readBounds storeKey key)) :
    db.get storeKey version key = .ok (rows.read (storeKey, key) version) := by
  have fromStore : prefixStore ≤ prependStoreKey storeKey key := prefixStore_le_prependStoreKey _ _
  obtain ⟨entries, listing, mem_entries⟩ := holds.listing fromStore orderly
  rw [isDescending] at listing mem_entries
  have complete : Complete rows storeKey key version entries := by
    intro entry stored sameKey oldEnough
    obtain ⟨positive, fits⟩ := stored.fits holds
    refine (mem_entries entry).mpr ⟨stored, ?_, fun bound isBound => ?_⟩
    · rw [Entry.mark, sameKey, ← not_lt, mark_lt_descending (by omega) positive fits]
      exact not_lt.mpr oldEnough
    · obtain ⟨upper, isUpper, rfl⟩ := Option.mem_map.mp isBound
      exact mark_lt_mark.mpr (.inl (sameKey ▸ lt_prefixEnd isUpper))
  have slice_eq : db.getMVCCSliceDescending storeKey key version =
      (entries.map (row true)).head?.elim (.error .recordNotFound) fun row =>
        decodeMVCCEntryDescending row.1 row.2 (prependStoreKey storeKey key) version := by
    have bounds_eq : iteratorUpperBoundForLogicalKeyDescending (prependStoreKey storeKey key) =
        (readBounds storeKey key).map fun bound => mvccEncode bound.1 bound.2 true := by
      rw [readBounds, Option.map_map]
      rfl
    unfold Database.getMVCCSliceDescending
    dsimp only
    rw [bounds_eq]
    generalize current : Cursor.current _ = found
    obtain rfl := current.symm.trans (congrArg List.head? listing.rows_eq)
    cases (entries.map (row true)).head? <;> rfl
  rw [Database.get, if_neg (not_lt.mpr notPruned)]
  simp only [isDescending, if_true, slice_eq]
  cases entries with
  | nil =>
    rw [read_of_nil complete]
    rfl
  | cons entry entries =>
    obtain ⟨positive, fits⟩ := listing.fits entry mem_cons_self
    have leading := listing.leading_descending (nil_append _).symm (forall_mem_nil _)
      ((mem_entries entry).mp mem_cons_self).2.1
    rw [read_of_leading (fun other member => ((mem_entries other).mp member).1) complete leading
      mem_cons_self]
    simp only [map_cons, head?_cons, Option.elim, decodeMVCCEntryDescending_row positive fits]
    by_cases isVisible : entry.key = prependStoreKey storeKey key ∧ entry.version ≤ version
    · simp only [if_pos isVisible, visibleValueAtVersion_row positive fits isVisible.2]
    · simp only [if_neg isVisible]

/-! ### Ascending versions -/

/-- What a read at some version gives, oldest first. -/
theorem get_ascending (holds : db.Holds rows) (isAscending : db.descending = false)
    (below : ∀ {address old value}, rows (address, old) = some value → old < maxInt64)
    (orderly : Orderly db rows (prependStoreKey storeKey key, 0)
      (some (prependStoreKey storeKey key, upperVersion version))) :
    db.get storeKey version key = .ok (rows.read (storeKey, key) version) := by
  have fromStore : prefixStore ≤ prependStoreKey storeKey key := prefixStore_le_prependStoreKey _ _
  obtain ⟨entries, listing, mem_entries⟩ := holds.listing fromStore orderly
  rw [isAscending] at listing mem_entries
  let source := db.newIter (mvccEncode (prependStoreKey storeKey key) 0 false)
    (some (mvccEncode (prependStoreKey storeKey key) (upperVersion version) false))
  have entriesBelow : ∀ entry ∈ entries, entry.version < maxInt64 := by
    intro entry member
    obtain ⟨⟨written, found, rfl⟩, -⟩ := (mem_entries entry).mp member
    exact below found
  -- between the bounds are the rows of the key that are old enough
  have ofKey : ∀ entry ∈ entries,
      entry.key = prependStoreKey storeKey key ∧ entry.version ≤ version := by
    intro entry member
    obtain ⟨notBelow, isBelow⟩ := ((mem_entries entry).mp member).2
    have atMost := isBelow _ rfl
    have sameKey : entry.key = prependStoreKey storeKey key :=
      le_antisymm (key_le_of_mark_le atMost.le) (key_le_of_mark_le notBelow)
    rw [Entry.mark, sameKey, mark_lt_ascending] at atMost
    exact ⟨sameKey, (lt_upperVersion (entriesBelow entry member)).mp atMost⟩
  have current_eq : source.last.current = (entries.getLast?.toList.map (row false)).head? :=
    congrArg List.head? (Cursor.position_last listing.rows_eq)
  have complete : Complete rows storeKey key version entries := by
    rintro entry ⟨written, found, rfl⟩ sameKey oldEnough
    refine (mem_entries _).mpr ⟨⟨written, found, rfl⟩, ?_, fun bound isBound => ?_⟩
    · exact mark_le_mark.mpr (.inr ⟨sameKey.symm, Nat.zero_le _⟩)
    · cases isBound
      rw [Entry.mark, sameKey, mark_lt_ascending]
      exact (lt_upperVersion (below found)).mpr oldEnough
  have slice_eq : db.getMVCCSliceAscending storeKey key version =
      (entries.getLast?.toList.map (row false)).head?.elim (.error .recordNotFound) fun row =>
        .ok row.2 := by
    unfold Database.getMVCCSliceAscending
    dsimp only
    generalize current : Cursor.current _ = found
    obtain rfl := current.symm.trans current_eq
    rcases eq_nil_or_concat' entries with rfl | ⟨front, entry, rfl⟩
    · rfl
    · obtain ⟨positive, entryFits⟩ := listing.fits entry (by simp)
      have decoded : decodeVersion false (encodeVersion false entry.version) = .ok entry.version :=
        decode_encodeVersion entryFits
      rw [decodeVersion, if_neg (by decide)] at decoded
      have notLarge : ¬ (if version < maxInt64 then version + 1 else version) < entry.version := by
        have := (ofKey entry (by simp)).2
        split <;> omega
      simp [splitMVCCKey_row positive, decoded, notLarge]
  rw [Database.get, if_neg (not_lt.mpr notPruned)]
  simp only [isAscending, Bool.false_eq_true, if_false]
  rw [slice_eq]
  rcases eq_nil_or_concat' entries with rfl | ⟨front, entry, rfl⟩
  · rw [read_of_nil complete]
    rfl
  · obtain ⟨positive, entryFits⟩ := listing.fits entry (by simp)
    have isVisible := ofKey entry (by simp)
    have leading := listing.leading_ascending rfl entriesBelow
      (((mem_entries entry).mp (by simp)).2.2 _ rfl) (forall_mem_nil _)
    rw [read_of_leading (fun other member => ((mem_entries other).mp member).1) complete leading
      (by simp), if_pos isVisible]
    simp [visibleValueAtVersion_row positive entryFits isVisible.2]

/-- Asking whether there is a value. -/
theorem has_of_get {value : Option Bytes} (found : db.get storeKey version key = .ok value) :
    db.has storeKey version key = .ok value.isSome := by
  rw [Database.has, if_neg (not_lt.mpr notPruned), found]

end

end SeiChain.StateStore.Mvcc
