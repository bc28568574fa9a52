/-
This file is about databases that Pebble keeps in plain byte order, with descending
versions. Byte order puts rows in the order of their keys and versions as long as no
key is continued by another one with a zero byte: the version of the shorter key is
then compared with bytes of the longer one. And the forward iterator scans on from
where its last seek ended. If the key that it leaves has no row at the version asked
for, that is already a row of the next key, which the scan then passes over.
-/

import SeiChain.StateStore.Mvcc.Gets
import SeiChain.StateStore.Mvcc.Yields

namespace SeiChain.StateStore.Mvcc

open Library List Option

variable (rows : Rows Address Bytes)

/-- No key of the store, continued with a zero byte, begins the string. -/
def Free (storeKey : StoreKey) (bytes : Bytes) : Prop :=
  ∀ key old value, rows ((storeKey, key), old) = some value → ¬ (key ++ [0]) <+: bytes

/-- No key of a store is continued by another one with a zero byte. -/
def AllFree : Prop :=
  ∀ storeKey key old value, rows ((storeKey, key), old) = some value → Free rows storeKey key

/-- Every key of the domain that the store ever has is there at the version. -/
def Born (storeKey : StoreKey) (version : Nat) (startKey endKey : Option Bytes) : Prop :=
  ∀ key later value, rows ((storeKey, key), later) = some value → InDomain startKey endKey key →
    ∃ old ≤ version, ∃ written, rows ((storeKey, key), old) = some written

variable {db : Database} {rows : Rows Address Bytes} {storeKey : StoreKey} {version : Nat}
  {key target bytes bound : Bytes} {entry : Entry} {startKey endKey : Option Bytes} {reverse : Bool}

/-! ### Keys that are apart -/

section

variable (stored : IsStored rows entry)

include stored

theorem Free.not_isPrefix (free : Free rows storeKey bytes) :
    ¬ (entry.key ++ [0]) <+: prependStoreKey storeKey bytes := by
  obtain ⟨⟨⟨⟨otherStore, key⟩, old⟩, value⟩, found, rfl⟩ := stored
  rintro ⟨rest, same⟩
  have joined : prependStoreKey otherStore (key ++ [0] ++ rest) = prependStoreKey storeKey bytes := by
    rw [← same]
    simp [entryOf, prependStoreKey]
  obtain ⟨rfl, sameKey⟩ := prependStoreKey_inj joined
  exact free key old value found ⟨rest, sameKey⟩

/-- Nothing that a store has begins the string above the store. -/
theorem not_isPrefix_storeUpper : ¬ (entry.key ++ [0]) <+: storeUpper storeKey := by
  obtain ⟨⟨⟨⟨otherStore, key⟩, -⟩, -⟩, -, rfl⟩ := stored
  intro begins
  have withSlash : prefixStore ++ (otherStore.name ++ 0x2f :: (key ++ [0])) <+:
      prefixStore ++ (storeKey.name ++ [0x30]) := by
    simpa [entryOf, prependStoreKey, storePrefix, storeUpper] using begins
  have slash : (0x2f) ∈ storeKey.name ++ [0x30] :=
    ((prefix_append_right_inj _).mp withSlash).subset (by simp)
  rcases mem_append.mp slash with inName | isLast
  · exact storeKey.noSlash inName
  · exact absurd (mem_singleton.mp isLast) (by decide)

theorem Free.not_isPrefix_prefixEnd (free : Free rows storeKey bytes)
    (isBound : prefixEnd (prependStoreKey storeKey bytes) = some bound) :
    ¬ (entry.key ++ [0]) <+: bound := by
  obtain ⟨front, last, rest, split, rfl, notLast⟩ := prefixEnd_spec isBound
  intro begins
  rcases prefix_concat_iff.mp begins with same | begins
  · -- the last byte of the bound is not zero
    have lastZero : (0) = last + 1 := (append_singleton_inj.mp same).2
    grind
  · refine free.not_isPrefix stored (begins.trans ?_)
    rw [split]
    exact prefix_append _ _

omit stored in
theorem tells_of_apart (usesBytes : db.useDefaultComparer = true) (fits : entry.version ≤ maxInt64)
    (targetFits : version ≤ maxInt64) (apart : Apart entry.key entry.version target version) :
    Tells db entry target version := by
  rw [Tells, Database.compare, usesBytes]
  exact cmp_mvccEncode fits targetFits apart

theorem AllFree.not_isPrefix {other : Entry} (allFree : AllFree rows)
    (otherStored : IsStored rows other) : ¬ (entry.key ++ [0]) <+: other.key := by
  obtain ⟨⟨⟨⟨store, key⟩, old⟩, value⟩, found, rfl⟩ := otherStored
  exact (allFree store key old value found).not_isPrefix stored

end

section

variable (holds : db.Holds rows) (usesBytes : db.useDefaultComparer = true)

include holds usesBytes

theorem AllFree.orderly
    (allFree : AllFree rows) {lower : Bytes × Nat} {upper : Option (Bytes × Nat)}
    (lowerFits : lower.2 ≤ maxInt64) (upperFits : ∀ bound ∈ upper, bound.2 ≤ maxInt64)
    (fromLower : ∀ entry, IsStored rows entry → Apart entry.key entry.version lower.1 lower.2)
    (fromUpper : ∀ entry, IsStored rows entry → ∀ bound ∈ upper,
      Apart entry.key entry.version bound.1 bound.2) :
    Orderly db rows lower upper where
  atLower entry stored :=
    tells_of_apart usesBytes (stored.fits holds).2 lowerFits (fromLower entry stored)
  atUpper entry stored bound isBound :=
    tells_of_apart usesBytes (stored.fits holds).2 (upperFits bound isBound)
      (fromUpper entry stored bound isBound)
  between _ _ firstStored secondStored _ _ _ fits :=
    tells_of_apart usesBytes (firstStored.fits holds).2 fits
      ⟨fun _ => allFree.not_isPrefix firstStored secondStored,
        fun _ => allFree.not_isPrefix secondStored firstStored⟩

/-! ### Reading one key -/

omit usesBytes in
/-- A key that was never written is not found, whatever stands next to it. -/
theorem get_absent (isDescending : db.descending = true)
    (absent : ∀ old, rows ((storeKey, key), old) = none)
    (notPruned : db.earliestVersion ≤ version) : db.get storeKey version key = .ok none := by
  have notFound : db.getMVCCSliceDescending storeKey key version = .error .recordNotFound := by
    unfold Database.getMVCCSliceDescending
    dsimp only
    split
    case h_1 => rfl
    case h_2 row isFirst =>
      have inSource := mem_of_mem_head? isFirst
      obtain ⟨member, between⟩ := mem_filter.mp inSource
      have notBelow : db.compare row.1
          (mvccEncode (prependStoreKey storeKey key) version db.descending) ≠ .lt := by
        rw [isDescending]
        exact (of_decide_eq_true between).1
      obtain ⟨entry, stored, rfl⟩ :=
        holds.isStored_of_not_lt (prefixStore_le_prependStoreKey _ _) member notBelow
      obtain ⟨positive, fits⟩ := stored.fits holds
      rw [isDescending, decodeMVCCEntryDescending_row positive fits, if_neg]
      rintro ⟨sameKey, -⟩
      obtain ⟨⟨⟨⟨otherStore, otherKey⟩, old⟩, value⟩, found, rfl⟩ := stored
      obtain ⟨rfl, rfl⟩ := prependStoreKey_inj sameKey
      rw [absent old] at found
      cases found
  rw [Database.get, if_neg (not_lt.mpr notPruned)]
  simp only [isDescending, if_true, notFound]

theorem get_byteOrdered
    (isDescending : db.descending = true) (allFree : AllFree rows) (fits : version ≤ maxInt64)
    (notPruned : db.earliestVersion ≤ version) :
    db.get storeKey version key = .ok (rows.read (storeKey, key) version) := by
  by_cases written : ∃ old value, rows ((storeKey, key), old) = some value
  · obtain ⟨old, value, found⟩ := written
    have keyFree : Free rows storeKey key := allFree storeKey key old value found
    have keyStored : IsStored rows (entryOf (((storeKey, key), old), value)) := ⟨_, found, rfl⟩
    refine get_descending notPruned holds isDescending ?_
    refine allFree.orderly holds usesBytes fits ?_ ?_ ?_
    · intro bound isBound
      obtain ⟨upper, -, rfl⟩ := mem_map.mp isBound
      exact Nat.zero_le _
    · intro entry stored
      exact ⟨fun _ => keyFree.not_isPrefix stored, fun _ => allFree.not_isPrefix keyStored stored⟩
    · intro entry stored bound isBound
      obtain ⟨upper, isUpper, rfl⟩ := mem_map.mp isBound
      exact ⟨fun _ => keyFree.not_isPrefix_prefixEnd stored isUpper,
        fun positive => absurd positive (lt_irrefl 0)⟩
  · have absent : ∀ old, rows ((storeKey, key), old) = none := fun old =>
      eq_none_iff_forall_ne_some.mpr fun value found => written ⟨old, value, found⟩
    rw [get_absent holds isDescending absent notPruned, Rows.read_eq_none fun old _ => absent old]

/-! ### Iterators -/

theorem AllFree.orderlyIterator
    (allFree : AllFree rows) (startFree : ∀ start ∈ startKey, Free rows storeKey start)
    (endFree : ∀ stop ∈ endKey, Free rows storeKey stop) :
    OrderlyIterator db rows reverse storeKey startKey endKey := by
  have lowerFree : Free rows storeKey (startKey.getD []) := by
    cases startKey with
    | some start => exact startFree start rfl
    | none =>
      intro key old value _ begins
      exact absurd (prefix_nil.mp begins) (by simp)
  have upperFree : ∀ entry, IsStored rows entry →
      ∀ bound ∈ upperKey db.descending reverse storeKey endKey, ¬ (entry.key ++ [0]) <+: bound := by
    intro entry stored bound isBound
    unfold upperKey at isBound
    cases endKey with
    | some stop =>
      cases isBound
      exact (endFree stop rfl).not_isPrefix stored
    | none =>
      dsimp only at isBound
      split at isBound
      · cases isBound
        exact not_isPrefix_storeUpper stored
      · cases isBound
  refine allFree.orderly holds usesBytes (Nat.zero_le _) ?_ ?_ ?_
  · intro bound isBound
    obtain ⟨upper, -, rfl⟩ := mem_map.mp isBound
    exact Nat.zero_le _
  · intro entry stored
    exact ⟨fun _ => lowerFree.not_isPrefix stored, fun positive => absurd positive (lt_irrefl 0)⟩
  · intro entry stored bound isBound
    obtain ⟨upper, isUpper, rfl⟩ := mem_map.mp isBound
    exact ⟨fun _ => upperFree entry stored upper isUpper,
      fun positive => absurd positive (lt_irrefl 0)⟩

omit usesBytes in
omit holds in
/-- A key that an iterator sees has an entry that is old enough. -/
theorem Sees.exists_old {entries : List Entry} {keys behind : List Bytes}
    (sees : Sees db rows reverse storeKey version startKey endKey entries keys behind)
    (born : Born rows storeKey version startKey endKey) (member : key ∈ keys) :
    ∃ entry ∈ entries, entry.key = key ∧ entry.version ≤ version := by
  obtain ⟨inStore, entry, isEntry, rfl⟩ := sees.mem_keys.mp member
  obtain ⟨⟨⟨⟨⟨store, key⟩, later⟩, value⟩, found, rfl⟩, between⟩ :=
    (sees.mem_entries entry).mp isEntry
  obtain rfl := storeKey_of_isPrefix inStore
  have inDomain : InDomain startKey endKey key :=
    (inDomain_iff db.descending reverse store).mpr between
  obtain ⟨old, oldEnough, written, isWritten⟩ := born key later value found inDomain
  exact ⟨entryOf (((store, key), old), written),
    (sees.mem_entries _).mpr ⟨⟨_, isWritten, rfl⟩, between⟩, rfl, oldEnough⟩

theorem iterate_byteOrdered
    (isDescending : db.descending = true) (allFree : AllFree rows) (fits : version ≤ maxInt64)
    (notPruned : db.earliestVersion ≤ version) (valid : ValidBounds startKey endKey)
    (startFree : ∀ start ∈ startKey, Free rows storeKey start)
    (endFree : ∀ stop ∈ endKey, Free rows storeKey stop)
    (born : reverse = false → Born rows storeKey version startKey endKey) :
    ∃ pairs, db.iterate reverse storeKey version startKey endKey = .ok pairs ∧
      Yields (fun key => rows.read (storeKey, key) version) reverse startKey endKey pairs := by
  have orderly : OrderlyIterator db rows reverse storeKey startKey endKey :=
    allFree.orderlyIterator holds usesBytes startFree endFree
  obtain ⟨entries, keys, behind, sees⟩ := exists_sees holds orderly version
  have sought := sees.sought_descending isDescending fits
  have noneBehind : (keys = [] ∨ reverse = true) → behind = [] := fun _ =>
    sees.behind_eq_nil (by unfold upperKey; cases endKey <;> simp [isDescending])
  cases isReverse : reverse with
  | true =>
    subst isReverse
    exact sees.iterate valid notPruned (sees.walk_backward rfl sought) noneBehind
  | false =>
    subst isReverse
    -- a seek ends on a row of the key that was sought
    let ready (position : List (Bytes × Bytes)) (key : Bytes) : Prop :=
      ∃ under entry beyond, entries = under ++ entry :: beyond ∧ entry.key = key ∧
        position = (entry :: beyond).map (Entry.row true)
    suffices walk : Walk (db.newIterator false storeKey version startKey endKey) keys
        (shownAt rows storeKey version) ready from
      sees.iterate valid notPruned walk noneBehind
    refine walk_forward sees.listing sees.keyList sees.beforeEnd rfl sees.reads sought ?_ ?_
    · intro key member
      have isSought := sought key member
      rw [Iterator.Finds, show (db.newIterator false storeKey version startKey endKey).descending =
        true from isDescending] at isSought
      generalize (db.newIterator false storeKey version startKey endKey).soughtRows key = position,
        (db.newIterator false storeKey version startKey endKey).visible key _ = found at isSought
      cases isSought with
      | @found under beyond entry split sameKey => exact ⟨under, entry, beyond, split, sameKey, rfl⟩
      | missing unborn =>
        obtain ⟨entry, isEntry, sameKey, oldEnough⟩ := sees.exists_old (born rfl) member
        exact absurd oldEnough (not_le.mpr (unborn entry isEntry sameKey))
    · rintro key member position valid ⟨under, entry, beyond, split, sameKey, position_eq⟩
      have listing := sees.listing
      rw [isDescending] at listing
      exact nextLogicalKey_scan isDescending usesBytes listing (sees.mem_keys.mp member).1 split
        sameKey position_eq

end

end SeiChain.StateStore.Mvcc
