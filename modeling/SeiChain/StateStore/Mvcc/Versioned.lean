/-
This file is about databases with the comparer for versioned keys, new ones with
descending and old ones with ascending versions. After any history of change sets,
in whatever order of their versions, reads and iterators show the newest write that
is not newer than the version asked for. There is one exception: the forward
iterator over ascending versions has no upper bound when it is given none, and does
not look at the store of the first row it finds. If a store has no row from the
start of the domain on, it yields a key of the next store.
-/

import SeiChain.StateStore.Mvcc.Gets
import SeiChain.StateStore.Mvcc.Yields

namespace SeiChain.StateStore.Mvcc

open Library List

/-! ### Databases with a history -/

/-- What a directory holds before this build opens it for the first time: nothing, or the latest
version that an older build left there. -/
def initialStorage (legacy : Bool) : List (Bytes × Bytes) :=
  if legacy then [(latestVersionKey, littleEndian 8 0)] else []

/-- A database after a history, with some earliest version. -/
def databaseAfter (useDefaultComparer legacy : Bool) (history : List VersionedChangesets)
    (earliestVersion : Nat) : Except Failure Database := do
  let db ← openDB useDefaultComparer (initialStorage legacy)
  return (db.applyAll history).setEarliestVersion earliestVersion false

/-- The rows that a history writes. -/
def rowsAfter (history : List VersionedChangesets) : Rows Address Bytes :=
  rowsOf (history.map VersionedChangesets.change)

variable {useDefaultComparer legacy : Bool} {history : List VersionedChangesets}
  {earliestVersion version : Nat} {db : Database} {rows : Rows Address Bytes}
  {storeKey : StoreKey} {startKey endKey : Option Bytes} {reverse : Bool} {key : Bytes}

theorem rowsAfter_append {entry : VersionedChangesets} :
    rowsAfter (history ++ [entry]) = (rowsAfter history).put entry.change := by
  rw [rowsAfter, map_append, map_singleton, rowsOf_append, rowsAfter]

theorem holds_metadata {descending : Bool} {row : Bytes × Bytes} (metadata : row.1 ∈ metadataKeys) :
    Holds descending useDefaultComparer [row] fun _ => none where
  ordered := ⟨fun _ member => mem_singleton.mp member ▸ .inr metadata, pairwise_singleton _ _⟩
  fits found := by cases found
  mem_of_row _ found := by cases found
  row_of_mem _ member := .inl (mem_singleton.mp member ▸ metadata)

theorem openDB_initialStorage (useDefaultComparer legacy : Bool) :
    ∃ db, openDB useDefaultComparer (initialStorage legacy) = .ok db ∧
      db.useDefaultComparer = useDefaultComparer ∧ db.descending = !legacy ∧
        db.earliestVersion = 0 ∧ db.Holds fun _ => none := by
  cases useDefaultComparer <;> cases legacy <;>
    exact ⟨_, rfl, rfl, rfl, rfl, holds_metadata (by decide)⟩

theorem applyAll_fields (db : Database) (history : List VersionedChangesets) :
    (db.applyAll history).useDefaultComparer = db.useDefaultComparer ∧
      (db.applyAll history).descending = db.descending ∧
      (db.applyAll history).earliestVersion = db.earliestVersion := by
  induction history generalizing db with
  | nil => exact ⟨rfl, rfl, rfl⟩
  | cons entry history ih => exact ih _

/-- A database after a history holds the rows of the history. -/
theorem databaseAfter_spec (useDefaultComparer legacy : Bool) (earliestVersion : Nat)
    (fits : ∀ entry ∈ history, entry.version ≤ maxInt64) :
    ∃ db, databaseAfter useDefaultComparer legacy history earliestVersion = .ok db ∧
      db.useDefaultComparer = useDefaultComparer ∧ db.descending = !legacy ∧
        db.earliestVersion = earliestVersion ∧ db.Holds (rowsAfter history) := by
  obtain ⟨opened, open_eq, comparer_eq, descending_eq, earliest_eq, holds⟩ :=
    openDB_initialStorage useDefaultComparer legacy
  obtain ⟨appliedComparer, appliedDescending, appliedEarliest⟩ := applyAll_fields opened history
  refine ⟨(opened.applyAll history).setEarliestVersion earliestVersion false, ?_, ?_, ?_, ?_,
    (holds.applyAll fits).setEarliestVersion earliestVersion false⟩
  · rw [databaseAfter, open_eq]
    rfl
  all_goals
    unfold Database.setEarliestVersion
    split
  · exact appliedComparer.trans comparer_eq
  · exact appliedComparer.trans comparer_eq
  · exact appliedDescending.trans descending_eq
  · exact appliedDescending.trans descending_eq
  · rfl
  · omega

/-- A history writes rows with its own versions. -/
theorem exists_version {address : Address} {old : Nat} {value : Option Bytes}
    (found : rowsAfter history (address, old) = some value) :
    ∃ entry ∈ history, entry.change.version = old := by
  obtain ⟨change, member, atVersion, -⟩ := exists_rowsOf_iff.mp ⟨value, found⟩
  obtain ⟨entry, isEntry, rfl⟩ := mem_map.mp member
  exact ⟨entry, isEntry, atVersion⟩

theorem change_version {entry : VersionedChangesets} (positive : 0 < entry.version) :
    entry.change.version = entry.version := if_neg positive.ne'

/-! ### Reading one key -/

theorem get_versioned (holds : db.Holds rows) (usesVersions : db.useDefaultComparer = false)
    (fits : version ≤ maxInt64)
    (below : ∀ {address old value}, rows (address, old) = some value → old < maxInt64)
    (notPruned : db.earliestVersion ≤ version) :
    db.get storeKey version key = .ok (rows.read (storeKey, key) version) := by
  cases isDescending : db.descending with
  | true =>
    refine get_descending notPruned holds isDescending ?_
    refine orderly_of_versions holds usesVersions fits fun bound isBound => ?_
    obtain ⟨-, -, rfl⟩ := Option.mem_map.mp isBound
    exact Nat.zero_le _
  | false =>
    refine get_ascending notPruned holds isDescending below ?_
    refine orderly_of_versions holds usesVersions (Nat.zero_le _) fun bound isBound => ?_
    cases isBound
    unfold upperVersion
    split <;> omega

/-! ### Iterators -/

/-- The store has a row from the start of the domain on, or there is no such row at all. -/
def StoreReached (rows : Rows Address Bytes) (storeKey : StoreKey) (startKey : Option Bytes) :
    Prop :=
  (∃ key old value, startKey.getD [] ≤ key ∧ rows ((storeKey, key), old) = some value) ∨
    ∀ address old value, rows (address, old) = some value →
      prependStoreKey address.1 address.2 < lowerKey storeKey startKey

theorem iterate_versioned (holds : db.Holds rows) (usesVersions : db.useDefaultComparer = false)
    (fits : version ≤ maxInt64)
    (below : ∀ {address old value}, rows (address, old) = some value → old < maxInt64)
    (notPruned : db.earliestVersion ≤ version) (valid : ValidBounds startKey endKey)
    (reached : db.descending = false → reverse = false → endKey = none →
      StoreReached rows storeKey startKey) :
    ∃ pairs, db.iterate reverse storeKey version startKey endKey = .ok pairs ∧
      Yields (fun key => rows.read (storeKey, key) version) reverse startKey endKey pairs := by
  obtain ⟨entries, keys, behind, sees⟩ :=
    exists_sees holds (orderlyIterator_of_versions holds usesVersions) version
  have entriesBelow : ∀ entry ∈ entries, entry.version < maxInt64 := by
    intro entry member
    obtain ⟨written, found, rfl⟩ := ((sees.mem_entries entry).mp member).1
    exact below found
  have sought : ∀ key ∈ keys,
      (db.newIterator reverse storeKey version startKey endKey).Finds entries key := by
    cases isDescending : db.descending with
    | true => exact sees.sought_descending isDescending fits
    | false => exact sees.sought_ascending isDescending fits entriesBelow
  have noneBehind : (keys = [] ∨ reverse = true) → behind = [] := by
    intro atEnd
    by_cases bounded : (upperKey db.descending reverse storeKey endKey).isSome
    · exact sees.behind_eq_nil bounded
    · obtain ⟨ascending, forward, unbounded⟩ : db.descending = false ∧ reverse = false ∧
          endKey = none := by
        revert bounded
        unfold upperKey
        cases endKey <;> simp
      have noKeys : keys = [] := atEnd.resolve_right (by simp [forward])
      rcases reached ascending forward unbounded with ⟨key, old, value, notBelow, found⟩ | allBelow
      · have isKey : prependStoreKey storeKey key ∈ keys := by
          refine sees.mem_keys.mpr ⟨prefix_append _ _, _,
            (sees.mem_entries (entryOf (((storeKey, key), old), value))).mpr
              ⟨⟨_, found, rfl⟩, (append_le_append_left_iff _).mpr notBelow, ?_⟩, rfl⟩
          intro bound isBound
          exact absurd (Option.isSome_of_mem isBound) bounded
        rw [noKeys] at isKey
        cases isKey
      · refine eq_nil_iff_forall_not_mem.mpr fun key member => ?_
        obtain ⟨entry, isEntry, -⟩ := (sees.keyList.mem_iff key).mp (mem_append_right keys member)
        obtain ⟨⟨written, found, rfl⟩, notBelow, -⟩ := (sees.mem_entries entry).mp isEntry
        exact absurd (allBelow _ _ _ found) (not_lt.mpr notBelow)
  cases isReverse : reverse with
  | true =>
    subst isReverse
    exact sees.iterate valid notPruned (sees.walk_backward rfl sought) noneBehind
  | false =>
    subst isReverse
    suffices walk : Walk (db.newIterator false storeKey version startKey endKey) keys
        (shownAt rows storeKey version) fun _ _ => True from
      sees.iterate valid notPruned walk noneBehind
    refine walk_forward sees.listing sees.keyList sees.beforeEnd rfl sees.reads sought
      (fun _ _ => trivial) ?_
    intro key member position valid _
    obtain ⟨inStore, entry, isEntry, rfl⟩ := sees.mem_keys.mp member
    have listing := sees.listing
    cases isDescending : db.descending with
    | true =>
      rw [isDescending] at listing
      refine nextLogicalKey_successor isDescending usesVersions listing ?_
      intro other isOther
      have told : Tells db other (entry.key ++ [0]) 0 := tells_of_versions usesVersions
        (((sees.mem_entries other).mp isOther).1.fits holds).2 (Nat.zero_le _)
      rwa [Tells, isDescending] at told
    | false =>
      have agrees := sees.agrees entry isEntry maxInt64 le_rfl
      rw [isDescending] at listing agrees
      exact nextLogicalKey_ascending isDescending listing entriesBelow inStore agrees

/-! ### Keys that the comparer is given -/

/-- A key that bounds or guides a Pebble iterator. -/
inductive BoundKey (descending : Bool) : Bytes → Prop
  /-- A versioned key, or a key before all of its versions. -/
  | versioned (storeKey : StoreKey) (key : Bytes) {version : Nat} (fits : version ≤ maxInt64) :
    BoundKey descending (mvccEncode (prependStoreKey storeKey key) version descending)
  | successor (storeKey : StoreKey) (key : Bytes) : BoundKey descending
      (immediateSuccessor (mvccEncode (prependStoreKey storeKey key) 0 descending))
  | aboveKey (storeKey : StoreKey) (key : Bytes) {bound : Bytes}
    (isBound : prefixEnd (prependStoreKey storeKey key) = some bound) :
    BoundKey descending (mvccEncode bound 0 descending)
  | aboveStore (storeKey : StoreKey) {bound : Bytes}
    (isBound : prefixEnd (storePrefix storeKey) = some bound) :
    BoundKey descending (mvccEncode bound 0 descending)

theorem BoundKey.keyOfDatabase {descending : Bool} {bytes : Bytes}
    (isBound : BoundKey descending bytes) : KeyOfDatabase descending bytes := by
  have fromStore := prefixStore_le_prependStoreKey
  cases isBound with
  | versioned storeKey key fits => exact .inl ⟨_, _, fromStore storeKey key, fits, rfl⟩
  | successor storeKey key =>
    refine .inl ⟨prependStoreKey storeKey key ++ [0], 0,
      (fromStore storeKey key).trans (le_append _ _), Nat.zero_le _, ?_⟩
    simp [immediateSuccessor, mvccEncode, versionSuffix]
  | aboveKey storeKey key isBound =>
    exact .inl ⟨_, 0, (fromStore storeKey key).trans (lt_prefixEnd isBound).le, Nat.zero_le _, rfl⟩
  | aboveStore storeKey isBound =>
    refine .inl ⟨_, 0, le_trans ?_ (lt_prefixEnd isBound).le, Nat.zero_le _, rfl⟩
    have := fromStore storeKey []
    rwa [prependStoreKey, append_nil] at this

theorem PebbleComparer.mono {compare : Bytes → Bytes → Ordering} {large small : Bytes → Prop}
    (lawful : PebbleComparer compare large) (subset : ∀ {bytes}, small bytes → large bytes) :
    PebbleComparer compare small where
  eq_iff first second := lawful.eq_iff (subset first) (subset second)
  swap first second := lawful.swap (subset first) (subset second)
  trans first second third := lawful.trans (subset first) (subset second) (subset third)
  sharedPart_sharedPart member := lawful.sharedPart_sharedPart (subset member)
  sharedPart_first member := lawful.sharedPart_first (subset member)
  sharedPart_mono first second := lawful.sharedPart_mono (subset first) (subset second)
  compare_of_sharedPart_eq first second :=
    lawful.compare_of_sharedPart_eq (subset first) (subset second)

/-! ### All reads -/

/-- After any history, reads and iterators show at every version the newest write that is not
newer, and the comparer orders what it is given. The forward iterator over ascending versions is
only right without an end if its store has a row from the start on, or no row follows at all. -/
theorem versioned_reads_exact (legacy : Bool) {history : List VersionedChangesets}
    (versions : ∀ entry ∈ history, 0 < entry.version ∧ entry.version < 2 ^ 63 - 1)
    {earliestVersion version : Nat} (notPruned : earliestVersion ≤ version)
    (fits : version < 2 ^ 63) (storeKey : StoreKey) :
    ∃ db, databaseAfter false legacy history earliestVersion = .ok db ∧
      (∀ key, db.get storeKey version key =
          .ok ((rowsAfter history).read (storeKey, key) version) ∧
        db.has storeKey version key =
          .ok ((rowsAfter history).read (storeKey, key) version).isSome) ∧
      (∀ reverse startKey endKey, ValidBounds startKey endKey →
        (legacy = true → reverse = false → endKey = none →
          StoreReached (rowsAfter history) storeKey startKey) →
        ∃ pairs, db.iterate reverse storeKey version startKey endKey = .ok pairs ∧
          Yields (fun key => (rowsAfter history).read (storeKey, key) version) reverse startKey
            endKey pairs) ∧
      (∀ reverse startKey endKey, ¬ ValidBounds startKey endKey →
        ∃ failure, db.iterate reverse storeKey version startKey endKey = .error failure) ∧
      PebbleComparer mvccKeyCompare fun bytes =>
        bytes ∈ db.storage.map Prod.fst ∨ BoundKey db.descending bytes := by
  have historyFits : ∀ entry ∈ history, entry.version ≤ maxInt64 := fun entry member =>
    (versions entry member).2.le
  obtain ⟨db, db_eq, usesVersions, descending_eq, earliest_eq, holds⟩ :=
    databaseAfter_spec false legacy earliestVersion historyFits
  have below : ∀ {address old value}, rowsAfter history (address, old) = some value →
      old < maxInt64 := by
    intro address old value found
    obtain ⟨entry, member, rfl⟩ := exists_version found
    rw [change_version (versions entry member).1]
    exact (versions entry member).2
  have versionFits : version ≤ maxInt64 := Nat.le_pred_of_lt fits
  rw [← earliest_eq] at notPruned
  have get_eq : ∀ key, db.get storeKey version key =
      .ok ((rowsAfter history).read (storeKey, key) version) := fun key =>
    get_versioned holds usesVersions versionFits below notPruned
  refine ⟨db, db_eq, fun key => ⟨get_eq key, has_of_get notPruned (get_eq key)⟩, ?_, ?_, ?_⟩
  · intro reverse startKey endKey valid reached
    refine iterate_versioned holds usesVersions versionFits below notPruned valid ?_
    intro ascending
    exact reached (by simpa [ascending] using descending_eq.symm)
  · exact fun reverse startKey endKey refused => iterate_refused refused
  · refine (@pebbleComparer_mvccKeyCompare db.descending).mono ?_
    rintro bytes (stored | isBound)
    · obtain ⟨row, member, rfl⟩ := mem_map.mp stored
      exact holds.ordered.domain row member
    · exact isBound.keyOfDatabase

/-- Two stores, of which the second comes after the first. -/
def accStore : StoreKey := ⟨[0x61, 0x63, 0x63], by decide, by decide⟩

theorem versioned_reads_exact_second_version : let history : List VersionedChangesets :=
      [⟨2, [⟨evmStore, [⟨[1], none⟩, ⟨[2], some [20]⟩]⟩]⟩, ⟨1, [⟨evmStore, [⟨[1], some [10]⟩]⟩]⟩]
    ∃ db, databaseAfter false true history 1 = .ok db ∧
      db.get evmStore 1 [1] = .ok (some [10]) ∧
        ∃ pairs, db.iterate false evmStore 1 none none = .ok pairs ∧
          Yields (fun key => (rowsAfter history).read (evmStore, key) 1) false none none pairs := by
  intro history
  obtain ⟨db, db_eq, reads, iterates, -⟩ := @versioned_reads_exact true history (by decide) 1 1
    le_rfl (by decide) evmStore
  refine ⟨db, db_eq, ?_, iterates false none none (by simp [ValidBounds]) fun _ _ _ => ?_⟩
  · rw [(reads [1]).1]
    decide
  · exact .inl ⟨[1], 1, some [10], by decide, by decide⟩

/-- An old database in which only the store `evm` has a row: the forward iterator of the store
`acc` yields that row's key, which `acc` does not have. -/
theorem empty_store_yields_next_store :
    let opened := databaseAfter false true [⟨1, [⟨evmStore, [⟨[1], some [10]⟩]⟩]⟩] 0
    (do (← opened).iterate false accStore 1 none none) = .ok [([1], [10])] ∧
      (do (← opened).get accStore 1 [1]) = .ok none := by
  decide +kernel

end SeiChain.StateStore.Mvcc
