/-
This file models the EVM state store (`ss/evm/store.go`) over versioned databases in
plain byte order: one database for all keys of the EVM store, or one for each kind of
key. Reads are routed by the kind of the key, iterators by that of the start key.

Reads and iterators show the newest write that is not newer than the version asked
for, on conditions. No key may be continued by another one, or by a bound, with a zero
byte. A forward iterator needs that each key of its domain is there at the version.
With a database for each kind of key an iterator needs a start key, and all keys that
it should yield have to be of the same kind.
-/

import SeiChain.StateStore.Composite
import SeiChain.StateStore.Mvcc.ByteOrdered
import SeiChain.StateStore.Mvcc.Versioned

namespace SeiChain.StateStore.Mvcc

open Library List

abbrev EVMStateStore := StateStore.EVMStateStore Database

/-- A new store. Every database is opened with Pebble's own comparer. -/
def newEVMStateStore (separateEVMSubDBs : Bool) : Except Failure EVMStateStore := do
  let db ← openDB true (initialStorage false)
  return if separateEVMSubDBs then .separate fun _ => db else .unified db

namespace EVMStateStore

variable (store : EVMStateStore) (version : Nat)

def applyChangesetSync (changesets : List NamedChangeSet) (store : EVMStateStore) : EVMStateStore :=
  store.applyParts (Database.applyChangesetSync version) changesets

/-- Write a history. -/
def applyAll (history : List VersionedChangesets) (store : EVMStateStore) : EVMStateStore :=
  history.foldl (fun store entry => store.applyChangesetSync entry.version entry.changesets) store

def setEarliestVersion (ignoreVersion : Bool) (store : EVMStateStore) : EVMStateStore :=
  store.mapDBs (Database.setEarliestVersion version ignoreVersion)

def routeKey (key : Bytes) : Option Database := (parseEVMKey key).map store.subDB

def get (key : Bytes) : Except Failure (Option Bytes) :=
  match store.routeKey key with
  | none => .ok none
  | some db => db.get evmStore version key

def has (key : Bytes) : Except Failure Bool :=
  match store.routeKey key with
  | none => .ok false
  | some db => db.has evmStore version key

/-- What `Iterator` or `ReverseIterator` yields. -/
def iterate (reverse : Bool) (version : Nat) (startKey endKey : Option Bytes) :
    Except Failure (List (Bytes × Bytes)) :=
  match store with
  | .unified primaryDB => primaryDB.iterate reverse evmStore version startKey endKey
  | .separate _ =>
    match store.routeKey (startKey.getD []) with
    | none => .error (.cannotRoute reverse)
    | some db => db.iterate reverse evmStore version startKey endKey

end EVMStateStore

/-- A store after a history, with some earliest version. -/
def evmStoreAfter (separateEVMSubDBs : Bool) (history : List VersionedChangesets)
    (earliestVersion : Nat) : Except Failure EVMStateStore := do
  let store ← newEVMStateStore separateEVMSubDBs
  return (store.applyAll history).setEarliestVersion earliestVersion false

variable {separateEVMSubDBs : Bool} {history : List VersionedChangesets} {storeType : EVMStoreType}
  {earliestVersion version : Nat} {store : EVMStateStore} {changesets : List NamedChangeSet}
  {address : Address} {key : Bytes}

/-! ### The databases of a store -/

/-- The keys that the database of one kind of key is given. -/
def chosen (separateEVMSubDBs : Bool) (storeType : EVMStoreType) (address : Address) : Bool :=
  address.1 = evmStore ∧ (separateEVMSubDBs = true → parseEVMKey address.2 = some storeType)

theorem evmStoreAfter_spec (separateEVMSubDBs : Bool) (history : List VersionedChangesets)
    (earliestVersion : Nat) :
    ∃ store, evmStoreAfter separateEVMSubDBs history earliestVersion = .ok store ∧
      store.isSeparate = separateEVMSubDBs ∧
        ∀ storeType, databaseAfter true false (routed separateEVMSubDBs storeType history)
          earliestVersion = .ok (store.subDB storeType) := by
  obtain ⟨db, open_eq, -⟩ := openDB_initialStorage true false
  obtain ⟨opened, new_eq, layout, openedDB⟩ : ∃ opened,
      newEVMStateStore separateEVMSubDBs = .ok opened ∧ opened.isSeparate = separateEVMSubDBs ∧
        ∀ storeType, opened.subDB storeType = db := by
    rw [newEVMStateStore, open_eq]
    cases separateEVMSubDBs <;> exact ⟨_, rfl, rfl, fun _ => rfl⟩
  refine ⟨(opened.applyAll history).setEarliestVersion earliestVersion false, ?_, ?_,
    fun storeType => ?_⟩
  · rw [evmStoreAfter, new_eq]
    rfl
  · have same : ∀ store : EVMStateStore,
        (store.setEarliestVersion earliestVersion false).isSeparate = store.isSeparate := by
      rintro (_ | _) <;> rfl
    exact (same _).trans ((foldl_applyParts Database.applyChangesetSync history .nonce).1.trans layout)
  · have given : (opened.applyAll history).subDB storeType = _ :=
      (foldl_applyParts Database.applyChangesetSync history storeType).2
    rw [EVMStateStore.setEarliestVersion, subDB_mapDBs, given, layout, openedDB, databaseAfter,
      open_eq]
    rfl

/-! ### The rows of the databases -/

theorem writesOf_cons {changeset : NamedChangeSet} : writesOf (changeset :: changesets) =
    (changeset.pairs.map fun pair => ⟨(changeset.name, pair.key), pair.value⟩) ++
      writesOf changesets := flatMap_cons

theorem filterEVMChangesets_cons {changeset : NamedChangeSet} :
    filterEVMChangesets (changeset :: changesets) =
      if changeset.name = evmStore then changeset :: filterEVMChangesets changesets
      else filterEVMChangesets changesets := by
  simp [filterEVMChangesets, filter_cons]

/-- A database is given the writes to the keys that are chosen for it. -/
theorem writesOf_part : writesOf (part separateEVMSubDBs storeType changesets) =
    (writesOf changesets).filter fun write => chosen separateEVMSubDBs storeType write.key := by
  cases separateEVMSubDBs with
  | true =>
    have grouped : writesOf (part true storeType changesets) =
        (groupBySubType changesets storeType).map
          fun pair => ⟨(evmStore, pair.key), pair.value⟩ := by
      rw [part, if_pos rfl]
      dsimp only
      split
      case isTrue empty => rw [empty]; rfl
      case isFalse => simp [writesOf]
    rw [grouped, groupBySubType]
    clear grouped
    induction changesets with
    | nil => rfl
    | cons changeset changesets ih =>
      rw [writesOf_cons, filter_append, ← ih, filterEVMChangesets_cons, filter_map]
      by_cases isEVM : changeset.name = evmStore <;> simp [isEVM, Function.comp_def, chosen]
  | false =>
    rw [part]
    induction changesets with
    | nil => rfl
    | cons changeset changesets ih =>
      rw [writesOf_cons, filter_append, ← ih, filterEVMChangesets_cons, filter_map]
      by_cases isEVM : changeset.name = evmStore <;>
        simp [isEVM, Function.comp_def, chosen, writesOf_cons]

/-- A database has the rows of the keys that are chosen for it. -/
theorem rowsAfter_routed : rowsAfter (routed separateEVMSubDBs storeType history)
    (address, version) =
    if chosen separateEVMSubDBs storeType address then rowsAfter history (address, version)
    else none := by
  induction history using List.reverseRecOn with
  | nil => exact (ite_self _).symm
  | append_singleton history entry ih =>
    let routedEntry : VersionedChangesets :=
      ⟨entry.version, part separateEVMSubDBs storeType entry.changesets⟩
    have written : lastWrite routedEntry.change.writes address =
        if chosen separateEVMSubDBs storeType address then lastWrite entry.change.writes address
        else none :=
      (congrArg (lastWrite · address) writesOf_part).trans
        (lastWrite_filter (chosen separateEVMSubDBs storeType))
    have put_eq : rowsAfter (routed separateEVMSubDBs storeType (history ++ [entry]))
          (address, version) =
        (rowsAfter (routed separateEVMSubDBs storeType history)).put routedEntry.change
          (address, version) := by
      rw [routed, map_append, filter_append, ← routed]
      by_cases empty : part separateEVMSubDBs storeType entry.changesets = []
      · rw [map_singleton, filter_cons_of_neg (by simp [empty]), filter_nil,
          append_nil, Rows.put_apply]
        have nothing : lastWrite routedEntry.change.writes address = none := by
          simp [routedEntry, VersionedChangesets.change, empty, writesOf]
        rw [nothing]
        exact (ite_self _).symm
      · rw [map_singleton, filter_cons_of_pos (by simp [empty]), filter_nil, rowsAfter_append]
    rw [put_eq, Rows.put_apply, ih, written, rowsAfter_append, Rows.put_apply]
    by_cases isChosen : chosen separateEVMSubDBs storeType address = true
    · simp only [isChosen, if_true]
      rfl
    · simp [isChosen]

theorem read_routed :
    (rowsAfter (routed separateEVMSubDBs storeType history)).read address version =
    if chosen separateEVMSubDBs storeType address then (rowsAfter history).read address version
    else none := by
  by_cases isChosen : chosen separateEVMSubDBs storeType address = true
  · rw [if_pos isChosen]
    exact Rows.read_congr fun old _ => rowsAfter_routed.trans (if_pos isChosen)
  · rw [if_neg isChosen]
    exact Rows.read_eq_none fun old _ => rowsAfter_routed.trans (if_neg isChosen)

/-! ### All reads -/

theorem eq_nil_of_parseEVMKey (noKind : parseEVMKey key = none) : key = [] := by
  cases key with
  | nil => rfl
  | cons =>
    simp only [parseEVMKey] at noKind
    split_ifs at noKind

/-- The change sets write a key of the EVM store. -/
def WritesKey (entry : VersionedChangesets) (key : Bytes) : Prop :=
  ∃ changeset ∈ entry.changesets, changeset.name = evmStore ∧
    ∃ pair ∈ changeset.pairs, pair.key = key

/-- No key that is ever written, continued with a zero byte, begins the string. -/
def FreeOfKeys (history : List VersionedChangesets) (bytes : Bytes) : Prop :=
  ∀ entry ∈ history, ∀ key, WritesKey entry key → ¬ (key ++ [0]) <+: bytes

/-- What the EVM store has under a key at a version: the last write that is not newer. -/
def evmValueAt (history : List VersionedChangesets) (version : Nat) (key : Bytes) : Option Bytes :=
  valueAt (history.map VersionedChangesets.change) version (evmStore, key)

theorem exists_rowsAfter_iff :
    (∃ value, rowsAfter history ((evmStore, key), version) = some value) ↔
      ∃ entry ∈ history, entry.change.version = version ∧ WritesKey entry key := by
  have writes_iff : ∀ entry : VersionedChangesets,
      (∃ write ∈ entry.change.writes, write.key = (evmStore, key)) ↔ WritesKey entry key := by
    intro entry
    constructor
    · rintro ⟨write, member, isKey⟩
      obtain ⟨changeset, isChangeset, inPairs⟩ := mem_flatMap.mp member
      obtain ⟨pair, isPair, rfl⟩ := mem_map.mp inPairs
      obtain ⟨sameStore, sameKey⟩ := Prod.mk.inj isKey
      exact ⟨changeset, isChangeset, sameStore, pair, isPair, sameKey⟩
    · rintro ⟨changeset, isChangeset, sameStore, pair, isPair, sameKey⟩
      exact ⟨⟨(changeset.name, pair.key), pair.value⟩,
        mem_flatMap.mpr ⟨changeset, isChangeset, mem_map.mpr ⟨pair, isPair, rfl⟩⟩,
        Prod.ext sameStore sameKey⟩
  rw [rowsAfter, exists_rowsOf_iff]
  simp [writes_iff]

theorem Yields.congr {shown other : Bytes → Option Bytes} {reverse : Bool}
    {startKey endKey : Option Bytes} {pairs : List (Bytes × Bytes)}
    (yields : Yields shown reverse startKey endKey pairs)
    (same : ∀ key, InDomain startKey endKey key → shown key = other key) :
    Yields other reverse startKey endKey pairs where
  sorted := yields.sorted
  mem_iff key value := (yields.mem_iff key value).trans
    (and_congr_right fun inDomain => by rw [same key inDomain])

/-- The rows of a database are of the EVM store, and the history writes them. -/
theorem writesKey_of_routed {value : Option Bytes}
    (found : rowsAfter (routed separateEVMSubDBs storeType history) (address, version) = some value) :
    address.1 = evmStore ∧ chosen separateEVMSubDBs storeType address = true ∧
      ∃ entry ∈ history, WritesKey entry address.2 := by
  rw [rowsAfter_routed] at found
  obtain ⟨isChosen, isWritten⟩ := Option.ite_none_right_eq_some.mp found
  obtain ⟨storeKey, key⟩ := address
  have isEVM : storeKey = evmStore := (of_decide_eq_true isChosen).1
  subst isEVM
  obtain ⟨entry, member, -, writes⟩ := exists_rowsAfter_iff.mp ⟨value, isWritten⟩
  exact ⟨rfl, isChosen, entry, member, writes⟩

theorem FreeOfKeys.free {bytes : Bytes} (free : FreeOfKeys history bytes) :
    Free (rowsAfter (routed separateEVMSubDBs storeType history)) evmStore bytes := by
  intro key old value found
  obtain ⟨-, -, entry, member, writes⟩ := writesKey_of_routed found
  exact free entry member key writes

theorem allFree_routed
    (free : ∀ entry ∈ history, ∀ key, WritesKey entry key → FreeOfKeys history key) :
    AllFree (rowsAfter (routed separateEVMSubDBs storeType history)) := by
  intro storeKey key old value found
  obtain ⟨isEVM, -, entry, member, writes⟩ := writesKey_of_routed found
  obtain rfl : storeKey = evmStore := isEVM
  exact (free entry member key writes).free

/-- What a database of the store is after a history. -/
structure EVMDatabase (db : Database) (separateEVMSubDBs : Bool) (storeType : EVMStoreType)
    (history : List VersionedChangesets) (earliestVersion : Nat) : Prop where
  usesBytes : db.useDefaultComparer = true
  isDescending : db.descending = true
  earliest_eq : db.earliestVersion = earliestVersion
  holds : db.Holds (rowsAfter (routed separateEVMSubDBs storeType history))

theorem exists_evmStoreAfter (separateEVMSubDBs : Bool) (earliestVersion : Nat)
    (fits : ∀ entry ∈ history, entry.version ≤ maxInt64) :
    ∃ store, evmStoreAfter separateEVMSubDBs history earliestVersion = .ok store ∧
      store.isSeparate = separateEVMSubDBs ∧ ∀ storeType,
        EVMDatabase (store.subDB storeType) separateEVMSubDBs storeType history earliestVersion := by
  obtain ⟨store, store_eq, layout, databases⟩ :=
    evmStoreAfter_spec separateEVMSubDBs history earliestVersion
  refine ⟨store, store_eq, layout, fun storeType => ?_⟩
  have routedFits : ∀ entry ∈ routed separateEVMSubDBs storeType history,
      entry.version ≤ maxInt64 := by
    intro entry member
    obtain ⟨original, isOriginal, rfl⟩ := mem_map.mp (mem_of_mem_filter member)
    exact fits original isOriginal
  obtain ⟨db, db_eq, usesBytes, isDescending, earliest_eq, holds⟩ :=
    databaseAfter_spec true false earliestVersion routedFits
  rw [databases storeType] at db_eq
  cases db_eq
  exact ⟨usesBytes, isDescending, earliest_eq, holds⟩

section Databases

variable {db : Database}

section

variable (database : EVMDatabase db separateEVMSubDBs storeType history earliestVersion)
  (free : ∀ entry ∈ history, ∀ key, WritesKey entry key → FreeOfKeys history key)
  (notPruned : earliestVersion ≤ version) (fits : version ≤ maxInt64)

include database free notPruned fits

theorem EVMDatabase.get_eq (isChosen : chosen separateEVMSubDBs storeType (evmStore, key) = true) :
    db.get evmStore version key = .ok ((rowsAfter history).read (evmStore, key) version) := by
  rw [get_byteOrdered database.holds database.usesBytes database.isDescending (allFree_routed free)
    fits (database.earliest_eq.trans_le notPruned), read_routed, if_pos isChosen]

theorem EVMDatabase.iterate_eq (versions : ∀ entry ∈ history, 0 < entry.version)
    {reverse : Bool} {startKey endKey : Option Bytes} (valid : ValidBounds startKey endKey)
    (startFree : ∀ start ∈ startKey, FreeOfKeys history start)
    (endFree : ∀ stop ∈ endKey, FreeOfKeys history stop)
    (born : reverse = false → ∀ later ∈ history, ∀ key, WritesKey later key →
      InDomain startKey endKey key →
        ∃ entry ∈ history, entry.version ≤ version ∧ WritesKey entry key) :
    ∃ pairs, db.iterate reverse evmStore version startKey endKey = .ok pairs ∧
      Yields (fun key => if chosen separateEVMSubDBs storeType (evmStore, key) then
        (rowsAfter history).read (evmStore, key) version else none) reverse startKey endKey pairs := by
  obtain ⟨pairs, iterate_eq, yields⟩ := iterate_byteOrdered database.holds database.usesBytes
    database.isDescending (allFree_routed free) fits (database.earliest_eq.trans_le notPruned) valid
    (fun start isStart => (startFree start isStart).free)
    (fun stop isStop => (endFree stop isStop).free) (fun forward => by
      intro key later value found inDomain
      obtain ⟨-, isChosen, written, isWritten, writes⟩ := writesKey_of_routed found
      obtain ⟨entry, member, oldEnough, writesOld⟩ :=
        born forward written isWritten key writes inDomain
      obtain ⟨oldValue, oldFound⟩ := exists_rowsAfter_iff.mpr ⟨entry, member, rfl, writesOld⟩
      exact ⟨entry.change.version, (change_version (versions entry member)).trans_le oldEnough,
        oldValue, rowsAfter_routed.trans ((if_pos isChosen).trans oldFound)⟩)
  exact ⟨pairs, iterate_eq, yields.congr fun key _ => read_routed⟩

end

end Databases

/-- After any history with increasing versions, reads and iterators show at every version the
last write that is not newer, as long as no written key is continued by another one with a zero
byte. Iterators moreover need bounds that do not continue a written key with a zero byte. A
forward iterator needs that every key of the domain that is ever written is there at the version,
and with a database for each kind of key all keys to be yielded are of the start key's kind. -/
theorem evm_reads_exact (separateEVMSubDBs : Bool) {history : List VersionedChangesets}
    (increasing : history.Pairwise fun first second => first.version < second.version)
    (versions : ∀ entry ∈ history, 0 < entry.version ∧ entry.version < 2 ^ 63)
    (nonempty : ∀ entry ∈ history, ∀ key, WritesKey entry key → key ≠ [])
    (free : ∀ entry ∈ history, ∀ key, WritesKey entry key → FreeOfKeys history key)
    {earliestVersion version : Nat} (notPruned : earliestVersion ≤ version)
    (fits : version < 2 ^ 63) :
    ∃ store, evmStoreAfter separateEVMSubDBs history earliestVersion = .ok store ∧
      (∀ key, store.get version key = .ok (evmValueAt history version key) ∧
        store.has version key = .ok (evmValueAt history version key).isSome) ∧
      (∀ reverse startKey endKey, ValidBounds startKey endKey →
        (∀ start ∈ startKey, FreeOfKeys history start) →
        (∀ stop ∈ endKey, FreeOfKeys history stop) →
        (reverse = false → ∀ later ∈ history, ∀ key, WritesKey later key →
          InDomain startKey endKey key →
            ∃ entry ∈ history, entry.version ≤ version ∧ WritesKey entry key) →
        (separateEVMSubDBs = true → ∃ start, startKey = some start ∧
          ∀ key, InDomain startKey endKey key → evmValueAt history version key ≠ none →
            parseEVMKey key = parseEVMKey start) →
        ∃ pairs, store.iterate reverse version startKey endKey = .ok pairs ∧
          Yields (evmValueAt history version) reverse startKey endKey pairs) ∧
      ∀ reverse startKey endKey, ¬ ValidBounds startKey endKey →
        ∃ failure, store.iterate reverse version startKey endKey = .error failure := by
  have versionFits : version ≤ maxInt64 := Nat.le_pred_of_lt fits
  have positive := fun entry member => (versions entry member).1
  have read_eq : ∀ key, (rowsAfter history).read (evmStore, key) version =
      evmValueAt history version key := fun key => Growing.read_rowsOf ⟨increasing, positive⟩
  obtain ⟨store, store_eq, layout, databases⟩ := exists_evmStoreAfter separateEVMSubDBs
    earliestVersion fun entry member => Nat.le_pred_of_lt (versions entry member).2
  have notPrunedIn : ∀ storeType, (store.subDB storeType).earliestVersion ≤ version :=
    fun storeType => (databases storeType).earliest_eq.trans_le notPruned
  refine ⟨store, store_eq, ?_, ?_, ?_⟩
  · intro key
    rw [← read_eq]
    cases kind : parseEVMKey key with
    | none =>
      -- only the empty key has no kind
      have never : (rowsAfter history).read (evmStore, key) version = none := by
        refine Rows.read_eq_none fun old _ => ?_
        refine Option.eq_none_iff_forall_ne_some.mpr fun value found => ?_
        obtain ⟨entry, member, -, writes⟩ := exists_rowsAfter_iff.mp ⟨value, found⟩
        exact nonempty entry member key writes (eq_nil_of_parseEVMKey kind)
      simp [EVMStateStore.get, EVMStateStore.has, EVMStateStore.routeKey, kind, never]
    | some storeType =>
      have isChosen : chosen separateEVMSubDBs storeType (evmStore, key) = true := by
        simp [chosen, kind]
      have get_eq := (databases storeType).get_eq free notPruned versionFits isChosen
      have has_eq := has_of_get (notPrunedIn storeType) get_eq
      simp [EVMStateStore.get, EVMStateStore.has, EVMStateStore.routeKey, kind, get_eq, has_eq]
  · intro reverse startKey endKey valid startFree endFree born sameKind
    have iterates := fun storeType => (databases storeType).iterate_eq free notPruned versionFits
      positive valid startFree endFree born
    cases store with
    | unified primaryDB =>
      obtain ⟨pairs, iterate_eq, yields⟩ := iterates .misc
      refine ⟨pairs, iterate_eq, yields.congr fun key _ => ?_⟩
      rw [← layout, if_pos (by simp [chosen, EVMStateStore.isSeparate]), read_eq]
    | separate subDBs =>
      obtain ⟨start, rfl, areSameKind⟩ := sameKind layout.symm
      have startKind : parseEVMKey start ≠ none := fun noKind =>
        valid.1 (congrArg some (eq_nil_of_parseEVMKey noKind))
      obtain ⟨storeType, kind⟩ := Option.ne_none_iff_exists'.mp startKind
      obtain ⟨pairs, iterate_eq, yields⟩ := iterates storeType
      refine ⟨pairs, ?_, yields.congr fun key inDomain => ?_⟩
      · simp only [EVMStateStore.iterate, EVMStateStore.routeKey, Option.getD_some, kind,
          Option.map_some]
        exact iterate_eq
      · rw [read_eq]
        split
        case isTrue => rfl
        case isFalse notChosen =>
          by_contra isLive
          refine notChosen (decide_eq_true ⟨rfl, fun _ => ?_⟩)
          rw [areSameKind key inDomain (Ne.symm isLive), kind]
  · intro reverse startKey endKey refused
    cases store with
    | unified primaryDB => exact iterate_refused refused
    | separate subDBs =>
      rw [EVMStateStore.iterate]
      split
      case h_1 => exact ⟨_, rfl⟩
      case h_2 db isDB => exact iterate_refused refused

/-- The second version deletes one of two keys. -/
theorem evm_reads_exact_first_version : let history : List VersionedChangesets :=
      [⟨1, [⟨evmStore, [⟨[1], some [10]⟩, ⟨[2], some [20]⟩]⟩]⟩, ⟨2, [⟨evmStore, [⟨[1], none⟩]⟩]⟩]
    ∃ store, evmStoreAfter false history 1 = .ok store ∧
      store.get 1 [1] = .ok (some [10]) ∧
        ∃ pairs, store.iterate false 1 none none = .ok pairs ∧
          Yields (evmValueAt history 1) false none none pairs := by
  intro history
  have keys : ∀ entry ∈ history, ∀ key, WritesKey entry key → key = [1] ∨ key = [2] := by
    simp +contextual [history, WritesKey, eq_comm]
  have free : ∀ entry ∈ history, ∀ key, WritesKey entry key → FreeOfKeys history key := by
    intro entry member key writes other isOther otherKey otherWrites
    rcases keys entry member key writes with rfl | rfl <;>
      rcases keys other isOther otherKey otherWrites with rfl | rfl <;> decide
  have nonempty : ∀ entry ∈ history, ∀ key, WritesKey entry key → key ≠ [] := by
    intro entry member key writes
    rcases keys entry member key writes with rfl | rfl <;> decide
  obtain ⟨store, store_eq, reads, iterates, -⟩ := @evm_reads_exact false history (by decide)
    (by decide) nonempty free 1 1 le_rfl (by decide)
  refine ⟨store, store_eq, ?_, iterates false none none (by simp [ValidBounds]) (by simp) (by simp)
    (fun _ later member key writes _ => ⟨_, .head _, le_rfl, ?_⟩) (by simp)⟩
  · rw [(reads [1]).1]
    decide
  · rcases keys later member key writes with rfl | rfl
    · exact ⟨_, mem_cons_self, rfl, _, mem_cons_self, rfl⟩
    · exact ⟨_, mem_cons_self, rfl, _, mem_cons_of_mem _ mem_cons_self, rfl⟩

/-- The key `[1]` is first written after the version asked for. The scan that leaves it passes over
the key `[2]`, which `Get` finds and the reverse iterator yields. -/
theorem unborn_key_hides_next :
    let opened := evmStoreAfter false
      [⟨1, [⟨evmStore, [⟨[2], some [20]⟩]⟩]⟩, ⟨2, [⟨evmStore, [⟨[1], some [10]⟩]⟩]⟩] 0
    (do (← opened).iterate false 1 none none) = .ok [] ∧
      (do (← opened).iterate true 1 none none) = .ok [([2], [20])] ∧
        (do (← opened).get 1 [2]) = .ok (some [20]) := by
  decide +kernel

/-- The longer key continues the shorter one with a zero byte and with bytes that stand between
two encoded versions: a read of the shorter one stops at the row of the longer one. -/
example :
    let long : Bytes := [1, 0] ++ List.replicate 7 0xff ++ [0xfc]
    let opened := evmStoreAfter false
      [⟨1, [⟨evmStore, [⟨[1], some [10]⟩]⟩]⟩, ⟨5, [⟨evmStore, [⟨long, some [20]⟩]⟩]⟩] 0
    (do (← opened).get 1 [1]) = .ok (some [10]) ∧ (do (← opened).get 5 [1]) = .ok none := by
  decide +kernel

end SeiChain.StateStore.Mvcc
