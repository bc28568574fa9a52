/-
This file models the versioned database over Pebble at the level of its bytes
(`db.go`, `db_ascending.go`, `batch.go`): how it is opened, how a change set is
written and how a key is read at a version. Pebble keeps its rows in the order of
a comparer, which is plain byte order or the comparer for versioned keys. Every
row of the data has a versioned key; its value ends like a key does, with the
version of a deletion or with none. Three more rows hold the latest version, the
earliest version and the mark of a database with descending versions.

Pruning, imports and the metrics are left out.
-/

import SeiChain.Library.OrderedStore
import SeiChain.Library.VersionedMap
import SeiChain.StateStore.Mvcc.Encoding

namespace SeiChain.StateStore.Mvcc

open Library

/-- What a read or an open can end with instead of a result. -/
inductive Failure where
  | keyEmpty
  | startAfterEnd
  | recordNotFound
  | invalidKey (key : Bytes)
  | invalidValue (value : Bytes)
  | decode (error : DecodeError)
  | keyVersionTooLarge (version : Nat)
  | versionOverflowsInt64 (version : Nat)
  /-- The start key of an iterator does not say which database has the keys. -/
  | cannotRoute (reverse : Bool)
  | panicked
  /-- The model's bound on a loop is used up. -/
  | outOfFuel
  deriving DecidableEq, Repr

/-! ### Keys -/

/-- The name of a store. The code takes it for granted that a name is not empty and has no slash:
the names of two stores then never mix up their rows. -/
structure StoreKey where
  name : Bytes
  nonempty : name ≠ []
  noSlash : 0x2f ∉ name
  deriving DecidableEq, Repr

def evmStore : StoreKey := ⟨[0x65, 0x76, 0x6d], by decide, by decide⟩

/-- `s/k:` -/
def prefixStore : Bytes := [0x73, 0x2f, 0x6b, 0x3a]

/-- `s/_latest` -/
def latestVersionKey : Bytes := [0x73, 0x2f, 0x5f, 0x6c, 0x61, 0x74, 0x65, 0x73, 0x74]

/-- `s/_earliest` -/
def earliestVersionKey : Bytes := [0x73, 0x2f, 0x5f, 0x65, 0x61, 0x72, 0x6c, 0x69, 0x65, 0x73, 0x74]

/-- `s/_mvcc_descending` -/
def descendingMVCCMarkerKey : Bytes :=
  [0x73, 0x2f, 0x5f, 0x6d, 0x76, 0x63, 0x63, 0x5f, 0x64, 0x65, 0x73, 0x63, 0x65, 0x6e, 0x64, 0x69,
    0x6e, 0x67]

/-- `TOMBSTONE` -/
def tombstoneVal : Bytes := [0x54, 0x4f, 0x4d, 0x42, 0x53, 0x54, 0x4f, 0x4e, 0x45]

def storePrefix (storeKey : StoreKey) : Bytes := prefixStore ++ storeKey.name ++ [0x2f]

def prependStoreKey (storeKey : StoreKey) (key : Bytes) : Bytes := storePrefix storeKey ++ key

/-- The least string above all that begin with the given one, if there is one. -/
def prefixEnd (bytes : Bytes) : Option Bytes :=
  match bytes.reverse.dropWhile (· = 0xff) with
  | [] => none
  | last :: front => some (front.reverse ++ [last + 1])

/-! ### Opening -/

structure Database where
  storage : List (Bytes × Bytes)
  useDefaultComparer : Bool
  descending : Bool
  earliestVersion : Nat
  latestVersion : Nat

/-- The comparer that Pebble is opened with. -/
def comparer (useDefaultComparer : Bool) : Bytes → Bytes → Ordering :=
  if useDefaultComparer then cmp else mvccKeyCompare

def retrieveVersionKey (compare : Bytes → Bytes → Ordering) (storage : List (Bytes × Bytes))
    (key : Bytes) : Except Failure Nat :=
  match rowValue compare storage key with
  | none => .ok 0
  | some bytes =>
    if bytes = [] then .ok 0
    else if bytes.length < 8 then .error .panicked
    else
      let version := ofLittleEndian (bytes.take 8)
      if maxInt64 < version then .error (.versionOverflowsInt64 version) else .ok version

/-- The storage, marked if it is new, and whether its versions descend. -/
def detectMVCCMode (compare : Bytes → Bytes → Ordering) (storage : List (Bytes × Bytes)) :
    List (Bytes × Bytes) × Bool :=
  if (rowValue compare storage descendingMVCCMarkerKey).isSome then (storage, true)
  else if (rowValue compare storage latestVersionKey).isSome then (storage, false)
  else (putRow compare (descendingMVCCMarkerKey, [1]) storage, true)

def openDB (useDefaultComparer : Bool) (storage : List (Bytes × Bytes)) :
    Except Failure Database := do
  let compare := comparer useDefaultComparer
  let (storage, descending) := detectMVCCMode compare storage
  let earliestVersion ← retrieveVersionKey compare storage earliestVersionKey
  let latestVersion ← retrieveVersionKey compare storage latestVersionKey
  return { storage, useDefaultComparer, descending, earliestVersion, latestVersion }

variable (db : Database)

namespace Database

def compare : Bytes → Bytes → Ordering := comparer db.useDefaultComparer

/-! ### Writing -/

end Database

/-- A pair of a change set. A pair without a value deletes its key. -/
structure KVPair where
  key : Bytes
  value : Option Bytes
  deriving DecidableEq, Repr

structure NamedChangeSet where
  name : StoreKey
  pairs : List KVPair
  deriving DecidableEq, Repr

variable (descending : Bool) (version : Nat)

/-- The row of a pair. -/
def batchOp (storeKey : StoreKey) (pair : KVPair) : Bytes × Bytes :=
  let set (tombstone : Nat) (key value : Bytes) : Bytes × Bytes :=
    (mvccEncode (prependStoreKey storeKey key) version descending,
      mvccEncode value tombstone descending)
  match pair.value with
  | some value => set 0 pair.key value
  | none => set version pair.key tombstoneVal

def batchOps (changesets : List NamedChangeSet) : List (Bytes × Bytes) :=
  changesets.flatMap fun changeset =>
    changeset.pairs.map (batchOp descending version changeset.name)

/-- The rows of a batch in the order of the comparer for versioned keys, which need not be
Pebble's; rows with one key stay in their order. -/
def sortBatchOps (ops : List (Bytes × Bytes)) : List (Bytes × Bytes) :=
  ops.mergeSort fun first second => mvccKeyCompare second.1 first.1 ≠ .lt

def writeBatchOps (compare : Bytes → Bytes → Ordering) (storage ops : List (Bytes × Bytes)) :
    List (Bytes × Bytes) :=
  (sortBatchOps ops).foldl (fun storage op => putRow compare op storage) storage

namespace Database

def applyChangesetSync (changesets : List NamedChangeSet) (db : Database) : Database :=
  -- the genesis state comes with version 0, which has no bytes in a key
  let version := if version = 0 then 1 else version
  let written := writeBatchOps db.compare db.storage (batchOps db.descending version changesets)
  { db with
    storage := putRow db.compare (latestVersionKey, littleEndian 8 version) written
    latestVersion := if db.latestVersion < version then version else db.latestVersion }

def setEarliestVersion (ignoreVersion : Bool) (db : Database) : Database :=
  if db.earliestVersion < version ∨ ignoreVersion then
    { db with
      earliestVersion := version
      storage := putRow db.compare (earliestVersionKey, littleEndian 8 version) db.storage }
  else db

end Database

structure VersionedChangesets where
  version : Nat
  changesets : List NamedChangeSet
  deriving DecidableEq, Repr

/-- Write a history. -/
def Database.applyAll (history : List VersionedChangesets) (db : Database) : Database :=
  history.foldl (fun db entry => db.applyChangesetSync entry.version entry.changesets) db

/-! ### Reading -/

/-- The value of a row at a version, or nothing if the row deletes the key:
`visibleValueAtVersionDescending` and the end of `getAscending`. -/
def visibleValueAtVersion (prefixedVal : Bytes) (targetVersion : Nat) :
    Except Failure (Option Bytes) :=
  match splitMVCCKey prefixedVal with
  | none => .error (.invalidValue prefixedVal)
  | some (valBz, tombBz) =>
    if tombBz = [] then .ok (some valBz)
    else
      match decodeVersion descending tombBz with
      | .error error => .error (.decode error)
      | .ok tombstone => if targetVersion < tombstone then .ok (some valBz) else .ok none

def iteratorUpperBoundForLogicalKeyDescending (key : Bytes) : Option Bytes :=
  (prefixEnd key).map fun upperKeyPrefix => mvccEncodeDescending upperKeyPrefix 0

def decodeMVCCEntryDescending (rawIterKey rawIterValue prefixedKey : Bytes) (version : Nat) :
    Except Failure Bytes :=
  match splitMVCCKey rawIterKey with
  | none => .error (.invalidKey rawIterKey)
  | some (userKey, vBz) =>
    if userKey ≠ prefixedKey then .error .recordNotFound
    else
      match decodeUint64Descending vBz with
      | .error error => .error (.decode error)
      | .ok keyVersion =>
        if version < keyVersion then .error .recordNotFound else .ok rawIterValue

namespace Database

/-- A Pebble iterator with the given bounds. -/
def newIter (lowerBound : Bytes) (upperBound : Option Bytes) : Cursor Bytes Bytes :=
  Cursor.within db.compare db.storage lowerBound upperBound

def getMVCCSliceDescending (storeKey : StoreKey) (key : Bytes) (version : Nat) :
    Except Failure Bytes :=
  let prefixedKey := prependStoreKey storeKey key
  let itr := db.newIter (mvccEncodeDescending prefixedKey version)
    (iteratorUpperBoundForLogicalKeyDescending prefixedKey)
  match itr.first.current with
  | none => .error .recordNotFound
  | some row => decodeMVCCEntryDescending row.1 row.2 prefixedKey version

def getMVCCSliceAscending (storeKey : StoreKey) (key : Bytes) (version : Nat) :
    Except Failure Bytes :=
  -- the upper bound is exclusive
  let version := if version < maxInt64 then version + 1 else version
  let itr := db.newIter (mvccEncodeAscending (prependStoreKey storeKey key) 0)
    (some (mvccEncodeAscending (prependStoreKey storeKey key) version))
  match itr.last.current with
  | none => .error .recordNotFound
  | some row =>
    match splitMVCCKey row.1 with
    | none => .error (.invalidKey row.1)
    | some (_, vBz) =>
      match decodeUint64Ascending vBz with
      | .error error => .error (.decode error)
      | .ok keyVersion =>
        if version < keyVersion then .error (.keyVersionTooLarge keyVersion) else .ok row.2

def get (storeKey : StoreKey) (targetVersion : Nat) (key : Bytes) : Except Failure (Option Bytes) :=
  if targetVersion < db.earliestVersion then .ok none
  else
    let slice :=
      if db.descending then db.getMVCCSliceDescending storeKey key targetVersion
      else db.getMVCCSliceAscending storeKey key targetVersion
    match slice with
    | .error .recordNotFound => .ok none
    | .error failure => .error failure
    | .ok prefixedVal => visibleValueAtVersion db.descending prefixedVal targetVersion

def has (storeKey : StoreKey) (version : Nat) (key : Bytes) : Except Failure Bool :=
  if version < db.earliestVersion then .ok false
  else
    match db.get storeKey version key with
    | .error failure => .error failure
    | .ok val => .ok val.isSome

end Database

end SeiChain.StateStore.Mvcc
