/-
This file models the iterators of the versioned database (`iterator.go` and
`iterator_ascending.go`). An iterator moves a Pebble iterator: it seeks the newest
visible row of a key, skips the key if there is none or if that row is a deletion,
and goes on to the next or the previous key of the store. The two iterators differ
in the seeks they use; the walk over the keys is the same.

A walk's loop is given as many turns as there are rows and one more.
-/

import SeiChain.StateStore.Mvcc.Database

namespace SeiChain.StateStore.Mvcc

open Library

structure Iterator where
  source : Cursor Bytes Bytes
  storePrefix : Bytes
  /-- The end of the domain, exclusive. -/
  endKey : Option Bytes
  version : Nat
  valid : Bool
  reverse : Bool
  useDefaultComparer : Bool
  /-- Whether this is the iterator over descending or the one over ascending versions. -/
  descending : Bool

/-- Whether a value is that of a deletion, at whatever version. -/
def valTombstoned (value : Bytes) : Except Failure Bool :=
  match splitMVCCKey value with
  | none => .error .panicked
  | some (_, tombBz) => .ok (tombBz ≠ [])

namespace Iterator

/-! ### Seeks -/

variable (itr : Iterator)

def visibleVersionUpperBound (key : Bytes) : Bytes :=
  mvccEncodeAscending key (if itr.version < maxInt64 then itr.version + 1 else itr.version)

/-- Whether a row is one of `targetKey` that is visible to the iterator. -/
def visible (targetKey : Bytes) (row : Option (Bytes × Bytes)) : Bool :=
  match row with
  | none => false
  | some row =>
    match splitMVCCKey row.1 with
    | none => false
    | some (foundKey, foundVersion) =>
      if foundKey ≠ targetKey then false
      else
        match decodeVersion itr.descending foundVersion with
        | .error _ => false
        | .ok version => version ≤ itr.version

def seekVisibleVersionForKey (targetKey : Bytes) : Iterator :=
  let source :=
    if itr.descending then itr.source.seekGE (mvccEncodeDescending targetKey itr.version)
    else itr.source.seekLT (itr.visibleVersionUpperBound targetKey)
  { itr with source, valid := itr.visible targetKey source.current }

/-- Step over the rows of `currKey`: what is left, and the key of the row in front if that is one
of the store. -/
def scanLogicalKey (storePrefix currKey : Bytes) :
    List (Bytes × Bytes) → List (Bytes × Bytes) × Option Bytes
  | [] => ([], none)
  | row :: rest =>
    match splitMVCCKey row.1 with
    | none => (row :: rest, none)
    | some (nextKey, _) =>
      if ¬ storePrefix <+: nextKey then (row :: rest, none)
      else if nextKey ≠ currKey then (row :: rest, some nextKey)
      else scanLogicalKey storePrefix currKey rest

variable (source : Cursor Bytes Bytes)

/-- The key of the store that the source stands on. -/
def logicalKey : Option Bytes :=
  match source.current with
  | none => none
  | some row =>
    match splitMVCCKey row.1 with
    | none => none
    | some (key, _) => if itr.storePrefix <+: key then some key else none

/-- Scan from where the source stands. -/
def scanFrom (currKey : Bytes) : Iterator × Option Bytes :=
  let (position, nextKey) := scanLogicalKey itr.storePrefix currKey source.position
  ({ itr with source := { source with position } }, nextKey)

def nextLogicalKeyByScan (currKey : Bytes) : Iterator × Option Bytes :=
  itr.scanFrom itr.source.next currKey

def nextLogicalKey (currKey : Bytes) : Iterator × Option Bytes :=
  if itr.descending then
    if itr.useDefaultComparer then itr.nextLogicalKeyByScan currKey
    else
      let source := itr.source.seekGE (immediateSuccessor (mvccEncodeDescending currKey 0))
      ({ itr with source }, itr.logicalKey source)
  else
    -- a row of `currKey` at the largest version is stepped over
    itr.scanFrom (itr.source.seekGE (mvccEncodeAscending currKey maxInt64)) currKey

def prevLogicalKey (currKey : Bytes) : Iterator × Option Bytes :=
  let source :=
    if itr.descending then itr.source.seekLT (mvccEncodeDescending currKey maxInt64)
    else itr.source.seekLT (mvccEncodeAscending currKey 0)
  ({ itr with source }, itr.logicalKey source)

/-! ### The walk -/

def cursorTombstoned : Except Failure Bool :=
  match itr.source.current with
  | none => .error .panicked
  | some row =>
    match splitMVCCKey row.2 with
    | none => .error .panicked
    | some (_, tombBz) =>
      if tombBz = [] then .ok false
      else
        match decodeVersion itr.descending tombBz with
        | .error _ => .error .panicked
        | .ok tombstone => .ok (tombstone ≤ itr.version)

/-- `positionAtOrAfterKey` and `positionAtOrBeforeKey`: find the first live key from `currentKey`
on, in the direction that `advance` goes. -/
def positionFrom (advance : Iterator → Bytes → Iterator × Option Bytes) :
    Nat → Iterator → Bytes → Except Failure Iterator
  | 0, _, _ => .error .outOfFuel
  | fuel + 1, itr, currentKey => do
    let itr := itr.seekVisibleVersionForKey currentKey
    let skipped ← if itr.valid then itr.cursorTombstoned else .ok true
    if skipped then
      match advance itr currentKey with
      | (itr, none) => return { itr with valid := false }
      | (itr, some key) => positionFrom advance fuel itr key
    else return itr

/-- The turns that a walk is given. -/
def fuel : Nat := itr.source.rows.length + 1

/-- `nextForward` and `nextReverse`. -/
def nextWith (advance : Iterator → Bytes → Iterator × Option Bytes) (itr : Iterator) :
    Except Failure Iterator :=
  match itr.source.current with
  | none => .ok { itr with valid := false }
  | some row =>
    match splitMVCCKey row.1 with
    | none => .error .panicked
    | some (currKey, _) =>
      match advance itr currKey with
      | (itr, none) => .ok { itr with valid := false }
      | (itr, some key) => positionFrom advance itr.fuel itr key

/-- The direction of the iterator. -/
def advance : Iterator → Bytes → Iterator × Option Bytes :=
  if itr.reverse then prevLogicalKey else nextLogicalKey

def key (itr : Iterator) : Except Failure Bytes :=
  if !itr.valid then .error .panicked
  else
    match itr.source.current with
    | none => .error .panicked
    | some row =>
      match splitMVCCKey row.1 with
      | none => .error .panicked
      | some (key, _) =>
        if key.length < itr.storePrefix.length then .error .panicked
        else .ok (key.drop itr.storePrefix.length)

def value : Except Failure Bytes :=
  if !itr.valid then .error .panicked
  else
    match itr.source.current with
    | none => .error .panicked
    | some row =>
      match splitMVCCKey row.2 with
      | none => .error .panicked
      | some (val, _) => .ok val

/-- `Valid`, which also remembers that the iterator is no longer valid. -/
def checkValid : Except Failure Iterator :=
  if !itr.valid || !itr.source.valid then .ok { itr with valid := false }
  else
    match itr.endKey with
    | none => .ok itr
    | some endKey => do
      let key ← itr.key
      if endKey ≤ key then return { itr with valid := false } else return itr

def next : Except Failure Iterator := do
  let itr ← nextWith itr.advance itr
  itr.checkValid

/-! ### Making an iterator and using it up -/

/-- Position a new iterator from the key that its source stands on. -/
def findFirst : Except Failure Iterator :=
  match itr.source.current with
  | none => .ok itr
  | some row =>
    match splitMVCCKey row.1 with
    | none => .error .panicked
    | some (currKey, _) => positionFrom itr.advance itr.fuel itr currKey

/-- Move on from a deletion. -/
def skipTombstone : Except Failure Iterator :=
  match itr.valid, itr.source.current with
  | true, some row => do
    if ← valTombstoned row.2 then nextWith itr.advance itr else .ok itr
  | _, _ => .ok itr

/-- `newPebbleDBIterator` and `newAscendingIterator`, from an iterator with a new source. -/
def start (earliestVersion : Nat) : Except Failure Iterator :=
  if itr.version < earliestVersion then .ok { itr with valid := false }
  else do
    let source := if itr.reverse then itr.source.last else itr.source.first
    let itr ← { itr with source, valid := source.valid }.findFirst
    let itr ← itr.skipTombstone
    itr.checkValid

/-- What a caller collects that asks for key, value and the next key while the iterator is
valid. -/
def drain : Nat → Iterator → Except Failure (List (Bytes × Bytes))
  | 0, _ => .error .outOfFuel
  | fuel + 1, itr => do
    let itr ← itr.checkValid
    if itr.valid then
      let key ← itr.key
      let value ← itr.value
      let itr ← itr.next
      let rest ← drain fuel itr
      return (key, value) :: rest
    else return []

end Iterator

def iteratorUpperBoundForStoreDescending (storeKey : StoreKey) : Option Bytes :=
  (prefixEnd (storePrefix storeKey)).map fun upperStorePrefix =>
    mvccEncodeDescending upperStorePrefix 0

namespace Database

variable (db : Database)

/-- The upper bound of an iterator's source. -/
def iteratorUpperBound (reverse : Bool) (storeKey : StoreKey) (endKey : Option Bytes) :
    Option Bytes :=
  match endKey with
  | some endKey => some (mvccEncode (prependStoreKey storeKey endKey) 0 db.descending)
  | none =>
    if db.descending then
      if reverse then
        some (mvccEncodeDescending ((prefixEnd (storePrefix storeKey)).getD []) 0)
      else iteratorUpperBoundForStoreDescending storeKey
    else if reverse then
      some (mvccEncodeAscending ((prefixEnd (storePrefix storeKey)).getD []) 0)
    -- the forward iterator over ascending versions has no bound here
    else none

/-- An iterator that is not yet positioned. -/
def newIterator (reverse : Bool) (storeKey : StoreKey) (version : Nat)
    (startKey endKey : Option Bytes) : Iterator where
  source := db.newIter (mvccEncode (prependStoreKey storeKey (startKey.getD [])) 0 db.descending)
    (db.iteratorUpperBound reverse storeKey endKey)
  storePrefix := storePrefix storeKey
  endKey := endKey
  version := version
  valid := false
  reverse := reverse
  useDefaultComparer := db.useDefaultComparer
  descending := db.descending

/-- `Iterator` and `ReverseIterator`. -/
def iterator (reverse : Bool) (storeKey : StoreKey) (version : Nat) (startKey endKey : Option Bytes) :
    Except Failure Iterator :=
  if startKey = some [] ∨ endKey = some [] then .error .keyEmpty
  else if ∃ start ∈ startKey, ∃ stop ∈ endKey, stop < start then .error .startAfterEnd
  else (db.newIterator reverse storeKey version startKey endKey).start db.earliestVersion

/-- The keys and values that an iterator yields. -/
def iterate (reverse : Bool) (storeKey : StoreKey) (version : Nat) (startKey endKey : Option Bytes) :
    Except Failure (List (Bytes × Bytes)) := do
  let itr ← db.iterator reverse storeKey version startKey endKey
  itr.drain itr.fuel

end Database

end SeiChain.StateStore.Mvcc
