/-
This file models the versioned database of the state store. Pebble holds a row
for every key and version that was written, and the latest and the earliest
version under two keys of their own. A block's change sets first go to the
changelog and into a queue; a background writer takes them from the queue and
applies each in one atomic batch, which also moves the latest version. The
latest version can be moved without a batch as well.

A process that crashes loses the queue and what it had in memory. It keeps the
changelog and what Pebble holds.

A nil value deletes its key and an empty one does not, but the changelog gives
both back as nil.
-/

import SeiChain.StateStore.Mvcc.Contents

namespace SeiChain.StateStore

open Library List Mvcc

abbrev Key := Bytes
abbrev Value := Bytes

/-- A pair as the changelog gives it back: protobuf leaves an empty value out, and a value that was
left out is nil. -/
def loggedPair (pair : KVPair) : KVPair := { pair with value := pair.value.filter (· ≠ []) }

def logged (entry : VersionedChangesets) : VersionedChangesets :=
  { entry with changesets := entry.changesets.map fun changeset =>
      { changeset with pairs := changeset.pairs.map loggedPair } }

/-- What the entries up to `version` leave under an address. -/
def loggedValue (log : List VersionedChangesets) (version : Nat) (address : Address) :
    Option Value :=
  valueAt (log.map VersionedChangesets.change) version address

/-- What Pebble holds. A version key that was never set reads as 0. -/
structure Storage where
  rows : Rows Address Value
  latestVersion : Nat
  earliestVersion : Nat

structure Database where
  storage : Storage
  latestVersion : Nat
  earliestVersion : Nat
  changelog : List VersionedChangesets
  pendingChanges : List VersionedChangesets

variable (version : Nat) (changesets : List NamedChangeSet)

namespace Database

/-- A database over what an earlier process left: `OpenDB`. -/
def openDB (storage : Storage) (changelog : List VersionedChangesets) : Database where
  storage := storage
  latestVersion := storage.latestVersion
  earliestVersion := storage.earliestVersion
  changelog := changelog
  pendingChanges := []

/-- A database in a new directory. -/
def fresh : Database := openDB ⟨fun _ => none, 0, 0⟩ []

variable (db : Database)

/-- The process ends and the next one opens the same directory. -/
def reopen : Database := openDB db.storage db.changelog

def setLatestVersion : Database :=
  { db with
    latestVersion := version
    storage := { db.storage with latestVersion := version } }

/-- The genesis state comes with version 0 and is kept under version 1. -/
def batchVersion : Nat := if version = 0 then 1 else version

def applyChangesetSync : Database :=
  let entry : VersionedChangesets := ⟨version, changesets⟩
  let version := batchVersion version
  { db with
    storage := { db.storage with
      rows := db.storage.rows.put entry.change
      latestVersion := version }
    -- the version in memory is never lowered, the stored one can be
    latestVersion := if db.latestVersion < version then version else db.latestVersion }

def applyChangesetAsync : Database :=
  { db with
    changelog := db.changelog ++ [logged ⟨version, changesets⟩]
    pendingChanges := db.pendingChanges ++ [⟨version, changesets⟩] }

/-- One turn of the background writer, if something is queued. -/
def writeAsyncInBackground : Option Database :=
  match db.pendingChanges with
  | [] => none
  | nextChange :: rest =>
    some ({ db with pendingChanges := rest }.applyChangesetSync nextChange.version
      nextChange.changesets)

def get (storeKey : StoreKey) (targetVersion : Nat) (key : Key) : Option Value :=
  if targetVersion < db.earliestVersion then none
  else db.storage.rows.read (storeKey, key) targetVersion

end Database

/-! ### Histories -/

/-- No value is empty without being nil. -/
def NoEmptyValue (changesets : List NamedChangeSet) : Prop :=
  ∀ changeset ∈ changesets, ∀ pair ∈ changeset.pairs, pair.value ≠ some []

instance (changesets : List NamedChangeSet) : Decidable (NoEmptyValue changesets) := by
  unfold NoEmptyValue
  infer_instance

/-- Entries with growing versions, none of them 0. -/
def Growing (log : List VersionedChangesets) : Prop :=
  log.Pairwise (fun first second => first.version < second.version) ∧
    ∀ entry ∈ log, 0 < entry.version

variable {history applied rest : List VersionedChangesets} {db : Database} {version bound : Nat}
  {changesets : List NamedChangeSet} {entry : VersionedChangesets} {storage : Storage}

theorem logged_eq (noEmpty : NoEmptyValue entry.changesets) : logged entry = entry := by
  have samePair (changeset) (isSet : changeset ∈ entry.changesets) (pair)
      (isPair : pair ∈ changeset.pairs) : loggedPair pair = id pair := by
    obtain ⟨key, value⟩ := pair
    have given := noEmpty changeset isSet _ isPair
    cases value with
    | none => rfl
    | some value => simpa [loggedPair, Option.filter_some] using given
  refine congrArg (VersionedChangesets.mk entry.version) ((map_congr_left ?_).trans (map_id _))
  intro changeset isSet
  rw [map_congr_left (samePair changeset isSet), map_id]
  rfl

theorem change_version (positive : 0 < entry.version) : entry.change.version = entry.version :=
  if_neg positive.ne'

theorem Growing.append (growing : Growing history) (positive : 0 < entry.version)
    (newer : ∀ old ∈ history, old.version < entry.version) : Growing (history ++ [entry]) := by
  obtain ⟨ordered, allPositive⟩ := growing
  simpa [Growing, pairwise_append, or_imp, forall_and, positive, ordered] using
    And.intro newer allPositive

theorem Growing.read_rowsOf (growing : Growing history) {address : Address} :
    (rowsOf (history.map VersionedChangesets.change)).read address version =
      loggedValue history version address := by
  refine Library.read_rowsOf (pairwise_map.mpr (growing.1.imp_of_mem fun first second less => ?_))
  rw [change_version (growing.2 _ first), change_version (growing.2 _ second)]
  exact less.le

/-- Entries that are newer than the version asked for do not count. -/
theorem Growing.loggedValue_append (growing : Growing (history ++ rest))
    (newer : ∀ entry ∈ rest, version < entry.version) (address : Address) :
    loggedValue (history ++ rest) version address = loggedValue history version address := by
  rw [loggedValue, map_append]
  refine valueAt_append_newer (forall_mem_map.mpr fun entry isEntry => ?_)
  rw [change_version (growing.2 entry (mem_append_right _ isEntry))]
  exact newer entry isEntry

theorem Growing.left (growing : Growing (history ++ rest)) : Growing history :=
  ⟨(pairwise_append.mp growing.1).1, fun entry member => growing.2 entry (mem_append_left _ member)⟩

/-! ### What a database holds -/

/-- The storage has applied some entries and not the rest, and its version tells where it is. -/
structure Storage.Holds (storage : Storage) (applied rest : List VersionedChangesets) : Prop where
  rows : storage.rows = rowsOf (applied.map VersionedChangesets.change)
  upToDate : ∀ entry ∈ applied, entry.version ≤ storage.latestVersion
  newer : ∀ entry ∈ rest, storage.latestVersion < entry.version
  earliest : storage.earliestVersion = 0

namespace Database

/-- A database shows what it has applied. -/
theorem get_eq (growing : Growing applied) (holds : db.storage.Holds applied rest)
    (earliest : db.earliestVersion = 0) (storeKey : StoreKey) (key : Key) :
    db.get storeKey version key = loggedValue applied version (storeKey, key) := by
  rw [Database.get, earliest, holds.rows]
  exact growing.read_rowsOf

/-- The database was given the entries of the history. It has logged them all and applied those that
are not queued. -/
structure Ok (db : Database) (history : List VersionedChangesets) (bound : Nat) : Prop where
  growing : Growing history
  bounded : ∀ entry ∈ history, entry.version ≤ bound
  logged : db.changelog = history.map logged
  current : ∃ applied, history = applied ++ db.pendingChanges ∧
    db.storage.Holds applied db.pendingChanges
  latest : db.latestVersion = db.storage.latestVersion
  latest_le : db.latestVersion ≤ bound
  earliest : db.earliestVersion = 0

theorem ok_fresh : fresh.Ok [] 0 :=
  ⟨⟨.nil, nofun⟩, nofun, rfl, ⟨[], rfl, rfl, nofun, nofun, rfl⟩, rfl, le_rfl, rfl⟩

section

variable (ok : db.Ok history bound)

include ok

theorem Ok.mono (le : bound ≤ version) : db.Ok history version :=
  { ok with
    bounded := fun entry member => (ok.bounded entry member).trans le
    latest_le := ok.latest_le.trans le }

theorem Ok.applyChangesetAsync (newer : bound < version) :
    (db.applyChangesetAsync version changesets).Ok (history ++ [⟨version, changesets⟩]) version where
  growing := ok.growing.append (Nat.zero_lt_of_lt newer) fun old member =>
    (ok.bounded old member).trans_lt newer
  bounded := by
    simpa [or_imp, forall_and] using fun entry member => (ok.bounded entry member).trans newer.le
  logged := by simp [Database.applyChangesetAsync, ok.logged]
  current := by
    obtain ⟨applied, rfl, holds⟩ := ok.current
    refine ⟨applied, append_assoc .., { holds with newer := ?_ }⟩
    have latest := ok.latest ▸ ok.latest_le.trans_lt newer
    simpa [Database.applyChangesetAsync, or_imp, forall_and] using ⟨holds.newer, latest⟩
  latest := ok.latest
  latest_le := ok.latest_le.trans newer.le
  earliest := ok.earliest

omit ok in
theorem applyChangesetSync_newer (newer : db.latestVersion < version) :
    batchVersion version = version ∧
      (db.applyChangesetSync version changesets).latestVersion = version := by
  have sameVersion : batchVersion version = version := if_neg (Nat.ne_zero_of_lt newer)
  rw [Database.applyChangesetSync, sameVersion]
  exact ⟨rfl, if_pos newer⟩

omit ok in
theorem holds_applyChangesetSync (growing : Growing (applied ++ entry :: rest))
    (holds : db.storage.Holds applied (entry :: rest)) :
    (db.applyChangesetSync entry.version entry.changesets).storage.Holds (applied ++ [entry])
      rest := by
  have positive : 0 < entry.version := growing.2 entry (by simp)
  have version : batchVersion entry.version = entry.version := if_neg positive.ne'
  obtain ⟨-, later, before⟩ := pairwise_append.mp growing.1
  refine ⟨?_, ?_, ?_, holds.earliest⟩
  · change db.storage.rows.put entry.change = _
    rw [holds.rows, map_append, map_singleton, rowsOf_append]
  · change ∀ old ∈ applied ++ [entry], old.version ≤ batchVersion entry.version
    rw [version, forall_mem_append, forall_mem_singleton]
    exact ⟨fun old member => (before old member entry mem_cons_self).le, le_rfl⟩
  · change ∀ next ∈ rest, batchVersion entry.version < next.version
    rw [version]
    exact (pairwise_cons.mp later).1

theorem Ok.writeAsyncInBackground {after : Database}
    (wrote : db.writeAsyncInBackground = some after) : after.Ok history bound := by
  unfold Database.writeAsyncInBackground at wrote
  split at wrote
  · cases wrote
  rename_i entry rest queued
  cases wrote
  obtain ⟨applied, isHistory, holds⟩ := ok.current
  rw [queued] at isHistory holds
  have growing := ok.growing
  have newer : db.latestVersion < entry.version := ok.latest ▸ holds.newer entry mem_cons_self
  obtain ⟨version, reported⟩ := @applyChangesetSync_newer { db with pendingChanges := rest }
    entry.version entry.changesets newer
  refine { ok with
    current := ⟨applied ++ [entry], by rw [isHistory, append_cons]; rfl, ?_⟩
    latest := reported.trans version.symm
    latest_le := reported.trans_le (ok.bounded entry (by simp [isHistory])) }
  rw [isHistory] at growing
  exact @holds_applyChangesetSync _ _ { db with pendingChanges := rest } _ growing holds

/-- The latest version may be moved when nothing is queued. -/
theorem Ok.setLatestVersion (drained : db.pendingChanges = []) (le : bound ≤ version) :
    (db.setLatestVersion version).Ok history version := by
  obtain ⟨applied, isHistory, holds⟩ := ok.current
  rw [drained, append_nil] at isHistory
  subst isHistory
  refine { ok.mono le with
    current := ⟨history, by simp [Database.setLatestVersion, drained], { holds with
      upToDate := fun entry member => (ok.bounded entry member).trans le
      newer := by simp [Database.setLatestVersion, drained] }⟩
    latest := rfl
    latest_le := le_rfl }

/-- Up to the version it reports, a database shows its history. -/
theorem Ok.get (notNewer : version ≤ db.latestVersion) (storeKey : StoreKey) (key : Key) :
    db.get storeKey version key = loggedValue history version (storeKey, key) := by
  obtain ⟨applied, rfl, holds⟩ := ok.current
  rw [get_eq ok.growing.left holds ok.earliest, ok.growing.loggedValue_append]
  exact fun entry queued => notNewer.trans_lt (ok.latest ▸ holds.newer entry queued)

end

end Database

end SeiChain.StateStore
