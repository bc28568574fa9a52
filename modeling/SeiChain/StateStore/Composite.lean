/-
This file models the composite state store and its recovery. The Cosmos half is
one versioned database. With the EVM split the data of the EVM store lives in
databases of its own, either one for everything or one for each kind of key, and
each of them has its own changelog. On start the store replays a changelog: a
binary search finds the first entry that is newer than the older half, and every
later entry is applied to the halves that do not have it yet. The changelog that
is replayed is always that of the Cosmos half.
-/

import SeiChain.StateStore.Database

namespace SeiChain.StateStore

open List Mvcc

/-! ### The EVM half -/

/-- The kinds of EVM keys that have a database. -/
inductive EVMStoreType where
  | nonce
  | codeHash
  | code
  | storage
  | misc
  deriving DecidableEq, Repr

def allEVMStoreTypes : List EVMStoreType := [.nonce, .codeHash, .code, .storage, .misc]

/-- The kind of a key of the EVM store. Only the empty key has none. -/
def parseEVMKey (key : Key) : Option EVMStoreType :=
  match key with
  | [] => none
  | first :: rest =>
    if first = 0x0a then some (if rest.length = 20 then .nonce else .misc)
    else if first = 0x08 then some (if rest.length = 20 then .codeHash else .misc)
    else if first = 0x07 then some (if rest.length = 20 then .code else .misc)
    else if first = 0x03 then some (if rest.length = 52 then .storage else .misc)
    else some .misc

inductive EVMStateStore (DB : Type) where
  /-- One database for all keys. -/
  | unified (primaryDB : DB)
  /-- One database for each kind of key. -/
  | separate (subDBs : EVMStoreType → DB)

variable (version : Nat) (changesets : List NamedChangeSet)

def filterEVMChangesets : List NamedChangeSet :=
  changesets.filter fun changeset => changeset.name = Mvcc.evmStore

def stripEVMFromChangesets : List NamedChangeSet :=
  changesets.filter fun changeset => changeset.name ≠ Mvcc.evmStore

/-- The pairs of one kind. -/
def groupBySubType (storeType : EVMStoreType) : List KVPair :=
  (filterEVMChangesets changesets).flatMap fun changeset =>
    changeset.pairs.filter fun pair => parseEVMKey pair.key = some storeType

namespace EVMStateStore

section

variable {DB : Type} (store : EVMStateStore DB)

def subDB (storeType : EVMStoreType) : DB :=
  match store with
  | unified primaryDB => primaryDB
  | separate subDBs => subDBs storeType

def managedDBs : EVMStateStore DB → List DB
  | unified primaryDB => [primaryDB]
  | separate subDBs => allEVMStoreTypes.map subDBs

def isSeparate : EVMStateStore DB → Bool
  | unified _ => false
  | separate _ => true

/-- Change every database. -/
def mapDBs (change : DB → DB) : EVMStateStore DB → EVMStateStore DB
  | unified primaryDB => unified (change primaryDB)
  | separate subDBs => separate fun storeType => change (subDBs storeType)

/-- Give each database its part of the change sets, if there is one. -/
def applyParts (apply : List NamedChangeSet → DB → DB) (changesets : List NamedChangeSet) :
    EVMStateStore DB → EVMStateStore DB
  | unified primaryDB =>
    let evmChangesets := filterEVMChangesets changesets
    unified (if evmChangesets = [] then primaryDB else apply evmChangesets primaryDB)
  | separate subDBs =>
    separate fun storeType =>
      let pairs := groupBySubType changesets storeType
      if pairs = [] then subDBs storeType else apply [⟨Mvcc.evmStore, pairs⟩] (subDBs storeType)

end

variable (store : EVMStateStore Database)

def get (store : EVMStateStore Database) (version : Nat) (key : Key) : Option Value :=
  match parseEVMKey key with
  | none => none
  | some storeType => (store.subDB storeType).get Mvcc.evmStore version key

/-- The smallest of the versions, 0 if there is none. -/
def minVersion : List Nat → Nat
  | [] => 0
  | [version] => version
  | version :: rest => min version (minVersion rest)

def getLatestVersion : Nat := minVersion (store.managedDBs.map Database.latestVersion)

def getEarliestVersion : Nat := minVersion (store.managedDBs.map Database.earliestVersion)

def setLatestVersion (store : EVMStateStore Database) : EVMStateStore Database :=
  store.mapDBs (Database.setLatestVersion version)

def applyChangesetSync : List NamedChangeSet → EVMStateStore Database → EVMStateStore Database :=
  applyParts (Database.applyChangesetSync version)

def applyChangesetAsync : List NamedChangeSet → EVMStateStore Database → EVMStateStore Database :=
  applyParts (Database.applyChangesetAsync version)

end EVMStateStore

/-! ### Both halves -/

structure CompositeStateStore where
  cosmosStore : Database
  evmStore : Option (EVMStateStore Database)

variable (store : CompositeStateStore)

namespace CompositeStateStore

def getLatestVersion : Nat := store.cosmosStore.latestVersion

def getEarliestVersion : Nat := store.cosmosStore.earliestVersion

def get (store : CompositeStateStore) (storeKey : StoreKey) (version : Nat) (key : Key) :
    Option Value :=
  match store.evmStore with
  | none => store.cosmosStore.get storeKey version key
  | some evmStore =>
    if storeKey = Mvcc.evmStore then evmStore.get version key
    else store.cosmosStore.get storeKey version key

def setLatestVersion (store : CompositeStateStore) : CompositeStateStore where
  cosmosStore := store.cosmosStore.setLatestVersion version
  evmStore := store.evmStore.map (EVMStateStore.setLatestVersion version)

def applyChangesetAsync (store : CompositeStateStore) : CompositeStateStore :=
  match store.evmStore with
  | none => { store with cosmosStore := store.cosmosStore.applyChangesetAsync version changesets }
  | some evmStore =>
    { cosmosStore :=
        store.cosmosStore.applyChangesetAsync version (stripEVMFromChangesets changesets)
      evmStore := some (evmStore.applyChangesetAsync version (filterEVMChangesets changesets)) }

end CompositeStateStore

/-! ### Recovery -/

variable (changelog : List VersionedChangesets)

/-- The version of the entry at an offset. Offsets count from 1. -/
def versionAt (offset : Nat) : Nat := (changelog[offset - 1]?.map VersionedChangesets.version).getD 0

/-- The search of `findReplayStartOffset` between two offsets, in at most `fuel` turns. -/
def searchOffset (changelog : List VersionedChangesets) (targetVersion : Nat) :
    (fuel lo hi result : Nat) → Nat
  | 0, _, _, result => result
  | fuel + 1, lo, hi, result =>
    if lo ≤ hi then
      let mid := lo + (hi - lo) / 2
      if targetVersion < versionAt changelog mid then
        if mid = 1 then mid else searchOffset changelog targetVersion fuel lo (mid - 1) mid
      else searchOffset changelog targetVersion fuel (mid + 1) hi result
    else result

/-- The offset of the first entry that is newer than `targetVersion`. -/
def findReplayStartOffset (targetVersion : Nat) : Nat :=
  searchOffset changelog targetVersion (changelog.length + 1) 1 changelog.length
    (changelog.length + 1)

/-- Give the entries that are newer than `fromVersion` to the handler. -/
def replayWAL {Store : Type} (changelog : List VersionedChangesets) (fromVersion : Nat)
    (handler : Store → VersionedChangesets → Store) (store : Store) : Store :=
  match changelog.getLast? with
  | none => store
  | some lastEntry =>
    if lastEntry.version ≤ fromVersion then store
    else (changelog.drop (findReplayStartOffset changelog fromVersion - 1)).foldl handler store

def replayCosmos (evmSplit : Bool) (cosmosStore : Database) (entry : VersionedChangesets) : Database :=
  (cosmosStore.applyChangesetSync entry.version
    (if evmSplit then stripEVMFromChangesets entry.changesets
      else entry.changesets)).setLatestVersion entry.version

def replayEVM (evmStore : EVMStateStore Database) (entry : VersionedChangesets) :
    EVMStateStore Database :=
  (evmStore.applyChangesetSync entry.version
    (filterEVMChangesets entry.changesets)).setLatestVersion entry.version

/-- What the recovery does with an entry, given the versions of the halves at its start. -/
def recoverEntry (cosmosVersion evmVersion : Nat) (store : CompositeStateStore)
    (entry : VersionedChangesets) : CompositeStateStore where
  cosmosStore :=
    if cosmosVersion < entry.version then
      replayCosmos store.evmStore.isSome store.cosmosStore entry
    else store.cosmosStore
  evmStore := store.evmStore.map fun evmStore =>
    if evmVersion < entry.version then replayEVM evmStore entry else evmStore

/-- The version of the older half. -/
def startVersion : Nat :=
  match store.evmStore with
  | none => store.cosmosStore.latestVersion
  | some evmStore =>
    if evmStore.getLatestVersion < store.cosmosStore.latestVersion then evmStore.getLatestVersion
    else store.cosmosStore.latestVersion

def recoverCompositeStateStore (store : CompositeStateStore) : CompositeStateStore :=
  let cosmosVersion := store.cosmosStore.latestVersion
  let evmVersion := (store.evmStore.map EVMStateStore.getLatestVersion).getD 0
  replayWAL changelog (startVersion store) (recoverEntry cosmosVersion evmVersion) store

/-- A database has data if one of its versions is set. A state sync sets the earliest one only. -/
def ssHasData (latestVersion earliestVersion : Nat) : Bool :=
  0 < latestVersion || 0 < earliestVersion

def validateEVMSSPreRecovery : Except String Unit :=
  match store.evmStore with
  | none => .ok ()
  | some evmStore =>
    if ssHasData store.cosmosStore.latestVersion store.cosmosStore.earliestVersion &&
        !ssHasData evmStore.getLatestVersion evmStore.getEarliestVersion then
      .error ("EVM SS is empty but Cosmos SS already has history; " ++
        "state sync before enabling evm-ss-split, or set evm-ss-split=false")
    else .ok ()

def validateEVMSSPostRecovery : Except String Unit :=
  match store.evmStore with
  | none => .ok ()
  | some evmStore =>
    let cosmosEarliest := store.cosmosStore.earliestVersion
    let evmEarliest := evmStore.getEarliestVersion
    if cosmosEarliest ≠ evmEarliest ∧ (0 < cosmosEarliest ∨ 0 < evmEarliest) then
      .error (s!"EVM SS earliest version {evmEarliest} does not match Cosmos SS earliest version " ++
        s!"{cosmosEarliest}: state sync the EVM SS DB, or set evm-ss-split=false")
    else .ok ()

/-- Open the databases that an earlier process has left in its directories. -/
def newCompositeStateStore (left : CompositeStateStore) : Except String CompositeStateStore := do
  let store : CompositeStateStore :=
    { cosmosStore := left.cosmosStore.reopen
      evmStore := left.evmStore.map (EVMStateStore.mapDBs Database.reopen) }
  validateEVMSSPreRecovery store
  let recovered := recoverCompositeStateStore left.cosmosStore.changelog store
  validateEVMSSPostRecovery recovered
  return recovered

/-! ### The parts of the EVM databases -/

/-- The change sets that the database of one kind of key is given. -/
def part (separateEVMSubDBs : Bool) (storeType : EVMStoreType) (changesets : List NamedChangeSet) :
    List NamedChangeSet :=
  if separateEVMSubDBs then
    let pairs := groupBySubType changesets storeType
    if pairs = [] then [] else [⟨Mvcc.evmStore, pairs⟩]
  else filterEVMChangesets changesets

/-- The history of the database of one kind of key. -/
def routed (separateEVMSubDBs : Bool) (storeType : EVMStoreType)
    (history : List VersionedChangesets) : List VersionedChangesets :=
  (history.map fun entry => ⟨entry.version, part separateEVMSubDBs storeType entry.changesets⟩).filter
    fun entry => entry.changesets ≠ []

section

variable {DB : Type} {store : EVMStateStore DB} {storeType : EVMStoreType}

theorem subDB_mapDBs (change : DB → DB) :
    (store.mapDBs change).subDB storeType = change (store.subDB storeType) := by
  cases store <;> rfl

theorem subDB_applyParts (apply : List NamedChangeSet → DB → DB) :
    (store.applyParts apply changesets).subDB storeType =
      if part store.isSeparate storeType changesets = [] then store.subDB storeType
      else apply (part store.isSeparate storeType changesets) (store.subDB storeType) := by
  cases store with
  | unified => rfl
  | separate =>
    simp only [EVMStateStore.applyParts, part, EVMStateStore.isSeparate, EVMStateStore.subDB, if_true]
    split <;> simp_all

/-- Every database sees its part of a history. -/
theorem foldl_applyParts (apply : Nat → List NamedChangeSet → DB → DB)
    (history : List VersionedChangesets) (storeType : EVMStoreType) :
    let after := history.foldl (fun store entry =>
      store.applyParts (apply entry.version) entry.changesets) store
    after.isSeparate = store.isSeparate ∧
      after.subDB storeType = (routed store.isSeparate storeType history).foldl
        (fun db entry => apply entry.version entry.changesets db) (store.subDB storeType) := by
  induction history generalizing store with
  | nil => exact ⟨rfl, rfl⟩
  | cons entry history ih =>
    obtain ⟨sameLayout, subDB_eq⟩ := @ih (store.applyParts (apply entry.version) entry.changesets)
    have layout : (store.applyParts (apply entry.version) entry.changesets).isSeparate =
        store.isSeparate := by cases store <;> rfl
    refine ⟨sameLayout.trans layout, subDB_eq.trans ?_⟩
    rw [layout, subDB_applyParts, routed, routed, map_cons]
    by_cases empty : part store.isSeparate storeType entry.changesets = []
    · rw [filter_cons_of_neg (by simp [empty]), if_pos empty]
    · rw [filter_cons_of_pos (by simp [empty]), if_neg empty]
      rfl

end

/-! ### The replayed entries -/

variable {older newer : List VersionedChangesets} {fromVersion : Nat}

section

variable (isOlder : ∀ entry ∈ older, entry.version ≤ fromVersion)
  (isNewer : ∀ entry ∈ newer, fromVersion < entry.version)

include isOlder isNewer

theorem newer_versionAt_iff (offset : Nat) (first : 1 ≤ offset)
    (last : offset ≤ (older ++ newer).length) :
    fromVersion < versionAt (older ++ newer) offset ↔ older.length < offset := by
  rw [length_append] at last
  by_cases within : older.length < offset
  · have inNewer : offset - 1 - older.length < newer.length := by omega
    rw [versionAt, getElem?_append_right (by omega), getElem?_eq_getElem inNewer]
    exact ⟨fun _ => within, fun _ => isNewer _ (getElem_mem inNewer)⟩
  · have inOlder : offset - 1 < older.length := by omega
    rw [versionAt, getElem?_append_left inOlder, getElem?_eq_getElem inOlder]
    exact ⟨fun isLater => absurd isLater (not_lt.mpr (isOlder _ (getElem_mem inOlder))),
      fun beyond => absurd beyond within⟩

/-- The search ends at the first newer entry. It keeps that entry between `lo` and `hi + 1`, and the
result is always `hi + 1`. -/
theorem searchOffset_eq {fuel lo hi : Nat} (first : 1 ≤ lo)
    (last : hi ≤ (older ++ newer).length) (above : lo ≤ older.length + 1)
    (below : older.length ≤ hi) (enough : hi + 1 < lo + fuel) :
    searchOffset (older ++ newer) fromVersion fuel lo hi (hi + 1) = older.length + 1 := by
  induction fuel generalizing lo hi with
  | zero => omega
  | succ fuel ih =>
    rw [searchOffset]
    by_cases unfinished : lo ≤ hi
    · rw [if_pos unfinished]
      have middle := newer_versionAt_iff isOlder isNewer (lo + (hi - lo) / 2) (by omega) (by omega)
      by_cases isLater : older.length < lo + (hi - lo) / 2
      · rw [if_pos (middle.mpr isLater)]
        by_cases atFirst : lo + (hi - lo) / 2 = 1
        · rw [if_pos atFirst]
          omega
        · rw [if_neg atFirst]
          have search : searchOffset (older ++ newer) fromVersion fuel lo
              (lo + (hi - lo) / 2 - 1) (lo + (hi - lo) / 2 - 1 + 1) = older.length + 1 :=
            ih first (by omega) above (by omega) (by omega)
          rwa [Nat.sub_add_cancel (by omega)] at search
      · rw [if_neg (mt middle.mp isLater)]
        exact ih (by omega) last (by omega) below (by omega)
    · rw [if_neg unfinished]
      omega

/-- The handler gets exactly the newer entries. -/
theorem replayWAL_eq {Store : Type} {handler : Store → VersionedChangesets → Store} {store : Store} :
    replayWAL (older ++ newer) fromVersion handler store = newer.foldl handler store := by
  have start : findReplayStartOffset (older ++ newer) fromVersion = older.length + 1 := by
    refine searchOffset_eq isOlder isNewer (Nat.le_refl 1) (Nat.le_refl _) (by omega) ?_ (by omega)
    rw [length_append]
    exact Nat.le_add_right _ _
  rw [replayWAL, start, Nat.add_sub_cancel, drop_left]
  cases newer using List.reverseRecOn with
  | nil =>
    rw [append_nil]
    split
    · rfl
    · rename_i isLast
      rw [if_pos (isOlder _ (mem_of_getLast? isLast))]
      rfl
  | append_singleton front last =>
    have isLast : (older ++ (front ++ [last])).getLast? = some last := by
      rw [← append_assoc, getLast?_concat]
    have lastNewer := isNewer last (by simp)
    rw [isLast]
    exact if_neg (not_le.mpr lastNewer)

end

variable {log applied lost : List VersionedChangesets} {store : CompositeStateStore}

theorem exists_split_at (growing : Growing log) (fromVersion : Nat) :
    ∃ older newer, log = older ++ newer ∧ (∀ entry ∈ older, entry.version ≤ fromVersion) ∧
      ∀ entry ∈ newer, fromVersion < entry.version := by
  induction log with
  | nil => exact ⟨[], [], rfl, nofun, nofun⟩
  | cons entry rest ih =>
    obtain ⟨later, restOrdered⟩ := pairwise_cons.mp growing.1
    by_cases isNewer : fromVersion < entry.version
    · refine ⟨[], entry :: rest, rfl, nofun, fun other member => ?_⟩
      rcases mem_cons.mp member with rfl | inRest
      · exact isNewer
      · exact lt_trans isNewer (later other inRest)
    · obtain ⟨older, newer, rfl, isOlder, areNewer⟩ := ih
        ⟨restOrdered, fun other member => growing.2 other (.tail _ member)⟩
      refine ⟨entry :: older, newer, rfl, fun other member => ?_, areNewer⟩
      rcases mem_cons.mp member with rfl | inOlder
      · exact not_lt.mp isNewer
      · exact isOlder other inOlder

/-- Each half gets the entries that are newer than the half. -/
theorem foldl_recoverEntry {cosmosVersion evmVersion : Nat} (entries : List VersionedChangesets) :
    entries.foldl (recoverEntry cosmosVersion evmVersion) store =
      { cosmosStore := (entries.filter fun entry => cosmosVersion < entry.version).foldl
          (replayCosmos store.evmStore.isSome) store.cosmosStore
        evmStore := store.evmStore.map fun evmStore =>
          (entries.filter fun entry => evmVersion < entry.version).foldl replayEVM evmStore } := by
  induction entries generalizing store with
  | nil => simp
  | cons entry rest ih =>
    rw [foldl_cons, ih]
    obtain ⟨cosmosStore, evmStore⟩ := store
    by_cases cosmosNewer : cosmosVersion < entry.version <;>
      by_cases evmNewer : evmVersion < entry.version <;>
        cases evmStore <;> simp [recoverEntry, cosmosNewer, evmNewer]

theorem filter_newer_append (isOlder : ∀ entry ∈ older, entry.version ≤ fromVersion)
    {version : Nat} (notOlder : fromVersion ≤ version) :
    (older ++ newer).filter (fun entry => version < entry.version) =
      newer.filter fun entry => version < entry.version := by
  have noneOlder : older.filter (fun entry => version < entry.version) = [] :=
    filter_eq_nil_iff.mpr fun entry member => by
      have := isOlder entry member
      simp only [decide_eq_true_eq]
      omega
  rw [filter_append, noneOlder, nil_append]

/-- The recovery replays to each half the entries that are newer than the half. -/
theorem recoverCompositeStateStore_eq (growing : Growing log) :
    recoverCompositeStateStore log store =
      { cosmosStore := (log.filter fun entry =>
            store.cosmosStore.latestVersion < entry.version).foldl
          (replayCosmos store.evmStore.isSome) store.cosmosStore
        evmStore := store.evmStore.map fun evmStore =>
          (log.filter fun entry => evmStore.getLatestVersion < entry.version).foldl replayEVM
            evmStore } := by
  obtain ⟨older, newer, rfl, isOlder, isNewer⟩ := exists_split_at growing (startVersion store)
  rw [recoverCompositeStateStore, replayWAL_eq isOlder isNewer, foldl_recoverEntry]
  obtain ⟨cosmosStore, evmStore⟩ := store
  cases evmStore with
  | none =>
    have notAfter : startVersion ⟨cosmosStore, none⟩ ≤ cosmosStore.latestVersion := le_refl _
    simp only [filter_newer_append isOlder notAfter, Option.map_none]
  | some evmStore =>
    have notAfter : startVersion ⟨cosmosStore, some evmStore⟩ ≤ cosmosStore.latestVersion ∧
        startVersion ⟨cosmosStore, some evmStore⟩ ≤ evmStore.getLatestVersion := by
      simp only [startVersion]
      split <;> omega
    simp only [Option.map_some, Option.getD_some, filter_newer_append isOlder notAfter.1,
      filter_newer_append isOlder notAfter.2]

/-! ### The replayed database -/

theorem growing_logged (growing : Growing log) : Growing (log.map logged) :=
  ⟨pairwise_map.mpr growing.1, forall_mem_map.mpr growing.2⟩

section

variable {db : Database}

/-- A database that has the older entries and gets the others in order has all of them. -/
theorem holds_replayCosmos {evmSplit : Bool} (growing : Growing (applied ++ lost))
    (holds : db.storage.Holds applied lost)
    (stripped : evmSplit = true → ∀ entry ∈ lost,
      stripEVMFromChangesets entry.changesets = entry.changesets) :
    (lost.foldl (replayCosmos evmSplit) db).storage.Holds (applied ++ lost) [] ∧
      (lost.foldl (replayCosmos evmSplit) db).earliestVersion = db.earliestVersion := by
  induction lost generalizing db applied with
  | nil => exact ⟨by simpa using holds, rfl⟩
  | cons entry rest ih =>
    have sameSets : (if evmSplit then stripEVMFromChangesets entry.changesets
        else entry.changesets) = entry.changesets := by
      split
      · exact stripped ‹_› entry mem_cons_self
      · rfl
    have sameStorage : (replayCosmos evmSplit db entry).storage =
        (db.applyChangesetSync entry.version entry.changesets).storage := by
      have version : Database.batchVersion entry.version = entry.version :=
        if_neg (growing.2 entry (by simp)).ne'
      simp [replayCosmos, sameSets, Database.setLatestVersion, Database.applyChangesetSync, version]
    have replayed := sameStorage ▸ Database.holds_applyChangesetSync growing holds
    rw [append_cons] at growing ⊢
    exact ih growing replayed fun split other member => stripped split other (.tail _ member)

/-- After a crash the replay gives the database what Pebble has lost, and with that all of its
history, unless the changelog has turned an empty value of it into nil. -/
theorem replayed_get {evmSplit : Bool} (growing : Growing (applied ++ lost))
    (isLog : db.changelog = (applied ++ lost).map logged) (holds : db.storage.Holds applied lost)
    (noEmpty : ∀ entry ∈ lost, NoEmptyValue entry.changesets)
    (stripped : evmSplit = true → ∀ entry ∈ lost,
      stripEVMFromChangesets entry.changesets = entry.changesets) :
    let recovered := (db.changelog.filter fun entry =>
      db.reopen.latestVersion < entry.version).foldl (replayCosmos evmSplit) db.reopen
    recovered.earliestVersion = 0 ∧ ∀ version storeKey key,
      recovered.get storeKey version key =
        loggedValue (applied ++ lost) version (storeKey, key) := by
  have replays : db.changelog.filter (fun entry => db.reopen.latestVersion < entry.version) =
      lost := by
    have same : lost.map logged = lost :=
      (map_congr_left fun entry member => logged_eq (noEmpty entry member)).trans (map_id _)
    have older : ∀ entry ∈ applied.map logged, entry.version ≤ db.reopen.latestVersion :=
      forall_mem_map.mpr holds.upToDate
    rw [isLog, map_append, same, filter_newer_append older le_rfl]
    exact filter_eq_self.mpr fun entry member => decide_eq_true (holds.newer entry member)
  have opened : db.reopen.storage.Holds applied lost := holds
  obtain ⟨all, earliest⟩ := holds_replayCosmos growing opened stripped
  have earliest := earliest.trans holds.earliest
  simp only [replays]
  exact ⟨earliest, fun version => Database.get_eq growing all earliest⟩

end

end SeiChain.StateStore
