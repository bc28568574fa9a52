/-
This file models the composite commit store that runs memiavl and flatkv side by
side and changes its write mode at run time. flatkv comes into being with the
first migration; after a restart the mode is derived from what flatkv has
committed, and the backends are brought to one version. A run is any sequence of
calls and restarts, tracked next to what a caller expects to read. Reads are as
expected as long as every restart finds the last committed block recorded: a
block that is committed in a migration mode before its boundary has moved, or
beside an idle flatkv, can be lost.
-/

import SeiChain.Library.Transition
import SeiChain.Migration.Placement

namespace SeiChain.Migration

open Library Option WriteMode

/-! ### Backends with versions -/

/-- A backend: the data at each committed version, and the data with pending writes. -/
structure CommitStore where
  version : Nat
  history : Nat → Database
  working : Database

namespace CommitStore

variable (store : CommitStore)

def committed : Database := store.history store.version

/-- A backend that was just created. -/
def fresh : CommitStore where
  version := 0
  history := fun _ => .empty
  working := .empty

/-- `LoadLatest`: pending writes are lost. -/
def load : CommitStore := { store with working := store.committed }

def commit : CommitStore where
  version := store.version + 1
  history := Function.update store.history (store.version + 1) store.working
  working := store.working

/-- `SetInitialVersion` on a store without a committed version. -/
def setInitialVersion (initialVersion : Nat) : CommitStore :=
  { store with
    version := initialVersion - 1
    history := Function.update store.history (initialVersion - 1) store.committed }

def rollback (targetVersion : Nat) : CommitStore :=
  { store with version := targetVersion, working := store.history targetVersion }

end CommitStore

/-- flatkv without a directory on disk, with a directory that is not open, or open. -/
inductive FlatKV where
  | absent
  | closed (store : CommitStore)
  | opened (store : CommitStore)

namespace FlatKV

def disk : FlatKV → Option CommitStore
  | absent => none
  | closed store | opened store => some store

/-- The data that a reader of an open flatkv gets. -/
def handle : FlatKV → Option Database
  | opened store => some store.working
  | _ => none

/-- The data in flatkv, with pending writes if it is open. -/
def working : FlatKV → Database
  | absent => .empty
  | closed store => store.committed
  | opened store => store.working

def committed : FlatKV → Database
  | absent => .empty
  | closed store | opened store => store.committed

def write (flatKV : FlatKV) (database : Database) : FlatKV :=
  match flatKV with
  | opened store => opened { store with working := database }
  | other => other

end FlatKV

/-! ### The composite store -/

/-- The store, configured with the mode `Auto`: memiavl is always there. -/
structure CompositeCommitStore where
  memIAVL : CommitStore
  flatKV : FlatKV
  currentWriteMode : WriteMode
  router : Router
  migrationBatchSize : Int
  migrationAdvancedThisCommit : Bool

inductive CompositeError where
  | emptyStoreName
  | router (error : RouterError)
  | writeMode (error : WriteModeError)
  | notComplete (source target : WriteMode)
  | badFlatKVVersion (got want : Nat)
  deriving DecidableEq, Repr

/-- Bring a flatkv without a version into lockstep with memiavl. -/
def seedFlatKV (memIAVL flatKV : CommitStore) : CommitStore :=
  if 0 < memIAVL.version ∧ flatKV.version = 0 then flatKV.setInitialVersion (memIAVL.version + 1)
  else flatKV

/-- Roll the backend that is ahead back to the version of the other one. -/
def reconcileVersions (memIAVL flatKV : CommitStore) : CommitStore × CommitStore :=
  if memIAVL.version = flatKV.version ∨ memIAVL.version = 0 ∨ flatKV.version = 0 then
    (memIAVL, flatKV)
  else
    let minVer := min memIAVL.version flatKV.version
    (if minVer < memIAVL.version then memIAVL.rollback minVer else memIAVL,
      if minVer < flatKV.version then flatKV.rollback minVer else flatKV)

variable (stores : InitialStores) (store : CompositeCommitStore)

namespace CompositeCommitStore

def databases : Databases := ⟨store.memIAVL.working, store.flatKV.working⟩

def get (name : StoreName) (key : Key) : Except CompositeError (Option Value) :=
  if name = [] then .error .emptyStoreName
  else (store.router.read store.databases name key).mapError .router

variable (changeSets : List NamedChangeSet)

def forward (firstBatchInBlock : Bool) : Except CompositeError CompositeCommitStore :=
  match store.router.applyChangeSets store.databases changeSets firstBatchInBlock with
  | .error error => .error (.router error)
  | .ok (router, databases) => .ok { store with
      router := router
      memIAVL := { store.memIAVL with working := databases.memIAVL }
      flatKV := store.flatKV.write databases.flatKV }

def applyChangeSets : Except CompositeError CompositeCommitStore :=
  if store.currentWriteMode.isMigrationMode then
    match store.forward changeSets !store.migrationAdvancedThisCommit with
    | .error error => .error error
    | .ok store => .ok { store with migrationAdvancedThisCommit := true }
  else if changeSets.isEmpty then .ok store
  else store.forward changeSets false

def commit (store : CompositeCommitStore) : Except CompositeError CompositeCommitStore :=
  let memIAVL := store.memIAVL.commit
  match store.flatKV with
  | .opened flatKV =>
    if memIAVL.version ≠ flatKV.version + 1 then
      .error (.badFlatKVVersion memIAVL.version (flatKV.version + 1))
    else .ok { store with
      memIAVL := memIAVL
      flatKV := .opened flatKV.commit
      migrationAdvancedThisCommit := false }
  | _ => .ok { store with memIAVL := memIAVL, migrationAdvancedThisCommit := false }

def setMigrationBatchSize (store : CompositeCommitStore) (batchSize : Int) : CompositeCommitStore :=
  let batchSize := if batchSize < 0 then 0 else batchSize
  { store with
    migrationBatchSize := batchSize
    router := store.router.setMigrationBatchSize batchSize }

/-- An open flatkv as it is, and otherwise one that is created, or opened, and seeded. -/
def materializeFlatKV : CommitStore :=
  match store.flatKV with
  | .opened flatKV => flatKV
  | .closed flatKV => seedFlatKV store.memIAVL flatKV.load
  | .absent => seedFlatKV store.memIAVL .fresh

def setWriteMode (targetWriteMode : WriteMode) : Except CompositeError CompositeCommitStore :=
  if targetWriteMode = store.currentWriteMode then .ok store
  else
    match validateTransition store.currentWriteMode targetWriteMode with
    | .error error => .error (.writeMode error)
    | .ok () =>
      match isModeComplete store.flatKV.handle store.currentWriteMode with
      | .error error => .error (.writeMode error)
      | .ok false => .error (.notComplete store.currentWriteMode targetWriteMode)
      | .ok true =>
        let flatKV := store.materializeFlatKV
        match buildRouter stores targetWriteMode (some flatKV.working) store.migrationBatchSize with
        | .error error => .error (.router error)
        | .ok router => .ok { store with
          flatKV := .opened flatKV
          currentWriteMode := targetWriteMode
          router := router
          migrationAdvancedThisCommit := false }

/-- The store of a new process on backends that are loaded. -/
def resolve (memIAVL : CommitStore) (flatKV : FlatKV) (mode : WriteMode) :
    Except CompositeError CompositeCommitStore :=
  match buildRouter stores mode flatKV.handle 0 with
  | .error error => .error (.router error)
  | .ok router => .ok {
      memIAVL := memIAVL
      flatKV := flatKV
      currentWriteMode := mode
      router := router
      migrationBatchSize := 0
      migrationAdvancedThisCommit := false }

/-- The process stops and a new one calls `LoadLatest`. A flatkv that no mode uses is closed
again. -/
def loadLatest : Except CompositeError CompositeCommitStore :=
  match store.flatKV.disk with
  | none => resolve stores store.memIAVL.load .absent .memiavlOnly
  | some flatKV =>
    let (memIAVL, flatKV) :=
      reconcileVersions store.memIAVL.load (seedFlatKV store.memIAVL.load flatKV.load)
    match deriveWriteMode flatKV.working with
    | .error error => .error (.writeMode error)
    | .ok .memiavlOnly => resolve stores memIAVL (.closed flatKV) .memiavlOnly
    | .ok mode => resolve stores memIAVL (.opened flatKV) mode

end CompositeCommitStore

/-! ### Runs -/

inductive CompositeEvent where
  | applyChangeSets (changeSets : List NamedChangeSet)
  | commit
  | setMigrationBatchSize (batchSize : Int)
  | setWriteMode (targetWriteMode : WriteMode)
  | restart
  deriving DecidableEq

/-- A step of the store; a call that returns an error is not a step. -/
def compositeStep : CompositeEvent → Option CompositeCommitStore
  | .applyChangeSets changeSets => (store.applyChangeSets changeSets).toOption
  | .commit => store.commit.toOption
  | .setMigrationBatchSize batchSize => some (store.setMigrationBatchSize batchSize)
  | .setWriteMode targetWriteMode => (store.setWriteMode stores targetWriteMode).toOption
  | .restart => (store.loadLatest stores).toOption

/-- Whether flatkv, as it is about to be committed, stands for the mode of the store, or for the
one behind its completed migration. -/
def CompositeCommitStore.recordsMode : Bool :=
  match store.flatKV with
  | .absent => true
  | .closed _ => false
  | .opened flatKV =>
    match deriveWriteMode flatKV.working with
    | .error _ => false
    | .ok mode => mode = store.currentWriteMode || store.currentWriteMode.nextInChain = some mode

/-- A store with what its caller expects to read, what is committed of it, and whether the last
block was recorded when it was committed. -/
structure TrackedStore where
  store : CompositeCommitStore
  expected : Contents
  committed : Contents
  recorded : Bool

/-- A step of a store next to what its caller expects: its writes, committed or pending; a
restart takes the pending ones back. -/
def trackedCompositeStep (state : TrackedStore) (event : CompositeEvent) : Option TrackedStore :=
  (compositeStep stores state.store event).map fun store =>
    match event with
    | .applyChangeSets changeSets =>
      { state with store := store, expected := overlay state.expected (writesOf changeSets) }
    | .commit =>
      { store := store, expected := state.expected, committed := state.expected,
        recorded := state.store.recordsMode }
    | .restart => { state with store := store, expected := state.committed }
    | _ => { state with store := store }

/-- Blocks write to the stores that were mounted. -/
def CompositeEvent.Mounted (stores : InitialStores) : CompositeEvent → Prop
  | .applyChangeSets changeSets => stores.Mounts changeSets
  | _ => True

instance (stores : InitialStores) : DecidablePred (CompositeEvent.Mounted stores)
  | .applyChangeSets changeSets =>
    inferInstanceAs (Decidable (stores.Mounts changeSets))
  | .commit | .setMigrationBatchSize _ | .setWriteMode _ | .restart => .isTrue trivial

/-- The store is restarted only if its last block was recorded. -/
def RestartsRecorded (stores : InitialStores) (state : TrackedStore) (event : CompositeEvent) :
    Prop :=
  event.Mounted stores ∧ (event = .restart → state.recorded = true)

instance (stores : InitialStores) (state : TrackedStore) (event : CompositeEvent) :
    Decidable (RestartsRecorded stores state event) :=
  inferInstanceAs (Decidable (event.Mounted stores ∧ (event = .restart → state.recorded = true)))

/-- The store before anything is migrated: memiavl alone, with data in the mounted stores and
nothing pending. -/
structure MemiavlOnlyStore : Prop where
  mode : store.currentWriteMode = .memiavlOnly
  flatKV : store.flatKV = .absent
  router : store.router = .passthrough .memIAVL
  loaded : store.memIAVL.working = store.memIAVL.committed
  held : ∀ name key, (store.memIAVL.working.read name key).isSome → name ∈ stores.names

/-- A store at the start of a run. -/
def TrackedStore.start : TrackedStore where
  store := store
  expected := store.memIAVL.working.contents
  committed := store.memIAVL.working.contents
  recorded := true

/-! ### The invariant of a run -/

/-- What is committed, as a restart finds it. -/
def CompositeCommitStore.committedDatabases : Databases :=
  ⟨store.memIAVL.committed, store.flatKV.committed⟩

open CompositeCommitStore

/-- The backends hold the expected data of all modules. -/
def Databases.Holds (databases : Databases) (expected : Contents) : Prop :=
  ∀ store ∈ memIAVLStoreKeys, ∀ key,
    merged databases.memIAVL databases.flatKV (store, key) = expected (store, key)

/-- A restart comes back with what is committed. -/
structure Durable (committed : Contents) : Prop where
  holds : store.committedDatabases.Holds committed
  placed : ∃ mode boundary, Placed stores mode boundary store.committedDatabases ∧
    deriveWriteMode store.flatKV.committed = .ok mode
  lockstep : ∀ flatKV, store.flatKV.disk = some flatKV → flatKV.version = store.memIAVL.version

/-- flatkv is open in every mode but `MemiavlOnly`, which does not touch it. -/
structure ModeOpen : Prop where
  opened : store.currentWriteMode ≠ .memiavlOnly → ∃ flatKV, store.flatKV = .opened flatKV
  idle : store.currentWriteMode = .memiavlOnly →
    store.router = .passthrough .memIAVL ∧ ∀ flatKV, store.flatKV ≠ .opened flatKV

structure CompositeInvariant (state : TrackedStore) : Prop where
  router : RouterInvariant stores state.store.currentWriteMode state.store.router
    state.store.databases
  modeOpen : ModeOpen state.store
  holds : state.store.databases.Holds state.expected
  durable : state.recorded = true → Durable stores state.store state.committed

section Invariant

variable {stores : InitialStores} {store after : CompositeCommitStore} {state : TrackedStore}

theorem compositeInvariant_start (initial : MemiavlOnlyStore stores store) :
    CompositeInvariant stores (.start store) := by
  obtain ⟨memIAVL, flatKV, mode, router, batchSize, advanced⟩ := store
  obtain ⟨⟨⟩, ⟨⟩, ⟨⟩, loaded, held⟩ := initial
  have holds : Databases.Holds ⟨memIAVL.working, .empty⟩ memIAVL.working.contents :=
    fun name _ key => merged_eq_memIAVL (by simp [Database.read, Database.empty])
  have placed : Placed stores .memiavlOnly .notStarted ⟨memIAVL.working, .empty⟩ := by
    refine ⟨by decide, fun name _ key => held name key, ?_, nofun, ?_, nofun, nofun,
      ⟨.inl rfl, rfl⟩, fun _ => ⟨none, rfl, rfl⟩, fun _ => rfl⟩
    all_goals simp [Database.read, Database.empty]
  obtain ⟨router, isBuilt, ok⟩ := buildRouter_of_placed placed none
    (fun different => absurd rfl different) 0
  cases isBuilt
  have isCommitted : (⟨memIAVL.working, .empty⟩ : Databases) = ⟨memIAVL.committed, .empty⟩ :=
    congrArg (Databases.mk · .empty) loaded
  refine ⟨ok, ⟨fun different => absurd rfl different, fun _ => ⟨rfl, nofun⟩⟩, holds, fun _ => ?_⟩
  rw [isCommitted] at holds placed
  exact ⟨holds, ⟨.memiavlOnly, .notStarted, placed, rfl⟩, nofun⟩

/-- Nothing was committed. -/
structure SameCommitted (store after : CompositeCommitStore) : Prop where
  databases : after.committedDatabases = store.committedDatabases
  memIAVLVersion : after.memIAVL.version = store.memIAVL.version
  flatKVVersion : after.flatKV.disk.map CommitStore.version =
    store.flatKV.disk.map CommitStore.version

theorem Durable.congr {committed : Contents}
    (durable : Durable stores store committed) (same : SameCommitted store after) :
    Durable stores after committed where
  holds := same.databases ▸ durable.holds
  placed := by
    obtain ⟨mode, boundary, placed, derived⟩ := durable.placed
    refine ⟨mode, boundary, same.databases ▸ placed, ?_⟩
    rw [show after.flatKV.committed = _ from congrArg Databases.flatKV same.databases]
    exact derived
  lockstep flatKV isDisk := by
    have isVersion := same.flatKVVersion
    rw [isDisk, map_some, eq_comm, map_eq_some_iff] at isVersion
    obtain ⟨before, isBefore, sameVersion⟩ := isVersion
    rw [← sameVersion, same.memIAVLVersion]
    exact durable.lockstep before isBefore

/-- What passing writes on to the router does to the store. -/
structure Forwarded (stores : InitialStores) (store : CompositeCommitStore)
    (changeSets : List NamedChangeSet) (after : CompositeCommitStore) : Prop where
  router : RouterInvariant stores after.currentWriteMode after.router after.databases
  modeOpen : ModeOpen after
  written : ∀ name ∈ memIAVLStoreKeys, ∀ key,
    merged after.databases.memIAVL after.databases.flatKV (name, key) =
      overlay (merged store.databases.memIAVL store.databases.flatKV) (writesOf changeSets)
        (name, key)
  same : SameCommitted store after

variable {changeSets : List NamedChangeSet}

/-- A router without a migration does not write to flatkv in the mode `MemiavlOnly`, where it is
not open. -/
theorem ModeOpen.working_write (modeOpen : ModeOpen store)
    {firstBatchInBlock : Bool} {router : Router} {databases : Databases}
    (isResult : store.router.applyChangeSets store.databases changeSets firstBatchInBlock =
      .ok (router, databases)) :
    (store.flatKV.write databases.flatKV).working = databases.flatKV ∧
      (store.currentWriteMode = .memiavlOnly → router = .passthrough .memIAVL) := by
  by_cases isMode : store.currentWriteMode = .memiavlOnly
  · obtain ⟨isRouter, notOpened⟩ := modeOpen.idle isMode
    rw [isRouter] at isResult
    cases isResult
    refine ⟨?_, fun _ => rfl⟩
    show (store.flatKV.write store.flatKV.working).working = store.flatKV.working
    cases isFlatKV : store.flatKV with
    | absent => rfl
    | closed flatKV => rfl
    | opened flatKV => exact absurd isFlatKV (notOpened flatKV)
  · obtain ⟨flatKV, isFlatKV⟩ := modeOpen.opened isMode
    rw [isFlatKV]
    exact ⟨rfl, fun same => absurd same isMode⟩

theorem forwarded (router : RouterInvariant stores store.currentWriteMode store.router
      store.databases) (modeOpen : ModeOpen store)
    (mounted : stores.Mounts changeSets)
    (firstBatchInBlock : Bool) : ∃ after, store.forward changeSets firstBatchInBlock = .ok after ∧
      Forwarded stores store changeSets after := by
  obtain ⟨router', databases, isResult, ok, written⟩ :=
    router.applyChangeSets mounted firstBatchInBlock
  obtain ⟨isFlatKV, isRouter⟩ := modeOpen.working_write isResult
  have isDatabases : CompositeCommitStore.databases { store with
      router := router'
      memIAVL := { store.memIAVL with working := databases.memIAVL }
      flatKV := store.flatKV.write databases.flatKV } = databases := by
    rw [CompositeCommitStore.databases, isFlatKV]
  refine ⟨_, by rw [forward, isResult], ?_, ?_, ?_, ?_⟩
  · rw [isDatabases]
    exact ok
  · constructor
    · intro different
      obtain ⟨flatKV, isOpened⟩ := modeOpen.opened different
      exact ⟨_, by rw [isOpened]; rfl⟩
    · intro isMode
      refine ⟨isRouter isMode, fun flatKV isOpened => ?_⟩
      cases before : store.flatKV with
      | opened flatKV => exact (modeOpen.idle isMode).2 flatKV before
      | absent | closed => simp [before, FlatKV.write] at isOpened
  · rw [isDatabases]
    exact written
  · constructor
    · cases before : store.flatKV <;>
        simp [committedDatabases, before, FlatKV.write, FlatKV.committed, CommitStore.committed]
    · rfl
    · cases store.flatKV <;> simp [FlatKV.write, FlatKV.disk]

theorem Forwarded.invariant (ok : CompositeInvariant stores state)
    (result : Forwarded stores state.store changeSets after) :
    CompositeInvariant stores
      { state with store := after, expected := overlay state.expected (writesOf changeSets) } where
  router := result.router
  modeOpen := result.modeOpen
  holds name isKey key :=
    (result.written name isKey key).trans (overlay_congr_base (ok.holds name isKey key))
  durable recorded := (ok.durable recorded).congr result.same

theorem CompositeInvariant.applyChangeSets (ok : CompositeInvariant stores state)
    (mounted : stores.Mounts changeSets) :
    ∃ after, state.store.applyChangeSets changeSets = .ok after ∧ CompositeInvariant stores
      { state with store := after, expected := overlay state.expected (writesOf changeSets) } := by
  rw [CompositeCommitStore.applyChangeSets]
  cases migrates : state.store.currentWriteMode.isMigrationMode with
  | true =>
    obtain ⟨after, isResult, result⟩ := forwarded ok.router ok.modeOpen mounted
      !state.store.migrationAdvancedThisCommit
    rw [isResult]
    refine ⟨_, rfl, Forwarded.invariant ok ⟨result.router, ?_, result.written, ?_⟩⟩
    · exact ⟨result.modeOpen.opened, result.modeOpen.idle⟩
    · exact ⟨result.same.databases, result.same.memIAVLVersion, result.same.flatKVVersion⟩
  | false =>
    cases changeSets with
    | nil => exact ⟨_, rfl, ok⟩
    | cons changeSet =>
      obtain ⟨after, isResult, result⟩ := forwarded ok.router ok.modeOpen mounted false
      exact ⟨after, isResult, Forwarded.invariant ok result⟩

theorem CompositeInvariant.setMigrationBatchSize (ok : CompositeInvariant stores state)
    (batchSize : Int) : CompositeInvariant stores
      { state with store := state.store.setMigrationBatchSize batchSize } where
  router := ok.router.setMigrationBatchSize _
  modeOpen := by
    refine ⟨ok.modeOpen.opened, fun isMode => ?_⟩
    obtain ⟨isRouter, notOpened⟩ := ok.modeOpen.idle isMode
    exact ⟨by rw [CompositeCommitStore.setMigrationBatchSize, isRouter]; rfl, notOpened⟩
  holds := ok.holds
  durable recorded := (ok.durable recorded).congr ⟨rfl, rfl, rfl⟩

/-- What is committed is what was there with pending writes. -/
theorem committedDatabases_commit (committed : store.commit = .ok after) :
    after.committedDatabases = store.databases ∧ after.databases = store.databases ∧
      after.router = store.router ∧ after.currentWriteMode = store.currentWriteMode := by
  rw [commit] at committed
  cases isFlatKV : store.flatKV with
  | absent | closed flatKV =>
    rw [isFlatKV] at committed
    cases committed
    simp [committedDatabases, databases, isFlatKV,
      FlatKV.committed, FlatKV.working, CommitStore.commit, CommitStore.committed]
  | opened flatKV =>
    rw [isFlatKV] at committed
    dsimp only at committed
    split at committed <;> cases committed
    simp [committedDatabases, databases, isFlatKV,
      FlatKV.committed, FlatKV.working, CommitStore.commit, CommitStore.committed]

/-- No two modes follow each other. -/
theorem WriteMode.nextInChain_asymm {first second : WriteMode}
    (isNext : first.nextInChain = some second) :
    first ≠ second ∧ second.nextInChain ≠ some first := by
  cases first <;> cases isNext <;> decide

theorem WriteMode.nextInChain_ne_memiavlOnly {first second : WriteMode}
    (isNext : first.nextInChain = some second) : second ≠ .memiavlOnly := by
  cases first <;> cases isNext <;> decide

variable {flatKV : CommitStore}

theorem opened_lockstep (isFlatKV : store.flatKV = .opened flatKV)
    (committed : store.commit = .ok after) :
    after.flatKV = .opened flatKV.commit ∧ flatKV.commit.version = after.memIAVL.version := by
  rw [commit, isFlatKV] at committed
  dsimp only at committed
  split at committed
  · cases committed
  rename_i lockstep
  cases committed
  exact ⟨rfl, (not_ne_iff.mp lockstep).symm⟩

/-- The data of a store that records its mode is in place for the mode that flatkv stands for. -/
theorem placed_of_recordsMode {boundary : MigrationBoundary}
    (placed : Placed stores store.currentWriteMode boundary store.databases)
    (isFlatKV : store.flatKV = .opened flatKV) (records : store.recordsMode = true) :
    ∃ mode boundary, Placed stores mode boundary store.databases ∧
      deriveWriteMode store.flatKV.working = .ok mode ∧
      (mode = store.currentWriteMode ∨ store.currentWriteMode.nextInChain = some mode) := by
  rcases placed.deriveWriteMode with ⟨boundary, placed, derived⟩ |
    ⟨next, isNext, placed, derived⟩ | ⟨_, previous, isPrevious, derived⟩
  · exact ⟨_, boundary, placed, derived, .inl rfl⟩
  · exact ⟨next, _, placed, derived, .inr isNext⟩
  · have derived' : deriveWriteMode flatKV.working = .ok previous := by
      rw [← derived, databases, isFlatKV]
      rfl
    obtain ⟨different, notNext⟩ := nextInChain_asymm isPrevious
    simp [recordsMode, isFlatKV, derived', different, notNext] at records

/-- A block that is recorded when it is committed is found by a restart. -/
theorem CompositeInvariant.durable_commit (ok : CompositeInvariant stores state)
    (committed : state.store.commit = .ok after) (records : state.store.recordsMode = true) :
    Durable stores after state.expected := by
  obtain ⟨isCommitted, _⟩ := committedDatabases_commit committed
  obtain ⟨boundary, placed⟩ := ok.router.placed
  have sameFlatKV : after.flatKV.committed = state.store.flatKV.working :=
    congrArg Databases.flatKV isCommitted
  have holds : after.committedDatabases.Holds state.expected := isCommitted ▸ ok.holds
  cases isFlatKV : state.store.flatKV with
  | absent =>
    have isMode : state.store.currentWriteMode = .memiavlOnly := by
      by_contra different
      obtain ⟨flatKV, isOpened⟩ := ok.modeOpen.opened different
      cases isFlatKV.symm.trans isOpened
    rw [isMode] at placed
    refine ⟨holds, ⟨.memiavlOnly, boundary, isCommitted ▸ placed, ?_⟩, ?_⟩
    · rw [sameFlatKV, isFlatKV]
      rfl
    · rw [commit, isFlatKV] at committed
      cases committed
      exact nofun
  | closed flatKV =>
    rw [recordsMode, isFlatKV] at records
    cases records
  | opened flatKV =>
    obtain ⟨isOpened, lockstep⟩ := opened_lockstep isFlatKV committed
    refine ⟨holds, ?_, ?_⟩
    · obtain ⟨mode, boundary, placed, derived, _⟩ := placed_of_recordsMode placed isFlatKV records
      rw [isCommitted, sameFlatKV]
      exact ⟨mode, boundary, placed, derived⟩
    · intro other isDisk
      rw [isOpened] at isDisk
      cases isDisk
      exact lockstep

theorem CompositeInvariant.commit (ok : CompositeInvariant stores state)
    (committed : state.store.commit = .ok after) : CompositeInvariant stores
      { store := after, expected := state.expected, committed := state.expected,
        recorded := state.store.recordsMode } := by
  obtain ⟨_, sameDatabases, sameRouter, sameMode⟩ := committedDatabases_commit committed
  refine ⟨?_, ⟨?_, ?_⟩, ?_, ok.durable_commit committed⟩
  · rw [sameMode, sameRouter, sameDatabases]
    exact ok.router
  · rw [sameMode]
    intro different
    obtain ⟨flatKV, isFlatKV⟩ := ok.modeOpen.opened different
    exact ⟨_, (opened_lockstep isFlatKV committed).1⟩
  · rw [sameMode, sameRouter]
    intro isMode
    obtain ⟨isRouter, notOpened⟩ := ok.modeOpen.idle isMode
    refine ⟨isRouter, fun flatKV isOpened => ?_⟩
    rw [CompositeCommitStore.commit] at committed
    cases isFlatKV : state.store.flatKV with
    | opened flatKV => exact notOpened flatKV isFlatKV
    | absent | closed =>
      rw [isFlatKV] at committed
      cases committed
      cases isOpened
  · rw [sameDatabases]
    exact ok.holds

/-! ### Changing the mode -/

theorem validateTransition_ok {source target : WriteMode}
    (valid : validateTransition source target = .ok ()) :
    source.nextInChain = some target := by
  unfold validateTransition at valid
  split at valid
  · cases valid
  split at valid
  · cases valid
  rename_i isNext
  split at valid
  · cases valid
  rename_i same
  rw [isNext, not_ne_iff.mp same]

/-- Seeding changes the version only. -/
theorem seedFlatKV_data (memIAVL flatKV : CommitStore) :
    (seedFlatKV memIAVL flatKV).working = flatKV.working ∧
      (seedFlatKV memIAVL flatKV).committed = flatKV.committed := by
  unfold seedFlatKV
  split <;> simp [CommitStore.setInitialVersion, CommitStore.committed]

variable {memIAVL : CommitStore}

theorem seedFlatKV_version (lockstep : flatKV.version = 0 ∨ flatKV.version = memIAVL.version) :
    (seedFlatKV memIAVL flatKV).version = memIAVL.version := by
  unfold seedFlatKV
  split
  · simp [CommitStore.setInitialVersion]
  · grind

/-- flatkv has the same data after it is created or opened. -/
theorem materializeFlatKV_data :
    store.materializeFlatKV.working = store.flatKV.working ∧
      store.materializeFlatKV.committed = store.flatKV.committed := by
  rw [materializeFlatKV]
  cases store.flatKV with
  | absent | closed flatKV => exact seedFlatKV_data _ _
  | opened flatKV => exact ⟨rfl, rfl⟩

/-- The data is in place for a mode that `SetWriteMode` accepts. -/
theorem RouterInvariant.placed_next {target : WriteMode}
    (router : RouterInvariant stores store.currentWriteMode store.router store.databases)
    (modeOpen : ModeOpen store) (isNext : store.currentWriteMode.nextInChain = some target)
    (complete : isModeComplete store.flatKV.handle store.currentWriteMode = .ok true) :
    Placed stores target .notStarted store.databases := by
  obtain ⟨boundary, placed⟩ := router.placed
  cases migrates : store.currentWriteMode.isMigrationMode with
  | false => exact placed.enter migrates isNext
  | true =>
    by_cases finished : boundary = .complete
    · subst finished
      obtain ⟨next, isNext', _, after⟩ := placed.leave
      cases isNext.symm.trans isNext'
      exact after
    · obtain ⟨got, isGot, isVersion⟩ := placed.version finished
      obtain ⟨flatKV, isFlatKV⟩ := modeOpen.opened (by
        intro isMode
        rw [isMode] at migrates
        cases migrates)
      have isGot' : readVersionFromDB flatKV.working = .ok got := by
        rw [← isGot, databases, isFlatKV]
        rfl
      have behind : ¬ migrationTargetVersions store.currentWriteMode ≤
          store.currentWriteMode.startVersion := by
        revert migrates
        cases store.currentWriteMode <;> decide
      simp [isModeComplete, migrates, isFlatKV, FlatKV.handle, isGot', isVersion, behind] at complete

/-- Opening flatkv leaves what is committed as it is, and in lockstep. -/
theorem Durable.materialize {committed : Contents} (durable : Durable stores store committed)
    (sameMemIAVL : after.memIAVL = store.memIAVL)
    (isOpened : after.flatKV = .opened store.materializeFlatKV) :
    Durable stores after committed := by
  have sameFlatKV : after.flatKV.committed = store.flatKV.committed := by
    rw [isOpened]
    exact materializeFlatKV_data.2
  have same : after.committedDatabases = store.committedDatabases := by
    rw [committedDatabases, sameMemIAVL, sameFlatKV]
    rfl
  refine ⟨same ▸ durable.holds, ?_, fun flatKV isDisk => ?_⟩
  · rw [same, sameFlatKV]
    exact durable.placed
  · rw [isOpened] at isDisk
    cases isDisk
    rw [sameMemIAVL, materializeFlatKV]
    have lockstep := durable.lockstep
    cases isFlatKV : store.flatKV with
    | absent => exact seedFlatKV_version (.inl rfl)
    | closed flatKV => exact seedFlatKV_version (.inr (lockstep flatKV (by rw [isFlatKV]; rfl)))
    | opened flatKV => exact lockstep flatKV (by rw [isFlatKV]; rfl)

section

variable (ok : CompositeInvariant stores state)

include ok

theorem CompositeInvariant.setWriteMode
    {target : WriteMode} (accepted : state.store.setWriteMode stores target = .ok after) :
    CompositeInvariant stores { state with store := after } := by
  rw [CompositeCommitStore.setWriteMode] at accepted
  split at accepted
  · cases accepted
    exact ok
  · split at accepted
    · cases accepted
    rename_i valid
    split at accepted
    · cases accepted
    · cases accepted
    · rename_i complete
      have isNext := validateTransition_ok valid
      have placed := ok.router.placed_next ok.modeOpen isNext complete
      have sameDatabases : (⟨state.store.memIAVL.working,
          state.store.materializeFlatKV.working⟩) = state.store.databases := by
        rw [materializeFlatKV_data.1]
        rfl
      obtain ⟨router, isRouter, routed⟩ := buildRouter_of_placed placed
        (some state.store.materializeFlatKV.working)
        (fun _ => by rw [materializeFlatKV_data.1]; rfl) state.store.migrationBatchSize
      dsimp only at accepted
      rw [isRouter] at accepted
      cases accepted
      have notFirst := nextInChain_ne_memiavlOnly isNext
      refine ⟨?_, ⟨fun _ => ⟨_, rfl⟩, fun isMode => absurd isMode notFirst⟩, ?_, fun recorded => ?_⟩
      · show RouterInvariant stores target router ⟨_, _⟩
        rw [show (⟨state.store.memIAVL.working, (FlatKV.opened
          state.store.materializeFlatKV).working⟩ : Databases) = _ from sameDatabases]
        exact routed
      · show Databases.Holds ⟨_, _⟩ _
        rw [show (⟨state.store.memIAVL.working, (FlatKV.opened
          state.store.materializeFlatKV).working⟩ : Databases) = _ from sameDatabases]
        exact ok.holds
      · exact (ok.durable recorded).materialize rfl rfl

/-! ### Restarts -/

omit ok in
theorem resolve_invariant {flatKV : FlatKV} {mode : WriteMode} {boundary : MigrationBoundary}
    (placed : Placed stores mode boundary ⟨memIAVL.working, flatKV.working⟩)
    (isHandle : mode ≠ .memiavlOnly → ∃ backend, flatKV = .opened backend)
    (idle : mode = .memiavlOnly → ∀ backend, flatKV ≠ .opened backend) :
    ∃ after, resolve stores memIAVL flatKV mode = .ok after ∧
      after.memIAVL = memIAVL ∧ after.flatKV = flatKV ∧ after.currentWriteMode = mode ∧
      ModeOpen after ∧
      RouterInvariant stores after.currentWriteMode after.router after.databases := by
  obtain ⟨router, isRouter, routed⟩ := buildRouter_of_placed placed flatKV.handle (by
    intro different
    obtain ⟨backend, rfl⟩ := isHandle different
    rfl) 0
  refine ⟨_, by rw [resolve, isRouter], rfl, rfl, rfl, ⟨isHandle, ?_⟩, routed⟩
  rintro rfl
  cases isRouter
  exact ⟨rfl, idle rfl⟩

omit ok in
theorem seedFlatKV_of_lockstep
    (lockstep : flatKV.version = memIAVL.version) : seedFlatKV memIAVL flatKV = flatKV := by
  refine if_neg fun fresh => ?_
  rw [← lockstep, fresh.2] at fresh
  exact lt_irrefl 0 fresh.1

omit ok in
theorem reconcileVersions_of_lockstep (lockstep : flatKV.version = memIAVL.version) :
    reconcileVersions memIAVL flatKV = (memIAVL, flatKV) :=
  if_pos (.inl lockstep.symm)

omit ok in
/-- A new process on the committed data, in the mode that the data stands for. -/
theorem Durable.resolve (durable : Durable stores state.store state.committed)
    {flatKV : FlatKV} {mode : WriteMode}
    (derived : deriveWriteMode state.store.flatKV.committed = .ok mode)
    (isHandle : mode ≠ .memiavlOnly → ∃ backend, flatKV = .opened backend)
    (idle : mode = .memiavlOnly → ∀ backend, flatKV ≠ .opened backend)
    (isWorking : flatKV.working = state.store.flatKV.committed)
    (isCommitted : flatKV.committed = state.store.flatKV.committed)
    (sameVersion : flatKV.disk.map CommitStore.version =
      state.store.flatKV.disk.map CommitStore.version) :
    ∃ after, resolve stores state.store.memIAVL.load flatKV mode = .ok after ∧
      CompositeInvariant stores { state with store := after, expected := state.committed } := by
  obtain ⟨mode', boundary, placed, derived'⟩ := durable.placed
  cases derived.symm.trans derived'
  have isDatabases : (⟨state.store.memIAVL.load.working, flatKV.working⟩) =
      state.store.committedDatabases := by
    rw [isWorking]
    rfl
  obtain ⟨after, isResult, sameMemIAVL, sameFlatKV, _, modeOpen, router⟩ :=
    resolve_invariant (isDatabases.symm ▸ placed) isHandle idle
  refine ⟨after, isResult, router, modeOpen, ?_, fun _ => durable.congr ⟨?_, ?_, ?_⟩⟩
  · show Databases.Holds ⟨after.memIAVL.working, after.flatKV.working⟩ _
    rw [sameMemIAVL, sameFlatKV, isDatabases]
    exact durable.holds
  · show (⟨after.memIAVL.committed, after.flatKV.committed⟩ : Databases) = _
    rw [sameMemIAVL, sameFlatKV, isCommitted]
    rfl
  · rw [sameMemIAVL]
    rfl
  · rw [sameFlatKV, sameVersion]

/-- A restart after a recorded block comes back with what was committed. -/
theorem CompositeInvariant.restart
    (recorded : state.recorded = true) : ∃ after, state.store.loadLatest stores = .ok after ∧
      CompositeInvariant stores { state with store := after, expected := state.committed } := by
  have durable := ok.durable recorded
  obtain ⟨mode, -, -, derived⟩ := durable.placed
  rw [loadLatest]
  cases isDisk : state.store.flatKV.disk with
  | none =>
    have isAbsent : state.store.flatKV = .absent := by
      cases isFlatKV : state.store.flatKV with
      | absent => rfl
      | closed | opened => simp [isFlatKV, FlatKV.disk] at isDisk
    refine durable.resolve ?_ (fun different => absurd rfl different) (fun _ => nofun) ?_ ?_ ?_
    · rw [isAbsent]
      rfl
    · rw [isAbsent]
      rfl
    · rw [isAbsent]
    · rw [isAbsent]
  | some flatKV =>
    have lockstep : flatKV.load.version = state.store.memIAVL.load.version :=
      durable.lockstep flatKV isDisk
    have isCommitted : state.store.flatKV.committed = flatKV.committed := by
      cases isFlatKV : state.store.flatKV with
      | absent => simp [isFlatKV, FlatKV.disk] at isDisk
      | closed | opened =>
        rw [isFlatKV] at isDisk
        cases isDisk
        rfl
    have derivedLoaded : deriveWriteMode flatKV.load.working = .ok mode := by
      rw [← derived, isCommitted]
      rfl
    dsimp only
    rw [seedFlatKV_of_lockstep lockstep, reconcileVersions_of_lockstep lockstep]
    rw [derivedLoaded]
    have sameVersion : some flatKV.load.version = state.store.flatKV.disk.map CommitStore.version := by
      rw [isDisk]
      rfl
    cases mode with
    | memiavlOnly =>
      exact durable.resolve derived (fun different => absurd rfl different) (fun _ => nofun)
        isCommitted.symm isCommitted.symm sameVersion
    | _ =>
      exact durable.resolve derived (fun _ => ⟨_, rfl⟩) nofun isCommitted.symm isCommitted.symm
        sameVersion

/-! ### Every run -/

theorem CompositeInvariant.commit_isSome
    (recorded : state.recorded = true) : ∃ after, state.store.commit = .ok after := by
  rw [CompositeCommitStore.commit]
  cases isFlatKV : state.store.flatKV with
  | absent | closed flatKV => exact ⟨_, rfl⟩
  | opened flatKV =>
    have lockstep := (ok.durable recorded).lockstep flatKV (by rw [isFlatKV]; rfl)
    exact ⟨_, if_neg (by simp [CommitStore.commit, lockstep])⟩

omit ok in
theorem toOption_eq_some {Error Result : Type} {result : Except Error Result} {value : Result}
    (isSome : result.toOption = some value) : result = .ok value := by
  cases result with
  | error error => cases isSome
  | ok =>
    cases isSome
    rfl

/-- An admitted step keeps the invariant. -/
theorem CompositeInvariant.step {event : CompositeEvent} {next : TrackedStore}
    (admitted : RestartsRecorded stores state event)
    (taken : trackedCompositeStep stores state event = some next) :
    CompositeInvariant stores next := by
  obtain ⟨after, stepped, rfl⟩ := map_eq_some_iff.mp taken
  cases event with
  | applyChangeSets =>
    obtain ⟨result, isResult, kept⟩ := ok.applyChangeSets admitted.1
    cases isResult.symm.trans (toOption_eq_some stepped)
    exact kept
  | commit => exact ok.commit (toOption_eq_some stepped)
  | setMigrationBatchSize batchSize =>
    cases stepped
    exact ok.setMigrationBatchSize batchSize
  | setWriteMode => exact ok.setWriteMode (toOption_eq_some stepped)
  | restart =>
    obtain ⟨result, isResult, kept⟩ := ok.restart (admitted.2 rfl)
    cases isResult.symm.trans (toOption_eq_some stepped)
    exact kept

theorem CompositeInvariant.get {name : StoreName} (isStore : name ∈ stores.names) (key : Key) :
    state.store.get name key = .ok (state.expected (name, key)) := by
  have isKey := stores.known name isStore
  have named : name ≠ [] := by
    rintro rfl
    revert isKey
    decide
  rw [CompositeCommitStore.get, if_neg named, ok.router.read isKey, ok.holds name isKey key]
  rfl

end

/-- The chain of write modes preserves state. In every run in which the store is only restarted
when its last block was recorded, a read gives the last value written, committed or pending.
Blocks are always taken, and commits and restarts succeed after a recorded block. -/
theorem write_mode_chain_preserves_state (stores : InitialStores) (store : CompositeCommitStore)
    (initial : MemiavlOnlyStore stores store) (state : TrackedStore)
    (reached : Reaches (trackedCompositeStep stores) (RestartsRecorded stores) (.start store)
      state) :
    (∀ name ∈ stores.names, ∀ key, state.store.get name key = .ok (state.expected (name, key))) ∧
    (∀ changeSets, (CompositeEvent.applyChangeSets changeSets).Mounted stores →
      (trackedCompositeStep stores state (.applyChangeSets changeSets)).isSome) ∧
    (state.recorded = true → (trackedCompositeStep stores state .commit).isSome ∧
      (trackedCompositeStep stores state .restart).isSome) := by
  have invariant : CompositeInvariant stores state :=
    reached.invariant (compositeInvariant_start initial)
      fun _ _ _ kept admitted taken => kept.step admitted taken
  refine ⟨fun name isStore key => invariant.get isStore key, fun changeSets mounted => ?_,
    fun recorded => ⟨?_, ?_⟩⟩
  · obtain ⟨after, isResult, _⟩ := invariant.applyChangeSets mounted
    simp [trackedCompositeStep, compositeStep, isResult, Except.toOption]
  · obtain ⟨after, isResult⟩ := invariant.commit_isSome recorded
    simp [trackedCompositeStep, compositeStep, isResult, Except.toOption]
  · obtain ⟨after, isResult, _⟩ := invariant.restart recorded
    simp [trackedCompositeStep, compositeStep, isResult, Except.toOption]

end Invariant

/-! ### A small store -/

def smallStores : InitialStores where
  names := [evmStoreKey, bankStoreKey]
  distinct := by decide
  known := by decide

/-- A store without any data. -/
def emptyComposite : CompositeCommitStore where
  memIAVL := .fresh
  flatKV := .absent
  currentWriteMode := .memiavlOnly
  router := .passthrough .memIAVL
  migrationBatchSize := 0
  migrationAdvancedThisCommit := false

theorem emptyComposite_memiavlOnly : MemiavlOnlyStore smallStores emptyComposite where
  mode := rfl
  flatKV := rfl
  router := rfl
  loaded := rfl
  held name key isLive := by
    simp [emptyComposite, CommitStore.fresh, Database.read, Database.empty] at isLive

/-- A block that writes one key of the EVM store. -/
def evmWrite (key : Key) (value : Value) : CompositeEvent :=
  .applyChangeSets [{ name := evmStoreKey, pairs := [⟨key, value, false⟩] }]

/-- A migration that starts, moves a key and goes on after a restart. -/
theorem write_mode_chain_preserves_state_small : ∃ state,
    Reaches (trackedCompositeStep smallStores) (RestartsRecorded smallStores)
      (.start emptyComposite) state ∧
    state.store.currentWriteMode = .evmMigrated ∧
    state.store.get evmStoreKey [1] = .ok (some [10]) ∧
    state.store.get evmStoreKey [2] = .ok (some [20]) := by
  obtain ⟨state, reached, isMode, first, second⟩ : ∃ state,
      Reaches (trackedCompositeStep smallStores) (RestartsRecorded smallStores)
        (.start emptyComposite) state ∧ state.store.currentWriteMode = .evmMigrated ∧
      state.expected (evmStoreKey, [1]) = some [10] ∧
      state.expected (evmStoreKey, [2]) = some [20] :=
    exists_reaches [evmWrite [1] [10], .commit, .setMigrationBatchSize 1, .setWriteMode .migrateEVM,
      evmWrite [2] [20], .commit, .restart, .setMigrationBatchSize 5, evmWrite [3] [30], .commit,
      .setWriteMode .evmMigrated, .restart] (by decide +kernel)
  obtain ⟨reads, _⟩ := write_mode_chain_preserves_state smallStores emptyComposite
    emptyComposite_memiavlOnly state reached
  exact ⟨state, reached, isMode, by rw [reads evmStoreKey (by decide), first],
    by rw [reads evmStoreKey (by decide), second]⟩

/-- Restarts that lose a committed write. In the first run a migration is started while it is
paused: the block writes the new key to flatkv and nothing that tells a restart to look there. In
the second one a migration is started and the process stops before its first block; the block
after that is taken by memiavl alone, and the next restart rolls it back to the version of the
idle flatkv. -/
theorem restart_loses_committed_write :
    MemiavlOnlyStore smallStores emptyComposite ∧
    (∃ state, Reaches (trackedCompositeStep smallStores) (fun _ event => event.Mounted smallStores)
        (.start emptyComposite) state ∧
      state.committed (evmStoreKey, [1]) = some [7] ∧ state.expected (evmStoreKey, [1]) = some [7] ∧
      state.store.get evmStoreKey [1] = .ok none) ∧
    (∃ state, Reaches (trackedCompositeStep smallStores) (fun _ event => event.Mounted smallStores)
        (.start emptyComposite) state ∧
      state.committed (evmStoreKey, [2]) = some [8] ∧ state.expected (evmStoreKey, [2]) = some [8] ∧
      state.store.get evmStoreKey [2] = .ok none) := by
  refine ⟨emptyComposite_memiavlOnly, ?paused, ?idle⟩
  case paused =>
    exact exists_reaches [.setWriteMode .migrateEVM, evmWrite [1] [7], .commit, .restart]
      (by decide +kernel)
  case idle =>
    exact exists_reaches [evmWrite [1] [7], .commit, .setMigrationBatchSize 1,
      .setWriteMode .migrateEVM, .restart, evmWrite [2] [8], .commit, .restart] (by decide +kernel)

end SeiChain.Migration
