/-
This file models the migration manager, which routes reads and writes between
the old and the new database while it moves keys from one to the other. The two
databases are one map at all times: no key is live in both, and no migrated key
is live in the old one. A call moves a batch of keys and applies the caller's
writes, and the one map changes by the caller's writes only. The boundary and
the version in the new database mirror the manager's own, so that a manager that
is made anew stands where the last one did.
-/

import SeiChain.Migration.Iterator

namespace SeiChain.Migration

open Library List Function Database PairsByStore

/-! ### The manager -/

/-- The key of the stored boundary. -/
def migrationBoundaryKey : Key := asBytes "migration-boundary"

/-- The key of the stored version, a 64-bit number. -/
def migrationVersionKey : Key := asBytes "migration-version"

inductive MigrationError where
  | versionsNotIncreasing (startVersion targetVersion : Nat)
  | versionLength (got : Nat)
  | unexpectedVersion (startVersion targetVersion got : Nat)
  | storedBoundary (error : BoundaryError)
  | nextBatch (error : IteratorError)
  | readReserved
  | writeReserved
  deriving DecidableEq, Repr

def readMigrationBoundary (new : Database) : Except MigrationError MigrationBoundary :=
  match new.read migrationStore migrationBoundaryKey with
  | none => .ok .notStarted
  | some bytes => (MigrationBoundary.deserialize bytes).mapError .storedBoundary

/-- The stored version, if there is one. -/
def readVersionFromDB (new : Database) : Except MigrationError (Option Nat) :=
  match new.read migrationStore migrationVersionKey with
  | none => .ok none
  | some bytes =>
    if bytes.length ≠ 8 then .error (.versionLength bytes.length)
    else .ok (some (ofBigEndian bytes))

structure MigrationManager where
  iterator : MigrationIterator
  boundary : MigrationBoundary
  migrationBatchSize : Int
  targetVersion : Nat

/-- `NewMigrationManager` on a new database, with a new iterator for the trees of the old one. -/
def newMigrationManager (migrationBatchSize : Int) (startVersion targetVersion : Nat)
    (new : Database) (iterator : MigrationIterator) : Except MigrationError MigrationManager := do
  if targetVersion ≤ startVersion then
    .error (.versionsNotIncreasing startVersion targetVersion)
  let version ← readVersionFromDB new
  match version with
  | some got =>
    if got ≠ targetVersion ∧ got ≠ startVersion then
      .error (.unexpectedVersion startVersion targetVersion got)
  | none => .ok ()
  let boundary ← if version = some targetVersion then .ok .complete else readMigrationBoundary new
  .ok {
    iterator := iterator.setBoundary boundary
    boundary := boundary
    migrationBatchSize := migrationBatchSize
    targetVersion := targetVersion }

namespace MigrationManager

def read (manager : MigrationManager) (old new : Database) (store : StoreName) (key : Key) :
    Except MigrationError (Option Value) :=
  if store = migrationStore then .error .readReserved
  else if manager.boundary.isMigrated store key then .ok (new.read store key)
  else
    match old.read store key with
    | some value => .ok (some value)
    | none => .ok (new.read store key)

variable (manager : MigrationManager)

/-- Whether a caller's write goes to the new database: the key is migrated, or the old database
does not have it. -/
def shouldForwardWriteToNewDB (old : Database) (address : StoreName × Key) : Bool :=
  manager.boundary.isMigrated address.1 address.2 || (old.read address.1 address.2).isNone

/-- Whether a call may advance the migration: once in a block, unless the batch size is `0`. -/
def advances (firstBatchInBlock : Bool) : Bool :=
  firstBatchInBlock && 0 < manager.migrationBatchSize

/-- Take the next batch from the old database and move the boundary behind it. -/
def advance (old : Database) : Except MigrationError (List ValueToMigrate × MigrationManager) :=
  match manager.iterator.nextBatch old manager.migrationBatchSize with
  | .error error => .error (.nextBatch error)
  | .ok (batch, iterator) =>
    .ok (batch, { manager with iterator := iterator, boundary := iterator.boundary })

/-- The loop that collects the pairs that move a batch, for the old and for the new database. -/
def collectBatch (batch : List ValueToMigrate) : PairsByStore × PairsByStore :=
  batch.foldl (fun dests value =>
    (dests.1.putPair value.moduleName { key := value.key, value := [], delete := true },
      dests.2.putPair value.moduleName { key := value.key, value := value.value, delete := false }))
    (.empty, .empty)

/-- The loop that collects the caller's pairs for the old and for the new database, over the
pairs that move a batch. -/
def collectChangeSets (old : Database) (dests : PairsByStore × PairsByStore)
    (changeSets : List NamedChangeSet) : PairsByStore × PairsByStore :=
  changeSets.foldl (fun dests changeSet =>
    changeSet.pairs.foldl (fun dests pair =>
      if manager.shouldForwardWriteToNewDB old (changeSet.name, pair.key)
      then (dests.1, dests.2.putPair changeSet.name pair)
      else (dests.1.putPair changeSet.name pair, dests.2)) dests) dests

/-- The bookkeeping that a block that advances the migration writes to the new database. -/
def metadata : NamedChangeSet where
  name := migrationStore
  pairs :=
    if manager.boundary = .complete then
      [{ key := migrationVersionKey, value := bigEndian 8 manager.targetVersion, delete := false },
        { key := migrationBoundaryKey, value := [], delete := true }]
    else [{ key := migrationBoundaryKey, value := manager.boundary.serialize, delete := false }]

def applyChangeSets (manager : MigrationManager) (old new : Database)
    (changeSets : List NamedChangeSet) (firstBatchInBlock : Bool) :
    Except MigrationError (MigrationManager × Database × Database) :=
  if changeSets.any fun changeSet => changeSet.name = migrationStore then .error .writeReserved
  else if manager.boundary = .complete then .ok (manager, old, new.applyChangeSets changeSets)
  else do
    let advancing := manager.advances firstBatchInBlock
    let (batch, manager) ← if advancing then manager.advance old else .ok ([], manager)
    let dests := manager.collectChangeSets old (collectBatch batch) changeSets
    .ok (manager, old.applyChangeSets dests.1.flatten,
      new.applyChangeSets (dests.2.flatten ++ if advancing then [manager.metadata] else []))

def setMigrationBatchSize (batchSize : Int) : MigrationManager :=
  { manager with migrationBatchSize := batchSize }

end MigrationManager

/-! ### What a call writes -/

/-- The pairs of change sets, one after the other. -/
def putsOf (changeSets : List NamedChangeSet) : List (StoreName × KVPair) :=
  changeSets.flatMap fun changeSet => changeSet.pairs.map fun pair => (changeSet.name, pair)

theorem writesOf_eq (changeSets : List NamedChangeSet) :
    writesOf changeSets = (putsOf changeSets).map fun put => pairWrite put.1 put.2 := by
  simp [writesOf, putsOf, map_flatMap, comp_def]

/-- A batch as entries of a map. -/
def entriesOf (batch : List ValueToMigrate) : List ((StoreName × Key) × Value) :=
  batch.map fun value => (value.address, value.value)

namespace MigrationManager

variable (manager : MigrationManager) (old : Database)

theorem collectBatch_eq (batch : List ValueToMigrate) : collectBatch batch =
    (empty.collect (batch.map fun value =>
        (value.moduleName, { key := value.key, value := [], delete := true })),
      empty.collect (batch.map fun value =>
        (value.moduleName, { key := value.key, value := value.value, delete := false }))) := by
  unfold collectBatch collect
  rw [foldl_map, foldl_map]
  exact foldl_hom₂ batch Prod.mk _ _ _ _ _ fun _ _ _ => rfl

theorem collectChangeSets_eq (dests : PairsByStore × PairsByStore)
    (changeSets : List NamedChangeSet) :
    manager.collectChangeSets old dests changeSets =
      (dests.1.collect ((putsOf changeSets).filter fun put =>
          !manager.shouldForwardWriteToNewDB old (put.1, put.2.key)),
        dests.2.collect ((putsOf changeSets).filter fun put =>
          manager.shouldForwardWriteToNewDB old (put.1, put.2.key))) := by
  obtain ⟨first, second⟩ := dests
  unfold collect
  rw [foldl_filter, foldl_filter]
  have oneLoop : manager.collectChangeSets old (first, second) changeSets =
      (putsOf changeSets).foldl (fun dests put =>
        if manager.shouldForwardWriteToNewDB old (put.1, put.2.key)
        then (dests.1, dests.2.putPair put.1 put.2)
        else (dests.1.putPair put.1 put.2, dests.2)) (first, second) := by
    unfold collectChangeSets putsOf
    rw [foldl_flatMap]
    simp only [foldl_map]
  rw [oneLoop]
  refine foldl_hom₂ (putsOf changeSets) Prod.mk _ _ _ _ _ fun _ _ put => ?_
  cases manager.shouldForwardWriteToNewDB old (put.1, put.2.key) <;> rfl

/-- The writes that reach the two databases when a batch moves and the caller writes. -/
theorem contents_moved (new : Database) (batch : List ValueToMigrate)
    (changeSets : List NamedChangeSet) :
    let dests := manager.collectChangeSets old (collectBatch batch) changeSets
    (old.applyChangeSets dests.1.flatten).contents = overlay old.contents
        (deletions (entriesOf batch) ++ (writesOf changeSets).filter fun write =>
          !manager.shouldForwardWriteToNewDB old write.key) ∧
      (new.applyChangeSets dests.2.flatten).contents = overlay new.contents
        (copies (entriesOf batch) ++ (writesOf changeSets).filter fun write =>
          manager.shouldForwardWriteToNewDB old write.key) := by
  rw [collectChangeSets_eq, collectBatch_eq, writesOf_eq, filter_map, filter_map]
  dsimp only
  constructor
  · rw [collect_collect, contents_apply_collect]
    simp [deletions, entriesOf, pairWrite, KVPair.outcome, ValueToMigrate.address, comp_def]
  · rw [collect_collect, contents_apply_collect]
    simp [copies, entriesOf, pairWrite, KVPair.outcome, ValueToMigrate.address, comp_def]

end MigrationManager

/-! ### The bookkeeping in the new database -/

/-- A migration of the given trees from one version to the next. -/
structure MigrationPlan where
  trees : TreeNames
  startVersion : Nat
  targetVersion : Nat
  increasing : startVersion < targetVersion
  bounded : targetVersion < 2 ^ 64

variable (plan : MigrationPlan)

/-- The new database says that the migration stands at `boundary`. -/
def MigrationPlan.Stored (new : Database) : MigrationBoundary → Prop
  | .complete => readVersionFromDB new = .ok (some plan.targetVersion) ∧
      readMigrationBoundary new = .ok .notStarted
  | boundary => (readVersionFromDB new = .ok none ∨
      readVersionFromDB new = .ok (some plan.startVersion)) ∧
      readMigrationBoundary new = .ok boundary

variable {changeSets : List NamedChangeSet} {store : StoreName}

section Bookkeeping

variable {plan : MigrationPlan} {old new next : Database} {boundary : MigrationBoundary}

section

variable (stored : plan.Stored new boundary)

include stored

theorem MigrationPlan.Stored.unfinished (unfinished : boundary ≠ .complete) :
    (readVersionFromDB new = .ok none ∨ readVersionFromDB new = .ok (some plan.startVersion)) ∧
      readMigrationBoundary new = .ok boundary := by
  cases boundary with
  | complete => exact absurd rfl unfinished
  | notStarted => exact stored
  | inProgress => exact stored

/-- The bookkeeping depends on the reserved store only. -/
theorem MigrationPlan.Stored.congr
    (same : ∀ key, next.read migrationStore key = new.read migrationStore key) :
    plan.Stored next boundary := by
  have sameVersion : readVersionFromDB next = readVersionFromDB new := by
    rw [readVersionFromDB, readVersionFromDB, same]
  have sameBoundary : readMigrationBoundary next = readMigrationBoundary new := by
    rw [readMigrationBoundary, readMigrationBoundary, same]
  cases boundary <;> simpa only [Stored, sameVersion, sameBoundary] using stored

/-- A manager for a database that says where the migration stands. -/
theorem newMigrationManager_of_stored (size : Int) :
    newMigrationManager size plan.startVersion plan.targetVersion new
      (newMemiavlMigrationIterator plan.trees) = .ok {
        iterator := (newMemiavlMigrationIterator plan.trees).setBoundary boundary
        boundary := boundary
        migrationBatchSize := size
        targetVersion := plan.targetVersion } := by
  have increasing : ¬ plan.targetVersion ≤ plan.startVersion := Nat.not_le.mpr plan.increasing
  have different : plan.startVersion ≠ plan.targetVersion := Nat.ne_of_lt plan.increasing
  by_cases done : boundary = .complete
  · subst done
    simp [newMigrationManager, stored.1, increasing, bind, Except.bind]
  · obtain ⟨isVersion, isBoundary⟩ := stored.unfinished done
    rcases isVersion with none | start
    · simp [newMigrationManager, none, isBoundary, increasing, bind, Except.bind]
    · simp [newMigrationManager, start, isBoundary, increasing, different, bind, Except.bind]

end

theorem overlay_of_not_routed (routed : StoreName → Prop) {base : Contents}
    {writes : List (KeyWrite (StoreName × Key) Value)}
    (allRouted : ∀ write ∈ writes, routed write.key.1) (notRouted : ¬ routed store) (key : Key) :
    overlay base writes (store, key) = base (store, key) := by
  rw [overlay, lastWrite_eq_none_iff.mpr]
  · rfl
  · intro write isWrite same
    have isRouted := allRouted write isWrite
    rw [same] at isRouted
    exact notRouted isRouted

theorem Database.read_applyChangeSets (db : Database) (changeSets : List NamedChangeSet)
    (store : StoreName) (key : Key) : (db.applyChangeSets changeSets).read store key =
      overlay db.contents (writesOf changeSets) (store, key) :=
  congrFun (contents_applyChangeSets db changeSets) (store, key)

theorem Database.read_applyChangeSets_of_ne
    (others : ∀ changeSet ∈ changeSets, changeSet.name ≠ store) (key : Key) :
    (old.applyChangeSets changeSets).read store key = old.read store key := by
  refine (read_applyChangeSets old changeSets store key).trans
    (overlay_of_not_routed (· ≠ store) (fun write isWrite => ?_) (not_not.mpr rfl) key)
  simp only [writesOf, mem_flatMap, mem_map] at isWrite
  obtain ⟨changeSet, isChangeSet, pair, _, rfl⟩ := isWrite
  exact others changeSet isChangeSet

variable {manager : MigrationManager}

theorem migrationVersionKey_ne_migrationBoundaryKey :
    migrationVersionKey ≠ migrationBoundaryKey := by
  decide

open MigrationManager

/-- The version is written when the migration completes, and not before. -/
theorem readVersionFromDB_metadata (unfinished : manager.boundary ≠ .complete) :
    readVersionFromDB (new.applyChangeSets [manager.metadata]) = readVersionFromDB new := by
  have version : (new.applyChangeSets [manager.metadata]).read migrationStore
      migrationVersionKey = new.read migrationStore migrationVersionKey := by
    rw [read_applyChangeSets]
    simp [writesOf, metadata, unfinished, overlay, lastWrite, pairWrite,
      KVPair.outcome, Ne.symm migrationVersionKey_ne_migrationBoundaryKey, contents]
  rw [readVersionFromDB, readVersionFromDB, version]

/-- A block that advances the migration writes down where it stands. -/
theorem stored_metadata (target : manager.targetVersion = plan.targetVersion)
    (moved : manager.boundary ≠ .notStarted)
    (inTrees : ∀ moduleName key, manager.boundary = .inProgress moduleName key →
      moduleName ∈ plan.trees.names) (isVersion : readVersionFromDB new = .ok none ∨
      readVersionFromDB new = .ok (some plan.startVersion)) :
    plan.Stored (new.applyChangeSets [manager.metadata]) manager.boundary := by
  cases isBoundary : manager.boundary with
  | notStarted => exact absurd isBoundary moved
  | complete =>
    have version : (new.applyChangeSets [manager.metadata]).read migrationStore
        migrationVersionKey = some (bigEndian 8 plan.targetVersion) := by
      rw [read_applyChangeSets]
      simp [writesOf, metadata, isBoundary, overlay, lastWrite, pairWrite,
        KVPair.outcome, Ne.symm migrationVersionKey_ne_migrationBoundaryKey, target]
    have noBoundary : (new.applyChangeSets [manager.metadata]).read migrationStore
        migrationBoundaryKey = none := by
      rw [read_applyChangeSets]
      simp [writesOf, metadata, isBoundary, overlay, lastWrite, pairWrite, KVPair.outcome]
    refine ⟨?_, ?_⟩
    · simp [readVersionFromDB, version, ofBigEndian_bigEndian 8 _ plan.bounded]
    · simp [readMigrationBoundary, noBoundary]
  | inProgress moduleName key =>
    have boundary : (new.applyChangeSets [manager.metadata]).read migrationStore
        migrationBoundaryKey = some (MigrationBoundary.inProgress moduleName key).serialize := by
      rw [read_applyChangeSets]
      simp [writesOf, metadata, isBoundary, overlay, lastWrite, pairWrite, KVPair.outcome]
    have readBack := MigrationBoundary.deserialize_serialize (.inProgress moduleName key) (by
      rintro _ _ ⟨⟩
      exact plan.trees.short _ (inTrees moduleName key isBoundary))
    refine ⟨?_, ?_⟩
    · rw [readVersionFromDB_metadata (by simp [isBoundary])]
      exact isVersion
    · simp [readMigrationBoundary, boundary, readBack, Except.mapError]

end Bookkeeping

/-! ### Two databases as one map -/

/-- The stores whose reads and writes go through a manager: the trees it migrates are among
them, the reserved store is not. -/
structure MigrationPlan.Routes (routed : StoreName → Prop) : Prop where
  trees : ∀ name ∈ plan.trees.names, routed name
  unreserved : ¬ routed migrationStore

/-- The two databases as one map. -/
def merged (old new : Database) (address : StoreName × Key) : Option Value :=
  (old.contents address).or (new.contents address)

/-- What holds of a manager and its databases at all times. -/
structure ManagerInvariant (routed : StoreName → Prop) (manager : MigrationManager)
    (old new : Database) : Prop where
  trees : manager.iterator.treeNames = plan.trees
  target : manager.targetVersion = plan.targetVersion
  sameBoundary : manager.iterator.boundary = manager.boundary
  positioned : manager.iterator.Positioned old
  inTrees : ∀ moduleName key, manager.boundary = .inProgress moduleName key →
    moduleName ∈ plan.trees.names
  stored : plan.Stored new manager.boundary
  /-- Data of the routed stores is in the trees that are migrated. -/
  covered : ∀ store, routed store → ∀ key, (old.read store key).isSome → store ∈ plan.trees.names
  gone : ∀ store, routed store → ∀ key, manager.boundary.isMigrated store key = true →
    old.read store key = none
  disjoint : ∀ store, routed store → ∀ key, old.read store key = none ∨ new.read store key = none

section Manager

variable {plan : MigrationPlan} {routed : StoreName → Prop} {manager : MigrationManager}
  {old new : Database}

section

variable (ok : ManagerInvariant plan routed manager old new)

include ok

/-- A read gives the value of the one map. -/
theorem ManagerInvariant.read (routes : plan.Routes routed) (isRouted : routed store) (key : Key) :
    manager.read old new store key = .ok (merged old new (store, key)) := by
  have unreserved : store ≠ migrationStore := by
    rintro rfl
    exact routes.unreserved isRouted
  rw [MigrationManager.read, if_neg unreserved]
  show _ = Except.ok ((old.read store key).or (new.read store key))
  cases isMigrated : manager.boundary.isMigrated store key with
  | true => simp [ok.gone store isRouted key isMigrated]
  | false => cases old.read store key <;> simp

omit ok in
/-- A manager that is made for databases that are one map. -/
theorem managerInvariant_new {boundary : MigrationBoundary} (size : Int)
    (routes : plan.Routes routed) (stored : plan.Stored new boundary)
    (inTrees : ∀ moduleName key, boundary = .inProgress moduleName key →
      moduleName ∈ plan.trees.names)
    (covered : ∀ store, routed store → ∀ key, (old.read store key).isSome →
      store ∈ plan.trees.names)
    (gone : ∀ store, routed store → ∀ key, boundary.isMigrated store key = true →
      old.read store key = none)
    (disjoint : ∀ store, routed store → ∀ key,
      old.read store key = none ∨ new.read store key = none) :
    ∃ manager, newMigrationManager size plan.startVersion plan.targetVersion new
        (newMemiavlMigrationIterator plan.trees) = .ok manager ∧
      ManagerInvariant plan routed manager old new := by
  refine ⟨_, newMigrationManager_of_stored stored size, ⟨rfl, rfl, rfl, ?_, inTrees, stored,
    covered, gone, disjoint⟩⟩
  exact MigrationIterator.setBoundary_positioned boundary
    fun name isName => gone name (routes.trees name isName)

/-- A manager after a restart is as good as the one before. -/
theorem ManagerInvariant.restart (routes : plan.Routes routed) (size : Int) :
    ∃ manager', newMigrationManager size plan.startVersion plan.targetVersion new
        (newMemiavlMigrationIterator plan.trees) = .ok manager' ∧
      ManagerInvariant plan routed manager' old new :=
  managerInvariant_new size routes ok.stored ok.inTrees ok.covered ok.gone
    ok.disjoint

/-- What a call of `ApplyChangeSets` does to the databases. -/
structure Applied (plan : MigrationPlan) (routed : StoreName → Prop) (old new : Database)
    (changeSets : List NamedChangeSet) (result : MigrationManager × Database × Database) :
    Prop where
  invariant : ManagerInvariant plan routed result.1 result.2.1 result.2.2
  written : ∀ store, routed store → ∀ key, merged result.2.1 result.2.2 (store, key) =
    overlay (merged old new) (writesOf changeSets) (store, key)
  /-- Other stores are left alone, up to the bookkeeping in the new database. -/
  framedOld : ∀ store, ¬ routed store → ∀ key, result.2.1.read store key = old.read store key
  framedNew : ∀ store, ¬ routed store → store ≠ migrationStore → ∀ key,
    result.2.2.read store key = new.read store key
  version : result.1.boundary ≠ .complete → readVersionFromDB result.2.2 = readVersionFromDB new

/-- A call after the migration is complete. -/
theorem ManagerInvariant.applied_complete
    (routes : plan.Routes routed) (done : manager.boundary = .complete)
    (allRouted : ∀ changeSet ∈ changeSets, routed changeSet.name) :
    Applied plan routed old new changeSets (manager, old, new.applyChangeSets changeSets) := by
  have noOld : ∀ store, routed store → ∀ key, old.read store key = none := fun store isRouted key =>
    ok.gone store isRouted key (by rw [done]; rfl)
  have others : ∀ store, ¬ routed store → ∀ key,
      (new.applyChangeSets changeSets).read store key = new.read store key := by
    intro store notRouted key
    refine read_applyChangeSets_of_ne (fun changeSet isChangeSet same => ?_) key
    exact notRouted (same ▸ allRouted changeSet isChangeSet)
  refine ⟨{ ok with stored := ?_, disjoint := ?_ }, ?_, ?_, ?_, ?_⟩
  · exact ok.stored.congr (others migrationStore routes.unreserved)
  · exact fun store isRouted key => .inl (noOld store isRouted key)
  · intro store isRouted key
    have isNew : merged old new (store, key) = new.contents (store, key) := by
      show (old.read store key).or (new.read store key) = _
      rw [noOld store isRouted key]
      rfl
    show (old.read store key).or ((new.applyChangeSets changeSets).contents (store, key)) = _
    rw [noOld store isRouted key, contents_applyChangeSets, overlay, overlay, isNew]
    rfl
  · exact fun store _ key => rfl
  · exact fun store notRouted _ key => others store notRouted key
  · exact fun unfinished => absurd done unfinished

/-- What is known of a manager that has taken a batch, or none, from the old database. -/
structure Advanced (plan : MigrationPlan) (routed : StoreName → Prop) (old : Database)
    (batch : List ValueToMigrate) (manager : MigrationManager) : Prop where
  trees : manager.iterator.treeNames = plan.trees
  target : manager.targetVersion = plan.targetVersion
  sameBoundary : manager.iterator.boundary = manager.boundary
  inTrees : ∀ moduleName key, manager.boundary = .inProgress moduleName key →
    moduleName ∈ plan.trees.names
  live : ∀ value ∈ batch, value.moduleName ∈ plan.trees.names ∧
    old.read value.moduleName value.key = some value.value
  migrated : ∀ value ∈ batch, manager.boundary.isMigrated value.moduleName value.key = true
  caught : ∀ store, routed store → ∀ key value, old.read store key = some value →
    manager.boundary.isMigrated store key = true → ⟨store, key, value⟩ ∈ batch
  passed : ∀ name ∈ plan.trees.names.take manager.iterator.treeIdx, ∀ key value,
    old.read name key = some value → ⟨name, key, value⟩ ∈ batch
  ahead : ∀ name ∈ plan.trees.names.drop manager.iterator.treeIdx, ∀ moduleName key,
    manager.boundary = .inProgress moduleName key → (compare moduleName name).isLE = true

theorem ManagerInvariant.stay : Advanced plan routed old [] manager where
  trees := ok.trees
  target := ok.target
  sameBoundary := ok.sameBoundary
  inTrees := ok.inTrees
  live := nofun
  migrated := nofun
  caught store isRouted key value isLive isMigrated := by
    rw [ok.gone store isRouted key isMigrated] at isLive
    cases isLive
  passed name isName key value isLive := by
    rw [ok.positioned.passed name (ok.trees ▸ isName) key] at isLive
    cases isLive
  ahead name isName moduleName key isBoundary :=
    ok.positioned.ahead name (ok.trees ▸ isName) moduleName key
      (ok.sameBoundary.trans isBoundary)

theorem ManagerInvariant.advance
    (routes : plan.Routes routed) (unfinished : manager.boundary ≠ .complete)
    (positive : 0 < manager.migrationBatchSize) :
    ∃ batch manager', manager.advance old = .ok (batch, manager') ∧
      Advanced plan routed old batch manager' ∧ manager'.boundary ≠ .notStarted := by
  have gone : ∀ name ∈ manager.iterator.treeNames.names, ∀ key,
      manager.iterator.boundary.isMigrated name key = true → old.read name key = none := by
    rw [ok.trees, ok.sameBoundary]
    exact fun name isName => ok.gone name (routes.trees name isName)
  obtain ⟨batch, next, isBatch, spec⟩ := ok.positioned.nextBatch gone
    (ok.sameBoundary ▸ unfinished) positive
  refine ⟨batch, _, by rw [MigrationManager.advance, isBatch], ?_, ?_⟩
  · obtain ⟨sameTrees, live, migrated, caught, passed, ahead, moves⟩ := spec
    rw [ok.trees] at sameTrees live caught passed ahead moves
    refine ⟨sameTrees, ok.target, rfl, ?_, live, migrated, ?_, ?_, ahead⟩
    · intro moduleName key isBoundary
      rcases moves with done | ⟨other, isName, otherKey, isOther⟩
      · cases done.symm.trans isBoundary
      · cases isOther.symm.trans isBoundary
        exact isName
    · intro store isRouted key value isLive isMigrated
      have isName := ok.covered store isRouted key (by simp [isLive])
      exact caught store isName ⟨store, key, value⟩ (mem_treeValues.mpr ⟨rfl, isLive⟩) isMigrated
    · exact fun name isName key value isLive =>
        passed name isName ⟨name, key, value⟩ (mem_treeValues.mpr ⟨rfl, isLive⟩)
  · rcases spec.moves with done | ⟨moduleName, _, key, isBoundary⟩
    · exact fun same => nomatch done.symm.trans same
    · exact fun same => nomatch isBoundary.symm.trans same

end

variable {batch : List ValueToMigrate}

theorem mem_entriesOf {key : Key} {value : Value} :
    ((store, key), value) ∈ entriesOf batch ↔ ⟨store, key, value⟩ ∈ batch := by
  simp only [entriesOf, mem_map, ValueToMigrate.address, Prod.mk.injEq]
  constructor
  · rintro ⟨⟨_⟩, isValue, ⟨rfl, rfl⟩, rfl⟩
    exact isValue
  · exact fun isValue => ⟨_, isValue, ⟨rfl, rfl⟩, rfl⟩

section

variable (advanced : Advanced plan routed old batch manager)

include advanced

/-- At a routed key, a batch moves and the caller writes as the library describes it. -/
theorem Advanced.movedAt
    {writes : List (KeyWrite (StoreName × Key) Value)} (isRouted : routed store) {key : Key}
    (disjoint : old.read store key = none ∨ new.read store key = none) :
    MovedAt old.contents new.contents (manager.shouldForwardWriteToNewDB old) (entriesOf batch)
      writes (store, key) := by
  refine Library.movedAt ?_ ?_ ?_ disjoint
  · intro value isValue
    exact (advanced.live _ (mem_entriesOf.mp isValue)).2
  · intro toNew value isLive
    refine mem_entriesOf.mpr (advanced.caught store isRouted key value isLive ?_)
    have isLive' : old.read store key = some value := isLive
    simpa [MigrationManager.shouldForwardWriteToNewDB, isLive'] using toNew
  · intro toOld
    rw [MigrationManager.shouldForwardWriteToNewDB, Bool.or_eq_false_iff] at toOld
    refine ⟨by simpa [contents] using toOld.2, fun value isValue => ?_⟩
    rw [advanced.migrated _ (mem_entriesOf.mp isValue)] at toOld
    cases toOld.1

/-- The writes of a call are to routed stores. -/
theorem Advanced.writes_routed (routes : plan.Routes routed)
    (allRouted : ∀ changeSet ∈ changeSets, routed changeSet.name)
    (chosen : KeyWrite (StoreName × Key) Value → Bool) :
    (∀ write ∈ deletions (entriesOf batch) ++ (writesOf changeSets).filter chosen,
      routed write.key.1) ∧
    (∀ write ∈ copies (entriesOf batch) ++ (writesOf changeSets).filter chosen,
      routed write.key.1) := by
  have ofBatch : ∀ entry ∈ entriesOf batch, routed entry.1.1 := by
    intro entry isEntry
    obtain ⟨value, isValue, rfl⟩ := mem_map.mp isEntry
    exact routes.trees _ (advanced.live value isValue).1
  have ofCaller : ∀ write ∈ (writesOf changeSets).filter chosen, routed write.key.1 := by
    intro write isWrite
    simp only [writesOf, mem_filter, mem_flatMap, mem_map] at isWrite
    obtain ⟨⟨changeSet, isChangeSet, -, _, rfl⟩, _⟩ := isWrite
    exact allRouted changeSet isChangeSet
  constructor
  all_goals
    intro write isWrite
    rcases mem_append.mp isWrite with moved | isCaller
    · obtain ⟨entry, isEntry, rfl⟩ := mem_map.mp moved
      exact ofBatch entry isEntry
    · exact ofCaller write isCaller

/-- A call while the migration is on, with the batch it moves. -/
theorem Advanced.applied (routes : plan.Routes routed)
    {before : MigrationManager} (ok : ManagerInvariant plan routed before old new)
    (allRouted : ∀ changeSet ∈ changeSets, routed changeSet.name)
    (extra : List NamedChangeSet) (reserved : ∀ changeSet ∈ extra, changeSet.name = migrationStore)
    (stored : ∀ next : Database,
      (∀ key, next.read migrationStore key = new.read migrationStore key) →
      plan.Stored (next.applyChangeSets extra) manager.boundary ∧
        (manager.boundary ≠ .complete →
          readVersionFromDB (next.applyChangeSets extra) = readVersionFromDB next)) :
    let dests := manager.collectChangeSets old (MigrationManager.collectBatch batch) changeSets
    Applied plan routed old new changeSets (manager, old.applyChangeSets dests.1.flatten,
      new.applyChangeSets (dests.2.flatten ++ extra)) := by
  intro dests
  obtain ⟨oldAfter, newAfter⟩ := manager.contents_moved old new batch changeSets
  have moved : ∀ store, routed store → ∀ key, MovedAt old.contents new.contents
      (manager.shouldForwardWriteToNewDB old) (entriesOf batch) (writesOf changeSets) (store, key) :=
    fun store isRouted key => advanced.movedAt isRouted (ok.disjoint store isRouted key)
  have oldRead : ∀ store key, (old.applyChangeSets dests.1.flatten).read store key = _ :=
    fun store key => congrFun oldAfter (store, key)
  have twice : new.applyChangeSets (dests.2.flatten ++ extra) =
      (new.applyChangeSets dests.2.flatten).applyChangeSets extra := foldl_append ..
  have newRead : ∀ store, store ≠ migrationStore → ∀ key,
      ((new.applyChangeSets dests.2.flatten).applyChangeSets extra).read store key =
        overlay new.contents
        (copies (entriesOf batch) ++ (writesOf changeSets).filter fun write =>
          manager.shouldForwardWriteToNewDB old write.key) (store, key) := by
    intro store unreserved key
    refine Eq.trans (read_applyChangeSets_of_ne (fun changeSet isExtra same => ?_) key)
      (congrFun newAfter (store, key))
    exact unreserved (same.symm.trans (reserved changeSet isExtra))
  have unreserved : ∀ store, routed store → store ≠ migrationStore := by
    rintro store isRouted rfl
    exact routes.unreserved isRouted
  -- What stays in the old database was there before and is not migrated.
  have oldKept : ∀ store, routed store → ∀ key,
      manager.boundary.isMigrated store key = true ∨ old.read store key = none →
      (old.applyChangeSets dests.1.flatten).read store key = none := by
    intro store isRouted key leaves
    rw [oldRead]
    exact (moved store isRouted key).gone
      (by simpa [MigrationManager.shouldForwardWriteToNewDB] using leaves)
  have sameReserved : ∀ key, (new.applyChangeSets dests.2.flatten).read migrationStore key =
      new.read migrationStore key := by
    intro key
    refine (congrFun newAfter (migrationStore, key)).trans ?_
    exact overlay_of_not_routed routed (advanced.writes_routed routes allRouted _).2
      routes.unreserved key
  rw [twice]
  constructor
  · constructor
    · exact advanced.trees
    · exact advanced.target
    · exact advanced.sameBoundary
    · constructor
      · intro name isName key
        rw [advanced.trees] at isName
        refine oldKept name (routes.trees name (mem_of_mem_take isName)) key ?_
        cases isLive : old.read name key with
        | none => exact .inr rfl
        | some value =>
          exact .inl (advanced.migrated _ (advanced.passed name isName key value isLive))
      · intro name isName moduleName key isBoundary
        rw [advanced.trees] at isName
        exact advanced.ahead name isName moduleName key (advanced.sameBoundary.symm.trans isBoundary)
    · exact advanced.inTrees
    · exact (stored (new.applyChangeSets dests.2.flatten) sameReserved).1
    · intro store isRouted key isLive
      refine ok.covered store isRouted key (Option.isSome_iff_ne_none.mpr fun absent => ?_)
      rw [oldKept store isRouted key (.inr absent)] at isLive
      cases isLive
    · exact fun store isRouted key isMigrated => oldKept store isRouted key (.inl isMigrated)
    · intro store isRouted key
      rw [oldRead, newRead store (unreserved store isRouted)]
      exact (moved store isRouted key).disjoint
  · intro store isRouted key
    show (read _ store key).or (read _ store key) = _
    rw [oldRead, newRead store (unreserved store isRouted)]
    exact (moved store isRouted key).union
  · intro store notRouted key
    rw [oldRead]
    exact overlay_of_not_routed routed (advanced.writes_routed routes allRouted _).1 notRouted key
  · intro store notRouted isOther key
    rw [newRead store isOther]
    exact overlay_of_not_routed routed (advanced.writes_routed routes allRouted _).2 notRouted key
  · intro unfinished
    refine ((stored (new.applyChangeSets dests.2.flatten) sameReserved).2 unfinished).trans ?_
    rw [readVersionFromDB, readVersionFromDB, sameReserved]

end

/-- A call for routed stores succeeds and changes the one map by the caller's writes. -/
theorem ManagerInvariant.applyChangeSets (ok : ManagerInvariant plan routed manager old new)
    (routes : plan.Routes routed)
    (allRouted : ∀ changeSet ∈ changeSets, routed changeSet.name) (firstBatchInBlock : Bool) :
    ∃ result, manager.applyChangeSets old new changeSets firstBatchInBlock = .ok result ∧
      Applied plan routed old new changeSets result := by
  have unreserved : (changeSets.any fun changeSet => changeSet.name = migrationStore) = false := by
    rw [any_eq_false]
    intro changeSet isChangeSet
    have isRouted := allRouted changeSet isChangeSet
    rw [decide_eq_true_eq]
    intro same
    rw [same] at isRouted
    exact routes.unreserved isRouted
  unfold MigrationManager.applyChangeSets
  rw [unreserved]
  by_cases done : manager.boundary = .complete
  · rw [if_pos done]
    exact ⟨_, rfl, ok.applied_complete routes done allRouted⟩
  · rw [if_neg done]
    obtain ⟨isVersion, _⟩ := ok.stored.unfinished done
    cases advancing : manager.advances firstBatchInBlock with
    | false =>
      refine ⟨_, rfl, ?_⟩
      refine ok.stay.applied routes ok allRouted [] nofun fun next same => ⟨?_, fun _ => rfl⟩
      exact ok.stored.congr same
    | true =>
      have positive : 0 < manager.migrationBatchSize := by
        simp only [MigrationManager.advances, Bool.and_eq_true, decide_eq_true_eq] at advancing
        exact advancing.2
      obtain ⟨batch, manager', isAdvance, advanced, moved⟩ := ok.advance routes done positive
      simp only [if_true, isAdvance, bind, Except.bind]
      refine ⟨_, rfl, ?_⟩
      refine advanced.applied routes ok allRouted [manager'.metadata] (by simp [MigrationManager.metadata])
        fun next same => ⟨?_, readVersionFromDB_metadata⟩
      refine stored_metadata advanced.target moved advanced.inTrees ?_
      simpa only [readVersionFromDB, same] using isVersion

end Manager

end SeiChain.Migration
