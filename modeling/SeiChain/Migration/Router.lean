/-
This file models the routers that split reads and writes between memiavl and
flatkv, one for each write mode. A router has routes, a route has the modules it
serves and the owner of their data: one of the backends, or a migration manager
that moves the data from one to the other. A call gives every route its own
change sets. The backends stay one map under the writes of a call, whichever
router takes it, and the routes do not disturb each other.
-/

import SeiChain.Migration.WriteMode

namespace SeiChain.Migration

open Library List

/-! ### Routes -/

/-- The two backends, with pending writes. -/
structure Databases where
  memIAVL : Database
  flatKV : Database

/-- Who reads and writes the data of a route. -/
inductive Owner where
  | memIAVL
  | flatKV
  | migration (manager : MigrationManager)
  | dualWrite

inductive RouterError where
  | flatKVNil
  | unsupportedMode (mode : WriteMode)
  | migration (error : MigrationError)
  | unregistered (store : StoreName)
  | duplicateModule
  deriving DecidableEq, Repr

namespace Owner

def read (owner : Owner) (databases : Databases) (store : StoreName) (key : Key) :
    Except MigrationError (Option Value) :=
  match owner with
  | memIAVL | dualWrite => .ok (databases.memIAVL.read store key)
  | flatKV => .ok (databases.flatKV.read store key)
  | migration manager => manager.read databases.memIAVL databases.flatKV store key

/-- A write, with the owner after it. -/
def write (owner : Owner) (databases : Databases) (changeSets : List NamedChangeSet)
    (firstBatchInBlock : Bool) : Except MigrationError (Owner × Databases) :=
  match owner with
  | memIAVL =>
    .ok (memIAVL, { databases with memIAVL := databases.memIAVL.applyChangeSets changeSets })
  | flatKV =>
    .ok (flatKV, { databases with flatKV := databases.flatKV.applyChangeSets changeSets })
  | migration manager =>
    match manager.applyChangeSets databases.memIAVL databases.flatKV changeSets
      firstBatchInBlock with
    | .error error => .error error
    | .ok (manager, old, new) => .ok (migration manager, ⟨old, new⟩)
  | dualWrite =>
    .ok (dualWrite, ⟨databases.memIAVL.applyChangeSets changeSets,
      databases.flatKV.applyChangeSets changeSets⟩)

def setMigrationBatchSize (batchSize : Int) : Owner → Owner
  | migration manager => migration (manager.setMigrationBatchSize batchSize)
  | owner => owner

end Owner

structure Route where
  modules : List StoreName
  owner : Owner

/-- The writes of a call, route by route. A route is called even if it has no change set. -/
def applyRoutes (changeSets : List NamedChangeSet) (firstBatchInBlock : Bool) :
    List Route → Databases → Except MigrationError (List Route × Databases)
  | [], databases => .ok ([], databases)
  | route :: rest, databases =>
    match route.owner.write databases
      (changeSets.filter fun changeSet => changeSet.name ∈ route.modules) firstBatchInBlock with
    | .error error => .error error
    | .ok (owner, databases) =>
      match applyRoutes changeSets firstBatchInBlock rest databases with
      | .error error => .error error
      | .ok (rest, databases) => .ok ({ route with owner := owner } :: rest, databases)

inductive Router where
  | passthrough (owner : Owner)
  | moduleRouter (routes : List Route)

/-- No module may be registered twice. -/
def newModuleRouter (routes : List Route) : Except RouterError Router :=
  if (routes.flatMap Route.modules).Nodup then .ok (.moduleRouter routes)
  else .error .duplicateModule

namespace Router

def read (router : Router) (databases : Databases) (store : StoreName) (key : Key) :
    Except RouterError (Option Value) :=
  match router with
  | passthrough owner => (owner.read databases store key).mapError .migration
  | moduleRouter routes =>
    match routes.find? fun route => store ∈ route.modules with
    | none => .error (.unregistered store)
    | some route => (route.owner.read databases store key).mapError .migration

def applyChangeSets (router : Router) (databases : Databases) (changeSets : List NamedChangeSet)
    (firstBatchInBlock : Bool) : Except RouterError (Router × Databases) :=
  match router with
  | passthrough owner =>
    match owner.write databases changeSets firstBatchInBlock with
    | .error error => .error (.migration error)
    | .ok (owner, databases) => .ok (passthrough owner, databases)
  | moduleRouter routes =>
    match changeSets.find? fun changeSet => routes.all fun route => changeSet.name ∉ route.modules with
    | some changeSet => .error (.unregistered changeSet.name)
    | none =>
      match applyRoutes changeSets firstBatchInBlock routes databases with
      | .error error => .error (.migration error)
      | .ok (routes, databases) => .ok (moduleRouter routes, databases)

def setMigrationBatchSize (batchSize : Int) : Router → Router
  | passthrough owner => passthrough owner
  | moduleRouter routes =>
    moduleRouter (routes.map fun route =>
      { route with owner := route.owner.setMigrationBatchSize batchSize })

end Router

/-! ### A router for each mode -/

variable (stores : InitialStores)

/-- A manager for the trees of memiavl, as the owner of a route. -/
def newMigrationOwner (migrationBatchSize : Int) (startVersion targetVersion : Nat)
    (storesToMigrate : List StoreName) (flatKV : Database) : Except RouterError Owner :=
  match newMigrationManager migrationBatchSize startVersion targetVersion flatKV
    (newMemiavlMigrationIterator (stores.trees storesToMigrate)) with
  | .error error => .error (.migration error)
  | .ok manager => .ok (.migration manager)

def buildMigrateEVMRouter (flatKV : Database) (migrationBatchSize : Int) :
    Except RouterError Router :=
  match newMigrationOwner stores migrationBatchSize version0MemiavlOnly version1MigrateEVM
    [evmStoreKey] flatKV with
  | .error error => .error error
  | .ok migrationManager =>
    newModuleRouter [⟨allModulesExcept [evmStoreKey], .memIAVL⟩, ⟨[evmStoreKey], migrationManager⟩]

def buildEVMMigratedRouter : Except RouterError Router :=
  newModuleRouter [⟨allModulesExcept [evmStoreKey], .memIAVL⟩, ⟨[evmStoreKey], .flatKV⟩]

def buildMigrateAllButBankRouter (flatKV : Database) (migrationBatchSize : Int) :
    Except RouterError Router :=
  match newMigrationOwner stores migrationBatchSize version1MigrateEVM version2MigrateAllButBank
    (allModulesExcept [evmStoreKey, bankStoreKey]) flatKV with
  | .error error => .error error
  | .ok migrationManager =>
    newModuleRouter [⟨[bankStoreKey], .memIAVL⟩, ⟨[evmStoreKey], .flatKV⟩,
      ⟨allModulesExcept [evmStoreKey, bankStoreKey], migrationManager⟩]

def buildAllMigratedButBankRouter : Except RouterError Router :=
  newModuleRouter [⟨allModulesExcept [bankStoreKey], .flatKV⟩, ⟨[bankStoreKey], .memIAVL⟩]

def buildMigrateBankRouter (flatKV : Database) (migrationBatchSize : Int) :
    Except RouterError Router :=
  match newMigrationOwner stores migrationBatchSize version2MigrateAllButBank version3FlatKVOnly
    [bankStoreKey] flatKV with
  | .error error => .error error
  | .ok migrationManager =>
    newModuleRouter [⟨[bankStoreKey], migrationManager⟩, ⟨allModulesExcept [bankStoreKey], .flatKV⟩]

def buildTestOnlyDualWriteRouter : Except RouterError Router :=
  newModuleRouter [⟨allModulesExcept [evmStoreKey], .memIAVL⟩, ⟨[evmStoreKey], .dualWrite⟩]

/-- `BuildRouter`; `flatKV` is `none` while it is not open. -/
def buildRouter (writeMode : WriteMode) (flatKV : Option Database) (migrationBatchSize : Int) :
    Except RouterError Router :=
  match writeMode, flatKV with
  | .memiavlOnly, _ => .ok (.passthrough .memIAVL)
  | .auto, _ => .error (.unsupportedMode .auto)
  | _, none => .error .flatKVNil
  | .migrateEVM, some flatKV => buildMigrateEVMRouter stores flatKV migrationBatchSize
  | .evmMigrated, some _ => buildEVMMigratedRouter
  | .migrateAllButBank, some flatKV =>
    buildMigrateAllButBankRouter stores flatKV migrationBatchSize
  | .allMigratedButBank, some _ => buildAllMigratedButBankRouter
  | .migrateBank, some flatKV => buildMigrateBankRouter stores flatKV migrationBatchSize
  | .flatKVOnly, some _ => .ok (.passthrough .flatKV)
  | .testOnlyDualWrite, some _ => buildTestOnlyDualWriteRouter

/-! ### What a route writes -/

theorem writesOf_filter (changeSets : List NamedChangeSet) (chosen : StoreName → Bool) :
    writesOf (changeSets.filter fun changeSet => chosen changeSet.name) =
      (writesOf changeSets).filter fun write => chosen write.key.1 := by
  induction changeSets with
  | nil => rfl
  | cons changeSet rest ih =>
    have single : (changeSet.pairs.map (pairWrite changeSet.name)).filter
        (fun write => chosen write.key.1) =
        if chosen changeSet.name then changeSet.pairs.map (pairWrite changeSet.name) else [] := by
      rw [filter_map]
      cases isChosen : chosen changeSet.name <;> simp [Function.comp_def, pairWrite, isChosen]
    have split : writesOf (changeSet :: rest) =
        changeSet.pairs.map (pairWrite changeSet.name) ++ writesOf rest := rfl
    rw [split, filter_append, single, ← ih]
    cases isChosen : chosen changeSet.name <;> simp [isChosen, writesOf]

variable {modules : List StoreName} {store : StoreName}

/-- The change sets of a route have all the writes to its modules. -/
theorem overlay_routed (base : Contents) (changeSets : List NamedChangeSet)
    (isModule : store ∈ modules) (key : Key) :
    overlay base (writesOf (changeSets.filter fun changeSet => changeSet.name ∈ modules))
      (store, key) = overlay base (writesOf changeSets) (store, key) := by
  have chosen := writesOf_filter changeSets fun name => decide (name ∈ modules)
  rw [overlay, overlay, chosen, lastWrite_filter fun address : StoreName × Key =>
    decide (address.1 ∈ modules), decide_eq_true isModule, if_pos rfl]

/-- The home of the data of an owner. -/
def Owner.home : Owner → Home
  | memIAVL | dualWrite => .memIAVL
  | flatKV => .flatKV
  | migration _ => .migrating

/-- How far an owner has migrated its data. -/
def Owner.boundary : Owner → MigrationBoundary
  | migration manager => manager.boundary
  | _ => .notStarted

/-- The data of the modules is where their owner looks for it. No mode that is entered at run time
has the dual writes of tests. -/
def Owner.Serves (plan : MigrationPlan) (modules : List StoreName) (databases : Databases) :
    Owner → Prop
  | memIAVL => ∀ store ∈ modules, ∀ key, databases.flatKV.read store key = none ∧
      ((databases.memIAVL.read store key).isSome → store ∈ stores.names)
  | flatKV => ∀ store ∈ modules, ∀ key, databases.memIAVL.read store key = none
  | migration manager =>
    ManagerInvariant plan (· ∈ modules) manager databases.memIAVL databases.flatKV
  | dualWrite => False

/-- What a write of an owner does to the backends. -/
structure Wrote (plan : MigrationPlan) (route : Route) (databases : Databases)
    (changeSets : List NamedChangeSet) (owner : Owner) (after : Databases) : Prop where
  serves : owner.Serves stores plan route.modules after
  sameHome : owner.home = route.owner.home
  written : ∀ store ∈ route.modules, ∀ key, merged after.memIAVL after.flatKV (store, key) =
    overlay (merged databases.memIAVL databases.flatKV) (writesOf changeSets) (store, key)
  framed : ∀ store, store ∉ route.modules → ∀ key,
    after.memIAVL.read store key = databases.memIAVL.read store key ∧
      (store ≠ migrationStore → after.flatKV.read store key = databases.flatKV.read store key)
  /-- Only a manager writes to the reserved store. -/
  reserved : route.owner.home ≠ .migrating → ∀ key,
    after.flatKV.read migrationStore key = databases.flatKV.read migrationStore key
  version : owner.boundary ≠ .complete →
    readVersionFromDB after.flatKV = readVersionFromDB databases.flatKV

section Routes

variable {stores : InitialStores} {plan : MigrationPlan} {databases after : Databases}
  {changeSets : List NamedChangeSet} {new : Database}

/-- The backends hold the same of a store. -/
def Databases.SameAt (databases after : Databases) (store : StoreName) : Prop :=
  ∀ key, after.memIAVL.read store key = databases.memIAVL.read store key ∧
    after.flatKV.read store key = databases.flatKV.read store key

theorem Databases.SameAt.merged (same : databases.SameAt after store) (key : Key) :
    merged after.memIAVL after.flatKV (store, key) =
      merged databases.memIAVL databases.flatKV (store, key) :=
  congrArg₂ Option.or (same key).1 (same key).2

/-- A manager only looks at the routed stores and at the bookkeeping. -/
theorem ManagerInvariant.congr {manager : MigrationManager}
    (ok : ManagerInvariant plan (· ∈ modules) manager databases.memIAVL databases.flatKV)
    (routes : plan.Routes (· ∈ modules)) (same : ∀ store ∈ modules, databases.SameAt after store)
    (sameReserved : ∀ key,
      after.flatKV.read migrationStore key = databases.flatKV.read migrationStore key) :
    ManagerInvariant plan (· ∈ modules) manager after.memIAVL after.flatKV where
  trees := ok.trees
  target := ok.target
  sameBoundary := ok.sameBoundary
  positioned := {
    passed := by
      intro name isName key
      have isTree : name ∈ plan.trees.names := ok.trees ▸ mem_of_mem_take isName
      rw [(same name (routes.trees name isTree) key).1]
      exact ok.positioned.passed name isName key
    ahead := ok.positioned.ahead }
  inTrees := ok.inTrees
  stored := ok.stored.congr sameReserved
  covered store isRouted key := by
    rw [(same store isRouted key).1]
    exact ok.covered store isRouted key
  gone store isRouted key := by
    rw [(same store isRouted key).1]
    exact ok.gone store isRouted key
  disjoint store isRouted key := by
    rw [(same store isRouted key).1, (same store isRouted key).2]
    exact ok.disjoint store isRouted key

/-- An owner is not disturbed by writes to other modules. -/
theorem Owner.Serves.congr {owner : Owner} (serves : owner.Serves stores plan modules databases)
    (routes : owner.home = .migrating → plan.Routes (· ∈ modules))
    (same : ∀ store ∈ modules, databases.SameAt after store)
    (sameReserved : owner.home = .migrating → ∀ key,
      after.flatKV.read migrationStore key = databases.flatKV.read migrationStore key) :
    owner.Serves stores plan modules after := by
  cases owner with
  | memIAVL =>
    intro store isModule key
    rw [(same store isModule key).1, (same store isModule key).2]
    exact serves store isModule key
  | flatKV =>
    intro store isModule key
    rw [(same store isModule key).1]
    exact serves store isModule key
  | migration => exact ManagerInvariant.congr serves (routes rfl) same (sameReserved rfl)
  | dualWrite => exact serves

/-- A read of an owner gives the value of the one map. -/
theorem Owner.Serves.read {owner : Owner} (serves : owner.Serves stores plan modules databases)
    (routes : owner.home = .migrating → plan.Routes (· ∈ modules))
    (isModule : store ∈ modules) (key : Key) :
    owner.read databases store key =
      .ok (merged databases.memIAVL databases.flatKV (store, key)) := by
  show _ = Except.ok ((databases.memIAVL.read store key).or (databases.flatKV.read store key))
  cases owner with
  | memIAVL => rw [Owner.read, (serves store isModule key).1, Option.or_none]
  | flatKV => rw [Owner.read, serves store isModule key, Option.none_or]
  | migration => exact ManagerInvariant.read serves (routes rfl) isModule key
  | dualWrite => exact serves.elim

theorem merged_eq_memIAVL {old : Database} {key : Key}
    (absent : new.read store key = none) : merged old new (store, key) = old.read store key := by
  show (old.read store key).or (new.read store key) = _
  rw [absent, Option.or_none]

theorem merged_eq_flatKV {old : Database} {key : Key}
    (absent : old.read store key = none) : merged old new (store, key) = new.read store key := by
  show (old.read store key).or (new.read store key) = _
  rw [absent, Option.none_or]

theorem overlay_congr_base {first second : Contents}
    {writes : List (KeyWrite (StoreName × Key) Value)} {address : StoreName × Key}
    (same : first address = second address) :
    overlay first writes address = overlay second writes address := by
  rw [overlay, overlay, same]

/-- Every owner takes the writes to its modules. -/
theorem Owner.Serves.write {route : Route}
    (serves : route.owner.Serves stores plan route.modules databases)
    (routes : route.owner.home = .migrating → plan.Routes (· ∈ route.modules))
    (unreserved : migrationStore ∉ route.modules)
    (allRouted : ∀ changeSet ∈ changeSets, changeSet.name ∈ route.modules)
    (mounted : stores.Mounts changeSets)
    (firstBatchInBlock : Bool) :
    ∃ owner after, route.owner.write databases changeSets firstBatchInBlock = .ok (owner, after) ∧
      Wrote stores plan route databases changeSets owner after := by
  obtain ⟨modules, owner⟩ := route
  have others : ∀ (db : Database) store, store ∉ modules → ∀ key,
      (db.applyChangeSets changeSets).read store key = db.read store key := by
    intro db store notModule key
    refine Database.read_applyChangeSets_of_ne (fun changeSet isChangeSet same => ?_) key
    exact notModule (same ▸ allRouted changeSet isChangeSet)
  cases owner with
  | memIAVL =>
    refine ⟨_, _, rfl, ?_, rfl, ?_, ?_, fun _ _ => rfl, fun _ => rfl⟩
    · intro store isModule key
      refine ⟨(serves store isModule key).1, fun isLive => ?_⟩
      by_cases written : ∃ changeSet ∈ changeSets, changeSet.name = store
      · obtain ⟨changeSet, isChangeSet, rfl⟩ := written
        exact mounted changeSet isChangeSet
      · refine (serves store isModule key).2 ?_
        rw [← Database.read_applyChangeSets_of_ne
          (fun changeSet isChangeSet same => written ⟨changeSet, isChangeSet, same⟩) key]
        exact isLive
    · intro store isModule key
      have absent := (serves store isModule key).1
      rw [merged_eq_memIAVL absent, Database.read_applyChangeSets]
      exact overlay_congr_base (merged_eq_memIAVL absent).symm
    · exact fun store notModule key => ⟨others _ store notModule key, fun _ => rfl⟩
  | flatKV =>
    refine ⟨_, _, rfl, serves, rfl, ?_, ?_, fun _ => others _ migrationStore unreserved, fun _ => ?_⟩
    · intro store isModule key
      have absent := serves store isModule key
      rw [merged_eq_flatKV absent, Database.read_applyChangeSets]
      exact overlay_congr_base (merged_eq_flatKV absent).symm
    · exact fun store notModule key => ⟨rfl, fun _ => others _ store notModule key⟩
    · rw [readVersionFromDB, readVersionFromDB, others _ migrationStore unreserved]
  | migration =>
    obtain ⟨⟨manager', old, new⟩, isResult, applied⟩ :=
      ManagerInvariant.applyChangeSets serves (routes rfl) allRouted firstBatchInBlock
    refine ⟨.migration manager', ⟨old, new⟩, by simp only [Owner.write, isResult],
      applied.invariant, rfl, applied.written, fun store notModule key => ?_,
      fun steady => absurd rfl steady, applied.version⟩
    exact ⟨applied.framedOld store notModule key,
      fun isOther => applied.framedNew store notModule isOther key⟩
  | dualWrite => exact serves.elim

/-- Two routes that share no module and are not both a manager's. -/
def Route.Apart (first second : Route) : Prop :=
  first.owner.home ≠ second.owner.home ∧ ∀ store ∈ first.modules, store ∉ second.modules

/-- What the writes of a call do to the backends, route by route. -/
structure RoutesWrote (stores : InitialStores) (plan : MigrationPlan) (routes : List Route)
    (databases : Databases) (changeSets : List NamedChangeSet) (routes' : List Route)
    (after : Databases) : Prop where
  same : routes'.map (fun route => (route.modules, route.owner.home)) =
    routes.map fun route => (route.modules, route.owner.home)
  serves : ∀ route ∈ routes', route.owner.Serves stores plan route.modules after
  written : ∀ route ∈ routes, ∀ store ∈ route.modules, ∀ key,
    merged after.memIAVL after.flatKV (store, key) =
      overlay (merged databases.memIAVL databases.flatKV) (writesOf changeSets) (store, key)
  framed : ∀ store, (∀ route ∈ routes, store ∉ route.modules) → ∀ key,
    after.memIAVL.read store key = databases.memIAVL.read store key ∧
      (store ≠ migrationStore → after.flatKV.read store key = databases.flatKV.read store key)
  reserved : (∀ route ∈ routes, route.owner.home ≠ .migrating) → ∀ key,
    after.flatKV.read migrationStore key = databases.flatKV.read migrationStore key
  version : (∀ route ∈ routes', route.owner.boundary ≠ .complete) →
    readVersionFromDB after.flatKV = readVersionFromDB databases.flatKV

/-- The routes take their writes one after the other, without disturbing each other. -/
theorem applyRoutes_wrote {routes : List Route}
    (serves : ∀ route ∈ routes, route.owner.Serves stores plan route.modules databases)
    (planned : ∀ route ∈ routes, route.owner.home = .migrating → plan.Routes (· ∈ route.modules))
    (unreserved : ∀ route ∈ routes, migrationStore ∉ route.modules)
    (apart : routes.Pairwise Route.Apart)
    (mounted : stores.Mounts changeSets)
    (firstBatchInBlock : Bool) :
    ∃ routes' after, applyRoutes changeSets firstBatchInBlock routes databases =
        .ok (routes', after) ∧
      RoutesWrote stores plan routes databases changeSets routes' after := by
  induction routes generalizing databases with
  | nil =>
    exact ⟨[], databases, rfl, rfl, nofun, nofun, fun _ _ _ => ⟨rfl, fun _ => rfl⟩,
      fun _ _ => rfl, fun _ => rfl⟩
  | cons route rest ih =>
    rw [pairwise_cons] at apart
    rw [forall_mem_cons] at serves planned unreserved
    have chosen : ∀ changeSet ∈ changeSets.filter fun changeSet => changeSet.name ∈ route.modules,
        changeSet ∈ changeSets ∧ changeSet.name ∈ route.modules := by simp
    obtain ⟨owner, middle, isWrite, wrote⟩ := serves.1.write planned.1 unreserved.1
      (fun changeSet isChosen => (chosen changeSet isChosen).2)
      (fun changeSet isChosen => mounted changeSet (chosen changeSet isChosen).1) firstBatchInBlock
    -- The other routes still find their data: their modules were left alone.
    have away : ∀ other ∈ rest, ∀ store ∈ other.modules, databases.SameAt middle store := by
      intro other isOther store isModule key
      refine (wrote.framed store (fun isHere => (apart.1 other isOther).2 store isHere isModule)
        key).imp_right fun same => same ?_
      rintro rfl
      exact unreserved.2 other isOther isModule
    have restServes : ∀ other ∈ rest, other.owner.Serves stores plan other.modules middle :=
      fun other isOther => (serves.2 other isOther).congr (planned.2 other isOther)
        (away other isOther) fun migrates =>
          wrote.reserved fun same => (apart.1 other isOther).1 (same.trans migrates.symm)
    obtain ⟨rest', after, isRest, wroteRest⟩ := ih restServes planned.2 unreserved.2 apart.2
    have here : ∀ store ∈ route.modules, middle.SameAt after store := by
      intro store isModule key
      refine (wroteRest.framed store (fun other isOther => (apart.1 other isOther).2 store isModule)
        key).imp_right fun same => same ?_
      rintro rfl
      exact unreserved.1 isModule
    refine ⟨{ route with owner := owner } :: rest', after,
      by simp only [applyRoutes, isWrite, isRest], ?_, ?_, ?_, ?_, ?_, ?_⟩
    · rw [map_cons, map_cons, wroteRest.same, wrote.sameHome]
    · refine forall_mem_cons.mpr ⟨?_, wroteRest.serves⟩
      refine wrote.serves.congr (fun migrates => planned.1 (wrote.sameHome ▸ migrates)) here
        fun migrates => wroteRest.reserved fun other isOther same => ?_
      exact (apart.1 other isOther).1 ((wrote.sameHome ▸ migrates).trans same.symm)
    · rw [forall_mem_cons]
      constructor
      · intro store isModule key
        exact ((here store isModule).merged key).trans
          ((wrote.written store isModule key).trans (overlay_routed _ _ isModule key))
      · intro other isOther store isModule key
        exact (wroteRest.written other isOther store isModule key).trans
          (overlay_congr_base ((away other isOther store isModule).merged key))
    · intro store outside key
      rw [forall_mem_cons] at outside
      obtain ⟨firstMemIAVL, firstFlatKV⟩ := wrote.framed store outside.1 key
      obtain ⟨thenMemIAVL, thenFlatKV⟩ := wroteRest.framed store outside.2 key
      exact ⟨thenMemIAVL.trans firstMemIAVL,
        fun isOther => (thenFlatKV isOther).trans (firstFlatKV isOther)⟩
    · intro steady key
      rw [forall_mem_cons] at steady
      exact (wroteRest.reserved steady.2 key).trans (wrote.reserved steady.1 key)
    · intro unfinished
      rw [forall_mem_cons] at unfinished
      exact (wroteRest.version unfinished.2).trans (wrote.version unfinished.1)

end Routes

end SeiChain.Migration
