/-
This file shows that the data of every store is where the write mode expects it.
Each route of a mode's router serves the modules with one home; the bookkeeping
in flatkv says which mode it is. Reads and writes go through any router that fits
its mode as through one map. When a migration starts or completes, the data is in
place for the next mode, and a router can be built for every mode whose data is
in place.
-/

import SeiChain.Migration.Router

namespace SeiChain.Migration

open Library List WriteMode Router Route

/-! ### Routers and modes -/

variable {store : StoreName}

namespace WriteMode

def storesToMigrate : WriteMode → List StoreName
  | migrateAllButBank => allModulesExcept [evmStoreKey, bankStoreKey]
  | migrateBank => [bankStoreKey]
  | _ => [evmStoreKey]

/-- The migration of a migration mode. -/
def plan (stores : InitialStores) (mode : WriteMode) : MigrationPlan where
  trees := stores.trees mode.storesToMigrate
  startVersion := mode.startVersion
  targetVersion := mode.startVersion + 1
  increasing := Nat.lt_succ_self _
  bounded := by cases mode <;> decide

theorem mem_storesToMigrate {mode : WriteMode} (migrates : mode.isMigrationMode = true) :
    store ∈ mode.storesToMigrate ↔ store ∈ memIAVLStoreKeys ∧ mode.home store = .migrating := by
  cases mode with
  | migrateEVM | migrateBank =>
    simp only [storesToMigrate, home, mem_singleton, ite_eq_left_iff, reduceCtorEq, imp_false,
      not_not, iff_and_self]
    rintro rfl
    decide
  | migrateAllButBank =>
    rw [storesToMigrate, mem_allModulesExcept, home]
    split_ifs <;> simp_all
  | _ => cases migrates

theorem mem_plan_trees {stores : InitialStores} {mode : WriteMode}
    (migrates : mode.isMigrationMode = true) :
    store ∈ (mode.plan stores).trees.names ↔
      store ∈ stores.names ∧ mode.home store = .migrating := by
  have notEmpty : mode.storesToMigrate ≠ [] := by
    cases mode <;> decide
  show store ∈ treesToMigrate stores.names mode.storesToMigrate ↔ _
  rw [mem_treesToMigrate, mem_storesToMigrate migrates]
  constructor
  · rintro ⟨isStore, _, isEmpty | ⟨_, isMigrating⟩⟩
    · exact absurd isEmpty notEmpty
    · exact ⟨isStore, isMigrating⟩
  · rintro ⟨isStore, isMigrating⟩
    have isKey := stores.known store isStore
    refine ⟨isStore, ?_, .inr ⟨isKey, isMigrating⟩⟩
    rintro rfl
    exact migrationStore_not_mem_memIAVLStoreKeys isKey

end WriteMode

/-- What a router makes known of a route. -/
def Route.shape (route : Route) : List StoreName × Home := (route.modules, route.owner.home)

/-- Every module is routed to its home. -/
structure Fits (mode : WriteMode) (shapes : List (List StoreName × Home)) : Prop where
  modules : ∀ shape ∈ shapes, ∀ store,
    store ∈ shape.1 ↔ store ∈ memIAVLStoreKeys ∧ mode.home store = shape.2
  covers : ∀ store ∈ memIAVLStoreKeys, ∃ shape ∈ shapes, shape.2 = mode.home store
  distinct : shapes.Pairwise fun first second => first.2 ≠ second.2
  migrates : ∀ shape ∈ shapes, shape.2 = .migrating → mode.isMigrationMode = true

/-- A passthrough serves all modules. -/
def Router.routes : Router → List Route
  | passthrough owner => [⟨memIAVLStoreKeys, owner⟩]
  | moduleRouter routes => routes

/-- What holds of the router of a mode and the backends at all times. -/
structure RouterInvariant (stores : InitialStores) (mode : WriteMode) (router : Router)
    (databases : Databases) : Prop where
  chain : mode ∈ migrationChain
  fits : Fits mode (router.routes.map shape)
  serves : ∀ route ∈ router.routes, route.owner.Serves stores (mode.plan stores) route.modules
    databases
  version : ∃ got, readVersionFromDB databases.flatKV = .ok got ∧
    (got.getD 0 = mode.startVersion ∨
      mode.isMigrationMode = true ∧ got = some (mode.startVersion + 1))
  steady : mode.isMigrationMode = false → readMigrationBoundary databases.flatKV = .ok .notStarted

section Modes

variable {stores : InitialStores} {mode : WriteMode} {router : Router} {databases : Databases}

section

variable {routes : List Route} (fits : Fits mode (routes.map shape))

include fits

theorem Fits.of_mem {route : Route} (isRoute : route ∈ routes) :
    store ∈ route.modules ↔ store ∈ memIAVLStoreKeys ∧ mode.home store = route.owner.home :=
  fits.modules route.shape (mem_map_of_mem isRoute) store

theorem Fits.exists_route (isKey : store ∈ memIAVLStoreKeys) :
    ∃ route ∈ routes, store ∈ route.modules ∧ route.owner.home = mode.home store := by
  obtain ⟨shape, isShape, isHome⟩ := fits.covers store isKey
  obtain ⟨route, isRoute, rfl⟩ := mem_map.mp isShape
  exact ⟨route, isRoute, (fits.of_mem isRoute).mpr ⟨isKey, isHome.symm⟩, isHome⟩

theorem Fits.unreserved :
    ∀ route ∈ routes, migrationStore ∉ route.modules := fun _ isRoute isModule =>
  migrationStore_not_mem_memIAVLStoreKeys ((fits.of_mem isRoute).mp isModule).1

theorem Fits.apart : routes.Pairwise Route.Apart := by
  have homes := pairwise_map.mp fits.distinct
  refine homes.imp_of_mem fun {first second} isFirst isSecond different => ⟨different, ?_⟩
  intro store isModule isOther
  have isHome := ((fits.of_mem isFirst).mp isModule).2
  exact different (isHome.symm.trans ((fits.of_mem isSecond).mp isOther).2)

/-- A manager is for the migration of its mode. -/
theorem Fits.planned :
    ∀ route ∈ routes, route.owner.home = .migrating →
      (mode.plan stores).Routes (· ∈ route.modules) := by
  intro route isRoute migrates
  refine ⟨fun name isName => ?_, fits.unreserved route isRoute⟩
  have isMode := fits.migrates route.shape (mem_map_of_mem isRoute) migrates
  obtain ⟨isStore, isHome⟩ := (mem_plan_trees isMode).mp isName
  exact (fits.of_mem isRoute).mpr ⟨stores.known name isStore, isHome.trans migrates.symm⟩

end

theorem RouterInvariant.read (ok : RouterInvariant stores mode router databases)
    (isKey : store ∈ memIAVLStoreKeys) (key : Key) :
    router.read databases store key =
      .ok (merged databases.memIAVL databases.flatKV (store, key)) := by
  obtain ⟨-, fits, serves, -, -⟩ := ok
  have ownerRead : ∀ route ∈ router.routes, store ∈ route.modules →
      route.owner.read databases store key =
        .ok (merged databases.memIAVL databases.flatKV (store, key)) :=
    fun route isRoute isModule =>
      (serves route isRoute).read (fits.planned route isRoute) isModule key
  cases router with
  | passthrough owner =>
    rw [Router.read, ownerRead ⟨memIAVLStoreKeys, owner⟩ mem_cons_self isKey]
    rfl
  | moduleRouter routes =>
    obtain ⟨route, isRoute, isModule, _⟩ := fits.exists_route isKey
    cases found : routes.find? fun route => store ∈ route.modules with
    | none => exact absurd isModule (by simpa using find?_eq_none.mp found route isRoute)
    | some route =>
      have isModule : store ∈ route.modules := by
        simpa using find?_some found
      rw [Router.read, found]
      dsimp only
      rw [ownerRead route (mem_of_find?_eq_some found) isModule]
      rfl

/-- A router passes the writes on to its routes. -/
theorem Router.applyChangeSets_of_routes {changeSets : List NamedChangeSet}
    {firstBatchInBlock : Bool} {routes : List Route} {after : Databases}
    (registered : ∀ changeSet ∈ changeSets, ∃ route ∈ router.routes, changeSet.name ∈ route.modules)
    (isResult : applyRoutes changeSets firstBatchInBlock router.routes databases =
      .ok (routes, after)) :
    ∃ router', router.applyChangeSets databases changeSets firstBatchInBlock =
      .ok (router', after) ∧ router'.routes = routes := by
  cases router with
  | passthrough owner =>
    have all : changeSets.filter (fun changeSet => changeSet.name ∈ memIAVLStoreKeys) =
        changeSets := by
      rw [filter_eq_self]
      intro changeSet isChangeSet
      simpa [Router.routes] using registered changeSet isChangeSet
    simp only [Router.routes, applyRoutes, all] at isResult
    rw [applyChangeSets]
    cases isWrite : owner.write databases changeSets firstBatchInBlock with
    | error error => simp [isWrite] at isResult
    | ok result =>
      simp only [isWrite, Except.ok.injEq, Prod.mk.injEq] at isResult
      obtain ⟨isRoutes, rfl⟩ := isResult
      exact ⟨.passthrough result.1, rfl, isRoutes⟩
  | moduleRouter routes =>
    have noneMissing : (changeSets.find? fun changeSet =>
        routes.all fun route => changeSet.name ∉ route.modules) = none := by
      rw [find?_eq_none]
      intro changeSet isChangeSet
      simpa [Router.routes] using registered changeSet isChangeSet
    refine ⟨.moduleRouter _, ?_, rfl⟩
    rw [applyChangeSets, noneMissing]
    rw [show applyRoutes changeSets firstBatchInBlock routes databases = _ from isResult]

/-- A router takes the writes of a call, and the backends stay one map. -/
theorem RouterInvariant.applyChangeSets (ok : RouterInvariant stores mode router databases)
    {changeSets : List NamedChangeSet}
    (mounted : stores.Mounts changeSets)
    (firstBatchInBlock : Bool) :
    ∃ router' after, router.applyChangeSets databases changeSets firstBatchInBlock =
        .ok (router', after) ∧
      RouterInvariant stores mode router' after ∧
      ∀ store ∈ memIAVLStoreKeys, ∀ key, merged after.memIAVL after.flatKV (store, key) =
        overlay (merged databases.memIAVL databases.flatKV) (writesOf changeSets) (store, key) := by
  have fits := ok.fits
  obtain ⟨routes, after, isRoutes, wrote⟩ := applyRoutes_wrote ok.serves fits.planned
    fits.unreserved fits.apart mounted firstBatchInBlock
  obtain ⟨router', isRouter, rfl⟩ := applyChangeSets_of_routes (fun changeSet isChangeSet => by
    obtain ⟨route, isRoute, isModule, _⟩ :=
      fits.exists_route (stores.known _ (mounted changeSet isChangeSet))
    exact ⟨route, isRoute, isModule⟩) isRoutes
  have sameShapes : router'.routes.map shape = router.routes.map shape := wrote.same
  refine ⟨router', after, isRouter, ⟨ok.chain, sameShapes ▸ fits, wrote.serves, ?_, ?_⟩,
    fun store isKey key => ?_⟩
  · by_cases finished : ∃ route ∈ router'.routes, route.owner.boundary = .complete
    · obtain ⟨⟨modules, owner⟩, isRoute, isComplete⟩ := finished
      have serves := wrote.serves _ isRoute
      cases owner with
      | memIAVL | flatKV | dualWrite => cases isComplete
      | migration manager =>
        have stored := ManagerInvariant.stored serves
        rw [show manager.boundary = .complete from isComplete] at stored
        exact ⟨_, stored.1, .inr ⟨(sameShapes ▸ fits).migrates _ (mem_map_of_mem isRoute) rfl, rfl⟩⟩
    · rw [wrote.version fun route isRoute isComplete => finished ⟨route, isRoute, isComplete⟩]
      exact ok.version
  · intro steady
    rw [readMigrationBoundary, wrote.reserved ?_]
    · exact ok.steady steady
    · intro route isRoute migrates
      have isMode := fits.migrates route.shape (mem_map_of_mem isRoute) migrates
      rw [steady] at isMode
      cases isMode
  · obtain ⟨route, isRoute, isModule, _⟩ := fits.exists_route isKey
    exact wrote.written route isRoute store isModule key

/-! ### Entering a mode -/

/-- The data of the stores is where a mode expects it, and flatkv says so. -/
structure Placed (stores : InitialStores) (mode : WriteMode) (boundary : MigrationBoundary)
    (databases : Databases) : Prop where
  chain : mode ∈ migrationChain
  held : ∀ store ∈ memIAVLStoreKeys, ∀ key,
    (databases.memIAVL.read store key).isSome → store ∈ stores.names
  memIAVL : ∀ store ∈ memIAVLStoreKeys, mode.home store = .memIAVL → ∀ key,
    databases.flatKV.read store key = none
  flatKV : ∀ store ∈ memIAVLStoreKeys, mode.home store = .flatKV → ∀ key,
    databases.memIAVL.read store key = none
  disjoint : ∀ store ∈ memIAVLStoreKeys, ∀ key,
    databases.memIAVL.read store key = none ∨ databases.flatKV.read store key = none
  gone : ∀ store ∈ memIAVLStoreKeys, mode.home store = .migrating → ∀ key,
    boundary.isMigrated store key = true → databases.memIAVL.read store key = none
  inTrees : ∀ moduleName key, boundary = .inProgress moduleName key →
    moduleName ∈ (mode.plan stores).trees.names
  stored : (mode.plan stores).Stored databases.flatKV boundary
  version : boundary ≠ .complete → ∃ got, readVersionFromDB databases.flatKV = .ok got ∧
    got.getD 0 = mode.startVersion
  steady : mode.isMigrationMode = false → boundary = .notStarted

/-- A mode whose stores migrate has some to migrate. -/
theorem WriteMode.exists_migrating (migrates : mode.isMigrationMode = true) :
    ∃ store ∈ memIAVLStoreKeys, mode.home store = .migrating := by
  cases mode with
  | migrateEVM | migrateAllButBank | migrateBank => decide
  | _ => cases migrates

section

variable (ok : RouterInvariant stores mode router databases)

include ok

section

variable (isKey : store ∈ memIAVLStoreKeys)

include isKey

theorem RouterInvariant.served_memIAVL (isHome : mode.home store = .memIAVL)
    (key : Key) : databases.flatKV.read store key = none ∧
      ((databases.memIAVL.read store key).isSome → store ∈ stores.names) := by
  obtain ⟨⟨modules, owner⟩, isRoute, isModule, sameHome⟩ := ok.fits.exists_route isKey
  have serves := ok.serves _ isRoute
  rw [isHome] at sameHome
  cases owner with
  | memIAVL => exact serves store isModule key
  | flatKV | migration => cases sameHome
  | dualWrite => exact serves.elim

theorem RouterInvariant.served_flatKV (isHome : mode.home store = .flatKV)
    (key : Key) : databases.memIAVL.read store key = none := by
  obtain ⟨⟨modules, owner⟩, isRoute, isModule, sameHome⟩ := ok.fits.exists_route isKey
  have serves := ok.serves _ isRoute
  rw [isHome] at sameHome
  cases owner with
  | flatKV => exact serves store isModule key
  | memIAVL | migration | dualWrite => cases sameHome

/-- One manager serves the stores that migrate. -/
theorem RouterInvariant.exists_manager (isHome : mode.home store = .migrating) :
    mode.isMigrationMode = true ∧ ∃ manager, ManagerInvariant (mode.plan stores)
      (fun store => store ∈ memIAVLStoreKeys ∧ mode.home store = .migrating) manager
      databases.memIAVL databases.flatKV := by
  obtain ⟨⟨modules, owner⟩, isRoute, -, sameHome⟩ := ok.fits.exists_route isKey
  have serves := ok.serves _ isRoute
  have migrates := sameHome.trans isHome
  refine ⟨ok.fits.migrates _ (mem_map_of_mem isRoute) migrates, ?_⟩
  have isRouted : (fun store => store ∈ memIAVLStoreKeys ∧ mode.home store = .migrating) =
      (· ∈ modules) := by
    funext other
    rw [← migrates]
    exact propext (ok.fits.of_mem isRoute).symm
  rw [isRouted]
  cases owner with
  | migration manager => exact ⟨manager, serves⟩
  | memIAVL | flatKV | dualWrite => cases migrates

end

/-- The data is in place in a mode that is on. -/
theorem RouterInvariant.placed : ∃ boundary, Placed stores mode boundary databases := by
  have held : ∀ store ∈ memIAVLStoreKeys, ∀ key,
      (databases.memIAVL.read store key).isSome → store ∈ stores.names := by
    intro store isKey key isLive
    cases isHome : mode.home store with
    | memIAVL => exact (ok.served_memIAVL isKey isHome key).2 isLive
    | flatKV => simp [ok.served_flatKV isKey isHome key] at isLive
    | migrating =>
      obtain ⟨migrates, manager, managed⟩ := ok.exists_manager isKey isHome
      have isTree := managed.covered store ⟨isKey, isHome⟩ key isLive
      exact ((mem_plan_trees migrates).mp isTree).1
  have disjoint : ∀ store ∈ memIAVLStoreKeys, ∀ key,
      databases.memIAVL.read store key = none ∨ databases.flatKV.read store key = none := by
    intro store isKey key
    cases isHome : mode.home store with
    | memIAVL => exact .inr (ok.served_memIAVL isKey isHome key).1
    | flatKV => exact .inl (ok.served_flatKV isKey isHome key)
    | migrating =>
      obtain ⟨_, manager, managed⟩ := ok.exists_manager isKey isHome
      exact managed.disjoint store ⟨isKey, isHome⟩ key
  have memIAVL : ∀ store ∈ memIAVLStoreKeys, mode.home store = .memIAVL → ∀ key,
      databases.flatKV.read store key = none :=
    fun store isKey isHome key => (ok.served_memIAVL isKey isHome key).1
  have flatKV : ∀ store ∈ memIAVLStoreKeys, mode.home store = .flatKV → ∀ key,
      databases.memIAVL.read store key = none := fun _ => ok.served_flatKV
  obtain ⟨got, isGot, isVersion⟩ := ok.version
  cases migrates : mode.isMigrationMode with
  | false =>
    have started : got.getD 0 = mode.startVersion :=
      isVersion.resolve_right fun finished => by simp [migrates] at finished
    have stored : readVersionFromDB databases.flatKV = .ok none ∨
        readVersionFromDB databases.flatKV = .ok (some mode.startVersion) := by
      rw [isGot, ← started]
      cases got <;> simp
    exact ⟨.notStarted, ok.chain, held, memIAVL, flatKV, disjoint,
      fun store isKey isHome => absurd (ok.exists_manager isKey isHome).1 (by simp [migrates]),
      nofun, ⟨stored, ok.steady migrates⟩, fun _ => ⟨got, isGot, started⟩, fun _ => rfl⟩
  | true =>
    obtain ⟨store, isKey, isHome⟩ := exists_migrating migrates
    obtain ⟨_, manager, managed⟩ := ok.exists_manager isKey isHome
    refine ⟨manager.boundary, ok.chain, held, memIAVL, flatKV, disjoint,
      fun store isKey isHome => managed.gone store ⟨isKey, isHome⟩, managed.inTrees, managed.stored,
      fun unfinished => ⟨got, isGot, ?_⟩, fun steady => nomatch migrates.symm.trans steady⟩
    rcases (managed.stored.unfinished unfinished).1 with isNone | isStart
    · cases isGot.symm.trans isNone
      exact isVersion.resolve_right nofun
    · cases isGot.symm.trans isStart
      rfl

end

variable {boundary : MigrationBoundary}

/-- A router for data that is in place, given its managers. -/
theorem Placed.routerInvariant (placed : Placed stores mode boundary databases)
    (fits : Fits mode (router.routes.map shape))
    (owned : ∀ route ∈ router.routes, route.owner = .memIAVL ∨ route.owner = .flatKV ∨
      route.owner.Serves stores (mode.plan stores) route.modules databases) :
    RouterInvariant stores mode router databases where
  chain := placed.chain
  fits := fits
  serves route isRoute := by
    rcases owned route isRoute with isOwner | isOwner | serves
    · rw [isOwner]
      intro store isModule key
      obtain ⟨isKey, isHome⟩ := (fits.of_mem isRoute).mp isModule
      rw [isOwner] at isHome
      exact ⟨placed.memIAVL store isKey isHome key, placed.held store isKey key⟩
    · rw [isOwner]
      intro store isModule key
      obtain ⟨isKey, isHome⟩ := (fits.of_mem isRoute).mp isModule
      rw [isOwner] at isHome
      exact placed.flatKV store isKey isHome key
    · exact serves
  version := by
    by_cases finished : boundary = .complete
    · subst finished
      cases migrates : mode.isMigrationMode with
      | true => exact ⟨_, placed.stored.1, .inr ⟨rfl, rfl⟩⟩
      | false => cases placed.steady migrates
    · obtain ⟨got, isGot, isStart⟩ := placed.version finished
      exact ⟨got, isGot, .inl isStart⟩
  steady steady := by
    have stored := placed.stored
    rw [placed.steady steady] at stored
    exact stored.2

/-- The manager of a migration mode whose data is in place. -/
theorem Placed.newMigrationOwner
    (placed : Placed stores mode boundary databases) (migrates : mode.isMigrationMode = true)
    (size : Int) {modules : List StoreName} (isModule : ∀ store, store ∈ modules ↔
      store ∈ memIAVLStoreKeys ∧ mode.home store = .migrating) :
    ∃ manager, newMigrationOwner stores size mode.startVersion (mode.startVersion + 1)
        mode.storesToMigrate databases.flatKV = .ok (.migration manager) ∧
      ManagerInvariant (mode.plan stores) (· ∈ modules) manager databases.memIAVL
        databases.flatKV := by
  have routes : (mode.plan stores).Routes (· ∈ modules) := by
    refine ⟨fun name isName => ?_, fun reserved => ?_⟩
    · obtain ⟨isStore, isHome⟩ := (mem_plan_trees migrates).mp isName
      exact (isModule name).mpr ⟨stores.known name isStore, isHome⟩
    · exact migrationStore_not_mem_memIAVLStoreKeys ((isModule _).mp reserved).1
  obtain ⟨manager, isManager, ok⟩ := managerInvariant_new size routes placed.stored
    placed.inTrees
    (fun store isRouted key isLive => (mem_plan_trees migrates).mpr
      ⟨placed.held store ((isModule store).mp isRouted).1 key isLive, ((isModule store).mp isRouted).2⟩)
    (fun store isRouted => placed.gone store ((isModule store).mp isRouted).1
      ((isModule store).mp isRouted).2)
    (fun store isRouted => placed.disjoint store ((isModule store).mp isRouted).1)
  have created : newMigrationManager size mode.startVersion (mode.startVersion + 1)
      databases.flatKV (newMemiavlMigrationIterator (stores.trees mode.storesToMigrate)) =
      .ok manager := isManager
  exact ⟨manager, by rw [Migration.newMigrationOwner, created], ok⟩

theorem evmStoreKey_mem : evmStoreKey ∈ memIAVLStoreKeys := by decide

theorem bankStoreKey_mem : bankStoreKey ∈ memIAVLStoreKeys := by decide

theorem fits_single {home : Home} (everywhere : ∀ store, mode.home store = home)
    (steady : home ≠ .migrating) : Fits mode [(memIAVLStoreKeys, home)] where
  modules := by simp [everywhere]
  covers := by simp [everywhere]
  distinct := pairwise_singleton _ _
  migrates := by simp [steady]

/-- The modules but one have one home, and that one has another. -/
theorem fits_split {special : StoreName} {common other : Home} (isKey : special ∈ memIAVLStoreKeys)
    (isHome : ∀ store, mode.home store = if store = special then other else common)
    (different : common ≠ other)
    (migrates : common = .migrating ∨ other = .migrating → mode.isMigrationMode = true) :
    Fits mode [(allModulesExcept [special], common), ([special], other)] where
  modules := by
    refine forall_mem_cons.mpr ⟨fun store => ?_, forall_mem_cons.mpr ⟨fun store => ?_, nofun⟩⟩
    · by_cases same : store = special
      · simp [mem_allModulesExcept, isHome, same, Ne.symm different]
      · simp [mem_allModulesExcept, isHome, same]
    · by_cases same : store = special
      · simp [isHome, same, isKey]
      · simp [isHome, same, different]
  covers store _ := by
    rw [isHome]
    split <;> simp
  distinct := by simpa using different
  migrates := by
    simp only [forall_mem_cons]
    exact ⟨fun isCommon => migrates (.inl isCommon), fun isOther => migrates (.inr isOther), nofun⟩

theorem Fits.swap {first second : List StoreName × Home} (fits : Fits mode [first, second]) :
    Fits mode [second, first] where
  modules shape isShape := fits.modules shape (by simpa [or_comm] using isShape)
  covers store isKey := by
    obtain ⟨shape, isShape, isHome⟩ := fits.covers store isKey
    exact ⟨shape, by simpa [or_comm] using isShape, isHome⟩
  distinct := by simpa [ne_comm] using fits.distinct
  migrates shape isShape := fits.migrates shape (by simpa [or_comm] using isShape)

theorem fits_migrateAllButBank : Fits .migrateAllButBank [([bankStoreKey], .memIAVL),
    ([evmStoreKey], .flatKV), (allModulesExcept [evmStoreKey, bankStoreKey], .migrating)] where
  modules := by
    have different := bankStoreKey_ne_evmStoreKey
    refine forall_mem_cons.mpr ⟨fun store => ?_, forall_mem_cons.mpr ⟨fun store => ?_,
      forall_mem_cons.mpr ⟨fun store => ?_, nofun⟩⟩⟩
    all_goals simp only [mem_allModulesExcept, mem_singleton, home]
    · by_cases isBank : store = bankStoreKey
      · simp [isBank, different, bankStoreKey_mem]
      · split_ifs <;> simp [isBank]
    · by_cases isEVM : store = evmStoreKey
      · simp [isEVM, evmStoreKey_mem]
      · split_ifs <;> simp [isEVM]
    · by_cases isEVM : store = evmStoreKey
      · simp [isEVM]
      · split_ifs <;> simp_all
  covers store _ := by
    rw [home]
    split_ifs <;> simp
  distinct := by simp
  migrates := fun _ _ _ => rfl

theorem newModuleRouter_ok {routes : List Route} (distinct : (routes.flatMap modules).Nodup) :
    newModuleRouter routes = .ok (.moduleRouter routes) :=
  if_pos distinct

theorem buildEVMMigratedRouter_eq : buildEVMMigratedRouter = .ok (.moduleRouter
    [⟨allModulesExcept [evmStoreKey], .memIAVL⟩, ⟨[evmStoreKey], .flatKV⟩]) :=
  newModuleRouter_ok (by decide)

theorem buildAllMigratedButBankRouter_eq : buildAllMigratedButBankRouter = .ok (.moduleRouter
    [⟨allModulesExcept [bankStoreKey], .flatKV⟩, ⟨[bankStoreKey], .memIAVL⟩]) :=
  newModuleRouter_ok (by decide)

section Migrations

variable {flatKV : Database} {size : Int} {owner : Owner}

theorem buildMigrateEVMRouter_eq (isOwner : newMigrationOwner stores size version0MemiavlOnly
    version1MigrateEVM [evmStoreKey] flatKV = .ok owner) :
    buildMigrateEVMRouter stores flatKV size = .ok (.moduleRouter
      [⟨allModulesExcept [evmStoreKey], .memIAVL⟩, ⟨[evmStoreKey], owner⟩]) := by
  rw [buildMigrateEVMRouter, isOwner]
  exact newModuleRouter_ok
    (by decide : (allModulesExcept [evmStoreKey] ++ ([evmStoreKey] ++ [])).Nodup)

theorem buildMigrateAllButBankRouter_eq (isOwner : newMigrationOwner stores size
    version1MigrateEVM version2MigrateAllButBank (allModulesExcept [evmStoreKey, bankStoreKey])
    flatKV = .ok owner) :
    buildMigrateAllButBankRouter stores flatKV size = .ok (.moduleRouter
      [⟨[bankStoreKey], .memIAVL⟩, ⟨[evmStoreKey], .flatKV⟩,
        ⟨allModulesExcept [evmStoreKey, bankStoreKey], owner⟩]) := by
  rw [buildMigrateAllButBankRouter, isOwner]
  exact newModuleRouter_ok (by decide : ([bankStoreKey] ++ ([evmStoreKey] ++
    (allModulesExcept [evmStoreKey, bankStoreKey] ++ []))).Nodup)

theorem buildMigrateBankRouter_eq (isOwner : newMigrationOwner stores size
    version2MigrateAllButBank version3FlatKVOnly [bankStoreKey] flatKV = .ok owner) :
    buildMigrateBankRouter stores flatKV size = .ok (.moduleRouter
      [⟨[bankStoreKey], owner⟩, ⟨allModulesExcept [bankStoreKey], .flatKV⟩]) := by
  rw [buildMigrateBankRouter, isOwner]
  exact newModuleRouter_ok
    (by decide : ([bankStoreKey] ++ (allModulesExcept [bankStoreKey] ++ [])).Nodup)

end Migrations

/-- A router can be built for every mode whose data is in place. -/
theorem buildRouter_of_placed
    (placed : Placed stores mode boundary databases) (flatKV : Option Database)
    (opened : mode ≠ .memiavlOnly → flatKV = some databases.flatKV) (size : Int) :
    ∃ router, buildRouter stores mode flatKV size = .ok router ∧
      RouterInvariant stores mode router databases := by
  cases mode with
  | memiavlOnly =>
    exact ⟨_, rfl, placed.routerInvariant (fits_single (fun _ => rfl) nofun) (by simp [routes])⟩
  | flatKVOnly =>
    cases opened nofun
    exact ⟨_, rfl, placed.routerInvariant (fits_single (fun _ => rfl) nofun) (by simp [routes])⟩
  | evmMigrated =>
    cases opened nofun
    have fits : Fits .evmMigrated
        [(allModulesExcept [evmStoreKey], .memIAVL), ([evmStoreKey], .flatKV)] :=
      fits_split evmStoreKey_mem (fun _ => rfl) nofun (by simp)
    exact ⟨_, buildEVMMigratedRouter_eq, placed.routerInvariant fits (by simp [routes])⟩
  | allMigratedButBank =>
    cases opened nofun
    have fits : Fits .allMigratedButBank
        [(allModulesExcept [bankStoreKey], .flatKV), ([bankStoreKey], .memIAVL)] :=
      fits_split bankStoreKey_mem (fun _ => rfl) nofun (by simp)
    exact ⟨_, buildAllMigratedButBankRouter_eq, placed.routerInvariant fits (by simp [routes])⟩
  | migrateEVM =>
    cases opened nofun
    obtain ⟨manager, isOwner, ok⟩ := placed.newMigrationOwner rfl size
      fun store => mem_storesToMigrate rfl
    refine ⟨_, buildMigrateEVMRouter_eq isOwner, placed.routerInvariant
      (fits_split evmStoreKey_mem (fun _ => rfl) nofun (fun _ => rfl)) ?_⟩
    exact forall_mem_cons.mpr ⟨.inl rfl, forall_mem_singleton.mpr (.inr (.inr ok))⟩
  | migrateBank =>
    cases opened nofun
    obtain ⟨manager, isOwner, ok⟩ := placed.newMigrationOwner rfl size
      fun store => mem_storesToMigrate rfl
    have fits : Fits .migrateBank
        [(allModulesExcept [bankStoreKey], .flatKV), ([bankStoreKey], .migrating)] :=
      fits_split bankStoreKey_mem (fun _ => rfl) nofun (fun _ => rfl)
    refine ⟨_, buildMigrateBankRouter_eq isOwner, placed.routerInvariant fits.swap ?_⟩
    exact forall_mem_cons.mpr ⟨.inr (.inr ok), forall_mem_singleton.mpr (.inr (.inl rfl))⟩
  | migrateAllButBank =>
    cases opened nofun
    obtain ⟨manager, isOwner, ok⟩ := placed.newMigrationOwner rfl size
      fun store => mem_storesToMigrate rfl
    refine ⟨_, buildMigrateAllButBankRouter_eq isOwner, placed.routerInvariant
      fits_migrateAllButBank ?_⟩
    exact forall_mem_cons.mpr ⟨.inl rfl, forall_mem_cons.mpr
      ⟨.inr (.inl rfl), forall_mem_singleton.mpr (.inr (.inr ok))⟩⟩
  | testOnlyDualWrite => exact absurd placed.chain (by decide)
  | auto => exact absurd placed.chain (by decide)

theorem RouterInvariant.setMigrationBatchSize
    (ok : RouterInvariant stores mode router databases) (batchSize : Int) :
    RouterInvariant stores mode (router.setMigrationBatchSize batchSize) databases := by
  cases router with
  | passthrough owner => exact ok
  | moduleRouter routes =>
    have sameHome : ∀ owner : Owner, (owner.setMigrationBatchSize batchSize).home = owner.home := by
      intro owner
      cases owner <;> rfl
    refine { ok with fits := ?_, serves := ?_ }
    · have sameShapes : (routes.map fun route =>
          { route with owner := route.owner.setMigrationBatchSize batchSize }).map shape =
          routes.map shape := by
        rw [map_map]
        exact map_congr_left fun route _ => by simp [shape, sameHome]
      exact sameShapes ▸ ok.fits
    · intro route isRoute
      obtain ⟨before, isBefore, rfl⟩ := mem_map.mp isRoute
      have serves := ok.serves before isBefore
      cases isOwner : before.owner with
      | migration =>
        rw [isOwner] at serves
        exact { serves with }
      | memIAVL | flatKV | dualWrite =>
        rw [isOwner] at serves
        exact serves

/-! ### Along the chain of modes -/

/-- A migration can start from a steady mode. -/
theorem Placed.enter {next : WriteMode}
    (placed : Placed stores mode boundary databases) (steady : mode.isMigrationMode = false)
    (isNext : mode.nextInChain = some next) : Placed stores next .notStarted databases := by
  obtain ⟨sameVersion, homes⟩ := home_next_of_steady steady isNext
  obtain rfl := placed.steady steady
  have chain : next ∈ migrationChain := by
    cases mode <;> cases isNext <;> decide
  refine { placed with
    chain := chain, memIAVL := ?_, flatKV := ?_, gone := nofun, inTrees := nofun, stored := ?_,
    version := ?_, steady := fun _ => rfl }
  · intro store isKey isHome
    exact placed.memIAVL store isKey (by simp [homes, isHome])
  · intro store isKey isHome
    exact placed.flatKV store isKey (by simp [homes, isHome])
  · have stored := placed.stored
    show (_ ∨ readVersionFromDB databases.flatKV = .ok (some next.startVersion)) ∧ _
    rw [sameVersion]
    exact stored
  · rw [sameVersion]
    exact placed.version

/-- A migration that is complete leads to the next steady mode. -/
theorem Placed.leave (placed : Placed stores mode .complete databases) :
    ∃ next, mode.nextInChain = some next ∧ next.isMigrationMode = false ∧
      Placed stores next .notStarted databases := by
  have migrates : mode.isMigrationMode = true := by
    cases migrates : mode.isMigrationMode with
    | true => rfl
    | false => cases placed.steady migrates
  obtain ⟨next, isNext, steady, isVersion, homes⟩ := home_next_of_migration migrates
  have chain : next ∈ migrationChain := by
    cases mode <;> cases isNext <;> decide
  have version : next.startVersion = mode.startVersion + 1 := by
    rw [isVersion]
    cases mode <;> first | rfl | cases migrates
  obtain ⟨isTarget, noBoundary⟩ := placed.stored
  have isStart : readVersionFromDB databases.flatKV = .ok (some next.startVersion) := by
    rw [version]
    exact isTarget
  refine ⟨next, isNext, steady, { placed with
    chain := chain, memIAVL := ?_, flatKV := ?_, gone := nofun, inTrees := nofun,
    stored := ⟨.inr isStart, noBoundary⟩, version := fun _ => ⟨_, isStart, rfl⟩,
    steady := fun _ => rfl }⟩
  · intro store isKey isHome
    rw [homes] at isHome
    split at isHome
    · cases isHome
    exact placed.memIAVL store isKey isHome
  · intro store isKey isHome key
    rw [homes] at isHome
    split at isHome
    · rename_i migrating
      exact placed.gone store isKey migrating key rfl
    · exact placed.flatKV store isKey isHome key

/-- The mode that flatkv stands for, by its version and boundary. -/
theorem deriveWriteMode_eq {flatKV : Database} {got : Option Nat}
    (chain : mode ∈ migrationChain) (isGot : readVersionFromDB flatKV = .ok got)
    (isVersion : got.getD 0 = mode.startVersion)
    (isBoundary : readMigrationBoundary flatKV = .ok boundary)
    (inFlight : mode.isMigrationMode = decide (boundary ≠ .notStarted)) :
    deriveWriteMode flatKV = .ok mode := by
  rw [deriveWriteMode, isGot, isBoundary]
  dsimp only
  rw [isVersion, ← inFlight]
  cases mode with
  | testOnlyDualWrite | auto => exact absurd chain (by decide)
  | _ => rfl

/-- What a restart derives from data that is in place: the mode itself, the one behind a
completed migration, or the one before a migration that has not moved anything. -/
theorem Placed.deriveWriteMode (placed : Placed stores mode boundary databases) :
    (∃ boundary, Placed stores mode boundary databases ∧
      Migration.deriveWriteMode databases.flatKV = .ok mode) ∨
    (∃ next, mode.nextInChain = some next ∧ Placed stores next .notStarted databases ∧
      Migration.deriveWriteMode databases.flatKV = .ok next) ∨
    mode.isMigrationMode = true ∧ ∃ previous, previous.nextInChain = some mode ∧
      Migration.deriveWriteMode databases.flatKV = .ok previous := by
  by_cases finished : boundary = .complete
  · subst finished
    obtain ⟨next, isNext, steady, after⟩ := placed.leave
    obtain ⟨got, isGot, isVersion⟩ := after.version nofun
    refine .inr (.inl ⟨next, isNext, after, ?_⟩)
    exact deriveWriteMode_eq after.chain isGot isVersion after.stored.2 (by simp [steady])
  obtain ⟨got, isGot, isVersion⟩ := placed.version finished
  have isBoundary := (placed.stored.unfinished finished).2
  by_cases inFlight : mode.isMigrationMode = decide (boundary ≠ .notStarted)
  · exact .inl ⟨boundary, placed,
      deriveWriteMode_eq placed.chain isGot isVersion isBoundary inFlight⟩
  obtain ⟨migrates, rfl⟩ : mode.isMigrationMode = true ∧ boundary = .notStarted := by
    cases migrates : mode.isMigrationMode with
    | true => simpa [migrates] using inFlight
    | false => simp [migrates, placed.steady migrates] at inFlight
  have before : ∃ previous : WriteMode, previous.nextInChain = some mode ∧
      previous ∈ migrationChain ∧ previous.isMigrationMode = false ∧
      previous.startVersion = mode.startVersion := by
    cases mode with
    | migrateEVM => exact ⟨.memiavlOnly, by decide⟩
    | migrateAllButBank => exact ⟨.evmMigrated, by decide⟩
    | migrateBank => exact ⟨.allMigratedButBank, by decide⟩
    | _ => cases migrates
  obtain ⟨previous, isPrevious, chain, steady, sameVersion⟩ := before
  refine .inr (.inr ⟨migrates, previous, isPrevious, ?_⟩)
  exact deriveWriteMode_eq chain isGot (isVersion.trans sameVersion.symm) isBoundary
    (by simp [steady])

end Modes

end SeiChain.Migration
