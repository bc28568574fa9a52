/-
This file is about a crash inside the commit of the composite commit store. A
commit commits memiavl first and then flatkv, so that a crash can leave one of
them one version behind. The next process rolls the backend that is ahead back
to the version of the other one, unless one of them has no version yet: a flatkv
without a version is seeded with the version of memiavl instead.

After every block but the first, both backends come back with one version, and
every read gives what it gave after the block of that version. In the first
block the rule for seeding takes the torn commit for a flatkv that was just
added, and the data that the block wrote to flatkv is lost.
-/

import SeiChain.Migration.Composite

namespace SeiChain.Migration

open Library List Function Option CompositeCommitStore CommitStore

/-! ### Loading both backends -/

variable (stores : InitialStores) (config : WriteMode)

/-- The configured mode, or the one that flatkv stands for. -/
def resolveCurrentWriteMode (flatKV : Database) : Except WriteModeError WriteMode :=
  if config ≠ .auto then .ok config else deriveWriteMode flatKV

/-- The store on backends that were brought to one version. -/
def openBackends (memIAVL flatKV : CommitStore) : Except CompositeError CompositeCommitStore :=
  match resolveCurrentWriteMode config flatKV.working with
  | .error error => .error (.writeMode error)
  | .ok mode =>
    -- a flatkv that no mode uses is closed again
    if config = .auto ∧ mode = .memiavlOnly then
      resolve stores memIAVL (.closed flatKV) mode
    else resolve stores memIAVL (.opened flatKV) mode

/-- `LoadLatest` of a store with both backends, in any configured mode. -/
def loadBackends (memIAVL flatKV : CommitStore) : Except CompositeError CompositeCommitStore :=
  let (memIAVL, flatKV) := reconcileVersions memIAVL.load (seedFlatKV memIAVL.load flatKV.load)
  openBackends stores config memIAVL flatKV

/-- The backends that a crash inside a commit leaves: each with the new version or without it. -/
def CommitStore.commitIf (durable : Bool) (store : CommitStore) : CommitStore :=
  if durable then store.commit else store

/-! ### Runs with crashes -/

inductive TornEvent where
  | call (event : CompositeEvent)
  /-- The process ends inside a commit and the next one loads the store. -/
  | crashInCommit (memIAVLDurable flatKVDurable : Bool)
  deriving DecidableEq

/-- A store with what every read gave after the block of each version. -/
structure LoggedStore where
  store : CompositeCommitStore
  reads : Nat → StoreName → Key → Except CompositeError (Option Value)

/-- What the store reads is what it reads after the block that it commits next. -/
def LoggedStore.logNext (state : LoggedStore) :
    Nat → StoreName → Key → Except CompositeError (Option Value) :=
  update state.reads (state.store.memIAVL.version + 1) state.store.get

/-- A step of a store with both backends; only a store in the mode `Auto` changes its mode. -/
def tornStep (state : LoggedStore) : TornEvent → Option LoggedStore
  | .call (.applyChangeSets changeSets) =>
    (state.store.applyChangeSets changeSets).toOption.map fun store => { state with store := store }
  | .call .commit => state.store.commit.toOption.map fun store => ⟨store, state.logNext⟩
  | .call (.setMigrationBatchSize batchSize) =>
    some { state with store := state.store.setMigrationBatchSize batchSize }
  | .call (.setWriteMode target) =>
    if config = .auto then
      (state.store.setWriteMode stores target).toOption.map fun store => { state with store := store }
    else none
  | .call .restart =>
    match state.store.flatKV.disk with
    | none => none
    | some flatKV => (loadBackends stores config state.store.memIAVL flatKV).toOption.map fun store =>
        { state with store := store }
  | .crashInCommit memIAVLDurable flatKVDurable =>
    match state.store.flatKV.disk with
    | none => none
    | some flatKV =>
      (loadBackends stores config (state.store.memIAVL.commitIf memIAVLDurable)
        (flatKV.commitIf flatKVDurable)).toOption.map fun store => ⟨store, state.logNext⟩

/-- A block is recorded for the next process: its mode is configured, or flatkv stands for it. -/
def Recorded (config : WriteMode) (store : CompositeCommitStore) : Prop :=
  config = .auto → store.recordsMode = true

instance (config : WriteMode) (store : CompositeCommitStore) : Decidable (Recorded config store) :=
  inferInstanceAs (Decidable (config = .auto → store.recordsMode = true))

/-- Blocks write to mounted stores and are recorded, and no crash is in the commit of the first
block. -/
def AfterFirstBlock (stores : InitialStores) (config : WriteMode) (state : LoggedStore) :
    TornEvent → Prop
  | .call .commit => Recorded config state.store
  | .call event => event.Mounted stores
  | .crashInCommit _ _ => Recorded config state.store ∧ 0 < state.store.memIAVL.version

instance (stores : InitialStores) (config : WriteMode) (state : LoggedStore) :
    DecidablePred (AfterFirstBlock stores config state)
  | .call .commit => inferInstanceAs (Decidable (Recorded config state.store))
  | .call (.applyChangeSets changeSets) =>
    inferInstanceAs (Decidable ((CompositeEvent.applyChangeSets changeSets).Mounted stores))
  | .call (.setMigrationBatchSize _) | .call (.setWriteMode _) | .call .restart => .isTrue trivial
  | .crashInCommit _ _ =>
    inferInstanceAs (Decidable (Recorded config state.store ∧ 0 < state.store.memIAVL.version))

/-! ### Stores that can be loaded again -/

/-- The modes with both backends whose routers do not change. -/
def WriteMode.isFixed : WriteMode → Bool
  | evmMigrated | allMigratedButBank | testOnlyDualWrite => true
  | _ => false

variable (store : CompositeCommitStore)

/-- The store is in its configured mode and no store moves, or its data is where its mode expects
it. -/
inductive Live : Prop
  | fixed (isFixed : config.isFixed = true) (mode : store.currentWriteMode = config)
      (routed : ∀ flatKV batchSize,
        buildRouter stores config (some flatKV) batchSize = .ok store.router)
  | placed (expected : Contents)
      (invariant : CompositeInvariant stores ⟨store, expected, expected, false⟩)
      (notFirst : store.currentWriteMode ≠ .memiavlOnly)
      (mode : config = .auto ∨ store.currentWriteMode = config)

/-- Backends with the given data are opened as a store that reads as it did before. -/
def Reloads (databases : Databases) (reads : StoreName → Key → Except CompositeError (Option Value)) :
    Prop :=
  ∀ memIAVL flatKV : CommitStore, memIAVL.working = databases.memIAVL →
    flatKV.working = databases.flatKV →
    ∃ after, openBackends stores config memIAVL flatKV = .ok after ∧ after.memIAVL = memIAVL ∧
      after.flatKV = .opened flatKV ∧ Live stores config after ∧
      ∀ name ∈ stores.names, ∀ key, after.get name key = reads name key

variable {memIAVL : CommitStore}

section Live

variable {stores : InitialStores} {config : WriteMode} {store after : CompositeCommitStore}
  {flatKV : CommitStore}

theorem openBackends_eq {mode : WriteMode}
    (isMode : resolveCurrentWriteMode config flatKV.working = .ok mode)
    (used : config = .auto → mode ≠ .memiavlOnly) :
    openBackends stores config memIAVL flatKV = resolve stores memIAVL (.opened flatKV) mode := by
  rw [openBackends, isMode]
  exact if_neg fun idle => used idle.1 idle.2

theorem Live.reloads (live : Live stores config store) (isOpened : store.flatKV = .opened flatKV)
    (recorded : Recorded config store) :
    Reloads stores config store.databases store.get := by
  intro memIAVL flatKV' sameMemIAVL sameFlatKV
  have sameDatabases : (⟨memIAVL.working, flatKV'.working⟩) = store.databases := by
    rw [sameMemIAVL, sameFlatKV]
  cases live with
  | fixed isFixed mode routed =>
    have notAuto : config ≠ .auto := by
      rintro rfl
      cases isFixed
    rw [openBackends_eq (if_pos notAuto) fun isAuto => absurd isAuto notAuto, resolve]
    simp only [FlatKV.handle, routed]
    refine ⟨_, rfl, rfl, rfl, .fixed isFixed rfl routed, fun name _ key => ?_⟩
    simp only [CompositeCommitStore.get]
    rw [← sameDatabases]
    rfl
  | placed expected ok notFirst mode =>
    obtain ⟨boundary, placed⟩ := ok.router.placed
    -- the mode of the new process, with the data where that mode expects it
    obtain ⟨resolved, boundary, placed, isMode, used, kept⟩ : ∃ resolved boundary,
        Placed stores resolved boundary store.databases ∧
        resolveCurrentWriteMode config flatKV'.working = .ok resolved ∧
        resolved ≠ .memiavlOnly ∧ (config = .auto ∨ resolved = config) := by
      by_cases isAuto : config = .auto
      · obtain ⟨resolved, boundary, placed, derived, chained⟩ :=
          placed_of_recordsMode placed isOpened (recorded isAuto)
        refine ⟨resolved, boundary, placed, ?_, ?_, .inl isAuto⟩
        · rw [resolveCurrentWriteMode, if_neg (not_not_intro isAuto), sameFlatKV]
          exact derived
        · rcases chained with rfl | isNext
          · exact notFirst
          · exact WriteMode.nextInChain_ne_memiavlOnly isNext
      · have sameMode := mode.resolve_left isAuto
        exact ⟨_, boundary, placed, by rw [sameMode]; exact if_pos isAuto, notFirst, .inr sameMode⟩
    have opened : Placed stores resolved boundary
        ⟨memIAVL.working, (FlatKV.opened flatKV').working⟩ :=
      sameDatabases.symm ▸ placed
    obtain ⟨after, isResult, sameMem, sameFlat, sameMode, modeOpen, router⟩ :=
      resolve_invariant opened (fun _ => ⟨_, rfl⟩) fun isFirst => absurd isFirst used
    have sameData : after.databases = store.databases := by
      rw [databases, sameMem, sameFlat]
      exact sameDatabases
    have reopened : CompositeInvariant stores ⟨after, expected, expected, false⟩ :=
      ⟨router, modeOpen, sameData.symm ▸ ok.holds, by rintro ⟨⟩⟩
    refine ⟨after, ?_, sameMem, sameFlat, .placed expected reopened (sameMode ▸ used)
      (sameMode ▸ kept), fun name isStore key => ?_⟩
    · rw [openBackends_eq isMode fun _ => used, isResult]
    · exact (reopened.get isStore key).trans (ok.get isStore key).symm

/-! ### Steps of a live store -/

/-- No route is migrated. -/
def Router.Steady (router : Router) : Prop :=
  ∀ route ∈ router.routes, ∀ manager, route.owner ≠ .migration manager

variable {databases result : Databases} {changeSets : List NamedChangeSet}
  {firstBatchInBlock : Bool}

theorem Owner.write_steady {owner written : Owner} (steady : ∀ manager, owner ≠ .migration manager)
    (wrote : owner.write databases changeSets firstBatchInBlock = .ok (written, result)) :
    written = owner := by
  cases owner with
  | migration manager => exact absurd rfl (steady manager)
  | memIAVL | flatKV | dualWrite =>
    cases wrote
    rfl

theorem applyRoutes_steady {routes written : List Route}
    (steady : ∀ route ∈ routes, ∀ manager, route.owner ≠ .migration manager)
    (wrote : applyRoutes changeSets firstBatchInBlock routes databases = .ok (written, result)) :
    written = routes := by
  induction routes generalizing databases written with
  | nil =>
    cases wrote
    rfl
  | cons route rest ih =>
    rw [applyRoutes] at wrote
    split at wrote
    · cases wrote
    rename_i wroteFirst
    split at wrote
    · cases wrote
    rename_i wroteRest
    cases wrote
    rw [Owner.write_steady (steady route mem_cons_self) wroteFirst,
      ih (fun other member => steady other (mem_cons_of_mem _ member)) wroteRest]

variable {router : Router}

theorem Router.applyChangeSets_steady {written : Router} (steady : router.Steady)
    (wrote : router.applyChangeSets databases changeSets firstBatchInBlock =
      .ok (written, result)) : written = router := by
  rw [Router.applyChangeSets.eq_def] at wrote
  cases router with
  | passthrough owner =>
    dsimp only at wrote
    split at wrote
    · cases wrote
    rename_i wroteOwner
    cases wrote
    rw [Owner.write_steady (steady ⟨memIAVLStoreKeys, owner⟩ mem_cons_self) wroteOwner]
  | moduleRouter routes =>
    dsimp only at wrote
    split at wrote
    · cases wrote
    split at wrote
    · cases wrote
    rename_i newRoutes after wroteRoutes
    cases wrote
    have same : newRoutes = routes := applyRoutes_steady steady wroteRoutes
    rw [same]

theorem Router.setMigrationBatchSize_steady (steady : router.Steady)
    (batchSize : Int) : router.setMigrationBatchSize batchSize = router := by
  cases router with
  | passthrough owner => rfl
  | moduleRouter routes =>
    rw [Router.setMigrationBatchSize]
    congr 1
    refine (map_congr_left fun route member => ?_).trans (map_id routes)
    obtain ⟨modules, owner⟩ := route
    cases owner with
    | migration manager => exact absurd rfl (steady _ member manager)
    | memIAVL | flatKV | dualWrite => rfl

theorem newModuleRouter_routes {routes : List Route}
    (built : newModuleRouter routes = .ok router) : router = .moduleRouter routes := by
  rw [newModuleRouter] at built
  split at built
  · cases built
    rfl
  · cases built

/-- The routers of the fixed modes do not migrate. -/
theorem steady_of_isFixed (isFixed : config.isFixed = true)
    (routed : buildRouter stores config (some .empty) 0 = .ok router) : router.Steady := by
  cases config with
  | evmMigrated | allMigratedButBank | testOnlyDualWrite =>
    simp only [buildRouter, buildEVMMigratedRouter, buildAllMigratedButBankRouter,
      buildTestOnlyDualWriteRouter] at routed
    rw [newModuleRouter_routes routed]
    simp [Router.Steady, Router.routes]
  | _ => cases isFixed

/-- Both backends are open and nothing was committed or taken back. -/
structure SamePast (flatKV : CommitStore) (store after : CompositeCommitStore) : Prop where
  version : after.memIAVL.version = store.memIAVL.version
  history : after.memIAVL.history = store.memIAVL.history
  flatKV : ∃ flatKV', after.flatKV = .opened flatKV' ∧ flatKV'.version = flatKV.version ∧
    flatKV'.history = flatKV.history

section

variable (isOpened : store.flatKV = .opened flatKV)

include isOpened

theorem forward_spec (forwarded : store.forward changeSets firstBatchInBlock = .ok after) :
    SamePast flatKV store after ∧ after.currentWriteMode = store.currentWriteMode ∧
      (store.router.Steady → after.router = store.router) := by
  rw [forward] at forwarded
  split at forwarded
  · cases forwarded
  rename_i wrote
  cases forwarded
  rw [isOpened]
  exact ⟨⟨rfl, rfl, _, rfl, rfl, rfl⟩, rfl, fun steady =>
    Router.applyChangeSets_steady steady wrote⟩

theorem applyChangeSets_spec (applied : store.applyChangeSets changeSets = .ok after) :
    SamePast flatKV store after ∧ after.currentWriteMode = store.currentWriteMode ∧
      (store.router.Steady → after.router = store.router) := by
  rw [applyChangeSets] at applied
  split at applied
  · split at applied
    · cases applied
    rename_i forwarded
    cases applied
    obtain ⟨past, mode, router⟩ := forward_spec isOpened forwarded
    exact ⟨{ past with }, mode, router⟩
  · split at applied
    · cases applied
      exact ⟨⟨rfl, rfl, flatKV, isOpened, rfl, rfl⟩, rfl, fun _ => rfl⟩
    · exact forward_spec isOpened applied

theorem Live.applyChangeSets (live : Live stores config store)
    (mounted : stores.Mounts changeSets)
    (applied : store.applyChangeSets changeSets = .ok after) :
    Live stores config after ∧ SamePast flatKV store after := by
  obtain ⟨past, sameMode, sameRouter⟩ := applyChangeSets_spec isOpened applied
  refine ⟨?_, past⟩
  cases live with
  | fixed isFixed mode routed =>
    have same := sameRouter (steady_of_isFixed isFixed (routed .empty 0))
    exact .fixed isFixed (sameMode.trans mode) (same ▸ routed)
  | placed expected ok notFirst mode =>
    obtain ⟨result, isResult, kept⟩ := ok.applyChangeSets mounted
    cases isResult.symm.trans applied
    rw [← sameMode] at notFirst mode
    exact .placed _ { kept with durable := nofun } notFirst mode

omit isOpened in
theorem Live.setMigrationBatchSize (live : Live stores config store) (batchSize : Int) :
    Live stores config (store.setMigrationBatchSize batchSize) := by
  cases live with
  | fixed isFixed mode routed =>
    refine .fixed isFixed mode fun flatKV size => ?_
    rw [CompositeCommitStore.setMigrationBatchSize]
    rw [Router.setMigrationBatchSize_steady (steady_of_isFixed isFixed (routed .empty 0))]
    exact routed flatKV size
  | placed expected ok notFirst mode =>
    exact .placed expected (ok.setMigrationBatchSize batchSize) notFirst mode

theorem Live.setWriteMode {target : WriteMode} (live : Live stores .auto store)
    (accepted : store.setWriteMode stores target = .ok after) :
    Live stores .auto after ∧ SamePast flatKV store after := by
  cases live with
  | fixed isFixed => cases isFixed
  | placed expected ok notFirst =>
    have kept := ok.setWriteMode accepted
    suffices after.currentWriteMode ≠ .memiavlOnly ∧ SamePast flatKV store after from
      ⟨.placed expected { kept with durable := nofun } this.1 (.inl rfl), this.2⟩
    rw [CompositeCommitStore.setWriteMode] at accepted
    split at accepted
    · cases accepted
      exact ⟨notFirst, rfl, rfl, flatKV, isOpened, rfl, rfl⟩
    · split at accepted
      · cases accepted
      rename_i valid
      have isNext := validateTransition_ok valid
      split at accepted
      · cases accepted
      · cases accepted
      · dsimp only at accepted
        split at accepted <;> cases accepted
        refine ⟨WriteMode.nextInChain_ne_memiavlOnly isNext, rfl, rfl, _, rfl, ?_⟩
        rw [materializeFlatKV, isOpened]
        exact ⟨rfl, rfl⟩

end

theorem Live.commit (live : Live stores config store) (committed : store.commit = .ok after) :
    Live stores config after := by
  obtain ⟨-, -, sameRouter, sameMode⟩ := committedDatabases_commit committed
  cases live with
  | fixed isFixed mode routed =>
    exact .fixed isFixed (sameMode.trans mode) (sameRouter ▸ routed)
  | placed expected ok notFirst mode =>
    have kept := ok.commit committed
    rw [← sameMode] at notFirst mode
    exact .placed expected { kept with durable := nofun } notFirst mode

end Live

/-! ### Every version can be loaded -/

/-- Both backends are open at one version, and every version from `base` on can be loaded. -/
structure TornInvariant (base : Nat) (state : LoggedStore) : Prop where
  live : Live stores config state.store
  from_base : base ≤ state.store.memIAVL.version
  lockstep : ∃ flatKV, state.store.flatKV = .opened flatKV ∧
    flatKV.version = state.store.memIAVL.version ∧
    ∀ version, base ≤ version → version ≤ state.store.memIAVL.version →
      Reloads stores config ⟨state.store.memIAVL.history version, flatKV.history version⟩
        (state.reads version)

def LoggedStore.start : LoggedStore where
  store := store
  reads := fun _ => store.get

section Torn

variable {stores : InitialStores} {config : WriteMode} {base : Nat} {state : LoggedStore}
  {store after : CompositeCommitStore} {flatKV : CommitStore}

section

variable (ok : TornInvariant stores config base state)

include ok

/-- Calls that commit nothing keep the invariant. -/
theorem TornInvariant.quiet (live : Live stores config after)
    (past : ∀ flatKV, state.store.flatKV = .opened flatKV → SamePast flatKV state.store after) :
    TornInvariant stores config base { state with store := after } := by
  obtain ⟨-, fromBase, flatKV, isOpened, lockstep, reloads⟩ := ok
  obtain ⟨sameVersion, sameHistory, flatKV', isOpened', sameFlatVersion, sameFlatHistory⟩ :=
    past flatKV isOpened
  refine ⟨live, ?_, flatKV', isOpened', ?_, ?_⟩
  · rwa [sameVersion]
  · rw [sameFlatVersion, lockstep, sameVersion]
  · rw [sameVersion, sameHistory, sameFlatHistory]
    exact reloads

omit ok in
theorem CommitStore.history_commit (backend : CommitStore) (version : Nat) :
    backend.commit.history version =
      if version = backend.version + 1 then backend.working else backend.history version :=
  update_apply ..

/-- The versions up to the next one can be loaded from committed backends. -/
theorem TornInvariant.reloads_next
    (isOpened : state.store.flatKV = .opened flatKV) (recorded : Recorded config state.store)
    {version : Nat} (fromBase : base ≤ version) (upTo : version ≤ state.store.memIAVL.version + 1) :
    Reloads stores config
      ⟨state.store.memIAVL.commit.history version, flatKV.commit.history version⟩
      (state.logNext version) := by
  obtain ⟨live, -, flatKV', isOpened', lockstep, reloads⟩ := ok
  cases isOpened.symm.trans isOpened'
  rw [history_commit, history_commit, lockstep, LoggedStore.logNext, update_apply]
  by_cases isNext : version = state.store.memIAVL.version + 1
  · simp only [if_pos isNext]
    have sameDatabases : state.store.databases = ⟨state.store.memIAVL.working, flatKV.working⟩ := by
      rw [databases, isOpened]
      rfl
    exact sameDatabases ▸ live.reloads isOpened recorded
  · simp only [if_neg isNext]
    exact reloads version fromBase (by omega)

theorem TornInvariant.commit
    (recorded : Recorded config state.store) (committed : state.store.commit = .ok after) :
    TornInvariant stores config base ⟨after, state.logNext⟩ := by
  obtain ⟨flatKV, isOpened, -, -⟩ := ok.lockstep
  obtain ⟨isOpened', lockstep'⟩ := opened_lockstep isOpened committed
  have sameMemIAVL : after.memIAVL = state.store.memIAVL.commit := by
    rw [CompositeCommitStore.commit, isOpened] at committed
    dsimp only at committed
    split at committed <;> cases committed
    rfl
  refine ⟨ok.live.commit committed, ?_, flatKV.commit, isOpened', lockstep', ?_⟩
  · rw [sameMemIAVL]
    exact Nat.le_succ_of_le ok.from_base
  · intro version fromBase upTo
    rw [sameMemIAVL] at upTo ⊢
    exact ok.reloads_next isOpened recorded fromBase upTo

end

/-- Backends at one version whose versions can be loaded are opened as a store that reads as it did
after the block of that version. -/
theorem openBackends_invariant
    {reads : Nat → StoreName → Key → Except CompositeError (Option Value)}
    (fromBase : base ≤ memIAVL.version) (lockstep : flatKV.version = memIAVL.version)
    (memIAVLLoaded : memIAVL.working = memIAVL.committed)
    (flatKVLoaded : flatKV.working = flatKV.committed)
    (reloads : ∀ version, base ≤ version → version ≤ memIAVL.version →
      Reloads stores config ⟨memIAVL.history version, flatKV.history version⟩ (reads version)) :
    ∃ after, openBackends stores config memIAVL flatKV = .ok after ∧
      TornInvariant stores config base ⟨after, reads⟩ ∧ after.memIAVL = memIAVL ∧
      after.flatKV = .opened flatKV ∧
      ∀ name ∈ stores.names, ∀ key, after.get name key = reads memIAVL.version name key := by
  have flatKVLoaded : flatKV.working = flatKV.history memIAVL.version := by
    rw [← lockstep]
    exact flatKVLoaded
  obtain ⟨after, isResult, sameMemIAVL, isOpened, live, sameReads⟩ :=
    reloads _ fromBase (le_refl _) memIAVL flatKV memIAVLLoaded flatKVLoaded
  refine ⟨after, isResult, ⟨live, ?_, flatKV, isOpened, ?_, ?_⟩, sameMemIAVL, isOpened, sameReads⟩ <;> rw [sameMemIAVL]
  · exact fromBase
  · exact lockstep
  · exact reloads

/-- Backends that a crash inside a commit can leave, once they are brought to one version. -/
structure Reconciled (memIAVL flatKV : CommitStore) (version : Nat)
    (result : CommitStore × CommitStore) : Prop where
  memIAVLVersion : result.1.version = version
  flatKVVersion : result.2.version = version
  memIAVLLoaded : result.1.working = result.1.committed
  flatKVLoaded : result.2.working = result.2.committed
  memIAVLHistory : ∀ old ≤ version, result.1.history old = memIAVL.commit.history old
  flatKVHistory : ∀ old ≤ version, result.2.history old = flatKV.commit.history old

/-- Backends that have both committed go back to the older version of the two. -/
theorem reconcileVersions_of_ne (memIAVLUsed : memIAVL.version ≠ 0)
    (flatKVUsed : flatKV.version ≠ 0) :
    reconcileVersions memIAVL flatKV =
      (if flatKV.version < memIAVL.version then memIAVL.rollback flatKV.version else memIAVL,
        if memIAVL.version < flatKV.version then flatKV.rollback memIAVL.version else flatKV) := by
  rw [reconcileVersions]
  rcases Nat.lt_trichotomy memIAVL.version flatKV.version with less | same | greater
  · rw [if_neg (by omega)]
    simp [min_eq_left (less.le), less, Nat.not_lt_of_lt less]
  · simp [same]
  · rw [if_neg (by omega)]
    simp [min_eq_right (greater.le), greater, Nat.not_lt_of_lt greater]

/-- After the first block, a torn commit is brought to the new version if both backends have it, and
to the old one otherwise. -/
theorem reconcileVersions_torn
    (lockstep : flatKV.version = memIAVL.version) (notFirst : 0 < memIAVL.version)
    (memIAVLDurable flatKVDurable : Bool) :
    Reconciled memIAVL flatKV
      (memIAVL.version + if memIAVLDurable && flatKVDurable then 1 else 0)
      (reconcileVersions (memIAVL.commitIf memIAVLDurable).load
        (seedFlatKV (memIAVL.commitIf memIAVLDurable).load
          (flatKV.commitIf flatKVDurable).load)) := by
  have isOld : ∀ {backend : CommitStore}, backend.version = memIAVL.version →
      ∀ old ≤ memIAVL.version, backend.history old = backend.commit.history old := by
    intro backend sameVersion old notNewer
    rw [history_commit, if_neg (by omega)]
  have notSeeded : seedFlatKV (memIAVL.commitIf memIAVLDurable).load
      (flatKV.commitIf flatKVDurable).load = (flatKV.commitIf flatKVDurable).load := by
    refine if_neg fun fresh => ?_
    have isZero := fresh.2
    cases flatKVDurable with
    | false => exact absurd (lockstep.symm.trans isZero) (by omega)
    | true => exact absurd isZero (Nat.succ_ne_zero _)
  rw [notSeeded]
  cases memIAVLDurable with
  | false =>
    cases flatKVDurable with
    | false =>
      have neither : reconcileVersions memIAVL.load flatKV.load = (memIAVL.load, flatKV.load) :=
        reconcileVersions_of_lockstep lockstep
      refine neither ▸ ⟨rfl, lockstep, rfl, rfl, isOld rfl, isOld lockstep⟩
    | true =>
      have ahead : reconcileVersions memIAVL.load flatKV.commit.load =
          (memIAVL.load, flatKV.commit.load.rollback memIAVL.version) := by
        rw [reconcileVersions_of_ne]
        · simp [CommitStore.load, CommitStore.commit, lockstep]
        · exact ne_of_gt notFirst
        · exact Nat.succ_ne_zero _
      exact ahead ▸ ⟨rfl, rfl, rfl, rfl, isOld rfl, fun _ _ => rfl⟩
  | true =>
    cases flatKVDurable with
    | false =>
      have ahead : reconcileVersions memIAVL.commit.load flatKV.load =
          (memIAVL.commit.load.rollback memIAVL.version, flatKV.load) := by
        rw [reconcileVersions_of_ne]
        · simp [CommitStore.load, CommitStore.commit, lockstep]
        · exact Nat.succ_ne_zero _
        · exact ne_of_gt (lockstep ▸ notFirst)
      exact ahead ▸ ⟨rfl, lockstep, rfl, rfl, fun _ _ => rfl, isOld lockstep⟩
    | true =>
      have bothAhead : reconcileVersions memIAVL.commit.load flatKV.commit.load =
          (memIAVL.commit.load, flatKV.commit.load) :=
        reconcileVersions_of_lockstep (congrArg Nat.succ lockstep)
      exact bothAhead ▸ ⟨rfl, congrArg Nat.succ lockstep, rfl, rfl, fun _ _ => rfl, fun _ _ => rfl⟩

section

variable (ok : TornInvariant stores config base state)

include ok

theorem TornInvariant.restart (isOpened : state.store.flatKV = .opened flatKV) :
    ∃ after, loadBackends stores config state.store.memIAVL flatKV = .ok after ∧
      TornInvariant stores config base { state with store := after } := by
  obtain ⟨-, fromBase, flatKV', isOpened', lockstep, reloads⟩ := ok
  cases isOpened.symm.trans isOpened'
  have loaded : loadBackends stores config state.store.memIAVL flatKV =
      openBackends stores config state.store.memIAVL.load flatKV.load := by
    have loadedLockstep : flatKV.load.version = state.store.memIAVL.load.version := lockstep
    rw [loadBackends, seedFlatKV_of_lockstep loadedLockstep,
      reconcileVersions_of_lockstep loadedLockstep]
  obtain ⟨after, isResult, kept, -⟩ :=
    @openBackends_invariant state.store.memIAVL.load stores config base flatKV.load state.reads
      fromBase lockstep rfl rfl reloads
  exact ⟨after, loaded.trans isResult, kept⟩

/-- A crash inside a commit after the first block. -/
theorem TornInvariant.crashInCommit
    (isOpened : state.store.flatKV = .opened flatKV) (recorded : Recorded config state.store)
    (notFirst : 0 < state.store.memIAVL.version) (memIAVLDurable flatKVDurable : Bool) :
    ∃ after flatKV',
      loadBackends stores config (state.store.memIAVL.commitIf memIAVLDurable)
        (flatKV.commitIf flatKVDurable) = .ok after ∧
      TornInvariant stores config base ⟨after, state.logNext⟩ ∧
      after.memIAVL.version =
        state.store.memIAVL.version + (if memIAVLDurable && flatKVDurable then 1 else 0) ∧
      after.flatKV = .opened flatKV' ∧ flatKV'.version = after.memIAVL.version ∧
      ∀ name ∈ stores.names, ∀ key,
        after.get name key = state.logNext after.memIAVL.version name key := by
  obtain ⟨flatKV', isOpened', lockstep, -⟩ := ok.lockstep
  cases isOpened.symm.trans isOpened'
  obtain ⟨memIAVLVersion, flatKVVersion, memIAVLLoaded, flatKVLoaded, memIAVLHistory,
    flatKVHistory⟩ := reconcileVersions_torn lockstep notFirst memIAVLDurable flatKVDurable
  rw [loadBackends]
  generalize reconcileVersions _ _ = result at *
  have fromBase : base ≤ result.1.version := by
    rw [memIAVLVersion]
    exact Nat.le_add_right_of_le ok.from_base
  have reloads : ∀ version, base ≤ version → version ≤ result.1.version →
      Reloads stores config ⟨result.1.history version, result.2.history version⟩
        (state.logNext version) := by
    intro version fromBase upTo
    rw [memIAVLVersion] at upTo
    rw [memIAVLHistory version upTo, flatKVHistory version upTo]
    refine ok.reloads_next isOpened recorded fromBase (le_trans upTo ?_)
    split <;> omega
  obtain ⟨after, isResult, kept, sameMemIAVL, sameFlatKV, reads⟩ :=
    openBackends_invariant fromBase (flatKVVersion.trans memIAVLVersion.symm) memIAVLLoaded
      flatKVLoaded reloads
  refine ⟨after, result.2, isResult, kept, ?_, sameFlatKV, ?_, ?_⟩ <;> rw [sameMemIAVL]
  · exact memIAVLVersion
  · exact flatKVVersion.trans memIAVLVersion.symm
  · exact reads

theorem TornInvariant.call {event : CompositeEvent} {next : LoggedStore}
    (admitted : AfterFirstBlock stores config state (.call event))
    (stepped : tornStep stores config state (.call event) = some next) :
    TornInvariant stores config base next := by
  obtain ⟨flatKV, isOpened, -⟩ := ok.lockstep
  have opened : ∀ other, state.store.flatKV = .opened other → other = flatKV := by
    intro other isOther
    cases isOpened.symm.trans isOther
    rfl
  cases event with
  | applyChangeSets =>
    obtain ⟨after, isResult, rfl⟩ := map_eq_some_iff.mp stepped
    obtain ⟨live, past⟩ := ok.live.applyChangeSets isOpened admitted (toOption_eq_some isResult)
    exact ok.quiet live fun other isOther => opened other isOther ▸ past
  | commit =>
    obtain ⟨after, isResult, rfl⟩ := map_eq_some_iff.mp stepped
    exact ok.commit admitted (toOption_eq_some isResult)
  | setMigrationBatchSize batchSize =>
    cases stepped
    exact ok.quiet (ok.live.setMigrationBatchSize batchSize) fun other isOther =>
      ⟨rfl, rfl, other, isOther, rfl, rfl⟩
  | setWriteMode =>
    obtain ⟨rfl, taken⟩ := ite_none_right_eq_some.mp stepped
    obtain ⟨after, isResult, rfl⟩ := map_eq_some_iff.mp taken
    obtain ⟨live, past⟩ := ok.live.setWriteMode isOpened (toOption_eq_some isResult)
    exact ok.quiet live fun other isOther => opened other isOther ▸ past
  | restart =>
    simp only [tornStep, isOpened, FlatKV.disk] at stepped
    obtain ⟨after, isResult, rfl⟩ := map_eq_some_iff.mp stepped
    obtain ⟨result, loaded, kept⟩ := ok.restart isOpened
    cases loaded.symm.trans (toOption_eq_some isResult)
    exact kept

theorem TornInvariant.step {event : TornEvent} {next : LoggedStore}
    (admitted : AfterFirstBlock stores config state event)
    (stepped : tornStep stores config state event = some next) :
    TornInvariant stores config base next := by
  cases event with
  | call event => exact ok.call admitted stepped
  | crashInCommit memIAVLDurable flatKVDurable =>
    obtain ⟨flatKV, isOpened, -⟩ := ok.lockstep
    simp only [tornStep, isOpened, FlatKV.disk] at stepped
    obtain ⟨after, isResult, rfl⟩ := map_eq_some_iff.mp stepped
    obtain ⟨result, _, loaded, kept, -⟩ := ok.crashInCommit isOpened admitted.1 admitted.2
      memIAVLDurable flatKVDurable
    cases loaded.symm.trans (toOption_eq_some isResult)
    exact kept

end

end Torn

end SeiChain.Migration
