/-
This file models the write modes that a chain goes through while its stores move
from memiavl to flatkv. There are three migrations, one after the other, and a
steady mode before and after each. A transition goes one step along the chain of
modes; the mode after a restart is derived from the version and the boundary that
flatkv holds. The home of a store says, mode by mode, which backend has its data,
and how it changes along the chain is stated once for all modes.
-/

import SeiChain.Migration.Manager

namespace SeiChain.Migration

/-! ### Store keys -/

def bankStoreKey : StoreName := asBytes "bank"

def evmStoreKey : StoreName := asBytes "evm"

/-- The module stores of a chain. -/
def memIAVLStoreKeys : List StoreName :=
  [asBytes "acc", asBytes "authz", bankStoreKey, asBytes "staking", asBytes "mint",
    asBytes "distribution", asBytes "slashing", asBytes "gov", asBytes "params", asBytes "ibc",
    asBytes "upgrade", asBytes "feegrant", asBytes "evidence", asBytes "transfer",
    asBytes "capability", asBytes "oracle", evmStoreKey, asBytes "wasm", asBytes "epoch",
    asBytes "tokenfactory"]

/-- The modules without the given ones. The source refuses to exclude a module that is not in
the list; it is called for the two constants above only. -/
def allModulesExcept (modulesNotToInclude : List StoreName) : List StoreName :=
  memIAVLStoreKeys.filter fun name => name ∉ modulesNotToInclude

theorem mem_allModulesExcept {excluded : List StoreName} {name : StoreName} :
    name ∈ allModulesExcept excluded ↔ name ∈ memIAVLStoreKeys ∧ name ∉ excluded := by
  simp [allModulesExcept]

theorem migrationStore_not_mem_memIAVLStoreKeys : migrationStore ∉ memIAVLStoreKeys := by
  decide

theorem bankStoreKey_ne_evmStoreKey : bankStoreKey ≠ evmStoreKey := by
  decide

/-- The stores that `Initialize` accepts for a store whose mode may change. -/
structure InitialStores where
  names : List StoreName
  distinct : names.Nodup
  known : ∀ name ∈ names, name ∈ memIAVLStoreKeys

/-- The change sets are for stores that were mounted. -/
abbrev InitialStores.Mounts (stores : InitialStores) (changeSets : List NamedChangeSet) : Prop :=
  ∀ changeSet ∈ changeSets, changeSet.name ∈ stores.names

/-- The trees of memiavl that a migration walks. -/
def InitialStores.trees (stores : InitialStores) (storesToMigrate : List StoreName) : TreeNames :=
  .ofTrees stores.names storesToMigrate stores.distinct fun name isName =>
    (by decide : ∀ name ∈ memIAVLStoreKeys, name.length < 2 ^ 32) name (stores.known name isName)

/-! ### Modes and transitions -/

inductive WriteMode where
  | memiavlOnly
  | migrateEVM
  | evmMigrated
  | migrateAllButBank
  | allMigratedButBank
  | migrateBank
  | flatKVOnly
  | testOnlyDualWrite
  | auto
  deriving DecidableEq, Repr

inductive WriteModeError where
  | illegalTarget (target : WriteMode)
  | noTransitions (source target : WriteMode)
  | notNext (source target next : WriteMode)
  | flatKVNil
  | migration (error : MigrationError)
  | corruptMetadata (version : Nat) (boundary : MigrationBoundary)
  | unknownVersion (version : Nat)
  deriving DecidableEq, Repr

namespace WriteMode

def isMigrationMode : WriteMode → Bool
  | migrateEVM | migrateAllButBank | migrateBank => true
  | _ => false

def migrationChain : List WriteMode :=
  [memiavlOnly, migrateEVM, evmMigrated, migrateAllButBank, allMigratedButBank, migrateBank,
    flatKVOnly]

/-- The mode that follows in a chain. -/
def nextIn (mode : WriteMode) : List WriteMode → Option WriteMode
  | first :: second :: rest => if first = mode then some second else nextIn mode (second :: rest)
  | _ => none

def nextInChain (mode : WriteMode) : Option WriteMode := nextIn mode migrationChain

def validateTransition (source target : WriteMode) : Except WriteModeError Unit :=
  if target = auto ∨ target = testOnlyDualWrite then .error (.illegalTarget target)
  else
    match nextInChain source with
    | none => .error (.noTransitions source target)
    | some next => if target ≠ next then .error (.notNext source target next) else .ok ()

end WriteMode

def version0MemiavlOnly : Nat := 0

def version1MigrateEVM : Nat := 1

def version2MigrateAllButBank : Nat := 2

def version3FlatKVOnly : Nat := 3

/-- The version that the completion of a migration mode writes. -/
def migrationTargetVersions : WriteMode → Nat
  | .migrateEVM => version1MigrateEVM
  | .migrateAllButBank => version2MigrateAllButBank
  | .migrateBank => version3FlatKVOnly
  | _ => 0

/-- Whether a mode has finished its work; `flatKV` is `none` while it is not open. -/
def isModeComplete (flatKV : Option Database) (mode : WriteMode) : Except WriteModeError Bool :=
  if !mode.isMigrationMode then .ok true
  else
    match flatKV with
    | none => .error .flatKVNil
    | some flatKV =>
      match readVersionFromDB flatKV with
      | .error error => .error (.migration error)
      | .ok version => .ok (migrationTargetVersions mode ≤ version.getD 0)

/-- The mode that the metadata in flatkv stands for. -/
def deriveWriteMode (flatKV : Database) : Except WriteModeError WriteMode :=
  match readVersionFromDB flatKV with
  | .error error => .error (.migration error)
  | .ok version =>
    match readMigrationBoundary flatKV with
    | .error error => .error (.migration error)
    | .ok boundary =>
      let inFlight : Bool := boundary ≠ .notStarted
      match version.getD 0 with
      | 0 => .ok (if inFlight then .migrateEVM else .memiavlOnly)
      | 1 => .ok (if inFlight then .migrateAllButBank else .evmMigrated)
      | 2 => .ok (if inFlight then .migrateBank else .allMigratedButBank)
      | 3 => if inFlight then .error (.corruptMetadata 3 boundary) else .ok .flatKVOnly
      | version => .error (.unknownVersion version)

/-! ### Where the data of a store is -/

/-- The backend that has the data of a store, or both while it is migrated. -/
inductive Home where
  | memIAVL
  | flatKV
  | migrating
  deriving DecidableEq, Repr

namespace WriteMode

def home : WriteMode → StoreName → Home
  | memiavlOnly, _ => .memIAVL
  | migrateEVM, store => if store = evmStoreKey then .migrating else .memIAVL
  | evmMigrated, store => if store = evmStoreKey then .flatKV else .memIAVL
  | migrateAllButBank, store =>
    if store = evmStoreKey then .flatKV else if store = bankStoreKey then .memIAVL else .migrating
  | allMigratedButBank, store => if store = bankStoreKey then .memIAVL else .flatKV
  | migrateBank, store => if store = bankStoreKey then .migrating else .flatKV
  | flatKVOnly, _ => .flatKV
  | testOnlyDualWrite, _ => .memIAVL
  | auto, _ => .memIAVL

/-- The version of the data when a mode is entered. -/
def startVersion : WriteMode → Nat
  | evmMigrated | migrateAllButBank => version1MigrateEVM
  | allMigratedButBank | migrateBank => version2MigrateAllButBank
  | flatKVOnly => version3FlatKVOnly
  | _ => version0MemiavlOnly

/-- A step into a migration mode: the stores to migrate are in memiavl, and no other store
moves. -/
theorem home_next_of_steady {mode next : WriteMode} (steady : mode.isMigrationMode = false)
    (isNext : mode.nextInChain = some next) :
    next.startVersion = mode.startVersion ∧ ∀ store,
      mode.home store = if next.home store = .migrating then .memIAVL else next.home store := by
  cases mode <;> cases steady <;> cases isNext
  all_goals
    refine ⟨rfl, fun store => ?_⟩
    simp only [home]
    split_ifs <;> simp_all

/-- A step out of a completed migration: the stores that it migrated are in flatkv, and no other
store moves. -/
theorem home_next_of_migration {mode : WriteMode} (migrates : mode.isMigrationMode = true) :
    ∃ next, mode.nextInChain = some next ∧ next.isMigrationMode = false ∧
      next.startVersion = migrationTargetVersions mode ∧ ∀ store,
      next.home store = if mode.home store = .migrating then .flatKV else mode.home store := by
  have different := bankStoreKey_ne_evmStoreKey
  cases mode <;> cases migrates
  all_goals
    refine ⟨_, rfl, rfl, rfl, fun store => ?_⟩
    simp only [home]
    split_ifs <;> simp_all

end WriteMode

end SeiChain.Migration
