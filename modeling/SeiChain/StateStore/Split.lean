/-
This file is about the crash recovery of the state store with the EVM split. A
call gives the Cosmos database its change sets without those of the EVM store,
and every EVM database its own part of those. Each database logs and queues what
it is given and has a background writer of its own. A crash leaves the changelogs
and, of each database, the batches of a front of its changelog.

The recovery reads the changelog of the Cosmos database only. It brings the
Cosmos half up to date. The EVM half gets a new version and no data, since that
changelog has no EVM change sets: an EVM database has after the recovery what
Pebble has kept of it.
-/

import SeiChain.Library.Simulation
import SeiChain.StateStore.Mvcc.EvmStore
import SeiChain.StateStore.Watermark

namespace SeiChain.StateStore

open Library List Mvcc

/-! ### Calls, writers and crashes -/

variable (separateEVMSubDBs : Bool) (calls : List VersionedChangesets)

/-- The database after turns of its background writer, at most as many as there are entries for. -/
def Database.written (db : Database) : Nat → Database
  | 0 => db
  | turns + 1 => match db.writeAsyncInBackground with
    | none => db
    | some after => after.written turns

/-- What a crash leaves: the changelogs, and the batches that Pebble has kept of each database. -/
def CompositeStateStore.crashed (store : CompositeStateStore) (cosmosKept : Nat)
    (evmKept : EVMStoreType → Nat) : CompositeStateStore where
  cosmosStore := store.cosmosStore.written cosmosKept
  evmStore := store.evmStore.map fun
    | .unified primaryDB => .unified (primaryDB.written (evmKept .misc))
    | .separate subDBs => .separate fun storeType => (subDBs storeType).written (evmKept storeType)

variable {separateEVMSubDBs calls} {db after : Database} {store : EVMStateStore Database}
  {version bound turns : Nat} {changesets : List NamedChangeSet} {storeType : EVMStoreType}
  {history : List VersionedChangesets}

/-- A batch can be applied after later calls as well, so the turns of the writers can come last. -/
theorem Database.writeAsyncInBackground_applyChangesetAsync
    (wrote : db.writeAsyncInBackground = some after) :
    (db.applyChangesetAsync version changesets).writeAsyncInBackground =
      some (after.applyChangesetAsync version changesets) := by
  unfold writeAsyncInBackground at wrote
  split at wrote <;> cases wrote
  rename_i queued
  simp [writeAsyncInBackground, applyChangesetAsync, queued, applyChangesetSync]

/-! ### What the databases hold -/

/-- A new database that was given a history. -/
def Database.given (history : List VersionedChangesets) : Database :=
  history.foldl (fun db entry => db.applyChangesetAsync entry.version entry.changesets) fresh

end SeiChain.StateStore
