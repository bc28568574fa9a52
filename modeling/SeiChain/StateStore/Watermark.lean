/-
This file is about the version up to which the state store claims to have data.
The root multistore writes every block in two flushes. The first one, for the
working hash, takes the block's change sets and gives them to the state store,
which logs and queues them. The second one, at the commit, finds no change sets
and moves the latest version of the state store by itself.

If the background writer has emptied the queue before every commit, a running
node shows everything up to the latest version, and so does a recovered one if
nothing was queued with an empty value. Without that the second flush can overtake
the queue: the node then reports a version whose data it does not have, and after
a crash the recovery takes the data of that version for applied and never replays
it. An empty value that is replayed is lost as well: the changelog has made it nil.
-/

import SeiChain.Library.Transition
import SeiChain.StateStore.Composite

namespace SeiChain.StateStore

open Library List Mvcc

/-! ### Blocks of the root multistore -/

structure RootMultistore where
  lastCommitVersion : Nat
  ssStore : CompositeStateStore
  /-- The working hash of the current block was taken. -/
  hashed : Bool
  /-- What the blocks so far have written. -/
  written : List VersionedChangesets

/-- The node with a state store in a new directory and without the EVM split. -/
def freshNode : RootMultistore where
  lastCommitVersion := 0
  ssStore := ⟨Database.fresh, none⟩
  hashed := false
  written := []

/-- Give the change sets that the commitment stores have collected to the state store. They come in
the order of the store names. -/
def RootMultistore.flush (popped : List NamedChangeSet) (node : RootMultistore) : RootMultistore :=
  let currentVersion := node.lastCommitVersion + 1
  let changeSets := popped.filter fun changeSet => changeSet.pairs ≠ []
  { node with
    ssStore :=
      if changeSets = [] then node.ssStore.setLatestVersion currentVersion
      else node.ssStore.applyChangesetAsync currentVersion changeSets }

inductive NodeEvent where
  /-- The first flush of a block, with the change sets of the block. -/
  | getWorkingHash (popped : List NamedChangeSet)
  /-- The second flush of a block, after which the block is the last one. -/
  | commit
  /-- A turn of the background writer. -/
  | write
  deriving DecidableEq

def nodeStep (node : RootMultistore) : NodeEvent → Option RootMultistore
  | .getWorkingHash popped =>
    if node.hashed then none
    else some { node.flush popped with
      hashed := true
      written := node.written ++ [⟨node.lastCommitVersion + 1, popped⟩] }
  | .commit =>
    if node.hashed then some { node.flush [] with
      hashed := false
      lastCommitVersion := node.lastCommitVersion + 1 }
    else none
  | .write => node.ssStore.cosmosStore.writeAsyncInBackground.map fun cosmosStore =>
    { node with ssStore := { node.ssStore with cosmosStore := cosmosStore } }

/-- A commit finds the queue empty. -/
def QueueEmptyAtCommit (node : RootMultistore) : NodeEvent → Prop
  | .commit => node.ssStore.cosmosStore.pendingChanges = []
  | _ => True

instance (node : RootMultistore) (event : NodeEvent) :
    Decidable (QueueEmptyAtCommit node event) := by
  unfold QueueEmptyAtCommit
  split <;> infer_instance

/-- From the earliest to the latest version, the store shows what was written up to a version. -/
def CompositeStateStore.Shows (store : CompositeStateStore) (written : List VersionedChangesets) :
    Prop :=
  ∀ version storeKey key, store.getEarliestVersion ≤ version → version ≤ store.getLatestVersion →
    store.get storeKey version key = loggedValue written version (storeKey, key)

/-! ### The invariant -/

variable {node after : RootMultistore} {log : List VersionedChangesets} {version : Nat}
  {popped : List NamedChangeSet} {address : Address}

/-- The version of the newest block that has flushed its change sets. -/
def RootMultistore.flushedVersion (node : RootMultistore) : Nat :=
  if node.hashed then node.lastCommitVersion + 1 else node.lastCommitVersion

/-- The database has a history that shows what was written. -/
structure NodeInvariant (node : RootMultistore) (history : List VersionedChangesets) : Prop where
  unsplit : node.ssStore.evmStore = none
  ok : node.ssStore.cosmosStore.Ok history node.flushedVersion
  drained : node.hashed = false → node.ssStore.cosmosStore.pendingChanges = []
  shown : ∀ version address,
    loggedValue history version address = loggedValue node.written version address

theorem writesOf_filter_pairs :
    writesOf (popped.filter fun changeSet => changeSet.pairs ≠ []) = writesOf popped := by
  induction popped with
  | nil => rfl
  | cons changeSet =>
    by_cases empty : changeSet.pairs = [] <;> simp_all [writesOf]

theorem loggedValue_concat (entry : VersionedChangesets) :
    loggedValue (log ++ [entry]) version address =
      if entry.change.version ≤ version then
        (lastWrite (writesOf entry.changesets) address).getD (loggedValue log version address)
      else loggedValue log version address := by
  rw [loggedValue, map_append, map_singleton, valueAt_append]
  rfl

section

variable {history : List VersionedChangesets} (invariant : NodeInvariant node history)

include invariant

theorem NodeInvariant.getWorkingHash
    (stepped : nodeStep node (.getWorkingHash popped) = some after) :
    ∃ history, NodeInvariant after history := by
  obtain ⟨lastCommitVersion, ⟨cosmosStore, evmStore⟩, hashed, written⟩ := node
  obtain ⟨unsplit, ok, drained, shown⟩ := invariant
  cases unsplit
  cases hashed with
  | true => cases stepped
  | false =>
    cases stepped
    have queueEmpty := drained rfl
    by_cases noChange : popped.filter (fun changeSet => changeSet.pairs ≠ []) = []
    · -- nothing to log: the latest version moves, and the queue is empty
      have noWrites : writesOf popped = [] := by
        rw [← writesOf_filter_pairs, noChange]
        rfl
      have moved : (RootMultistore.flush popped ⟨lastCommitVersion, ⟨cosmosStore, none⟩, false,
          written⟩).ssStore = ⟨cosmosStore.setLatestVersion (lastCommitVersion + 1), none⟩ :=
        if_pos noChange
      refine ⟨history, congrArg _ moved, ?_, nofun, ?_⟩
      · rw [moved]
        exact ok.setLatestVersion queueEmpty (Nat.le_succ _)
      · intro version address
        rw [loggedValue_concat, ← shown, noWrites]
        exact (ite_self _).symm
    · have queued : (RootMultistore.flush popped ⟨lastCommitVersion, ⟨cosmosStore, none⟩, false,
          written⟩).ssStore = ⟨cosmosStore.applyChangesetAsync (lastCommitVersion + 1)
            (popped.filter fun changeSet => changeSet.pairs ≠ []), none⟩ :=
        if_neg noChange
      refine ⟨history ++ [⟨lastCommitVersion + 1,
        popped.filter fun changeSet => changeSet.pairs ≠ []⟩], congrArg _ queued, ?_, nofun, ?_⟩
      · rw [queued]
        exact ok.applyChangesetAsync (Nat.lt_succ_self _)
      · intro version address
        rw [loggedValue_concat, writesOf_filter_pairs, shown]
        exact (loggedValue_concat ⟨lastCommitVersion + 1, popped⟩).symm

theorem NodeInvariant.commit (queueEmpty : node.ssStore.cosmosStore.pendingChanges = [])
    (stepped : nodeStep node .commit = some after) : NodeInvariant after history := by
  obtain ⟨lastCommitVersion, ⟨cosmosStore, evmStore⟩, hashed, written⟩ := node
  obtain ⟨unsplit, ok, -, shown⟩ := invariant
  cases unsplit
  cases hashed with
  | false => cases stepped
  | true =>
    cases stepped
    exact ⟨rfl, ok.setLatestVersion queueEmpty le_rfl, fun _ => queueEmpty, shown⟩

theorem NodeInvariant.write
    (stepped : nodeStep node .write = some after) : NodeInvariant after history := by
  obtain ⟨cosmosStore, wrote, rfl⟩ := Option.map_eq_some_iff.mp stepped
  obtain ⟨unsplit, ok, drained, shown⟩ := invariant
  refine ⟨unsplit, ok.writeAsyncInBackground wrote, fun notHashed => ?_, shown⟩
  rw [Database.writeAsyncInBackground, drained notHashed] at wrote
  cases wrote

/-! ### The latest version and the data -/

theorem NodeInvariant.shows : node.ssStore.Shows node.written := by
  obtain ⟨unsplit, ok, -, shown⟩ := invariant
  intro version storeKey key _ notNewer
  rw [CompositeStateStore.get, unsplit, ← shown]
  exact ok.get notNewer storeKey key

/-- The recovery replays what was queued. -/
theorem NodeInvariant.recovers
    (noEmpty : ∀ entry ∈ node.ssStore.cosmosStore.pendingChanges, NoEmptyValue entry.changesets) :
    ∃ recovered, newCompositeStateStore node.ssStore = .ok recovered ∧
      recovered.Shows node.written := by
  obtain ⟨lastCommitVersion, ⟨cosmosStore, evmStore⟩, hashed, written⟩ := node
  obtain ⟨unsplit, ok, -, shown⟩ := invariant
  cases unsplit
  have opened : newCompositeStateStore ⟨cosmosStore, none⟩ =
      .ok ⟨(cosmosStore.changelog.filter fun entry =>
          cosmosStore.reopen.latestVersion < entry.version).foldl (replayCosmos false)
        cosmosStore.reopen, none⟩ := by
    rw [newCompositeStateStore,
      recoverCompositeStateStore_eq (ok.logged ▸ growing_logged ok.growing)]
    rfl
  refine ⟨_, opened, fun version storeKey key _ _ => ?_⟩
  obtain ⟨applied, rfl, holds⟩ := ok.current
  rw [← shown]
  refine (replayed_get ok.growing ok.logged holds noEmpty ?_).2 version storeKey key
  exact nofun

end

/-- What holds in every state of a node. -/
def HasHistory (node : RootMultistore) : Prop := ∃ history, NodeInvariant node history

theorem HasHistory.step {event : NodeEvent} (has : HasHistory node)
    (admitted : QueueEmptyAtCommit node event) (stepped : nodeStep node event = some after) :
    HasHistory after := by
  obtain ⟨history, invariant⟩ := has
  cases event with
  | getWorkingHash => exact invariant.getWorkingHash stepped
  | commit => exact ⟨history, invariant.commit admitted stepped⟩
  | write => exact ⟨history, invariant.write stepped⟩

/-- If the queue is empty at every commit, the node shows what was written up to the version that it
reports, at any moment, and after a crash at any moment at which no empty value is queued. -/
theorem watermark_follows_data (reached : Reaches nodeStep QueueEmptyAtCommit freshNode node) :
    node.ssStore.Shows node.written ∧
      ((∀ entry ∈ node.ssStore.cosmosStore.pendingChanges, NoEmptyValue entry.changesets) →
        ∃ recovered, newCompositeStateStore node.ssStore = .ok recovered ∧
          recovered.Shows node.written) := by
  have fresh : HasHistory freshNode := ⟨[], rfl, Database.ok_fresh, fun _ => rfl, fun _ _ => rfl⟩
  obtain ⟨history, invariant⟩ : HasHistory node :=
    reached.invariant fresh fun _ _ _ holds admitted stepped => holds.step admitted stepped
  exact ⟨invariant.shows, invariant.recovers⟩

/-! ### Blocks with one write to the bank store -/

def bankStore : StoreKey := ⟨[0x62, 0x61, 0x6e, 0x6b], by decide, by decide⟩

def bankWrite (value : Value) : NamedChangeSet := ⟨bankStore, [⟨[1], some value⟩]⟩

/-- The blocks of a node, with the background writer before each commit. The first one writes an
empty value. -/
def drainedBlocks : List NodeEvent :=
  [.getWorkingHash [bankWrite []], .write, .commit, .getWorkingHash [], .commit,
    .getWorkingHash [bankWrite [42]]]

theorem watermark_follows_data_drained :
    ∃ node, Reaches nodeStep QueueEmptyAtCommit freshNode node ∧
      node.ssStore.getLatestVersion = 2 ∧ node.ssStore.Shows node.written ∧
      ∃ recovered, newCompositeStateStore node.ssStore = .ok recovered ∧
        recovered.Shows node.written := by
  obtain ⟨node, reached, isLatest, noEmpty⟩ : ∃ node,
      Reaches nodeStep QueueEmptyAtCommit freshNode node ∧ node.ssStore.getLatestVersion = 2 ∧
        ∀ entry ∈ node.ssStore.cosmosStore.pendingChanges, NoEmptyValue entry.changesets :=
    exists_reaches drainedBlocks (by decide +kernel)
  exact ⟨node, reached, isLatest, (watermark_follows_data reached).imp_right (· noEmpty)⟩

/-- The second flush of the first block overtakes the queue: the node reports version 1 without its
data, and the recovery does not bring the data back. And a crash with an empty value in the queue:
the replayed block has no value there. -/
theorem watermark_outruns_data :
    (∃ node recovered, runEvents nodeStep freshNode [.getWorkingHash [bankWrite [42]], .commit] =
        some node ∧ newCompositeStateStore node.ssStore = .ok recovered ∧
      node.ssStore.getLatestVersion = 1 ∧ recovered.getLatestVersion = 1 ∧
      loggedValue node.written 1 (bankStore, [1]) = some [42] ∧
      node.ssStore.get bankStore 1 [1] = none ∧ recovered.get bankStore 1 [1] = none) ∧
    ∃ node recovered, runEvents nodeStep freshNode [.getWorkingHash [bankWrite []]] = some node ∧
      newCompositeStateStore node.ssStore = .ok recovered ∧ recovered.getLatestVersion = 1 ∧
      loggedValue node.written 1 (bankStore, [1]) = some [] ∧
      recovered.get bankStore 1 [1] = none :=
  ⟨⟨_, _, rfl, rfl, rfl, rfl, by decide, by decide, by decide⟩,
    _, _, rfl, rfl, rfl, by decide, by decide⟩

end SeiChain.StateStore
