/-
This file proves that a caller does not notice a migration. A run is any sequence
of calls, changes of the batch size and restarts that make the manager and the
iterator anew from what the new database holds. Next to the databases it keeps
the map that a caller expects: the initial data of the old database with every
write since. A read always gives what is expected.
-/

import SeiChain.Library.Transition
import SeiChain.Migration.Manager

namespace SeiChain.Migration

open Library Database

structure MigrationSystem where
  manager : MigrationManager
  old : Database
  new : Database

inductive MigrationEvent where
  | applyChangeSets (changeSets : List NamedChangeSet) (firstBatchInBlock : Bool)
  | setMigrationBatchSize (batchSize : Int)
  /-- The process stops and comes back with the databases as they are. -/
  | restart (batchSize : Int)

variable (plan : MigrationPlan)

def migrationStep (system : MigrationSystem) : MigrationEvent → Option MigrationSystem
  | .applyChangeSets changeSets firstBatchInBlock =>
    match system.manager.applyChangeSets system.old system.new changeSets firstBatchInBlock with
    | .error _ => none
    | .ok (manager, old, new) => some { manager := manager, old := old, new := new }
  | .setMigrationBatchSize batchSize =>
    some { system with manager := system.manager.setMigrationBatchSize batchSize }
  | .restart batchSize =>
    match newMigrationManager batchSize plan.startVersion plan.targetVersion system.new
      (newMemiavlMigrationIterator plan.trees) with
    | .error _ => none
    | .ok manager => some { system with manager := manager }

/-- What the caller expects after an event: its writes, and nothing else. -/
def expectedAfter (expected : Contents) :
    MigrationEvent → Contents
  | .applyChangeSets changeSets _ => overlay expected (writesOf changeSets)
  | .setMigrationBatchSize _ => expected
  | .restart _ => expected

variable (state : MigrationSystem × Contents)

/-- A step of the system next to what the caller expects. -/
def trackedStep (event : MigrationEvent) :
    Option (MigrationSystem × Contents) :=
  (migrationStep plan state.1 event).map fun system => (system, expectedAfter state.2 event)

/-- The caller does not write to the reserved store. -/
def MigrationEvent.Unreserved : MigrationEvent → Prop
  | .applyChangeSets changeSets _ => ∀ changeSet ∈ changeSets, changeSet.name ≠ migrationStore
  | _ => True

/-- The databases before the migration: the old one has data in the trees only, the new one has
no data but its bookkeeping, which says that the migration is yet to start. -/
structure InitialDatabases (old new : Database) : Prop where
  covered : ∀ store key, (old.read store key).isSome → store ∈ plan.trees.names
  empty : ∀ store key, store ≠ migrationStore → new.read store key = none
  stored : plan.Stored new .notStarted

/-- What holds along a run. -/
structure TrackedInvariant : Prop where
  manager : ManagerInvariant plan (· ≠ migrationStore) state.1.manager state.1.old state.1.new
  reserved : ∀ key, state.1.old.read migrationStore key = none
  expected : ∀ store, store ≠ migrationStore → ∀ key,
    merged state.1.old state.1.new (store, key) = state.2 (store, key)

section Run

variable {plan : MigrationPlan} {event : MigrationEvent}
  {state : MigrationSystem × Contents}

theorem routes_unreserved (plan : MigrationPlan) : plan.Routes (· ≠ migrationStore) where
  trees := by
    rintro _ isName rfl
    exact plan.trees.unreserved isName
  unreserved := fun different => different rfl

theorem trackedInvariant_initial {old new : Database} (initial : InitialDatabases plan old new)
    {batchSize : Int} {manager : MigrationManager}
    (created : newMigrationManager batchSize plan.startVersion plan.targetVersion new
      (newMemiavlMigrationIterator plan.trees) = .ok manager) :
    TrackedInvariant plan (⟨manager, old, new⟩, old.contents) := by
  obtain ⟨manager', isManager, ok⟩ := managerInvariant_new batchSize
    (routes_unreserved plan) initial.stored nofun (fun store _ => initial.covered store) nofun
    fun store unreserved key => .inr (initial.empty store key unreserved)
  cases created.symm.trans isManager
  refine ⟨ok, fun key => ?_, fun store unreserved key => ?_⟩
  · rw [← Option.not_isSome_iff_eq_none]
    exact fun isLive => plan.trees.unreserved (initial.covered migrationStore key isLive)
  · show (old.read store key).or (new.read store key) = old.read store key
    rw [initial.empty store key unreserved, Option.or_none]

/-- Every event that leaves the reserved store alone can be taken, and keeps the invariant. -/
theorem TrackedInvariant.step (ok : TrackedInvariant plan state) (unreserved : event.Unreserved) :
    ∃ after, trackedStep plan state event = some after ∧ TrackedInvariant plan after := by
  have routes := routes_unreserved plan
  cases event with
  | applyChangeSets changeSets firstBatchInBlock =>
    obtain ⟨⟨manager, old, new⟩, applied, spec⟩ :=
      ok.manager.applyChangeSets routes unreserved firstBatchInBlock
    refine ⟨_, by rw [trackedStep, migrationStep, applied]; rfl, spec.invariant, fun key => ?_,
      fun store isRouted key => ?_⟩
    · exact (spec.framedOld migrationStore routes.unreserved key).trans (ok.reserved key)
    · refine (spec.written store isRouted key).trans ?_
      show overlay (merged state.1.old state.1.new) (writesOf changeSets) (store, key) =
        overlay state.2 (writesOf changeSets) (store, key)
      rw [overlay, overlay, ok.expected store isRouted key]
  | setMigrationBatchSize batchSize =>
    exact ⟨_, rfl, { ok.manager with }, ok.reserved, ok.expected⟩
  | restart batchSize =>
    obtain ⟨manager, isManager, again⟩ := ok.manager.restart routes batchSize
    refine ⟨(⟨manager, state.1.old, state.1.new⟩, state.2), ?_, again, ok.reserved, ok.expected⟩
    rw [trackedStep, migrationStep, isManager]
    rfl

/-- A call that writes to the reserved store is refused. -/
theorem unreserved_of_trackedStep {after : MigrationSystem × Contents}
    (taken : trackedStep plan state event = some after) : event.Unreserved := by
  cases event with
  | applyChangeSets changeSets =>
    intro changeSet isChangeSet reserved
    have refused : (changeSets.any fun changeSet => changeSet.name = migrationStore) = true :=
      List.any_eq_true.mpr ⟨changeSet, isChangeSet, by simpa using reserved⟩
    rw [trackedStep, migrationStep, MigrationManager.applyChangeSets, refused] at taken
    cases taken
  | setMigrationBatchSize batchSize => trivial
  | restart batchSize => trivial

/-- Transparency. However calls, batch sizes and restarts follow each other, a read gives the
last value written, or the initial one; no key is live in both databases, and no key up to
the boundary is live in the old one. No event fails, unless it writes to the reserved store. -/
theorem migration_transparent (plan : MigrationPlan) (old new : Database)
    (initial : InitialDatabases plan old new) (batchSize : Int) (manager : MigrationManager)
    (created : newMigrationManager batchSize plan.startVersion plan.targetVersion new
      (newMemiavlMigrationIterator plan.trees) = .ok manager)
    (system : MigrationSystem) (expected : Contents)
    (reached : Reaches (trackedStep plan) (fun _ _ => True) (⟨manager, old, new⟩, old.contents)
      (system, expected)) :
    (∀ store, store ≠ migrationStore → ∀ key,
      system.manager.read system.old system.new store key = .ok (expected (store, key))) ∧
    (∀ store key, system.old.read store key = none ∨ system.new.read store key = none) ∧
    (∀ store key, system.manager.boundary.isMigrated store key = true →
      system.old.read store key = none) ∧
    (∀ event : MigrationEvent, event.Unreserved →
      (trackedStep plan (system, expected) event).isSome) := by
  have invariant : TrackedInvariant plan (system, expected) := by
    refine reached.invariant (trackedInvariant_initial initial created) ?_
    intro state event after kept _ taken
    obtain ⟨_, taken', invariant⟩ := kept.step (unreserved_of_trackedStep taken)
    cases taken.symm.trans taken'
    exact invariant
  refine ⟨?_, ?_, ?_, ?_⟩
  · intro store unreserved key
    rw [invariant.manager.read (routes_unreserved plan) unreserved key,
      invariant.expected store unreserved key]
  · intro store key
    by_cases reserved : store = migrationStore
    · subst reserved
      exact .inl (invariant.reserved key)
    · exact invariant.manager.disjoint store reserved key
  · intro store key isMigrated
    by_cases reserved : store = migrationStore
    · subst reserved
      exact invariant.reserved key
    · exact invariant.manager.gone store reserved key isMigrated
  · intro event unreserved
    obtain ⟨after, taken, _⟩ := invariant.step unreserved
    rw [taken]
    rfl

end Run

/-! ### A migration of two small trees -/

def smallPlan : MigrationPlan where
  trees := .ofTrees [asBytes "evm", asBytes "bank"] [] (by decide) (by decide)
  startVersion := 0
  targetVersion := 1
  increasing := Nat.one_pos
  bounded := Nat.one_lt_two_pow' 63

def smallOld : Database :=
  empty.applyChangeSets [
    { name := asBytes "evm", pairs := [⟨[1], [10], false⟩, ⟨[2], [20], false⟩] },
    { name := asBytes "bank", pairs := [⟨[1], [30], false⟩] }]

def smallManager : MigrationManager where
  iterator := (newMemiavlMigrationIterator smallPlan.trees).setBoundary .notStarted
  boundary := .notStarted
  migrationBatchSize := 2
  targetVersion := 1

/-- A block that moves a key and rewrites another one, a restart, and a paused block. -/
def smallRun : List MigrationEvent :=
  [.applyChangeSets [{ name := asBytes "evm", pairs := [⟨[2], [99], false⟩, ⟨[3], [5], false⟩] }] true,
    .restart 0,
    .applyChangeSets [{ name := asBytes "bank", pairs := [⟨[1], [], true⟩] }] true]

theorem smallDatabases : InitialDatabases smallPlan smallOld empty where
  covered store key isLive := by
    by_contra notTree
    have others : ∀ changeSet ∈ [
        (⟨asBytes "evm", [⟨[1], [10], false⟩, ⟨[2], [20], false⟩]⟩ : NamedChangeSet),
        ⟨asBytes "bank", [⟨[1], [30], false⟩]⟩], changeSet.name ≠ store := by
      rintro changeSet isChangeSet rfl
      simp only [List.mem_cons, List.not_mem_nil, or_false] at isChangeSet
      rcases isChangeSet with rfl | rfl
      all_goals exact notTree (by decide)
    rw [smallOld, read_applyChangeSets_of_ne others] at isLive
    simp [Database.read, Database.empty] at isLive
  empty := by simp [Database.read, Database.empty]
  stored := ⟨.inl rfl, rfl⟩

theorem migration_transparent_small : ∃ system expected,
    Reaches (trackedStep smallPlan) (fun _ _ => True)
      (⟨smallManager, smallOld, empty⟩, smallOld.contents) (system, expected) ∧
    system.manager.boundary = .inProgress (asBytes "evm") [1] ∧
    system.manager.read system.old system.new (asBytes "evm") [2] = .ok (some [99]) ∧
    system.manager.read system.old system.new (asBytes "bank") [1] = .ok none := by
  obtain ⟨⟨system, expected⟩, reached, isBoundary, rewritten, deleted⟩ : ∃ state,
      Reaches (trackedStep smallPlan) (fun _ _ => True)
        (⟨smallManager, smallOld, empty⟩, smallOld.contents) state ∧
      state.1.manager.boundary = .inProgress (asBytes "evm") [1] ∧
      state.2 (asBytes "evm", [2]) = some [99] ∧ state.2 (asBytes "bank", [1]) = none :=
    exists_reaches smallRun (by decide +kernel)
  obtain ⟨reads, _⟩ := migration_transparent smallPlan smallOld empty smallDatabases 2
    smallManager (newMigrationManager_of_stored smallDatabases.stored 2) system expected reached
  refine ⟨system, expected, reached, isBoundary, ?_, ?_⟩
  · exact (reads (asBytes "evm") (by decide) [2]).trans (congrArg Except.ok rewritten)
  · exact (reads (asBytes "bank") (by decide) [1]).trans (congrArg Except.ok deleted)

end SeiChain.Migration
